import Jackdaw.Upstream.Machine

/-!
# Upstream — whose order, whose certificate

What a flow of `order_cert` holds on to between its POSTs (`Flow.Ok`), and what the client's map and
the CA's orders make of it (`Upstream.Ok`), over all interleavings of any number of flows.

* `flows_do_not_mix`: a flow polls the URL of the order its own `new_order` was handed and returns
  the certificate of that order, whether the URL came with the answer, from the map or from the body.
* `certificate_of_order`: what it returns was issued for the CSR the CA has accepted for that order,
  which is the flow's own unless its finalize was refused as already finalized.

The second is as far as it goes.  A flow that is refused so recovers the certificate of whoever
finalized the order before, and that one may have sent another CSR (`certificate_recovered`).
-/

namespace Jackdaw

open Support Support.Interleave

/-! ### What is known -/

namespace Upstream

/-- Flow `i` was handed order `n`. -/
def Handed (s : Upstream) (i n : Nat) : Prop := .handed i n ∈ s.log

/-- The finalize of flow `i` was refused as already finalized. -/
def AlreadyFinalized (s : Upstream) (i : Nat) : Prop :=
  ∃ exc, .refused i exc ∈ s.log ∧ isOrderAlreadyFinalized exc = true

/-- Flow `i` has sent its finalize of order `n` and may ask for the certificate. -/
def Finalized (s : Upstream) (i n : Nat) (csr : List UInt8) : Prop :=
  .accepted i n csr ∈ s.log ∨ s.AlreadyFinalized i

end Upstream

/-- No finalize of the order for another CSR is accepted any more. -/
def CaOrder.Took (csr : List UInt8) : CaOrder → Prop
  | .pending | .ready => False
  | .processing csr' | .valid csr' => csr' = csr
  | .invalid => True

/-- The answer is about order `n`. -/
structure OrderReply.About (ca : Ca) (n : Nat) (r : OrderReply) : Prop where
  location : ∀ u, r.location = some u → u = ca.orderUrl n
  finalize : r.finalize = ca.finalizeUrl n
  certificate : ∀ u, r.certificate = some u → u = ca.certUrl n

/-- What flow `i` holds on to while its POST is not answered. -/
def OrderCertPc.Pending (ca : Ca) (i : Nat) (csr : List UInt8) (s : Upstream) : OrderCertPc → Prop
  | .lock | .newOrder => ∀ n, ¬ s.Handed i n
  | .challenges f => ∃ n, s.Handed i n ∧ f = ca.finalizeUrl n
  | .finalize f stored => ∃ n, s.Handed i n ∧ f = ca.finalizeUrl n ∧
      ∀ u, stored = some u → u = ca.orderUrl n
  | .poll uri _ => ∃ n, s.Handed i n ∧ uri = ca.orderUrl n ∧ s.Finalized i n csr
  | .download url => ∃ n, s.Handed i n ∧ url = ca.certUrl n ∧ s.Finalized i n csr

/-- What it holds on to when its POST was answered. -/
def OrderCertPc.Answered (ca : Ca) (i : Nat) (csr : List UInt8) (s : Upstream) :
    OrderCertPc → Reply → Prop
  | .newOrder, .order (.ok r) => ∃ n, s.Handed i n ∧ r.About ca n
  | .finalize _ stored, .order r => ∃ n, s.Handed i n ∧ (∀ u, stored = some u → u = ca.orderUrl n) ∧
      match r with
      | .ok r => r.About ca n ∧ s.Finalized i n csr
      | .error exc => .refused i exc ∈ s.log
  | .poll uri _, .order (.ok r) =>
      ∃ n, s.Handed i n ∧ uri = ca.orderUrl n ∧ s.Finalized i n csr ∧ r.About ca n
  | .download _, .chain (.ok chain) => s.Handed i chain.order ∧
      s.orders chain.order = .valid chain.csr ∧ s.Finalized i chain.order csr
  | _, _ => True

/-- What flow `i` holds on to. -/
def Flow.Ok (ca : Ca) (i : Nat) (s : Upstream) (t : Flow) : Prop :=
  match t.reply with
  | none => t.pc.Pending ca i t.csr s
  | some r => t.pc.Answered ca i t.csr s r

/-- What holds of the client's map, the CA's orders and everything that has happened; `next` is the
number of the next flow. -/
structure Upstream.Ok (ca : Ca) (next : Nat) (s : Upstream) : Prop where
  urls : ∀ f u, s.client.orderUrls f = some u → ∃ n, f = ca.finalizeUrl n ∧ u = ca.orderUrl n
  fresh : ∀ i n, s.Handed i n → i < next
  unique : ∀ i m n, s.Handed i m → s.Handed i n → m = n
  accepted : ∀ i n csr, .accepted i n csr ∈ s.log → (s.orders n).Took csr
  polled : ∀ i u, .polled i u ∈ s.log → ∃ n, s.Handed i n ∧ u = ca.orderUrl n
  returned : ∀ i csr chain, .returned i csr chain ∈ s.log → s.Handed i chain.order ∧
    s.orders chain.order = .valid chain.csr ∧ (chain.csr = csr ∨ s.AlreadyFinalized i)

section

variable {ca : Ca} {st : OrderReply → Option UpstreamStatus} {s s' : Upstream} {t u : Flow}
  {i j n : Nat} {csr : List UInt8}

/-- What one move leaves of what the flows hold on to: the log grows, at most by an order handed to
flow `i`, and an order that is valid stays so. -/
structure Upstream.Leaves (i : Nat) (s s' : Upstream) : Prop where
  log : ∀ e ∈ s.log, e ∈ s'.log
  handed : ∀ j n, j ≠ i → s'.Handed j n → s.Handed j n
  valid : ∀ n csr, s.orders n = .valid csr → s'.orders n = .valid csr

theorem Upstream.Finalized.leaves (hl : s.Leaves i s') (h : s.Finalized j n csr) :
    s'.Finalized j n csr := by
  rcases h with h | ⟨exc, h, he⟩
  · exact .inl (hl.log _ h)
  · exact .inr ⟨exc, hl.log _ h, he⟩

/-- **No interference**: a move of another flow leaves what a flow holds on to. -/
theorem Flow.Ok.leaves (hl : s.Leaves i s') (hne : j ≠ i) (h : u.Ok ca j s) : u.Ok ca j s' := by
  obtain ⟨domain, csr, pc, reply⟩ := u
  cases reply with
  | none =>
      cases pc with
      | lock | newOrder => exact fun n hn => h n (hl.handed j n hne hn)
      | challenges f =>
          obtain ⟨n, hn, hf⟩ := h
          exact ⟨n, hl.log _ hn, hf⟩
      | finalize f stored =>
          obtain ⟨n, hn, hf⟩ := h
          exact ⟨n, hl.log _ hn, hf⟩
      | poll uri attempts =>
          obtain ⟨n, hn, hu, hz⟩ := h
          exact ⟨n, hl.log _ hn, hu, hz.leaves hl⟩
      | download url =>
          obtain ⟨n, hn, hu, hz⟩ := h
          exact ⟨n, hl.log _ hn, hu, hz.leaves hl⟩
  | some r =>
      cases pc with
      | lock | challenges => exact trivial
      | newOrder =>
          rcases r with (_ | r) | _
          · exact trivial
          · obtain ⟨n, hn, hr⟩ := h
            exact ⟨n, hl.log _ hn, hr⟩
          · exact trivial
      | finalize f stored =>
          rcases r with (exc | r) | _
          · obtain ⟨n, hn, hu, he⟩ := h
            exact ⟨n, hl.log _ hn, hu, hl.log _ he⟩
          · obtain ⟨n, hn, hu, hr, hz⟩ := h
            exact ⟨n, hl.log _ hn, hu, hr, hz.leaves hl⟩
          · exact trivial
      | poll uri attempts =>
          rcases r with (_ | r) | _
          · exact trivial
          · obtain ⟨n, hn, hu, hz, hr⟩ := h
            exact ⟨n, hl.log _ hn, hu, hz.leaves hl, hr⟩
          · exact trivial
      | download url =>
          rcases r with _ | (_ | chain)
          · exact trivial
          · exact trivial
          · obtain ⟨hn, hv, hz⟩ := h
            exact ⟨hl.log _ hn, hl.valid _ _ hv, hz.leaves hl⟩

/-! ### What the moves keep -/

/-- What an event says that happens at `s`. -/
def UpstreamEvent.Ok (ca : Ca) (next : Nat) (s : Upstream) : UpstreamEvent → Prop
  | .handed i _ => i < next ∧ ∀ m, ¬ s.Handed i m
  | .accepted _ n csr => (s.orders n).Took csr
  | .refused _ _ => True
  | .polled i u => ∃ n, s.Handed i n ∧ u = ca.orderUrl n
  | .returned i csr chain => s.Handed i chain.order ∧ s.orders chain.order = .valid chain.csr ∧
      (chain.csr = csr ∨ s.AlreadyFinalized i)

namespace Upstream

variable {next : Nat} {e : UpstreamEvent}

theorem AlreadyFinalized.cons (h : s.AlreadyFinalized i) :
    AlreadyFinalized { s with log := e :: s.log } i := by
  obtain ⟨exc, h, he⟩ := h
  exact ⟨exc, List.mem_cons_of_mem _ h, he⟩

theorem Ok.mono (hs : s.Ok ca next) : s.Ok ca (next + 1) :=
  { hs with fresh := fun i n h => (hs.fresh i n h).trans (Nat.lt_succ_self _) }

theorem Ok.cons (hs : s.Ok ca next) (he : e.Ok ca next s) :
    Ok ca next { s with log := e :: s.log } where
  urls := hs.urls
  fresh i n h := by
    rcases List.mem_cons.mp h with rfl | h
    · exact he.1
    · exact hs.fresh i n h
  unique i m n hm hn := by
    -- a flow is handed one order: when it is handed this one it has none
    rcases List.mem_cons.mp hm with rfl | hm'
    · rcases List.mem_cons.mp hn with e | hn'
      · cases e
        rfl
      · exact absurd hn' (he.2 n)
    · rcases List.mem_cons.mp hn with rfl | hn'
      · exact absurd hm' (he.2 m)
      · exact hs.unique i m n hm' hn'
  accepted i n csr h := by
    rcases List.mem_cons.mp h with rfl | h
    · exact he
    · exact hs.accepted i n csr h
  polled i u h := by
    rcases List.mem_cons.mp h with rfl | h
    · obtain ⟨n, hn, hu⟩ := he
      exact ⟨n, List.mem_cons_of_mem _ hn, hu⟩
    · obtain ⟨n, hn, hu⟩ := hs.polled i u h
      exact ⟨n, List.mem_cons_of_mem _ hn, hu⟩
  returned i csr chain h := by
    have hr : s.Handed i chain.order ∧ s.orders chain.order = .valid chain.csr ∧
        (chain.csr = csr ∨ s.AlreadyFinalized i) := by
      rcases List.mem_cons.mp h with rfl | h
      · exact he
      · exact hs.returned i csr chain h
    exact ⟨List.mem_cons_of_mem _ hr.1, hr.2.1, hr.2.2.imp_right AlreadyFinalized.cons⟩

theorem Ok.client (hs : s.Ok ca next) {client : LeClient}
    (h : ∀ f u, client.orderUrls f = some u → ∃ n, f = ca.finalizeUrl n ∧ u = ca.orderUrl n) :
    Ok ca next { s with client } :=
  { hs with urls := h }

/-- The CA moves an order that is not valid. -/
theorem Ok.orders (hs : s.Ok ca next) (order : CaOrder) (hv : ∀ csr, s.orders n ≠ .valid csr)
    (ht : ∀ csr, (s.orders n).Took csr → order.Took csr) :
    Ok ca next { s with orders := Function.update s.orders n order } where
  urls := hs.urls
  fresh := hs.fresh
  unique := hs.unique
  accepted i m csr h := by
    have hm := hs.accepted i m csr h
    by_cases e : m = n
    · subst e
      simpa using ht csr hm
    · simpa [Function.update_of_ne e] using hm
  polled := hs.polled
  returned i csr chain h := by
    obtain ⟨hi, hc, hz⟩ := hs.returned i csr chain h
    have e : chain.order ≠ n := fun e => hv _ (e ▸ hc)
    refine ⟨hi, ?_, hz⟩
    simpa [Function.update_of_ne e] using hc

theorem Leaves.client (client : LeClient) : s.Leaves i { s with client } where
  log _ h := h
  handed _ _ _ h := h
  valid _ _ h := h

theorem Leaves.cons (he : ∀ j n, e = .handed j n → j = i) :
    s.Leaves i { s with log := e :: s.log } where
  log _ h := List.mem_cons_of_mem _ h
  handed j n hne h := by
    rcases List.mem_cons.mp h with h | h
    · exact absurd (he j n h.symm) hne
    · exact h
  valid _ _ h := h

theorem Leaves.orders {order : CaOrder} (hv : ∀ csr, s.orders n ≠ .valid csr) :
    s.Leaves i { s with orders := Function.update s.orders n order } where
  log _ h := h
  handed _ _ _ h := h
  valid m csr h := by
    have e : m ≠ n := fun e => hv _ (e ▸ h)
    simpa [Function.update_of_ne e] using h

theorem Leaves.trans {s'' : Upstream} (h : s.Leaves i s') (h' : s'.Leaves i s'') :
    s.Leaves i s'' where
  log e he := h'.log e (h.log e he)
  handed j n hne hn := h.handed j n hne (h'.handed j n hne hn)
  valid n csr hn := h'.valid n csr (h.valid n csr hn)

end Upstream

/-! ### The answers of the CA -/

theorem Ca.about_reply (location : Bool) (authorizations : List String) (order : CaOrder) :
    (ca.reply n location authorizations order).About ca n where
  location u h := by
    cases location with
    | true => exact (Option.some.inj h).symm
    | false => cases h
  finalize := rfl
  certificate u h := by
    cases order with
    | valid csr => exact (Option.some.inj h).symm
    | pending | ready | processing | invalid => cases h

/-- The answers there are to the POST of flow `i`, with what the CA does along the way. -/
inductive Ca.Answers (ca : Ca) (i : Nat) (s : Upstream) (t : Flow) : Upstream → Reply → Prop
  | failed {r : Reply} (h : ∀ s, t.pc.Answered ca i t.csr s r) : Answers ca i s t s r
  | refused {f : String} {stored : Option String} (exc : AcmeError)
      (hpc : t.pc = .finalize f stored) :
      Answers ca i s t { s with log := .refused i exc :: s.log } (.order (.error exc))
  | handed (n : Nat) (location : Bool) (zs : List String) (hpc : t.pc = .newOrder) :
      Answers ca i s t { s with log := .handed i n :: s.log }
        (.order (.ok (ca.reply n location zs (s.orders n))))
  | polled {n attempts : Nat} (location : Bool) (zs : List String)
      (hpc : t.pc = .poll (ca.orderUrl n) attempts) :
      Answers ca i s t s (.order (.ok (ca.reply n location zs (s.orders n))))
  | accepted {n : Nat} {stored : Option String} {order : CaOrder} (location : Bool)
      (zs : List String)
      (hpc : t.pc = .finalize (ca.finalizeUrl n) stored) (hready : s.orders n = .ready)
      (horder : order.Took t.csr) :
      Answers ca i s t
        { s with
          orders := Function.update s.orders n order
          log := .accepted i n t.csr :: s.log }
        (.order (.ok (ca.reply n location zs order)))
  | downloaded {n : Nat} {csr : List UInt8} (hpc : t.pc = .download (ca.certUrl n))
      (hvalid : s.orders n = .valid csr) : Answers ca i s t s (.chain (.ok ⟨n, csr⟩))

theorem Ca.answers {ch : CaChoice} {r : Reply} (h : ca.answer i s t ch = some (s', r)) :
    ca.Answers i s t s' r := by
  obtain ⟨domain, csr, pc, reply⟩ := t
  cases ch with
  | refuse exc =>
      cases pc with
      | lock | challenges => cases h
      | newOrder | poll | download =>
          cases Option.some.inj h
          exact .failed fun _ => trivial
      | finalize f stored =>
          cases Option.some.inj h
          exact .refused exc rfl
  | order n location zs =>
      cases pc with
      | lock | challenges | finalize | download => cases h
      | newOrder =>
          cases Option.some.inj h
          exact .handed n location zs rfl
      | poll uri attempts =>
          simp only [Ca.answer] at h
          split at h
          case isTrue hu =>
            subst hu
            cases Option.some.inj h
            exact .polled location zs rfl
          case isFalse => cases h
  | accept n location issued zs =>
      simp only [Ca.answer] at h
      split at h
      · next hready =>
          split at h
          case isTrue hf =>
            subst hf
            cases Option.some.inj h
            exact .accepted location zs rfl hready (by cases issued <;> rfl)
          case isFalse => cases h
      · cases h
  | chain n =>
      simp only [Ca.answer] at h
      split at h
      · next hvalid =>
          split at h
          case isTrue hu =>
            subst hu
            cases Option.some.inj h
            exact .downloaded rfl hvalid
          case isFalse => cases h
      · cases h

/-- **An answer to a POST**: it is about the order the flow was handed. -/
theorem Ca.Answers.ok {r : Reply} {next : Nat} (h : ca.Answers i s t s' r) (hs : s.Ok ca next)
    (hi : i < next) (hp : t.pc.Pending ca i t.csr s) :
    s'.Ok ca next ∧ s.Leaves i s' ∧ t.pc.Answered ca i t.csr s' r := by
  obtain ⟨domain, csr, pc, reply⟩ := t
  cases h with
  | failed h => exact ⟨hs, .client _, h s⟩
  | refused exc hpc =>
      obtain rfl : pc = _ := hpc
      obtain ⟨n, hn, -, hu⟩ := hp
      have hl : s.Leaves i { s with log := .refused i exc :: s.log } :=
        .cons fun _ _ h => by cases h
      exact ⟨hs.cons trivial, hl, n, hl.log _ hn, hu, List.mem_cons_self⟩
  | handed n location zs hpc =>
      obtain rfl : pc = _ := hpc
      refine ⟨hs.cons ⟨hi, hp⟩, .cons fun j m h => ?_, n, List.mem_cons_self, ca.about_reply _ _ _⟩
      cases h
      rfl
  | @polled n _ location zs hpc =>
      obtain rfl : pc = _ := hpc
      obtain ⟨m, hm, hu, hz⟩ := hp
      obtain rfl := ca.orderUrl_inj hu
      exact ⟨hs, .client _, n, hm, rfl, hz, ca.about_reply _ _ _⟩
  | @accepted n stored order location zs hpc hready horder =>
      obtain rfl : pc = _ := hpc
      obtain ⟨m, hm, hf, hu⟩ := hp
      obtain rfl := ca.finalizeUrl_inj hf
      have hv : ∀ csr, s.orders n ≠ .valid csr := fun csr e => by
        rw [hready] at e
        cases e
      have hs' := hs.orders order hv fun csr h => by
        rw [hready] at h
        cases h
      refine ⟨hs'.cons ?_, (Upstream.Leaves.orders hv).trans (.cons fun _ _ h => by cases h),
        n, List.mem_cons_of_mem _ hm, hu, ca.about_reply _ _ _, .inl List.mem_cons_self⟩
      simpa [UpstreamEvent.Ok] using horder
  | @downloaded n csr' hpc hvalid =>
      obtain rfl : pc = _ := hpc
      obtain ⟨m, hm, hu, hz⟩ := hp
      obtain rfl := ca.certUrl_inj hu
      exact ⟨hs, .client _, hm, hvalid, hz⟩

/-! ### The segments of a flow -/

/-- What a segment has made sure of, by how it ends. -/
def OrderCertNext.Ok (ca : Ca) (i : Nat) (csr : List UInt8) (s : Upstream) : OrderCertNext → Prop
  | .goto p => p.Pending ca i csr s
  | .returned chain => s.Handed i chain.order ∧ s.orders chain.order = .valid chain.csr ∧
      s.Finalized i chain.order csr
  | .raised => True

/-- The three ways from an accepted finalize, and the one from a refused one. -/
theorem finalizeAndWait_ok {stored : Option String} {f : String} {r : Except AcmeError OrderReply}
    (h : (OrderCertPc.finalize f stored).Answered ca i csr s (.order r)) :
    (finalizeAndWait st stored r).Ok ca i csr s := by
  obtain ⟨n, hn, hu, hr⟩ := h
  cases r with
  | error exc =>
      simp only [finalizeAndWait]
      split
      · next url =>
          split
          case isTrue he => exact ⟨n, hn, hu url rfl, .inr ⟨exc, hr, he⟩⟩
          case isFalse => exact trivial
      · exact trivial
  | ok resp =>
      obtain ⟨hr, hz⟩ := hr
      simp only [finalizeAndWait]
      split
      · exact trivial
      · split
        · next uri hl => exact ⟨n, hn, hr.location uri hl, hz⟩
        · next uri _ => exact ⟨n, hn, hu uri rfl, hz⟩
        · split
          · next cert _ hc => exact ⟨n, hn, hr.certificate cert hc, hz⟩
          · exact trivial

theorem pollOrderForCert_ok {uri : String} {attempts : Nat} {r : Except AcmeError OrderReply}
    (h : (OrderCertPc.poll uri attempts).Answered ca i csr s (.order r)) :
    (pollOrderForCert st uri attempts r).Ok ca i csr s := by
  cases r with
  | error exc => exact trivial
  | ok resp =>
      obtain ⟨n, hn, hu, hz, hr⟩ := h
      simp only [pollOrderForCert]
      split
      · exact trivial
      · split
        · next cert hc => exact ⟨n, hn, hr.certificate cert hc, hz⟩
        · exact trivial
      · exact trivial
      · split
        · exact trivial
        · exact ⟨n, hn, hu, hz⟩

/-- **One segment**: what the client's map says stays true, and the flow goes on about its order. -/
theorem orderCertSeg_ok {client : LeClient} {o : OrderCertNext} {next : Nat}
    (h : orderCertSeg st s.client t.domain t.pc t.reply = some (client, o)) (hs : s.Ok ca next)
    (ht : t.Ok ca i s) : Upstream.Ok ca next { s with client } ∧ o.Ok ca i t.csr s := by
  obtain ⟨domain, csr, pc, reply⟩ := t
  cases reply with
  | none =>
      cases pc with
      | lock =>
          simp only [orderCertSeg] at h
          split at h
          · cases h
          · cases Option.some.inj h
            exact ⟨hs.client hs.urls, ht⟩
      | challenges f =>
          cases Option.some.inj h
          obtain ⟨n, hn, rfl⟩ := ht
          refine ⟨hs.client fun f u hu => ?_, n, hn, rfl, fun u hu => ?_⟩
          · exact hs.urls f u (LeClient.orderUrls_popOrderUrl hu)
          · obtain ⟨m, hf, hu⟩ := hs.urls _ u hu
            rwa [ca.finalizeUrl_inj hf]
      | newOrder | finalize | poll | download => cases h
  | some r =>
      cases pc with
      | lock | challenges => cases h
      | newOrder =>
          rcases r with (_ | r) | _
          · cases Option.some.inj h
            exact ⟨hs, trivial⟩
          · cases Option.some.inj h
            obtain ⟨n, hn, hr⟩ := ht
            refine ⟨hs.client fun f u hu => ?_, ?_⟩
            · rcases LeClient.orderUrls_newOrder hu with ⟨rfl, hl⟩ | hu
              · exact ⟨n, hr.finalize, hr.location u hl⟩
              · exact hs.urls f u hu
            · split
              · exact ⟨n, hn, hr.finalize⟩
              · exact trivial
          · cases h
      | finalize f stored =>
          rcases r with r | _
          · cases Option.some.inj h
            exact ⟨hs, finalizeAndWait_ok (f := f) ht⟩
          · cases h
      | poll uri attempts =>
          rcases r with r | _
          · cases Option.some.inj h
            exact ⟨hs, pollOrderForCert_ok ht⟩
          · cases h
      | download url =>
          rcases r with _ | (_ | chain)
          · cases h
          · cases Option.some.inj h
            exact ⟨hs, trivial⟩
          · cases Option.some.inj h
            exact ⟨hs, ht⟩

theorem Flow.leave_orderUrls (client : LeClient) : (t.leave client).orderUrls = client.orderUrls := by
  unfold Flow.leave
  split
  · rfl
  · rfl

/-- A returned chain is of the CSR of the flow, when the CA has accepted its finalize. -/
theorem Upstream.Ok.csr_of_finalized {next : Nat} {chain : Chain} (hs : s.Ok ca next)
    (hv : s.orders chain.order = .valid chain.csr) (hz : s.Finalized i chain.order csr) :
    chain.csr = csr ∨ s.AlreadyFinalized i := by
  rcases hz with ha | hz
  · have ht := hs.accepted i _ csr ha
    rw [hv] at ht
    exact .inl ht
  · exact .inr hz

theorem Flow.finish_child (t : Flow) {client : LeClient} {o : OrderCertNext} :
    (t.finish i s client o).child = none := by
  rcases o with p | _ | _
  · cases p <;> rfl
  · rfl
  · rfl

/-- What the flow leaves behind its segment. -/
theorem Flow.finish_ok {client : LeClient} {o : OrderCertNext} {next : Nat}
    (hs : Upstream.Ok ca next { s with client }) (ho : o.Ok ca i t.csr s) :
    (t.finish i s client o).shared.Ok ca next ∧ s.Leaves i (t.finish i s client o).shared ∧
      ∀ u, (t.finish i s client o).self = some u → u.Ok ca i (t.finish i s client o).shared := by
  have hleave : Upstream.Ok ca next { s with client := t.leave client } :=
    hs.client fun f u h => hs.urls f u (by rwa [Flow.leave_orderUrls] at h)
  cases o with
  | goto p =>
      cases p with
      | poll uri attempts =>
          obtain ⟨n, hn, hu, hz⟩ := ho
          have hl : s.Leaves i (t.finish i s client (.goto (.poll uri attempts))).shared :=
            (Upstream.Leaves.client client).trans (.cons fun _ _ h => by cases h)
          refine ⟨hs.cons ⟨n, hn, hu⟩, hl, fun u h => ?_⟩
          cases Option.some.inj h
          exact ⟨n, hl.log _ hn, hu, hz.leaves hl⟩
      | lock | newOrder | challenges | finalize | download =>
          refine ⟨hs, .client client, fun u h => ?_⟩
          cases Option.some.inj h
          exact ho
  | returned chain =>
      obtain ⟨hn, hv, hz⟩ := ho
      refine ⟨hleave.cons ⟨hn, hv, hleave.csr_of_finalized hv hz⟩,
        (Upstream.Leaves.client _).trans (.cons fun _ _ h => by cases h), fun u h => ?_⟩
      cases h
  | raised =>
      refine ⟨hleave, .client _, fun u h => ?_⟩
      cases h

/-! ### All interleavings -/

/-- One segment of a flow, or the answer to its POST. -/
theorem upstream_run {ca : Ca} {st : OrderReply → Option UpstreamStatus} {next : Nat}
    {a : UpstreamInput} {o : Outcome Upstream Flow}
    (h : (upstream ca st).run i next s t a = some o) (hs : s.Ok ca next) (hi : i < next)
    (ht : t.Ok ca i s) :
    o.shared.Ok ca next ∧ s.Leaves i o.shared ∧ (∀ u, o.self = some u → u.Ok ca i o.shared) ∧
      o.child = none := by
  cases a with
  | answer ch =>
      obtain ⟨domain, csr, pc, reply⟩ := t
      cases reply with
      | none =>
          obtain ⟨⟨s', r⟩, hr, rfl⟩ := Option.map_eq_some_iff.mp h
          obtain ⟨hs', hl, ht'⟩ := (Ca.answers hr).ok hs hi ht
          refine ⟨hs', hl, fun u hu => ?_, rfl⟩
          cases Option.some.inj hu
          exact ht'
      | some r => cases h
  | resume =>
      obtain ⟨⟨client, p⟩, hseg, rfl⟩ := Option.map_eq_some_iff.mp h
      obtain ⟨hc, hp⟩ := orderCertSeg_ok hseg hs ht
      obtain ⟨hs', hl, ht'⟩ := Flow.finish_ok hc hp
      exact ⟨hs', hl, ht', t.finish_child⟩
  | fail =>
      cases Option.some.inj h
      refine ⟨hs.client fun f u hu => ?_, .client _, fun u hu => (by cases hu), rfl⟩
      rw [Flow.leave_orderUrls] at hu
      exact hs.urls f u hu
  | orderCert | validate | issue | giveUp | finalized => cases h

/-- What the CA does on its own: it moves an order that is not valid. -/
theorem upstream_tick {ca : Ca} {st : OrderReply → Option UpstreamStatus} {a : UpstreamInput}
    (h : (upstream ca st).tick s a = some s') :
    ∃ n order, (∀ csr, s.orders n ≠ .valid csr) ∧
      (∀ csr, (s.orders n).Took csr → order.Took csr) ∧
      s' = { s with orders := Function.update s.orders n order } := by
  cases a with
  | validate n =>
      simp only [upstream] at h
      split at h
      · next hn =>
          exact ⟨n, .ready, by simp [hn], by simp [hn, CaOrder.Took], (Option.some.inj h).symm⟩
      · cases h
  | issue n =>
      simp only [upstream] at h
      split at h
      · next csr hn =>
          exact ⟨n, .valid csr, by simp [hn], by simp [hn, CaOrder.Took], (Option.some.inj h).symm⟩
      · cases h
  | giveUp n =>
      simp only [upstream] at h
      split at h
      · cases h
      · next hv => exact ⟨n, .invalid, hv, fun _ _ => trivial, (Option.some.inj h).symm⟩
  | finalized n csr =>
      simp only [upstream] at h
      split at h
      · next hn =>
          exact ⟨n, .processing csr, by simp [hn], by simp [hn, CaOrder.Took],
            (Option.some.inj h).symm⟩
      · cases h
  | orderCert | answer | resume | fail => cases h

def flowInvariant (ca : Ca) (st : OrderReply → Option UpstreamStatus) :
    Invariant (upstream ca st) (fun _ _ => True) .init where
  Inv := Upstream.Ok ca
  Ok := Flow.Ok ca
  start :=
    { urls := fun _ _ h => by cases h
      fresh := fun _ _ h => by cases h
      unique := fun _ _ _ h => by cases h
      accepted := fun _ _ _ h => by cases h
      polled := fun _ _ h => by cases h
      returned := fun _ _ _ h => by cases h }
  run := by
    intro c i t a o hr hi ho _ hs ht
    obtain ⟨hs', hl, hself, hchild⟩ := upstream_run ho hs (hr.lt_next hi) ht
    refine ⟨hs'.mono, hself, fun u hu => ?_, fun j u _ hne hu => hu.leaves hl hne⟩
    rw [hchild] at hu
    cases hu
  arrive := by
    intro c a t _ h hs
    cases a with
    | orderCert domain csr =>
        cases Option.some.inj h
        exact ⟨hs.mono, fun n hn => absurd (hs.fresh _ n hn) (lt_irrefl _)⟩
    | answer | resume | fail | validate | issue | giveUp | finalized => cases h
  tick := by
    intro c a s' _ h _ hs
    obtain ⟨n, order, hv, ht, rfl⟩ := upstream_tick h
    refine ⟨hs.orders order hv ht, fun j u hu => ?_⟩
    exact hu.leaves (i := j + 1) (.orders hv) (Nat.ne_of_lt (Nat.lt_succ_self j))
  restart := by
    intro c a s' t _ h _
    cases h

theorem Upstream.reach_ok {ca : Ca} {st : OrderReply → Option UpstreamStatus}
    {c : Config Upstream Flow} (h : Reach (upstream ca st) (fun _ _ => True) .init c) :
    c.shared.Ok ca c.next :=
  ((flowInvariant ca st).reach h).1

end

/-! ### Whose order -/

namespace Demo

def caUrl (kind : Char) (n : Nat) : String := String.ofList (kind :: List.replicate n '/')

theorem caUrl_injective (kind : Char) : Function.Injective (caUrl kind) := by
  intro m n h
  have := congrArg List.length (String.ofList_injective h)
  simpa using this

def ca : Ca where
  orderUrl := caUrl 'o'
  finalizeUrl := caUrl 'f'
  certUrl := caUrl 'c'
  orderUrl_inj := caUrl_injective 'o'
  finalizeUrl_inj := caUrl_injective 'f'
  certUrl_inj := caUrl_injective 'c'

def runFlows (as : List (Action UpstreamInput)) : Option (Config Upstream Flow) :=
  (upstream ca fun r => some r.status).schedule (fun _ _ => true) (.start .init) as

theorem reach_flows {as : List (Action UpstreamInput)} {c : Config Upstream Flow}
    (h : runFlows as = some c) :
    Reach (upstream ca fun r => some r.status) (fun _ _ => True) .init c :=
  Reach.schedule (fun _ _ _ => trivial) as .start h

/-- Flow `i` makes these moves. -/
def moves (i : Nat) (as : List UpstreamInput) : List (Action UpstreamInput) := as.map (.run i)

/-- From the lock to the finalize, for order `n`. -/
def toFinalize (n : Nat) : List UpstreamInput :=
  [.resume, .answer (.order n true ["z"]), .resume, .resume]

/-- From the poll to the end. -/
def toReturn (n : Nat) : List UpstreamInput :=
  [.resume, .answer (.order n true ["z"]), .resume, .answer (.chain n), .resume]

end Demo

/-- **Concurrent orders do not mix.**  A flow is handed one order.  It asks for no other one, and what
it returns is the certificate of that order. -/
theorem flows_do_not_mix {ca : Ca} {st : OrderReply → Option UpstreamStatus}
    {c : Config Upstream Flow} (h : Reach (upstream ca st) (fun _ _ => True) .init c) (i : Nat) :
    (∀ m n, .handed i m ∈ c.shared.log → .handed i n ∈ c.shared.log → m = n) ∧
    (∀ url, .polled i url ∈ c.shared.log →
      ∃ n, .handed i n ∈ c.shared.log ∧ url = ca.orderUrl n) ∧
    ∀ csr chain, .returned i csr chain ∈ c.shared.log →
      ∃ n, .handed i n ∈ c.shared.log ∧ chain.order = n ∧
        c.shared.orders n = .valid chain.csr := by
  have hs := Upstream.reach_ok h
  refine ⟨hs.unique i, hs.polled i, fun csr chain hr => ?_⟩
  obtain ⟨hn, hv, -⟩ := hs.returned i csr chain hr
  exact ⟨chain.order, hn, rfl, hv⟩

/-- Two flows whose orders are open at the same time; the answers to the finalizes come without a
`Location`. -/
def Demo.twoFlows : List (Action UpstreamInput) :=
  [.arrive (.orderCert "a" [0]), .arrive (.orderCert "b" [1]), .tick (.validate 0),
      .tick (.validate 1)] ++
    moves 0 (toFinalize 0) ++ moves 1 (toFinalize 1) ++
    moves 1 [.answer (.accept 1 false true [])] ++ moves 0 [.answer (.accept 0 false true [])] ++
    moves 0 (toReturn 0) ++ moves 1 (toReturn 1)

theorem flows_do_not_mix_run :
    ∃ c, Demo.runFlows Demo.twoFlows = some c ∧
      .polled 0 (Demo.ca.orderUrl 0) ∈ c.shared.log ∧ .returned 1 [1] ⟨1, [1]⟩ ∈ c.shared.log ∧
      ∀ m n, .handed 0 m ∈ c.shared.log → .handed 0 n ∈ c.shared.log → m = n := by
  have hrun : (Demo.runFlows Demo.twoFlows).any (fun c =>
      decide (.polled 0 (Demo.ca.orderUrl 0) ∈ c.shared.log) &&
      decide (.returned 1 [1] ⟨1, [1]⟩ ∈ c.shared.log)) = true := by decide +kernel
  obtain ⟨c, hc, h⟩ := (Option.any_eq_true _ _).mp hrun
  simp only [Bool.and_eq_true, decide_eq_true_eq] at h
  exact ⟨c, hc, h.1, h.2, (flows_do_not_mix (Demo.reach_flows hc) 0).1⟩

/-! ### Whose certificate -/

/-- **The CSR of a returned certificate** is the one the CA has accepted for the order of the flow.
It is the flow's own, or the CA has refused its finalize as already finalized. -/
theorem certificate_of_order {ca : Ca} {st : OrderReply → Option UpstreamStatus}
    {c : Config Upstream Flow} (h : Reach (upstream ca st) (fun _ _ => True) .init c) {i : Nat}
    {csr : List UInt8} {chain : Chain} (hr : .returned i csr chain ∈ c.shared.log) :
    .handed i chain.order ∈ c.shared.log ∧ c.shared.orders chain.order = .valid chain.csr ∧
    (∀ j csr', .accepted j chain.order csr' ∈ c.shared.log → chain.csr = csr') ∧
    (chain.csr = csr ∨ ∃ exc, .refused i exc ∈ c.shared.log ∧ isOrderAlreadyFinalized exc = true) := by
  have hs := Upstream.reach_ok h
  obtain ⟨hn, hv, hz⟩ := hs.returned i csr chain hr
  refine ⟨hn, hv, fun j csr' ha => ?_, hz⟩
  have ht := hs.accepted j chain.order csr' ha
  rwa [hv] at ht

/-- A flow fails behind its finalize; the next one of the domain is handed the same order. -/
def Demo.recovers : List (Action UpstreamInput) :=
  .arrive (.orderCert "a" [0]) :: .tick (.validate 0) ::
    moves 0 (toFinalize 0 ++ [.answer (.accept 0 true true []), .fail]) ++
    .arrive (.orderCert "a" [1]) ::
    moves 7 (toFinalize 0 ++ .answer (.refuse ⟨"[403] orderNotReady"⟩) :: toReturn 0)

theorem Demo.recovers_run :
    ∃ c, runFlows recovers = some c ∧ .returned 7 [1] ⟨0, [0]⟩ ∈ c.shared.log := by
  have hrun : (runFlows recovers).any (fun c =>
      decide (.returned 7 [1] ⟨0, [0]⟩ ∈ c.shared.log)) = true := by decide +kernel
  obtain ⟨c, hc, h⟩ := (Option.any_eq_true _ _).mp hrun
  exact ⟨c, hc, of_decide_eq_true h⟩

/-- The same, and then a flow of another domain, whose own finalize is accepted. -/
def Demo.recoversAndIssues : List (Action UpstreamInput) :=
  recovers ++ .arrive (.orderCert "b" [2]) :: .tick (.validate 1) ::
    moves 18 (toFinalize 1 ++ .answer (.accept 1 true true []) :: toReturn 1)

theorem certificate_of_order_run :
    ∃ c, Demo.runFlows Demo.recoversAndIssues = some c ∧
      (.returned 7 [1] ⟨0, [0]⟩ ∈ c.shared.log ∧ c.shared.orders 0 = .valid [0] ∧
        ∃ exc, .refused 7 exc ∈ c.shared.log ∧ isOrderAlreadyFinalized exc = true) ∧
      .returned 18 [2] ⟨1, [2]⟩ ∈ c.shared.log ∧ c.shared.orders 1 = .valid [2] ∧
        .handed 18 1 ∈ c.shared.log ∧ .accepted 18 1 [2] ∈ c.shared.log := by
  have hrun : (Demo.runFlows Demo.recoversAndIssues).any (fun c =>
      decide (.returned 7 [1] ⟨0, [0]⟩ ∈ c.shared.log) &&
      decide (.returned 18 [2] ⟨1, [2]⟩ ∈ c.shared.log) &&
      decide (.accepted 18 1 [2] ∈ c.shared.log)) = true := by decide +kernel
  obtain ⟨c, hc, h⟩ := (Option.any_eq_true _ _).mp hrun
  simp only [Bool.and_eq_true, decide_eq_true_eq] at h
  obtain ⟨⟨hrecovered, hissued⟩, haccepted⟩ := h
  obtain ⟨-, hv, -, hz⟩ := certificate_of_order (Demo.reach_flows hc) hrecovered
  obtain ⟨hhanded, hv', -, -⟩ := certificate_of_order (Demo.reach_flows hc) hissued
  refine ⟨c, hc, ⟨hrecovered, hv, hz.resolve_left ?_⟩, hissued, hv', hhanded, haccepted⟩
  decide

/-- **A certificate for the CSR of another flow.** -/
theorem certificate_recovered :
    ¬ ∀ (ca : Ca) (st : OrderReply → Option UpstreamStatus) (c : Config Upstream Flow),
      Reach (upstream ca st) (fun _ _ => True) .init c →
      ∀ i csr chain, .returned i csr chain ∈ c.shared.log → chain.csr = csr := by
  intro hall
  obtain ⟨c, hc, hr⟩ := Demo.recovers_run
  have e := hall Demo.ca _ c (Demo.reach_flows hc) 7 [1] ⟨0, [0]⟩ hr
  exact absurd e (by decide)

end Jackdaw
