import Jackdaw.Support.Drain
import Jackdaw.Upstream.Shared

/-!
# Upstream — every flow comes to an end

A flow of `order_cert` waits for an answer of the CA or for the lock of its domain, and for nothing
else.  The lock is held only as long as a flow signs for its domain (`lock_held`), and how often a
flow asks for its order is bounded by `_FINALIZE_POLL_ATTEMPTS`.

* `order_cert_bounded`: a flow polls at most sixty times and has at most one finalize decided.
* `order_cert_waits`: a flow can move, or the flow that signs for its domain can.
* `order_certs_end`: with no new calls the flows all end, every lock released, and they do so however
  the CA answers.
-/

namespace Jackdaw

open Support Support.Interleave

variable {ca : Ca} {st : OrderReply → Option UpstreamStatus} {s s' : Upstream} {t u : Flow}
  {i j n : Nat} {c c' : Config Upstream Flow} {P : Config Upstream Flow → Config Upstream Flow → Prop}

/-! ### What is left to do -/

/-- Twice the POSTs that are left, the answers and the goings-on counted apart. -/
def OrderCertPc.cost : OrderCertPc → Nat
  | .lock => 129
  | .newOrder => 128
  | .challenges _ => 126
  | .finalize _ _ => 125
  | .poll _ attempts => 2 * attempts + 3
  | .download _ => 1

def Flow.cost (t : Flow) : Nat := t.pc.cost + if t.reply.isSome then 0 else 1

theorem finalizeAndWait_cost {stored : Option String} {r : Except AcmeError OrderReply}
    {q : OrderCertPc} (h : finalizeAndWait st stored r = .goto q) : q.cost + 1 < 125 := by
  unfold finalizeAndWait at h
  repeat' split at h
  all_goals first | (cases h; simp [OrderCertPc.cost, finalizePollAttempts]) | cases h

theorem pollOrderForCert_cost {uri : String} {attempts : Nat} {r : Except AcmeError OrderReply}
    {q : OrderCertPc} (h : pollOrderForCert st uri attempts r = .goto q) :
    q.cost + 1 < 2 * attempts + 3 := by
  unfold pollOrderForCert at h
  repeat' split at h
  all_goals first | (cases h; done) | (cases h; simp only [OrderCertPc.cost]; omega)

theorem Flow.finish_cost {client : LeClient} {next : OrderCertNext} {k : Nat}
    (h : ∀ q, next = .goto q → q.cost + 1 < k) (hk : 0 < k) :
    (t.finish i s client next).self.elim 0 Flow.cost < k := by
  cases next with
  | goto q =>
      have hq := h q rfl
      cases q <;> exact hq
  | returned chain => exact hk
  | raised => exact hk

theorem orderCertSeg_cost {client : LeClient} {next : OrderCertNext}
    (h : orderCertSeg st s.client t.domain t.pc t.reply = some (client, next)) :
    (t.finish i s client next).self.elim 0 Flow.cost < t.cost := by
  obtain ⟨domain, csr, pc, reply⟩ := t
  cases reply with
  | none =>
      cases pc with
      | lock =>
          simp only [orderCertSeg] at h
          split at h
          · cases h
          · cases Option.some.inj h
            simp [Flow.finish, Flow.cost, OrderCertPc.cost]
      | challenges f =>
          cases Option.some.inj h
          simp [Flow.finish, Flow.cost, OrderCertPc.cost]
      | newOrder | finalize | poll | download => cases h
  | some r =>
      cases pc with
      | lock | challenges => cases h
      | newOrder =>
          rcases r with (_ | r) | _
          · cases Option.some.inj h
            simp [Flow.finish, Flow.cost, OrderCertPc.cost]
          · simp only [orderCertSeg] at h
            split at h <;> cases Option.some.inj h
            · simp [Flow.finish, Flow.cost, OrderCertPc.cost]
            · simp [Flow.finish, Flow.cost, OrderCertPc.cost]
          · cases h
      | finalize f stored =>
          rcases r with r | _
          · cases Option.some.inj h
            exact Flow.finish_cost (fun q => finalizeAndWait_cost) (Nat.succ_pos _)
          · cases h
      | poll uri attempts =>
          rcases r with r | _
          · cases Option.some.inj h
            exact Flow.finish_cost (fun q => pollOrderForCert_cost) (Nat.succ_pos _)
          · cases h
      | download url =>
          rcases r with _ | (_ | chain)
          · cases h
          · cases Option.some.inj h
            exact Nat.succ_pos _
          · cases Option.some.inj h
            exact Nat.succ_pos _

theorem Flow.cost_pos (t : Flow) : 0 < t.cost := by
  obtain ⟨domain, csr, pc, reply⟩ := t
  cases pc <;> exact Nat.lt_of_lt_of_le (Nat.succ_pos _) (Nat.le_add_right _ _)

/-- **Every move spends.** -/
theorem upstream_spends (ca : Ca) (st : OrderReply → Option UpstreamStatus)
    (P : Config Upstream Flow → Config Upstream Flow → Prop) :
    Spends (upstream ca st) P .init Flow.cost where
  run {c i t a out} _ _ h := by
    cases a with
    | answer ch =>
        obtain ⟨domain, csr, pc, reply⟩ := t
        cases reply with
        | none =>
            obtain ⟨⟨s', r⟩, -, rfl⟩ := Option.map_eq_some_iff.mp h
            exact Nat.lt_succ_self _
        | some r => cases h
    | resume =>
        obtain ⟨⟨client, next⟩, hseg, rfl⟩ := Option.map_eq_some_iff.mp h
        simp only [Flow.finish_child, Option.elim_none, Nat.add_zero]
        exact orderCertSeg_cost hseg
    | fail =>
        cases Option.some.inj h
        exact t.cost_pos
    | orderCert _ _ | validate _ | issue _ | giveUp _ | finalized _ _ => cases h

/-! ### Going on -/

/-- The answer is one to the POST the flow waits for. -/
def Reply.fits : OrderCertPc → Reply → Bool
  | .newOrder, .order _ | .finalize _ _, .order _ | .poll _ _, .order _ | .download _, .chain _ => true
  | _, _ => false

def Flow.Fits (t : Flow) : Prop := ∀ r, t.reply = some r → r.fits t.pc = true

theorem Ca.answer_fits {ch : CaChoice} {r : Reply} (h : ca.answer i s t ch = some (s', r)) :
    r.fits t.pc = true := by
  obtain ⟨domain, csr, pc, reply⟩ := t
  cases ch with
  | refuse exc => cases pc <;> cases h <;> rfl
  | order n location zs =>
      cases pc with
      | newOrder =>
          cases h
          rfl
      | poll uri attempts =>
          simp only [Ca.answer] at h
          split at h <;> cases h
          rfl
      | lock | challenges | finalize | download => cases h
  | accept n location issued zs =>
      simp only [Ca.answer] at h
      split at h
      · split at h <;> cases h
        rfl
      · cases h
  | chain n =>
      simp only [Ca.answer] at h
      split at h
      · split at h <;> cases h
        rfl
      · cases h

theorem Flow.finish_reply {client : LeClient} {next : OrderCertNext}
    (h : (t.finish i s client next).self = some u) : u.reply = none := by
  cases next with
  | goto q => cases q <;> cases h <;> rfl
  | returned _ | raised => cases h

/-- The answer a flow has fits. -/
def fitsInvariant (ca : Ca) (st : OrderReply → Option UpstreamStatus)
    (P : Config Upstream Flow → Config Upstream Flow → Prop) :
    Invariant (upstream ca st) P .init where
  Inv _ _ := True
  Ok _ _ t := t.Fits
  start := trivial
  run {c i t a out} _ _ h _ _ ht := by
    refine ⟨trivial, fun u hu => ?_, fun u hu => ?_, fun j u _ _ hu => hu⟩
    · cases a with
      | answer ch =>
          obtain ⟨domain, csr, pc, reply⟩ := t
          cases reply with
          | none =>
              obtain ⟨⟨s', r⟩, hr, rfl⟩ := Option.map_eq_some_iff.mp h
              cases Option.some.inj hu
              intro r' e
              cases Option.some.inj e
              exact Ca.answer_fits hr
          | some r => cases h
      | resume =>
          obtain ⟨⟨client, next⟩, -, rfl⟩ := Option.map_eq_some_iff.mp h
          intro r e
          rw [Flow.finish_reply hu] at e
          cases e
      | fail =>
          cases Option.some.inj h
          cases hu
      | orderCert _ _ | validate _ | issue _ | giveUp _ | finalized _ _ => cases h
    · rw [(upstream_moves h).2] at hu
      cases hu
  arrive {c a t} _ ht _ := by
    refine ⟨trivial, fun r e => ?_⟩
    cases a with
    | orderCert domain csr =>
        cases Option.some.inj ht
        cases e
    | _ => cases ht
  tick _ _ _ _ := ⟨trivial, fun _ _ h => h⟩
  restart _ h _ := by cases h

/-- Flow `i` can move on, without failing. -/
def Flow.Moveable (ca : Ca) (st : OrderReply → Option UpstreamStatus) (c : Config Upstream Flow)
    (i : Nat) : Prop :=
  ∃ a c', a ≠ .fail ∧ (upstream ca st).step c (.run i a) = some c'

theorem orderCertSeg_exists {client : LeClient} {domain : String} {pc : OrderCertPc} {r : Reply}
    (h : r.fits pc = true) : ∃ x, orderCertSeg st client domain pc (some r) = some x := by
  cases pc with
  | lock | challenges => cases r <;> cases h
  | newOrder => rcases r with (_ | _) | _ <;> first | exact ⟨_, rfl⟩ | cases h
  | finalize | poll => cases r <;> first | exact ⟨_, rfl⟩ | cases h
  | download => rcases r with _ | (_ | _) <;> first | exact ⟨_, rfl⟩ | cases h

/-- Only the lock holds a flow up. -/
theorem moveable_of_free (ht : c.tasks i = some t) (hfits : t.Fits)
    (hfree : t.pc = .lock → c.shared.client.locked t.domain = false) :
    Flow.Moveable ca st c i := by
  have resumes : (∃ x, orderCertSeg st c.shared.client t.domain t.pc t.reply = some x) →
      Flow.Moveable ca st c i := by
    rintro ⟨x, hx⟩
    exact ⟨.resume, _, (fun e => by cases e), by simp [Machine.step, upstream, ht, hx]; rfl⟩
  have answered : (∃ x, ca.answer i c.shared t (.refuse ⟨""⟩) = some x) → t.reply = none →
      Flow.Moveable ca st c i := by
    rintro ⟨x, hx⟩ hr
    exact ⟨.answer (.refuse ⟨""⟩), _, (fun e => by cases e), by simp [Machine.step, upstream, ht, hr, hx]; rfl⟩
  cases hr : t.reply with
  | some r =>
      obtain ⟨x, hx⟩ : ∃ x, orderCertSeg st c.shared.client t.domain t.pc (some r) = some x :=
        orderCertSeg_exists (hfits r hr)
      exact resumes ⟨x, by rw [hr, hx]⟩
  | none =>
      obtain ⟨domain, csr, pc, reply⟩ := t
      obtain rfl : reply = none := hr
      cases pc with
      | lock =>
          have hlock := hfree rfl
          exact resumes ⟨_, by simp only [orderCertSeg]; rw [if_neg (by simp [hlock])]⟩
      | challenges f => exact resumes ⟨_, rfl⟩
      | newOrder | finalize | poll | download => exact answered ⟨_, rfl⟩ rfl

/-! ### The locks are released -/

/-- A lock that is held is held by a flow that signs for its domain. -/
def Held (c : Config Upstream Flow) : Prop :=
  ∀ d, c.shared.client.locked d = true → ∃ i t, c.tasks i = some t ∧ t.Signing ∧ t.domain = d

/-- A lock that is held after a move is held by the flow that moves, or was held by another one. -/
theorem Flow.Moves.held {client client' : LeClient} {self : Option Flow} {d : String}
    (h : t.Moves client client' self) (hd : client'.locked d = true) :
    (∃ u, self = some u ∧ u.Signing ∧ u.domain = d) ∨
      client.locked d = true ∧ ¬ (t.Signing ∧ t.domain = d) := by
  have stays : ∀ {u : Flow}, u.domain = t.domain → (t.Signing → u.Signing) →
      client.locked d = true → (∃ v, some u = some v ∧ v.Signing ∧ v.domain = d) ∨
        client.locked d = true ∧ ¬ (t.Signing ∧ t.domain = d) := by
    intro u hu hsig hl
    by_cases hown : t.Signing ∧ t.domain = d
    · exact .inl ⟨u, rfl, hsig hown.1, hu.trans hown.2⟩
    · exact .inr ⟨hl, hown⟩
  have leaves : ∀ {client₁ : LeClient}, client₁.locked = client.locked →
      (t.leave client₁).locked d = true →
        client.locked d = true ∧ ¬ (t.Signing ∧ t.domain = d) := by
    intro client₁ e hl
    unfold Flow.leave at hl
    split at hl
    · next hpc => exact ⟨e ▸ hl, fun hown => hown.1 hpc⟩
    · by_cases hdom : d = t.domain
      · simp [LeClient.release, hdom] at hl
      · simp only [LeClient.release, Function.update_of_ne hdom] at hl
        exact ⟨e ▸ hl, fun hown => hdom hown.2.symm⟩
  cases h with
  | answered r => exact stays rfl id hd
  | acquired hpc hfree =>
      by_cases hdom : d = t.domain
      · exact .inl ⟨_, rfl, nofun, hdom.symm⟩
      · simp only [LeClient.acquire, Function.update_of_ne hdom] at hd
        exact .inr ⟨hd, fun hown => hown.1 hpc⟩
  | captured hpc hr hz =>
      rw [LeClient.locked_newOrder] at hd
      exact stays rfl (fun _ => nofun) hd
  | miscounted hpc hr hz => exact .inr (leaves (LeClient.locked_newOrder _ _) hd)
  | popped hpc => exact stays rfl (fun _ => nofun) hd
  | @waits p hpc hp =>
      refine stays rfl (fun _ e => ?_) hd
      obtain rfl : p = .lock := e
      cases hp
  | ended => exact .inr (leaves rfl hd)

/-- **A lock is held only while a flow signs for its domain.** -/
theorem lock_held (h : Reach (upstream ca st) P .init c) : Held c := by
  induction h with
  | start =>
      intro d hd
      cases hd
  | @step c c' a hr hs _ ih =>
      intro d hd
      rcases Machine.step_cases hs with ⟨i, b, t, o, -, hi, ho, rfl⟩ | ⟨b, t, -, -, rfl⟩ |
          ⟨b, s, -, ht, rfl⟩ | ⟨b, s, t, -, ht, rfl⟩
      · obtain ⟨hm, -⟩ := upstream_moves ho
        rcases hm.held hd with ⟨u, hu, hsig⟩ | ⟨hd, hown⟩
        · exact ⟨i, u, (Config.after_self (hr.lt_next hi)).trans hu, hsig⟩
        · obtain ⟨j, v, hj, hsig, hdom⟩ := ih d hd
          have hne : j ≠ i := by
            rintro rfl
            rw [hi] at hj
            cases hj
            exact hown ⟨hsig, hdom⟩
          exact ⟨j, v, Config.after_of_ne hne (hr.lt_next hj) hj, hsig, hdom⟩
      · obtain ⟨j, v, hj, hsig⟩ := ih d hd
        refine ⟨j, v, ?_, hsig⟩
        show Function.update c.tasks c.next _ j = some v
        rw [Function.update_of_ne (hr.lt_next hj).ne, hj]
      · obtain ⟨n, order, -, -, rfl⟩ := upstream_tick ht
        exact ih d hd
      · cases ht

/-! ### How often a flow asks -/

/-- Is it a poll of flow `i`? -/
def UpstreamEvent.polls (i : Nat) : UpstreamEvent → Bool
  | .polled j _ => decide (j = i)
  | _ => false

/-- Is it the CA's decision about a finalize of flow `i`? -/
def UpstreamEvent.decides (i : Nat) : UpstreamEvent → Bool
  | .accepted j _ _ | .refused j _ => decide (j = i)
  | _ => false

/-- How often flow `i` has asked for its order. -/
def Upstream.polls (s : Upstream) (i : Nat) : Nat := s.log.countP (UpstreamEvent.polls i)

/-- How many finalizes of flow `i` the CA has decided. -/
def Upstream.decisions (s : Upstream) (i : Nat) : Nat := s.log.countP (UpstreamEvent.decides i)

/-- What a flow has asked for by now. -/
def Flow.Within (i : Nat) (s : Upstream) (t : Flow) : Prop :=
  match t.pc with
  | .lock | .newOrder | .challenges _ => s.polls i = 0 ∧ s.decisions i = 0
  | .finalize _ _ => s.polls i = 0 ∧ s.decisions i ≤ 1 ∧ (t.reply = none → s.decisions i = 0)
  | .poll _ attempts => 0 < attempts ∧ s.polls i + attempts ≤ 61 ∧ s.decisions i ≤ 1
  | .download _ => s.polls i ≤ 60 ∧ s.decisions i ≤ 1

theorem Flow.Within.bounds (h : t.Within i s) : s.polls i ≤ 60 ∧ s.decisions i ≤ 1 := by
  obtain ⟨domain, csr, pc, reply⟩ := t
  cases pc with
  | lock | newOrder | challenges => exact ⟨h.1 ▸ Nat.zero_le _, h.2 ▸ Nat.zero_le _⟩
  | finalize => exact ⟨h.1 ▸ Nat.zero_le _, h.2.1⟩
  | poll uri attempts =>
      obtain ⟨hpos, hpolls, hdec⟩ := h
      exact ⟨by omega, hdec⟩
  | download => exact h

theorem Flow.Within.congr (h : t.Within i s) (hp : s'.polls i = s.polls i)
    (hd : s'.decisions i = s.decisions i) : t.Within i s' := by
  unfold Flow.Within at h ⊢
  rw [hp, hd]
  exact h

/-- What happens is flow `i`'s own. -/
def UpstreamEvent.Of (i : Nat) : UpstreamEvent → Prop
  | .handed j _ | .accepted j _ _ | .refused j _ | .polled j _ | .returned j _ _ => j = i

/-- The state has one more event, of flow `i`, or none. -/
def Upstream.Adds (i : Nat) (s s' : Upstream) : Prop :=
  s'.log = s.log ∨ ∃ e, e.Of i ∧ s'.log = e :: s.log

theorem Upstream.Adds.other (h : s.Adds i s') (hne : j ≠ i) :
    s'.polls j = s.polls j ∧ s'.decisions j = s.decisions j := by
  rcases h with h | ⟨e, he, h⟩
  · simp [Upstream.polls, Upstream.decisions, h]
  · have hpolls : e.polls j = false := by
      cases e <;> simp_all [UpstreamEvent.Of, UpstreamEvent.polls, Ne.symm hne]
    have hdec : e.decides j = false := by
      cases e <;> simp_all [UpstreamEvent.Of, UpstreamEvent.decides, Ne.symm hne]
    simp [Upstream.polls, Upstream.decisions, h, hpolls, hdec]

theorem Ca.Answers.adds {r : Reply} (h : ca.Answers i s t s' r) : s.Adds i s' := by
  cases h with
  | failed _ | polled _ _ _ | downloaded _ _ => exact .inl rfl
  | refused _ _ | handed _ _ _ _ | accepted _ _ _ _ _ =>
      refine .inr ⟨_, ?_, rfl⟩
      exact rfl

theorem Flow.finish_adds {client : LeClient} {next : OrderCertNext} :
    s.Adds i (t.finish i s client next).shared := by
  cases next with
  | goto q =>
      cases q with
      | poll uri attempts => exact .inr ⟨.polled i uri, rfl, rfl⟩
      | lock | newOrder | challenges | finalize | download => exact .inl rfl
  | returned chain => exact .inr ⟨.returned i t.csr chain, rfl, rfl⟩
  | raised => exact .inl rfl

/-- An answer keeps a flow within its bounds. -/
theorem Ca.Answers.within {r : Reply} (h : ca.Answers i s t s' r) (hr : t.reply = none)
    (hw : t.Within i s) : Flow.Within i s' { t with reply := some r } := by
  obtain ⟨domain, csr, pc, reply⟩ := t
  obtain rfl : reply = none := hr
  have keeps : Flow.Within i s { domain, csr, pc, reply := some r } := by
    cases pc with
    | finalize => exact ⟨hw.1, hw.2.1, nofun⟩
    | lock | newOrder | challenges | poll | download => exact hw
  cases h with
  | failed _ | polled _ _ _ | downloaded _ _ => exact keeps
  | handed n location zs hpc => exact keeps.congr rfl rfl
  | refused exc hpc =>
      obtain rfl : pc = _ := hpc
      have hdec : s.log.countP (UpstreamEvent.decides i) = 0 := hw.2.2 rfl
      exact ⟨hw.1, by simp [Upstream.decisions, UpstreamEvent.decides, hdec], nofun⟩
  | accepted location zs hpc hready horder =>
      obtain rfl : pc = _ := hpc
      have hdec : s.log.countP (UpstreamEvent.decides i) = 0 := hw.2.2 rfl
      exact ⟨hw.1, by simp [Upstream.decisions, UpstreamEvent.decides, hdec], nofun⟩

/-- A way on that keeps a flow within its bounds, which has polled `p` times and has `d` finalizes
decided. -/
def OrderCertPc.Ahead (p d : Nat) : OrderCertPc → Prop
  | .lock | .newOrder | .challenges _ | .finalize _ _ => p = 0 ∧ d = 0
  | .poll _ attempts => 0 < attempts ∧ p + 1 + attempts ≤ 61 ∧ d ≤ 1
  | .download _ => p ≤ 60 ∧ d ≤ 1

theorem finalizeAndWait_ahead {stored : Option String} {r : Except AcmeError OrderReply}
    {q : OrderCertPc} {d : Nat} (h : finalizeAndWait st stored r = .goto q) (hd : d ≤ 1) :
    q.Ahead 0 d := by
  unfold finalizeAndWait at h
  repeat' split at h
  all_goals first
    | (cases h; done)
    | (cases h; exact ⟨Nat.succ_pos _, Nat.le_refl _, hd⟩)
    | (cases h; exact ⟨Nat.zero_le _, hd⟩)

theorem pollOrderForCert_ahead {uri : String} {attempts p d : Nat}
    {r : Except AcmeError OrderReply} {q : OrderCertPc}
    (h : pollOrderForCert st uri attempts r = .goto q) (hpos : 0 < attempts)
    (hp : p + attempts ≤ 61) (hd : d ≤ 1) : q.Ahead p d := by
  unfold pollOrderForCert at h
  repeat' split at h
  all_goals first
    | (cases h; done)
    | (cases h; exact ⟨by omega, by omega, hd⟩)
    | (cases h; exact ⟨by omega, hd⟩)

theorem Flow.finish_within {client : LeClient} {next : OrderCertNext}
    (h : ∀ q, next = .goto q → q.Ahead (s.polls i) (s.decisions i))
    (hu : (t.finish i s client next).self = some u) :
    u.Within i (t.finish i s client next).shared := by
  cases next with
  | goto q =>
      have hq := h q rfl
      cases q with
      | poll uri attempts =>
          cases Option.some.inj hu
          obtain ⟨hpos, hpolls, hdec⟩ := hq
          refine ⟨hpos, ?_, hdec⟩
          simp only [Upstream.polls, Flow.finish, List.countP_cons, UpstreamEvent.polls] at hpolls ⊢
          simpa using hpolls
      | finalize f stored =>
          cases Option.some.inj hu
          exact ⟨hq.1, hq.2 ▸ Nat.zero_le _, fun _ => hq.2⟩
      | lock | newOrder | challenges | download =>
          cases Option.some.inj hu
          exact hq
  | returned _ | raised => cases hu

/-- A flow that ends polls no more. -/
theorem Flow.finish_ended {client : LeClient} {next : OrderCertNext}
    (hu : (t.finish i s client next).self = none) :
    (t.finish i s client next).shared.polls i = s.polls i ∧
      (t.finish i s client next).shared.decisions i = s.decisions i := by
  cases next with
  | goto q => cases q <;> cases hu
  | returned chain => exact ⟨rfl, rfl⟩
  | raised => exact ⟨rfl, rfl⟩

/-- A segment keeps a flow within its bounds. -/
theorem orderCertSeg_ahead {client : LeClient} {next : OrderCertNext} (hw : t.Within i s)
    (h : orderCertSeg st s.client t.domain t.pc t.reply = some (client, next)) :
    ∀ q, next = .goto q → q.Ahead (s.polls i) (s.decisions i) := by
  rintro q rfl
  obtain ⟨domain, csr, pc, reply⟩ := t
  cases reply with
  | none =>
      cases pc with
      | lock =>
          simp only [orderCertSeg] at h
          split at h
          · cases h
          · cases Option.some.inj h
            exact hw
      | challenges f =>
          cases Option.some.inj h
          exact hw
      | newOrder | finalize | poll | download => cases h
  | some r =>
      cases pc with
      | lock | challenges => cases h
      | newOrder =>
          rcases r with (_ | r) | _
          · cases h
          · simp only [orderCertSeg] at h
            split at h <;> cases h
            exact hw
          · cases h
      | finalize f stored =>
          rcases r with r | _
          · obtain ⟨hpolls, hdec, -⟩ := hw
            rw [hpolls]
            exact finalizeAndWait_ahead (congrArg Prod.snd (Option.some.inj h)) hdec
          · cases h
      | poll uri attempts =>
          rcases r with r | _
          · obtain ⟨hpos, hpolls, hdec⟩ := hw
            exact pollOrderForCert_ahead (congrArg Prod.snd (Option.some.inj h)) hpos hpolls hdec
          · cases h
      | download url => rcases r with _ | (_ | chain) <;> cases h

/-- **What one move of a flow asks for.** -/
theorem upstream_within {a : UpstreamInput} {o : Outcome Upstream Flow}
    (h : (upstream ca st).run i n s t a = some o) (hw : t.Within i s) :
    s.Adds i o.shared ∧ (∀ u, o.self = some u → u.Within i o.shared) ∧
      (o.self = none → o.shared.polls i = s.polls i ∧ o.shared.decisions i = s.decisions i) := by
  cases a with
  | answer ch =>
      cases hr : t.reply with
      | none =>
          simp only [upstream, hr] at h
          obtain ⟨⟨s', r⟩, ha, rfl⟩ := Option.map_eq_some_iff.mp h
          have hans := Ca.answers ha
          refine ⟨hans.adds, fun u hu => ?_, fun e => by cases e⟩
          cases Option.some.inj hu
          exact hans.within hr hw
      | some r =>
          simp only [upstream, hr] at h
          cases h
  | resume =>
      obtain ⟨⟨client, next⟩, hseg, rfl⟩ := Option.map_eq_some_iff.mp h
      exact ⟨Flow.finish_adds, fun u hu => Flow.finish_within (orderCertSeg_ahead hw hseg) hu,
        Flow.finish_ended⟩
  | fail =>
      cases Option.some.inj h
      exact ⟨.inl rfl, (fun u hu => by cases hu), fun _ => ⟨rfl, rfl⟩⟩
  | orderCert _ _ | validate _ | issue _ | giveUp _ | finalized _ _ => cases h

/-- No flow has asked too often, and one that has not started has not asked. -/
def withinInvariant (ca : Ca) (st : OrderReply → Option UpstreamStatus)
    (P : Config Upstream Flow → Config Upstream Flow → Prop) :
    Invariant (upstream ca st) P .init where
  Inv n s := ∀ i, s.polls i ≤ 60 ∧ s.decisions i ≤ 1 ∧
    (n ≤ i → s.polls i = 0 ∧ s.decisions i = 0)
  Ok i s t := t.Within i s
  start _ := ⟨Nat.zero_le _, Nat.zero_le _, fun _ => ⟨rfl, rfl⟩⟩
  run {c i t a out} hr ht h _ hI hw := by
    obtain ⟨hadds, hself, hended⟩ := upstream_within h hw
    have hlt := hr.lt_next ht
    refine ⟨fun j => ?_, hself, fun u hu => ?_, fun j u hj hne hu => ?_⟩
    · by_cases hj : j = i
      · subst hj
        have hb : out.shared.polls j ≤ 60 ∧ out.shared.decisions j ≤ 1 := by
          cases hs : out.self with
          | some u => exact (hself u hs).bounds
          | none =>
              rw [(hended hs).1, (hended hs).2]
              exact hw.bounds
        exact ⟨hb.1, hb.2, fun hle => absurd hlt (by omega)⟩
      · obtain ⟨hp, hd⟩ := hadds.other hj
        rw [hp, hd]
        exact ⟨(hI j).1, (hI j).2.1, fun hle => (hI j).2.2 (by omega)⟩
    · rw [(upstream_moves h).2] at hu
      cases hu
    · obtain ⟨hp, hd⟩ := hadds.other hne
      exact hu.congr hp hd
  arrive {c a t} _ ht hI := by
    refine ⟨fun i => ⟨(hI i).1, (hI i).2.1, fun hle => (hI i).2.2 (by omega)⟩, ?_⟩
    cases a with
    | orderCert domain csr =>
        cases Option.some.inj ht
        exact (hI c.next).2.2 (Nat.le_refl _)
    | _ => cases ht
  tick {c a s} _ hs _ hI := by
    obtain ⟨n, order, -, -, rfl⟩ := upstream_tick hs
    exact ⟨hI, fun j u hu => hu.congr rfl rfl⟩
  restart _ h _ := by cases h

/-! ### The flows end -/

/-- **A flow asks at most so often.**  In every run it polls its order at most sixty times, and the
CA decides at most one finalize of it. -/
theorem order_cert_bounded (h : Reach (upstream ca st) (fun _ _ => True) .init c) (i : Nat) :
    c.shared.polls i ≤ 60 ∧ c.shared.decisions i ≤ 1 := by
  obtain ⟨hpolls, hdec, -⟩ := ((withinInvariant ca st _).reach h).1 i
  exact ⟨hpolls, hdec⟩

theorem order_cert_bounded_run :
    ∃ c, Demo.runFlows Demo.twoFlows = some c ∧ c.shared.polls 0 = 1 ∧ c.shared.decisions 0 = 1 ∧
      c.shared.polls 0 ≤ 60 ∧ c.shared.decisions 0 ≤ 1 := by
  have hrun : (Demo.runFlows Demo.twoFlows).any (fun c =>
      decide (c.shared.polls 0 = 1) && decide (c.shared.decisions 0 = 1)) = true := by
    decide +kernel
  obtain ⟨c, hc, h⟩ := (Option.any_eq_true _ _).mp hrun
  simp only [Bool.and_eq_true, decide_eq_true_eq] at h
  exact ⟨c, hc, h.1, h.2, order_cert_bounded (Demo.reach_flows hc) 0⟩

/-- **No flow is stuck.**  A flow in flight can move on without failing, or it waits for the lock of
its domain, and a flow that signs for this domain can. -/
theorem order_cert_waits (h : Reach (upstream ca st) (fun _ _ => True) .init c)
    (ht : c.tasks i = some t) : Flow.Moveable ca st c i ∨ t.pc = .lock ∧
      ∃ j u, c.tasks j = some u ∧ u.Signing ∧ u.domain = t.domain ∧ Flow.Moveable ca st c j := by
  have hfits := ((fitsInvariant ca st _).reach h).2
  cases hl : c.shared.client.locked t.domain with
  | false => exact .inl (moveable_of_free ht (hfits i t ht) fun _ => hl)
  | true =>
      by_cases hpc : t.pc = .lock
      · obtain ⟨j, u, hj, hsig, hdom⟩ := lock_held h t.domain hl
        exact .inr ⟨hpc, j, u, hj, hsig, hdom,
          moveable_of_free hj (hfits j u hj) fun e => absurd e hsig⟩
      · exact .inl (moveable_of_free ht (hfits i t ht) fun e => absurd e hpc)

/-- A flow that signs, and one that waits for its lock. -/
def Demo.sameDomain : List (Action UpstreamInput) :=
  [.arrive (.orderCert "a.test" [0]), .arrive (.orderCert "a.test" [1]), .run 0 .resume]

theorem Demo.sameDomain_run :
    ∃ c t, runFlows sameDomain = some c ∧ c.tasks 1 = some t ∧
      c.shared.client.locked "a.test" = true := by
  have hrun : (runFlows sameDomain).any (fun c =>
      (c.tasks 1).isSome && c.shared.client.locked "a.test") = true := by decide +kernel
  obtain ⟨c, hc, h⟩ := (Option.any_eq_true _ _).mp hrun
  obtain ⟨ht, hl⟩ := (Bool.and_eq_true _ _).mp h
  obtain ⟨t, ht⟩ := Option.isSome_iff_exists.mp ht
  exact ⟨c, t, hc, ht, hl⟩

theorem order_cert_waits_run :
    ∃ c t, Demo.runFlows Demo.sameDomain = some c ∧ c.tasks 1 = some t ∧
      c.shared.client.locked "a.test" = true ∧
      (Flow.Moveable Demo.ca (fun r => some r.status) c 1 ∨ t.pc = .lock ∧
        ∃ j u, c.tasks j = some u ∧ u.Signing ∧ u.domain = t.domain ∧
          Flow.Moveable Demo.ca (fun r => some r.status) c j) := by
  obtain ⟨c, t, hc, ht, hl⟩ := Demo.sameDomain_run
  exact ⟨c, t, hc, ht, hl, order_cert_waits (Demo.reach_flows hc) ht⟩

/-- The steps in which no flow fails by itself. -/
def Unfailing (ca : Ca) (st : OrderReply → Option UpstreamStatus) (c c' : Config Upstream Flow) :
    Prop :=
  ∃ i a, a ≠ .fail ∧ (upstream ca st).step c (.run i a) = some c'

/-- **The flows all end.**  From every reached state, moves of the flows alone go on for at most as
long as the flows cost, and some of them, without a failure, lead to a state with no flow in flight
and every lock released. -/
theorem order_certs_end (h : Reach (upstream ca st) (fun _ _ => True) .init c) :
    (∀ {n c'}, Moves (upstream ca st) (fun _ _ => True) c n c' → n ≤ c.load Flow.cost) ∧
      ∃ n c', Moves (upstream ca st) (Unfailing ca st) c n c' ∧ (∀ i, c'.tasks i = none) ∧
        ∀ d, c'.shared.client.locked d = false := by
  have hspends := upstream_spends ca st fun _ _ => True
  refine ⟨fun hm => Nat.le_of_add_right_le (hspends.moves_le (fun _ _ h => h) h hm), ?_⟩
  obtain ⟨n, c', hm, hrest⟩ := hspends.rests (P := Unfailing ca st) (fun _ _ _ => trivial)
    (fun {c i t} hr ht => by
      rcases order_cert_waits hr ht with ⟨a, c', ha, hs⟩ | ⟨-, j, u, -, -, -, a, c', ha, hs⟩
      · exact ⟨i, a, c', hs, i, a, ha, hs⟩
      · exact ⟨j, a, c', hs, j, a, ha, hs⟩) h
  refine ⟨n, c', hm, hrest, fun d => Bool.eq_false_iff.mpr fun hl => ?_⟩
  obtain ⟨j, u, hj, -⟩ := lock_held (hm.reach (fun _ _ _ => trivial) h) d hl
  rw [hrest j] at hj
  cases hj

theorem order_certs_end_run :
    ∃ c t, Demo.runFlows Demo.sameDomain = some c ∧ c.tasks 1 = some t ∧
      ∃ n c', Moves (upstream Demo.ca fun r => some r.status)
          (Unfailing Demo.ca fun r => some r.status) c n c' ∧ (∀ i, c'.tasks i = none) ∧
        ∀ d, c'.shared.client.locked d = false := by
  obtain ⟨c, t, hc, ht, -⟩ := Demo.sameDomain_run
  exact ⟨c, t, hc, ht, (order_certs_end (Demo.reach_flows hc)).2⟩

end Jackdaw
