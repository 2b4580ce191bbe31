import Jackdaw.Upstream.Flows
import Jackdaw.Relay.Machine

/-!
# Upstream — what the flows leave on the client

The two things flows of `order_cert` share: the map of captured order URLs, and the locks.

* `captured_in_flight`: an entry of the map belongs to a flow that has yet to pop it, as long as no
  flow ends between the two overrides.  `new_order` stores the URL and `finalize_and_wait` pops it;
  a flow whose challenges fail in between leaves it behind (`captured_left`).
* `one_issuance_per_name`: two flows never sign for one DNS name, as long as flows that are there at
  once spell it the same way, whatever makes two spellings one name.  The lock goes by the string
  (`Exclusive`), the TXT record it protects by the name, so two spellings get past it together
  (`two_spellings`).
-/

namespace Jackdaw

open Support Support.Interleave

variable {ca : Ca} {st : OrderReply → Option UpstreamStatus} {s : Upstream} {t u : Flow}
  {i j : Nat} {c c' : Config Upstream Flow} {ν : Type} {name : String → ν}

/-! ### What a flow does to the client -/

/-- The flow is in `finalize_and_wait`. -/
def OrderCertPc.finalizing : OrderCertPc → Bool
  | .finalize _ _ | .poll _ _ | .download _ => true
  | .lock | .newOrder | .challenges _ => false

/-- What one move of a flow makes of the client and of itself. -/
inductive Flow.Moves (client : LeClient) (t : Flow) : LeClient → Option Flow → Prop
  | answered (r : Reply) : Moves client t client (some { t with reply := some r })
  | acquired (hpc : t.pc = .lock) (hfree : client.locked t.domain = false) :
      Moves client t (client.acquire t.domain) (some { t with pc := .newOrder, reply := none })
  | captured {r : OrderReply} (hpc : t.pc = .newOrder) (hr : t.reply = some (.order (.ok r)))
      (hz : r.authorizations.length = 1) :
      Moves client t (client.newOrder r)
        (some { t with pc := .challenges r.finalize, reply := none })
  | miscounted {r : OrderReply} (hpc : t.pc = .newOrder) (hr : t.reply = some (.order (.ok r)))
      (hz : r.authorizations.length ≠ 1) : Moves client t (t.leave (client.newOrder r)) none
  | popped {f : String} (hpc : t.pc = .challenges f) :
      Moves client t (client.popOrderUrl f).1
        (some { t with pc := .finalize f (client.orderUrls f), reply := none })
  | waits {p : OrderCertPc} (hpc : t.pc.finalizing = true) (hp : p.finalizing = true) :
      Moves client t client (some { t with pc := p, reply := none })
  | ended : Moves client t (t.leave client) none

/-- The segments of `finalize_and_wait` stay in it. -/
theorem Flow.finish_moves {p : OrderCertNext} (hpc : t.pc.finalizing = true)
    (hp : ∀ q, p = .goto q → q.finalizing = true) :
    t.Moves s.client (t.finish i s s.client p).shared.client (t.finish i s s.client p).self := by
  cases p with
  | goto q =>
      have hq := hp q rfl
      cases q with
      | poll | finalize | download => exact .waits hpc hq
      | lock | newOrder | challenges => cases hq
  | returned chain => exact .ended
  | raised => exact .ended

theorem finalizeAndWait_finalizing {stored : Option String} {r : Except AcmeError OrderReply}
    {q : OrderCertPc} (h : finalizeAndWait st stored r = .goto q) : q.finalizing = true := by
  unfold finalizeAndWait at h
  repeat' split at h
  all_goals first | (cases h; rfl) | cases h

theorem pollOrderForCert_finalizing {uri : String} {attempts : Nat}
    {r : Except AcmeError OrderReply} {q : OrderCertPc}
    (h : pollOrderForCert st uri attempts r = .goto q) : q.finalizing = true := by
  unfold pollOrderForCert at h
  repeat' split at h
  all_goals first | (cases h; rfl) | cases h

theorem orderCertSeg_moves {client : LeClient} {p : OrderCertNext}
    (h : orderCertSeg st s.client t.domain t.pc t.reply = some (client, p)) :
    t.Moves s.client (t.finish i s client p).shared.client (t.finish i s client p).self := by
  obtain ⟨domain, csr, pc, reply⟩ := t
  cases reply with
  | none =>
      cases pc with
      | lock =>
          simp only [orderCertSeg] at h
          split at h
          · cases h
          · next hfree =>
              cases Option.some.inj h
              exact .acquired rfl (Bool.eq_false_iff.mpr hfree)
      | challenges f =>
          cases Option.some.inj h
          exact .popped rfl
      | newOrder | finalize | poll | download => cases h
  | some r =>
      cases pc with
      | lock | challenges => cases h
      | newOrder =>
          rcases r with (_ | r) | _
          · cases Option.some.inj h
            exact .ended
          · by_cases hz : r.authorizations.length = 1
            · simp only [orderCertSeg, if_pos hz] at h
              cases Option.some.inj h
              exact .captured rfl rfl hz
            · simp only [orderCertSeg, if_neg hz] at h
              cases Option.some.inj h
              exact .miscounted rfl rfl hz
          · cases h
      | finalize f stored =>
          rcases r with r | _
          · cases Option.some.inj h
            exact Flow.finish_moves rfl fun q => finalizeAndWait_finalizing
          · cases h
      | poll uri attempts =>
          rcases r with r | _
          · cases Option.some.inj h
            exact Flow.finish_moves rfl fun q => pollOrderForCert_finalizing
          · cases h
      | download url =>
          rcases r with _ | (_ | chain)
          · cases h
          · cases Option.some.inj h
            exact .ended
          · cases Option.some.inj h
            exact .ended

/-- **What a flow does to the client.** -/
theorem upstream_moves {n : Nat} {a : UpstreamInput} {o : Outcome Upstream Flow}
    (h : (upstream ca st).run i n s t a = some o) :
    t.Moves s.client o.shared.client o.self ∧ o.child = none := by
  cases a with
  | answer ch =>
      obtain ⟨domain, csr, pc, reply⟩ := t
      cases reply with
      | none =>
          obtain ⟨⟨s', r⟩, hr, rfl⟩ := Option.map_eq_some_iff.mp h
          have hclient : s'.client = s.client := by
            cases Ca.answers hr <;> rfl
          refine ⟨?_, rfl⟩
          show Flow.Moves s.client _ s'.client _
          rw [hclient]
          exact .answered r
      | some r => cases h
  | resume =>
      obtain ⟨⟨client, p⟩, hseg, rfl⟩ := Option.map_eq_some_iff.mp h
      exact ⟨orderCertSeg_moves hseg, t.finish_child⟩
  | fail =>
      cases Option.some.inj h
      exact ⟨.ended, rfl⟩
  | orderCert | validate | issue | giveUp | finalized => cases h

/-! ### The captured order URLs -/

/-- The flow was answered by `new_order` with an order URL that is stored, and with a number of
authorizations that makes it raise. -/
def Flow.Miscounted (t : Flow) : Prop :=
  t.pc = .newOrder ∧ ∃ r, t.reply = some (.order (.ok r)) ∧ r.location ≠ none ∧
    r.authorizations.length ≠ 1

/-- **The step ends no flow between the two overrides**: none that has its challenges before it while
its order URL is stored, and none that `new_order` raises in behind the order URL. -/
def ReachesFinalize (c c' : Config Upstream Flow) : Prop :=
  ∀ i t, c.tasks i = some t → c'.tasks i = none →
    (∀ f, t.pc = .challenges f → c.shared.client.orderUrls f = none) ∧ ¬ t.Miscounted

/-- Every entry of the map belongs to a flow that has yet to pop it. -/
def Captured (c : Config Upstream Flow) : Prop :=
  ∀ f u, c.shared.client.orderUrls f = some u → ∃ i t, c.tasks i = some t ∧ t.pc = .challenges f

/-- What a move leaves in the map was there, or is the flow's own. -/
theorem Flow.Moves.orderUrls {client client' : LeClient} {self : Option Flow}
    (h : t.Moves client client' self) (hend : self = none → ¬ t.Miscounted) {f v : String}
    (hv : client'.orderUrls f = some v) :
    (∃ u, self = some u ∧ u.pc = .challenges f) ∨
      client.orderUrls f = some v ∧ (t.pc = .challenges f → self = none ∨
        ∃ u, self = some u ∧ u.pc = .challenges f) := by
  cases h with
  | answered r => exact .inr ⟨hv, fun hpc => .inr ⟨_, rfl, hpc⟩⟩
  | acquired hpc hfree =>
      refine .inr ⟨hv, fun e => ?_⟩
      rw [hpc] at e
      cases e
  | @captured r hpc hr hz =>
      rcases LeClient.orderUrls_newOrder hv with ⟨rfl, -⟩ | hv
      · exact .inl ⟨_, rfl, rfl⟩
      · refine .inr ⟨hv, fun e => ?_⟩
        rw [hpc] at e
        cases e
  | @miscounted r hpc hr hz =>
      rw [Flow.leave_orderUrls] at hv
      rcases LeClient.orderUrls_newOrder hv with ⟨rfl, hl⟩ | hv
      · refine absurd ⟨hpc, r, hr, ?_, hz⟩ (hend rfl)
        rw [hl]
        exact Option.some_ne_none v
      · exact .inr ⟨hv, fun _ => .inl rfl⟩
  | @popped g hpc =>
      refine .inr ⟨LeClient.orderUrls_popOrderUrl hv, fun e => ?_⟩
      rw [hpc] at e
      cases e
      rw [LeClient.popOrderUrl_self] at hv
      cases hv
  | waits hpc hp =>
      refine .inr ⟨hv, fun e => ?_⟩
      rw [e] at hpc
      cases hpc
  | ended =>
      rw [Flow.leave_orderUrls] at hv
      exact .inr ⟨hv, fun _ => .inl rfl⟩

/-- **One step** keeps every entry with a flow that is there. -/
theorem Captured.step {a : Action UpstreamInput} {P : Config Upstream Flow → Config Upstream Flow → Prop}
    (hr : Reach (upstream ca st) P .init c) (hs : (upstream ca st).step c a = some c')
    (hp : ReachesFinalize c c') (h : Captured c) : Captured c' := by
  intro f v hv
  rcases Machine.step_cases hs with ⟨i, b, t, o, -, hi, ho, rfl⟩ | ⟨b, t, -, ht, rfl⟩ |
      ⟨b, s, -, ht, rfl⟩ | ⟨b, s, t, -, ht, rfl⟩
  · obtain ⟨hm, hchild⟩ := upstream_moves ho
    have hself : (c.after i o).tasks i = o.self := Config.after_self (hr.lt_next hi)
    have hend : o.self = none →
        (∀ f, t.pc = .challenges f → c.shared.client.orderUrls f = none) ∧ ¬ t.Miscounted :=
      fun e => hp i t hi (hself.trans e)
    rcases hm.orderUrls (fun e => (hend e).2) hv with ⟨u, hu, hpc⟩ | ⟨hstored, hown⟩
    · exact ⟨i, u, hself.trans hu, hpc⟩
    · obtain ⟨j, w, hj, hw⟩ := h f v hstored
      by_cases e : j = i
      · subst e
        cases Option.some.inj (hi.symm.trans hj)
        rcases hown hw with hnone | ⟨u, hu, hpc⟩
        · rw [(hend hnone).1 f hw] at hstored
          cases hstored
        · exact ⟨j, u, hself.trans hu, hpc⟩
      · exact ⟨j, w, Config.after_of_ne e (hr.lt_next hj) hj, hw⟩
  · obtain ⟨j, w, hj, hw⟩ := h f v hv
    refine ⟨j, w, ?_, hw⟩
    show Function.update c.tasks c.next (some t) j = some w
    rw [Function.update_of_ne (hr.lt_next hj).ne, hj]
  · obtain ⟨n, order, -, -, rfl⟩ := upstream_tick ht
    exact h f v hv
  · cases ht

/-- **The map holds order URLs of flows in flight**, and nothing when there is none. -/
theorem captured_in_flight (h : Reach (upstream ca st) ReachesFinalize .init c) :
    Captured c ∧ ((∀ i, c.tasks i = none) → ∀ f, c.shared.client.orderUrls f = none) := by
  have hc : Captured c := by
    induction h with
    | start => exact fun f u hu => by cases hu
    | step hr hs hp ih => exact Captured.step hr hs hp ih
  refine ⟨hc, fun hnone f => ?_⟩
  cases hf : c.shared.client.orderUrls f with
  | none => rfl
  | some u =>
      obtain ⟨i, t, ht, -⟩ := hc f u hf
      rw [hnone i] at ht
      cases ht

/-- A test for `ReachesFinalize`. -/
def reachesFinalize (c c' : Config Upstream Flow) : Bool :=
  (List.range c.next).all fun i => match c.tasks i, c'.tasks i with
    | some ⟨_, _, .challenges f, _⟩, none => (c.shared.client.orderUrls f).isNone
    | some ⟨_, _, .newOrder, some (.order (.ok r))⟩, none =>
        r.location.isNone || decide (r.authorizations.length = 1)
    | _, _ => true

theorem reachesFinalize_sound {P : Config Upstream Flow → Config Upstream Flow → Prop}
    (hr : Reach (upstream ca st) P .init c) (h : reachesFinalize c c' = true) :
    ReachesFinalize c c' := by
  intro i t hi hnone
  have ht := List.all_eq_true.mp h i (List.mem_range.mpr (hr.lt_next hi))
  simp only [hi, hnone] at ht
  obtain ⟨domain, csr, pc, reply⟩ := t
  refine ⟨fun f hpc => ?_, fun ⟨hpc, r, hreply, hl, hz⟩ => ?_⟩
  · obtain rfl : pc = _ := hpc
    exact Option.isNone_iff_eq_none.mp ht
  · obtain rfl : pc = _ := hpc
    obtain rfl : reply = _ := hreply
    simp only [hl, hz, decide_false, Bool.or_false, Option.isNone_iff_eq_none] at ht

theorem idle_of_range {P : Config Upstream Flow → Config Upstream Flow → Prop}
    (hr : Reach (upstream ca st) P .init c)
    (h : ((List.range c.next).all fun i => (c.tasks i).isNone) = true) (i : Nat) :
    c.tasks i = none := by
  cases hi : c.tasks i with
  | none => rfl
  | some t =>
      have := List.all_eq_true.mp h i (List.mem_range.mpr (hr.lt_next hi))
      simp only [hi, Option.isNone_some, Bool.false_eq_true] at this

theorem captured_in_flight_run :
    ∃ c, (upstream Demo.ca fun r => some r.status).schedule reachesFinalize (.start .init)
        Demo.twoFlows = some c ∧
      (∀ i, c.tasks i = none) ∧ ∀ f, c.shared.client.orderUrls f = none := by
  have hrun : ((upstream Demo.ca fun r => some r.status).schedule reachesFinalize (.start .init)
      Demo.twoFlows).any (fun c => (List.range c.next).all fun i => (c.tasks i).isNone) = true := by
    decide +kernel
  obtain ⟨c, hc, h⟩ := (Option.any_eq_true _ _).mp hrun
  have hr : Reach (upstream Demo.ca fun r => some r.status) ReachesFinalize .init c :=
    Reach.schedule (fun hr _ h => reachesFinalize_sound hr h) _ .start hc
  have hnone := idle_of_range hr h
  exact ⟨c, hc, hnone, (captured_in_flight hr).2 hnone⟩

/-- A flow whose challenges fail. -/
def Demo.failedChallenges : List (Action UpstreamInput) :=
  .arrive (.orderCert "a" [0]) ::
    moves 0 [.resume, .answer (.order 0 true ["z"]), .resume, .fail]

/-- **An entry that is left behind**: no flow is in flight and the map is not empty. -/
theorem captured_left :
    ¬ ∀ (ca : Ca) (st : OrderReply → Option UpstreamStatus) (c : Config Upstream Flow),
      Reach (upstream ca st) (fun _ _ => True) .init c → (∀ i, c.tasks i = none) →
      ∀ f, c.shared.client.orderUrls f = none := by
  intro hall
  have hrun : (Demo.runFlows Demo.failedChallenges).any (fun c =>
      ((List.range c.next).all fun i => (c.tasks i).isNone) &&
      (c.shared.client.orderUrls (Demo.ca.finalizeUrl 0)).isSome) = true := by decide +kernel
  obtain ⟨c, hc, h⟩ := (Option.any_eq_true _ _).mp hrun
  rw [Bool.and_eq_true] at h
  have hr := Demo.reach_flows hc
  have hnone := idle_of_range hr h.1
  rw [hall _ _ c hr hnone] at h
  cases h.2

/-! ### The locks -/

/-- The flow is inside the lock of its domain, in `sign`. -/
def Flow.Signing (t : Flow) : Prop := t.pc ≠ .lock

/-- Flows that sign hold the locks of their domains, no two the same. -/
structure Exclusive (c : Config Upstream Flow) : Prop where
  locked : ∀ i t, c.tasks i = some t → t.Signing → c.shared.client.locked t.domain = true
  apart : ∀ i j t u, c.tasks i = some t → c.tasks j = some u → i ≠ j → t.Signing → u.Signing →
    t.domain ≠ u.domain

/-- What a move leaves of the locks: the flow still holds its own, has just taken it, or is gone
from it. -/
theorem Flow.Moves.locked {client client' : LeClient} {self : Option Flow}
    (h : t.Moves client client' self) :
    (∀ u, self = some u → u.domain = t.domain) ∧
    ((client'.locked = client.locked ∧ ∀ u, self = some u → u.Signing → t.Signing) ∨
      (client'.locked = Function.update client.locked t.domain true ∧
        client.locked t.domain = false) ∨
      (client'.locked = Function.update client.locked t.domain false ∧ t.Signing ∧
        self = none)) := by
  have hleave : ∀ client₁ : LeClient, client₁.locked = client.locked →
      ((t.leave client₁).locked = client.locked ∧ ∀ u, (none : Option Flow) = some u →
        u.Signing → t.Signing) ∨
      ((t.leave client₁).locked = Function.update client.locked t.domain true ∧
        client.locked t.domain = false) ∨
      ((t.leave client₁).locked = Function.update client.locked t.domain false ∧ t.Signing ∧
        (none : Option Flow) = none) := by
    intro client₁ e
    unfold Flow.leave
    split
    · exact .inl ⟨e, nofun⟩
    · next hpc => exact .inr (.inr ⟨by rw [← e]; rfl, hpc, rfl⟩)
  cases h with
  | answered r =>
      refine ⟨fun u hu => ?_, .inl ⟨rfl, fun u hu => ?_⟩⟩
      · cases Option.some.inj hu
        rfl
      · cases Option.some.inj hu
        exact id
  | acquired hpc hfree =>
      refine ⟨fun u hu => ?_, .inr (.inl ⟨rfl, hfree⟩)⟩
      cases Option.some.inj hu
      rfl
  | @captured r hpc hr hz =>
      refine ⟨fun u hu => ?_, .inl ⟨LeClient.locked_newOrder _ _, fun _ _ _ e => ?_⟩⟩
      · cases Option.some.inj hu
        rfl
      · rw [hpc] at e
        cases e
  | @miscounted r hpc hr hz => exact ⟨nofun, hleave _ (LeClient.locked_newOrder _ _)⟩
  | popped hpc =>
      refine ⟨fun u hu => ?_, .inl ⟨rfl, fun _ _ _ e => ?_⟩⟩
      · cases Option.some.inj hu
        rfl
      · rw [hpc] at e
        cases e
  | waits hpc hp =>
      refine ⟨fun u hu => ?_, .inl ⟨rfl, fun _ _ _ e => ?_⟩⟩
      · cases Option.some.inj hu
        rfl
      · rw [e] at hpc
        cases hpc
  | ended => exact ⟨nofun, hleave _ rfl⟩

/-- What another flow that signs knows of the flow that moves. -/
theorem Exclusive.other {i j : Nat} {client' : LeClient} {self : Option Flow} (h : Exclusive c)
    (hi : c.tasks i = some t) (hm : t.Moves c.shared.client client' self)
    (hj : c.tasks j = some u) (hne : j ≠ i) (hu : u.Signing) :
    client'.locked u.domain = true ∧ ∀ v, self = some v → v.Signing → v.domain ≠ u.domain := by
  obtain ⟨hdomain, hlock⟩ := hm.locked
  have hlu := h.locked j u hj hu
  rcases hlock with ⟨e, hsig⟩ | ⟨e, hfree⟩ | ⟨e, hsig, hself⟩
  · refine ⟨by rw [e, hlu], fun v hv hvs => ?_⟩
    rw [hdomain v hv]
    exact h.apart i j t u hi hj (Ne.symm hne) (hsig v hv hvs) hu
  · have hd : u.domain ≠ t.domain := by
      intro e'
      rw [e', hfree] at hlu
      cases hlu
    refine ⟨by rw [e, Function.update_of_ne hd, hlu], fun v hv _ => ?_⟩
    rw [hdomain v hv]
    exact Ne.symm hd
  · have hd := h.apart i j t u hi hj (Ne.symm hne) hsig hu
    refine ⟨by rw [e, Function.update_of_ne (Ne.symm hd), hlu], fun v hv => ?_⟩
    rw [hself] at hv
    cases hv

/-- A flow that signs after its move has its lock. -/
theorem Exclusive.own {i : Nat} {client' : LeClient} {self : Option Flow} (h : Exclusive c)
    (hi : c.tasks i = some t) (hm : t.Moves c.shared.client client' self) (hself : self = some u) (hu : u.Signing) :
    client'.locked u.domain = true := by
  obtain ⟨hdomain, hlock⟩ := hm.locked
  rw [hdomain u hself]
  rcases hlock with ⟨e, hsig⟩ | ⟨e, -⟩ | ⟨-, -, hnone⟩
  · rw [e]
    exact h.locked i t hi (hsig u hself hu)
  · rw [e, Function.update_self]
  · rw [hnone] at hself
    cases hself

/-- A flow moves. -/
theorem Exclusive.after {i : Nat} {out : Outcome Upstream Flow} (h : Exclusive c)
    (hi : c.tasks i = some t) (hm : t.Moves c.shared.client out.shared.client out.self)
    (hchild : out.child = none) : Exclusive (c.after i out) := by
  constructor
  · intro j u hj hu
    rcases Config.after_tasks hchild hj with ⟨rfl, hself⟩ | ⟨hne, hj⟩
    · exact h.own hi hm hself hu
    · exact (h.other hi hm hj hne hu).1
  · intro j k u v hj hk hne hu hv
    rcases Config.after_tasks hchild hj with ⟨rfl, hself⟩ | ⟨hji, hj'⟩
    · rcases Config.after_tasks hchild hk with ⟨rfl, -⟩ | ⟨hki, hk'⟩
      · exact absurd rfl hne
      · exact (h.other hi hm hk' hki hv).2 u hself hu
    · rcases Config.after_tasks hchild hk with ⟨rfl, hself⟩ | ⟨-, hk'⟩
      · exact Ne.symm ((h.other hi hm hj' hji hu).2 v hself hv)
      · exact h.apart j k u v hj' hk' hne hu hv

/-- **One step** keeps the locks exclusive. -/
theorem Exclusive.step {a : Action UpstreamInput} (hs : (upstream ca st).step c a = some c')
    (h : Exclusive c) : Exclusive c' := by
  rcases Machine.step_cases hs with ⟨i, b, t, o, -, hi, ho, rfl⟩ | ⟨b, t, -, ht, rfl⟩ |
      ⟨b, s, -, ht, rfl⟩ | ⟨b, s, t, -, ht, rfl⟩
  · obtain ⟨hm, hchild⟩ := upstream_moves ho
    exact h.after hi hm hchild
  · have hlock : ¬ t.Signing := by
      cases b with
      | orderCert domain csr =>
          cases Option.some.inj ht
          exact fun h => h rfl
      | _ => cases ht
    constructor
    · intro j u hj hu
      rcases update_eq_some hj with ⟨-, e⟩ | ⟨-, hj⟩
      · cases Option.some.inj e
        exact absurd hu hlock
      · exact h.locked j u hj hu
    · intro j k u v hj hk hne hu hv
      rcases update_eq_some hj with ⟨-, e⟩ | ⟨-, hj⟩
      · cases Option.some.inj e
        exact absurd hu hlock
      · rcases update_eq_some hk with ⟨-, e⟩ | ⟨-, hk⟩
        · cases Option.some.inj e
          exact absurd hv hlock
        · exact h.apart j k u v hj hk hne hu hv
  · obtain ⟨n, order, -, -, rfl⟩ := upstream_tick ht
    exact ⟨h.locked, h.apart⟩
  · cases ht

/-- **The step starts no flow under another spelling**: the flows that are in flight for a name
spell it as the flow that arrives does. -/
def OneSpelling (name : String → ν) (c c' : Config Upstream Flow) : Prop :=
  ∀ t, c'.tasks c.next = some t → ∀ j u, c.tasks j = some u →
    name t.domain = name u.domain → t.domain = u.domain

/-- Flows in flight for one name spell it the same way. -/
def Spelled (name : String → ν) (c : Config Upstream Flow) : Prop :=
  ∀ i j t u, c.tasks i = some t → c.tasks j = some u → name t.domain = name u.domain →
    t.domain = u.domain

theorem Spelled.step {a : Action UpstreamInput} (hs : (upstream ca st).step c a = some c')
    (hp : OneSpelling name c c') (h : Spelled name c) : Spelled name c' := by
  rcases Machine.step_cases hs with ⟨i, b, t, o, -, hi, ho, rfl⟩ | ⟨b, t, -, ht, rfl⟩ |
      ⟨b, s, -, ht, rfl⟩ | ⟨b, s, t, -, ht, rfl⟩
  · obtain ⟨hm, hchild⟩ := upstream_moves ho
    -- every flow is one that was there, under its old domain
    have hold : ∀ j u, (c.after i o).tasks j = some u →
        ∃ w, c.tasks j = some w ∧ u.domain = w.domain := by
      intro j u hj
      rcases Config.after_tasks hchild hj with ⟨rfl, hself⟩ | ⟨-, hj⟩
      · exact ⟨t, hi, hm.locked.1 u hself⟩
      · exact ⟨u, hj, rfl⟩
    intro j k u v hj hk e
    obtain ⟨w, hw, hu⟩ := hold j u hj
    obtain ⟨w', hw', hv⟩ := hold k v hk
    rw [hu, hv] at e ⊢
    exact h j k w w' hw hw' e
  · have hnew : Function.update c.tasks c.next (some t) c.next = some t := Function.update_self ..
    intro j k u v hj hk e
    rcases update_eq_some hj with ⟨-, hu⟩ | ⟨-, hj⟩
    · cases Option.some.inj hu
      rcases update_eq_some hk with ⟨-, hv⟩ | ⟨-, hk⟩
      · cases Option.some.inj hv
        rfl
      · exact hp t hnew k v hk e
    · rcases update_eq_some hk with ⟨-, hv⟩ | ⟨-, hk⟩
      · cases Option.some.inj hv
        exact (hp t hnew j u hj e.symm).symm
      · exact h j k u v hj hk e
  · exact h
  · cases ht

theorem locks_spelled (h : Reach (upstream ca st) (OneSpelling name) .init c) :
    Exclusive c ∧ Spelled name c := by
  induction h with
  | start =>
      refine ⟨⟨?_, ?_⟩, ?_⟩
      · intro i t h
        cases h
      · intro i j t u h
        cases h
      · intro i j t u h
        cases h
  | step _ hs hp ih => exact ⟨ih.1.step hs, ih.2.step hs hp⟩

/-- **One issuance per DNS name**: two flows that sign are for two names, where `name` is any normal
form of the spellings of a name. -/
theorem one_issuance_per_name (h : Reach (upstream ca st) (OneSpelling name) .init c)
    (hi : c.tasks i = some t) (hj : c.tasks j = some u) (hne : i ≠ j) (ht : t.Signing)
    (hu : u.Signing) : name t.domain ≠ name u.domain := by
  obtain ⟨hlocks, hspelled⟩ := locks_spelled h
  intro e
  exact hlocks.apart i j t u hi hj hne ht hu (hspelled i j t u hi hj e)

/-- The DNS name a domain spells: the case of ASCII letters and one trailing dot make no
difference. -/
def dnsName (domain : String) : List Char :=
  let cs := domain.toList.map Char.toLower
  if cs.getLast? = some '.' then cs.dropLast else cs

/-- A test for `OneSpelling`. -/
def oneSpelling (c c' : Config Upstream Flow) : Bool :=
  (c'.tasks c.next).all fun t => (List.range c.next).all fun j => (c.tasks j).all fun u =>
    decide (dnsName t.domain = dnsName u.domain → t.domain = u.domain)

theorem oneSpelling_sound {P : Config Upstream Flow → Config Upstream Flow → Prop}
    (hr : Reach (upstream ca st) P .init c) (h : oneSpelling c c' = true) :
    OneSpelling dnsName c c' := by
  intro t ht j u hj
  simp only [oneSpelling, ht, Option.all_some, List.all_eq_true, List.mem_range] at h
  have hj' := h j (hr.lt_next hj)
  rw [hj, Option.all_some] at hj'
  exact of_decide_eq_true hj'

/-- Two flows, for these domains, inside their locks. -/
def Demo.twoDomains (a b : String) : List (Action UpstreamInput) :=
  [.arrive (.orderCert a [0]), .arrive (.orderCert b [1]), .run 0 .resume, .run 1 .resume]

def OrderCertPc.isNewOrder : OrderCertPc → Bool
  | .newOrder => true
  | _ => false

theorem Flow.signing_of_newOrder (h : t.pc.isNewOrder = true) : t.Signing := by
  intro e
  rw [e] at h
  cases h

theorem one_issuance_per_name_run :
    ∃ c, (upstream Demo.ca fun r => some r.status).schedule oneSpelling (.start .init)
        (Demo.twoDomains "a.test" "b.test") = some c ∧
      ∃ t u, c.tasks 0 = some t ∧ c.tasks 1 = some u ∧
        dnsName t.domain ≠ dnsName u.domain := by
  have hrun : ((upstream Demo.ca fun r => some r.status).schedule oneSpelling (.start .init)
      (Demo.twoDomains "a.test" "b.test")).any (fun c =>
        ((c.tasks 0).any fun t => t.pc.isNewOrder) &&
        (c.tasks 1).any fun t => t.pc.isNewOrder) = true := by
    decide +kernel
  obtain ⟨c, hc, h⟩ := (Option.any_eq_true _ _).mp hrun
  simp only [Bool.and_eq_true, Option.any_eq_true] at h
  obtain ⟨⟨t, ht, htp⟩, u, hu, hup⟩ := h
  have hr : Reach (upstream Demo.ca fun r => some r.status) (OneSpelling dnsName) .init c :=
    Reach.schedule (fun hr _ h => oneSpelling_sound hr h) _ .start hc
  exact ⟨c, hc, t, u, ht, hu, one_issuance_per_name hr ht hu (by decide)
    (Flow.signing_of_newOrder htp) (Flow.signing_of_newOrder hup)⟩

/-- **Two spellings of one name**, as identifiers `new_order` accepts, sign at the same time. -/
theorem two_spellings :
    ¬ ∀ (o : Oracle) (cfg : Settings) (ca : Ca) (st : OrderReply → Option UpstreamStatus)
      (c : Config Upstream Flow) (i j : Nat) (t u : Flow),
      Reach (upstream ca st) (fun _ _ => True) .init c → c.tasks i = some t →
      c.tasks j = some u → i ≠ j → t.Signing → u.Signing →
      (∀ d ∈ [t.domain, u.domain], validateIdentifiers [⟨"dns", d⟩] = .ok () ∧
        checkDomainPolicy o cfg [⟨"dns", d⟩] = .ok ()) →
      dnsName t.domain ≠ dnsName u.domain := by
  intro hall
  have hrun : (Demo.runFlows (Demo.twoDomains "Host.test" "host.test")).any (fun c =>
      ((c.tasks 0).any fun t => t.pc.isNewOrder && decide (t.domain = "Host.test")) &&
      (c.tasks 1).any fun t => t.pc.isNewOrder && decide (t.domain = "host.test")) = true := by
    decide +kernel
  obtain ⟨c, hc, h⟩ := (Option.any_eq_true _ _).mp hrun
  simp only [Bool.and_eq_true, Option.any_eq_true, decide_eq_true_eq] at h
  obtain ⟨⟨t, ht, htp, htd⟩, u, hu, hup, hud⟩ := h
  refine hall Demo.oracle Demo.settings _ _ c 0 1 t u (Demo.reach_flows hc) ht hu (by decide)
    (Flow.signing_of_newOrder htp) (Flow.signing_of_newOrder hup) ?_ ?_
  · rw [htd, hud]
    intro d hd
    simp only [List.mem_cons, List.not_mem_nil, or_false] at hd
    rcases hd with rfl | rfl
    · exact ⟨rfl, rfl⟩
    · exact ⟨rfl, rfl⟩
  · rw [htd, hud]
    decide +kernel

end Jackdaw
