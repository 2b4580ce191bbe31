import Jackdaw.Relay.Life
import Jackdaw.Relay.Recovery

/-!
# Relay — what a status says

A status is read together with other rows and other columns: a ready order is one whose
authorizations are valid, and an error is the reason of an `invalid`.  Both are facts about every
step of a row (`OrderStep`, `AuthzStep`), and both need the tasks of an order to follow each other.
A POST that was held up between its look at the authorization and its commit turns it processing
again under an order that is ready by then (`ready_unauthorized`); and the reset at startup turns
an authorization invalid without giving the reason it gives for its order (`invalid_unexplained`).

* `ready_authorized`: a ready order has an authorization, and all of its are valid.
* `errors_explain`: an authorization has an error if and only if it is invalid, and an order has one
  only if it is.
-/

namespace Jackdaw

open Support Support.Interleave

/-- Every ready order has an authorization, and all its authorizations are valid. -/
def Db.ReadyValid (db : Db) : Prop :=
  ∀ {id r}, db.orders.get id = some r → r.status = .ready →
    (∃ z, db.AuthzOf z id) ∧ ∀ z, db.AuthzOf z id → db.authzStatus z = some .valid

/-- Every problem document goes with its status. -/
structure Db.Explained (db : Db) : Prop where
  authz : ∀ {z r}, db.authorizations.get z = some r → (r.error ≠ none ↔ r.status = .invalid)
  order : ∀ {id r}, db.orders.get id = some r → r.error ≠ none → r.status = .invalid

/-- **The step interrupts no validation**: where it is the commit of the startup reset, no
authorization is processing. -/
def Uninterrupted (c c' : Relay) : Prop :=
  ∀ e, c'.shared.log = e :: c.shared.log → ∀ p, e.pc = .reset p → e.seg.commit = true →
    ∀ z, e.pre.authzStatus z ≠ some .processing

/-! ### One step of a row -/

/-- An order turns ready behind its validated authorization only. -/
theorem OrderStep.turns_ready {e : Entry} {id : String} {old : Option Order} {r : Order}
    (h : OrderStep e id old r) (hst : r.status = .ready) :
    ∃ z p, e.pc = .runChallenge z id p ∧ e.post.authzStatus z = some .valid := by
  cases h with
  | validate hpc _ hz => exact ⟨_, _, hpc, hz⟩
  | place _ new =>
      rw [new.1] at hst
      cases hst
  | acknowledge _ _ _ _ | claim _ _ | refute _ _ | record _ _ _ | refuse _ _ | interrupt _ _ =>
      cases hst

/-- An authorization that is valid makes no step. -/
theorem AuthzStep.not_valid {e : Entry} {z : String} {r r' : Authorization}
    (h : AuthzStep e z (some r) r') : r.status ≠ .valid := by
  cases h with
  | acknowledge _ _ old | validate _ old | refute _ old | interrupt _ old =>
      rw [old]
      exact nofun

/-- An order that had an error only if it was invalid has one only if it is. -/
theorem OrderStep.explained {e : Entry} {id : String} {old : Option Order} {r' : Order}
    (h : OrderStep e id old r')
    (hold : ∀ r, old = some r → r.error ≠ none → r.status = .invalid) (herr : r'.error ≠ none) :
    r'.status = .invalid := by
  cases h with
  | place _ new => exact absurd new.2.2 herr
  | acknowledge _ _ _ st | claim _ st | validate _ st _ | record _ st _ =>
      -- the row was not invalid, so it had no error, and the step gives it none
      have hinv := hold _ rfl herr
      rw [st] at hinv
      cases hinv
  | refute _ _ | refuse _ _ | interrupt _ _ => rfl

/-- An authorization keeps error and status together, unless it is interrupted. -/
theorem AuthzStep.explained {e : Entry} {z : String} {old : Option Authorization}
    {r' : Authorization} (h : AuthzStep e z old r')
    (hold : ∀ r, old = some r → (r.error ≠ none ↔ r.status = .invalid))
    (hint : ∀ p r, e.pc = .reset p → old = some r → r.status ≠ .processing) :
    r'.error ≠ none ↔ r'.status = .invalid := by
  cases h with
  | place _ new => simp [new.1, new.2]
  | acknowledge _ _ st | validate _ st =>
      have hnone := hold _ rfl
      rw [st] at hnone
      simpa using hnone
  | refute _ _ => simp
  | interrupt hpc st => exact absurd st (hint _ _ hpc rfl)

section

variable {o : Oracle} {cfg : Settings} {c : Relay} {i : Nat} {t : Task} {seg : Seg Pc}
  {out : Outcome Shared Task}

/-! ### Ready orders -/

/-- **A turn leaves ready orders authorized.** -/
theorem Turn.readyValid (h : Turn o cfg c i t seg out)
    (hr : Reach (relay o cfg) FirstDispatch .init c) (hp : FirstDispatch c (c.after i out))
    (hs : out.shared.db.InStep) (hl : out.shared.db.Linked) (hI : c.shared.db.ReadyValid) :
    out.shared.db.ReadyValid := by
  intro id r' hr' hst
  refine ⟨hs.has hr', fun z hz => ?_⟩
  rcases h.order_life hr id with e | ⟨r, e, hstep⟩
  · rcases h.placed (Jackdaw.knows hr h.task) hz with hold | ⟨-, hnew⟩
    · have hvalid := (hI (e ▸ hr') hst).2 z hold
      rcases h.authz_life hr hp z with e | ⟨a', -, hstep⟩
      · rw [Db.authzStatus, e]
        exact hvalid
      · obtain ⟨a, ha, hv⟩ := Db.authzStatus_eq_some.mp hvalid
        rw [ha] at hstep
        exact absurd hv hstep.not_valid
    · rw [Db.orderStatus, hr', Option.map_some, hst] at hnew
      cases hnew
  · rw [hr'] at e
    cases e
    obtain ⟨z', p, hpc, hvalid⟩ := hstep.turns_ready hst
    have hpc : t.pc = _ := hpc
    have hk := Jackdaw.knows hr h.task
    rw [hpc] at hk
    -- the authorization that was validated is the only one of its order
    obtain ⟨a, ha, ho⟩ := hz
    obtain ⟨a', ha', ho'⟩ := hk.1.grows h.grows
    rw [hl.unique ha ha' (ho.trans ho'.symm)]
    exact hvalid

def readySafety (o : Oracle) (cfg : Settings) : Safety o cfg FirstDispatch where
  Inv _ s := s.db.ReadyValid
  Ok _ _ _ := True
  start := fun h => by cases h
  run hr h hp hI _ := by
    have hs := h.inStep (knows hr h.task) (linked hr) (started hr h.task) (in_step hr)
    have hl := h.linked (knows hr h.task) (linked hr)
    exact ⟨h.readyValid hr hp hs hl hI, fun _ _ => trivial, fun _ _ => trivial⟩
  others _ _ _ _ _ _ _ _ := trivial
  request _ _ _ _ := trivial
  fresh hI := hI
  clock _ hI := ⟨hI, fun _ _ _ => trivial⟩
  restart hI := ⟨hI, trivial⟩

/-- **Ready means all authorizations valid**, in every run in which no second validating task is
created for an authorization. -/
theorem ready_authorized (h : Reach (relay o cfg) FirstDispatch .init c) :
    c.shared.db.ReadyValid :=
  ((readySafety o cfg).reach h).1

/-! ### Problem documents -/

/-- **A turn leaves errors with their statuses.** -/
theorem Turn.explained (h : Turn o cfg c i t seg out)
    (hr : Reach (relay o cfg) FirstDispatch .init c) (hp : FirstDispatch c (c.after i out))
    (hint : Uninterrupted c (c.after i out)) (hI : c.shared.db.Explained) :
    out.shared.db.Explained := by
  by_cases hc : seg.commit = true
  case neg =>
    rw [Bool.not_eq_true] at hc
    rw [h.db_eq hc]
    exact hI
  constructor
  · intro z r' hr'
    rcases h.authz_life hr hp z with e | ⟨r, e, hstep⟩
    · exact hI.authz (e ▸ hr')
    · rw [hr'] at e
      cases e
      refine hstep.explained (fun r hr => hI.authz hr) fun p r hpc hr hst => ?_
      exact hint h.entry h.log p hpc hc z (Db.authzStatus_eq_some.mpr ⟨r, hr, hst⟩)
  · intro id r' hr'
    rcases h.order_life hr id with e | ⟨r, e, hstep⟩
    · exact hI.order (e ▸ hr')
    · rw [hr'] at e
      cases e
      exact hstep.explained fun r hr => hI.order hr

def explainedSafety (o : Oracle) (cfg : Settings) :
    Safety o cfg fun c c' => FirstDispatch c c' ∧ Uninterrupted c c' where
  Inv _ s := s.db.Explained
  Ok _ _ _ := True
  start := ⟨fun h => (by cases h), fun h => by cases h⟩
  run hr h hp hI _ := ⟨h.explained (hr.mono fun _ _ h => h.1) hp.1 hp.2 hI, fun _ _ => trivial,
    fun _ _ => trivial⟩
  others _ _ _ _ _ _ _ _ := trivial
  request _ _ _ _ := trivial
  fresh hI := hI
  clock _ hI := ⟨hI, fun _ _ _ => trivial⟩
  restart hI := ⟨hI, trivial⟩

/-- **Problem documents agree with statuses**, in every run in which no second validating task is
created for an authorization and no restart finds one processing. -/
theorem errors_explain
    (h : Reach (relay o cfg) (fun c c' => FirstDispatch c c' ∧ Uninterrupted c c') .init c) :
    c.shared.db.Explained :=
  ((explainedSafety o cfg).reach h).1

end

/-! ### Runs -/

/-- The relay starts, and an account places an order. -/
def Demo.placedOrder : List (Nat → List (Action Input)) :=
  [boot, nonce 1, nonce 2, nonce 3, nonce 4, nonce 5, nonce 6, account 1 1, order 11 2]

/-- A POST is held up behind its look at the authorization, while another one is followed by the
validation; then it goes on. -/
def Demo.heldUpAcknowledge : List (Nat → List (Action Input)) :=
  placedOrder ++ [call (request 11 3 2) (turns 5), call (request 11 4 2) (turns 7),
    fun _ => go 40 (turns 8), fun _ => go 27 (turns 2)]

/-- The validation fails, and the relay starts again. -/
def Demo.refutedOrder : List (Nat → List (Action Input)) :=
  placedOrder ++ [call (request 11 3 2) (turns 7),
    fun _ => go 34 (turns 3 ++ [{ validated := some ⟨"urn:ietf:params:acme:error:dns", "no"⟩ }] ++ turns 3),
    boot]

/-- The relay starts again while the challenge is validated. -/
def Demo.interruptedOrder : List (Nat → List (Action Input)) :=
  placedOrder ++ [call (request 11 3 2) (turns 7), boot]

theorem ready_authorized_run :
    ∃ c, Demo.run firstDispatch Demo.readyOrder = some c ∧
      (∃ r, c.shared.db.orders.get (Demo.uuid 3) = some r ∧ r.status = .ready) ∧
      c.shared.db.ReadyValid := by
  have hrun : (Demo.run firstDispatch Demo.readyOrder).any (fun c =>
      (c.shared.db.orders.get (Demo.uuid 3)).any fun r => decide (r.status = .ready)) = true := by
    decide +kernel
  obtain ⟨c, hc, h⟩ := (Option.any_eq_true _ _).mp hrun
  obtain ⟨r, hr, hst⟩ := (Option.any_eq_true _ _).mp h
  exact ⟨c, hc, ⟨r, hr, of_decide_eq_true hst⟩,
    ready_authorized (Demo.reach (fun _ => firstDispatch_sound) hc)⟩

/-- **A ready order with an authorization that is processing.** -/
theorem ready_unauthorized :
    ¬ ∀ c, Reachable Demo.oracle Demo.settings c → c.shared.db.ReadyValid := by
  intro hall
  have hrun : (Demo.run (fun _ _ => true) Demo.heldUpAcknowledge).any (fun c =>
      ((c.shared.db.orders.get (Demo.uuid 3)).any fun r => decide (r.status = .ready)) &&
      (c.shared.db.authorizations.get (Demo.uuid 4)).any fun r =>
        decide (r.orderId = Demo.uuid 3) && decide (r.status = .processing)) = true := by
    decide +kernel
  obtain ⟨c, hc, h⟩ := (Option.any_eq_true _ _).mp hrun
  simp only [Bool.and_eq_true, decide_eq_true_eq, Option.any_eq_true] at h
  obtain ⟨⟨r, hr, hst⟩, a, ha, ho, hproc⟩ := h
  have hvalid := (hall c (Demo.reach (fun _ _ => trivial) hc) hr hst).2 _ ⟨a, ha, ho⟩
  rw [Db.authzStatus_eq_some.mpr ⟨a, ha, hproc⟩] at hvalid
  cases hvalid

/-- A test for `Uninterrupted` that may be run. -/
def uninterrupted (c' : Relay) : Bool :=
  c'.shared.log.head?.all fun e =>
    match e.pc with
    | .reset _ => !e.seg.commit ||
        e.pre.authorizations.rows.all fun a => decide (a.2.status ≠ .processing)
    | _ => true

theorem uninterrupted_sound {c c' : Relay} (h : uninterrupted c' = true) :
    Uninterrupted c c' := by
  intro e he p hpc hc z hz
  obtain ⟨r, hr, hst⟩ := Db.authzStatus_eq_some.mp hz
  simp only [uninterrupted, he, List.head?_cons, Option.all_some, hpc, hc, Bool.not_true,
    Bool.false_or, List.all_eq_true, decide_eq_true_eq] at h
  exact h _ (Table.get_eq_some_iff.mp hr) hst

theorem errors_explain_run :
    ∃ c, Demo.run (fun c c' => firstDispatch c c' && uninterrupted c') Demo.refutedOrder = some c ∧
      (∃ r, c.shared.db.authorizations.get (Demo.uuid 4) = some r ∧ r.status = .invalid) ∧
      c.shared.db.Explained := by
  have hrun : (Demo.run (fun c c' => firstDispatch c c' && uninterrupted c')
      Demo.refutedOrder).any (fun c =>
        (c.shared.db.authorizations.get (Demo.uuid 4)).any fun r =>
          decide (r.status = .invalid)) = true := by
    decide +kernel
  obtain ⟨c, hc, h⟩ := (Option.any_eq_true _ _).mp hrun
  obtain ⟨r, hr, hst⟩ := (Option.any_eq_true _ _).mp h
  refine ⟨c, hc, ⟨r, hr, of_decide_eq_true hst⟩, errors_explain (Demo.reach (fun _ h => ?_) hc)⟩
  rw [Bool.and_eq_true] at h
  exact ⟨firstDispatch_sound h.1, uninterrupted_sound h.2⟩

/-- **An invalid authorization that gives no reason.** -/
theorem invalid_unexplained :
    ¬ ∀ c, Reachable Demo.oracle Demo.settings c → c.shared.db.Explained := by
  intro hall
  have hrun : (Demo.run (fun _ _ => true) Demo.interruptedOrder).any (fun c =>
      (c.shared.db.authorizations.get (Demo.uuid 4)).any fun r =>
        decide (r.status = .invalid) && decide (r.error = none)) = true := by
    decide +kernel
  obtain ⟨c, hc, h⟩ := (Option.any_eq_true _ _).mp hrun
  simp only [Bool.and_eq_true, decide_eq_true_eq, Option.any_eq_true] at h
  obtain ⟨r, hr, hst, herr⟩ := h
  exact ((hall c (Demo.reach (fun _ _ => trivial) hc)).authz hr).mpr hst herr

end Jackdaw
