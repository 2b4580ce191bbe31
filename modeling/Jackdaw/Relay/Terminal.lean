import Jackdaw.Relay.Acknowledge
import Jackdaw.Relay.Issuance

/-!
# Relay — the life of an order

An order is placed pending, and so is its authorization.  The acknowledged challenge turns both to
processing, the validation turns the authorization valid and the order ready, or both invalid; a
claim turns a ready order to processing, and the issuance turns it valid or invalid.  A restart
turns what is processing invalid.  The rows `run_challenge` writes back are not looked at again
first, so all of this needs the tasks of an order to follow each other, and two validating tasks
for one authorization do not: the second one moves an order that is valid back to ready
(`terminal_lost`).

* `MovesOrder`, `MovesAuthz`: who moves a status, from where to where, while the tasks follow each
  other.
* `terminal_absorbing`: in a run in which no second validating task is created for an authorization,
  a status that is valid or invalid stays what it is.
-/

namespace Jackdaw

open Support Support.Interleave

/-- `valid` and `invalid`, of an order. -/
def OrderStatus.terminal : OrderStatus → Bool
  | .valid | .invalid => true
  | .pending | .ready | .processing => false

/-- `valid` and `invalid`, of an authorization. -/
def AuthzStatus.terminal : AuthzStatus → Bool
  | .valid | .invalid => true
  | .pending | .processing => false

/-- **The step creates no second validating task**: one is created for an authorization that has
had none. -/
def FirstDispatch (c c' : Relay) : Prop :=
  ∀ e, c'.shared.log = e :: c.shared.log → ∀ z, e.validates z = true →
    validations c.shared.log z = 0

/-! ### The invariant -/

/-- Where the rows are in their life, by the tasks that were created for them. -/
structure Lifecycle (s : Shared) : Prop where
  fresh : ∀ {z id}, s.db.AuthzOf z id → validations s.log z = 0 →
    s.db.authzStatus z = some .pending ∧ s.db.orderStatus id = some .pending
  validated : ∀ z, validations s.log z ≤ 1
  issued : ∀ id, issuances s.log id ≤ 1
  spent : ∀ {id}, issuances s.log id ≠ 0 →
    ∃ st, s.db.orderStatus id = some st ∧ st ≠ .pending ∧ st ≠ .ready

/-- What task `i` finds while it is suspended: the rows of a validating or issuing task stay
processing, and a POST that found its authorization not pending came after the task. -/
def Pc.Finds (i : Nat) (s : Shared) : Pc → Prop
  | .challenge _ z (.owner authz) => authz.status ≠ .pending → validations s.log z ≠ 0
  | .runChallenge z id _ =>
      (∃ e ∈ s.log, e.validates z = true ∧ e.child = i) ∧ issuances s.log id = 0 ∧
        s.db.authzStatus z = some .processing ∧ s.db.orderStatus id = some .processing
  | .processFinalize id _ _ _ =>
      (∃ e ∈ s.log, e.issues id = true ∧ e.child = i) ∧ s.db.orderStatus id = some .processing
  | _ => True

/-- The entry moves the status of order `id` to `st`. -/
inductive MovesOrder (e : Entry) (id : String) (st : OrderStatus) : Prop where
  | place {a p} (hpc : e.pc = .newOrder a p) (old : e.pre.orderStatus id = none)
      (new : st = .pending)
  | acknowledge {a z p} (hpc : e.pc = .challenge a z p) (hz : e.pre.AuthzOf z id)
      (hv : e.validates z = true) (old : e.pre.orderStatus id = some .pending)
      (new : st = .processing)
  | claim {a p} (hpc : e.pc = .finalize a id p) (old : e.pre.orderStatus id = some .ready)
      (new : st = .processing)
  | validate {z p} (hpc : e.pc = .runChallenge z id p)
      (old : e.pre.orderStatus id = some .processing) (new : st = .ready ∨ st = .invalid)
  | issue {domain csrDer p} (hpc : e.pc = .processFinalize id domain csrDer p)
      (old : e.pre.orderStatus id = some .processing) (new : st = .valid ∨ st = .invalid)
  | interrupt {p} (hpc : e.pc = .reset p) (old : e.pre.orderStatus id = some .processing)
      (new : st = .invalid)

/-- The entry moves the status of authorization `z` to `st`. -/
inductive MovesAuthz (e : Entry) (z : String) (st : AuthzStatus) : Prop where
  | place {a p} (hpc : e.pc = .newOrder a p) (old : e.pre.authzStatus z = none)
      (new : st = .pending)
  | acknowledge {a p} (hpc : e.pc = .challenge a z p) (hv : e.validates z = true)
      (old : e.pre.authzStatus z = some .pending) (new : st = .processing)
  | validate {id p} (hpc : e.pc = .runChallenge z id p)
      (old : e.pre.authzStatus z = some .processing) (new : st = .valid ∨ st = .invalid)
  | interrupt {p} (hpc : e.pc = .reset p) (old : e.pre.authzStatus z = some .processing)
      (new : st = .invalid)

section

variable {o : Oracle} {cfg : Settings} {c : Relay} {i j : Nat} {t u : Task} {seg : Seg Pc}
  {out : Outcome Shared Task}

/-! ### What moves a status -/

/-- **What a turn does to the status of an order.** -/
theorem Turn.moves_order (h : Turn o cfg c i t seg out) (hk : t.pc.Knows i c.shared t.tx)
    (hf : t.pc.Finds i c.shared) (id : String) :
    out.shared.db.orderStatus id = c.shared.db.orderStatus id ∨
      ∃ st, out.shared.db.orderStatus id = some st ∧ MovesOrder h.entry id st := by
  by_cases hsame : out.shared.db.orderStatus id = c.shared.db.orderStatus id
  · exact .inl hsame
  · rcases h.orderStatus id with e | ⟨hc, st, hst, e⟩
    · exact absurd e hsame
    · refine .inr ⟨st, e, ?_⟩
      cases hpc : t.pc with
      | newOrder a p =>
          rw [hpc] at hst
          exact .place hpc hst.1 hst.2
      | challenge a z p =>
          obtain ⟨id', hz, hs, -, hkeep, hturn⟩ := h.challenge_commit hk hpc hc
          by_cases hid : id = id' ∧ c.shared.db.orderStatus id' = some .pending
          · obtain ⟨rfl, hp⟩ := hid
            rw [hturn hp] at e
            cases e
            exact .acknowledge hpc hz (Entry.validates_iff.mpr ⟨id, hs⟩) hp rfl
          · exact absurd (hkeep id (not_and_or.mp hid)) hsame
      | finalize a id' p =>
          rw [hpc] at hst
          obtain ⟨rfl, hold, rfl⟩ := hst
          exact .claim hpc hold rfl
      | runChallenge z id' p =>
          rw [hpc] at hst hf
          obtain ⟨rfl, hnew⟩ := hst
          exact .validate hpc hf.2.2.2 hnew
      | processFinalize id' domain csrDer p =>
          rw [hpc] at hst hf
          obtain ⟨rfl, hnew⟩ := hst
          exact .issue hpc hf.2 hnew
      | reset p =>
          rw [hpc] at hst
          exact .interrupt hpc hst.1 hst.2
      | _ =>
          rw [hpc] at hst
          exact hst.elim

/-- **What a turn does to the status of an authorization.** -/
theorem Turn.moves_authz (h : Turn o cfg c i t seg out) (hk : t.pc.Knows i c.shared t.tx)
    (hf : t.pc.Finds i c.shared) (hI : Lifecycle c.shared) (hp : FirstDispatch c (c.after i out))
    (z : String) : out.shared.db.authzStatus z = c.shared.db.authzStatus z ∨
      ∃ st, out.shared.db.authzStatus z = some st ∧ MovesAuthz h.entry z st := by
  refine (h.authzStatus z).imp_right fun ⟨hc, st, hst, e⟩ => ⟨st, e, ?_⟩
  cases hpc : t.pc with
  | newOrder a p =>
      rw [hpc] at hst
      exact .place hpc hst.1 hst.2
  | challenge a z' p =>
      rw [hpc] at hst
      obtain ⟨rfl, rfl⟩ := hst
      -- the commit creates the first task, so the authorization is as it was placed
      obtain ⟨id, hz, hs, -⟩ := h.challenge_commit hk hpc hc
      have hv : h.entry.validates z' = true := Entry.validates_iff.mpr ⟨id, hs⟩
      exact .acknowledge hpc hv (hI.fresh hz (hp h.entry h.log z' hv)).1 rfl
  | runChallenge z' id p =>
      rw [hpc] at hst hf
      obtain ⟨rfl, hnew⟩ := hst
      exact .validate hpc hf.2.2.1 hnew
  | reset p =>
      rw [hpc] at hst
      exact .interrupt hpc hst.1 hst.2
  | _ =>
      rw [hpc] at hst
      exact hst.elim

theorem MovesOrder.not_terminal {e : Entry} {id : String} {st old : OrderStatus}
    (h : MovesOrder e id st) (hold : e.pre.orderStatus id = some old) : old.terminal = false := by
  cases h with
  | place _ e _ =>
      rw [hold] at e
      cases e
  | acknowledge _ _ _ e _ | claim _ e _ | validate _ e _ | issue _ e _ | interrupt _ e _ =>
      rw [hold] at e
      cases e
      rfl

theorem MovesAuthz.not_terminal {e : Entry} {z : String} {st old : AuthzStatus}
    (h : MovesAuthz e z st) (hold : e.pre.authzStatus z = some old) : old.terminal = false := by
  cases h with
  | place _ e _ =>
      rw [hold] at e
      cases e
  | acknowledge _ _ e _ | validate _ e _ | interrupt _ e _ =>
      rw [hold] at e
      cases e
      rfl

/-! ### The invariant is kept -/

/-- Two tasks that were created for one authorization are the same task. -/
theorem Lifecycle.child_unique {s : Shared} (hI : Lifecycle s) {z : String}
    (hi : ∃ e ∈ s.log, e.validates z = true ∧ e.child = i)
    (hj : ∃ e ∈ s.log, e.validates z = true ∧ e.child = j) : i = j := by
  obtain ⟨e, he, hv, rfl⟩ := hi
  obtain ⟨e', he', hv', rfl⟩ := hj
  rw [unique_of_countP (hI.validated z) he he' hv hv']

theorem issuances_ne_zero {l : List Entry} {id : String}
    (h : ∃ e ∈ l, e.issues id = true ∧ e.child = i) : issuances l id ≠ 0 := by
  obtain ⟨e, he, hv, -⟩ := h
  exact (List.countP_pos_iff.mpr ⟨e, he, hv⟩).ne'

/-- **A turn keeps the rows of its order on their way.** -/
theorem Turn.fresh (h : Turn o cfg c i t seg out) (hk : t.pc.Knows i c.shared t.tx)
    (hl : c.shared.db.Linked) (hf : t.pc.Finds i c.shared) (hI : Lifecycle c.shared)
    (hp : FirstDispatch c (c.after i out)) {z id : String} (hz : out.shared.db.AuthzOf z id)
    (hzero : validations out.shared.log z = 0) :
    out.shared.db.authzStatus z = some .pending ∧ out.shared.db.orderStatus id = some .pending := by
  rw [h.log, validations_cons] at hzero
  have hzero' : validations c.shared.log z = 0 := by omega
  have hnot : h.entry.validates z = false := by
    by_contra hv
    rw [Bool.not_eq_false] at hv
    rw [hv] at hzero
    simp at hzero
  rcases h.placed hk hz with hold | hnew
  · obtain ⟨hza, hoa⟩ := hI.fresh hold hzero'
    constructor
    · rcases h.moves_authz hk hf hI hp z with e | ⟨st, -, hm⟩
      · rw [e, hza]
      · cases hm with
        | place _ e _ | interrupt _ e _ | validate _ e _ =>
            rw [hza] at e
            cases e
        | acknowledge _ hv _ _ =>
            rw [hnot] at hv
            cases hv
    · rcases h.moves_order hk hf id with e | ⟨st, -, hm⟩
      · rw [e, hoa]
      · cases hm with
        | place _ e _ | interrupt _ e _ | claim _ e _ | validate _ e _ | issue _ e _ =>
            rw [hoa] at e
            cases e
        | acknowledge _ hz' hv _ _ =>
            obtain ⟨r, hr, ho⟩ := hold
            obtain ⟨r', hr', ho'⟩ := hz'
            rw [← hl.unique hr hr' (ho.trans ho'.symm), hnot] at hv
            cases hv
  · exact hnew

/-- An order whose issuing task was created is past ready. -/
theorem Turn.spent (h : Turn o cfg c i t seg out) (hk : t.pc.Knows i c.shared t.tx)
    (hf : t.pc.Finds i c.shared) (hI : Lifecycle c.shared) (id : String) :
    issuances out.shared.log id ≤ 1 ∧ (issuances out.shared.log id ≠ 0 →
      ∃ st, out.shared.db.orderStatus id = some st ∧ st ≠ .pending ∧ st ≠ .ready) := by
  have hlog : out.shared.log = h.entry :: c.shared.log := h.log
  rw [hlog, issuances_cons]
  cases hiss : h.entry.issues id with
  | true =>
      -- the order was ready, so the task had not been created
      obtain ⟨domain, csrDer, hs⟩ := Entry.issues_iff.mp hiss
      obtain ⟨a, order, rowcount, -, hready, hproc⟩ := h.issues hk hs
      have hzero : issuances c.shared.log id = 0 := by
        by_contra hne
        obtain ⟨st, hst, -, hnot⟩ := hI.spent hne
        rw [hready] at hst
        exact hnot (Option.some.inj hst).symm
      rw [hzero]
      exact ⟨le_rfl, fun _ => ⟨_, hproc, nofun, nofun⟩⟩
  | false =>
      refine ⟨hI.issued id, fun hne => ?_⟩
      obtain ⟨st, hst, hpend, hready⟩ := hI.spent hne
      rcases h.moves_order hk hf id with e | ⟨st', e, hm⟩
      · exact ⟨st, e.trans hst, hpend, hready⟩
      · refine ⟨st', e, ?_⟩
        cases hm with
        | place _ old _ =>
            rw [hst] at old
            cases old
        | acknowledge _ _ _ old _ =>
            rw [hst] at old
            exact absurd (Option.some.inj old) hpend
        | claim _ old _ =>
            rw [hst] at old
            exact absurd (Option.some.inj old) hready
        | validate hpc _ _ =>
            have hpc : t.pc = _ := hpc
            rw [hpc] at hf
            exact absurd hf.2.1 hne
        | issue _ _ new => rcases new with rfl | rfl <;> exact ⟨nofun, nofun⟩
        | interrupt _ _ new => rw [new]; exact ⟨nofun, nofun⟩

theorem Turn.lifecycle (h : Turn o cfg c i t seg out) (hk : t.pc.Knows i c.shared t.tx)
    (hl : c.shared.db.Linked) (hf : t.pc.Finds i c.shared) (hI : Lifecycle c.shared)
    (hp : FirstDispatch c (c.after i out)) : Lifecycle out.shared where
  fresh := h.fresh hk hl hf hI hp
  validated z := by
    rw [h.log, validations_cons]
    split
    · rename_i hv
      rw [hp _ h.log z hv]
    · exact hI.validated z
  issued id := (h.spent hk hf hI id).1
  spent {id} := (h.spent hk hf hI id).2

/-! ### What a task finds is kept -/

/-- The issuing task is created for a ready order only. -/
theorem Turn.issuances_eq (h : Turn o cfg c i t seg out) (hk : t.pc.Knows i c.shared t.tx)
    {id : String} (hst : c.shared.db.orderStatus id ≠ some .ready) :
    issuances out.shared.log id = issuances c.shared.log id := by
  rw [h.log, issuances_cons, if_neg, Nat.add_zero]
  intro hiss
  obtain ⟨domain, csrDer, hs⟩ := Entry.issues_iff.mp hiss
  obtain ⟨a, order, rowcount, -, hready, -⟩ := h.issues hk hs
  exact hst hready

/-- `process_finalize` leaves the order to its last commit. -/
theorem processFinalizeSeg_goto {id : String} {csrDer : List UInt8} {db : Db} {now : Int}
    {ch : Choice} {p q : ProcessFinalizePc} {seg : Seg ProcessFinalizePc}
    (h : processFinalizeSeg o id csrDer db now p ch = some seg) (hn : seg.next = .goto q) :
    seg.commit = false ∨ ∃ k cert, seg.write = [.insertCert k cert] := by
  cases p with
  | store order k cert =>
      cases Option.some.inj h
      exact .inr ⟨k, cert, rfl⟩
  | commit flush =>
      cases Option.some.inj h
      cases hn
  | getOrder | issue | failGet _ =>
      simp only [processFinalizeSeg] at h
      split at h <;> cases Option.some.inj h <;> exact .inl rfl
  | get pemChain expiresAt =>
      simp only [processFinalizeSeg] at h
      split at h
      · cases Option.some.inj h
        exact .inl rfl
      · split at h
        · cases Option.some.inj h
          exact .inl rfl
        · cases h

theorem Turn.finds_runChallenge (h : Turn o cfg c i t seg out) (hk : t.pc.Knows i c.shared t.tx)
    (hf : t.pc.Finds i c.shared) (hu : out.self = some u) {z id : String} {p q : RunChallengePc}
    (hpc : t.pc = .runChallenge z id p) (hq : u.pc = .runChallenge z id q) :
    u.pc.Finds i out.shared := by
  obtain ⟨ch, hseg⟩ := h.goes_on hu
  have hn := (h.self hu).1
  have hf' := hf
  rw [hpc] at hseg hf'
  obtain ⟨⟨e, he, hv⟩, hiss, hz, ho⟩ := hf'
  have hseg := Option.some.inj hseg
  -- it commits where it ends
  have hc : seg.commit = false := by
    by_contra hc
    rw [Bool.not_eq_false, ← hseg] at hc
    obtain ⟨flush, rfl⟩ := runChallengeSeg_commit hc
    rw [← hseg] at hn
    cases hn
  rw [hq]
  refine ⟨⟨e, h.log ▸ List.mem_cons_of_mem _ he, hv⟩, ?_, ?_, ?_⟩
  · rw [h.issuances_eq hk (by rw [ho]; exact nofun), hiss]
  · rw [h.db_eq hc, hz]
  · rw [h.db_eq hc, ho]

theorem Turn.finds_processFinalize (h : Turn o cfg c i t seg out)
    (hf : t.pc.Finds i c.shared) (hu : out.self = some u) {id domain : String}
    {csrDer : List UInt8} {p q : ProcessFinalizePc}
    (hpc : t.pc = .processFinalize id domain csrDer p)
    (hq : u.pc = .processFinalize id domain csrDer q) : u.pc.Finds i out.shared := by
  obtain ⟨ch, hseg⟩ := h.goes_on hu
  have hn := (h.self hu).1
  rw [hpc] at hseg hf
  obtain ⟨⟨e, he, hv⟩, ho⟩ := hf
  obtain ⟨seg', h', rfl⟩ := Option.map_eq_some_iff.mp hseg
  obtain ⟨q', hn', -⟩ := Next.map_eq_goto hn
  rw [hq]
  refine ⟨⟨e, h.log ▸ List.mem_cons_of_mem _ he, hv⟩, ?_⟩
  rcases h.committed with e | ⟨hc, e⟩
  · rw [e, ho]
  · rcases processFinalizeSeg_goto h' hn' with hc' | ⟨k, cert, hw⟩
    · rw [Seg.map_commit, hc'] at hc
      cases hc
    · rw [h.tx_nil (by rw [hpc]; rfl), Seg.map_write, hw] at e
      obtain ⟨db₁, h₁, e⟩ := Option.bind_eq_some_iff.mp e
      obtain ⟨tab, -, rfl⟩ := Option.map_eq_some_iff.mp h₁
      rw [← Option.some.inj e]
      exact ho

theorem Turn.finds_challenge (h : Turn o cfg c i t seg out) (hI : Lifecycle c.shared)
    (hu : out.self = some u) {a z : String} {authz : Authorization}
    (hq : u.pc = .challenge a z (.owner authz)) : u.pc.Finds i out.shared := by
  rw [hq]
  intro hne hzero
  have hget := h.challenge_loads hu hq
  -- with no task created, the row it loaded was as it was placed
  rw [h.log, validations_cons] at hzero
  obtain ⟨hst, -⟩ := hI.fresh ⟨authz, hget, rfl⟩ (Nat.eq_zero_of_add_eq_zero hzero).1
  rw [Db.authzStatus, hget] at hst
  exact hne (Option.some.inj hst)

theorem Pc.isStart_finds {p : Pc} (h : p.isStart = true) {s : Shared} : p.Finds i s := by
  unfold Pc.isStart at h
  split at h <;> trivial

/-- A turn of its own keeps what a task finds. -/
theorem Turn.finds (h : Turn o cfg c i t seg out) (hk : t.pc.Knows i c.shared t.tx)
    (hf : t.pc.Finds i c.shared) (hI : Lifecycle c.shared) (hu : out.self = some u) :
    u.pc.Finds i out.shared := by
  rcases h.stays_or_starts hu with e | hs | ⟨a, p, e⟩
  · cases hq : u.pc with
    | runChallenge z id q =>
        rw [hq] at e
        obtain ⟨p, hpc⟩ := Pc.eq_runChallenge e.symm
        exact hq ▸ h.finds_runChallenge hk hf hu hpc hq
    | processFinalize id domain csrDer q =>
        rw [hq] at e
        obtain ⟨p, hpc⟩ := Pc.eq_processFinalize e.symm
        exact hq ▸ h.finds_processFinalize hf hu hpc hq
    | challenge a z q =>
        cases q with
        | owner authz => exact hq ▸ h.finds_challenge hI hu hq
        | get | flush _ | commit _ _ => trivial
    | _ => trivial
  · exact Pc.isStart_finds hs
  · rw [e]
    trivial

/-- The first validating task of an authorization is created by a commit, not by a POST that found
the authorization processing. -/
theorem Turn.first_dispatch (h : Turn o cfg c i t seg out) (hf : t.pc.Finds i c.shared)
    {z id : String} (hb : seg.spawn = some (.runChallenge z id))
    (hzero : validations c.shared.log z = 0) :
    ∃ a p, t.pc = .challenge a z p ∧ seg.commit = true := by
  have hsp := h.proper.spawn _ hb
  unfold Pc.Spawns at hsp
  split at hsp
  · cases hsp.2
  · rename_i a z' authz hpc
    obtain ⟨hst, e⟩ := hsp
    cases e
    rw [hpc] at hf
    exact absurd hzero (hf (by rw [hst]; exact nofun))
  · rename_i a z' authz flush hpc
    cases hsp
    refine ⟨a, _, hpc, ?_⟩
    rcases h.runs with ⟨ch, hseg⟩ | rfl
    · rw [hpc] at hseg
      rw [← Option.some.inj hseg]
      rfl
    · cases hb
  · exact hsp.elim

/-- The task a turn creates. -/
theorem Turn.finds_child (h : Turn o cfg c i t seg out) (hk : t.pc.Knows i c.shared t.tx)
    (hf : t.pc.Finds i c.shared) (hI : Lifecycle c.shared) (hp : FirstDispatch c (c.after i out))
    {b : Bg} (hb : seg.spawn = some b) : b.pc.Finds c.next out.shared := by
  have hlog : out.shared.log = h.entry :: c.shared.log := h.log
  cases b with
  | runChallenge z id =>
      have hv : h.entry.validates z = true := Entry.validates_iff.mpr ⟨id, hb⟩
      have hzero := hp h.entry hlog z hv
      obtain ⟨a, p, hpc, hc⟩ := h.first_dispatch hf hb hzero
      obtain ⟨id', hz, hs, hauthz, -, horder⟩ := h.challenge_commit hk hpc hc
      rw [hb] at hs
      cases hs
      obtain ⟨-, hpend⟩ := hI.fresh hz hzero
      refine ⟨⟨h.entry, hlog ▸ List.mem_cons_self, hv, rfl⟩, ?_, hauthz, horder hpend⟩
      rw [h.issuances_eq hk (by rw [hpend]; exact nofun)]
      by_contra hne
      obtain ⟨st, hst, hnot, -⟩ := hI.spent hne
      rw [hpend] at hst
      exact hnot (Option.some.inj hst).symm
  | processFinalize id domain csrDer =>
      obtain ⟨-, -, -, -, -, hproc⟩ := h.issues hk hb
      refine ⟨⟨h.entry, hlog ▸ List.mem_cons_self, ?_, rfl⟩, hproc⟩
      exact Entry.issues_iff.mpr ⟨domain, csrDer, hb⟩

/-- An order in processing stays so, unless its own validating or issuing task, or the reset, runs. -/
theorem Turn.processing_order_kept (h : Turn o cfg c i t seg out) (hk : t.pc.Knows i c.shared t.tx)
    (hf : t.pc.Finds i c.shared) {id : String}
    (ho : c.shared.db.orderStatus id = some .processing) (hreset : ∀ p, t.pc ≠ .reset p)
    (hvalidate : ∀ z p, t.pc ≠ .runChallenge z id p)
    (hissue : ∀ domain csrDer p, t.pc ≠ .processFinalize id domain csrDer p) :
    out.shared.db.orderStatus id = some .processing := by
  rcases h.moves_order hk hf id with e | ⟨st, -, hm⟩
  · rw [e, ho]
  · cases hm with
    | place _ old _ | acknowledge _ _ _ old _ | claim _ old _ =>
        rw [ho] at old
        cases old
    | validate hpc _ _ => exact absurd hpc (hvalidate _ _)
    | issue hpc _ _ => exact absurd hpc (hissue _ _ _)
    | interrupt hpc _ _ => exact absurd hpc (hreset _)

/-- The same for an authorization and its validating task. -/
theorem Turn.processing_authz_kept (h : Turn o cfg c i t seg out) (hk : t.pc.Knows i c.shared t.tx)
    (hf : t.pc.Finds i c.shared) (hI : Lifecycle c.shared) (hp : FirstDispatch c (c.after i out))
    {z : String} (hz : c.shared.db.authzStatus z = some .processing)
    (hreset : ∀ p, t.pc ≠ .reset p) (hvalidate : ∀ id p, t.pc ≠ .runChallenge z id p) :
    out.shared.db.authzStatus z = some .processing := by
  rcases h.moves_authz hk hf hI hp z with e | ⟨st, -, hm⟩
  · rw [e, hz]
  · cases hm with
    | place _ old _ | acknowledge _ _ old _ =>
        rw [hz] at old
        cases old
    | validate hpc _ _ => exact absurd hpc (hvalidate _ _)
    | interrupt hpc _ _ => exact absurd hpc (hreset _)

/-- **The turns of the others keep what a task finds.** -/
theorem Turn.finds_other (hr : Reach (relay o cfg) FirstDispatch .init c)
    (h : Turn o cfg c i t seg out) (hf : t.pc.Finds i c.shared)
    (hI : Lifecycle c.shared) (hp : FirstDispatch c (c.after i out)) (hj : c.tasks j = some u)
    (hne : j ≠ i) (hu : u.pc.Finds j c.shared) : u.pc.Finds j out.shared := by
  have hk := Jackdaw.knows hr h.task
  have hmem : ∀ {e}, e ∈ c.shared.log → e ∈ out.shared.log :=
    fun he => h.log ▸ List.mem_cons_of_mem _ he
  -- while another task is suspended there is no reset
  have hreset : ∀ p, t.pc ≠ .reset p := by
    intro p hpc
    exact hne ((reset_alone hr h.task (by rw [hpc]; rfl)).2 j u hj)
  cases hpc : u.pc with
  | challenge a z p =>
      cases p with
      | owner authz =>
          rw [hpc] at hu
          intro hst hzero
          rw [h.log, validations_cons] at hzero
          exact hu hst (Nat.eq_zero_of_add_eq_zero hzero).1
      | get | flush _ | commit _ _ => trivial
  | runChallenge z id p =>
      have hkj := Jackdaw.knows hr hj
      rw [hpc] at hu hkj
      obtain ⟨⟨e, he, hv⟩, hiss, hz, ho⟩ := hu
      -- another validating task is one for another authorization, of another order
      have hother : ∀ {z' id' p'}, t.pc = .runChallenge z' id' p' → z' ≠ z ∧ id' ≠ id := by
        intro z' id' p' hpc'
        rw [hpc'] at hf hk
        have hzz : z' ≠ z := by
          rintro rfl
          exact hne (hI.child_unique ⟨e, he, hv⟩ hf.1)
        refine ⟨hzz, ?_⟩
        rintro rfl
        obtain ⟨⟨r, hr₁, ho₁⟩, -⟩ := hk
        obtain ⟨⟨r', hr₂, ho₂⟩, -⟩ := hkj
        exact hzz ((Jackdaw.linked hr).unique hr₁ hr₂ (ho₁.trans ho₂.symm))
      refine ⟨⟨e, hmem he, hv⟩, ?_, ?_, ?_⟩
      · rw [h.issuances_eq hk (by rw [ho]; exact nofun), hiss]
      · exact h.processing_authz_kept hk hf hI hp hz hreset fun _ _ hpc' => (hother hpc').1 rfl
      · refine h.processing_order_kept hk hf ho hreset (fun _ _ hpc' => (hother hpc').2 rfl) ?_
        intro domain csrDer p' hpc'
        rw [hpc'] at hf
        exact absurd hiss (issuances_ne_zero hf.1)
  | processFinalize id domain csrDer p =>
      rw [hpc] at hu
      obtain ⟨⟨e, he, hv⟩, ho⟩ := hu
      refine ⟨⟨e, hmem he, hv⟩, h.processing_order_kept hk hf ho hreset ?_ ?_⟩
      · intro z p' hpc'
        rw [hpc'] at hf
        exact absurd hf.2.1 (issuances_ne_zero ⟨e, he, hv⟩)
      · intro domain' csrDer' p' hpc'
        rw [hpc'] at hf
        obtain ⟨⟨e', he', hv'⟩, -⟩ := hf
        have hsame := unique_of_countP (hI.issued id) he he' hv.1 hv'.1
        rw [hsame, hv'.2] at hv
        exact absurd hv.2.symm hne
  | _ => trivial

/-! ### Runs -/

/-- Every status that was final, in one of the databases of the run, is still what it was. -/
def Absorbed (s : Shared) : Prop :=
  ∀ e ∈ s.log,
    (∀ id st, st.terminal = true → e.post.orderStatus id = some st →
      s.db.orderStatus id = some st) ∧
    ∀ z st, st.terminal = true → e.post.authzStatus z = some st → s.db.authzStatus z = some st

/-- **One step leaves a final status alone.** -/
theorem Turn.absorbed (h : Turn o cfg c i t seg out) (hk : t.pc.Knows i c.shared t.tx)
    (hf : t.pc.Finds i c.shared) (hI : Lifecycle c.shared) (hp : FirstDispatch c (c.after i out))
    (ha : Absorbed c.shared) : Absorbed out.shared := by
  intro e he
  rw [h.log] at he
  rcases List.mem_cons.mp he with rfl | he
  · exact ⟨fun _ _ _ hst => hst, fun _ _ _ hst => hst⟩
  · refine ⟨fun id st hterm hst => ?_, fun z st hterm hst => ?_⟩
    · have hst := (ha e he).1 id st hterm hst
      rcases h.moves_order hk hf id with hsame | ⟨st', -, hm⟩
      · rw [hsame, hst]
      · rw [hm.not_terminal hst] at hterm
        cases hterm
    · have hst := (ha e he).2 z st hterm hst
      rcases h.moves_authz hk hf hI hp z with hsame | ⟨st', -, hm⟩
      · rw [hsame, hst]
      · rw [hm.not_terminal hst] at hterm
        cases hterm

def terminalSafety (o : Oracle) (cfg : Settings) : Safety o cfg FirstDispatch where
  Inv _ s := Lifecycle s ∧ Absorbed s
  Ok i s t := t.pc.Finds i s
  start := ⟨⟨fun ⟨_, h, _⟩ => (by cases h), fun _ => Nat.zero_le 1, fun _ => Nat.zero_le 1,
    fun h => absurd rfl h⟩, List.forall_mem_nil _⟩
  run hr h hp hI hf := by
    have hk := knows hr h.task
    exact ⟨⟨h.lifecycle hk (linked hr) hf hI.1 hp, h.absorbed hk hf hI.1 hp hI.2⟩,
      fun u hu => h.finds hk hf hI.1 hu, fun b hb => h.finds_child hk hf hI.1 hp hb⟩
  others hr h hp hI hf hj hne hu := h.finds_other hr hf hI.1 hp hj hne hu
  request {c t} _ _ _ hpc := by
    rcases hpc with ⟨req, e⟩ | ⟨p, e⟩ | ⟨cutoff, e⟩ <;> rw [e] <;> trivial
  fresh hI := hI
  clock _ hI := by
    refine ⟨⟨⟨hI.1.fresh, hI.1.validated, hI.1.issued, hI.1.spent⟩, hI.2⟩, fun j u hu => ?_⟩
    cases hpc : u.pc with
    | challenge a z p => cases p <;> rw [hpc] at hu <;> exact hu
    | _ =>
        rw [hpc] at hu
        exact hu
  restart hI := ⟨⟨⟨hI.1.fresh, hI.1.validated, hI.1.issued, hI.1.spent⟩, hI.2⟩, trivial⟩

theorem lifecycle (hr : Reach (relay o cfg) FirstDispatch .init c) : Lifecycle c.shared :=
  ((terminalSafety o cfg).reach hr).1.1

theorem finds (hr : Reach (relay o cfg) FirstDispatch .init c) (ht : c.tasks i = some t) :
    t.pc.Finds i c.shared :=
  ((terminalSafety o cfg).reach hr).2 i t ht

/-- **Final statuses are final**, in every run in which no second validating task is created for an
authorization. -/
theorem terminal_absorbing (h : Reach (relay o cfg) FirstDispatch .init c) : Absorbed c.shared :=
  ((terminalSafety o cfg).reach h).1.2

end

/-- A test for `FirstDispatch` that may be run. -/
def firstDispatch (c c' : Relay) : Bool :=
  c'.shared.log.head?.all fun e =>
    match e.seg.spawn with
    | some (.runChallenge z _) => decide (validations c.shared.log z = 0)
    | _ => true

theorem firstDispatch_sound {c c' : Relay} (h : firstDispatch c c' = true) :
    FirstDispatch c c' := by
  intro e he z hv
  obtain ⟨id, hs⟩ := Entry.validates_iff.mp hv
  simpa only [firstDispatch, he, List.head?_cons, Option.all_some, hs, decide_eq_true_eq] using h

/-- The certificate of an order is issued, and it is finalized once more. -/
def Demo.issuedOrder : List (Nat → List (Action Input)) :=
  finalizedOrder ++
    [fun _ => go 49 (turns 1 ++ [{ issued := .ok "pem" }, { uuid := uuid 5 }] ++ turns 2),
      call (request 11 5 3) (turns 4)]

theorem Demo.issuedOrder_run : ∃ c, run firstDispatch issuedOrder = some c ∧
    c.shared.db.orderStatus (uuid 3) = some .valid ∧
    c.shared.db.authzStatus (uuid 4) = some .valid := by
  have hrun : (run firstDispatch issuedOrder).any (fun c =>
      decide (c.shared.db.orderStatus (uuid 3) = some .valid) &&
      decide (c.shared.db.authzStatus (uuid 4) = some .valid)) = true := by decide +kernel
  obtain ⟨c, hc, h⟩ := (Option.any_eq_true _ _).mp hrun
  simp only [Bool.and_eq_true, decide_eq_true_eq] at h
  exact ⟨c, hc, h.1, h.2⟩

theorem terminal_absorbing_run :
    ∃ c, Demo.run firstDispatch Demo.issuedOrder = some c ∧
      c.shared.db.orderStatus (Demo.uuid 3) = some .valid ∧
      c.shared.db.authzStatus (Demo.uuid 4) = some .valid ∧ Absorbed c.shared := by
  obtain ⟨c, hc, horder, hauthz⟩ := Demo.issuedOrder_run
  exact ⟨c, hc, horder, hauthz, terminal_absorbing (Demo.reach (fun _ => firstDispatch_sound) hc)⟩

/-- **A valid order that is valid no more**: the second validating task of its authorization turns
it ready again. -/
theorem terminal_lost :
    ¬ ∀ c, Reachable Demo.oracle Demo.settings c → Absorbed c.shared := by
  intro hall
  obtain ⟨c, hc, -, -, ⟨e, he, r, hr, hvalid⟩, r', hr', hproc⟩ := Demo.acknowledgedTwice_run
  have hst := (hall c (Demo.reach (fun _ _ => trivial) hc) e he).1 (Demo.uuid 3) .valid rfl
    (Db.orderStatus_eq_some.mpr ⟨r, hr, hvalid⟩)
  rw [Db.orderStatus_eq_some.mpr ⟨r', hr', hproc⟩] at hst
  cases hst

end Jackdaw
