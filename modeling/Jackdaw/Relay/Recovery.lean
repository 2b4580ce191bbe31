import Jackdaw.Relay.Acknowledge
import Jackdaw.Relay.Issuance

/-!
# Relay — recovery at startup

`_reset_processing_orders` turns invalid what a crash left processing: a bulk update of the orders
and one of the authorizations.  Neither looks at the other table, and yet no order is left behind
that can neither be validated nor finalized, because an order and its authorization leave `pending`
in one transaction and nothing turns either of them back (`Db.InStep`).  This holds in every run,
also where a challenge is acknowledged twice.

* `reset_recovers`: a restart in any reached state runs through; it leaves nothing processing, no
  other row changed, and every pending order with its authorizations pending.
-/

namespace Jackdaw

open Support Support.Interleave

/-- The authorization is there and has left `pending`. -/
def Db.AuthzPast (db : Db) (z : String) : Prop :=
  ∃ st, db.authzStatus z = some st ∧ st ≠ .pending

/-- The order is there and has left `pending`. -/
def Db.OrderPast (db : Db) (id : String) : Prop :=
  ∃ st, db.orderStatus id = some st ∧ st ≠ .pending

/-- Every order has an authorization, and the two leave `pending` together. -/
structure Db.InStep (db : Db) : Prop where
  has : ∀ {id r}, db.orders.get id = some r → ∃ z, db.AuthzOf z id
  pending : ∀ {z id}, db.AuthzOf z id →
    (db.orderStatus id = some .pending ↔ db.authzStatus z = some .pending)

/-- What a task knows of the rows that have left `pending`. -/
def Pc.Started (db : Db) : Pc → Prop
  | .challenge _ z (.owner authz) => authz.status ≠ .pending → db.AuthzPast z
  | .runChallenge z _ _ => db.AuthzPast z
  | .processFinalize id _ _ _ => db.OrderPast id
  | _ => True

theorem Db.AuthzPast.not_pending {db : Db} {z : String} (h : db.AuthzPast z) :
    db.authzStatus z ≠ some .pending := by
  obtain ⟨st, e, hne⟩ := h
  rw [e]
  exact fun he => hne (Option.some.inj he)

theorem Db.OrderPast.not_pending {db : Db} {id : String} (h : db.OrderPast id) :
    db.orderStatus id ≠ some .pending := by
  obtain ⟨st, e, hne⟩ := h
  rw [e]
  exact fun he => hne (Option.some.inj he)

/-- A row that is there is not turned pending. -/
theorem Pc.TurnsAuthz.past {pc : Pc} {z : String} {old : Option AuthzStatus} {st : AuthzStatus}
    (h : pc.TurnsAuthz z old st) (hold : old ≠ none) : st ≠ .pending := by
  cases pc with
  | newOrder a p => exact absurd h.1 hold
  | challenge a z' p => rw [h.2]; exact nofun
  | runChallenge z' id p => rcases h.2 with rfl | rfl <;> exact nofun
  | reset p => rw [h.2]; exact nofun
  | _ => exact h.elim

theorem Pc.TurnsOrder.past {pc : Pc} {id : String} {old : Option OrderStatus} {st : OrderStatus}
    (h : pc.TurnsOrder id old st) (hold : old ≠ none) : st ≠ .pending := by
  cases pc with
  | newOrder a p => exact absurd h.1 hold
  | challenge a z' p => rw [show st = _ from h]; exact nofun
  | finalize a id' p => rw [h.2.2]; exact nofun
  | runChallenge z' id p => rcases h.2 with rfl | rfl <;> exact nofun
  | processFinalize id' _ _ p => rcases h.2 with rfl | rfl <;> exact nofun
  | reset p => rw [h.2]; exact nofun
  | _ => exact h.elim

section

variable {o : Oracle} {cfg : Settings} {c : Relay} {i : Nat} {t u : Task} {seg : Seg Pc}
  {out : Outcome Shared Task}

/-! ### Leaving `pending` -/

theorem Turn.authzPast (h : Turn o cfg c i t seg out) {z : String}
    (hz : c.shared.db.AuthzPast z) : out.shared.db.AuthzPast z := by
  obtain ⟨st, e, hne⟩ := hz
  rcases h.authzStatus z with e' | ⟨-, st', hst', e'⟩
  · exact ⟨st, e'.trans e, hne⟩
  · exact ⟨st', e', hst'.past (by rw [e]; exact nofun)⟩

theorem Turn.orderPast (h : Turn o cfg c i t seg out) {id : String}
    (hid : c.shared.db.OrderPast id) : out.shared.db.OrderPast id := by
  obtain ⟨st, e, hne⟩ := hid
  rcases h.orderStatus id with e' | ⟨-, st', hst', e'⟩
  · exact ⟨st, e'.trans e, hne⟩
  · exact ⟨st', e', hst'.past (by rw [e]; exact nofun)⟩

theorem Turn.started_other (h : Turn o cfg c i t seg out) {pc : Pc}
    (hs : pc.Started c.shared.db) : pc.Started out.shared.db := by
  cases pc with
  | challenge a z p =>
      cases p with
      | owner authz => exact fun hne => h.authzPast (hs hne)
      | get | flush _ | commit _ _ => trivial
  | runChallenge z id p => exact h.authzPast hs
  | processFinalize id domain csrDer p => exact h.orderPast hs
  | _ => trivial

theorem Pc.isStart_started {p : Pc} (h : p.isStart = true) {db : Db} : p.Started db := by
  unfold Pc.isStart at h
  split at h <;> trivial

/-- What the task a turn leaves knows. -/
theorem Turn.started (h : Turn o cfg c i t seg out) (hu : out.self = some u)
    (hs : t.pc.Started c.shared.db) : u.pc.Started out.shared.db := by
  rcases h.stays_or_starts hu with e | hstart | ⟨a, p, e⟩
  · cases hq : u.pc with
    | runChallenge z id q =>
        rw [hq] at e
        obtain ⟨p, hpc⟩ := Pc.eq_runChallenge e.symm
        rw [hpc] at hs
        exact h.authzPast hs
    | processFinalize id domain csrDer q =>
        rw [hq] at e
        obtain ⟨p, hpc⟩ := Pc.eq_processFinalize e.symm
        rw [hpc] at hs
        exact h.orderPast hs
    | challenge a z q =>
        cases q with
        | owner authz =>
            intro hne
            refine h.authzPast ⟨authz.status, ?_, hne⟩
            rw [Db.authzStatus, h.challenge_loads hu hq, Option.map_some]
        | get | flush _ | commit _ _ => trivial
    | _ => trivial
  · exact Pc.isStart_started hstart
  · rw [e]
    trivial

/-- What the task a turn creates knows. -/
theorem Turn.started_child (h : Turn o cfg c i t seg out) (hk : t.pc.Knows i c.shared t.tx)
    (hs : t.pc.Started c.shared.db) {b : Bg} (hb : seg.spawn = some b) :
    b.pc.Started out.shared.db := by
  cases b with
  | processFinalize id domain csrDer =>
      obtain ⟨-, -, -, -, -, hproc⟩ := h.issues hk hb
      exact ⟨.processing, hproc, nofun⟩
  | runChallenge z id =>
      have hsp := h.proper.spawn _ hb
      unfold Pc.Spawns at hsp
      split at hsp
      · cases hsp.2
      · rename_i a z' authz hpc
        obtain ⟨hst, e⟩ := hsp
        cases e
        rw [hpc] at hs
        exact h.authzPast (hs (by rw [hst]; exact nofun))
      · rename_i a z' authz flush hpc
        cases hsp
        have hc : seg.commit = true := by
          rcases h.runs with ⟨ch, hseg⟩ | rfl
          · rw [hpc] at hseg
            rw [← Option.some.inj hseg]
            rfl
          · cases hb
        obtain ⟨-, -, -, hproc, -⟩ := h.challenge_commit hk hpc hc
        exact ⟨.processing, hproc, nofun⟩
      · exact hsp.elim

/-- **Who turns a pending order**: the acknowledgment of its challenge. -/
theorem Turn.leaves_pending (h : Turn o cfg c i t seg out) (hk : t.pc.Knows i c.shared t.tx)
    (hs : t.pc.Started c.shared.db) (hI : c.shared.db.InStep) {id : String}
    (hp : c.shared.db.orderStatus id = some .pending) :
    out.shared.db.orderStatus id = some .pending ∨
      ∃ a z p, t.pc = .challenge a z p ∧ c.shared.db.AuthzOf z id ∧
        out.shared.db.authzStatus z = some .processing := by
  rcases h.orderStatus id with e | ⟨hc, st, hst, e⟩
  · exact .inl (e.trans hp)
  · cases hpc : t.pc with
    | challenge a z p =>
        obtain ⟨id', hz, -, hproc, hkeep, -⟩ := h.challenge_commit hk hpc hc
        by_cases hid : id = id'
        · exact .inr ⟨a, z, p, rfl, hid ▸ hz, hproc⟩
        · exact .inl ((hkeep id (.inl hid)).trans hp)
    | runChallenge z id' p =>
        rw [hpc] at hst hs hk
        obtain ⟨rfl, -⟩ := hst
        exact absurd ((hI.pending hk.1).mp hp) hs.not_pending
    | processFinalize id' domain csrDer p =>
        rw [hpc] at hst hs
        obtain ⟨rfl, -⟩ := hst
        exact absurd hp hs.not_pending
    | newOrder a p =>
        rw [hpc, hp] at hst
        cases hst.1
    | finalize a id' p =>
        rw [hpc, hp] at hst
        cases hst.2.1
    | reset p =>
        rw [hpc, hp] at hst
        cases hst.1
    | _ =>
        rw [hpc] at hst
        exact hst.elim

/-- **Who turns a pending authorization**: the acknowledgment of its challenge, with its order. -/
theorem Turn.authz_leaves_pending (h : Turn o cfg c i t seg out)
    (hk : t.pc.Knows i c.shared t.tx) (hs : t.pc.Started c.shared.db) {z id : String}
    (hz : c.shared.db.AuthzOf z id) (hp : c.shared.db.authzStatus z = some .pending) :
    out.shared.db.authzStatus z = some .pending ∨
      out.shared.db.orderStatus id ≠ some .pending := by
  rcases h.authzStatus z with e | ⟨hc, st, hst, e⟩
  · exact .inl (e.trans hp)
  · cases hpc : t.pc with
    | challenge a z' p =>
        rw [hpc] at hst
        obtain ⟨rfl, -⟩ := hst
        obtain ⟨id', hz', -, -, hkeep, hturn⟩ := h.challenge_commit hk hpc hc
        obtain rfl := hz.unique hz'
        right
        by_cases hpend : c.shared.db.orderStatus id = some .pending
        · rw [hturn hpend]
          exact nofun
        · rw [hkeep id (.inr hpend)]
          exact hpend
    | runChallenge z' id' p =>
        rw [hpc] at hst hs
        obtain ⟨rfl, -⟩ := hst
        exact absurd hp hs.not_pending
    | newOrder a p =>
        rw [hpc, hp] at hst
        cases hst.1
    | reset p =>
        rw [hpc, hp] at hst
        cases hst.1
    | _ =>
        rw [hpc] at hst
        exact hst.elim

theorem Turn.inStep (h : Turn o cfg c i t seg out) (hk : t.pc.Knows i c.shared t.tx)
    (hl : c.shared.db.Linked) (hs : t.pc.Started c.shared.db) (hI : c.shared.db.InStep) :
    out.shared.db.InStep where
  has {id r'} hr' := by
    rcases h.places hk with ⟨k, row, z, v, r, -, ho, -, -, -, -, e⟩ | ⟨-, hkeep⟩
    · obtain ⟨db₁, h₁, e⟩ := Option.bind_eq_some_iff.mp e
      obtain ⟨db₂, h₂, e⟩ := Option.bind_eq_some_iff.mp e
      rw [← Option.some.inj e] at hr' ⊢
      obtain ⟨tab, ht, rfl⟩ := Option.map_eq_some_iff.mp h₁
      obtain ⟨tab', ht', rfl⟩ := Option.map_eq_some_iff.mp h₂
      rcases get_of_get_insert? ht hr' with hr | ⟨rfl, -⟩
      · obtain ⟨w, q, hq, hw⟩ := hI.has hr
        exact ⟨w, q, get_insert?_of_get ht' hq, hw⟩
      · refine ⟨z, r, ?_, ho⟩
        show tab'.get z = some r
        rw [Table.get_insert? ht', if_pos rfl]
    · obtain ⟨r, hr, -⟩ := hkeep hr'
      obtain ⟨z, hz⟩ := hI.has hr
      exact ⟨z, hz.grows h.grows⟩
  pending {z id} hz := by
    rcases h.placed hk hz with hold | ⟨hza, hoa⟩
    · obtain ⟨r, hr, rfl⟩ := hold
      obtain ⟨order, horder, -⟩ := hl.order hr
      have hz : c.shared.db.AuthzOf z r.orderId := ⟨r, hr, rfl⟩
      constructor
      · intro hp
        -- nothing turns a row back
        have hp₀ : c.shared.db.orderStatus r.orderId = some .pending := by
          by_contra hne
          exact (h.orderPast ⟨order.status, by rw [Db.orderStatus, horder]; rfl,
            fun e => hne (by rw [Db.orderStatus, horder, Option.map_some, e])⟩).not_pending hp
        rcases h.authz_leaves_pending hk hs hz ((hI.pending hz).mp hp₀) with hz' | hne
        · exact hz'
        · exact absurd hp hne
      · intro hp
        have hp₀ : c.shared.db.authzStatus z = some .pending := by
          by_contra hne
          exact (h.authzPast ⟨r.status, by rw [Db.authzStatus, hr]; rfl,
            fun e => hne (by rw [Db.authzStatus, hr, Option.map_some, e])⟩).not_pending hp
        rcases h.leaves_pending hk hs hI ((hI.pending hz).mpr hp₀) with ho | ⟨a, z', p, -, hz', e⟩
        · exact ho
        · obtain ⟨r', hr', ho⟩ := hz'
          rw [hl.unique hr' hr ho, hp] at e
          cases e
    · rw [hza, hoa]
      exact ⟨fun _ => rfl, fun _ => rfl⟩

def recoverySafety (o : Oracle) (cfg : Settings) (P : Relay → Relay → Prop) : Safety o cfg P where
  Inv _ s := s.db.InStep
  Ok _ s t := t.pc.Started s.db
  start := ⟨fun h => (by cases h), fun ⟨_, h, _⟩ => by cases h⟩
  run hr h _ hI hs := by
    have hk := knows hr h.task
    exact ⟨h.inStep hk (linked hr) hs hI, fun _ hu => h.started hu hs,
      fun _ hb => h.started_child hk hs hb⟩
  others _ h _ _ _ _ _ hs := h.started_other hs
  request {c t} _ _ _ hpc := by
    rcases hpc with ⟨req, e⟩ | ⟨p, e⟩ | ⟨cutoff, e⟩ <;> rw [e] <;> trivial
  fresh hI := hI
  clock _ hI := ⟨hI, fun _ _ h => h⟩
  restart hI := ⟨hI, trivial⟩

/-- **An order and its authorization leave `pending` together.** -/
theorem in_step {P : Relay → Relay → Prop} (h : Reach (relay o cfg) P .init c) :
    c.shared.db.InStep :=
  ((recoverySafety o cfg P).reach h).1

theorem started {P : Relay → Relay → Prop} (h : Reach (relay o cfg) P .init c)
    (ht : c.tasks i = some t) : t.pc.Started c.shared.db :=
  ((recoverySafety o cfg P).reach h).2 i t ht

end

/-! ### The reset -/

/-- The database `_reset_processing_orders` leaves. -/
def Db.reset (db : Db) : Db :=
  { db with
    orders := db.orders.updateWhere (fun _ r => decide (r.status = .processing))
      fun r => { r with status := .invalid, error := some interruptedOrderError }
    authorizations := db.authorizations.updateWhere (fun _ r => decide (r.status = .processing))
      fun r => { r with status := .invalid } }

theorem reset_exec (db : Db) : Dml.execAll [.resetOrders, .resetAuthzs] db = some db.reset := rfl

/-- A restart, with the three segments of the reset. -/
def startup (n : Nat) : List (Action Input) :=
  [.restart .restart, .run n (.choose {}), .run n (.choose {}), .run n (.choose {})]

section

variable {o : Oracle} {cfg : Settings} {c : Relay} {n : Nat} {tx : List Dml}

/-- A statement of the reset, sent while nobody else writes. -/
theorem reset_sends (o : Oracle) (cfg : Settings) {p q : ResetPc} {d : Dml} (ht : c.tasks n = some ⟨.reset p, tx⟩)
    (hn : n < c.next) (hseg : resetSeg p = { write := [d], next := .goto q })
    (hlock : c.shared.lock = none ∨ c.shared.lock = some n) :
    ∃ c', (relay o cfg).step c (.run n (.choose {})) = some c' ∧
      c'.tasks n = some ⟨.reset q, tx ++ [d]⟩ ∧ n < c'.next ∧ c'.shared.lock = some n ∧
      c'.shared.db = c.shared.db := by
  have hmay : c.shared.mayWrite n [d] = true := by
    rcases hlock with e | e <;> simp [Shared.mayWrite, e]
  let out : Outcome Shared Task := ⟨⟨c.shared.db, c.shared.now, some n, c.shared.up,
    ⟨n, .reset p, (resetSeg p).map .reset, c.shared.db, c.shared.db, c.shared.now, c.next⟩ ::
      c.shared.log⟩, some ⟨.reset q, tx ++ [d]⟩, none⟩
  have hrun : (relay o cfg).run n c.next c.shared ⟨.reset p, tx⟩ (.choose {}) = some out := by
    simp [relay, Pc.seg, hseg, perform, Seg.map, Next.map, hmay, Seg.self, Seg.up, out]
  refine ⟨c.after n out, ?_, ?_, Nat.lt_succ_of_lt hn, rfl, rfl⟩
  · simp only [Machine.step, ht, Option.bind_some, hrun, Option.map_some]
  · simp [Config.after, Function.update_of_ne hn.ne, out]

/-- The commit of the reset. -/
theorem reset_commits (o : Oracle) (cfg : Settings) (ht : c.tasks n = some ⟨.reset .commit, tx⟩) {db : Db}
    (hdb : Dml.execAll tx c.shared.db = some db) :
    ∃ c', (relay o cfg).step c (.run n (.choose {})) = some c' ∧ c'.shared.db = db ∧
      c'.shared.up = true := by
  let out : Outcome Shared Task := ⟨⟨db, c.shared.now, c.shared.release n, true,
    ⟨n, .reset .commit, (resetSeg .commit).map .reset, c.shared.db, db, c.shared.now, c.next⟩ ::
      c.shared.log⟩, none, none⟩
  have hrun : (relay o cfg).run n c.next c.shared ⟨.reset .commit, tx⟩ (.choose {}) = some out := by
    simp [relay, Pc.seg, resetSeg, perform, Seg.map, Next.map, Shared.mayWrite, Seg.self, Seg.up,
      hdb, out]
  refine ⟨c.after n out, ?_, rfl, rfl⟩
  simp only [Machine.step, ht, Option.bind_some, hrun, Option.map_some]

/-- **The startup runs through**, from any configuration. -/
theorem startup_schedule (o : Oracle) (cfg : Settings) (c : Relay) :
    ∃ c', (relay o cfg).schedule (fun _ _ => true) c (startup c.next) = some c' ∧
      c'.shared.db = c.shared.db.reset ∧ c'.shared.up = true := by
  let c₁ : Relay := ⟨{ c.shared with lock := none, up := false },
    Function.update (fun _ => none) c.next (some ⟨.reset .orders, []⟩), c.next + 1⟩
  have h₁ : (relay o cfg).step c (.restart .restart) = some c₁ := rfl
  have ht₁ : c₁.tasks c.next = some ⟨.reset .orders, []⟩ := by simp [c₁]
  obtain ⟨c₂, h₂, ht₂, hn₂, hl₂, hdb₂⟩ :=
    reset_sends o cfg ht₁ (Nat.lt_succ_self _) (q := .authzs) rfl (.inl rfl)
  obtain ⟨c₃, h₃, ht₃, -, -, hdb₃⟩ :=
    reset_sends o cfg ht₂ hn₂ (q := .commit) rfl (.inr hl₂)
  obtain ⟨c₄, h₄, hdb₄, hup⟩ := reset_commits o cfg ht₃
    (by rw [hdb₃, hdb₂]; exact reset_exec c.shared.db)
  refine ⟨c₄, ?_, hdb₄, hup⟩
  simp [startup, Machine.schedule, h₁, h₂, h₃, h₄]

/-- What a startup makes of the database `db`: nothing is processing, what was not is unchanged,
an order is pending exactly when its authorizations are, and their challenges can be acknowledged by
the owner; once more, and nothing changes. -/
structure Recovered (cfg : Settings) (db db' : Db) : Prop where
  orders : ∀ id, db'.orderStatus id ≠ some .processing
  authzs : ∀ z, db'.authzStatus z ≠ some .processing
  keepsOrders : ∀ id r, db.orders.get id = some r → r.status ≠ .processing →
    db'.orders.get id = some r
  keepsAuthzs : ∀ z r, db.authorizations.get z = some r → r.status ≠ .processing →
    db'.authorizations.get z = some r
  keepsRest : db'.accounts = db.accounts ∧ db'.certificates = db.certificates ∧
    db'.nonces = db.nonces
  pending : ∀ id r, db'.orders.get id = some r → (r.status = .pending ↔
    ∀ z a, db'.authorizations.get z = some a → a.orderId = id → a.status = .pending)
  acknowledge : ∀ id r z a, db'.orders.get id = some r → r.status = .pending →
    db'.authorizations.get z = some a → a.orderId = id →
    challengeSeg cfg r.accountId z db' .get = .goto (.owner a) ∧
      challengeSeg cfg r.accountId z db' (.owner a) = .goto (.flush a)
  again : Dml.execAll [.resetOrders, .resetAuthzs] db' = some db'

theorem Db.reset_orders {db : Db} {id : String} :
    db.reset.orderStatus id ≠ some .processing := by
  intro h
  obtain ⟨r, hr, hst⟩ := Db.orderStatus_eq_some.mp h
  simp only [Db.reset] at hr
  have hp := Table.not_of_get_updateWhere hr fun _ => rfl
  exact of_decide_eq_false hp hst

theorem Db.reset_authzs {db : Db} {z : String} :
    db.reset.authzStatus z ≠ some .processing := by
  intro h
  obtain ⟨r, hr, hst⟩ := Db.authzStatus_eq_some.mp h
  simp only [Db.reset] at hr
  have hp := Table.not_of_get_updateWhere hr fun _ => rfl
  exact of_decide_eq_false hp hst

/-- The reset of a database without anything processing. -/
theorem Db.reset_eq_self {db : Db} (ho : ∀ id, db.orderStatus id ≠ some .processing)
    (ha : ∀ z, db.authzStatus z ≠ some .processing) : db.reset = db := by
  unfold Db.reset
  rw [Table.updateWhere_eq_self fun id r hr => ?_, Table.updateWhere_eq_self fun z r hr => ?_]
  · exact decide_eq_false fun hst => ha z (Db.authzStatus_eq_some.mpr ⟨r, hr, hst⟩)
  · exact decide_eq_false fun hst => ho id (Db.orderStatus_eq_some.mpr ⟨r, hr, hst⟩)

theorem Db.reset_keeps_order {db : Db} {id : String} {r : Order} (hr : db.orders.get id = some r)
    (hst : r.status ≠ .processing) : db.reset.orders.get id = some r := by
  simp [Db.reset, hr, hst]

theorem Db.reset_keeps_authz {db : Db} {z : String} {r : Authorization}
    (hr : db.authorizations.get z = some r) (hst : r.status ≠ .processing) :
    db.reset.authorizations.get z = some r := by
  simp [Db.reset, hr, hst]

/-- A row the reset leaves pending was pending. -/
theorem Db.reset_pending_order {db : Db} {id : String} :
    db.reset.orderStatus id = some .pending ↔ db.orderStatus id = some .pending := by
  simp only [Db.orderStatus, Db.reset, Table.get_updateWhere]
  cases db.orders.get id with
  | none => simp
  | some r => by_cases hst : r.status = .processing <;> simp [hst]

theorem Db.reset_pending_authz {db : Db} {z : String} :
    db.reset.authzStatus z = some .pending ↔ db.authzStatus z = some .pending := by
  simp only [Db.authzStatus, Db.reset, Table.get_updateWhere]
  cases db.authorizations.get z with
  | none => simp
  | some r => by_cases hst : r.status = .processing <;> simp [hst]

theorem Db.reset_grows (db : Db) : db.Grows db.reset := Dml.execAll_grows (reset_exec db)

/-- The reset keeps orders and authorizations in step. -/
theorem Db.InStep.reset {db : Db} (h : db.InStep) : db.reset.InStep where
  has {id r'} hr' := by
    obtain ⟨r, hr, -⟩ := get_of_get_updateWhere Order.fixed hr'
    obtain ⟨z, hz⟩ := h.has hr
    exact ⟨z, hz.grows db.reset_grows⟩
  pending {z id} hz := by
    obtain ⟨r', hr', ho⟩ := hz
    obtain ⟨r, hr, hf⟩ := get_of_get_updateWhere Authorization.fixed hr'
    rw [Db.reset_pending_order, Db.reset_pending_authz]
    exact h.pending ⟨r, hr, (Authorization.fixed_eq hf).1.symm.trans ho⟩

/-- An order is pending exactly when its authorizations are. -/
theorem Db.InStep.pending_iff {db : Db} (h : db.InStep) {id : String} {r : Order}
    (hr : db.orders.get id = some r) : r.status = .pending ↔
      ∀ z a, db.authorizations.get z = some a → a.orderId = id → a.status = .pending := by
  have hst : db.orderStatus id = some .pending ↔ r.status = .pending := by
    rw [Db.orderStatus, hr, Option.map_some, Option.some.injEq]
  rw [← hst]
  constructor
  · intro hp z a ha ho
    have hz := (h.pending ⟨a, ha, ho⟩).mp hp
    rw [Db.authzStatus, ha] at hz
    exact Option.some.inj hz
  · intro hall
    obtain ⟨z, a, ha, ho⟩ := h.has hr
    exact (h.pending ⟨a, ha, ho⟩).mpr (Db.authzStatus_eq_some.mpr ⟨a, ha, hall z a ha ho⟩)

/-- The checks of `acknowledge_challenge`, for the owner of a pending authorization. -/
theorem challengeSeg_pending {db : Db} {z : String} {a : Authorization} {r : Order}
    (ha : db.authorizations.get z = some a) (hr : db.orders.get a.orderId = some r)
    (hst : a.status = .pending) :
    challengeSeg cfg r.accountId z db .get = .goto (.owner a) ∧
      challengeSeg cfg r.accountId z db (.owner a) = .goto (.flush a) := by
  constructor
  · simp [challengeSeg, ha, orElse, Seg.attempt]
  · simp [challengeSeg, hr, requireParentOwner, Seg.attempt, hst]

/-- **Recovery strands nothing.**  Whatever state a crash left, the startup runs through, and the
relay serves from a database that has recovered. -/
theorem reset_recovers (h : Reachable o cfg c) :
    ∃ c', (relay o cfg).schedule (fun _ _ => true) c (startup c.next) = some c' ∧
      c'.shared.up = true ∧ Recovered cfg c.shared.db c'.shared.db := by
  obtain ⟨c', hc', hdb, hup⟩ := startup_schedule o cfg c
  have hstep : c.shared.db.reset.InStep := (in_step h).reset
  refine ⟨c', hc', hup, ?_⟩
  rw [hdb]
  refine ⟨fun _ => Db.reset_orders, fun _ => Db.reset_authzs, fun _ _ => Db.reset_keeps_order,
    fun _ _ => Db.reset_keeps_authz, ⟨rfl, rfl, rfl⟩, fun _ _ => hstep.pending_iff, ?_, ?_⟩
  · rintro id r z a hr hst ha rfl
    exact challengeSeg_pending ha hr ((hstep.pending_iff hr).mp hst z a ha rfl)
  · rw [reset_exec, Db.reset_eq_self (fun _ => Db.reset_orders) fun _ => Db.reset_authzs]

end

/-- A crash that leaves an order processing. -/
theorem reset_recovers_run :
    ∃ c, Demo.run (fun _ _ => true) Demo.finalizedOrder = some c ∧
      c.shared.db.orderStatus (Demo.uuid 3) = some .processing ∧
      ∃ c', (relay Demo.oracle Demo.settings).schedule (fun _ _ => true) c (startup c.next) =
        some c' ∧ c'.shared.up = true ∧ Recovered Demo.settings c.shared.db c'.shared.db := by
  obtain ⟨c, hc, hprocessing, -⟩ := Demo.finalizedOrder_run
  exact ⟨c, hc, Db.orderStatus_eq_some.mpr hprocessing,
    reset_recovers (Demo.reach (fun _ _ => trivial) hc)⟩

end Jackdaw
