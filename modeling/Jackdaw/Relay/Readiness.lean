import Jackdaw.Relay.Steps

/-!
# Relay — the last validation of an order

An order with several authorizations, all of them processing, and one `run_challenge` task for
each.  A task writes the status of its own authorization and then asks for the statuses of all of
them, in one transaction: the write takes the lock, so the tasks that are not counted yet are the
ones that will count this one.

* `RowsAt`: the rows of the order, as a function of the set of tasks that have committed.  This is
  all there is to say about the database in such a run (`Validating`).
* `ready_at_last_validation`: an order that is not ready at the start is ready exactly when every
  authorization is valid, and both are the case when every task has committed.  One that is ready
  already stays so from the start (`ready_from_the_start`).
-/

namespace Jackdaw

open Support Support.Interleave

/-! ### One task for each authorization -/

/-- The order `id` has the authorizations `zs`, which are all processing; nothing stands in the way
of their validation. -/
structure InProcess (o : Oracle) (db : Db) (id : String) (order : Order) (zs : List String) :
    Prop where
  stored : db.orders.get id = some order
  nonempty : zs ≠ []
  nodup : zs.Nodup
  authzs : ∀ z, z ∈ zs ↔ ∃ row, db.authorizations.get z = some row ∧ row.orderId = id
  processing : ∀ z row, db.authorizations.get z = some row → row.orderId = id →
    row.status = .processing
  token : ∀ z row, db.authorizations.get z = some row → row.orderId = id →
    row.challengeToken.isSome = true
  account : ∃ account, db.accounts.get order.accountId = some account ∧
    (storedKey o account.publicKey).isSome = true

/-- The order `id` waits for the authorizations `zs`. -/
structure Awaiting (o : Oracle) (db : Db) (id : String) (order : Order) (zs : List String) : Prop
    extends InProcess o db id order zs where
  notReady : order.status ≠ .ready

/-- A `run_challenge` task for each authorization, before its first statement. -/
def validatingAll (db : Db) (now : Int) (id : String) (zs : List String) : Relay :=
  ⟨⟨db, now, none, true, []⟩, fun i => zs[i]?.map fun z => ⟨.runChallenge z id .getAuthz, []⟩,
    zs.length⟩

/-- A task runs its next segment; a validation it waits for succeeds. -/
def Validates (o : Oracle) (cfg : Settings) (c c' : Relay) : Prop :=
  ∃ i ch, ch.validated = none ∧ (relay o cfg).step c (.run i (.choose ch)) = some c'

/-- Every authorization of the order is valid. -/
def Db.AllValid (db : Db) (id : String) : Prop :=
  ∀ z row, db.authorizations.get z = some row → row.orderId = id → row.status = .valid

/-- Task `i` has committed. -/
def Relay.Committed (c : Relay) (i : Nat) : Prop :=
  ∃ e ∈ c.shared.log, e.tid = i ∧ e.seg.commit = true

/-! ### The rows -/

/-- The rows of the order when the tasks of `D` have committed. -/
structure RowsAt (db : Db) (id : String) (order : Order) (zs : List String) (D : String → Prop)
    (db' : Db) : Prop where
  accounts : db'.accounts = db.accounts
  done : ∀ {z row}, db.authorizations.get z = some row → D z →
    db'.authorizations.get z = some { row with status := .valid }
  waiting : ∀ {z row}, db.authorizations.get z = some row → ¬ D z →
    db'.authorizations.get z = some row
  absent : ∀ {z}, db.authorizations.get z = none → db'.authorizations.get z = none
  ready : (∀ z ∈ zs, D z) → db'.orders.get id = some { order with status := .ready }
  notReady : ¬ (∀ z ∈ zs, D z) → db'.orders.get id = some order

section Rows

variable {o : Oracle} {db db' : Db} {id : String} {order : Order} {zs : List String}
  {D : String → Prop}

theorem RowsAt.allValid_iff (h : RowsAt db id order zs D db') (ha : Awaiting o db id order zs) :
    db'.AllValid id ↔ ∀ z ∈ zs, D z := by
  constructor
  · intro hall z hz
    obtain ⟨row, hrow, hid⟩ := (ha.authzs z).mp hz
    by_contra hD
    have := hall z row (h.waiting hrow hD) hid
    rw [ha.processing z row hrow hid] at this
    cases this
  · intro hall z row' hrow' hid
    cases hrow : db.authorizations.get z with
    | none =>
        rw [h.absent hrow] at hrow'
        cases hrow'
    | some row =>
        by_cases hD : D z
        · rw [h.done hrow hD] at hrow'
          cases hrow'
          rfl
        · rw [h.waiting hrow hD] at hrow'
          cases hrow'
          exact absurd (hall z ((ha.authzs z).mpr ⟨_, hrow, hid⟩)) hD

theorem RowsAt.ready_iff (h : RowsAt db id order zs D db') (ha : Awaiting o db id order zs) :
    db'.orderStatus id = some .ready ↔ ∀ z ∈ zs, D z := by
  rw [Db.orderStatus_eq_some]
  constructor
  · rintro ⟨r, hr, hst⟩
    by_contra hD
    rw [h.notReady hD] at hr
    cases hr
    exact ha.notReady hst
  · intro hD
    exact ⟨_, h.ready hD, rfl⟩

/-- The `UPDATE` of an authorization that is processing is sent. -/
theorem Authorization.flush_valid {row : Authorization} (h : row.status = .processing)
    (z : String) : row.flush z { row with status := .valid } =
      [.updateAuthz z { status := some .valid }] := by
  simp [Authorization.flush, changed, h]

/-- Behind the `UPDATE` of authorization `z` by its own task, `seen` has it valid. -/
structure Flushed (db' : Db) (z : String) (row : Authorization) (seen : Db) : Prop where
  authzs : ∀ k, seen.authorizations.get k =
    if k = z then some { row with status := .valid } else db'.authorizations.get k
  orders : seen.orders = db'.orders
  accounts : seen.accounts = db'.accounts

theorem RowsAt.flushed (h : RowsAt db id order zs D db') {z : String} {row : Authorization}
    (hrow : db.authorizations.get z = some row) (hD : ¬ D z) {seen : Db}
    (hexec : Dml.execAll (row.flush z { row with status := .valid }) db' = some seen) :
    Flushed db' z row seen := by
  obtain ⟨hauthzs, horders, -, haccounts⟩ :=
    Authorization.exec_flush (h.waiting hrow hD) (by rfl) hexec
  exact ⟨hauthzs, horders, haccounts⟩

/-- The authorizations behind the `UPDATE`: those of the tasks that have committed are valid, and
`z` is. -/
theorem Flushed.rows (h : RowsAt db id order zs D db') {z : String} {row : Authorization}
    {seen : Db} (hseen : Flushed db' z row seen) (hrow : db.authorizations.get z = some row) :
    (∀ {k r}, db.authorizations.get k = some r → D k ∨ k = z →
      seen.authorizations.get k = some { r with status := .valid }) ∧
    (∀ {k r}, db.authorizations.get k = some r → ¬ (D k ∨ k = z) →
      seen.authorizations.get k = some r) ∧
    ∀ {k}, db.authorizations.get k = none → seen.authorizations.get k = none := by
  refine ⟨fun {k r} hr hor => ?_, fun {k r} hr hnor => ?_, fun {k} hnone => ?_⟩
  · rw [hseen.authzs]
    by_cases hk : k = z
    · subst hk
      rw [hrow] at hr
      cases hr
      rw [if_pos rfl]
    · rw [if_neg hk]
      exact h.done hr (hor.resolve_right hk)
  · obtain ⟨hD, hk⟩ := not_or.mp hnor
    rw [hseen.authzs, if_neg hk]
    exact h.waiting hr hD
  · have hk : k ≠ z := by
      rintro rfl
      rw [hrow] at hnone
      cases hnone
    rw [hseen.authzs, if_neg hk]
    exact h.absent hnone

/-- Every task but that of `z` has committed. -/
def Last (zs : List String) (D : String → Prop) (z : String) : Prop := ∀ k ∈ zs, k ≠ z → D k

theorem last_iff {z : String} : Last zs D z ↔ ∀ k ∈ zs, D k ∨ k = z :=
  forall₂_congr fun _ _ => or_iff_not_imp_right.symm

/-- **What the query for the statuses says** behind the `UPDATE` of `z`: whether every other task
has committed. -/
theorem Flushed.select_all_iff (h : RowsAt db id order zs D db') (ha : Awaiting o db id order zs)
    {z : String} {row : Authorization} {seen : Db} (hseen : Flushed db' z row seen)
    (hrow : db.authorizations.get z = some row) :
    ((seen.authorizations.select fun _ a => decide (a.orderId = id)).all
      fun a => decide (a.2.status = .valid)) = true ↔ Last zs D z := by
  obtain ⟨hdone, hwait, habsent⟩ := hseen.rows h hrow
  rw [List.all_eq_true]
  constructor
  · intro hall k hk hne
    obtain ⟨r, hr, hid⟩ := (ha.authzs k).mp hk
    by_contra hD
    have hget := hwait hr (not_or.mpr ⟨hD, hne⟩)
    have := hall (k, r) (Table.mem_select.mpr ⟨hget, decide_eq_true hid⟩)
    rw [decide_eq_true_eq, ha.processing k r hr hid] at this
    cases this
  · rintro hlast ⟨k, r'⟩ hmem
    obtain ⟨hget, hid⟩ := Table.mem_select.mp hmem
    have hid := of_decide_eq_true hid
    cases hr : db.authorizations.get k with
    | none =>
        rw [habsent hr] at hget
        cases hget
    | some r =>
        by_cases hor : D k ∨ k = z
        · rw [hdone hr hor] at hget
          cases hget
          rfl
        · rw [hwait hr hor] at hget
          cases hget
          exact absurd (last_iff.mp hlast k ((ha.authzs k).mpr ⟨_, hr, hid⟩)) hor

/-- **The commit of the task of `z`**, the last one or not. -/
theorem RowsAt.commit (h : RowsAt db id order zs D db') (ha : Awaiting o db id order zs)
    {z : String} {row : Authorization} (hrow : db.authorizations.get z = some row)
    (hid : row.orderId = id) (hD : ¬ D z) {flush : List Dml}
    (hflush : Last zs D z ∧ flush = order.flush id { order with status := .ready } ∨
      ¬ Last zs D z ∧ flush = []) {db'' : Db}
    (hexec : Dml.execAll (row.flush z { row with status := .valid } ++ flush) db' = some db'') :
    RowsAt db id order zs (fun k => D k ∨ k = z) db'' := by
  have hz : z ∈ zs := (ha.authzs z).mpr ⟨row, hrow, hid⟩
  rw [Dml.execAll_append] at hexec
  obtain ⟨seen, hseen, hexec⟩ := Option.bind_eq_some_iff.mp hexec
  have hseen := h.flushed hrow hD hseen
  obtain ⟨hdone, hwait, habsent⟩ := hseen.rows h hrow
  have horder : seen.orders.get id = some order := by
    rw [hseen.orders]
    exact h.notReady fun hall => hD (hall z hz)
  rcases hflush with ⟨hlast, rfl⟩ | ⟨hlast, rfl⟩
  · obtain ⟨horders, hauthzs, -, haccounts⟩ := Order.exec_flush horder (by rfl) hexec
    refine ⟨haccounts.trans (hseen.accounts.trans h.accounts), ?_, ?_, ?_, fun _ => ?_,
      fun hn => absurd (last_iff.mp hlast) hn⟩
    · rwa [hauthzs]
    · rwa [hauthzs]
    · rwa [hauthzs]
    · rw [horders, if_pos rfl]
  · cases Option.some.inj hexec
    exact ⟨hseen.accounts.trans h.accounts, hdone, hwait, habsent,
      fun hn => absurd (last_iff.mpr hn) hlast, fun _ => horder⟩

end Rows

/-! ### The tasks -/

/-- The task of `z` has ended. -/
def Through (zs : List String) (c : Relay) (z : String) : Prop :=
  ∃ i : Nat, zs[i]? = some z ∧ c.tasks i = none

/-- What the task of `z` holds where it is suspended: the rows it has loaded are the first ones, and
behind its `UPDATE` it holds the lock and knows whether it is the last. -/
def RunChallengePc.Stage (id : String) (order : Order) (z : String) (row : Authorization)
    (held last : Prop) (tx : List Dml) : RunChallengePc → Prop
  | .getAuthz => tx = []
  | .getOrder authz => tx = [] ∧ authz = some row
  | .getAccount authz r => tx = [] ∧ authz = row ∧ r = order
  | .validate _ _ _ => tx = []
  | .regetAuthz problem => tx = [] ∧ problem = none
  | .regetOrder problem authz => tx = [] ∧ problem = none ∧ authz = some row
  | .statuses authz r => tx = [] ∧ authz = row ∧ r = order
  | .commit flush => tx = row.flush z { row with status := .valid } ∧ held ∧
      (last ∧ flush = order.flush id { order with status := .ready } ∨ ¬ last ∧ flush = [])

/-- The tasks of the order, and nothing else, are under way. -/
structure Validating (db : Db) (id : String) (order : Order) (zs : List String) (c : Relay) :
    Prop where
  numbers : zs.length ≤ c.next
  task : ∀ {i t}, c.tasks i = some t → ∃ z row p, zs[i]? = some z ∧
    db.authorizations.get z = some row ∧ row.orderId = id ∧ t.pc = .runChallenge z id p ∧
    p.Stage id order z row (c.shared.lock = some i) (Last zs (Through zs c) z) t.tx
  lock : ∀ {i}, c.shared.lock = some i → ∃ t, c.tasks i = some t ∧ t.tx ≠ []
  rows : RowsAt db id order zs (Through zs c) c.shared.db
  log : ∀ e ∈ c.shared.log, e.seg.commit = true → c.tasks e.tid = none

section Tasks

variable {o : Oracle} {cfg : Settings} {db : Db} {id : String} {order : Order} {zs : List String}
  {c c' : Relay} {i : Nat} {t : Task} {z : String} {row : Authorization}
  {out : Outcome Shared Task} {seg : Seg Pc}

theorem Validating.lt (h : Validating db id order zs c) (ht : c.tasks i = some t) :
    i < zs.length := by
  obtain ⟨z, row, p, hz, -⟩ := h.task ht
  exact (List.getElem?_eq_some_iff.mp hz).1

theorem Validating.free (h : Validating db id order zs c) : c.tasks c.next = none := by
  cases ht : c.tasks c.next with
  | none => rfl
  | some t => exact absurd (h.lt ht) (Nat.not_lt.mpr h.numbers)

theorem Validating.not_through (h : Validating db id order zs c) (hnodup : zs.Nodup)
    (ht : c.tasks i = some t) (hz : zs[i]? = some z) : ¬ Through zs c z := by
  rintro ⟨j, hj, hnone⟩
  have hij : i = j := (List.getElem?_inj (h.lt ht) hnodup).mp (hz.trans hj.symm)
  rw [← hij, ht] at hnone
  cases hnone

/-- The tasks after a turn of task `i`, which creates none. -/
theorem Validating.after_tasks (h : Validating db id order zs c) (ht : c.tasks i = some t)
    (hchild : out.child = none) (j : Nat) :
    (c.after i out).tasks j = if j = i then out.self else c.tasks j := by
  have hi : i ≠ c.next := (Nat.lt_of_lt_of_le (h.lt ht) h.numbers).ne
  simp only [Config.after, hchild, Function.update_apply]
  by_cases hj : j = c.next
  · rw [if_pos hj, if_neg (hj ▸ hi.symm), hj, h.free]
  · rw [if_neg hj]

/-- A task that goes on has not ended. -/
theorem Validating.through_goes_on (h : Validating db id order zs c) (ht : c.tasks i = some t)
    (hchild : out.child = none) {u : Task} (hu : out.self = some u) :
    Through zs (c.after i out) = Through zs c := by
  funext k
  refine propext (exists_congr fun j => and_congr_right fun _ => ?_)
  rw [h.after_tasks ht hchild]
  by_cases hj : j = i
  · rw [if_pos hj, hu, hj, ht]
    simp
  · rw [if_neg hj]

/-- A task that ends has. -/
theorem Validating.through_ends (h : Validating db id order zs c) (ht : c.tasks i = some t)
    (hchild : out.child = none) (hz : zs[i]? = some z) (hu : out.self = none) :
    Through zs (c.after i out) = fun k => Through zs c k ∨ k = z := by
  funext k
  refine propext ⟨?_, ?_⟩
  · rintro ⟨j, hj, hnone⟩
    rw [h.after_tasks ht hchild] at hnone
    by_cases hji : j = i
    · rw [hji, hz] at hj
      exact .inr (Option.some.inj hj).symm
    · rw [if_neg hji] at hnone
      exact .inl ⟨j, hj, hnone⟩
  · rintro (⟨j, hj, hnone⟩ | rfl)
    · have hji : j ≠ i := by
        rintro rfl
        rw [ht] at hnone
        cases hnone
      exact ⟨j, hj, by rw [h.after_tasks ht hchild, if_neg hji, hnone]⟩
    · exact ⟨i, hz, by rw [h.after_tasks ht hchild, if_pos rfl, hu]⟩

theorem Validating.log_after (h : Validating db id order zs c) (ht : c.tasks i = some t)
    (hchild : out.child = none) (hp : Performs i c.next c.shared t seg out)
    (hend : seg.commit = true → out.self = none) :
    ∀ e ∈ (c.after i out).shared.log, e.seg.commit = true →
      (c.after i out).tasks e.tid = none := by
  intro e he hc
  have he : e ∈ out.shared.log := he
  rw [hp.log] at he
  rw [h.after_tasks ht hchild]
  rcases List.mem_cons.mp he with rfl | he
  · rw [if_pos rfl, hend hc]
  · have hnone := h.log e he hc
    rw [if_neg, hnone]
    intro hi
    rw [hi, ht] at hnone
    cases hnone

/-! ### One step -/

/-- A segment that only reads. -/
theorem Validating.moves (h : Validating db id order zs c) (ht : c.tasks i = some t)
    (htx : t.tx = []) (hz : zs[i]? = some z) (hrow : db.authorizations.get z = some row)
    (hid : row.orderId = id) {q : RunChallengePc}
    (hq : ∀ held last, q.Stage id order z row held last [])
    (hp : Performs i c.next c.shared t (.goto (.runChallenge z id q)) out) :
    Validating db id order zs (c.after i out) := by
  have hdb : out.shared.db = c.shared.db := by
    rcases hp.db with ⟨hc, -⟩ | ⟨-, e⟩
    · cases hc
    · exact e
  have hchild : out.child = none := by
    rw [hp.child]
    rfl
  have hself : out.self = some ⟨.runChallenge z id q, []⟩ := by
    obtain ⟨tx, hs⟩ := hp.goes rfl
    have htx' : tx = t.tx ++ [] := (hp.self hs).2
    rw [hs, htx', htx]
    rfl
  have hlock : out.shared.lock = c.shared.lock := by
    rcases hp.lock with ⟨-, hw⟩ | ⟨e, -⟩ | ⟨e, -⟩
    · exact absurd rfl hw
    · exact e
    · rw [e, Shared.release, if_neg]
      intro hl
      obtain ⟨t', ht', hne⟩ := h.lock hl
      rw [ht] at ht'
      cases ht'
      exact hne htx
  have hthrough := h.through_goes_on ht hchild hself
  refine ⟨Nat.le_succ_of_le h.numbers, fun {j u} hu => ?_, fun {j} hl => ?_, ?_, fun e he hc => ?_⟩
  · rw [hthrough]
    rw [h.after_tasks ht hchild] at hu
    by_cases hj : j = i
    · rw [if_pos hj, hself] at hu
      cases hu
      exact ⟨z, row, q, hj ▸ hz, hrow, hid, rfl, hq _ _⟩
    · rw [if_neg hj] at hu
      have hold := h.task hu
      rwa [← hlock] at hold
  · have hl : out.shared.lock = some j := hl
    rw [hlock] at hl
    obtain ⟨u, hu, hne⟩ := h.lock hl
    have hj : j ≠ i := by
      rintro rfl
      rw [ht] at hu
      cases hu
      exact hne htx
    exact ⟨u, by rw [h.after_tasks ht hchild, if_neg hj, hu], hne⟩
  · rw [hthrough]
    show RowsAt db id order zs _ out.shared.db
    rw [hdb]
    exact h.rows
  · exact h.log_after ht hchild hp (fun hc => by cases hc) e he hc

/-- The `UPDATE` of the authorization, and the query behind it. -/
theorem Validating.flushes (h : Validating db id order zs c) (ht : c.tasks i = some t)
    (htx : t.tx = []) (hz : zs[i]? = some z) (hrow : db.authorizations.get z = some row)
    (hid : row.orderId = id) (hwrite : seg.write = row.flush z { row with status := .valid })
    (hne : seg.write ≠ []) (hcommit : seg.commit = false) (hspawn : seg.spawn = none)
    {flush : List Dml} (hnext : seg.next = .goto (.runChallenge z id (.commit flush)))
    (hflush : Last zs (Through zs c) z ∧
        flush = order.flush id { order with status := .ready } ∨
      ¬ Last zs (Through zs c) z ∧ flush = [])
    (hp : Performs i c.next c.shared t seg out) : Validating db id order zs (c.after i out) := by
  have hdb : out.shared.db = c.shared.db := by
    rcases hp.db with ⟨hc, -⟩ | ⟨-, e⟩
    · rw [hcommit] at hc
      cases hc
    · exact e
  have hchild : out.child = none := by
    rw [hp.child, hspawn]
    rfl
  have hself : out.self = some ⟨.runChallenge z id (.commit flush), seg.write⟩ := by
    obtain ⟨tx, hs⟩ := hp.goes hnext
    have htx' := (hp.self hs).2
    rw [hcommit, htx] at htx'
    rw [hs]
    exact congrArg (fun tx => some (⟨_, tx⟩ : Task)) htx'
  have hlock : out.shared.lock = some i := by
    rcases hp.lock with ⟨e, -⟩ | ⟨-, hw, -⟩ | ⟨-, hnil⟩
    · exact e
    · exact absurd hw hne
    · exact absurd (hnil hself) hne
  have hthrough := h.through_goes_on ht hchild hself
  refine ⟨Nat.le_succ_of_le h.numbers, fun {j u} hu => ?_, fun {j} hl => ?_, ?_,
    h.log_after ht hchild hp (fun hc => by rw [hcommit] at hc; cases hc)⟩
  · rw [hthrough]
    rw [h.after_tasks ht hchild] at hu
    by_cases hj : j = i
    · rw [if_pos hj, hself] at hu
      cases hu
      subst hj
      exact ⟨z, row, _, hz, hrow, hid, rfl, hwrite, hlock, hflush⟩
    · rw [if_neg hj] at hu
      obtain ⟨z', row', p', hz', hrow', hid', hpc', hst'⟩ := h.task hu
      refine ⟨z', row', p', hz', hrow', hid', hpc', ?_⟩
      cases p' with
      | commit flush' =>
          -- somebody who holds the lock keeps this task from its `UPDATE`
          have := hp.may
          simp [Shared.mayWrite, hst'.2.1, hj, hne] at this
      | _ => exact hst'
  · have hl : out.shared.lock = some j := hl
    rw [hlock] at hl
    cases hl
    exact ⟨_, by rw [h.after_tasks ht hchild, if_pos rfl, hself], hne⟩
  · rw [hthrough]
    show RowsAt db id order zs _ out.shared.db
    rw [hdb]
    exact h.rows

/-- The `UPDATE` of the authorization and the query behind it, as `run_challenge` sends them. -/
theorem Validating.queries (h : Validating db id order zs c) (ha : Awaiting o db id order zs)
    (ht : c.tasks i = some t) (htx : t.tx = []) (hz : zs[i]? = some z)
    (hrow : db.authorizations.get z = some row) (hid : row.orderId = id) {ch : Choice}
    (hout : perform i c.next c.shared t
      ((runChallengeSeg o z id c.shared.db ch (.statuses row order)).map (.runChallenge z id)) =
        some out) : Validating db id order zs (c.after i out) := by
  have hprocessing := ha.processing z row hrow hid
  obtain ⟨seen, hexec⟩ : ∃ seen, Dml.execAll (row.flush z { row with status := .valid })
      c.shared.db = some seen := by
    rw [Authorization.flush_valid hprocessing]
    exact ⟨_, rfl⟩
  have hseen := h.rows.flushed hrow (h.not_through ha.nodup ht hz) hexec
  have hall := hseen.select_all_iff h.rows ha hrow
  refine h.flushes ht htx hz hrow hid rfl ?_ rfl rfl rfl ?_ (performs_of_perform hout)
  · rw [Seg.map_write]
    show row.flush z _ ≠ []
    rw [Authorization.flush_valid hprocessing]
    exact List.cons_ne_nil _ _
  · rw [hexec, Option.getD_some]
    by_cases hlast : Last zs (Through zs c) z
    · exact .inl ⟨hlast, if_pos (hall.mpr hlast)⟩
    · exact .inr ⟨hlast, if_neg fun h => hlast (hall.mp h)⟩

/-- The lock after a commit. -/
theorem perform_commit_lock {n : Nat} {s : Shared} (hc : seg.commit = true)
    (h : perform i n s t seg = some out) : out.shared.lock = s.release i := by
  unfold perform at h
  split at h
  · obtain ⟨db', -, rfl⟩ := Option.map_eq_some_iff.mp h
    rfl
  · cases h

/-- The commit. -/
theorem Validating.commits (h : Validating db id order zs c) (ha : Awaiting o db id order zs)
    (ht : c.tasks i = some t) (hz : zs[i]? = some z) (hrow : db.authorizations.get z = some row)
    (hid : row.orderId = id) {flush : List Dml}
    (hst : (RunChallengePc.commit flush).Stage id order z row (c.shared.lock = some i)
      (Last zs (Through zs c) z) t.tx)
    (hout : perform i c.next c.shared t { write := flush, commit := true, next := .stop } = some out) :
    Validating db id order zs (c.after i out) := by
  obtain ⟨htx, hheld, hflush⟩ := hst
  have hp := performs_of_perform hout
  have hchild : out.child = none := by
    rw [hp.child]
    rfl
  have hself : out.self = none := Option.eq_none_iff_forall_ne_some.mpr fun u hu => by
    cases (hp.self hu).1
  have hlock : out.shared.lock = none := by
    rw [perform_commit_lock rfl hout, Shared.release, if_pos hheld]
  have hnot := h.not_through ha.nodup ht hz
  have hrows : RowsAt db id order zs (fun k => Through zs c k ∨ k = z) out.shared.db := by
    rcases hp.db with ⟨-, e⟩ | ⟨hc, -⟩
    · rw [htx] at e
      exact h.rows.commit ha hrow hid hnot hflush e
    · cases hc
  refine ⟨Nat.le_succ_of_le h.numbers, fun {j u} hu => ?_, fun {j} hl => ?_, ?_,
    h.log_after ht hchild hp (fun _ => hself)⟩
  · rw [h.after_tasks ht hchild] at hu
    by_cases hj : j = i
    · rw [if_pos hj, hself] at hu
      cases hu
    · rw [if_neg hj] at hu
      obtain ⟨z', row', p', hz', hrow', hid', hpc', hst'⟩ := h.task hu
      refine ⟨z', row', p', hz', hrow', hid', hpc', ?_⟩
      cases p' with
      | commit flush' =>
          have hl := hst'.2.1
          rw [hheld] at hl
          exact absurd (Option.some.inj hl).symm hj
      | _ => exact hst'
  · have hl : out.shared.lock = some j := hl
    rw [hlock] at hl
    cases hl
  · rw [h.through_ends ht hchild hz hself]
    exact hrows

/-- **A step of a successful validation** leaves the tasks of the order under way. -/
theorem Validating.step (h : Validating db id order zs c) (ha : Awaiting o db id order zs)
    (hs : Validates o cfg c c') : Validating db id order zs c' := by
  obtain ⟨i, ch, hch, hs⟩ := hs
  obtain ⟨t, ht, hs⟩ := Option.bind_eq_some_iff.mp hs
  obtain ⟨out, hout, rfl⟩ := Option.map_eq_some_iff.mp hs
  obtain ⟨seg, hseg, hout⟩ := Option.bind_eq_some_iff.mp hout
  obtain ⟨z, row, p, hz, hrow, hid, hpc, hst⟩ := h.task ht
  have hnot := h.not_through ha.nodup ht hz
  have hauthz : c.shared.db.authorizations.get z = some row := h.rows.waiting hrow hnot
  have horder : c.shared.db.orders.get id = some order :=
    h.rows.notReady fun hall => hnot (hall z ((ha.authzs z).mpr ⟨row, hrow, hid⟩))
  rw [hpc] at hseg
  have hview : t.tx = [] → t.view c.shared.db = c.shared.db := fun htx => by
    rw [Task.view, htx]
    rfl
  have hseg : seg = (runChallengeSeg o z id (t.view c.shared.db) ch p).map (.runChallenge z id) :=
    (Option.some.inj hseg).symm
  -- a segment that only reads, named by where it leads
  have hmoves : ∀ q, t.tx = [] → runChallengeSeg o z id c.shared.db ch p = .goto q →
      (∀ held last, q.Stage id order z row held last []) →
      Validating db id order zs (c.after i out) := by
    intro q htx e hq
    rw [hview htx, e] at hseg
    subst hseg
    exact h.moves ht htx hz hrow hid hq (performs_of_perform hout)
  cases p with
  | getAuthz => exact hmoves _ hst rfl fun _ _ => ⟨rfl, hauthz⟩
  | getOrder authz =>
      obtain ⟨htx, rfl⟩ := hst
      refine hmoves (.getAccount row order) htx ?_ fun _ _ => ⟨rfl, rfl, rfl⟩
      have htoken : row.challengeToken.isNone = false := by
        simpa using ha.token z row hrow hid
      simp only [runChallengeSeg, horder, htoken]
      rfl
  | getAccount authz r =>
      obtain ⟨htx, rfl, rfl⟩ := hst
      obtain ⟨account, haccount, hkey⟩ := ha.account
      obtain ⟨key, hkey⟩ := Option.isSome_iff_exists.mp hkey
      obtain ⟨expected, hexpected⟩ : ∃ expected, keyAuthorization o (authz.challengeToken.getD "")
          account.publicKey = some expected := ⟨_, by rw [keyAuthorization, hkey]; rfl⟩
      refine hmoves (.validate authz.identifier (authz.challengeToken.getD "") expected) htx ?_
        fun _ _ => rfl
      simp only [runChallengeSeg, h.rows.accounts, haccount, hexpected]
  | validate domain token expected =>
      refine hmoves (.regetAuthz none) hst ?_ fun _ _ => ⟨rfl, rfl⟩
      rw [runChallengeSeg, hch]
  | regetAuthz problem =>
      obtain ⟨htx, rfl⟩ := hst
      exact hmoves _ htx rfl fun _ _ => ⟨rfl, rfl, hauthz⟩
  | regetOrder problem authz =>
      obtain ⟨htx, rfl, rfl⟩ := hst
      refine hmoves (.statuses row order) htx ?_ fun _ _ => ⟨rfl, rfl, rfl⟩
      simp only [runChallengeSeg, horder]
  | statuses authz r =>
      obtain ⟨htx, rfl, rfl⟩ := hst
      rw [hview htx] at hseg
      subst hseg
      exact h.queries ha ht htx hz hrow hid hout
  | commit flush =>
      subst hseg
      exact h.commits ha ht hz hrow hid hst hout

/-! ### Runs -/

theorem validating_start (ha : Awaiting o db id order zs) (now : Int) :
    Validating db id order zs (validatingAll db now id zs) := by
  have hnone : ∀ k, ¬ Through zs (validatingAll db now id zs) k := by
    rintro k ⟨j, hj, hnone⟩
    simp [validatingAll, hj] at hnone
  refine ⟨Nat.le_refl _, fun {j u} hu => ?_, nofun, ?_, List.forall_mem_nil _⟩
  · obtain ⟨z, hz, rfl⟩ := Option.map_eq_some_iff.mp hu
    obtain ⟨row, hrow, hid⟩ := (ha.authzs z).mp (List.mem_of_getElem? hz)
    exact ⟨z, row, .getAuthz, hz, hrow, hid, rfl, rfl⟩
  · refine ⟨rfl, fun _ hD => absurd hD (hnone _), fun hrow _ => hrow, fun h => h, fun hall => ?_,
      fun _ => ha.stored⟩
    obtain ⟨z, hz⟩ := List.exists_mem_of_ne_nil zs ha.nonempty
    exact absurd (hall z hz) (hnone z)

theorem validating_run (ha : Awaiting o db id order zs) {now : Int}
    (h : Relation.ReflTransGen (Validates o cfg) (validatingAll db now id zs) c) :
    Validating db id order zs c := by
  induction h with
  | refl => exact validating_start ha now
  | tail _ hs ih => exact ih.step ha hs

/-- **Ready exactly at the last validation.**  In every interleaving of the tasks, the order is not
ready while some authorization is not valid; it is ready once every task has committed; and it is
ready when every authorization is valid. -/
theorem ready_at_last_validation (ha : Awaiting o db id order zs) {now : Int}
    (h : Relation.ReflTransGen (Validates o cfg) (validatingAll db now id zs) c) :
    (¬ c.shared.db.AllValid id → c.shared.db.orderStatus id ≠ some .ready) ∧
    ((∀ i < zs.length, Relay.Committed c i) → c.shared.db.orderStatus id = some .ready) ∧
    (c.shared.db.AllValid id → c.shared.db.orderStatus id = some .ready) := by
  have hv := validating_run ha h
  rw [hv.rows.allValid_iff ha, hv.rows.ready_iff ha]
  refine ⟨fun hn hall => ?_, fun hall z hz => ?_, fun hall => hall⟩
  · exact hn ((hv.rows.ready_iff ha).mp hall)
  · obtain ⟨i, hi⟩ := List.getElem?_of_mem hz
    obtain ⟨e, he, rfl, hc⟩ := hall i (List.getElem?_eq_some_iff.mp hi).1
    exact ⟨e.tid, hi, hv.log e he hc⟩

end Tasks

/-! ### An order of two names -/

/-- A schedule of the tasks whose validations succeed. -/
theorem validates_schedule {o : Oracle} {cfg : Settings} : ∀ {is : List Nat} {c c' : Relay},
    (relay o cfg).schedule (fun _ _ => true) c (is.map fun i => .run i (.choose {})) = some c' →
      Relation.ReflTransGen (Validates o cfg) c c'
  | [], c, c', h => by
      cases Option.some.inj h
      exact .refl
  | i :: is, c, c', h => by
      obtain ⟨c₁, hs, h⟩ := Option.bind_eq_some_iff.mp h
      exact .head ⟨i, {}, rfl, hs⟩ (validates_schedule h)

namespace Demo

def twoNamesOrder (status : OrderStatus) : Order := ⟨uuid 1, status, [], none, none, 0, none⟩

def twoNamesAuthz : Authorization := ⟨uuid 3, "host.test", .processing, some "tok", 0, none⟩

def twoNames (status : OrderStatus) : Db :=
  { Db.empty with
    accounts := .single (uuid 1) ⟨canonicalJwk (jwk 1), none, .valid, 0⟩
    orders := .single (uuid 3) (twoNamesOrder status)
    authorizations := ⟨[(uuid 4, twoNamesAuthz), (uuid 5, twoNamesAuthz)], by decide⟩ }

theorem twoNames_inProcess (status : OrderStatus) :
    InProcess oracle (twoNames status) (uuid 3) (twoNamesOrder status) [uuid 4, uuid 5] := by
  have hget : ∀ {z row}, (twoNames status).authorizations.get z = some row ↔
      (z = uuid 4 ∨ z = uuid 5) ∧ row = twoNamesAuthz := by
    intro z row
    rw [Table.get_eq_some_iff]
    simp only [twoNames, List.mem_cons, Prod.mk.injEq, List.not_mem_nil, or_false]
    tauto
  refine ⟨rfl, by decide, by decide, fun z => ?_, fun z row hrow _ => ?_,
    fun z row hrow _ => ?_, ⟨⟨canonicalJwk (jwk 1), none, .valid, 0⟩, rfl, by decide +kernel⟩⟩
  · simp only [hget, List.mem_cons, List.not_mem_nil, or_false]
    constructor
    · exact fun h => ⟨_, ⟨h, rfl⟩, rfl⟩
    · rintro ⟨_, ⟨h, -⟩, -⟩
      exact h
  · rw [(hget.mp hrow).2]
    rfl
  · rw [(hget.mp hrow).2]
    rfl

theorem twoNames_awaiting :
    Awaiting oracle (twoNames .processing) (uuid 3) (twoNamesOrder .processing) [uuid 4, uuid 5] :=
  ⟨twoNames_inProcess .processing, by decide⟩

end Demo

/-- The two tasks take turns, until one has to wait for the commit of the other. -/
theorem both_names_validated :
    Awaiting Demo.oracle (Demo.twoNames .processing) (Demo.uuid 3) (Demo.twoNamesOrder .processing)
      [Demo.uuid 4, Demo.uuid 5] ∧
    ∃ c, Relation.ReflTransGen (Validates Demo.oracle Demo.settings)
        (validatingAll (Demo.twoNames .processing) 0 (Demo.uuid 3) [Demo.uuid 4, Demo.uuid 5]) c ∧
      (∀ i < 2, Relay.Committed c i) ∧
      c.shared.db.orderStatus (Demo.uuid 3) = some .ready := by
  have hrun : ((relay Demo.oracle Demo.settings).schedule (fun _ _ => true)
      (validatingAll (Demo.twoNames .processing) 0 (Demo.uuid 3) [Demo.uuid 4, Demo.uuid 5])
      ([0, 1, 0, 1, 0, 1, 0, 1, 0, 1, 0, 1, 0, 0, 1, 1].map fun i => .run i (.choose {}))).any
        (fun c => (List.range 2).all fun i =>
          c.shared.log.any fun e => decide (e.tid = i) && e.seg.commit) = true := by decide +kernel
  obtain ⟨c, hc, h⟩ := (Option.any_eq_true _ _).mp hrun
  have hcommitted : ∀ i < 2, Relay.Committed c i := by
    intro i hi
    obtain ⟨e, he, hp⟩ := List.any_eq_true.mp (List.all_eq_true.mp h i (List.mem_range.mpr hi))
    obtain ⟨htid, hcommit⟩ := (Bool.and_eq_true _ _).mp hp
    exact ⟨e, he, of_decide_eq_true htid, hcommit⟩
  have hreach := validates_schedule hc
  exact ⟨Demo.twoNames_awaiting, c, hreach, hcommitted,
    (ready_at_last_validation Demo.twoNames_awaiting hreach).2.1 hcommitted⟩

/-- **Ready before the first validation**: the order is ready at the start, and its authorizations
are processing. -/
theorem ready_from_the_start :
    ¬ ∀ (o : Oracle) (cfg : Settings) (db : Db) (id : String) (order : Order) (zs : List String)
      (now : Int) (c : Relay), InProcess o db id order zs →
      Relation.ReflTransGen (Validates o cfg) (validatingAll db now id zs) c →
      ¬ c.shared.db.AllValid id → c.shared.db.orderStatus id ≠ some .ready := by
  intro hall
  refine hall Demo.oracle Demo.settings (Demo.twoNames .ready) (Demo.uuid 3) _ _ 0 _
    (Demo.twoNames_inProcess .ready) .refl (fun hvalid => ?_) (by decide)
  have hst := hvalid (Demo.uuid 4) Demo.twoNamesAuthz (by decide) rfl
  cases hst

end Jackdaw
