import Jackdaw.Relay.Children
import Jackdaw.Relay.Visible

/-!
# Relay — whatever is processing is attended to

`processing` is a promise to the client: a background task is at work.  An acknowledged challenge
and a claimed order turn rows to processing in the commit behind which their task is created, and a
task that comes to its end has written its rows back with another status.  What it writes back is
the row it loaded, and a row that has been processing since the task was created was loaded as such,
so that the status is among the columns that are written (`Settles`); this needs no assumption on
other tasks of the same order.

* `Since`: what has held since a task was created.
* `Pc.Attends`: what a background task has in hand, if its rows have been processing since then.
* `processing_attended`: while the relay is up, the task that was created for a row that is
  processing is under way, or a statement failed or an exception was raised in it.
-/

namespace Jackdaw

open Support Support.Interleave

/-! ### Rows that are processing -/

/-- The row is processing. -/
def Db.Busy (db : Db) : RowKey → Prop
  | .order id => db.orderStatus id = some .processing
  | .authz z => db.authzStatus z = some .processing
  | _ => False

/-- The task is to settle the row. -/
def Bg.WorksOn (k : RowKey) : Bg → Prop
  | .runChallenge z id => k = .authz z ∨ k = .order id
  | .processFinalize id _ _ => k = .order id

/-- The statements leave no row `k` that is processing. -/
def Settles (ds : List Dml) (k : RowKey) : Prop :=
  ∀ db db', Dml.execAll ds db = some db' → ¬ db'.Busy k

theorem Order.flush_settles {id : String} {old new : Order} (hold : old.status = .processing)
    (hnew : new.status ≠ .processing) (ds : List Dml) :
    Settles (ds ++ old.flush id new) (.order id) := by
  intro db db' h hb
  rw [Dml.execAll_append] at h
  obtain ⟨db₁, -, h⟩ := Option.bind_eq_some_iff.mp h
  have hst : changed old.status new.status = some new.status :=
    changed_eq_some.mpr ⟨fun e => hnew (e.symm.trans hold), rfl⟩
  simp only [Order.flush, hst] at h
  cases Option.some.inj h
  obtain ⟨r, hr, hp⟩ := Db.orderStatus_eq_some.mp hb
  simp only [Table.get_update, if_true] at hr
  obtain ⟨r₀, -, rfl⟩ := Option.map_eq_some_iff.mp hr
  exact hnew hp

theorem Authorization.flush_settles {z : String} {old new : Authorization}
    (hold : old.status = .processing) (hnew : new.status ≠ .processing) {ds : List Dml}
    (hds : ∀ d ∈ ds, d.table ≠ .authorizations) : Settles (old.flush z new ++ ds) (.authz z) := by
  intro db db' h hb
  rw [Dml.execAll_append] at h
  obtain ⟨db₁, h₁, h⟩ := Option.bind_eq_some_iff.mp h
  have hsame : db'.authorizations = db₁.authorizations := Dml.execAll_same h hds
  have hst : changed old.status new.status = some new.status :=
    changed_eq_some.mpr ⟨fun e => hnew (e.symm.trans hold), rfl⟩
  simp only [Authorization.flush, hst] at h₁
  cases Option.some.inj h₁
  obtain ⟨r, hr, hp⟩ := Db.authzStatus_eq_some.mp hb
  rw [hsame] at hr
  simp only [Table.get_update, if_true] at hr
  obtain ⟨r₀, -, rfl⟩ := Option.map_eq_some_iff.mp hr
  exact hnew hp

theorem Order.flush_table {id : String} {old new : Order} :
    ∀ d ∈ old.flush id new, d.table ≠ .authorizations := by
  intro d hd
  rw [Order.eq_of_mem_flush hd]
  exact nofun

theorem invalidate_settles {z id : String} {authz : Authorization} {order : Order}
    (problem : Problem) :
    (authz.status = .processing → Settles (invalidate z id authz order problem) (.authz z)) ∧
    (order.status = .processing → Settles (invalidate z id authz order problem) (.order id)) :=
  ⟨fun h => Authorization.flush_settles h (by simp) Order.flush_table,
    fun h => Order.flush_settles h (by simp) _⟩

/-! ### What a background task has in hand -/

/-- What `run_challenge` has in hand of an authorization that is processing, with the statements
`tx` sent. -/
def RunChallengePc.HasAuthz (z : String) (tx : List Dml) : RunChallengePc → Prop
  | .getOrder authz | .regetOrder _ authz => ∃ a, authz = some a ∧ a.status = .processing
  | .getAccount authz _ | .statuses authz _ => authz.status = .processing
  | .commit flush => Settles (tx ++ flush) (.authz z)
  | .getAuthz | .validate _ _ _ | .regetAuthz _ => True

/-- What `run_challenge` has in hand of an order that is processing. -/
def RunChallengePc.HasOrder (id : String) (tx : List Dml) : RunChallengePc → Prop
  | .getAccount _ order | .statuses _ order => order.status = .processing
  | .commit flush => Settles (tx ++ flush) (.order id)
  | .getAuthz | .getOrder _ | .validate _ _ _ | .regetAuthz _ | .regetOrder _ _ => True

/-- What `process_finalize` has in hand of an order that is processing. -/
def ProcessFinalizePc.Has (id : String) : ProcessFinalizePc → Prop
  | .store order _ _ => order.status = .processing
  | .commit flush => Settles flush (.order id)
  | .getOrder | .issue | .failGet _ | .get _ _ => True

section

variable {o : Oracle} {cfg : Settings} {c : Relay} {i : Nat} {t u : Task} {seg : Seg Pc}
  {out : Outcome Shared Task} {z id : String}

/-- A segment of `run_challenge` that only reads. -/
theorem Turn.reads_runChallenge (h : Turn o cfg c i t seg out) (hu : out.self = some u)
    {p q : RunChallengePc} (hpc : t.pc = .runChallenge z id p) (hq : u.pc = .runChallenge z id q)
    (hin : t.pc.inTx = false) {Has : List Dml → RunChallengePc → Prop}
    (hr : ∀ ch, (runChallengeSeg o z id c.shared.db ch p).Reads (Has [])) : Has u.tx q := by
  obtain ⟨ch, hseg⟩ := h.goes_on hu
  rw [hpc] at hseg
  have hreads : seg.Reads fun pc => ∃ p, pc = .runChallenge z id p ∧ Has [] p :=
    Option.some.inj hseg ▸ .map _ ((hr ch).mono fun p hp => ⟨p, rfl, hp⟩)
  obtain ⟨⟨p', hp', hhas⟩, -, htx⟩ := h.reads hreads hu
  rw [hq] at hp'
  cases hp'
  rw [htx, h.tx_nil hin]
  exact hhas

/-- **The authorization in hand**, step by step. -/
theorem Turn.hasAuthz (h : Turn o cfg c i t seg out) (hu : out.self = some u)
    {p q : RunChallengePc} (hpc : t.pc = .runChallenge z id p) (hq : u.pc = .runChallenge z id q)
    (hb : c.shared.db.Busy (.authz z)) (hp : p.HasAuthz z t.tx) : q.HasAuthz z u.tx := by
  obtain ⟨r, hr, hst⟩ := Db.authzStatus_eq_some.mp hb
  have hreads : t.pc.inTx = false →
      (∀ ch, (runChallengeSeg o z id c.shared.db ch p).Reads (RunChallengePc.HasAuthz z [])) →
        q.HasAuthz z u.tx :=
    fun hin => h.reads_runChallenge hu hpc hq hin
  cases p with
  | getAuthz => exact hreads (by rw [hpc]; rfl) fun _ => .goto ⟨r, hr, hst⟩
  | regetAuthz problem => exact hreads (by rw [hpc]; rfl) fun _ => .goto ⟨r, hr, hst⟩
  | validate domain token expected => exact hreads (by rw [hpc]; rfl) fun _ => .goto trivial
  | getOrder authz =>
      obtain ⟨a, rfl, ha⟩ := hp
      refine hreads (by rw [hpc]; rfl) fun _ => ?_
      simp only [runChallengeSeg]
      split
      · split
        · exact .goto ((invalidate_settles _).1 (by simp_all))
        · exact .goto (by simp_all [RunChallengePc.HasAuthz])
      · exact .inl Seg.stop_quiet
  | regetOrder problem authz =>
      obtain ⟨a, rfl, ha⟩ := hp
      refine hreads (by rw [hpc]; rfl) fun _ => ?_
      simp only [runChallengeSeg]
      split
      · split
        · exact .goto (by simp_all [RunChallengePc.HasAuthz])
        · exact .goto ((invalidate_settles _).1 (by simp_all))
      · exact .inl Seg.stop_quiet
  | getAccount authz order =>
      refine hreads (by rw [hpc]; rfl) fun _ => ?_
      simp only [runChallengeSeg]
      split
      · exact .goto ((invalidate_settles _).1 hp)
      · split
        · exact .fail _
        · exact .goto trivial
  | statuses authz order =>
      obtain ⟨ch, hseg⟩ := h.goes_on hu
      have hn := (h.self hu).1
      rw [hpc] at hseg
      have hseg := Option.some.inj hseg
      subst hseg
      obtain ⟨htx, -⟩ := h.sends hu (by rw [hpc]; rfl) rfl
      rw [hq] at hn
      cases hn
      rw [htx]
      refine Authorization.flush_settles hp (by simp) fun d hd => ?_
      split at hd
      · exact Order.flush_table d hd
      · cases hd
  | commit flush =>
      obtain ⟨ch, hseg⟩ := h.goes_on hu
      have hn := (h.self hu).1
      rw [hpc] at hseg
      rw [← Option.some.inj hseg] at hn
      cases hn

/-- An authorization in hand that is processing is the one the query for the statuses finds valid,
and the order has no other. -/
theorem statuses_ready {db : Db} {authz : Authorization} (hl : db.Linked) (hz : db.AuthzOf z id)
    (ha : authz.status = .processing) :
    ((((Dml.execAll (authz.flush z { authz with status := .valid }) db).getD
      db).authorizations.select fun _ a => decide (a.orderId = id)).all
        fun a => decide (a.2.status = .valid)) = true := by
  obtain ⟨r₀, hr₀, hid⟩ := hz
  have hne : authz.status ≠ .valid := by
    rw [ha]
    exact nofun
  simp only [Authorization.flush, changed, hne, if_false, reduceCtorEq, AuthzPatch.mk.injEq,
    false_and, Dml.execAll, Dml.exec, Option.bind_some, Option.getD_some]
  rw [List.all_eq_true]
  rintro ⟨w, r⟩ hw
  obtain ⟨hr, ho⟩ := Table.mem_select.mp hw
  rw [decide_eq_true_eq] at ho ⊢
  simp only [Table.get_update] at hr
  split at hr
  · obtain ⟨r₁, -, rfl⟩ := Option.map_eq_some_iff.mp hr
    rfl
  · rename_i hw
    exact absurd (hl.unique hr hr₀ (ho.trans hid.symm)) hw

/-- **The order in hand**, step by step. -/
theorem Turn.hasOrder (h : Turn o cfg c i t seg out) (hl : c.shared.db.Linked)
    (hz : c.shared.db.AuthzOf z id) (hu : out.self = some u) {p q : RunChallengePc}
    (hpc : t.pc = .runChallenge z id p) (hq : u.pc = .runChallenge z id q)
    (hb : c.shared.db.Busy (.order id)) (ha : p.HasAuthz z t.tx) (hp : p.HasOrder id t.tx) :
    q.HasOrder id u.tx := by
  obtain ⟨r, hr, hst⟩ := Db.orderStatus_eq_some.mp hb
  have hreads : t.pc.inTx = false →
      (∀ ch, (runChallengeSeg o z id c.shared.db ch p).Reads (RunChallengePc.HasOrder id [])) →
        q.HasOrder id u.tx :=
    fun hin => h.reads_runChallenge hu hpc hq hin
  cases p with
  | getAuthz | regetAuthz _ | validate _ _ _ =>
      exact hreads (by rw [hpc]; rfl) fun _ => .goto trivial
  | getOrder authz =>
      refine hreads (by rw [hpc]; rfl) fun _ => ?_
      simp only [runChallengeSeg, hr]
      split
      · rename_i a order _ e
        cases e
        split
        · exact .goto ((invalidate_settles _).2 hst)
        · exact .goto hst
      · exact .inl Seg.stop_quiet
  | regetOrder problem authz =>
      refine hreads (by rw [hpc]; rfl) fun _ => ?_
      simp only [runChallengeSeg, hr]
      split
      · rename_i a order _ e
        cases e
        split
        · exact .goto hst
        · exact .goto ((invalidate_settles _).2 hst)
      · exact .inl Seg.stop_quiet
  | getAccount authz order =>
      refine hreads (by rw [hpc]; rfl) fun _ => ?_
      simp only [runChallengeSeg]
      split
      · exact .goto ((invalidate_settles _).2 hp)
      · split
        · exact .fail _
        · exact .goto trivial
  | statuses authz order =>
      obtain ⟨ch, hseg⟩ := h.goes_on hu
      have hn := (h.self hu).1
      rw [hpc] at hseg
      have hseg := Option.some.inj hseg
      subst hseg
      rw [hq] at hn
      cases hn
      rw [if_pos (statuses_ready hl hz ha)]
      exact Order.flush_settles hp (by simp) _
  | commit flush =>
      obtain ⟨ch, hseg⟩ := h.goes_on hu
      have hn := (h.self hu).1
      rw [hpc] at hseg
      rw [← Option.some.inj hseg] at hn
      cases hn

/-- **The order `process_finalize` has in hand**, step by step. -/
theorem Turn.has (h : Turn o cfg c i t seg out) (hu : out.self = some u) {domain : String}
    {csrDer : List UInt8} {p q : ProcessFinalizePc}
    (hpc : t.pc = .processFinalize id domain csrDer p)
    (hq : u.pc = .processFinalize id domain csrDer q) (hb : c.shared.db.Busy (.order id))
    (hp : p.Has id) : q.Has id := by
  obtain ⟨r, hr, hst⟩ := Db.orderStatus_eq_some.mp hb
  obtain ⟨ch, hseg⟩ := h.goes_on hu
  have hn := (h.self hu).1
  rw [hpc] at hseg
  obtain ⟨seg', h', rfl⟩ := Option.map_eq_some_iff.mp hseg
  obtain ⟨q', hn', e⟩ := Next.map_eq_goto hn
  rw [hq] at e
  cases e
  cases p with
  | getOrder =>
      simp only [processFinalizeSeg, hr] at h'
      cases Option.some.inj h'
      cases hn'
      trivial
  | issue =>
      simp only [processFinalizeSeg] at h'
      split at h'
      all_goals
        cases Option.some.inj h'
        cases hn'
        trivial
  | failGet problem =>
      simp only [processFinalizeSeg, hr] at h'
      cases Option.some.inj h'
      cases hn'
      exact Order.flush_settles hst (by simp) []
  | get pem expires =>
      simp only [processFinalizeSeg, hr] at h'
      split at h'
      · cases Option.some.inj h'
        cases hn'
        exact hst
      · cases h'
  | store order k cert =>
      cases Option.some.inj h'
      cases hn'
      exact Order.flush_settles hp (by simp) []
  | commit flush =>
      cases Option.some.inj h'
      cases hn'

/-! ### How a background task ends -/

/-- A `run_challenge` returns behind its commit, or because a row is missing. -/
theorem runChallengeSeg_stop {db : Db} {ch : Choice} {p : RunChallengePc}
    (h : (runChallengeSeg o z id db ch p).next = .stop) :
    (∃ authz, (p = .getOrder authz ∨ ∃ problem, p = .regetOrder problem authz) ∧
      (authz = none ∨ db.orders.get id = none)) ∨ ∃ flush, p = .commit flush := by
  cases p with
  | getOrder authz =>
      refine .inl ⟨authz, .inl rfl, ?_⟩
      cases authz with
      | none => exact .inl rfl
      | some a =>
          cases ho : db.orders.get id with
          | none => exact .inr rfl
          | some order =>
              simp only [runChallengeSeg, ho] at h
              split at h <;> cases h
  | regetOrder problem authz =>
      refine .inl ⟨authz, .inr ⟨problem, rfl⟩, ?_⟩
      cases authz with
      | none => exact .inl rfl
      | some a =>
          cases ho : db.orders.get id with
          | none => exact .inr rfl
          | some order =>
              simp only [runChallengeSeg, ho] at h
              split at h <;> cases h
  | commit flush => exact .inr ⟨flush, rfl⟩
  | getAccount authz order =>
      simp only [runChallengeSeg] at h
      split at h
      · cases h
      · split at h <;> cases h
  | getAuthz | validate _ _ _ | regetAuthz _ | statuses _ _ => cases h

/-- **A `run_challenge` that returns has settled what it has in hand.** -/
theorem Turn.settles_runChallenge (h : Turn o cfg c i t seg out) (hl : c.shared.db.Linked)
    (hz : c.shared.db.AuthzOf z id) {p : RunChallengePc} (hpc : t.pc = .runChallenge z id p)
    (hn : seg.next = .stop) (ha : p.HasAuthz z t.tx) :
    ¬ out.shared.db.Busy (.authz z) ∧ (p.HasOrder id t.tx → ¬ out.shared.db.Busy (.order id)) := by
  obtain ⟨ch, hseg⟩ : ∃ ch, t.pc.seg o cfg c.shared.db c.shared.now ch = some seg := by
    rcases h.runs with hs | rfl
    · exact hs
    · cases hn
  rw [hpc] at hseg
  have hseg := Option.some.inj hseg
  subst hseg
  have hstop : (runChallengeSeg o z id c.shared.db ch p).next = .stop := by
    cases hq : (runChallengeSeg o z id c.shared.db ch p).next with
    | stop => rfl
    | _ =>
        rw [Seg.map_next, hq] at hn
        cases hn
  rcases runChallengeSeg_stop hstop with ⟨authz, hp, hmiss⟩ | ⟨flush, rfl⟩
  · exfalso
    have hauthz : authz ≠ none := by
      rcases hp with rfl | ⟨problem, rfl⟩ <;> obtain ⟨a, rfl, -⟩ := ha <;> exact nofun
    obtain ⟨r, hr, rfl⟩ := hz
    obtain ⟨order, horder, -⟩ := hl.order hr
    rcases hmiss with hnone | hnone
    · exact hauthz hnone
    · rw [horder] at hnone
      cases hnone
  · rcases h.db with ⟨-, e⟩ | ⟨hc, -⟩
    · exact ⟨ha _ _ e, fun ho => ho _ _ e⟩
    · cases hc

/-- **A `process_finalize` that returns has settled the order it has in hand.** -/
theorem Turn.settles_processFinalize (h : Turn o cfg c i t seg out) {domain : String}
    {csrDer : List UInt8} {p : ProcessFinalizePc}
    (hpc : t.pc = .processFinalize id domain csrDer p) (hn : seg.next = .stop)
    (hb : c.shared.db.Busy (.order id)) (hp : p.Has id) : ¬ out.shared.db.Busy (.order id) := by
  obtain ⟨r, hr, -⟩ := Db.orderStatus_eq_some.mp hb
  obtain ⟨ch, hseg⟩ : ∃ ch, t.pc.seg o cfg c.shared.db c.shared.now ch = some seg := by
    rcases h.runs with hs | rfl
    · exact hs
    · cases hn
  rw [hpc] at hseg
  obtain ⟨seg', h', rfl⟩ := Option.map_eq_some_iff.mp hseg
  cases p with
  | commit flush =>
      cases Option.some.inj h'
      rcases h.db with ⟨-, e⟩ | ⟨hc, -⟩
      · rw [h.tx_nil (by rw [hpc]; rfl)] at e
        exact hp _ _ e
      · cases hc
  | getOrder | failGet _ =>
      simp only [processFinalizeSeg, hr] at h'
      cases Option.some.inj h'
      cases hn
  | get pem expires =>
      simp only [processFinalizeSeg, hr] at h'
      split at h'
      · cases Option.some.inj h'
        cases hn
      · cases h'
  | issue =>
      simp only [processFinalizeSeg] at h'
      split at h'
      all_goals
        cases Option.some.inj h'
        cases hn
  | store order k cert =>
      cases Option.some.inj h'
      cases hn

/-! ### Since a task was created -/

/-- The property held when task `i` was created, and has held since. -/
def Since (Q : Db → Prop) (i : Nat) (l : List Entry) : Prop :=
  ∃ m w l₁, l = m ++ w :: l₁ ∧ w.child = i ∧ ∀ e ∈ m ++ [w], Q e.post

theorem Since.mono {Q Q' : Db → Prop} (hQ : ∀ db, Q db → Q' db) {l : List Entry}
    (h : Since Q i l) : Since Q' i l := by
  obtain ⟨m, w, l₁, hl, hi, hm⟩ := h
  exact ⟨m, w, l₁, hl, hi, fun e he => hQ _ (hm e he)⟩

theorem Since.now {Q : Db → Prop} {l : List Entry} {db : Db} (h : Since Q i l)
    (hrec : Recorded db l) : Q db := by
  obtain ⟨m, w, l₁, rfl, -, hm⟩ := h
  cases m with
  | nil => exact hrec.1 ▸ hm w List.mem_cons_self
  | cons e m => exact hrec.1 ▸ hm e List.mem_cons_self

theorem Since.tail {Q : Db → Prop} {e : Entry} {l : List Entry} (h : Since Q i (e :: l))
    (hi : i < e.child) : Since Q i l := by
  obtain ⟨m, w, l₁, hl, hw, hm⟩ := h
  cases m with
  | nil =>
      cases hl
      exact absurd hw hi.ne'
  | cons x m =>
      cases hl
      exact ⟨m, w, l₁, rfl, hw, fun e he => hm e (List.mem_cons_of_mem _ he)⟩

/-- The validating task of authorization `z` is to settle both rows. -/
def Both (z id : String) (db : Db) : Prop := db.Busy (.authz z) ∧ db.Busy (.order id)

/-- What task `i` has in hand where it is suspended, if its rows have been processing since it was
created. -/
def Pc.Attends (i : Nat) (l : List Entry) (tx : List Dml) : Pc → Prop
  | .runChallenge z id p =>
      (Since (fun db => db.Busy (.authz z)) i l → p.HasAuthz z tx) ∧
        (Since (Both z id) i l → p.HasOrder id tx)
  | .processFinalize id _ _ p => Since (fun db => db.Busy (.order id)) i l → p.Has id
  | _ => True

theorem Pc.Attends.cons {pc : Pc} {l : List Entry} {tx : List Dml} (h : pc.Attends i l tx)
    {e : Entry} (hi : i < e.child) : pc.Attends i (e :: l) tx := by
  cases pc with
  | runChallenge z id p => exact ⟨fun hs => h.1 (hs.tail hi), fun hs => h.2 (hs.tail hi)⟩
  | processFinalize id domain csrDer p => exact fun hs => h (hs.tail hi)
  | _ => trivial

theorem Pc.isStart_attends {pc : Pc} (h : pc.isStart = true) {l : List Entry} {tx : List Dml} :
    pc.Attends i l tx := by
  unfold Pc.isStart at h
  split at h <;> trivial

/-- A background task was created as what it is. -/
def Pc.Born (i : Nat) (l : List Entry) : Pc → Prop
  | .runChallenge z id _ => ∃ v ∈ l, v.child = i ∧ v.seg.spawn = some (.runChallenge z id)
  | _ => True

variable {P : Relay → Relay → Prop}

/-- **What a task has in hand**, step by step. -/
theorem Turn.attends (h : Turn o cfg c i t seg out) (hr : Reach (relay o cfg) P .init c)
    (hu : out.self = some u) (ha : t.pc.Attends i c.shared.log t.tx) :
    u.pc.Attends i out.shared.log u.tx := by
  have hi : i < c.next := hr.lt_next h.task
  have hrec := recorded hr
  rw [h.log]
  rcases h.stays_or_starts hu with e | hstart | ⟨a, p, e⟩
  · cases hq : u.pc with
    | runChallenge z id q =>
        rw [hq] at e
        obtain ⟨p, hpc⟩ := Pc.eq_runChallenge e.symm
        have hz : c.shared.db.AuthzOf z id := by
          have hk := Jackdaw.knows hr h.task
          rw [hpc] at hk
          exact hk.1
        rw [hpc] at ha
        refine ⟨fun hs => ?_, fun hs => ?_⟩
        · have hs := hs.tail hi
          exact h.hasAuthz hu hpc hq (hs.now hrec) (ha.1 hs)
        · have hs := hs.tail hi
          exact h.hasOrder (Jackdaw.linked hr) hz hu hpc hq (hs.now hrec).2
            (ha.1 (hs.mono fun _ h => h.1)) (ha.2 hs)
    | processFinalize id domain csrDer q =>
        rw [hq] at e
        obtain ⟨p, hpc⟩ := Pc.eq_processFinalize e.symm
        rw [hpc] at ha
        intro hs
        have hs := hs.tail hi
        exact h.has hu hpc hq (hs.now hrec) (ha hs)
    | _ => trivial
  · exact Pc.isStart_attends hstart
  · rw [e]
    trivial

theorem Turn.born (h : Turn o cfg c i t seg out) (hu : out.self = some u)
    (hb : t.pc.Born i c.shared.log) : u.pc.Born i out.shared.log := by
  cases hq : u.pc with
  | runChallenge z id q =>
      rcases h.stays_or_starts hu with e | hstart | ⟨a, p, e⟩
      · rw [hq] at e
        obtain ⟨p, hpc⟩ := Pc.eq_runChallenge e.symm
        rw [hpc] at hb
        obtain ⟨v, hv, hb⟩ := hb
        exact ⟨v, h.log ▸ List.mem_cons_of_mem _ hv, hb⟩
      · rw [hq] at hstart
        cases hstart
      · rw [hq] at e
        cases e
  | _ => trivial

theorem Pc.Born.cons {pc : Pc} {l : List Entry} (h : pc.Born i l) (e : Entry) :
    pc.Born i (e :: l) := by
  cases pc with
  | runChallenge z id p =>
      obtain ⟨v, hv, h⟩ := h
      exact ⟨v, List.mem_cons_of_mem e hv, h⟩
  | _ => trivial

def attendedSafety (o : Oracle) (cfg : Settings) (P : Relay → Relay → Prop) : Safety o cfg P where
  Inv _ s := ∀ v ∈ s.log, ∀ z id, v.seg.spawn = some (.runChallenge z id) → s.db.AuthzPast z
  Ok i s t := (t.pc.Attends i s.log t.tx ∧ t.pc.Born i s.log) ∧ t.SentReset
  start := List.forall_mem_nil _
  run {c i t seg out} hr h _ hI hok := by
    obtain ⟨⟨ha, hb⟩, hs⟩ := hok
    refine ⟨fun v hv z id hsp => ?_, fun u hu => ⟨⟨h.attends hr hu ha, h.born hu hb⟩,
      h.sentReset hs hu⟩, fun b hsp => ⟨⟨?_, ?_⟩, fun p hp => ?_⟩⟩
    · rw [h.log] at hv
      rcases List.mem_cons.mp hv with rfl | hv
      · exact h.started_child (knows hr h.task) (started hr h.task) hsp
      · exact h.authzPast (hI v hv z id hsp)
    · cases b with
      | runChallenge z id => exact ⟨fun _ => trivial, fun _ => trivial⟩
      | processFinalize id domain csrDer => exact fun _ => trivial
    · cases b with
      | runChallenge z id => exact ⟨_, h.log ▸ List.mem_cons_self, rfl, hsp⟩
      | processFinalize id domain csrDer => trivial
    · cases b <;> cases hp
  others {c i j t u seg out} hr h _ _ _ hj _ hu := by
    obtain ⟨⟨ha, hb⟩, hs⟩ := hu
    rw [h.log]
    exact ⟨⟨ha.cons (hr.lt_next hj), hb.cons _⟩, hs⟩
  request {c t} _ _ _ hpc := by
    rcases hpc with ⟨req, e⟩ | ⟨p, e⟩ | ⟨cutoff, e⟩ <;>
      exact ⟨⟨by rw [e]; trivial, by rw [e]; trivial⟩, fun p hp => by rw [e] at hp; cases hp⟩
  fresh hI := hI
  clock _ hI := ⟨hI, fun _ _ h => h⟩
  restart hI := ⟨hI, ⟨trivial, trivial⟩, fun p hp => by cases hp; rfl⟩

theorem attends (h : Reach (relay o cfg) P .init c) (ht : c.tasks i = some t) :
    t.pc.Attends i c.shared.log t.tx :=
  (((attendedSafety o cfg P).reach h).2 i t ht).1.1

theorem born (h : Reach (relay o cfg) P .init c) (ht : c.tasks i = some t) :
    t.pc.Born i c.shared.log :=
  (((attendedSafety o cfg P).reach h).2 i t ht).1.2

theorem sent_reset (h : Reach (relay o cfg) P .init c) (ht : c.tasks i = some t) : t.SentReset :=
  (((attendedSafety o cfg P).reach h).2 i t ht).2

/-- An authorization has left `pending` once a validating task was created for it. -/
theorem validated_past (h : Reach (relay o cfg) P .init c) {v : Entry} (hv : v ∈ c.shared.log)
    (hs : v.seg.spawn = some (.runChallenge z id)) : c.shared.db.AuthzPast z :=
  ((attendedSafety o cfg P).reach h).1 v hv z id hs

/-! ### The two rows of a challenge -/

theorem since_of_mem {Q : Db → Prop} {m l₁ : List Entry} {w v : Entry}
    (hQ : ∀ e ∈ m ++ [w], Q e.post) (hv : v ∈ m ++ [w]) : Since Q v.child (m ++ w :: l₁) := by
  obtain ⟨m₁, m₂, e⟩ := List.append_of_mem hv
  refine ⟨m₁, v, m₂ ++ l₁, ?_, rfl, fun x hx => hQ x ?_⟩
  · have := congrArg (· ++ l₁) e
    simpa using this
  · rw [e]
    rcases List.mem_append.mp hx with hx | hx
    · exact List.mem_append_left _ hx
    · cases List.mem_singleton.mp hx
      exact List.mem_append_right _ List.mem_cons_self

/-- No validating task was created for an authorization before the order left `pending`. -/
theorem validated_later (h : Reach (relay o cfg) P .init c) {m l₁ : List Entry} {w : Entry}
    (hl : c.shared.log = m ++ w :: l₁) (hz : w.pre.AuthzOf z id)
    (hpre : w.pre.orderStatus id = some .pending) {v : Entry} (hv : v ∈ c.shared.log)
    (hs : v.seg.spawn = some (.runChallenge z id)) : v ∈ m ++ [w] := by
  rw [hl, List.append_cons] at hv
  refine (List.mem_append.mp hv).resolve_right fun hold => ?_
  obtain ⟨c₁, i, t, seg, out, hturn, hr, hlog, rfl⟩ := entry_turn h hl
  exact (validated_past hr (hlog ▸ hold) hs).not_pending (((in_step hr).pending hz).mp hpre)

/-- **An acknowledged challenge has both rows processing**, as long as the order is. -/
theorem busy_together (h : Reach (relay o cfg) P .init c) {m l₁ : List Entry} {w : Entry}
    {a : String} {p : ChallengePc} (hl : c.shared.log = m ++ w :: l₁)
    (hw : w.pc = .challenge a z p) (hz : w.pre.AuthzOf z id)
    (hpre : w.pre.orderStatus id = some .pending)
    (hbusy : ∀ e ∈ m ++ [w], e.post.Busy (.order id)) : ∀ e ∈ m ++ [w], e.post.Busy (.authz z) := by
  induction m generalizing c with
  | nil =>
      obtain ⟨c₀, i, t, seg, out, hturn, hr, -, rfl⟩ := entry_turn h hl
      intro e he
      cases List.mem_singleton.mp he
      have hpost : out.shared.db.Busy (.order id) := hbusy _ he
      rcases hturn.orderStatus id with e | ⟨hc, -⟩
      · rw [Db.Busy, e, show c₀.shared.db.orderStatus id = _ from hpre] at hpost
        cases hpost
      · obtain ⟨-, -, -, hproc, -⟩ := hturn.challenge_commit (knows hr hturn.task) hw hc
        exact hproc
  | cons x m ih =>
      have hl : c.shared.log = [] ++ x :: (m ++ w :: l₁) := hl
      obtain ⟨c₀, i, t, seg, out, hturn, hr, hlog, rfl⟩ := entry_turn h hl
      have hlog : c₀.shared.log = m ++ w :: l₁ := hlog
      have hold := ih hr hlog fun e he => hbusy e (List.mem_cons_of_mem _ he)
      have hboth : ∀ e ∈ m ++ [w], Both z id e.post := fun e he =>
        ⟨hold e he, hbusy e (List.mem_cons_of_mem _ he)⟩
      have hnow : c₀.shared.db.Busy (.authz z) ∧ c₀.shared.db.Busy (.order id) :=
        (since_of_mem hboth (List.mem_append_right m List.mem_cons_self)).now
          (hlog ▸ recorded hr)
      have hpost : out.shared.db.Busy (.order id) := hbusy _ List.mem_cons_self
      have hz₀ : c₀.shared.db.AuthzOf z id := by
        refine hz.grows ?_
        have hmem : w ∈ c₀.shared.log := hlog ▸ List.mem_append_right m List.mem_cons_self
        exact (entry_grows hr hmem).1
      intro e he
      rcases List.mem_cons.mp he with rfl | he
      case inr => exact hold e he
      rcases hturn.authzStatus z with e | ⟨hc, st, hst, e⟩
      · exact e.trans hnow.1
      · cases hpc : t.pc with
        | challenge a' z' p' =>
            rw [hpc] at hst
            obtain ⟨-, rfl⟩ := hst
            exact e
        | newOrder a' p' =>
            rw [hpc, show c₀.shared.db.authzStatus z = _ from hnow.1] at hst
            cases hst.1
        | reset p' => exact absurd hpost (hturn.reset_settles (sent_reset hr hturn.task) hpc hc id)
        | runChallenge z' id' p' =>
            -- the task was created at or after this acknowledgment, and settles both rows
            exfalso
            have hk := knows hr hturn.task
            have hborn := born hr hturn.task
            have hatt := attends hr hturn.task
            rw [hpc] at hst hk hborn hatt
            obtain ⟨rfl, -⟩ := hst
            obtain rfl := hk.1.unique hz₀
            obtain ⟨v, hv, rfl, hs⟩ := hborn
            have hsince := hlog ▸ since_of_mem hboth (validated_later hr hlog hz hpre hv hs)
            have hstop : seg.next = .stop := by
              obtain ⟨ch, hseg⟩ := hturn.commits hc
              rw [hpc] at hseg
              have hseg := Option.some.inj hseg
              subst hseg
              obtain ⟨flush, rfl⟩ := runChallengeSeg_commit hc
              rfl
            exact (hturn.settles_runChallenge (linked hr) hz₀ hpc hstop
              (hatt.1 (hsince.mono fun _ h => h.1))).2 (hatt.2 hsince) hpost
        | _ =>
            rw [hpc] at hst
            exact hst.elim

/-! ### Who is at work -/

/-- **Who turns an order to processing**, and for which task. -/
theorem Turn.makes_busy_order (h : Turn o cfg c i t seg out) (hk : t.pc.Knows i c.shared t.tx)
    (hpre : ¬ c.shared.db.Busy (.order id)) (hpost : out.shared.db.Busy (.order id)) :
    (∃ domain csrDer, seg.spawn = some (.processFinalize id domain csrDer)) ∨
      ∃ a z p, t.pc = .challenge a z p ∧ c.shared.db.AuthzOf z id ∧
        c.shared.db.orderStatus id = some .pending ∧ seg.spawn = some (.runChallenge z id) := by
  rcases h.orderStatus id with e | ⟨hc, st, hst, e⟩
  · rw [Db.Busy, e] at hpost
    exact absurd hpost hpre
  · rw [Db.Busy, e] at hpost
    cases hpost
    cases hpc : t.pc with
    | challenge a z p =>
        obtain ⟨id', hz, hs, -, hkeep, -⟩ := h.challenge_commit hk hpc hc
        have hkept : ¬ (id ≠ id' ∨ c.shared.db.orderStatus id' ≠ some .pending) := fun hne =>
          hpre ((hkeep id hne).symm.trans e)
        obtain ⟨rfl, hpend⟩ := not_or.mp hkept |>.imp not_not.mp not_not.mp
        exact .inr ⟨a, z, p, rfl, hz, hpend, hs⟩
    | finalize a id' p =>
        rw [hpc] at hst
        obtain ⟨rfl, -⟩ := hst
        rcases h.claims_finalize hk hpc with ⟨⟨hidle, -⟩, -⟩ | ⟨-, -, hissues, -⟩
        · refine absurd ?_ hpre
          rw [Db.Busy, Db.orderStatus, ← show out.shared.db.orders.get id' = _ from hidle id']
          exact e
        · exact .inl (Entry.issues_iff.mp hissues)
    | newOrder a p | runChallenge z id' p | processFinalize id' domain csrDer p | reset p =>
        rw [hpc] at hst
        simp [Pc.TurnsOrder] at hst
    | _ =>
        rw [hpc] at hst
        exact hst.elim

theorem Turn.makes_busy_authz (h : Turn o cfg c i t seg out) (hk : t.pc.Knows i c.shared t.tx)
    (hpre : ¬ c.shared.db.Busy (.authz z)) (hpost : out.shared.db.Busy (.authz z)) :
    ∃ id, seg.spawn = some (.runChallenge z id) := by
  rcases h.authzStatus z with e | ⟨hc, st, hst, e⟩
  · rw [Db.Busy, e] at hpost
    exact absurd hpost hpre
  · rw [Db.Busy, e] at hpost
    cases hpost
    cases hpc : t.pc with
    | challenge a z' p =>
        rw [hpc] at hst
        obtain ⟨rfl, -⟩ := hst
        obtain ⟨id, -, hs, -⟩ := h.challenge_commit hk hpc hc
        exact ⟨id, hs⟩
    | newOrder a p | runChallenge z' id' p | reset p =>
        rw [hpc] at hst
        simp [Pc.TurnsAuthz] at hst
    | _ =>
        rw [hpc] at hst
        exact hst.elim

/-- The commit of the reset leaves nothing processing. -/
theorem Turn.reset_idle (h : Turn o cfg c i t seg out) (hs : t.SentReset) {p : ResetPc}
    (hpc : t.pc = .reset p) (hc : seg.commit = true) (k : RowKey) : ¬ out.shared.db.Busy k := by
  obtain ⟨ch, hseg⟩ := h.commits hc
  rw [hpc] at hseg
  cases p with
  | orders | authzs =>
      cases Option.some.inj hseg
      cases hc
  | commit =>
      cases Option.some.inj hseg
      rcases h.db with ⟨-, e⟩ | ⟨hcf, -⟩
      · rw [hs _ hpc] at e
        rw [← Option.some.inj ((reset_exec c.shared.db).symm.trans e)]
        cases k with
        | order id => exact Db.reset_orders
        | authz z => exact Db.reset_authzs
        | account _ | cert _ => exact fun h => h
      · cases hcf

/-- **A background task that returns leaves no row processing that it was created for**, if that has
been processing since. -/
theorem Turn.returns_idle (h : Turn o cfg c i t seg out) (hr : Reach (relay o cfg) P .init c)
    {b : Bg} (hb : t.pc.coroutine = b.pc.coroutine) (hn : seg.next = .stop) {k : RowKey}
    (hk : b.WorksOn k) (hs : Since (fun db => db.Busy k) i c.shared.log)
    (hboth : ∀ z id, b = .runChallenge z id → k = .order id → Since (Both z id) i c.shared.log) :
    ¬ out.shared.db.Busy k := by
  have hatt := Jackdaw.attends hr h.task
  cases b with
  | runChallenge z id =>
      obtain ⟨p, hpc⟩ := Pc.eq_runChallenge hb
      have hz := Jackdaw.knows hr h.task
      rw [hpc] at hatt hz
      rcases hk with rfl | rfl
      · exact (h.settles_runChallenge (Jackdaw.linked hr) hz.1 hpc hn (hatt.1 hs)).1
      · have hs := hboth z id rfl rfl
        exact (h.settles_runChallenge (Jackdaw.linked hr) hz.1 hpc hn
          (hatt.1 (hs.mono fun _ h => h.1))).2 (hatt.2 hs)
  | processFinalize id domain csrDer =>
      obtain ⟨p, hpc⟩ := Pc.eq_processFinalize hb
      rw [hpc] at hatt
      obtain rfl : k = .order id := hk
      exact h.settles_processFinalize hpc hn (hs.now (recorded hr)) (hatt hs)

/-- **The task that was created for a row**, with the entry that turned it to processing. -/
theorem busy_from (h : Reach (relay o cfg) P .init c) {m l₁ : List Entry} {w : Entry} {k : RowKey}
    (hl : c.shared.log = m ++ w :: l₁) (hpre : ¬ w.pre.Busy k)
    (hbusy : ∀ e ∈ m ++ [w], e.post.Busy k) : ∃ b, w.seg.spawn = some b ∧ b.WorksOn k ∧
      ∀ z id, b = .runChallenge z id → k = .order id →
        ∀ e ∈ m ++ [w], Both z id e.post := by
  obtain ⟨c₁, i, t, seg, out, hturn, hr, hlog, rfl⟩ := entry_turn h hl
  have hk := knows hr hturn.task
  have hpost : out.shared.db.Busy k := hbusy hturn.entry (List.mem_append_right m List.mem_cons_self)
  cases k with
  | order id =>
      rcases hturn.makes_busy_order hk hpre hpost with ⟨domain, csrDer, hs⟩ | ⟨a, z, p, hpc, hz, hp, hs⟩
      · exact ⟨_, hs, rfl, fun _ _ e => by cases e⟩
      · refine ⟨_, hs, .inr rfl, fun z' id' e _ x hx => ?_⟩
        cases e
        exact ⟨busy_together h hl hpc hz hp hbusy x hx, hbusy x hx⟩
  | authz z =>
      obtain ⟨id, hs⟩ := hturn.makes_busy_authz hk hpre hpost
      exact ⟨_, hs, .inl rfl, fun _ _ _ e => by cases e⟩
  | account _ | cert _ => exact hpost.elim

end

section

variable {o : Oracle} {cfg : Settings} {c : Relay}

/-- **Nothing that is processing is abandoned.**  While the relay is up: the entry that turned a row
to processing created a task to settle it, and this task is under way, or a statement failed or an
exception was raised in it.  So it is in every interleaving, with any number of tasks for the
order. -/
theorem processing_attended (h : Reachable o cfg c) (hup : c.shared.up = true) {k : RowKey}
    (hb : c.shared.db.Busy k) :
    ∃ m w l₁ b, c.shared.log = m ++ w :: l₁ ∧ ¬ w.pre.Busy k ∧ (∀ e ∈ m ++ [w], e.post.Busy k) ∧
      w.seg.spawn = some b ∧ b.WorksOn k ∧
      ((∃ t, c.tasks w.child = some t ∧ t.pc.coroutine = b.pc.coroutine) ∨
        ∃ x ∈ m, x.tid = w.child ∧ (x.seg.next = .dbError ∨ x.seg.next = .raised)) := by
  have hnone : ¬ Db.empty.Busy k := by
    cases k <;> exact fun h => by cases h
  obtain ⟨m, w, l₁, hl, hpre, hbusy⟩ := (recorded h).turned (Q := fun db => db.Busy k) hnone hb
  obtain ⟨b, hs, hwork, hboth⟩ := busy_from h hl hpre hbusy
  have hw : w ∈ c.shared.log := hl ▸ List.mem_append_right m List.mem_cons_self
  refine ⟨m, w, l₁, b, hl, hpre, hbusy, hs, hwork, ?_⟩
  rcases child_alive h hl (by rw [hs]; exact nofun) with ⟨t, ht⟩ | ⟨x, hx, htid, hn⟩ |
      ⟨x, hx, p, hpc, hc⟩ | hdown
  · exact .inl ⟨t, ht, child_coroutine h hw hs ht⟩
  · -- the task has ended: at its end, its rows have been processing since it was created
    obtain ⟨m₁, m₂, rfl⟩ := List.append_of_mem hx
    have hl' : c.shared.log = m₁ ++ x :: (m₂ ++ w :: l₁) := by simpa using hl
    have hmem : ∀ e ∈ m₂ ++ [w], e ∈ (m₁ ++ x :: m₂) ++ [w] := fun e he => by
      simp only [List.mem_append, List.mem_cons] at he ⊢
      tauto
    obtain ⟨c₂, i, t, seg, out, hturn, hr, hlog, rfl⟩ := entry_turn h hl'
    obtain rfl : i = w.child := htid
    have hw₂ : w ∈ c₂.shared.log := hlog ▸ List.mem_append_right m₂ List.mem_cons_self
    have hco := child_coroutine hr hw₂ hs hturn.task
    have hlast : w ∈ m₂ ++ [w] := List.mem_append_right m₂ List.mem_cons_self
    refine .inr ⟨_, hx, rfl, (hturn.bg_ends hco hn).resolve_left fun hstop => ?_⟩
    refine hturn.returns_idle hr hco hstop hwork
      (hlog ▸ since_of_mem (fun e he => hbusy e (hmem e he)) hlast)
      (fun z id e e' => hlog ▸ since_of_mem (fun e₁ he => hboth z id e e' e₁ (hmem e₁ he)) hlast) ?_
    exact hbusy hturn.entry (List.mem_append_left _ hx)
  · obtain ⟨m₁, m₂, rfl⟩ := List.append_of_mem hx
    have hsplit : c.shared.log = m₁ ++ x :: (m₂ ++ w :: l₁) := by simpa using hl
    obtain ⟨c₂, i, t, seg, out, hturn, hr, -, rfl⟩ := entry_turn h hsplit
    exact absurd (hbusy _ (List.mem_append_left _ hx))
      (hturn.reset_idle (sent_reset hr hturn.task) hpc hc k)
  · rw [hdown] at hup
    cases hup

/-- A challenge is acknowledged, and its validation is to begin. -/
def Demo.acknowledged : List (Nat → List (Action Input)) :=
  [boot, nonce 1, nonce 2, nonce 3, account 1 1, order 11 2, call (request 11 3 2) (turns 7)]

theorem processing_attended_run :
    ∃ c, Demo.run (fun _ _ => true) Demo.acknowledged = some c ∧ c.shared.up = true ∧
      c.shared.db.Busy (.order (Demo.uuid 3)) ∧
      ∃ m w l₁ b, c.shared.log = m ++ w :: l₁ ∧ ¬ w.pre.Busy (.order (Demo.uuid 3)) ∧
        (∀ e ∈ m ++ [w], e.post.Busy (.order (Demo.uuid 3))) ∧
        w.seg.spawn = some b ∧ b.WorksOn (.order (Demo.uuid 3)) ∧
        ((∃ t, c.tasks w.child = some t ∧ t.pc.coroutine = b.pc.coroutine) ∨
          ∃ x ∈ m, x.tid = w.child ∧ (x.seg.next = .dbError ∨ x.seg.next = .raised)) := by
  have hrun : (Demo.run (fun _ _ => true) Demo.acknowledged).any (fun c => c.shared.up &&
      decide (c.shared.db.orderStatus (Demo.uuid 3) = some .processing)) = true := by decide +kernel
  obtain ⟨c, hc, h⟩ := (Option.any_eq_true _ _).mp hrun
  obtain ⟨hup, hb⟩ := (Bool.and_eq_true _ _).mp h
  have hb : c.shared.db.orderStatus (Demo.uuid 3) = some .processing := of_decide_eq_true hb
  exact ⟨c, hc, hup, hb, processing_attended (Demo.reach (fun _ _ => trivial) hc) hup hb⟩

end

end Jackdaw
