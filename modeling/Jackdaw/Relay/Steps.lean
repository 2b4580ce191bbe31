import Jackdaw.Db.Frame
import Jackdaw.Relay.Sends

/-!
# Relay — one turn of a task

What a step of the machine does when a task runs, said once:

* `Performs`: the effect of a segment on the shared state, inverted from `perform`.
* `Turn`: a task of a reached configuration runs a segment.  Besides the effect it carries what
  holds of every suspended task (`Task.Sane`): an open transaction holds the write lock, and the
  statements of a task are its coroutine's own.
* `Turn.later`: what the turn of one task looks like to another.  Rows stay, the log grows by an
  entry of somebody else, and to the holder of the write lock the database stands still.
* `Safety`: the proof rule for the relay.
-/

namespace Jackdaw

open Support Support.Interleave

/-! ### The effect of a segment -/

/-- The effect of segment `seg` of task `i`, whose child, if any, is task `n`. -/
structure Performs (i n : Nat) (s : Shared) (t : Task) (seg : Seg Pc) (out : Outcome Shared Task) :
    Prop where
  may : s.mayWrite i seg.write = true
  db : seg.commit = true ∧ Dml.execAll (t.tx ++ seg.write) s.db = some out.shared.db ∨
    seg.commit = false ∧ out.shared.db = s.db
  log : out.shared.log = ⟨i, t.pc, seg, s.db, out.shared.db, s.now, n⟩ :: s.log
  now : out.shared.now = s.now
  up : out.shared.up = seg.up s.up
  self : ∀ {u}, out.self = some u → seg.next = .goto u.pc ∧
    u.tx = if seg.commit then [] else t.tx ++ seg.write
  goes : ∀ {p}, seg.next = .goto p → ∃ tx, out.self = some ⟨p, tx⟩
  child : out.child = seg.spawn.map fun b => ⟨b.pc, []⟩
  lock : out.shared.lock = some i ∧ seg.write ≠ [] ∨
    out.shared.lock = s.lock ∧ seg.write = [] ∧ seg.commit = false ∨
    out.shared.lock = s.release i ∧ ∀ {u}, out.self = some u → u.tx = []

theorem Seg.self_eq_some {seg : Seg Pc} {tx : List Dml} {u : Task} (h : seg.self tx = some u) :
    seg.next = .goto u.pc ∧ u.tx = tx := by
  unfold Seg.self at h
  split at h
  · cases Option.some.inj h
    exact ⟨by assumption, rfl⟩
  · cases h

theorem Seg.self_of_goto {seg : Seg Pc} {p : Pc} (h : seg.next = .goto p) (tx : List Dml) :
    seg.self tx = some ⟨p, tx⟩ := by
  simp only [Seg.self, h]

theorem performs_of_perform {i n : Nat} {s : Shared} {t : Task} {seg : Seg Pc}
    {out : Outcome Shared Task} (h : perform i n s t seg = some out) :
    Performs i n s t seg out := by
  unfold perform at h
  split at h
  case isFalse => cases h
  case isTrue hmay =>
    by_cases hc : seg.commit = true
    · rw [if_pos hc] at h
      obtain ⟨db, hdb, rfl⟩ := Option.map_eq_some_iff.mp h
      refine ⟨hmay, .inl ⟨hc, hdb⟩, rfl, rfl, rfl, fun hu => ?_,
        fun hp => ⟨_, Seg.self_of_goto hp _⟩, rfl, .inr (.inr ⟨rfl, fun hu => (Seg.self_eq_some hu).2⟩)⟩
      rw [if_pos hc]
      exact Seg.self_eq_some hu
    · have hcf : seg.commit = false := by simpa using hc
      rw [if_neg hc] at h
      split at h
      · cases Option.some.inj h
        rename_i hw
        simp only [Bool.and_eq_true, Bool.not_eq_true', List.isEmpty_eq_false_iff] at hw
        refine ⟨hmay, .inr ⟨hcf, rfl⟩, rfl, rfl, rfl, fun hu => ?_,
          fun hp => ⟨_, Seg.self_of_goto hp _⟩, rfl, .inl ⟨rfl, hw.2⟩⟩
        rw [if_neg hc]
        exact Seg.self_eq_some hu
      · rename_i hw
        split at h
        · cases Option.some.inj h
          rename_i hself
          have hnil : seg.write = [] := by simpa [hself] using hw
          refine ⟨hmay, .inr ⟨hcf, rfl⟩, rfl, rfl, rfl, fun hu => ?_,
            fun hp => ⟨_, Seg.self_of_goto hp _⟩, rfl, .inr (.inl ⟨rfl, hnil, hcf⟩)⟩
          rw [if_neg hc]
          exact Seg.self_eq_some hu
        · cases Option.some.inj h
          rename_i hself
          refine ⟨hmay, .inr ⟨hcf, rfl⟩, rfl, rfl, rfl, fun hu => ?_,
            fun hp => ⟨_, Seg.self_of_goto hp _⟩, rfl, .inr (.inr ⟨rfl, fun hu => (Seg.self_eq_some hu).2⟩)⟩
          -- a task that goes on goes on under any transaction
          have : (seg.self (t.tx ++ seg.write)).isSome := by
            unfold Seg.self at hu ⊢
            split at hu
            · simp_all
            · cases hu
          exact absurd this hself

/-- The ways a task runs: the segment it is suspended before, or the failure of its statement. -/
theorem run_cases {o : Oracle} {cfg : Settings} {i n : Nat} {s : Shared} {t : Task} {a : Input}
    {out : Outcome Shared Task} (h : (relay o cfg).run i n s t a = some out) :
    ∃ seg, Performs i n s t seg out ∧
      ((∃ ch, t.pc.seg o cfg (t.view s.db) s.now ch = some seg) ∨ seg = { next := .dbError }) := by
  cases a with
  | choose ch =>
      obtain ⟨seg, hseg, h⟩ := Option.bind_eq_some_iff.mp h
      exact ⟨seg, performs_of_perform h, .inl ⟨ch, hseg⟩⟩
  | fail => exact ⟨{ next := .dbError }, performs_of_perform h, .inr rfl⟩
  | request _ | issueNonce _ | prune | clock _ | restart => cases h

/-- The tasks that arrive: a request, a nonce to issue, a pruning. -/
theorem arrive_cases {o : Oracle} {cfg : Settings} {s : Shared} {a : Input} {t : Task}
    (h : (relay o cfg).arrive s a = some t) :
    t.tx = [] ∧ s.up = true ∧ ((∃ req, t.pc = .jws req .verify) ∨ (∃ p, t.pc = .nonce p) ∨
      ∃ cutoff, t.pc = .prune (.delete cutoff)) := by
  cases a with
  | request req =>
      simp only [relay] at h
      split at h <;> cases h
      exact ⟨rfl, by assumption, .inl ⟨req, rfl⟩⟩
  | issueNonce token =>
      simp only [relay] at h
      split at h <;> cases h
      exact ⟨rfl, by assumption, .inr (.inl ⟨_, rfl⟩)⟩
  | prune =>
      simp only [relay] at h
      split at h <;> cases h
      exact ⟨rfl, by assumption, .inr (.inr ⟨_, rfl⟩)⟩
  | choose _ | fail | clock _ | restart => cases h

theorem tick_cases {o : Oracle} {cfg : Settings} {s s' : Shared} {a : Input}
    (h : (relay o cfg).tick s a = some s') : ∃ now, s' = { s with now } := by
  cases a with
  | clock now => exact ⟨now, (Option.some.inj h).symm⟩
  | choose _ | fail | request _ | issueNonce _ | prune | restart => cases h

theorem restart_cases {o : Oracle} {cfg : Settings} {s s' : Shared} {a : Input} {t : Task}
    (h : (relay o cfg).restart s a = some (s', t)) :
    s' = { s with lock := none, up := false } ∧ t = ⟨.reset .orders, []⟩ := by
  cases a with
  | restart =>
      cases Option.some.inj h
      exact ⟨rfl, rfl⟩
  | choose _ | fail | request _ | issueNonce _ | prune | clock _ => cases h

/-- A step adds one entry to the log, or none. -/
theorem step_log {o : Oracle} {cfg : Settings} {c c' : Relay} {a : Action Input}
    (h : (relay o cfg).step c a = some c') :
    c'.shared.log = c.shared.log ∨ ∃ e, c'.shared.log = e :: c.shared.log := by
  rcases Machine.step_cases h with ⟨i, b, t, out, -, -, ho, rfl⟩ | ⟨b, t, -, -, rfl⟩ |
      ⟨b, s, -, hs, rfl⟩ | ⟨b, s, t, -, hs, rfl⟩
  · obtain ⟨seg, hp, -⟩ := run_cases ho
    exact .inr ⟨_, hp.log⟩
  · exact .inl rfl
  · obtain ⟨now, rfl⟩ := tick_cases hs
    exact .inl rfl
  · obtain ⟨rfl, -⟩ := restart_cases hs
    exact .inl rfl

/-! ### Every suspended task -/

/-- What holds of every suspended task. -/
structure Task.Sane (i : Nat) (s : Shared) (t : Task) : Prop where
  lock : t.tx ≠ [] → s.lock = some i
  inTx : t.tx ≠ [] → t.pc.inTx = true
  pending : t.pc.PendingOk
  may : ∀ d ∈ t.tx, t.pc.May d

theorem Seg.dbError_quiet {P : Type} : ({ next := .dbError } : Seg P).Quiet :=
  ⟨rfl, rfl, rfl, fun _ h => by cases h⟩

theorem proper_of_runs {o : Oracle} {cfg : Settings} {db : Db} {now : Int} {pc : Pc}
    {seg : Seg Pc} (hp : pc.PendingOk)
    (h : (∃ ch, pc.seg o cfg db now ch = some seg) ∨ seg = { next := .dbError }) :
    seg.Proper pc := by
  rcases h with ⟨ch, h⟩ | rfl
  · exact Pc.seg_proper h hp
  · exact Seg.dbError_quiet.proper

/-- Another task's lock is not taken away. -/
theorem Performs.lock_other {i n j : Nat} {s : Shared} {t : Task} {seg : Seg Pc}
    {out : Outcome Shared Task} (h : Performs i n s t seg out) (hne : j ≠ i)
    (hl : s.lock = some j) : seg.write = [] ∧ out.shared.lock = some j := by
  have hw : seg.write = [] := by
    have := h.may
    simpa [Shared.mayWrite, hl, hne] using this
  refine ⟨hw, ?_⟩
  rcases h.lock with ⟨-, hw'⟩ | ⟨e, -, -⟩ | ⟨e, -⟩
  · exact absurd hw hw'
  · rw [e, hl]
  · rw [e, Shared.release, hl, if_neg]
    simpa using hne

theorem Performs.sane {i n : Nat} {s : Shared} {t : Task} {seg : Seg Pc}
    {out : Outcome Shared Task} (h : Performs i n s t seg out) (hp : seg.Proper t.pc)
    (ht : t.Sane i s) {u : Task} (hu : out.self = some u) : u.Sane i out.shared := by
  obtain ⟨hn, htx⟩ := h.self hu
  by_cases hc : seg.commit = true
  · rw [if_pos hc] at htx
    exact ⟨fun h => absurd htx h, fun h => absurd htx h, hp.pending _ hn, by simp [htx]⟩
  · have hcf : seg.commit = false := by simpa using hc
    rw [if_neg hc] at htx
    refine ⟨fun hne => ?_, fun hne => ?_, hp.pending _ hn, fun d hd => ?_⟩
    · rcases h.lock with ⟨e, -⟩ | ⟨e, hw, -⟩ | ⟨-, hnil⟩
      · exact e
      · rw [e]
        refine ht.lock fun hnil => hne ?_
        rw [htx, hnil, hw, List.append_nil]
      · exact absurd (hnil hu) hne
    · rcases hp.inTx _ hn hcf with ⟨hw, hin⟩ | hin
      · have htn : t.tx ≠ [] := by
          intro hnil
          rw [htx, hnil, hw] at hne
          exact hne rfl
        rw [ht.inTx htn] at hin
        cases hin
      · exact hin
    · rw [htx] at hd
      rcases List.mem_append.mp hd with hd | hd
      · exact hp.may _ hn hcf d (ht.may d hd)
      · exact hp.may _ hn hcf d (hp.write d hd)

theorem Task.sane_new {i : Nat} {s : Shared} {pc : Pc} (h : pc.pending = []) :
    (⟨pc, []⟩ : Task).Sane i s :=
  ⟨fun h => absurd rfl h, fun h => absurd rfl h, .none h, List.forall_mem_nil _⟩

theorem Bg.pc_pending (b : Bg) : b.pc.pending = [] := by
  cases b <;> rfl

def saneInvariant (o : Oracle) (cfg : Settings) (P : Relay → Relay → Prop) :
    Invariant (relay o cfg) P .init where
  Inv _ _ := True
  Ok i s t := t.Sane i s
  start := trivial
  run {c i t a out} _ _ hrun _ _ ht := by
    obtain ⟨seg, h, hseg⟩ := run_cases hrun
    have hp := proper_of_runs ht.pending hseg
    refine ⟨trivial, fun u hu => h.sane hp ht hu, fun u hu => ?_, fun j u _ hne hu => ?_⟩
    · rw [h.child] at hu
      obtain ⟨b, -, rfl⟩ := Option.map_eq_some_iff.mp hu
      exact Task.sane_new b.pc_pending
    · exact ⟨fun hx => (h.lock_other hne (hu.lock hx)).2, hu.inTx, hu.pending, hu.may⟩
  arrive {c a t} _ ht _ := by
    refine ⟨trivial, ?_⟩
    obtain ⟨pc, tx⟩ := t
    obtain ⟨rfl, -, ⟨req, rfl⟩ | ⟨p, rfl⟩ | ⟨cutoff, rfl⟩⟩ := arrive_cases ht
    all_goals exact Task.sane_new rfl
  tick {c a s} _ hs _ _ := by
    obtain ⟨now, rfl⟩ := tick_cases hs
    exact ⟨trivial, fun j u hu => ⟨hu.lock, hu.inTx, hu.pending, hu.may⟩⟩
  restart {c a s t} _ hs _ := by
    obtain ⟨rfl, rfl⟩ := restart_cases hs
    exact ⟨trivial, Task.sane_new rfl⟩

/-! ### Turns -/

/-- Where a transaction is open, the segment does not look at the database. -/
theorem Pc.seg_inTx {pc : Pc} (h : pc.inTx = true) (o : Oracle) (cfg : Settings) (db db' : Db)
    (now : Int) (ch : Choice) : pc.seg o cfg db now ch = pc.seg o cfg db' now ch := by
  unfold Pc.inTx at h
  split at h
  all_goals first | (cases h; done) | rfl

/-- Task `i` of the configuration runs `seg`, which leaves `out`. -/
structure Turn (o : Oracle) (cfg : Settings) (c : Relay) (i : Nat) (t : Task) (seg : Seg Pc)
    (out : Outcome Shared Task) : Prop extends Performs i c.next c.shared t seg out where
  task : c.tasks i = some t
  sane : t.Sane i c.shared
  runs : (∃ ch, t.pc.seg o cfg c.shared.db c.shared.now ch = some seg) ∨ seg = { next := .dbError }
  proper : seg.Proper t.pc

section Turn

variable {o : Oracle} {cfg : Settings} {P : Relay → Relay → Prop} {c : Relay} {i : Nat} {t : Task}
  {seg : Seg Pc} {out : Outcome Shared Task}

theorem turn_of_run (hr : Reach (relay o cfg) P .init c) (ht : c.tasks i = some t) {a : Input}
    (h : (relay o cfg).run i c.next c.shared t a = some out) :
    ∃ seg, Turn o cfg c i t seg out := by
  have hs := ((saneInvariant o cfg P).reach hr).2 i t ht
  obtain ⟨seg, hperf, hseg⟩ := run_cases h
  refine ⟨seg, hperf, ht, hs, hseg.imp_left fun ⟨ch, e⟩ => ⟨ch, ?_⟩, proper_of_runs hs.pending hseg⟩
  by_cases htx : t.tx = []
  · rw [← e, Task.view, htx]
    rfl
  · rw [← e]
    exact Pc.seg_inTx (hs.inTx htx) ..

theorem Turn.tx_nil (h : Turn o cfg c i t seg out) (hin : t.pc.inTx = false) : t.tx = [] := by
  by_contra hx
  rw [h.sane.inTx hx] at hin
  cases hin

theorem Turn.self_sane (h : Turn o cfg c i t seg out) {u : Task} (hu : out.self = some u) :
    u.Sane i out.shared :=
  h.toPerforms.sane h.proper h.sane hu

/-- The segment of a turn that goes on. -/
theorem Turn.goes_on (h : Turn o cfg c i t seg out) {u : Task} (hu : out.self = some u) :
    ∃ ch, t.pc.seg o cfg c.shared.db c.shared.now ch = some seg := by
  rcases h.runs with hs | rfl
  · exact hs
  · cases (h.self hu).1

/-- The segment of a turn that commits. -/
theorem Turn.commits (h : Turn o cfg c i t seg out) (hc : seg.commit = true) :
    ∃ ch, t.pc.seg o cfg c.shared.db c.shared.now ch = some seg := by
  rcases h.runs with hs | rfl
  · exact hs
  · cases hc

/-- The entry a turn adds to the log. -/
abbrev Turn.entry (_ : Turn o cfg c i t seg out) : Entry :=
  ⟨i, t.pc, seg, c.shared.db, out.shared.db, c.shared.now, c.next⟩

/-- The statements a turn commits. -/
theorem Turn.committed (h : Turn o cfg c i t seg out) :
    out.shared.db = c.shared.db ∨ seg.commit = true ∧
      Dml.execAll (t.tx ++ seg.write) c.shared.db = some out.shared.db := by
  rcases h.db with h | ⟨-, h⟩
  · exact .inr h
  · exact .inl h

theorem Turn.db_eq (h : Turn o cfg c i t seg out) (hc : seg.commit = false) :
    out.shared.db = c.shared.db := by
  rcases h.committed with e | ⟨hc', -⟩
  · exact e
  · rw [hc] at hc'
    cases hc'

/-- A turn that sends nothing and goes on. -/
theorem Turn.reads (h : Turn o cfg c i t seg out) {ok : Pc → Prop} (hr : seg.Reads ok) {u : Task}
    (hu : out.self = some u) : ok u.pc ∧ out.shared.db = c.shared.db ∧ u.tx = t.tx := by
  obtain ⟨hn, htx⟩ := h.self hu
  rcases hr with hq | ⟨p, rfl, hp⟩
  · exact absurd hn (hq.next _)
  · cases hn
    exact ⟨hp, h.db_eq rfl, htx.trans (List.append_nil _)⟩

theorem Turn.may_statement (h : Turn o cfg c i t seg out) {d : Dml} (hd : d ∈ t.tx ++ seg.write) :
    t.pc.May d := by
  rcases List.mem_append.mp hd with hd | hd
  · exact h.sane.may d hd
  · exact h.proper.write d hd

theorem Turn.grows (h : Turn o cfg c i t seg out) : c.shared.db.Grows out.shared.db := by
  rcases h.committed with e | ⟨-, e⟩
  · rw [e]
    exact .refl _
  · exact Dml.execAll_grows e

/-- A coroutine that sends nothing about a table leaves it as it is. -/
theorem Turn.same (h : Turn o cfg c i t seg out) {n : TableName}
    (hw : ∀ d, t.pc.May d → d.table ≠ n) : c.shared.db.Same out.shared.db n := by
  rcases h.committed with e | ⟨-, e⟩
  · rw [e]
    exact .refl _ n
  · exact Dml.execAll_same e fun d hd => hw d (h.may_statement hd)

/-- A turn leaves the rows alone that none of its statements updates. -/
theorem Turn.keeps (h : Turn o cfg c i t seg out) {k : RowKey}
    (hk : ∀ d ∈ t.tx ++ seg.write, seg.commit = true → t.pc.May d → ¬ d.Updates k) :
    c.shared.db.Keeps out.shared.db k := by
  rcases h.committed with e | ⟨hc, e⟩
  · rw [e]
    exact .refl _ _
  · exact Dml.execAll_keeps e fun d hd => hk d hd hc (h.may_statement hd)

/-- **Where orders come from**: an order that appears is placed by a `new_order`, for its account
and with a day to go. -/
theorem Turn.order_from (h : Turn o cfg c i t seg out) {id : String} {r' : Order}
    (hr : out.shared.db.orders.get id = some r') :
    (∃ r, c.shared.db.orders.get id = some r ∧ r'.fixed = r.fixed) ∨
      r'.expiresAt = some (r'.createdAt + days 1) ∧ ∃ p, t.pc = .newOrder r'.accountId p := by
  rcases h.committed with e | ⟨-, e⟩
  · rw [e] at hr
    exact .inl ⟨r', hr, rfl⟩
  · refine Dml.execAll_induction (R := fun a b => ∀ r', b.orders.get id = some r' →
      (∃ r, a.orders.get id = some r ∧ r'.fixed = r.fixed) ∨
        r'.expiresAt = some (r'.createdAt + days 1) ∧ ∃ p, t.pc = .newOrder r'.accountId p)
      (fun _ r' hr => .inl ⟨r', hr, rfl⟩) ?_ (fun d hd a b hab r' hr => ?_) e r' hr
    · intro a b d h₁ h₂ r' hr
      rcases h₂ r' hr with ⟨r, hr, hf⟩ | hnew
      · rcases h₁ r hr with ⟨r₀, hr₀, hf₀⟩ | ⟨hexp, p, hpc⟩
        · exact .inl ⟨r₀, hr₀, hf.trans hf₀⟩
        · simp only [Order.fixed, Prod.mk.injEq] at hf
          obtain ⟨ha, -, hx, hc⟩ := hf
          exact .inr ⟨by rw [hx, hc, hexp], p, by rw [ha, hpc]⟩
      · exact .inr hnew
    · refine (Dml.exec_order hab hr).imp_right fun hins => ?_
      have hmay := h.may_statement (hins ▸ hd)
      cases hpc : t.pc with
      | newOrder a p =>
          rw [hpc] at hmay
          exact ⟨hmay.2.2.2.2, p, by rw [hmay.1]⟩
      | _ =>
          rw [hpc] at hmay
          exact hmay.elim

/-- **Who changes the status of an order**, from what and to what. -/
theorem Turn.orderStatus (h : Turn o cfg c i t seg out) (id : String) :
    out.shared.db.orderStatus id = c.shared.db.orderStatus id ∨
      seg.commit = true ∧ ∃ st, t.pc.TurnsOrder id (c.shared.db.orderStatus id) st ∧
        out.shared.db.orderStatus id = some st := by
  rcases h.committed with e | ⟨hc, e⟩
  · rw [e]
    exact .inl rfl
  · refine (Dml.execAll_induction (R := fun a b => b.orderStatus id = a.orderStatus id ∨
      ∃ st, t.pc.TurnsOrder id (a.orderStatus id) st ∧ b.orderStatus id = some st)
      (fun _ => .inl rfl) ?_ (fun d hd a b hab => ?_) e).imp_right fun hst => ⟨hc, hst⟩
    · rintro a b d (e₁ | ⟨st, hst, e₁⟩) (e₂ | ⟨st', hst', e₂⟩)
      · exact .inl (e₂.trans e₁)
      · exact .inr ⟨st', e₁ ▸ hst', e₂⟩
      · exact .inr ⟨st, hst, e₂.trans e₁⟩
      · rw [e₁] at hst'
        exact .inr ⟨st', hst.trans hst', e₂⟩
    · refine (Dml.exec_orderStatus hab id).imp_right fun ⟨st, e, hs⟩ => ⟨st, ?_, e⟩
      exact (h.may_statement hd).order hs

/-- **Who changes the status of an authorization**, from what and to what. -/
theorem Turn.authzStatus (h : Turn o cfg c i t seg out) (z : String) :
    out.shared.db.authzStatus z = c.shared.db.authzStatus z ∨
      seg.commit = true ∧ ∃ st, t.pc.TurnsAuthz z (c.shared.db.authzStatus z) st ∧
        out.shared.db.authzStatus z = some st := by
  rcases h.committed with e | ⟨hc, e⟩
  · rw [e]
    exact .inl rfl
  · refine (Dml.execAll_induction (R := fun a b => b.authzStatus z = a.authzStatus z ∨
      ∃ st, t.pc.TurnsAuthz z (a.authzStatus z) st ∧ b.authzStatus z = some st)
      (fun _ => .inl rfl) ?_ (fun d hd a b hab => ?_) e).imp_right fun hst => ⟨hc, hst⟩
    · rintro a b d (e₁ | ⟨st, hst, e₁⟩) (e₂ | ⟨st', hst', e₂⟩)
      · exact .inl (e₂.trans e₁)
      · exact .inr ⟨st', e₁ ▸ hst', e₂⟩
      · exact .inr ⟨st, hst, e₂.trans e₁⟩
      · rw [e₁] at hst'
        exact .inr ⟨st', hst.trans hst', e₂⟩
    · refine (Dml.exec_authzStatus hab z).imp_right fun ⟨st, e, hs⟩ => ⟨st, ?_, e⟩
      exact (h.may_statement hd).authz hs

end Turn

/-! ### What the others see -/

/-- What task `j` can count on while it is suspended. -/
structure Shared.Later (j : Nat) (s s' : Shared) : Prop where
  grows : s.db.Grows s'.db
  log : ∃ l, s'.log = l ++ s.log ∧ ∀ e ∈ l, e.tid ≠ j
  held : s.lock = some j → s'.lock = some j ∧ s'.db = s.db

theorem Turn.later {o : Oracle} {cfg : Settings} {c : Relay} {i j : Nat} {t : Task}
    {seg : Seg Pc} {out : Outcome Shared Task} (h : Turn o cfg c i t seg out) (hne : j ≠ i) :
    Shared.Later j c.shared out.shared where
  grows := h.grows
  log := ⟨[_], h.log, fun e he => by cases List.mem_singleton.mp he; exact Ne.symm hne⟩
  held hl := by
    obtain ⟨hw, hl'⟩ := h.lock_other hne hl
    refine ⟨hl', ?_⟩
    have htx : t.tx = [] := by
      by_contra hx
      have := h.sane.lock hx
      rw [hl] at this
      exact hne (Option.some.inj this)
    rcases h.committed with e | ⟨-, e⟩
    · exact e
    · rw [htx, hw] at e
      exact (Option.some.inj e).symm

theorem Shared.later_clock {j : Nat} {s : Shared} {now : Int} :
    Shared.Later j s { s with now } :=
  ⟨.refl _, ⟨[], rfl, List.forall_mem_nil _⟩, fun h => ⟨h, rfl⟩⟩

/-! ### The proof rule -/

/-- The obligations of the proof rule for the relay: an invariant of the shared state, and an
assertion for every suspended task that the turns of the others do not disturb. -/
structure Safety (o : Oracle) (cfg : Settings) (P : Relay → Relay → Prop) where
  Inv : Nat → Shared → Prop
  Ok : Nat → Shared → Task → Prop
  start : Inv 0 .init
  run : ∀ {c : Relay} {i : Nat} {t : Task} {seg : Seg Pc} {out : Outcome Shared Task},
    Reach (relay o cfg) P .init c → Turn o cfg c i t seg out → P c (c.after i out) →
    Inv c.next c.shared → Ok i c.shared t →
    Inv (c.next + 1) out.shared ∧ (∀ u, out.self = some u → Ok i out.shared u) ∧
      ∀ b, seg.spawn = some b → Ok c.next out.shared ⟨b.pc, []⟩
  others : ∀ {c : Relay} {i j : Nat} {t u : Task} {seg : Seg Pc} {out : Outcome Shared Task},
    Reach (relay o cfg) P .init c → Turn o cfg c i t seg out → P c (c.after i out) →
    Inv c.next c.shared → Ok i c.shared t → c.tasks j = some u → j ≠ i →
    Ok j c.shared u → Ok j out.shared u
  request : ∀ {c : Relay} {t : Task}, Reach (relay o cfg) P .init c → Inv c.next c.shared →
    t.tx = [] → ((∃ req, t.pc = .jws req .verify) ∨ (∃ p, t.pc = .nonce p) ∨
      ∃ cutoff, t.pc = .prune (.delete cutoff)) → Ok c.next c.shared t
  fresh : ∀ {n : Nat} {s : Shared}, Inv n s → Inv (n + 1) s
  clock : ∀ {c : Relay} {now : Int}, P c { c with shared := { c.shared with now } } →
    Inv c.next c.shared → Inv c.next { c.shared with now } ∧
      ∀ j u, Ok j c.shared u → Ok j { c.shared with now } u
  restart : ∀ {n : Nat} {s : Shared}, Inv n s → Inv n { s with lock := none, up := false } ∧
    Ok n { s with lock := none, up := false } ⟨.reset .orders, []⟩

/-- The rule is the one of the library, at the relay's machine. -/
def Safety.invariant {o : Oracle} {cfg : Settings} {P : Relay → Relay → Prop}
    (S : Safety o cfg P) : Invariant (relay o cfg) P .init where
  Inv := S.Inv
  Ok := S.Ok
  start := S.start
  run hr ht h hp hI hok := by
    obtain ⟨seg, hturn⟩ := turn_of_run hr ht h
    obtain ⟨h₁, h₂, h₃⟩ := S.run hr hturn hp hI hok
    refine ⟨h₁, h₂, fun u hu => ?_, fun j u hj hne => S.others hr hturn hp hI hok hj hne⟩
    rw [hturn.child] at hu
    obtain ⟨b, hb, rfl⟩ := Option.map_eq_some_iff.mp hu
    exact h₃ b hb
  arrive hr ht hI := by
    obtain ⟨htx, -, hpc⟩ := arrive_cases ht
    exact ⟨S.fresh hI, S.request hr hI htx hpc⟩
  tick _ hs hp hI := by
    obtain ⟨now, rfl⟩ := tick_cases hs
    exact S.clock hp hI
  restart _ hs hI := by
    obtain ⟨rfl, rfl⟩ := restart_cases hs
    obtain ⟨h₁, h₂⟩ := S.restart hI
    exact ⟨S.fresh h₁, h₂⟩

theorem Safety.reach {o : Oracle} {cfg : Settings} {P : Relay → Relay → Prop}
    (S : Safety o cfg P) {c : Relay} (h : Reach (relay o cfg) P .init c) :
    S.Inv c.next c.shared ∧ ∀ i t, c.tasks i = some t → S.Ok i c.shared t :=
  S.invariant.reach h

end Jackdaw
