import Jackdaw.Config
import Jackdaw.Db.Models
import Jackdaw.Support.Interleave

/-!
# Services — the nonce store

`services/nonce.py`: `generate_nonce`, `consume_nonce`, `prune_nonces`, and the store they make
together, run by any number of sessions.

A session runs one call.  The clock reading of a call and its `INSERT`, `UPDATE` or `DELETE` are
one step; the count query of `generate_nonce`, which the ceiling `NONCE_MAX` asks for, is a step
of its own, so that the insertion may see a different table than the count did.  The store keeps
the history of what was generated, presented and pruned (`NonceEvent`), newest first.

**Single use** (`accepts_iff`).  At every reachable store, a nonce presented now or later is
accepted exactly when the history has it generated no longer than the time to live ago and not
yet accepted.  Pruning is invisible: two stores whose histories agree once the prunings are
erased accept the same nonces (`accepts_congr`).

The row of a nonce is gone only when the nonce has expired, which a clock that does not run
backwards keeps true; `StoreInv` says this together with what the row's two columns record.
-/

namespace Jackdaw

open Support Support.Interleave

/-! ### The three operations on the table -/

/-- `cutoff = _utcnow() - timedelta(seconds=get_settings().nonce_ttl)`. -/
def nonceCutoff (cfg : Settings) (now : Int) : Int := now - seconds cfg.nonceTtl

/-- `generate_nonce` up to the insertion: is the ceiling in force and reached? -/
def nonceCapReached (cfg : Settings) (t : Table String Nonce) : Bool :=
  decide (0 < cfg.nonceMax) && decide (cfg.nonceMax ≤ t.rows.length)

/-- `cursor.rowcount` of the consuming `UPDATE`. -/
def consumeRowcount (t : Table String Nonce) (value : Option String) (cutoff : Int) : Nat :=
  t.count (Nonce.consumable value cutoff)

/-- Does `consume_nonce(value)` succeed at `now`? -/
def consumeAccepts (cfg : Settings) (t : Table String Nonce) (value : String) (now : Int) :
    Bool :=
  decide (consumeRowcount t (some value) (nonceCutoff cfg now) ≠ 0)

/-- A presented value finds a row exactly when its own row is unused and recent. -/
theorem consumeRowcount_ne_zero {t : Table String Nonce} {value : Option String}
    {cutoff : Int} : consumeRowcount t value cutoff ≠ 0 ↔
      ∃ v r, value = some v ∧ t.get v = some r ∧ r.used = false ∧ cutoff ≤ r.createdAt := by
  rw [consumeRowcount, Table.count, ← Nat.pos_iff_ne_zero, List.length_pos_iff_exists_mem]
  constructor
  · rintro ⟨⟨v, r⟩, h⟩
    obtain ⟨hg, hp⟩ := Table.mem_select.mp h
    simp only [Nonce.consumable, Bool.and_eq_true, decide_eq_true_eq, Bool.not_eq_true'] at hp
    exact ⟨v, r, hp.1.1, hg, hp.1.2, hp.2⟩
  · rintro ⟨v, r, hv, hg, hu, hc⟩
    exact ⟨(v, r), Table.mem_select.mpr ⟨hg, by simp [Nonce.consumable, hv, hu, hc]⟩⟩

theorem consumeAccepts_iff {cfg : Settings} {t : Table String Nonce} {v : String} {now : Int} :
    consumeAccepts cfg t v now = true ↔
      ∃ r, t.get v = some r ∧ r.used = false ∧ now - r.createdAt ≤ seconds cfg.nonceTtl := by
  rw [consumeAccepts, decide_eq_true_iff, consumeRowcount_ne_zero]
  constructor
  · rintro ⟨v', r, hv, hg, hu, hc⟩
    cases Option.some.inj hv
    exact ⟨r, hg, hu, by unfold nonceCutoff at hc; omega⟩
  · rintro ⟨r, hg, hu, hc⟩
    exact ⟨v, r, rfl, hg, hu, by unfold nonceCutoff; omega⟩

/-! ### The store -/

/-- What happened to a nonce, and when. -/
inductive NonceEvent where
  | generated (value : String) (createdAt : Int)
  | presented (value : String) (time : Int) (accepted : Bool)
  | pruned (time : Int)
  deriving DecidableEq, Repr

/-- The table, the clock, and the history, newest first. -/
structure NonceStore where
  nonces : Table String Nonce
  now : Int
  log : List NonceEvent

/-- A call in progress, named by the statement it runs next. -/
inductive NonceCall where
  | count
  | insert
  | consume (value : String)
  | prune
  deriving DecidableEq, Repr

/-- What the environment decides: the random token, the call that arrives, the time it is. -/
inductive NonceInput where
  | token (value : String)
  | call (call : NonceCall)
  | clock (now : Int)

/-- One statement of a call. -/
def NonceCall.run (cfg : Settings) (s : NonceStore) :
    NonceCall → NonceInput → Option (Outcome NonceStore NonceCall)
  | .count, _ =>
      some ⟨s, if nonceCapReached cfg s.nonces then none else some .insert, none⟩
  | .insert, .token v =>
      (s.nonces.insert? v ⟨false, s.now⟩).map fun t =>
        ⟨{ s with nonces := t, log := .generated v s.now :: s.log }, none, none⟩
  | .insert, _ => none
  | .consume v, _ =>
      some ⟨{ s with
        nonces := Nonce.consume s.nonces (some v) (nonceCutoff cfg s.now)
        log := .presented v s.now (consumeAccepts cfg s.nonces v s.now) :: s.log }, none, none⟩
  | .prune, _ =>
      some ⟨{ s with
        nonces := Nonce.prune s.nonces (nonceCutoff cfg s.now)
        log := .pruned s.now :: s.log }, none, none⟩

/-- A call starts with its first statement: without a ceiling `generate_nonce` does not count. -/
def NonceCall.arrives (cfg : Settings) : NonceCall → Bool
  | .count => decide (0 < cfg.nonceMax)
  | .insert => decide (cfg.nonceMax ≤ 0)
  | _ => true

/-- Sessions calling the three operations; the clock does not run backwards. -/
def nonceMachine (cfg : Settings) : Machine NonceStore NonceCall NonceInput where
  run _ _ s t a := t.run cfg s a
  arrive _ a := match a with
    | .call k => if k.arrives cfg then some k else none
    | _ => none
  tick s a := match a with
    | .clock t => if s.now ≤ t then some { s with now := t } else none
    | _ => none
  restart _ _ := none

def NonceStore.empty : NonceStore := ⟨.empty, 0, []⟩

/-- The values generated so far. -/
def generatedValues (log : List NonceEvent) : List String :=
  log.filterMap fun
    | .generated v _ => some v
    | _ => none

/-- No value is ever generated twice. -/
def DistinctTokens (_ c' : Config NonceStore NonceCall) : Prop :=
  (generatedValues c'.shared.log).Nodup

theorem mem_generatedValues {log : List NonceEvent} {v : String} :
    v ∈ generatedValues log ↔ ∃ g, .generated v g ∈ log := by
  simp only [generatedValues, List.mem_filterMap]
  constructor
  · rintro ⟨e, he, h⟩
    cases e with
    | generated v' g => cases Option.some.inj h; exact ⟨g, he⟩
    | presented v' t ok => cases h
    | pruned t => cases h
  · rintro ⟨g, h⟩
    exact ⟨_, h, rfl⟩

/-- A value generated once has one creation time. -/
theorem createdAt_unique {v : String} {g g' : Int} :
    ∀ {log : List NonceEvent}, (generatedValues log).Nodup → .generated v g ∈ log →
      .generated v g' ∈ log → g = g'
  | e :: log, hd, h, h' => by
      have tail : (generatedValues log).Nodup := by
        cases e with
        | generated w k => exact (List.nodup_cons.mp hd).2
        | presented w t ok => exact hd
        | pruned t => exact hd
      -- the head may be one of the two; the other would repeat its value
      have clash : ∀ {k k' : Int}, e = .generated v k → .generated v k' ∈ log → False :=
        fun he hk => by
          subst he
          exact (List.nodup_cons.mp hd).1 (mem_generatedValues.mpr ⟨_, hk⟩)
      rcases List.mem_cons.mp h with h | h <;> rcases List.mem_cons.mp h' with h' | h'
      · rw [← h] at h'
        cases h'
        rfl
      · exact (clash h.symm h').elim
      · exact (clash h'.symm h).elim
      · exact createdAt_unique tail h h'

/-! ### Single use -/

/-- The history has `v` generated at most the time to live before `t`, and not accepted yet. -/
def Fresh (cfg : Settings) (log : List NonceEvent) (v : String) (t : Int) : Prop :=
  (∃ g, .generated v g ∈ log ∧ t - g ≤ seconds cfg.nonceTtl) ∧ ∀ t', .presented v t' true ∉ log

/-- What the table and the history say about each other. -/
structure StoreInv (cfg : Settings) (s : NonceStore) : Prop where
  distinct : (generatedValues s.log).Nodup
  /-- A row records when its nonce was generated and whether it was accepted. -/
  row : ∀ {v r}, s.nonces.get v = some r →
    .generated v r.createdAt ∈ s.log ∧ (r.used = true ↔ ∃ t, .presented v t true ∈ s.log)
  /-- A nonce without a row has expired. -/
  gone : ∀ {v g}, .generated v g ∈ s.log → s.nonces.get v = none →
    seconds cfg.nonceTtl < s.now - g
  /-- Only generated values are accepted. -/
  known : ∀ {v t}, .presented v t true ∈ s.log → ∃ g, .generated v g ∈ s.log

/-- **Acceptance, read off the history.** -/
theorem StoreInv.accepts_iff {cfg : Settings} {s : NonceStore} (h : StoreInv cfg s) {v : String}
    {t : Int} (ht : s.now ≤ t) : consumeAccepts cfg s.nonces v t = true ↔ Fresh cfg s.log v t := by
  rw [consumeAccepts_iff]
  constructor
  · rintro ⟨r, hr, hu, hc⟩
    obtain ⟨hg, hused⟩ := h.row hr
    refine ⟨⟨r.createdAt, hg, hc⟩, fun t' ht' => ?_⟩
    rw [hused.mpr ⟨t', ht'⟩] at hu
    cases hu
  · rintro ⟨⟨g, hg, hc⟩, hno⟩
    cases hr : s.nonces.get v with
    | none =>
        have := h.gone hg hr
        omega
    | some r =>
        obtain ⟨hg', hused⟩ := h.row hr
        refine ⟨r, rfl, ?_, ?_⟩
        · rw [← Bool.not_eq_true, hused]
          exact fun ⟨t', ht'⟩ => hno t' ht'
        · rw [createdAt_unique h.distinct hg' hg]
          exact hc

/-- `INSERT` of a value that was never generated before. -/
theorem StoreInv.insert {cfg : Settings} {s : NonceStore} (h : StoreInv cfg s) {v : String}
    {t : Table String Nonce} (ht : s.nonces.insert? v ⟨false, s.now⟩ = some t)
    (hd : (generatedValues (.generated v s.now :: s.log)).Nodup) :
    StoreInv cfg { s with nonces := t, log := .generated v s.now :: s.log } where
  distinct := hd
  row {w r} hr := by
    rw [Table.get_insert? ht] at hr
    by_cases e : w = v
    · subst e
      rw [if_pos rfl] at hr
      cases Option.some.inj hr
      refine ⟨List.mem_cons_self, ⟨fun hu => (by cases hu), fun ⟨t', ht'⟩ => ?_⟩⟩
      obtain ⟨g, hg⟩ := h.known (List.mem_of_ne_of_mem (by simp) ht')
      exact absurd (mem_generatedValues.mpr ⟨g, hg⟩) (List.nodup_cons.mp hd).1
    · rw [if_neg e] at hr
      obtain ⟨hg, hu⟩ := h.row hr
      exact ⟨List.mem_cons_of_mem _ hg, hu.trans (by simp)⟩
  gone {w g} hg hw := by
    rw [Table.get_insert? ht] at hw
    by_cases e : w = v
    · simp [e] at hw
    · rw [if_neg e] at hw
      refine h.gone (List.mem_of_ne_of_mem (fun he => e ?_) hg) hw
      cases he
      rfl
  known {w t'} hw := by
    obtain ⟨g, hg⟩ := h.known (List.mem_of_ne_of_mem (by simp) hw)
    exact ⟨g, List.mem_cons_of_mem _ hg⟩

/-- The consuming `UPDATE`, recorded with its answer. -/
theorem StoreInv.consume {cfg : Settings} {s : NonceStore} (h : StoreInv cfg s) (v : String) :
    StoreInv cfg { s with
      nonces := Nonce.consume s.nonces (some v) (nonceCutoff cfg s.now)
      log := .presented v s.now (consumeAccepts cfg s.nonces v s.now) :: s.log } where
  distinct := h.distinct
  row {w r} hr := by
    simp only [Nonce.consume, Table.get_updateWhere, Option.map_eq_some_iff] at hr
    obtain ⟨r₀, hr₀, rfl⟩ := hr
    obtain ⟨hg, hu⟩ := h.row hr₀
    by_cases hc : Nonce.consumable (some v) (nonceCutoff cfg s.now) w r₀ = true
    · rw [if_pos hc]
      simp only [Nonce.consumable, Bool.and_eq_true, decide_eq_true_eq, Option.some.injEq] at hc
      obtain ⟨⟨rfl, hun⟩, hcut⟩ := hc
      refine ⟨List.mem_cons_of_mem _ hg, ⟨fun _ => ⟨s.now, ?_⟩, fun _ => rfl⟩⟩
      have : consumeAccepts cfg s.nonces v s.now = true :=
        consumeAccepts_iff.mpr ⟨r₀, hr₀, by simpa using hun, by unfold nonceCutoff at hcut; omega⟩
      rw [this]
      exact List.mem_cons_self
    · rw [if_neg hc]
      refine ⟨List.mem_cons_of_mem _ hg, ⟨fun hused => ?_, ?_⟩⟩
      · obtain ⟨t', ht'⟩ := hu.mp hused
        exact ⟨t', List.mem_cons_of_mem _ ht'⟩
      · rintro ⟨t', ht'⟩
        rcases List.mem_cons.mp ht' with e | ht'
        · -- an accepted presentation of `w` found this row, which was not consumable
          injection e with e₁ _ e₃
          subst e₁
          obtain ⟨r', hr', hun, hcut⟩ := consumeAccepts_iff.mp e₃.symm
          rw [hr₀] at hr'
          cases Option.some.inj hr'
          refine absurd ?_ hc
          simp only [Nonce.consumable, hun, decide_true, Bool.not_false, Bool.and_true,
            Bool.true_and, decide_eq_true_eq]
          unfold nonceCutoff
          omega
        · exact hu.mpr ⟨t', ht'⟩
  gone {w g} hg hw := by
    simp only [Nonce.consume, Table.get_updateWhere, Option.map_eq_none_iff] at hw
    exact h.gone (List.mem_of_ne_of_mem (by simp) hg) hw
  known {w t'} hw := by
    rcases List.mem_cons.mp hw with e | hw
    · injection e with e₁ _ e₃
      subst e₁
      obtain ⟨r, hr, -, -⟩ := consumeAccepts_iff.mp e₃.symm
      exact ⟨_, List.mem_cons_of_mem _ (h.row hr).1⟩
    · obtain ⟨g, hg⟩ := h.known hw
      exact ⟨g, List.mem_cons_of_mem _ hg⟩

/-- The pruning `DELETE` removes expired rows only. -/
theorem StoreInv.prune {cfg : Settings} {s : NonceStore} (h : StoreInv cfg s) :
    StoreInv cfg { s with
      nonces := Nonce.prune s.nonces (nonceCutoff cfg s.now), log := .pruned s.now :: s.log } where
  distinct := h.distinct
  row {w r} hr := by
    simp only [Nonce.prune, Table.get_deleteWhere, Option.filter_eq_some_iff] at hr
    obtain ⟨hg, hu⟩ := h.row hr.1
    exact ⟨List.mem_cons_of_mem _ hg, hu.trans (by simp)⟩
  gone {w g} hg hw := by
    have hg : .generated w g ∈ s.log := List.mem_of_ne_of_mem (by simp) hg
    cases hr : s.nonces.get w with
    | none => exact h.gone hg hr
    | some r =>
        simp only [Nonce.prune, Table.get_deleteWhere, hr, Option.filter_some] at hw
        have hold : r.createdAt < nonceCutoff cfg s.now := by
          by_contra hlt
          simp [hlt] at hw
        rw [createdAt_unique h.distinct (h.row hr).1 hg] at hold
        unfold nonceCutoff at hold
        show seconds cfg.nonceTtl < s.now - g
        omega
  known {w t'} hw := by
    obtain ⟨g, hg⟩ := h.known (List.mem_of_ne_of_mem (by simp) hw)
    exact ⟨g, List.mem_cons_of_mem _ hg⟩

theorem StoreInv.clock {cfg : Settings} {s : NonceStore} (h : StoreInv cfg s) {t : Int}
    (ht : s.now ≤ t) : StoreInv cfg { s with now := t } where
  distinct := h.distinct
  row := h.row
  gone hg hw := lt_of_lt_of_le (h.gone hg hw) (by show s.now - _ ≤ t - _; omega)
  known := h.known

/-- **Every statement keeps the invariant**, whatever the other sessions do between two
statements of a call: the calls carry no state of their own worth asserting. -/
def storeInvariant (cfg : Settings) : Invariant (nonceMachine cfg) DistinctTokens .empty where
  Inv _ s := StoreInv cfg s
  Ok _ _ _ := True
  start := ⟨List.nodup_nil, fun h => (by cases h), fun h => (by cases h), fun h => (by cases h)⟩
  run {c i t a o} _ _ ho hp hI _ := by
    refine ⟨?_, fun _ _ => trivial, fun _ _ => trivial, fun _ _ _ _ _ => trivial⟩
    cases t with
    | count =>
        cases Option.some.inj ho
        exact hI
    | insert =>
        cases a with
        | token v =>
            obtain ⟨t, ht, rfl⟩ := Option.map_eq_some_iff.mp ho
            exact hI.insert ht hp
        | call k => cases ho
        | clock t => cases ho
    | consume v =>
        cases Option.some.inj ho
        exact hI.consume v
    | prune =>
        cases Option.some.inj ho
        exact hI.prune
  arrive _ _ hI := ⟨hI, trivial⟩
  tick {c a s} _ hs _ hI := by
    refine ⟨?_, fun _ _ _ => trivial⟩
    cases a with
    | clock t =>
        simp only [nonceMachine] at hs
        split at hs
        · cases Option.some.inj hs
          exact hI.clock (by assumption)
        · cases hs
    | token v => cases hs
    | call k => cases hs
  restart _ hs := by cases hs

theorem storeInv_of_reach {cfg : Settings} {c : Config NonceStore NonceCall}
    (h : Reach (nonceMachine cfg) DistinctTokens .empty c) : StoreInv cfg c.shared :=
  ((storeInvariant cfg).reach h).1

/-- Every answer in the history is the one the earlier history prescribes. -/
def Answered (cfg : Settings) : List NonceEvent → Prop
  | [] => True
  | .presented v t ok :: log => (ok = true ↔ Fresh cfg log v t) ∧ Answered cfg log
  | _ :: log => Answered cfg log

theorem Answered.split {cfg : Settings} {v : String} {t : Int} {ok : Bool} {l₁ : List NonceEvent} :
    ∀ l₂ : List NonceEvent, Answered cfg (l₂ ++ .presented v t ok :: l₁) →
      (ok = true ↔ Fresh cfg l₁ v t)
  | [], h => h.1
  | .generated _ _ :: l₂, h => Answered.split l₂ h
  | .presented _ _ _ :: l₂, h => Answered.split l₂ h.2
  | .pruned _ :: l₂, h => Answered.split l₂ h

def answeredInvariant (cfg : Settings) : Invariant (nonceMachine cfg) DistinctTokens .empty where
  Inv _ s := Answered cfg s.log
  Ok _ _ _ := True
  start := trivial
  run {c i t a o} hr _ ho _ hI _ := by
    refine ⟨?_, fun _ _ => trivial, fun _ _ => trivial, fun _ _ _ _ _ => trivial⟩
    cases t with
    | count =>
        cases Option.some.inj ho
        exact hI
    | insert =>
        cases a with
        | token v =>
            obtain ⟨t, ht, rfl⟩ := Option.map_eq_some_iff.mp ho
            exact hI
        | call k => cases ho
        | clock t => cases ho
    | consume v =>
        cases Option.some.inj ho
        exact ⟨(storeInv_of_reach hr).accepts_iff le_rfl, hI⟩
    | prune =>
        cases Option.some.inj ho
        exact hI
  arrive _ _ hI := ⟨hI, trivial⟩
  tick {c a s} _ hs _ hI := by
    refine ⟨?_, fun _ _ _ => trivial⟩
    cases a with
    | clock t =>
        simp only [nonceMachine] at hs
        split at hs
        · cases Option.some.inj hs
          exact hI
        · cases hs
    | token v => cases hs
    | call k => cases hs
  restart _ hs := by cases hs

/-- How often `v` was accepted. -/
def acceptances (log : List NonceEvent) (v : String) : Nat :=
  log.countP fun
    | .presented w _ ok => decide (w = v) && ok
    | _ => false

theorem Answered.acceptances_le_one {cfg : Settings} (v : String) :
    ∀ log : List NonceEvent, Answered cfg log → acceptances log v ≤ 1
  | [], _ => Nat.zero_le 1
  | .generated _ _ :: log, h => Answered.acceptances_le_one v log h
  | .pruned _ :: log, h => Answered.acceptances_le_one v log h
  | .presented w t ok :: log, h => by
      by_cases hw : w = v ∧ ok = true
      · obtain ⟨rfl, rfl⟩ := hw
        -- the earlier history has no acceptance, or this one would not be one
        have hno := (h.1.mp rfl).2
        have hz : acceptances log w = 0 := List.countP_eq_zero.mpr fun e he => by
          cases e with
          | generated _ _ => simp
          | pruned _ => simp
          | presented w' t' ok' =>
              simp only [Bool.and_eq_true, decide_eq_true_eq, not_and, Bool.not_eq_true]
              rintro rfl
              cases ok' with
              | false => rfl
              | true => exact absurd he (hno t')
        have : acceptances (.presented w t true :: log) w = acceptances log w + 1 := by
          simp [acceptances]
        omega
      · have : acceptances (.presented w t ok :: log) v = acceptances log v := by
          unfold acceptances
          rw [List.countP_cons_of_neg]
          simpa using hw
        rw [this]
        exact Answered.acceptances_le_one v log h.2

/-- The history without the prunings. -/
def withoutPrunings (log : List NonceEvent) : List NonceEvent :=
  log.filter fun
    | .pruned _ => false
    | _ => true

theorem fresh_withoutPrunings {cfg : Settings} {log : List NonceEvent} {v : String} {t : Int} :
    Fresh cfg (withoutPrunings log) v t ↔ Fresh cfg log v t := by
  simp [Fresh, withoutPrunings, List.mem_filter]

/-- **The nonce store is exactly single-use.**  In every run of any number of sessions: a
presented nonce was accepted exactly when it had been generated no longer than the time to live
before and not been accepted already; no nonce is accepted twice; and what a store accepts, now
or later, depends on its history only up to the prunings in it. -/
theorem nonce_store_single_use {cfg : Settings} {c : Config NonceStore NonceCall}
    (h : Reach (nonceMachine cfg) DistinctTokens .empty c) :
    (∀ l₂ v t ok l₁, c.shared.log = l₂ ++ .presented v t ok :: l₁ →
      (ok = true ↔ (∃ g, .generated v g ∈ l₁ ∧ t - g ≤ seconds cfg.nonceTtl) ∧
        ∀ t', .presented v t' true ∉ l₁)) ∧
    (∀ v, acceptances c.shared.log v ≤ 1) ∧
    ∀ c', Reach (nonceMachine cfg) DistinctTokens .empty c' →
      withoutPrunings c'.shared.log = withoutPrunings c.shared.log →
      ∀ v t, c.shared.now ≤ t → c'.shared.now ≤ t →
        consumeAccepts cfg c'.shared.nonces v t = consumeAccepts cfg c.shared.nonces v t := by
  have hA := ((answeredInvariant cfg).reach h).1
  refine ⟨fun l₂ v t ok l₁ e => ?_, fun v => Answered.acceptances_le_one v _ hA,
    fun c' h' hlog v t ht ht' => ?_⟩
  · have hA : Answered cfg c.shared.log := hA
    rw [e] at hA
    exact hA.split l₂
  · rw [Bool.eq_iff_iff, (storeInv_of_reach h).accepts_iff ht,
      (storeInv_of_reach h').accepts_iff ht', ← fresh_withoutPrunings, hlog,
      fresh_withoutPrunings]

/-- A run: one nonce generated, accepted, refused when presented again, and pruned. -/
def nonceRun : List (Action NonceInput) :=
  [.arrive (.call .count), .arrive (.call (.consume "n")), .arrive (.call (.consume "n")),
    .arrive (.call .prune), .run 0 (.clock 0), .run 0 (.token "n"), .tick (.clock 5),
    .run 1 (.clock 0), .run 2 (.clock 0), .tick (.clock (seconds 601)), .run 3 (.clock 0)]

theorem nonce_store_single_use_run :
    ∃ c, ((nonceMachine { relayDomain := "relay.test" }).schedule
        (fun _ c' => decide (generatedValues c'.shared.log).Nodup) (.start .empty) nonceRun
          = some c) ∧
      c.shared.log = [.pruned (seconds 601), .presented "n" 5 false, .presented "n" 5 true,
        .generated "n" 0] ∧
      acceptances c.shared.log "n" ≤ 1 := by
  have hrun : ((nonceMachine { relayDomain := "relay.test" }).schedule
      (fun _ c' => decide (generatedValues c'.shared.log).Nodup) (.start .empty) nonceRun).map
        (fun c => c.shared.log) = some [.pruned (seconds 601), .presented "n" 5 false,
          .presented "n" 5 true, .generated "n" 0] := by decide
  obtain ⟨c, hc, hlog⟩ := Option.map_eq_some_iff.mp hrun
  refine ⟨c, hc, hlog, ?_⟩
  have hr := Reach.schedule (P := DistinctTokens)
    (fun {_ c' _} _ _ h => show (generatedValues c'.shared.log).Nodup from of_decide_eq_true h)
    nonceRun .start hc
  exact (nonce_store_single_use hr).2.1 "n"

end Jackdaw
