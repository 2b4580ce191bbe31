import Mathlib.Data.List.Nodup
import Mathlib.Data.List.Basic

/-!
# Support — Tables

A table with a primary key: a list of rows no two of which share a key.  The operations are the
ones a relational store offers on a single table (look-up by key, `INSERT`, conditional `UPDATE`
and `DELETE`, a filtered scan), and each comes with the lemma that says what a look-up by key
sees afterwards, so that nothing above this file reasons about the list of rows.

An `INSERT` under a key that is taken fails (`Table.insert?` is `none`); an `UPDATE` keeps every
key; a `DELETE` keeps the rows it does not match.
-/

namespace Support

/-- Rows of type `R` under pairwise distinct keys of type `K`. -/
structure Table (K R : Type) where
  rows : List (K × R)
  nodup : (rows.map Prod.fst).Nodup

namespace Table

variable {K R : Type} [DecidableEq K]

/-- The table without rows. -/
def empty : Table K R := ⟨[], List.nodup_nil⟩

/-- The table of one row. -/
def single (k : K) (r : R) : Table K R := ⟨[(k, r)], List.nodup_singleton _⟩

/-- `SELECT … WHERE key = k`. -/
def get (t : Table K R) (k : K) : Option R := t.rows.lookup k

/-- `INSERT`, refused under a key that is taken. -/
def insert? (t : Table K R) (k : K) (r : R) : Option (Table K R) :=
  if h : k ∈ t.rows.map Prod.fst then none
  else some ⟨(k, r) :: t.rows, List.nodup_cons.mpr ⟨h, t.nodup⟩⟩

/-- `UPDATE … SET f WHERE p`. -/
def updateWhere (t : Table K R) (p : K → R → Bool) (f : R → R) : Table K R :=
  ⟨t.rows.map fun x => (x.1, if p x.1 x.2 then f x.2 else x.2), by
    simpa only [List.map_map, Function.comp_def] using t.nodup⟩

/-- `UPDATE … SET f WHERE key = k`. -/
def update (t : Table K R) (k : K) (f : R → R) : Table K R :=
  t.updateWhere (fun k' _ => decide (k' = k)) f

/-- `DELETE … WHERE p`. -/
def deleteWhere (t : Table K R) (p : K → R → Bool) : Table K R :=
  ⟨t.rows.filter fun x => !p x.1 x.2,
    t.nodup.sublist (List.filter_sublist.map Prod.fst)⟩

/-- `SELECT … WHERE p`, with the keys. -/
def select (t : Table K R) (p : K → R → Bool) : List (K × R) :=
  t.rows.filter fun x => p x.1 x.2

/-- `SELECT count(*) … WHERE p`. -/
def count (t : Table K R) (p : K → R → Bool) : Nat := (t.select p).length

omit [DecidableEq K] in
theorem length_updateWhere (t : Table K R) (p : K → R → Bool) (f : R → R) :
    (t.updateWhere p f).rows.length = t.rows.length :=
  List.length_map _

omit [DecidableEq K] in
theorem length_deleteWhere_le (t : Table K R) (p : K → R → Bool) :
    (t.deleteWhere p).rows.length ≤ t.rows.length :=
  List.length_filter_le _ _

theorem length_insert? {t t' : Table K R} {k : K} {r : R} (h : t.insert? k r = some t') :
    t'.rows.length = t.rows.length + 1 := by
  unfold insert? at h
  split at h
  · cases h
  · cases Option.some.inj h
    rfl

@[simp] theorem get_empty (k : K) : (empty : Table K R).get k = none := rfl

omit [DecidableEq K] in
/-- Two rows under one key are the same row. -/
theorem row_unique {t : Table K R} {k : K} {r r' : R} (h : (k, r) ∈ t.rows)
    (h' : (k, r') ∈ t.rows) : r = r' := by
  have := List.inj_on_of_nodup_map t.nodup h h' rfl
  exact congrArg Prod.snd this

theorem lookup_mem {k : K} {r : R} : ∀ {l : List (K × R)}, l.lookup k = some r → (k, r) ∈ l
  | [], h => by simp at h
  | (k', r') :: l, h => by
      rw [List.lookup_cons] at h
      by_cases e : k = k'
      · subst e
        simp only [beq_self_eq_true, Option.some.injEq] at h
        simp [h]
      · simp only [beq_eq_false_iff_ne.mpr e] at h
        exact List.mem_cons_of_mem _ (lookup_mem h)

theorem lookup_none {k : K} : ∀ {l : List (K × R)}, l.lookup k = none ↔ k ∉ l.map Prod.fst
  | [] => by simp
  | (k', r') :: l => by
      rw [List.lookup_cons]
      by_cases e : k = k'
      · subst e; simp
      · simp only [beq_eq_false_iff_ne.mpr e, List.map_cons, List.mem_cons, e, false_or]
        exact lookup_none

/-- A look-up finds exactly the row the scan would. -/
theorem get_eq_some_iff {t : Table K R} {k : K} {r : R} :
    t.get k = some r ↔ (k, r) ∈ t.rows := by
  refine ⟨lookup_mem, fun h => ?_⟩
  cases e : t.get k with
  | none =>
      exact absurd (List.mem_map.mpr ⟨(k, r), h, rfl⟩) (lookup_none.mp e)
  | some r' => rw [row_unique (lookup_mem e) h]

theorem mem_select {t : Table K R} {p : K → R → Bool} {k : K} {r : R} :
    (k, r) ∈ t.select p ↔ t.get k = some r ∧ p k r = true := by
  simp only [select, List.mem_filter, get_eq_some_iff]

omit [DecidableEq K] in
theorem nodup_select (t : Table K R) (p : K → R → Bool) : ((t.select p).map Prod.fst).Nodup :=
  t.nodup.sublist (List.filter_sublist.map Prod.fst)

/-- A scan whose matches share one key has at most one row. -/
theorem length_select_le_one {t : Table K R} {p : K → R → Bool}
    (h : ∀ {k k' r r'}, t.get k = some r → p k r = true → t.get k' = some r' → p k' r' = true →
      k = k') : (t.select p).length ≤ 1 := by
  have hnd := t.nodup_select p
  rcases hs : t.select p with _ | ⟨⟨k, r⟩, _ | ⟨⟨k', r'⟩, rest⟩⟩
  · exact Nat.zero_le 1
  · exact Nat.le_refl 1
  · obtain ⟨hk, hp⟩ := mem_select.mp (by rw [hs]; simp : (k, r) ∈ t.select p)
    obtain ⟨hk', hp'⟩ := mem_select.mp (by rw [hs]; simp : (k', r') ∈ t.select p)
    rw [hs, h hk hp hk' hp'] at hnd
    simp at hnd

theorem count_ne_zero {t : Table K R} {p : K → R → Bool} :
    t.count p ≠ 0 ↔ ∃ k r, t.get k = some r ∧ p k r = true := by
  rw [count, ← Nat.pos_iff_ne_zero, List.length_pos_iff_exists_mem]
  constructor
  · rintro ⟨⟨k, r⟩, h⟩
    exact ⟨k, r, mem_select.mp h⟩
  · rintro ⟨k, r, h⟩
    exact ⟨(k, r), mem_select.mpr h⟩

/-- A count is at most another one, plus one for a key that is left out of account. -/
theorem count_le_add_one {t t' : Table K R} {p p' : K → R → Bool} (k₀ : K)
    (h : ∀ {k r}, k ≠ k₀ → t.get k = some r → p k r = true →
      ∃ r', t'.get k = some r' ∧ p' k r' = true) : t.count p ≤ t'.count p' + 1 := by
  have hsub : (t.select p).map Prod.fst ⊆ k₀ :: (t'.select p').map Prod.fst := by
    intro k hk
    obtain ⟨⟨k', r⟩, hmem, rfl⟩ := List.mem_map.mp hk
    obtain ⟨hr, hp⟩ := mem_select.mp hmem
    by_cases hne : k' = k₀
    · exact hne ▸ List.mem_cons_self
    · obtain ⟨r', hr', hp'⟩ := h hne hr hp
      exact List.mem_cons_of_mem k₀ (List.mem_map.mpr ⟨(k', r'), mem_select.mpr ⟨hr', hp'⟩, rfl⟩)
  have hle := List.Nodup.length_le_of_subset (t.nodup_select p) hsub
  simpa only [count, List.length_cons, List.length_map] using hle

/-- A count is at most another one whose matches have all its keys. -/
theorem count_le {t t' : Table K R} {p p' : K → R → Bool}
    (h : ∀ {k r}, t.get k = some r → p k r = true → ∃ r', t'.get k = some r' ∧ p' k r' = true) :
    t.count p ≤ t'.count p' := by
  have hsub : (t.select p).map Prod.fst ⊆ (t'.select p').map Prod.fst := by
    intro k hk
    obtain ⟨⟨k', r⟩, hmem, rfl⟩ := List.mem_map.mp hk
    obtain ⟨hr, hp⟩ := mem_select.mp hmem
    obtain ⟨r', hr', hp'⟩ := h hr hp
    exact List.mem_map.mpr ⟨(k', r'), mem_select.mpr ⟨hr', hp'⟩, rfl⟩
  have hle := List.Nodup.length_le_of_subset (t.nodup_select p) hsub
  simpa only [count, List.length_map] using hle

/-! ### What a look-up sees after a write -/

theorem get_insert? {t t' : Table K R} {k : K} {r : R} (h : t.insert? k r = some t') (k' : K) :
    t'.get k' = if k' = k then some r else t.get k' := by
  unfold insert? at h
  split at h
  · cases h
  · cases Option.some.inj h
    simp only [get, List.lookup_cons]
    by_cases e : k' = k
    · simp [e]
    · simp [e, beq_eq_false_iff_ne.mpr e]

/-- An `INSERT` under a key without a row goes through. -/
theorem exists_insert? {t : Table K R} {k : K} (h : t.get k = none) (r : R) :
    ∃ t', t.insert? k r = some t' :=
  ⟨_, dif_neg (lookup_none.mp h)⟩

/-- The key of a successful `INSERT` was free. -/
theorem get_of_insert? {t t' : Table K R} {k : K} {r : R} (h : t.insert? k r = some t') :
    t.get k = none := by
  unfold insert? at h
  split at h
  · cases h
  · exact lookup_none.mpr (by assumption)

@[simp] theorem get_updateWhere (t : Table K R) (p : K → R → Bool) (f : R → R) (k : K) :
    (t.updateWhere p f).get k = (t.get k).map fun r => if p k r then f r else r := by
  ext r
  simp only [Option.map_eq_some_iff, get_eq_some_iff, updateWhere, List.mem_map, Prod.mk.injEq,
    Prod.exists]
  constructor
  · rintro ⟨a, b, h, rfl, e⟩; exact ⟨b, h, e⟩
  · rintro ⟨b, h, e⟩; exact ⟨k, b, h, rfl, e⟩

/-- An `UPDATE` whose new rows do not match leaves no row that matches. -/
theorem not_of_get_updateWhere {t : Table K R} {p : K → R → Bool} {f : R → R} {k : K} {r : R}
    (h : (t.updateWhere p f).get k = some r) (hf : ∀ r, p k (f r) = false) : p k r = false := by
  rw [get_updateWhere, Option.map_eq_some_iff] at h
  obtain ⟨r₀, -, rfl⟩ := h
  by_cases hp : p k r₀ = true
  · rw [if_pos hp]
    exact hf r₀
  · rw [if_neg hp]
    exact Bool.eq_false_iff.mpr hp

/-- An `UPDATE` that matches no row. -/
theorem updateWhere_eq_self {t : Table K R} {p : K → R → Bool} {f : R → R}
    (h : ∀ k r, t.get k = some r → p k r = false) : t.updateWhere p f = t := by
  obtain ⟨rows, hnodup⟩ := t
  have hrows : (rows.map fun x => (x.1, if p x.1 x.2 then f x.2 else x.2)) = rows := by
    refine (List.map_congr_left fun x hx => ?_).trans (List.map_id rows)
    rw [h x.1 x.2 (get_eq_some_iff.mpr hx), if_neg Bool.false_ne_true]
    rfl
  simp only [updateWhere, hrows]

@[simp] theorem get_update (t : Table K R) (k : K) (f : R → R) (k' : K) :
    (t.update k f).get k' = if k' = k then (t.get k').map f else t.get k' := by
  rw [update, get_updateWhere]
  by_cases e : k' = k
  · simp [e]
  · cases t.get k' <;> simp [e]

@[simp] theorem get_deleteWhere (t : Table K R) (p : K → R → Bool) (k : K) :
    (t.deleteWhere p).get k = (t.get k).filter fun r => !p k r := by
  ext r
  simp only [Option.filter_eq_some_iff, get_eq_some_iff, deleteWhere, List.mem_filter]

end Table

end Support
