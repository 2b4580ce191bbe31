import Jackdaw.Support.JsonText
import Mathlib.Data.List.Lex

/-!
# Support — the order of members

`json.dumps(x, sort_keys=True)`: the text of a value whose objects have their members sorted by name.

* `Reordered`: equal up to the order of members, at every level.
* `sorted_eq_iff`: sorting picks one value of each such class.
* `dumps_eq_iff`: so two values without surrogate pairs have one text exactly where they differ in the
  order of members only.
* `dumps_eq_iff_joined`: and any two, where their sorted forms have the same pairs joined.
-/

namespace Support.JsonText

/-- Members by name, in the order of `sorted`. -/
def sortMembers (ms : List (List Nat × Value)) : List (List Nat × Value) :=
  ms.insertionSort fun a b => a.1 ≤ b.1

/-- The value with the members of its objects sorted. -/
def sorted : Value → Value := Value.rebuild id sortMembers

/-- `json.dumps(x, sort_keys=True, separators=(",", ":"))` -/
def dumps (v : Value) : List Char := compact (sorted v)

/-- **Equal up to the order of members**, at every level: the least equivalence that has
permutations of members and is kept inside arrays and objects. -/
inductive Reordered : Value → Value → Prop where
  | refl (v : Value) : Reordered v v
  | symm {a b : Value} (h : Reordered a b) : Reordered b a
  | trans {a b c : Value} (h : Reordered a b) (h' : Reordered b c) : Reordered a c
  | perm {ms ms' : List (List Nat × Value)} (h : ms.Perm ms') : Reordered (.obj ms) (.obj ms')
  | element (xs ys : List Value) {a b : Value} (h : Reordered a b) :
      Reordered (.arr (xs ++ a :: ys)) (.arr (xs ++ b :: ys))
  | member (ms ms' : List (List Nat × Value)) (k : List Nat) {a b : Value} (h : Reordered a b) :
      Reordered (.obj (ms ++ (k, a) :: ms')) (.obj (ms ++ (k, b) :: ms'))

theorem sorted_arr (xs : List Value) : sorted (.arr xs) = .arr (xs.map sorted) :=
  Value.rebuild_arr ..

theorem sorted_obj (ms : List (List Nat × Value)) :
    sorted (.obj ms) = .obj (sortMembers (ms.map fun m => (m.1, sorted m.2))) :=
  Value.rebuild_obj ..

/-! ### Sorted members -/

section Members

variable {ms ms' : List (List Nat × Value)}

theorem sortMembers_perm (ms : List (List Nat × Value)) : (sortMembers ms).Perm ms :=
  List.perm_insertionSort _ ms

/-- Members with different names have one order. -/
theorem sortMembers_eq_of_perm (hp : ms.Perm ms') (hnodup : (ms.map Prod.fst).Nodup) :
    sortMembers ms = sortMembers ms' := by
  let byName : List Nat × Value → List Nat × Value → Prop := fun a b => a.1 ≤ b.1
  have : Std.Total byName := ⟨fun a b => le_total a.1 b.1⟩
  have : IsTrans (List Nat × Value) byName := ⟨fun _ _ _ h h' => le_trans h h'⟩
  have hsorted : ∀ l, (sortMembers l).Pairwise byName := fun l =>
    List.pairwise_insertionSort byName l
  refine List.Perm.eq_of_pairwise ?_ (hsorted ms) (hsorted ms')
    ((sortMembers_perm ms).trans (hp.trans (sortMembers_perm ms').symm))
  intro a b ha hb hab hba
  have ha := (sortMembers_perm ms).mem_iff.mp ha
  have hb := hp.mem_iff.mpr ((sortMembers_perm ms').mem_iff.mp hb)
  exact List.inj_on_of_nodup_map hnodup ha hb (le_antisymm hab hba)

end Members

/-! ### Classes of values -/

/-- Elements may be replaced all at once. -/
theorem reordered_elements {f : Value → Value} (xs ys : List Value)
    (h : ∀ y ∈ ys, Reordered y (f y)) : Reordered (.arr (xs ++ ys)) (.arr (xs ++ ys.map f)) := by
  induction ys generalizing xs with
  | nil => exact .refl _
  | cons y ys ih =>
    obtain ⟨hy, hys⟩ := List.forall_mem_cons.mp h
    have hrest := ih (xs ++ [f y]) hys
    rw [List.append_assoc, List.append_assoc] at hrest
    exact (Reordered.element xs ys hy).trans hrest

theorem reordered_members {f : Value → Value} (ms ms' : List (List Nat × Value))
    (h : ∀ m ∈ ms', Reordered m.2 (f m.2)) :
    Reordered (.obj (ms ++ ms')) (.obj (ms ++ ms'.map fun m => (m.1, f m.2))) := by
  induction ms' generalizing ms with
  | nil => exact .refl _
  | cons m ms' ih =>
    obtain ⟨hm, hms⟩ := List.forall_mem_cons.mp h
    have hrest := ih (ms ++ [(m.1, f m.2)]) hms
    rw [List.append_assoc, List.append_assoc] at hrest
    exact (Reordered.member ms ms' m.1 hm).trans hrest

theorem reordered_sorted (v : Value) : Reordered v (sorted v) := by
  induction v using Value.induct with
  | null | bool _ | int _ | str _ => exact .refl _
  | arr xs ih =>
    rw [sorted_arr]
    exact reordered_elements [] xs ih
  | obj ms ih =>
    rw [sorted_obj]
    exact (reordered_members [] ms ih).trans (.perm (sortMembers_perm _).symm)

theorem Value.Valid.sorted {P : List Nat → Prop} {v : Value} (hv : v.Valid P) :
    (sorted v).Valid P := by
  induction hv with
  | null => exact .null
  | bool b => exact .bool b
  | int n => exact .int n
  | str hps => exact .str hps
  | arr _ ih =>
    rw [sorted_arr]
    exact .arr (List.forall_mem_map.mpr ih)
  | @obj ms hnodup hnames _ ih =>
    rw [sorted_obj]
    have hperm := sortMembers_perm (ms.map fun m => (m.1, JsonText.sorted m.2))
    have hall : ∀ m ∈ ms.map fun m => (m.1, JsonText.sorted m.2), P m.1 ∧ m.2.Valid P :=
      List.forall_mem_map.mpr fun m hm => ⟨hnames m hm, ih m hm⟩
    refine .obj ?_ (fun m hm => (hall m (hperm.mem_iff.mp hm)).1) fun m hm =>
      (hall m (hperm.mem_iff.mp hm)).2
    rw [(hperm.map Prod.fst).nodup_iff, List.map_map]
    exact hnodup

/-- The names of an object, and what its values satisfy, are those of its class. -/
theorem Reordered.valid_iff {P : List Nat → Prop} {a b : Value} (h : Reordered a b) :
    a.Valid P ↔ b.Valid P := by
  induction h with
  | refl v => exact Iff.rfl
  | symm _ ih => exact ih.symm
  | trans _ _ ih ih' => exact ih.trans ih'
  | perm hp =>
    rw [Value.valid_obj, Value.valid_obj, (hp.map Prod.fst).nodup_iff]
    simp only [hp.mem_iff]
  | element xs ys _ ih => simp only [Value.valid_arr, List.forall_mem_append, List.forall_mem_cons, ih]
  | member ms ms' k _ ih =>
    simp only [Value.valid_obj, List.forall_mem_append, List.forall_mem_cons, List.map_append,
      List.map_cons, ih]

/-- **One sorted form a class.** -/
theorem Reordered.sorted_eq {P : List Nat → Prop} {a b : Value} (h : Reordered a b)
    (ha : a.Valid P) : sorted a = sorted b := by
  induction h with
  | refl v => rfl
  | symm h ih => exact (ih (h.valid_iff.mpr ha)).symm
  | trans h _ ih ih' => exact (ih ha).trans (ih' (h.valid_iff.mp ha))
  | @perm ms ms' hp =>
    obtain ⟨hnodup, -, -⟩ := Value.valid_obj.mp ha
    rw [sorted_obj, sorted_obj, sortMembers_eq_of_perm (hp.map _)]
    rw [List.map_map]
    exact hnodup
  | @element xs ys a b _ ih =>
    have hxs := Value.valid_arr.mp ha
    rw [sorted_arr, sorted_arr, List.map_append, List.map_append, List.map_cons, List.map_cons,
      ih (hxs a (by simp))]
  | @member ms ms' k a b _ ih =>
    obtain ⟨-, -, hvalues⟩ := Value.valid_obj.mp ha
    rw [sorted_obj, sorted_obj, List.map_append, List.map_append, List.map_cons, List.map_cons,
      ih (hvalues (k, a) (by simp))]

theorem sorted_eq_iff {P : List Nat → Prop} {a b : Value} (ha : a.Valid P) :
    sorted a = sorted b ↔ Reordered a b := by
  refine ⟨fun h => ?_, fun h => h.sorted_eq ha⟩
  have hb := reordered_sorted b
  rw [← h] at hb
  exact (reordered_sorted a).trans hb.symm

/-! ### Texts -/

theorem dumps_eq_iff_joined {a b : Value} (ha : a.Valid Points) (hb : b.Valid Points) :
    dumps a = dumps b ↔ joined (sorted a) = joined (sorted b) := compact_eq_iff ha.sorted hb.sorted

/-- **A complete invariant**: without surrogate pairs, the text is the class. -/
theorem dumps_eq_iff {a b : Value} (ha : a.Valid Text) (hb : b.Valid Text) :
    dumps a = dumps b ↔ Reordered a b := by
  rw [dumps_eq_iff_joined (ha.mono fun _ h => h.1) (hb.mono fun _ h => h.1),
    joined_of_valid ha.sorted, joined_of_valid hb.sorted, sorted_eq_iff ha]

theorem loads_dumps {v : Value} (hv : v.Valid Text) : loads (dumps v) = some (sorted v) :=
  loads_compact hv.sorted

/-- The text of a member whose value is a text already. -/
def memberText (m : List Nat × List Char) : List Char := quote m.1 ++ ':' :: m.2

theorem compactElements_eq (xs : List Value) :
    compactElements xs =
      (xs.map fun x => ',' :: compact x).flatten ++ [']'] := by
  induction xs with
  | nil => rfl
  | cons x xs ih => simp [compactElements, ih]

theorem compactMembers_eq (ms : List (List Nat × Value)) :
    compactMembers ms =
      (ms.map fun m => ',' :: memberText (m.1, compact m.2)).flatten ++ ['\x7d'] := by
  induction ms with
  | nil => rfl
  | cons m ms ih => simp [compactMembers, memberText, ih]

theorem intercalate_cons (x : List Char) (xs : List (List Char)) :
    [','].intercalate (x :: xs) = x ++ (xs.map fun y => ',' :: y).flatten := by
  induction xs generalizing x with
  | nil => simp
  | cons y xs ih => simp [List.intercalate_cons_cons, ih]

theorem compact_arr (xs : List Value) :
    compact (.arr xs) = '[' :: ([','].intercalate (xs.map compact) ++ [']']) := by
  cases xs with
  | nil => rfl
  | cons x xs =>
    rw [compact, compactElements_eq, List.map_cons, intercalate_cons, List.map_map,
      List.append_assoc]
    rfl

theorem compact_obj (ms : List (List Nat × Value)) :
    compact (.obj ms) = '\x7b' ::
      ([','].intercalate (ms.map fun m => memberText (m.1, compact m.2)) ++ ['\x7d']) := by
  rcases ms with _ | ⟨⟨k, x⟩, ms⟩
  · rfl
  rw [compact, compactMembers_eq, List.map_cons, intercalate_cons, List.map_map,
    memberText]
  simp [Function.comp_def]


end Support.JsonText

namespace Support.Json

open JsonText (Value)

/-- The code points of a text. -/
def points (s : String) : List Nat := s.toList.map Char.toNat

mutual

/-- A decoded value by its code points; a float has none. -/
def toValue : Json → Option Value
  | null => some .null
  | bool b => some (.bool b)
  | int n => some (.int n)
  | float _ => none
  | str s => some (.str (points s))
  | rawStr ps => some (.str ps)
  | arr xs => (toValues xs).map .arr
  | obj ms => (toMembers ms).map .obj

def toValues : List Json → Option (List Value)
  | [] => some []
  | x :: xs => (toValue x).bind fun v => (toValues xs).map fun vs => v :: vs

def toMembers : List (String × Json) → Option (List (List Nat × Value))
  | [] => some []
  | (k, x) :: ms => (toValue x).bind fun v => (toMembers ms).map fun vs => (points k, v) :: vs

end

theorem text_points (s : String) : JsonText.Text (points s) := by
  have hvalid : ∀ c : Char, c.toNat < 0xd800 ∨ 0xdfff < c.toNat ∧ c.toNat < 0x110000 :=
    fun c => c.valid
  refine ⟨fun p hp => ?_, List.Pairwise.isChain ?_⟩
  · obtain ⟨c, _, rfl⟩ := List.mem_map.mp hp
    exact JsonText.toNat_lt c
  · rw [points, List.pairwise_map]
    refine List.pairwise_of_forall fun c d hpair => ?_
    have := JsonText.isHigh_iff.mp hpair.1
    have := hvalid c
    omega

/-! ### Names in order -/

theorem strictMono_map {f : Char → Nat} (hf : StrictMono f) : StrictMono (List.map f) := by
  intro l l' h
  replace h : List.Lex (· < ·) l l' := h
  show List.Lex (· < ·) (l.map f) (l'.map f)
  induction h with
  | nil => exact .nil
  | cons _ ih => exact .cons ih
  | rel h => exact .rel (hf h)

/-- Texts are ordered as their code points are. -/
theorem points_le {s t : String} : points s ≤ points t ↔ s ≤ t := by
  rw [String.le_iff_toList_le]
  exact (strictMono_map fun _ _ h => h).le_iff_le

/-! ### Texts -/

theorem escapePoint_toNat (c : Char) : escapePoint c.toNat = escapeChar c := by
  have hscalar : ¬ (0xd800 ≤ c.toNat ∧ c.toNat ≤ 0xdfff) := by
    have hvalid : c.toNat < 0xd800 ∨ 0xdfff < c.toNat ∧ c.toNat < 0x110000 := c.valid
    omega
  rw [escapePoint, if_neg (by simpa using hscalar), Char.ofNat_toNat]

theorem dumpsString_toList (s : String) : (dumpsString s).toList = JsonText.quote (points s) := by
  have hescape : escapeChar = fun c => escapePoint c.toNat :=
    funext fun c => (escapePoint_toNat c).symm
  rw [dumpsString, String.toList_ofList, JsonText.quote, points, List.flatMap_map, hescape]
  rfl

/-- Members whose names are written alike are sorted alike. -/
theorem map_sortMembers {ms : List (String × String)} (vs : List (List Nat × Value))
    (h : ms.map (fun m => (points m.1, m.2.toList)) = vs.map fun m => (m.1, JsonText.compact m.2)) :
    (sortMembers ms).map (fun m => (points m.1, m.2.toList)) =
      (JsonText.sortMembers vs).map fun m => (m.1, JsonText.compact m.2) := by
  let byName : List Nat × List Char → List Nat × List Char → Prop := fun a b => a.1 ≤ b.1
  rw [sortMembers, List.map_insertionSort _ byName, h, JsonText.sortMembers,
    List.map_insertionSort _ byName]
  · exact fun _ _ _ _ => Iff.rfl
  · exact fun a _ b _ => points_le.symm

mutual

/-- **The two models agree**: `dumps` of a decoded value is the text of its code points. -/
theorem dumps_toValue : ∀ {j : Json} {v : Value}, j.toValue = some v →
    j.dumps.toList = JsonText.dumps v := by
  intro j v h
  cases j with
  | null =>
    obtain rfl := Option.some.inj h
    rfl
  | bool b =>
    obtain rfl := Option.some.inj h
    cases b <;> rfl
  | int n =>
    obtain rfl := Option.some.inj h
    rfl
  | float r => cases h
  | str s =>
    obtain rfl := Option.some.inj h
    exact dumpsString_toList s
  | rawStr ps =>
    obtain rfl := Option.some.inj h
    rw [dumps, String.toList_ofList]
    rfl
  | arr xs =>
    obtain ⟨vs, hvs, rfl⟩ := Option.map_eq_some_iff.mp h
    rw [dumps, JsonText.dumps, JsonText.sorted_arr, JsonText.compact_arr, List.map_map]
    simp only [String.toList_append, String.toList_intercalate, dumpsAll_toValues hvs]
    rfl
  | obj ms =>
    obtain ⟨vs, hvs, rfl⟩ := Option.map_eq_some_iff.mp h
    have hmembers := dumpsMembers_toMembers hvs
    have hsorted := map_sortMembers (vs.map fun m => (m.1, JsonText.sorted m.2))
      (by rw [hmembers, List.map_map]; rfl)
    have htexts := congrArg (List.map JsonText.memberText) hsorted
    rw [List.map_map, List.map_map] at htexts
    rw [dumps, JsonText.dumps, JsonText.sorted_obj, JsonText.compact_obj]
    have hmember : (String.toList ∘ fun m : String × String => dumpsString m.1 ++ ":" ++ m.2) =
        JsonText.memberText ∘ fun m => (points m.1, m.2.toList) := by
      funext m
      simp only [Function.comp_apply, String.toList_append, dumpsString_toList, List.append_assoc]
      rfl
    simp only [String.toList_append, String.toList_intercalate, List.map_map, hmember, htexts]
    rfl

theorem dumpsAll_toValues : ∀ {xs : List Json} {vs : List Value}, toValues xs = some vs →
    (dumpsAll xs).map String.toList = vs.map JsonText.dumps := by
  intro xs vs h
  cases xs with
  | nil =>
    obtain rfl := Option.some.inj h
    rfl
  | cons x xs =>
    obtain ⟨v, hv, h⟩ := Option.bind_eq_some_iff.mp h
    obtain ⟨vs, hvs, rfl⟩ := Option.map_eq_some_iff.mp h
    rw [dumpsAll, List.map_cons, List.map_cons, dumps_toValue hv, dumpsAll_toValues hvs]

theorem dumpsMembers_toMembers : ∀ {ms : List (String × Json)} {vs : List (List Nat × Value)},
    toMembers ms = some vs → (dumpsMembers ms).map (fun m => (points m.1, m.2.toList)) =
      vs.map fun m => (m.1, JsonText.dumps m.2) := by
  intro ms vs h
  cases ms with
  | nil =>
    obtain rfl := Option.some.inj h
    rfl
  | cons m ms =>
    obtain ⟨k, x⟩ := m
    obtain ⟨v, hv, h⟩ := Option.bind_eq_some_iff.mp h
    obtain ⟨vs, hvs, rfl⟩ := Option.map_eq_some_iff.mp h
    rw [dumpsMembers, List.map_cons, List.map_cons, dumps_toValue hv, dumpsMembers_toMembers hvs]

end

end Support.Json
