import Mathlib.Data.List.DropRight
import Mathlib.Data.List.Infix

/-!
# Support — Text

Python's `str` methods on Lean strings, by way of the list of characters, so that they compute
by structural recursion.
-/

namespace Support.Text

/-- `s.startswith(p)`. -/
def startsWith (s p : String) : Bool := p.toList.isPrefixOf s.toList

/-- `s.endswith(p)`. -/
def endsWith (s p : String) : Bool := p.toList.isSuffixOf s.toList

/-- `p in s`. -/
def contains (s p : String) : Bool := s.toList.tails.any fun t => p.toList.isPrefixOf t

/-- `s[n:]`. -/
def drop (s : String) (n : Nat) : String := String.ofList (s.toList.drop n)

/-- `s.rstrip(c)`, for one character. -/
def rstripChar (s : String) (c : Char) : String :=
  String.ofList (s.toList.rdropWhile (· = c))

/-- `s.removesuffix(p)`. -/
def removeSuffix (s p : String) : String :=
  if endsWith s p then String.ofList (s.toList.take (s.toList.length - p.toList.length)) else s

/-- The characters `str.isspace` accepts. -/
def isSpace (c : Char) : Bool :=
  c.toNat ∈ [0x20, 0x85, 0xa0, 0x1680, 0x2028, 0x2029, 0x202f, 0x205f, 0x3000] ||
    (0x09 ≤ c.toNat && c.toNat ≤ 0x0d) || (0x1c ≤ c.toNat && c.toNat ≤ 0x1f) ||
    (0x2000 ≤ c.toNat && c.toNat ≤ 0x200a)

/-- `s.strip()`. -/
def strip (s : String) : String :=
  String.ofList ((s.toList.dropWhile isSpace).rdropWhile isSpace)

/-- `s.split(c)`, as lists of characters. -/
def splitChars (c : Char) : List Char → List (List Char)
  | [] => [[]]
  | x :: xs =>
      if x = c then [] :: splitChars c xs
      else match splitChars c xs with
        | [] => [[x]]
        | w :: ws => (x :: w) :: ws

/-- `s.split(c)`. -/
def split (s : String) (c : Char) : List String := (splitChars c s.toList).map String.ofList

/-- A text contains the one-character text of each of its characters. -/
theorem contains_singleton_iff {s p : String} {c : Char} (hp : p.toList = [c]) :
    contains s p = true ↔ c ∈ s.toList := by
  rw [contains, hp, List.any_eq_true]
  constructor
  · rintro ⟨t, ht, hpre⟩
    obtain ⟨rest, rfl⟩ := List.isPrefixOf_iff_prefix.mp hpre
    exact ((List.mem_tails _ _).mp ht).subset List.mem_cons_self
  · intro hc
    obtain ⟨front, back, hs⟩ := List.append_of_mem hc
    refine ⟨c :: back, ?_, List.isPrefixOf_iff_prefix.mpr (List.prefix_append [c] back)⟩
    rw [List.mem_tails, hs]
    exact List.suffix_append _ _

theorem rstripChar_eq_self {s : String} {c : Char} (h : s.toList.getLast? ≠ some c) :
    rstripChar s c = s := by
  have hself : s.toList.rdropWhile (fun x => decide (x = c)) = s.toList := by
    rw [List.rdropWhile_eq_self_iff]
    intro hne hlast
    rw [List.getLast?_eq_some_getLast hne, of_decide_eq_true hlast] at h
    exact h rfl
  rw [rstripChar, hself, String.ofList_toList]

/-- One character at the end is stripped, and what stands before it where that ends otherwise. -/
theorem rstripChar_append {s p : String} {c : Char} (hp : p.toList = [c])
    (h : s.toList.getLast? ≠ some c) : rstripChar (s ++ p) c = s := by
  have hsnoc : (s ++ p).toList = s.toList ++ [c] := by rw [String.toList_append, hp]
  rw [rstripChar, hsnoc, List.rdropWhile_concat, if_pos (decide_eq_true rfl)]
  exact rstripChar_eq_self h

theorem rstripChar_eq_empty_iff {s : String} {c : Char} :
    rstripChar s c = "" ↔ ∀ x ∈ s.toList, x = c := by
  rw [← String.toList_eq_nil_iff, rstripChar, String.toList_ofList, List.rdropWhile_eq_nil_iff]
  simp

theorem getLast?_rstripChar (s : String) (c : Char) :
    (rstripChar s c).toList.getLast? ≠ some c := by
  rw [rstripChar, String.toList_ofList]
  intro h
  have hne : s.toList.rdropWhile (fun x => decide (x = c)) ≠ [] := by
    rintro hnil
    rw [hnil] at h
    cases h
  rw [List.getLast?_eq_some_getLast hne, Option.some.injEq] at h
  exact List.rdropWhile_last_not _ _ hne (decide_eq_true h)

theorem splitChars_eq_splitOn (c : Char) : ∀ cs : List Char, splitChars c cs = cs.splitOn c
  | [] => rfl
  | x :: xs => by
      rw [splitChars, List.splitOn_cons_eq_if_modifyHead, splitChars_eq_splitOn c xs]
      by_cases hx : x = c
      · simp [hx]
      · rw [if_neg hx, if_neg (by simpa using hx)]
        cases h : xs.splitOn c with
        | nil => exact absurd h (List.splitOn_ne_nil c xs)
        | cons w ws => rfl

/-- What is not a separator is in one of the parts. -/
theorem mem_splitChars {c sep : Char} (hne : c ≠ sep) :
    ∀ {cs : List Char}, c ∈ cs → ∃ w ∈ splitChars sep cs, c ∈ w
  | x :: xs, h => by
      rw [splitChars]
      by_cases hx : x = sep
      · rw [if_pos hx]
        obtain ⟨w, hw, hc⟩ := mem_splitChars hne ((List.mem_cons.mp h).resolve_left (hx ▸ hne))
        exact ⟨w, List.mem_cons_of_mem _ hw, hc⟩
      · rw [if_neg hx]
        rcases List.mem_cons.mp h with rfl | h
        · cases splitChars sep xs with
          | nil => exact ⟨[c], List.mem_singleton_self _, List.mem_singleton_self _⟩
          | cons w ws => exact ⟨c :: w, List.mem_cons_self, List.mem_cons_self⟩
        · obtain ⟨w, hw, hc⟩ := mem_splitChars hne h
          cases hsplit : splitChars sep xs with
          | nil =>
              rw [hsplit] at hw
              cases hw
          | cons v vs =>
              rw [hsplit] at hw
              rcases List.mem_cons.mp hw with rfl | hw
              · exact ⟨x :: w, List.mem_cons_self, List.mem_cons_of_mem _ hc⟩
              · exact ⟨w, List.mem_cons_of_mem _ hw, hc⟩

/-- Without a separator there is one part. -/
theorem splitChars_of_not_mem {sep : Char} {cs : List Char} (h : sep ∉ cs) :
    splitChars sep cs = [cs] := by
  rw [splitChars_eq_splitOn, List.splitOn_eq_singleton h]

/-- No part has a separator. -/
theorem not_mem_of_mem_splitChars {sep : Char} :
    ∀ {cs w : List Char}, w ∈ splitChars sep cs → sep ∉ w
  | [], w, h => by
      rw [List.mem_singleton.mp h]
      exact List.not_mem_nil
  | x :: xs, w, h => by
      rw [splitChars] at h
      split at h
      · rcases List.mem_cons.mp h with rfl | h
        · exact List.not_mem_nil
        · exact not_mem_of_mem_splitChars h
      · next hx =>
          split at h
          · rw [List.mem_singleton.mp h, List.mem_singleton]
            exact Ne.symm hx
          · next v vs hsplit =>
              rcases List.mem_cons.mp h with rfl | h
              · rw [List.mem_cons, not_or]
                exact ⟨Ne.symm hx, not_mem_of_mem_splitChars (hsplit ▸ List.mem_cons_self)⟩
              · exact not_mem_of_mem_splitChars (hsplit ▸ List.mem_cons_of_mem _ h)

/-- `c.join(ws)`, for one character. -/
def join (c : Char) (ws : List String) : String :=
  String.ofList ([c].intercalate (ws.map String.toList))

theorem map_toList_split (s : String) (c : Char) :
    (split s c).map String.toList = splitChars c s.toList := by
  simp [split, Function.comp_def]

@[simp] theorem join_split (s : String) (c : Char) : join c (split s c) = s := by
  rw [join, map_toList_split, splitChars_eq_splitOn, List.intercalate_splitOn, String.ofList_toList]

theorem split_injective (c : Char) {s t : String} (h : split s c = split t c) : s = t := by
  rw [← join_split s c, h, join_split]

/-- A join without separators in its parts is split into them. -/
theorem split_join {c : Char} {ws : List String} (hws : ws ≠ []) (h : ∀ w ∈ ws, c ∉ w.toList) :
    split (join c ws) c = ws := by
  have hparts : ∀ l ∈ ws.map String.toList, c ∉ l := by
    intro l hl
    obtain ⟨w, hw, rfl⟩ := List.mem_map.mp hl
    exact h w hw
  rw [split, join, String.toList_ofList, splitChars_eq_splitOn,
    List.splitOn_intercalate c hparts (by simpa using hws), List.map_map]
  conv_rhs => rw [← List.map_id ws]
  exact List.map_congr_left fun w _ => String.ofList_toList

theorem not_mem_of_mem_split {s w : String} {c : Char} (h : w ∈ split s c) : c ∉ w.toList := by
  obtain ⟨l, hl, rfl⟩ := List.mem_map.mp h
  rw [String.toList_ofList]
  exact not_mem_of_mem_splitChars hl

theorem split_ne_nil (s : String) (c : Char) : split s c ≠ [] := by
  rw [split, splitChars_eq_splitOn]
  simp

theorem split_append {s t u : String} {c : Char} (h : u.toList = s.toList ++ c :: t.toList) :
    split u c = split s c ++ split t c := by
  simp only [split, splitChars_eq_splitOn, h, List.splitOn_append_cons_self, List.map_append]

/-- A join is split into the parts of its parts. -/
theorem split_join_flatMap {c : Char} {ws : List String} (hws : ws ≠ []) :
    split (join c ws) c = ws.flatMap (split · c) := by
  induction ws with
  | nil => exact absurd rfl hws
  | cons w ws ih =>
      by_cases hnil : ws = []
      · subst hnil
        rw [List.flatMap_singleton, join, List.map_singleton, List.intercalate_singleton,
          String.ofList_toList]
      · have hlist : (join c (w :: ws)).toList = w.toList ++ c :: (join c ws).toList := by
          rw [join, String.toList_ofList, join, String.toList_ofList, List.map_cons,
            List.intercalate_cons_of_ne_nil (by simpa using hnil), List.append_assoc,
            List.singleton_append]
        rw [split_append hlist, ih hnil, List.flatMap_cons]

/-- Without a separator a text is its only part. -/
theorem split_of_not_mem {s : String} {c : Char} (h : c ∉ s.toList) : split s c = [s] := by
  rw [split, splitChars_of_not_mem h, List.map_singleton, String.ofList_toList]

/-- What stands in front of the first separator, and what stands behind it. -/
theorem append_cons_inj {c : Char} {as bs xs ys : List Char} (ha : c ∉ as) (hb : c ∉ bs)
    (h : as ++ c :: xs = bs ++ c :: ys) : as = bs ∧ xs = ys := by
  induction as generalizing bs with
  | nil =>
      cases bs with
      | nil => exact ⟨rfl, (List.cons.inj h).2⟩
      | cons b bs => exact absurd ((List.cons.inj h).1 ▸ List.mem_cons_self) hb
  | cons a as ih =>
      cases bs with
      | nil => exact absurd ((List.cons.inj h).1 ▸ List.mem_cons_self) ha
      | cons b bs =>
          obtain ⟨rfl, hrest⟩ := List.cons.inj h
          obtain ⟨rfl, hys⟩ := ih (List.not_mem_of_not_mem_cons ha) (List.not_mem_of_not_mem_cons hb) hrest
          exact ⟨rfl, hys⟩

/-- **The parts of a text end with those of another** exactly if it is the text, or ends with it
behind a separator. -/
theorem split_suffix_iff {s t : String} {c : Char} : split t c <:+ split s c ↔
    s = t ∨ ∃ p : String, s.toList = p.toList ++ c :: t.toList := by
  constructor
  · rintro ⟨ws, hws⟩
    by_cases hnil : ws = []
    · rw [hnil, List.nil_append] at hws
      exact .inl (split_injective c hws.symm)
    · have hparts : ∀ w ∈ ws, c ∉ w.toList := fun w hw =>
        not_mem_of_mem_split (hws ▸ List.mem_append_left _ hw)
      have hsame : split (String.ofList ((join c ws).toList ++ c :: t.toList)) c = split s c := by
        rw [split_append String.toList_ofList, split_join hnil hparts, hws]
      refine .inr ⟨join c ws, ?_⟩
      rw [← split_injective c hsame, String.toList_ofList]
  · rintro (rfl | ⟨p, hp⟩)
    · exact List.suffix_refl _
    · rw [split_append hp]
      exact List.suffix_append _ _

theorem endsWith_iff {s p : String} :
    endsWith s p = true ↔ ∃ q : String, s.toList = q.toList ++ p.toList := by
  rw [endsWith, List.isSuffixOf_iff_suffix]
  constructor
  · rintro ⟨q, hq⟩
    exact ⟨String.ofList q, by rw [String.toList_ofList, hq]⟩
  · rintro ⟨q, hq⟩
    exact ⟨q.toList, hq.symm⟩

theorem removeSuffix_append (s p : String) : removeSuffix (s ++ p) p = s := by
  have hends : endsWith (s ++ p) p = true := by simp [endsWith]
  rw [removeSuffix, if_pos hends]
  simp

/-! ### Stripping -/

theorem toList_strip (s : String) :
    (strip s).toList = (s.toList.dropWhile isSpace).rdropWhile isSpace := by
  simp [strip]

theorem rdropWhile_append_of_pos {α : Type*} {p : α → Bool} {l post : List α}
    (h : ∀ c ∈ post, p c = true) : (l ++ post).rdropWhile p = l.rdropWhile p := by
  rw [List.rdropWhile, List.reverse_append,
    List.dropWhile_append_of_pos fun c hc => h c (List.mem_reverse.mp hc), List.rdropWhile]

/-- Whitespace around a text is stripped with its own. -/
theorem strip_surrounded {s t : String} {pre post : List Char}
    (hs : s.toList = pre ++ t.toList ++ post) (hpre : ∀ c ∈ pre, isSpace c = true)
    (hpost : ∀ c ∈ post, isSpace c = true) : strip s = strip t := by
  apply String.toList_injective
  rw [toList_strip, toList_strip, hs, List.append_assoc, List.dropWhile_append_of_pos hpre,
    List.dropWhile_append]
  split
  · next h =>
      rw [List.isEmpty_iff.mp h, List.dropWhile_eq_nil_iff.mpr hpost]
  · exact rdropWhile_append_of_pos hpost

/-- A text is what is left of it, with whitespace around. -/
theorem strip_decomposes (s : String) : ∃ pre post, s.toList = pre ++ (strip s).toList ++ post ∧
    (∀ c ∈ pre, isSpace c = true) ∧ ∀ c ∈ post, isSpace c = true := by
  refine ⟨s.toList.takeWhile isSpace, (s.toList.dropWhile isSpace).rtakeWhile isSpace, ?_,
    fun c hc => List.mem_takeWhile_imp hc, fun c hc => List.mem_rtakeWhile_imp hc⟩
  rw [toList_strip, List.append_assoc, List.rdropWhile_append_rtakeWhile,
    List.takeWhile_append_dropWhile]

/-- **What strips to a text without whitespace around it.** -/
theorem strip_eq_iff {s t : String} (ht : strip t = t) : strip s = t ↔
    ∃ pre post, s.toList = pre ++ t.toList ++ post ∧ (∀ c ∈ pre, isSpace c = true) ∧
      ∀ c ∈ post, isSpace c = true := by
  constructor
  · rintro rfl
    exact strip_decomposes s
  · rintro ⟨pre, post, hs, hpre, hpost⟩
    rw [strip_surrounded hs hpre hpost, ht]

/-- Only whitespace is lost. -/
theorem mem_strip_of_not_space {s : String} {c : Char} (h : c ∈ s.toList) (hc : isSpace c = false) :
    c ∈ (strip s).toList := by
  obtain ⟨pre, post, hs, hpre, hpost⟩ := strip_decomposes s
  rw [hs, List.mem_append, List.mem_append] at h
  rcases h with (h | h) | h
  · rw [hpre c h] at hc
    cases hc
  · exact h
  · rw [hpost c h] at hc
    cases hc

theorem mem_of_mem_strip {s : String} {c : Char} (h : c ∈ (strip s).toList) : c ∈ s.toList := by
  obtain ⟨pre, post, hs, -, -⟩ := strip_decomposes s
  rw [hs]
  exact List.mem_append_left _ (List.mem_append_right _ h)

/-- Nothing is left of whitespace, and of nothing else. -/
theorem strip_eq_empty_iff {s : String} : strip s = "" ↔ ∀ c ∈ s.toList, isSpace c = true := by
  rw [← String.toList_eq_nil_iff, toList_strip, List.rdropWhile_eq_nil_iff]
  constructor
  · intro h
    by_contra hno
    push Not at hno
    obtain ⟨c, hc, hspace⟩ := hno
    have hmem : c ∈ (strip s).toList := mem_strip_of_not_space hc (by simpa using hspace)
    rw [toList_strip, List.rdropWhile_eq_nil_iff.mpr h] at hmem
    cases hmem
  · intro h c hc
    exact h c (List.dropWhile_subset _ hc)

/-! ### Numerals up to base sixteen -/

theorem digitChar_injective {m n : Nat} (hm : m < 16) (hn : n < 16)
    (h : m.digitChar = n.digitChar) : m = n := by
  have hall : ∀ m < 16, ∀ n < 16, m.digitChar = n.digitChar → m = n := by decide
  exact hall m hm n hn h

/-- A number below `b * b`, in two digits. -/
def pair (b n : Nat) : List Char := [(n / b).digitChar, (n % b).digitChar]

section Digits

variable {b : Nat}

theorem pair_injective (hb : 0 < b) (hb' : b ≤ 16) {m n : Nat} (hm : m < b * b) (hn : n < b * b)
    (h : pair b m = pair b n) : m = n := by
  have hdigit : ∀ k < b * b, k / b < 16 := fun k hk =>
    Nat.lt_of_lt_of_le (Nat.div_lt_of_lt_mul hk) hb'
  have hmod : ∀ k, k % b < 16 := fun k => Nat.lt_of_lt_of_le (Nat.mod_lt k hb) hb'
  have hhigh := digitChar_injective (hdigit m hm) (hdigit n hn) (List.head_eq_of_cons_eq h)
  have hlow := digitChar_injective (hmod m) (hmod n)
    (List.head_eq_of_cons_eq (List.tail_eq_of_cons_eq h))
  rw [← Nat.div_add_mod m b, ← Nat.div_add_mod n b, hhigh, hlow]

/-- Different numbers have different numerals. -/
theorem toDigits_injective (hb : 1 < b) (hb' : b ≤ 16) {m n : Nat}
    (h : Nat.toDigits b m = Nat.toDigits b n) : m = n := by
  have hif : ∀ k, Nat.toDigits b k =
      if k < b then [k.digitChar] else Nat.toDigits b (k / b) ++ [(k % b).digitChar] :=
    fun k => Nat.toDigits_eq_if hb
  -- a numeral of one digit is shorter than any other
  have hlong : ∀ k, [k.digitChar].length <
      (Nat.toDigits b (k / b) ++ [(k % b).digitChar]).length := by
    intro k
    have hpos : 0 < (Nat.toDigits b (k / b)).length := Nat.length_toDigits_pos
    simp only [List.length_singleton, List.length_append]
    omega
  induction m using Nat.strong_induction_on generalizing n with
  | h m ih =>
      rw [hif m, hif n] at h
      by_cases hm : m < b <;> by_cases hn : n < b
      · rw [if_pos hm, if_pos hn] at h
        exact digitChar_injective (by omega) (by omega) (List.head_eq_of_cons_eq h)
      · rw [if_pos hm, if_neg hn] at h
        exact absurd (congrArg List.length h) (hlong n).ne
      · rw [if_neg hm, if_pos hn] at h
        exact absurd (congrArg List.length h) (hlong m).ne'
      · rw [if_neg hm, if_neg hn] at h
        obtain ⟨hinit, hlast⟩ := List.append_inj' h rfl
        have hdiv : m / b = n / b := ih (m / b) (Nat.div_lt_self (by omega) hb) hinit
        have hm' := Nat.mod_lt m (show b > 0 by omega)
        have hn' := Nat.mod_lt n (show b > 0 by omega)
        have hmod : m % b = n % b :=
          digitChar_injective (by omega) (by omega) (List.head_eq_of_cons_eq hlast)
        rw [← Nat.div_add_mod m b, ← Nat.div_add_mod n b, hdiv, hmod]

/-- Different numbers are written differently. -/
theorem toString_injective {m n : Nat} (h : toString m = toString n) : m = n :=
  toDigits_injective (by decide) (by decide) (String.ofList_injective h)

end Digits

end Support.Text
