import Jackdaw.Support.Text

/-!
# Support — percent-encoding

`urllib.parse.quote(s, safe='')`, and the query strings that are put together from it: a byte of the
UTF-8 encoding stands for itself where it is a letter, a digit or one of `_.-~`, and is written with
two hexadecimal digits where it is not.

* `unquote_quote`: what is written is read back.
* `query_injective`: a query string has its fields, in their order.
* `query_safe`: and no characters but those of the encoding, `=` and `&`.
-/

namespace Support.Percent

/-- The bytes of the UTF-8 encoding. -/
def utf8 (s : String) : List UInt8 := s.toByteArray.data.toList

theorem utf8_injective : Function.Injective utf8 := by
  intro s t h
  exact String.toByteArray_inj.mp (ByteArray.ext (Array.toList_inj.mp h))

/-- The bytes that stand for themselves. -/
def unreserved (b : UInt8) : Bool :=
  (48 ≤ b && b ≤ 57) || (65 ≤ b && b ≤ 90) || (97 ≤ b && b ≤ 122) ||
    b == 95 || b == 46 || b == 45 || b == 126

/-- The character of an ASCII byte. -/
def ascii (b : UInt8) : Char := Char.ofNat b.toNat

/-- An upper-case hexadecimal digit. -/
def hexDigit (n : Nat) : Char := n.digitChar.toUpper

def quoteByte (b : UInt8) : List Char :=
  if unreserved b then [ascii b] else ['%', hexDigit (b.toNat / 16), hexDigit (b.toNat % 16)]

def quoteBytes (bs : List UInt8) : List Char := bs.flatMap quoteByte

def quote (s : String) : String := String.ofList (quoteBytes (utf8 s))

/-! ### Reading it back -/

def hexValue (c : Char) : Option Nat := (List.range 16).find? fun n => hexDigit n == c

def unquoteBytes : List Char → Option (List UInt8)
  | [] => some []
  | '%' :: a :: b :: cs =>
      match hexValue a, hexValue b with
      | some x, some y => (unquoteBytes cs).map (UInt8.ofNat (16 * x + y) :: ·)
      | _, _ => none
  | c :: cs => if unreserved (UInt8.ofNat c.toNat) then
      (unquoteBytes cs).map (UInt8.ofNat c.toNat :: ·) else none

theorem hexValue_hexDigit {n : Nat} (hn : n < 16) : hexValue (hexDigit n) = some n := by
  have hall : ∀ n < 16, hexValue (hexDigit n) = some n := by decide
  exact hall n hn

theorem ascii_toNat (b : UInt8) : UInt8.ofNat (ascii b).toNat = b := by
  have hall : ∀ n < 256, (Char.ofNat n).toNat = n := by decide +kernel
  rw [ascii, hall b.toNat b.toNat_lt, UInt8.ofNat_toNat]

/-- **A byte is read back**, and what follows it after it. -/
theorem unquoteBytes_quoteByte (b : UInt8) (cs : List Char) :
    unquoteBytes (quoteByte b ++ cs) = (unquoteBytes cs).map (b :: ·) := by
  have hb : b.toNat < 256 := b.toNat_lt
  rw [quoteByte]
  split
  · rename_i h
    have hne : ascii b ≠ '%' := by
      intro e
      have hb : b = 37 := by rw [← ascii_toNat b, e]; rfl
      rw [hb] at h
      exact absurd h (by decide)
    rw [List.singleton_append, unquoteBytes, ascii_toNat, if_pos h]
    exact fun _ _ _ e _ => hne e
  · show unquoteBytes ('%' :: hexDigit _ :: hexDigit _ :: cs) = _
    rw [unquoteBytes, hexValue_hexDigit (by omega), hexValue_hexDigit (Nat.mod_lt _ (by decide))]
    show (unquoteBytes cs).map (UInt8.ofNat (16 * (b.toNat / 16) + b.toNat % 16) :: ·) = _
    rw [Nat.div_add_mod, UInt8.ofNat_toNat]

/-- **What is written is read back.** -/
theorem unquote_quote (bs : List UInt8) : unquoteBytes (quoteBytes bs) = some bs := by
  induction bs with
  | nil => rfl
  | cons b bs ih =>
      rw [quoteBytes, List.flatMap_cons, unquoteBytes_quoteByte]
      show (unquoteBytes (quoteBytes bs)).map _ = _
      rw [ih]
      rfl

theorem quote_injective : Function.Injective quote := by
  intro s t h
  have hbytes : quoteBytes (utf8 s) = quoteBytes (utf8 t) := String.ofList_injective h
  have hread := congrArg unquoteBytes hbytes
  rw [unquote_quote, unquote_quote] at hread
  exact utf8_injective (Option.some.inj hread)

/-! ### The characters of an encoding -/

/-- The characters an encoding is made of. -/
def safe (c : Char) : Bool := unreserved (UInt8.ofNat c.toNat) && c.toNat < 128 || c == '%'

theorem safe_quoteByte (b : UInt8) : ∀ c ∈ quoteByte b, safe c = true := by
  have hall : ∀ n < 256, (quoteByte (UInt8.ofNat n)).all safe = true := by decide +kernel
  have hb := hall b.toNat b.toNat_lt
  rw [UInt8.ofNat_toNat] at hb
  exact List.all_eq_true.mp hb

theorem safe_quote {s : String} {c : Char} (h : c ∈ (quote s).toList) : safe c = true := by
  rw [quote, String.toList_ofList, quoteBytes] at h
  obtain ⟨b, -, hc⟩ := List.mem_flatMap.mp h
  exact safe_quoteByte b c hc

theorem not_mem_quote {s : String} {c : Char} (hc : safe c = false) : c ∉ (quote s).toList :=
  fun h => Bool.false_ne_true (hc.symm.trans (safe_quote h))

/-! ### Query strings -/

/-- One field: a name, `=` and a value. -/
def field (p : String × String) : String := Text.join '=' [quote p.1, quote p.2]

/-- The fields, joined with `&`. -/
def query (ps : List (String × String)) : String := Text.join '&' (ps.map field)

theorem field_toList (p : String × String) :
    (field p).toList = (quote p.1).toList ++ '=' :: (quote p.2).toList := by
  simp [field, Text.join]

theorem field_injective : Function.Injective field := by
  intro p q h
  have hsplit : ∀ p : String × String, Text.split (field p) '=' = [quote p.1, quote p.2] := by
    intro p
    refine Text.split_join (List.cons_ne_nil _ _) fun w hw => ?_
    rcases List.mem_pair.mp hw with rfl | rfl <;> exact not_mem_quote (by decide)
  have hparts := congrArg (Text.split · '=') h
  simp only [hsplit, List.cons.injEq, and_true] at hparts
  exact Prod.ext (quote_injective hparts.1) (quote_injective hparts.2)

theorem not_mem_field {p : String × String} {c : Char} (hc : safe c = false) (he : c ≠ '=') :
    c ∉ (field p).toList := by
  rw [field_toList]
  intro h
  rcases List.mem_append.mp h with h | h
  · exact not_mem_quote hc h
  · rcases List.mem_cons.mp h with e | h
    · exact he e
    · exact not_mem_quote hc h

theorem split_query (p : String × String) (ps : List (String × String)) :
    Text.split (query (p :: ps)) '&' = (p :: ps).map field := by
  refine Text.split_join (by simp) fun w hw => ?_
  obtain ⟨q, -, rfl⟩ := List.mem_map.mp hw
  exact not_mem_field (by decide) (by decide)

theorem query_ne_empty {p : String × String} {ps : List (String × String)} :
    query (p :: ps) ≠ query [] := by
  intro h
  have hparts := split_query p ps
  rw [h, List.map_cons] at hparts
  have hfield : "" = field p := List.head_eq_of_cons_eq hparts
  have hlist := field_toList p
  rw [← hfield] at hlist
  exact absurd hlist (by simp)

/-- **A query string has its fields**, in their order. -/
theorem query_injective : Function.Injective query := by
  intro ps qs h
  cases ps with
  | nil =>
      cases qs with
      | nil => rfl
      | cons q qs => exact absurd h.symm query_ne_empty
  | cons p ps =>
      cases qs with
      | nil => exact absurd h query_ne_empty
      | cons q qs =>
          have hparts := congrArg (Text.split · '&') h
          simp only [split_query] at hparts
          exact List.map_injective_iff.mpr field_injective hparts

theorem mem_join {sep c : Char} {ws : List String} (h : c ∈ (Text.join sep ws).toList) :
    c = sep ∨ ∃ w ∈ ws, c ∈ w.toList := by
  rw [Text.join, String.toList_ofList] at h
  induction ws with
  | nil => cases h
  | cons w ws ih =>
      by_cases hws : ws = []
      · subst hws
        rw [List.map_singleton, List.intercalate_singleton] at h
        exact .inr ⟨w, List.mem_cons_self, h⟩
      · rw [List.map_cons, List.intercalate_cons_of_ne_nil (by simpa using hws)] at h
        rcases List.mem_append.mp h with h | h
        · rcases List.mem_append.mp h with h | h
          · exact .inr ⟨w, List.mem_cons_self, h⟩
          · exact .inl (List.mem_singleton.mp h)
        · rcases ih h with rfl | ⟨v, hv, hc⟩
          · exact .inl rfl
          · exact .inr ⟨v, List.mem_cons_of_mem w hv, hc⟩

/-- **A query string is made of safe characters**, `=` and `&`. -/
theorem query_safe {ps : List (String × String)} {c : Char} (h : c ∈ (query ps).toList) :
    safe c = true ∨ c = '=' ∨ c = '&' := by
  rcases mem_join h with rfl | ⟨w, hw, hc⟩
  · exact .inr (.inr rfl)
  · obtain ⟨p, -, rfl⟩ := List.mem_map.mp hw
    rw [field_toList] at hc
    rcases List.mem_append.mp hc with hc | hc
    · exact .inl (safe_quote hc)
    · rcases List.mem_cons.mp hc with rfl | hc
      · exact .inr (.inl rfl)
      · exact .inl (safe_quote hc)

end Support.Percent
