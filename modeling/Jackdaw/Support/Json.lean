import Mathlib.Data.List.Sort
import Mathlib.Data.String.Basic

/-!
# Support — JSON values

The values `json.loads` returns, with what Python does to them where a program does not check
their type first: `dict.get` on something that is not an object, truth value testing, and the
compact serialisation of `json.dumps` with sorted keys.

An object is a list of members in insertion order; `json.loads` keeps one member per name.  A
float is carried by its `repr`, which determines it.  An escape such as `\ud800` makes a string that
is not Unicode text; such a string is carried by its code points.
-/

namespace Support

/-- A decoded JSON value. -/
inductive Json where
  | null
  | bool (b : Bool)
  | int (n : Int)
  | float (repr : String)
  | str (s : String)
  /-- A string with a lone surrogate, by its code points. -/
  | rawStr (points : List Nat)
  | arr (xs : List Json)
  | obj (members : List (String × Json))

namespace Json

/-- `x[k]` when `x` is an object that has the member. -/
def get? : Json → String → Option Json
  | obj ms, k => ms.lookup k
  | _, _ => none

/-- Python's truth value. -/
def truthy : Json → Bool
  | null => false
  | bool b => b
  | int n => n ≠ 0
  | float r => r ≠ "0.0" && r ≠ "-0.0"
  | str s => s ≠ ""
  | rawStr ps => !ps.isEmpty
  | arr xs => !xs.isEmpty
  | obj ms => !ms.isEmpty

/-- `isinstance(x, dict)`. -/
def isObj : Json → Bool
  | obj _ => true
  | _ => false

/-- Can it be a member of a set? -/
def hashable : Json → Bool
  | arr _ | obj _ => false
  | _ => true

/-- The text of a value that is a string of Unicode text. -/
def text? : Json → Option String
  | str s => some s
  | _ => none

/-- `x == s` for a Python string `s`. -/
def isStr (s : String) : Json → Bool
  | str t => t = s
  | _ => false

theorem isStr_iff {s : String} {j : Json} : j.isStr s = true ↔ j = .str s := by
  cases j <;> simp [isStr]

/-! ### Serialisation -/

/-- One lower-case hexadecimal digit. -/
def hexDigit (n : Nat) : Char := "0123456789abcdef".toList.getD n '0'

/-- The escape `\uXXXX` of a code unit. -/
def unicodeEscape (n : Nat) : List Char :=
  ['\\', 'u', hexDigit (n / 4096 % 16), hexDigit (n / 256 % 16), hexDigit (n / 16 % 16),
    hexDigit (n % 16)]

/-- One character inside a string literal, as `json.dumps` writes it with `ensure_ascii`. -/
def escapeChar (c : Char) : List Char :=
  if c = '"' then ['\\', '"']
  else if c = '\\' then ['\\', '\\']
  else if c = '\n' then ['\\', 'n']
  else if c = '\r' then ['\\', 'r']
  else if c = '\t' then ['\\', 't']
  else if c.toNat = 0x0c then ['\\', 'f']
  else if c.toNat = 0x08 then ['\\', 'b']
  else if 0x20 ≤ c.toNat && c.toNat ≤ 0x7e then [c]
  else if c.toNat < 0x10000 then unicodeEscape c.toNat
  else
    -- outside the basic plane a character is written as its surrogate pair
    unicodeEscape (0xd800 + (c.toNat - 0x10000) / 1024) ++
      unicodeEscape (0xdc00 + (c.toNat - 0x10000) % 1024)

/-- One code point inside a string literal; a lone surrogate is written as its own escape. -/
def escapePoint (n : Nat) : List Char :=
  if 0xd800 ≤ n && n ≤ 0xdfff then unicodeEscape n else escapeChar (Char.ofNat n)

/-- A string literal. -/
def dumpsString (s : String) : String :=
  String.ofList ('"' :: s.toList.flatMap escapeChar ++ ['"'])

/-- Members by name, in the order of `sorted`. -/
def sortMembers (ms : List (String × String)) : List (String × String) :=
  ms.insertionSort fun a b => a.1 ≤ b.1

mutual

/-- `json.dumps(x, sort_keys=True, separators=(",", ":"))`. -/
def dumps : Json → String
  | null => "null"
  | bool true => "true"
  | bool false => "false"
  | int n => toString n
  | float r => r
  | str s => dumpsString s
  | rawStr ps => String.ofList ('"' :: ps.flatMap escapePoint ++ ['"'])
  | arr xs => "[" ++ ",".intercalate (dumpsAll xs) ++ "]"
  | obj ms => "\x7b" ++
      ",".intercalate ((sortMembers (dumpsMembers ms)).map fun m => dumpsString m.1 ++ ":" ++ m.2)
      ++ "\x7d"

/-- The elements of an array, serialised. -/
def dumpsAll : List Json → List String
  | [] => []
  | x :: xs => dumps x :: dumpsAll xs

/-- The members of an object, with their values serialised. -/
def dumpsMembers : List (String × Json) → List (String × String)
  | [] => []
  | (k, x) :: ms => (k, dumps x) :: dumpsMembers ms

end

theorem dumpsMembers_eq_map (ms : List (String × Json)) :
    dumpsMembers ms = ms.map fun m => (m.1, m.2.dumps) := by
  induction ms with
  | nil => simp [dumpsMembers]
  | cons m ms ih => simp [dumpsMembers, ih]

/-- Members with different names have one order. -/
theorem sortMembers_perm {ms ms' : List (String × String)} (hp : ms.Perm ms')
    (hnodup : (ms.map Prod.fst).Nodup) : sortMembers ms = sortMembers ms' := by
  let byName : String × String → String × String → Prop := fun a b => a.1 ≤ b.1
  have : Std.Total byName := ⟨fun a b => le_total a.1 b.1⟩
  have : IsTrans (String × String) byName := ⟨fun _ _ _ h h' => le_trans h h'⟩
  have hperm : ∀ l, (sortMembers l).Perm l := fun l => List.perm_insertionSort byName l
  have hsorted : ∀ l, (sortMembers l).Pairwise byName := fun l =>
    List.pairwise_insertionSort byName l
  refine List.Perm.eq_of_pairwise ?_ (hsorted ms) (hsorted ms')
    ((hperm ms).trans (hp.trans (hperm ms').symm))
  intro a b ha hb hab hba
  have ha := (hperm ms).mem_iff.mp ha
  have hb := hp.mem_iff.mpr ((hperm ms').mem_iff.mp hb)
  exact List.inj_on_of_nodup_map hnodup ha hb (le_antisymm hab hba)

/-- **The order of the members does not show** in the serialisation of an object. -/
theorem dumps_obj_perm {ms ms' : List (String × Json)} (hp : ms.Perm ms')
    (hnodup : (ms.map Prod.fst).Nodup) : (obj ms).dumps = (obj ms').dumps := by
  rw [dumps, dumps, dumpsMembers_eq_map, dumpsMembers_eq_map, sortMembers_perm (hp.map _)]
  simpa only [List.map_map, Function.comp_def] using hnodup

end Json

end Support
