import Jackdaw.Support.Text
import Mathlib.Data.Option.Basic

/-!
# Support — URLs

Reading an `http` URL back: the authority ends at the first `/`, `?` or `#`; its host is in
brackets, or ends at the first colon; a port may follow; the path ends at the first `?` or `#`.
A URL with user information is not read.

* `parse_authority`: a URL that is put together from an authority and a target has those parts.
-/

namespace Support

/-- The parts of an `http` URL; what follows the path is its tail. -/
structure HttpUrl where
  bracketed : Bool
  host : String
  port : Option Nat
  path : String
  tail : String
deriving DecidableEq

namespace HttpUrl

def endsAuthority (c : Char) : Bool := c = '/' || c = '?' || c = '#'

def endsPath (c : Char) : Bool := c = '?' || c = '#'

/-- What follows the host: nothing, or a colon and a number. -/
def parsePort : List Char → Option (Option Nat)
  | [] => some none
  | ':' :: digits =>
      if digits ≠ [] ∧ digits.all Char.isDigit then some (some (Nat.ofDigitChars 10 digits 0))
      else none
  | _ => none

/-- The host of an authority, whether it is in brackets, and what follows it. -/
def splitHost : List Char → Option (Bool × List Char × List Char)
  | '[' :: cs =>
      match cs.dropWhile (· ≠ ']') with
      | ']' :: rest => some (true, cs.takeWhile (· ≠ ']'), rest)
      | _ => none
  | cs => some (false, cs.takeWhile (· ≠ ':'), cs.dropWhile (· ≠ ':'))

def parse (url : String) : Option HttpUrl := do
  guard (Text.startsWith url "http://")
  let cs := url.toList.drop 7
  let authority := cs.takeWhile (!endsAuthority ·)
  guard ('@' ∉ authority)
  let (bracketed, host, rest) ← splitHost authority
  let port ← parsePort rest
  let target := cs.dropWhile (!endsAuthority ·)
  return ⟨bracketed, String.ofList host, port, String.ofList (target.takeWhile (!endsPath ·)),
    String.ofList (target.dropWhile (!endsPath ·))⟩

/-! ### Putting a URL together -/

section Render

variable {authority target host rest : List Char} {url : String} {bracketed : Bool}
  {port : Option Nat}

/-- **A URL has the parts it was put together from.** -/
theorem parse_authority (hurl : url.toList = "http://".toList ++ (authority ++ '/' :: target))
    (hauth : ∀ c ∈ authority, endsAuthority c = false) (huser : '@' ∉ authority)
    (hhost : splitHost authority = some (bracketed, host, rest))
    (hport : parsePort rest = some port) :
    parse url = some ⟨bracketed, String.ofList host, port,
      String.ofList (('/' :: target).takeWhile (!endsPath ·)),
      String.ofList (('/' :: target).dropWhile (!endsPath ·))⟩ := by
  have hstarts : Text.startsWith url "http://" = true := by
    rw [Text.startsWith, hurl]
    exact List.isPrefixOf_iff_prefix.mpr (List.prefix_append _ _)
  have hdrop : url.toList.drop 7 = authority ++ '/' :: target := by
    rw [hurl]
    rfl
  have hall : ∀ c ∈ authority, (!endsAuthority c) = true := fun c hc => by rw [hauth c hc]; rfl
  have htake : (authority ++ '/' :: target).takeWhile (!endsAuthority ·) = authority := by
    rw [List.takeWhile_append_of_pos hall, List.takeWhile_cons_of_neg (by decide),
      List.append_nil]
  have hrest : (authority ++ '/' :: target).dropWhile (!endsAuthority ·) = '/' :: target := by
    rw [List.dropWhile_append_of_pos hall, List.dropWhile_cons_of_neg (by decide)]
  simp [parse, hstarts, hdrop, htake, hrest, huser, hhost, hport]

theorem splitHost_bracketed (h : ']' ∉ host) :
    splitHost ('[' :: (host ++ ']' :: rest)) = some (true, host, rest) := by
  have hall : ∀ c ∈ host, decide (c ≠ ']') = true := fun c hc =>
    decide_eq_true fun e => h (e ▸ hc)
  simp only [splitHost, List.takeWhile_append_of_pos hall, List.dropWhile_append_of_pos hall]
  simp

theorem splitHost_plain (hcolon : ':' ∉ host) (hbracket : '[' ∉ host)
    (hrest : ∀ c ∈ rest.head?, c = ':') : splitHost (host ++ rest) = some (false, host, rest) := by
  have hall : ∀ c ∈ host, decide (c ≠ ':') = true := fun c hc =>
    decide_eq_true fun e => hcolon (e ▸ hc)
  have htake : (host ++ rest).takeWhile (· ≠ ':') = host := by
    rw [List.takeWhile_append_of_pos hall]
    cases rest with
    | nil => simp
    | cons c cs => simp [hrest c rfl]
  have hdrop : (host ++ rest).dropWhile (· ≠ ':') = rest := by
    rw [List.dropWhile_append_of_pos hall]
    cases rest with
    | nil => simp
    | cons c cs => simp [hrest c rfl]
  unfold splitHost
  split
  · next cs heq =>
      cases host with
      | nil => exact absurd (hrest '[' (by rw [← List.nil_append rest, heq]; rfl)) (by decide)
      | cons c hs =>
          cases heq
          exact absurd List.mem_cons_self hbracket
  · rw [htake, hdrop]

/-- A port is read back from its numeral. -/
theorem parsePort_toDigits (n : Nat) : parsePort (':' :: Nat.toDigits 10 n) = some (some n) := by
  have hdigits : (Nat.toDigits 10 n).all Char.isDigit = true :=
    List.all_eq_true.mpr fun c hc => Nat.isDigit_of_mem_toDigits (by decide) (by decide) hc
  rw [parsePort, if_pos ⟨Nat.toDigits_ne_nil, hdigits⟩,
    Nat.ofDigitChars_toDigits (by decide) (by decide)]

end Render

end HttpUrl

end Support
