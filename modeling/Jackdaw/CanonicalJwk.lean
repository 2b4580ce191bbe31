import Jackdaw.Util
import Jackdaw.Support.JsonOrder

/-!
# The canonical form of a key

What `canonical_jwk` says of a key: of any object of strings, integers, booleans, `null`, arrays and
objects.  A string is any list of code points here, and so is a name.

* `canonicalJwk_toValue`: the form that the accounts store, as a text of code points.
* `canonical_jwk_complete`: it is the object up to the order of its members, and reads back as such
  an object, as long as no string has a surrogate pair in it.
* `canonicalJwk_eq_iff`: so it is of the decoded bodies that the relay compares.
* `surrogate_pair_joined`: a pair and its character have one form.
-/

namespace Jackdaw

open Support JsonText

/-- `canonical_jwk`, of an object given by its code points. -/
def canonicalJwkText (jwkData : Value) : List Char := dumps jwkData

theorem canonicalJwk_toValue {jwk : Json} {v : Value} (h : jwk.toValue = some v) :
    (canonicalJwk jwk).toList = canonicalJwkText v := Json.dumps_toValue h

/-- **A complete invariant**.  The canonical form determines the sorted object, its surrogate pairs
joined.  Of objects without pairs it is the object up to the order of members, at every level; it is
read back as an object of that kind, of which every reader that does not look at the order makes
what it makes of the first.  Whatever is read of a text is without pairs. -/
theorem canonical_jwk_complete {a b : Value} (ha : a.Valid Points) (hb : b.Valid Points) :
    (canonicalJwkText a = canonicalJwkText b ↔ joined (sorted a) = joined (sorted b)) ∧
      (a.Valid Text → b.Valid Text →
        (canonicalJwkText a = canonicalJwkText b ↔ Reordered a b)) ∧
      (a.Valid Text → ∃ v, loads (canonicalJwkText a) = some v ∧ Reordered a v ∧ v.Valid Text ∧
        ∀ {JWK : Type} (jwkFromJson : Value → Option JWK),
          (∀ x y, Reordered x y → jwkFromJson x = jwkFromJson y) →
            (loads (canonicalJwkText a)).bind jwkFromJson = jwkFromJson a) ∧
      ∀ cs v, loads cs = some v → v.Valid Text := by
  refine ⟨dumps_eq_iff_joined ha hb, dumps_eq_iff, fun htext => ?_, fun cs v => loads_valid⟩
  have hread : loads (canonicalJwkText a) = some (sorted a) := loads_dumps htext
  refine ⟨sorted a, hread, reordered_sorted a, htext.sorted, fun jwkFromJson horder => ?_⟩
  rw [hread, Option.bind_some]
  exact (horder _ _ (reordered_sorted a)).symm

/-- The form as the accounts store it. -/
theorem canonicalJwk_eq_iff {jwk jwk' : Json} {v v' : Value} (h : jwk.toValue = some v)
    (h' : jwk'.toValue = some v') (hv : v.Valid Text) (hv' : v'.Valid Text) :
    canonicalJwk jwk = canonicalJwk jwk' ↔ Reordered v v' := by
  rw [← String.toList_inj, canonicalJwk_toValue h, canonicalJwk_toValue h']
  exact dumps_eq_iff hv hv'

/-! ### A pair and its character -/

/-- A key whose `kid` is the string. -/
def kidJwk (kid : List Nat) : Value :=
  .obj [(Json.points "kty", .str (Json.points "EC")), (Json.points "kid", .str kid)]

/-- The members the other way round. -/
def kidJwkReversed (kid : List Nat) : Value :=
  .obj [(Json.points "kid", .str kid), (Json.points "kty", .str (Json.points "EC"))]

theorem kidJwk_reordered (kid : List Nat) : Reordered (kidJwk kid) (kidJwkReversed kid) :=
  .perm (.swap ..)

theorem kidJwk_valid {P : List Nat → Prop} (hnames : ∀ s, P (Json.points s)) {kid : List Nat}
    (hkid : P kid) : (kidJwk kid).Valid P := by
  simp only [kidJwk, Value.valid_obj, Value.valid_str, List.forall_mem_cons, hnames, hkid]
  refine ⟨?_, by simp⟩
  show [Json.points "kty", Json.points "kid"].Nodup
  decide

theorem sorted_kidJwk (kid : List Nat) : sorted (kidJwk kid) = kidJwkReversed kid := rfl

theorem kid_stored :
    canonicalJwkText (kidJwk [0xe9]) = canonicalJwkText (kidJwkReversed [0xe9]) ∧
      ∃ v, loads (canonicalJwkText (kidJwk [0xe9])) = some v ∧ Reordered (kidJwk [0xe9]) v := by
  have ha : (kidJwk [0xe9]).Valid Text := kidJwk_valid Json.text_points (by decide)
  have hb : (kidJwkReversed [0xe9]).Valid Text := (kidJwk_reordered _).valid_iff.mp ha
  obtain ⟨-, hsame, hread, -⟩ := canonical_jwk_complete (ha.mono fun _ h => h.1)
    (hb.mono fun _ h => h.1)
  obtain ⟨v, hv, horder, -⟩ := hread ha
  exact ⟨(hsame ha hb).mpr (kidJwk_reordered _), v, hv, horder⟩

/-- **A pair and its character have one form**: two keys that are not equal up to the order of their
members are stored as one text, and only one of them is read back. -/
theorem surrogate_pair_joined :
    (kidJwk [0xd800, 0xdc00]).Valid Points ∧ (kidJwk [0x10000]).Valid Points ∧
      canonicalJwkText (kidJwk [0xd800, 0xdc00]) = canonicalJwkText (kidJwk [0x10000]) ∧
      ¬ Reordered (kidJwk [0xd800, 0xdc00]) (kidJwk [0x10000]) ∧
      ∃ v, loads (canonicalJwkText (kidJwk [0xd800, 0xdc00])) = some v ∧
        Reordered (kidJwk [0x10000]) v := by
  have hpair : (kidJwk [0xd800, 0xdc00]).Valid Points :=
    kidJwk_valid (fun s => (Json.text_points s).1) (by decide)
  have hchar : (kidJwk [0x10000]).Valid Text := kidJwk_valid Json.text_points (by decide)
  have hchar' := hchar.mono fun _ h => h.1
  have hform : canonicalJwkText (kidJwk [0xd800, 0xdc00]) = canonicalJwkText (kidJwk [0x10000]) :=
    (dumps_eq_iff_joined hpair hchar').mpr rfl
  refine ⟨hpair, hchar', hform, fun horder => ?_, _, ?_, reordered_sorted _⟩
  · have hsorted := horder.sorted_eq hpair
    rw [sorted_kidJwk, sorted_kidJwk] at hsorted
    simp [kidJwkReversed] at hsorted
  · rw [hform]
    exact loads_dumps hchar

end Jackdaw
