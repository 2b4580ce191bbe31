import Mathlib.Algebra.Order.Group.Defs
import Mathlib.Data.Finset.Max
import Mathlib.Order.Interval.Finset.Nat

/-!
# Support — Windows

Events at the times `time 0 ≤ time 1 ≤ …`, and how many of them fall into a window of a given
length, wherever it starts.  A window contains its start and not its end.

* `atMost_iff`: at most `k` in every window, exactly where any event and the `k`th after it are at
  least the length of the window apart.
-/

namespace Support.Window

variable {K : Type*} [AddCommGroup K] [LinearOrder K]

/-- At most `k` of the times lie in a window of length `w`. -/
def AtMost (k : ℕ) (w : K) (time : ℕ → K) : Prop :=
  ∀ t, ∀ s : Finset ℕ, (∀ n ∈ s, t ≤ time n ∧ time n < t + w) → s.card ≤ k

variable {time : ℕ → K} {k : ℕ} {w : K}

/-- Events that are too close are, with those between them, in the window that starts with the
first. -/
theorem AtMost.apart (hmono : Monotone time) (h : AtMost k w time) (i : ℕ) :
    time i + w ≤ time (i + k) := by
  by_contra hlt
  rw [not_le] at hlt
  have hcard := h (time i) (Finset.Icc i (i + k)) fun n hn => by
    rw [Finset.mem_Icc] at hn
    exact ⟨hmono hn.1, (hmono hn.2).trans_lt hlt⟩
  rw [Nat.card_Icc] at hcard
  omega

variable [IsOrderedAddMonoid K]

/-- More than `k` events have two among them that are `k` apart. -/
theorem atMost_of_apart (hmono : Monotone time) (h : ∀ i, time i + w ≤ time (i + k)) :
    AtMost k w time := by
  intro t s hs
  by_contra hcard
  rw [not_le] at hcard
  have hne : s.Nonempty := Finset.card_pos.mp (by omega)
  -- all of them lie between the first and the last
  have hspan : s ⊆ Finset.Icc (s.min' hne) (s.max' hne) := fun n hn =>
    Finset.mem_Icc.mpr ⟨s.min'_le n hn, s.le_max' n hn⟩
  have hlen := Finset.card_le_card hspan
  rw [Nat.card_Icc] at hlen
  have hfirst := (hs _ (s.min'_mem hne)).1
  have hlast := (hs _ (s.max'_mem hne)).2
  have hle : t + w ≤ time (s.max' hne) :=
    calc t + w ≤ time (s.min' hne) + w := add_le_add_left hfirst w
      _ ≤ time (s.min' hne + k) := h _
      _ ≤ time (s.max' hne) := hmono (by omega)
  exact absurd hlast (not_lt.mpr hle)

/-- **The limit, by consecutive events.** -/
theorem atMost_iff (hmono : Monotone time) :
    AtMost k w time ↔ ∀ i, time i + w ≤ time (i + k) :=
  ⟨fun h => h.apart hmono, atMost_of_apart hmono⟩

end Support.Window
