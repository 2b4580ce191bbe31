import Mathlib.Data.List.Forall2

/-!
# Support — simulation

What a log of low-level steps does to a high-level state.

* `Spec`: a specification, a partial function of the state and the act.  A list of acts has its
  newest in front, as a log has.
* `Spec.run_invariant`: what every act keeps holds after every run.
* `Simulates`: the entries of a log, one after the other, do an act of the specification or none;
  each act may happen where the one before it has led, and after each entry the low-level state and
  the high-level state are related.
* `Simulates.run`: the acts make a run of the specification.
* `Simulates.filter`: the entries that did some of the acts, where it can be told from them.
-/

namespace Support

variable {σ β ω ε : Type}

/-- A state to start from, and the state an act leaves where it may happen. -/
structure Spec (β ω : Type) where
  init : β
  act : β → ω → Option β

/-- The state after some acts. -/
def Spec.run (A : Spec β ω) : List ω → Option β
  | [] => some A.init
  | w :: ws => (A.run ws).bind fun b => A.act b w

/-- What holds at the start, and is kept by every act, holds after every run. -/
theorem Spec.run_invariant {A : Spec β ω} {I : List ω → β → Prop} (h₀ : I [] A.init)
    (hs : ∀ {ws b w b'}, I ws b → A.act b w = some b' → I (w :: ws) b') :
    ∀ {ws : List ω} {b : β}, A.run ws = some b → I ws b
  | [], _, h => by
      cases Option.some.inj h
      exact h₀
  | _ :: _, _, h => by
      obtain ⟨b₀, hr, hw⟩ := Option.bind_eq_some_iff.mp h
      exact hs (Spec.run_invariant h₀ hs hr) hw

/-- The log `l` does the acts `ws`, which lead to `b`.  `D e w` says what entry `e` does, `R s b`
how the low-level state an entry leaves is related to the high-level state. -/
inductive Simulates (A : Spec β ω) (post : ε → σ) (R : σ → β → Prop) (D : ε → Option ω → Prop) :
    List ε → List ω → β → Prop where
  | start : Simulates A post R D [] [] A.init
  | quiet {l ws b e} (h : Simulates A post R D l ws b) (hd : D e none) (hr : R (post e) b) :
      Simulates A post R D (e :: l) ws b
  | act {l ws b e w b'} (h : Simulates A post R D l ws b) (hd : D e (some w))
      (hw : A.act b w = some b') (hr : R (post e) b') : Simulates A post R D (e :: l) (w :: ws) b'

section Simulates

variable {A : Spec β ω} {post : ε → σ} {R : σ → β → Prop} {D : ε → Option ω → Prop} {l : List ε}
  {ws : List ω} {b : β} {e : ε}

/-- **A step of a simulation**: the new entry does nothing, or an act that may happen. -/
theorem Simulates.step (h : Simulates A post R D l ws b)
    (hs : D e none ∧ R (post e) b ∨
      ∃ w b', D e (some w) ∧ A.act b w = some b' ∧ R (post e) b') :
    ∃ ws' b', Simulates A post R D (e :: l) ws' b' ∧ R (post e) b' := by
  rcases hs with ⟨hd, hr⟩ | ⟨w, b', hd, hw, hr⟩
  · exact ⟨ws, b, h.quiet hd hr, hr⟩
  · exact ⟨w :: ws, b', h.act hd hw hr, hr⟩

theorem Simulates.run (h : Simulates A post R D l ws b) : A.run ws = some b := by
  induction h with
  | start => rfl
  | quiet _ _ _ ih => exact ih
  | act _ _ hw _ ih => rw [Spec.run, ih, Option.bind_some, hw]

/-- Every entry did an act, or none. -/
theorem Simulates.does (h : Simulates A post R D l ws b) (he : e ∈ l) : ∃ w, D e w := by
  induction h with
  | start => cases he
  | quiet _ hd _ ih | act _ hd _ _ ih =>
      rcases List.mem_cons.mp he with rfl | he
      · exact ⟨_, hd⟩
      · exact ih he

/-- Where `q` tells from an entry whether it did an act with `p`, the entries with `q` did the acts
with `p`, one each and in this order. -/
theorem Simulates.filter (h : Simulates A post R D l ws b) {q : ε → Bool} {p : ω → Bool}
    (hq : ∀ e w, D e w → q e = w.any p) :
    List.Forall₂ (fun e w => D e (some w)) (l.filter q) (ws.filter p) := by
  induction h with
  | start => exact .nil
  | quiet _ hd _ ih =>
      have hno := hq _ _ hd
      rw [Option.any_none] at hno
      rw [List.filter_cons_of_neg (by rw [hno]; exact Bool.false_ne_true)]
      exact ih
  | @act _ _ _ e w _ _ hd _ _ ih =>
      have hsame := hq _ _ hd
      rw [Option.any_some] at hsame
      cases hp : p w with
      | true =>
          rw [List.filter_cons_of_pos (hsame.trans hp), List.filter_cons_of_pos hp]
          exact .cons hd ih
      | false =>
          rw [List.filter_cons_of_neg (by rw [hsame, hp]; exact Bool.false_ne_true),
            List.filter_cons_of_neg (by rw [hp]; exact Bool.false_ne_true)]
          exact ih

end Simulates

end Support
