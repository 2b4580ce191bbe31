import Jackdaw.Support.Interleave

/-!
# Support — Coming to rest

What becomes of the tasks of a machine when nothing new arrives.

A cost is a bound on the segments a task still runs, those of its descendants included: every
segment leaves less than it found (`Spends`).  Then a run of segments alone is at most as long as
the load of the configuration it starts from (`Spends.moves_le`), and if some task can always go on,
it ends with no task left (`Spends.rests`).

Both speak of segments from a class `P`; what is known of the configuration is that it is reached by
the steps of a class `Q` that contains it.
-/

namespace Support.Interleave

variable {σ τ α : Type}

/-! ### The load -/

/-- What the tasks in the first `n` slots cost. -/
def loadUpTo (w : τ → Nat) (f : Nat → Option τ) : Nat → Nat
  | 0 => 0
  | n + 1 => loadUpTo w f n + (f n).elim 0 w

/-- What the suspended tasks cost. -/
def Config.load (w : τ → Nat) (c : Config σ τ) : Nat := loadUpTo w c.tasks c.next

section Load

variable {w : τ → Nat} {f : Nat → Option τ}

theorem loadUpTo_update_of_le {i n : Nat} (v : Option τ) (h : n ≤ i) :
    loadUpTo w (Function.update f i v) n = loadUpTo w f n := by
  induction n with
  | zero => rfl
  | succ n ih =>
      rw [loadUpTo, loadUpTo, ih (by omega), Function.update_of_ne (by omega)]

/-- One slot is written. -/
theorem loadUpTo_update {i n : Nat} (v : Option τ) (h : i < n) :
    loadUpTo w (Function.update f i v) n + (f i).elim 0 w = loadUpTo w f n + v.elim 0 w := by
  induction n with
  | zero => omega
  | succ n ih =>
      rw [loadUpTo, loadUpTo]
      by_cases hi : i = n
      · subst hi
        rw [loadUpTo_update_of_le v (Nat.le_refl i), Function.update_self]
        omega
      · have := ih (by omega)
        rw [Function.update_of_ne (fun e => hi e.symm)]
        omega

/-- A segment takes the place of its task in the load, for what it leaves. -/
theorem Config.load_after {c : Config σ τ} {i : Nat} {t : τ} (o : Outcome σ τ)
    (ht : c.tasks i = some t) (hi : i < c.next) :
    (c.after i o).load w + w t = c.load w + o.self.elim 0 w + o.child.elim 0 w := by
  have hself := loadUpTo_update (w := w) (f := c.tasks) o.self hi
  rw [ht, Option.elim_some] at hself
  have hchild : (c.after i o).load w =
      loadUpTo w (Function.update c.tasks i o.self) c.next + o.child.elim 0 w := by
    simp only [Config.load, Config.after, loadUpTo, Function.update_self]
    rw [loadUpTo_update_of_le _ (Nat.le_refl _)]
  rw [hchild, Config.load]
  omega

end Load

/-! ### Runs of segments -/

/-- `c'` is reached from `c` by `n` segments that satisfy `P`, and nothing else. -/
inductive Moves (M : Machine σ τ α) (P : Config σ τ → Config σ τ → Prop) :
    Config σ τ → Nat → Config σ τ → Prop where
  | refl (c : Config σ τ) : Moves M P c 0 c
  | step {c c' c'' : Config σ τ} {i n : Nat} {a : α} (hs : M.step c (.run i a) = some c')
      (hp : P c c') (h : Moves M P c' n c'') : Moves M P c (n + 1) c''

/-- Every segment costs: what it leaves costs less than its task did. -/
structure Spends (M : Machine σ τ α) (Q : Config σ τ → Config σ τ → Prop) (s₀ : σ)
    (w : τ → Nat) : Prop where
  run : ∀ {c : Config σ τ} {i : Nat} {t : τ} {a : α} {o : Outcome σ τ}, Reach M Q s₀ c →
    c.tasks i = some t → M.run i c.next c.shared t a = some o →
    o.self.elim 0 w + o.child.elim 0 w < w t

section Runs

variable {M : Machine σ τ α} {P Q : Config σ τ → Config σ τ → Prop} {s₀ : σ} {w : τ → Nat}
  {c c' : Config σ τ} {n : Nat}

theorem Moves.reach (hPQ : ∀ c c', P c c' → Q c c') (h : Moves M P c n c')
    (hc : Reach M Q s₀ c) : Reach M Q s₀ c' := by
  induction h with
  | refl => exact hc
  | step hs hp _ ih => exact ih (.step hc hs (hPQ _ _ hp))

theorem Spends.load_step (hw : Spends M Q s₀ w) (hc : Reach M Q s₀ c) {i : Nat} {a : α}
    (hs : M.step c (.run i a) = some c') : c'.load w < c.load w := by
  obtain ⟨t, ht, hs⟩ := Option.bind_eq_some_iff.mp hs
  obtain ⟨o, ho, rfl⟩ := Option.map_eq_some_iff.mp hs
  have hspent := hw.run hc ht ho
  have hload := Config.load_after (w := w) o ht (hc.lt_next ht)
  omega

/-- **A run of segments is finite.** -/
theorem Spends.moves_le (hw : Spends M Q s₀ w) (hPQ : ∀ c c', P c c' → Q c c')
    (hc : Reach M Q s₀ c) (h : Moves M P c n c') : n + c'.load w ≤ c.load w := by
  induction h with
  | refl => omega
  | step hs hp _ ih =>
      have hstep := hw.load_step hc hs
      have hrest := ih (.step hc hs (hPQ _ _ hp))
      omega

/-- **If some task can always go on, the machine comes to rest.** -/
theorem Spends.rests (hw : Spends M Q s₀ w) (hPQ : ∀ c c', P c c' → Q c c')
    (hgo : ∀ {c : Config σ τ} {i : Nat} {t : τ}, Reach M Q s₀ c → c.tasks i = some t →
      ∃ j a c', M.step c (.run j a) = some c' ∧ P c c')
    (hc : Reach M Q s₀ c) : ∃ n c', Moves M P c n c' ∧ ∀ i, c'.tasks i = none := by
  -- on the load, which the first segment lowers
  induction hload : c.load w using Nat.strongRecOn generalizing c with
  | ind k ih =>
      by_cases hany : ∃ i t, c.tasks i = some t
      · obtain ⟨i, t, ht⟩ := hany
        obtain ⟨j, a, c₁, hs, hp⟩ := hgo hc ht
        obtain ⟨n, c', hmoves, hrest⟩ :=
          ih (c₁.load w) (hload ▸ hw.load_step hc hs) (.step hc hs (hPQ _ _ hp)) rfl
        exact ⟨n + 1, c', .step hs hp hmoves, hrest⟩
      · refine ⟨0, c, .refl c, fun i => ?_⟩
        by_contra hi
        obtain ⟨t, ht⟩ := Option.ne_none_iff_exists'.mp hi
        exact hany ⟨i, t, ht⟩

end Runs

end Support.Interleave
