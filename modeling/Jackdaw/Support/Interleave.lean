import Mathlib.Logic.Function.Basic
import Mathlib.Data.Option.Basic

/-!
# Support — Interleaved tasks

Cooperative tasks over one shared state.  A task runs one *segment* at a time, from one point
where it may be suspended to the next; a segment sees and replaces the shared state, and either
leaves the task suspended again or ends it, and may start one child task.  Between two segments
of a task any other task may run, new tasks arrive from outside, the shared state ticks on its
own, and a restart drops every task at once.

* `Machine.step`: one action of the machine, as a function of the action.
* `Reach M P s₀ c`: `c` is reached from the shared state `s₀` without tasks, by steps that all
  satisfy `P`.
* `Invariant.reach`: the proof rule.  An invariant of the shared state and an assertion for every
  suspended task: when every segment keeps the invariant, establishes the assertions of the tasks
  it leaves behind and interferes with no other task's assertion, the invariant and all
  assertions hold at every reached configuration.
* `Reach.pairwise`: a relation between any two tasks that every segment keeps.
* `Config.count p c`: how many suspended tasks are at a point, and how a move changes that.
-/

namespace Support.Interleave

variable {σ τ α : Type}

/-- What a segment leaves behind: the shared state, its own task if it is only suspended, and
the task it started. -/
structure Outcome (σ τ : Type) where
  shared : σ
  self : Option τ
  child : Option τ

/-- Tasks of type `τ` over a shared state of type `σ`; an `α` resolves what the environment
decides. -/
structure Machine (σ τ α : Type) where
  /-- The next segment of task `i`, whose child, if any, is task `n`. -/
  run : (i n : Nat) → σ → τ → α → Option (Outcome σ τ)
  /-- A task that arrives from outside. -/
  arrive : σ → α → Option τ
  /-- A change of the shared state that no task makes. -/
  tick : σ → α → Option σ
  /-- The shared state a restart leaves, and the one task it starts with. -/
  restart : σ → α → Option (σ × τ)

/-- A shared state, the suspended tasks by their numbers, and the next free number. -/
structure Config (σ τ : Type) where
  shared : σ
  tasks : Nat → Option τ
  next : Nat

/-- Which of the machine's moves is made. -/
inductive Action (α : Type) where
  | run (i : Nat) (a : α)
  | arrive (a : α)
  | tick (a : α)
  | restart (a : α)

/-- The configuration without tasks. -/
def Config.start (s₀ : σ) : Config σ τ := ⟨s₀, fun _ => none, 0⟩

/-- The configuration a segment of task `i` leaves. -/
def Config.after (c : Config σ τ) (i : Nat) (o : Outcome σ τ) : Config σ τ :=
  ⟨o.shared, Function.update (Function.update c.tasks i o.self) c.next o.child, c.next + 1⟩

/-- One move. -/
def Machine.step (M : Machine σ τ α) (c : Config σ τ) : Action α → Option (Config σ τ)
  | .run i a => (c.tasks i).bind fun t => (M.run i c.next c.shared t a).map (c.after i)
  | .arrive a => (M.arrive c.shared a).map fun t =>
      ⟨c.shared, Function.update c.tasks c.next (some t), c.next + 1⟩
  | .tick a => (M.tick c.shared a).map fun s => { c with shared := s }
  | .restart a => (M.restart c.shared a).map fun p =>
      ⟨p.1, Function.update (fun _ => none) c.next (some p.2), c.next + 1⟩

/-- A schedule, every step of which passes the test `p`. -/
def Machine.schedule (M : Machine σ τ α) (p : Config σ τ → Config σ τ → Bool) :
    Config σ τ → List (Action α) → Option (Config σ τ)
  | c, [] => some c
  | c, a :: as => (M.step c a).bind fun c' => if p c c' then M.schedule p c' as else none

/-- `c` is reached from `s₀` by steps that satisfy `P`. -/
inductive Reach (M : Machine σ τ α) (P : Config σ τ → Config σ τ → Prop) (s₀ : σ) :
    Config σ τ → Prop where
  | start : Reach M P s₀ (.start s₀)
  | step {c c' : Config σ τ} {a : Action α} (h : Reach M P s₀ c) (hs : M.step c a = some c')
      (hp : P c c') : Reach M P s₀ c'

section Reach

variable {M : Machine σ τ α} {P Q : Config σ τ → Config σ τ → Prop} {s₀ : σ}

theorem Reach.mono (hPQ : ∀ c c', P c c' → Q c c') {c : Config σ τ} (h : Reach M P s₀ c) :
    Reach M Q s₀ c := by
  induction h with
  | start => exact .start
  | step _ hs hp ih => exact .step ih hs (hPQ _ _ hp)

/-- A schedule from a reached configuration ends at a reached one. -/
theorem Reach.schedule {p : Config σ τ → Config σ τ → Bool}
    (hp : ∀ {c c' a}, Reach M P s₀ c → M.step c a = some c' → p c c' = true → P c c') :
    ∀ (as : List (Action α)) {c c' : Config σ τ}, Reach M P s₀ c →
      M.schedule p c as = some c' → Reach M P s₀ c'
  | [], _, _, h, e => by cases Option.some.inj e; exact h
  | a :: as, c, c', h, e => by
      obtain ⟨c₁, hs, e⟩ := Option.bind_eq_some_iff.mp e
      split at e
      · exact Reach.schedule hp as (.step h hs (hp h hs (by assumption))) e
      · cases e

/-- The ways a step is made, with the configuration each leaves. -/
theorem Machine.step_cases {c c' : Config σ τ} {a : Action α} (h : M.step c a = some c') :
    (∃ i b t o, a = .run i b ∧ c.tasks i = some t ∧ M.run i c.next c.shared t b = some o ∧
      c' = c.after i o) ∨
    (∃ b t, a = .arrive b ∧ M.arrive c.shared b = some t ∧
      c' = ⟨c.shared, Function.update c.tasks c.next (some t), c.next + 1⟩) ∨
    (∃ b s, a = .tick b ∧ M.tick c.shared b = some s ∧ c' = { c with shared := s }) ∨
    (∃ b s t, a = .restart b ∧ M.restart c.shared b = some (s, t) ∧
      c' = ⟨s, Function.update (fun _ => none) c.next (some t), c.next + 1⟩) := by
  cases a with
  | run i b =>
      obtain ⟨t, ht, h⟩ := Option.bind_eq_some_iff.mp h
      obtain ⟨o, ho, rfl⟩ := Option.map_eq_some_iff.mp h
      exact .inl ⟨i, b, t, o, rfl, ht, ho, rfl⟩
  | arrive b =>
      obtain ⟨t, ht, rfl⟩ := Option.map_eq_some_iff.mp h
      exact .inr (.inl ⟨b, t, rfl, ht, rfl⟩)
  | tick b =>
      obtain ⟨s, hs, rfl⟩ := Option.map_eq_some_iff.mp h
      exact .inr (.inr (.inl ⟨b, s, rfl, hs, rfl⟩))
  | restart b =>
      obtain ⟨⟨s, t⟩, hp, rfl⟩ := Option.map_eq_some_iff.mp h
      exact .inr (.inr (.inr ⟨b, s, t, rfl, hp, rfl⟩))

/-- Who holds a number after one slot was written. -/
theorem update_eq_some {f : Nat → Option τ} {n k : Nat} {v : Option τ} {u : τ}
    (h : Function.update f n v k = some u) : k = n ∧ v = some u ∨ k ≠ n ∧ f k = some u := by
  by_cases e : k = n
  · subst e
    rw [Function.update_self] at h
    exact .inl ⟨rfl, h⟩
  · rw [Function.update_of_ne e] at h
    exact .inr ⟨e, h⟩

/-- Who holds a number after a segment of task `i` that has no child. -/
theorem Config.after_tasks {c : Config σ τ} {i j : Nat} {o : Outcome σ τ} {u : τ}
    (hchild : o.child = none) (h : (c.after i o).tasks j = some u) :
    j = i ∧ o.self = some u ∨ j ≠ i ∧ c.tasks j = some u := by
  rcases update_eq_some h with ⟨-, hu⟩ | ⟨-, h⟩
  · rw [hchild] at hu
    cases hu
  · exact update_eq_some h

/-- A task other than `i` keeps its number across a segment of task `i`. -/
theorem Config.after_of_ne {c : Config σ τ} {i j : Nat} {o : Outcome σ τ} {u : τ} (hne : j ≠ i)
    (hlt : j < c.next) (h : c.tasks j = some u) : (c.after i o).tasks j = some u := by
  show Function.update (Function.update c.tasks i o.self) c.next o.child j = some u
  rw [Function.update_of_ne (Nat.ne_of_lt hlt), Function.update_of_ne hne, h]

theorem Config.after_self {c : Config σ τ} {i : Nat} {o : Outcome σ τ} (hlt : i < c.next) :
    (c.after i o).tasks i = o.self := by
  show Function.update (Function.update c.tasks i o.self) c.next o.child i = o.self
  rw [Function.update_of_ne (Nat.ne_of_lt hlt), Function.update_self]

/-- Task numbers are handed out once: no task has a number that is still free. -/
theorem Reach.lt_next {c : Config σ τ} (h : Reach M P s₀ c) {i : Nat} {t : τ}
    (ht : c.tasks i = some t) : i < c.next := by
  induction h generalizing i t with
  | start => cases ht
  | @step c c' a _ hs _ ih =>
      rcases Machine.step_cases hs with ⟨j, b, u, o, -, hj, -, rfl⟩ | ⟨b, u, -, -, rfl⟩ |
          ⟨b, s, -, -, rfl⟩ | ⟨b, s, u, -, -, rfl⟩
      · rcases update_eq_some ht with ⟨rfl, -⟩ | ⟨-, ht⟩
        · exact Nat.lt_succ_self _
        · rcases update_eq_some ht with ⟨rfl, -⟩ | ⟨-, ht⟩
          · exact Nat.lt_succ_of_lt (ih hj)
          · exact Nat.lt_succ_of_lt (ih ht)
      · rcases update_eq_some ht with ⟨rfl, -⟩ | ⟨-, ht⟩
        · exact Nat.lt_succ_self _
        · exact Nat.lt_succ_of_lt (ih ht)
      · exact ih ht
      · rcases update_eq_some (f := fun _ => none) ht with ⟨rfl, -⟩ | ⟨-, ht⟩
        · exact Nat.lt_succ_self _
        · cases ht

/-- **A relation between any two tasks.**  It is kept by every segment, between the task it
leaves and the others, and between its child and all of them; and a task that arrives is in it
with every task there is. -/
theorem Reach.pairwise {R : τ → τ → Prop} (hsymm : ∀ {t u}, R t u → R u t)
    (hrun : ∀ {c : Config σ τ} {i : Nat} {t : τ} {a : α} {o : Outcome σ τ}, Reach M P s₀ c →
      c.tasks i = some t → M.run i c.next c.shared t a = some o → P c (c.after i o) →
      (∀ u v, o.self = some u → o.child = some v → R u v) ∧
        ∀ j v, c.tasks j = some v → j ≠ i → R t v →
          (∀ u, o.self = some u → R u v) ∧ ∀ u, o.child = some u → R u v)
    (harrive : ∀ {s : σ} {a : α} {t : τ}, M.arrive s a = some t → ∀ u, R t u)
    {c : Config σ τ} (h : Reach M P s₀ c) :
    ∀ {i j : Nat} {t u : τ}, c.tasks i = some t → c.tasks j = some u → i ≠ j → R t u := by
  induction h with
  | start => exact fun h => (by cases h)
  | @step c c' a hr hs hp ih =>
      intro k l t u hk hl hne
      rcases Machine.step_cases hs with ⟨i, b, v, o, -, hi, ho, rfl⟩ | ⟨b, v, -, hv, rfl⟩ |
          ⟨b, s, -, -, rfl⟩ | ⟨b, s, v, -, -, rfl⟩
      · obtain ⟨hboth, hothers⟩ := hrun hr hi ho hp
        rcases update_eq_some hk with ⟨rfl, hkc⟩ | ⟨hk', hk⟩
        · rcases update_eq_some hl with ⟨rfl, -⟩ | ⟨-, hl⟩
          · exact absurd rfl hne
          · rcases update_eq_some hl with ⟨rfl, hls⟩ | ⟨hl', hl⟩
            · exact hsymm (hboth u t hls hkc)
            · exact (hothers l u hl hl' (ih hi hl (Ne.symm hl'))).2 t hkc
        · rcases update_eq_some hk with ⟨rfl, hks⟩ | ⟨hki, hk⟩
          · rcases update_eq_some hl with ⟨rfl, hlc⟩ | ⟨-, hl⟩
            · exact hboth t u hks hlc
            · rcases update_eq_some hl with ⟨rfl, -⟩ | ⟨hl', hl⟩
              · exact absurd rfl hne
              · exact (hothers l u hl hl' (ih hi hl (Ne.symm hl'))).1 t hks
          · have hvt := hothers k t hk hki (ih hi hk (Ne.symm hki))
            rcases update_eq_some hl with ⟨rfl, hlc⟩ | ⟨-, hl⟩
            · exact hsymm (hvt.2 u hlc)
            · rcases update_eq_some hl with ⟨rfl, hls⟩ | ⟨hl', hl⟩
              · exact hsymm (hvt.1 u hls)
              · exact ih hk hl hne
      · rcases update_eq_some hk with ⟨rfl, hkv⟩ | ⟨-, hk⟩
        · cases Option.some.inj hkv
          exact harrive hv u
        · rcases update_eq_some hl with ⟨rfl, hlv⟩ | ⟨-, hl⟩
          · cases Option.some.inj hlv
            exact hsymm (harrive hv t)
          · exact ih hk hl hne
      · exact ih hk hl hne
      · rcases update_eq_some (f := fun _ => none) hk with ⟨rfl, -⟩ | ⟨-, hk⟩
        · rcases update_eq_some (f := fun _ => none) hl with ⟨rfl, -⟩ | ⟨-, hl⟩
          · exact absurd rfl hne
          · cases hl
        · cases hk

end Reach

/-- The obligations of the proof rule: `Inv` for the shared state and the next free number, and
`Ok i` for the task numbered `i`. -/
structure Invariant (M : Machine σ τ α) (P : Config σ τ → Config σ τ → Prop) (s₀ : σ) where
  Inv : Nat → σ → Prop
  Ok : Nat → σ → τ → Prop
  start : Inv 0 s₀
  run : ∀ {c : Config σ τ} {i : Nat} {t : τ} {a : α} {o : Outcome σ τ}, Reach M P s₀ c →
    c.tasks i = some t → M.run i c.next c.shared t a = some o →
    P c (c.after i o) → Inv c.next c.shared → Ok i c.shared t →
    Inv (c.next + 1) o.shared ∧ (∀ u, o.self = some u → Ok i o.shared u) ∧
      (∀ u, o.child = some u → Ok c.next o.shared u) ∧
      ∀ j u, c.tasks j = some u → j ≠ i → Ok j c.shared u → Ok j o.shared u
  arrive : ∀ {c : Config σ τ} {a : α} {t : τ}, Reach M P s₀ c →
    M.arrive c.shared a = some t → Inv c.next c.shared →
    Inv (c.next + 1) c.shared ∧ Ok c.next c.shared t
  tick : ∀ {c : Config σ τ} {a : α} {s : σ}, Reach M P s₀ c → M.tick c.shared a = some s →
    P c { c with shared := s } → Inv c.next c.shared →
    Inv c.next s ∧ ∀ j u, Ok j c.shared u → Ok j s u
  restart : ∀ {c : Config σ τ} {a : α} {s : σ} {t : τ}, Reach M P s₀ c →
    M.restart c.shared a = some (s, t) → Inv c.next c.shared →
    Inv (c.next + 1) s ∧ Ok c.next s t

/-- **The proof rule.**  The invariant and every task's assertion hold at every reached
configuration. -/
theorem Invariant.reach {M : Machine σ τ α} {P : Config σ τ → Config σ τ → Prop} {s₀ : σ}
    (I : Invariant M P s₀) {c : Config σ τ} (h : Reach M P s₀ c) :
    I.Inv c.next c.shared ∧ ∀ i t, c.tasks i = some t → I.Ok i c.shared t := by
  induction h with
  | start => exact ⟨I.start, fun _ _ h => by cases h⟩
  | @step c c' a hr hs hp ih =>
      obtain ⟨hI, hO⟩ := ih
      rcases Machine.step_cases hs with ⟨i, b, t, o, -, hi, ho, rfl⟩ | ⟨b, t, -, ht, rfl⟩ |
          ⟨b, s, -, ht, rfl⟩ | ⟨b, s, t, -, ht, rfl⟩
      · obtain ⟨h₁, h₂, h₃, h₄⟩ := I.run hr hi ho hp hI (hO i t hi)
        refine ⟨h₁, fun k u hk => ?_⟩
        rcases update_eq_some hk with ⟨rfl, hu⟩ | ⟨-, hk⟩
        · exact h₃ u hu
        · rcases update_eq_some hk with ⟨rfl, hu⟩ | ⟨hne, hk⟩
          · exact h₂ u hu
          · exact h₄ k u hk hne (hO k u hk)
      · obtain ⟨h₁, h₂⟩ := I.arrive hr ht hI
        refine ⟨h₁, fun k u hk => ?_⟩
        rcases update_eq_some hk with ⟨rfl, hu⟩ | ⟨-, hk⟩
        · cases Option.some.inj hu
          exact h₂
        · exact hO k u hk
      · obtain ⟨h₁, h₂⟩ := I.tick hr ht hp hI
        exact ⟨h₁, fun k u hk => h₂ k u (hO k u hk)⟩
      · obtain ⟨h₁, h₂⟩ := I.restart hr ht hI
        refine ⟨h₁, fun k u hk => ?_⟩
        rcases update_eq_some (f := fun _ => none) hk with ⟨rfl, hu⟩ | ⟨-, hk⟩
        · cases Option.some.inj hu
          exact h₂
        · cases hk

/-! ### How many tasks are at a point -/

/-- How many of the first `n` slots hold a task that `p` selects. -/
def tally (p : τ → Bool) (f : Nat → Option τ) : Nat → Nat
  | 0 => 0
  | n + 1 => tally p f n + ((f n).any p).toNat

/-- How many suspended tasks `p` selects. -/
def Config.count (p : τ → Bool) (c : Config σ τ) : Nat := tally p c.tasks c.next

section Count

variable {p : τ → Bool} {f : Nat → Option τ}

theorem tally_update_of_le {i n : Nat} (v : Option τ) (h : n ≤ i) :
    tally p (Function.update f i v) n = tally p f n := by
  induction n with
  | zero => rfl
  | succ n ih =>
      rw [tally, tally, ih (by omega), Function.update_of_ne (by omega)]

/-- One slot is written. -/
theorem tally_update {i n : Nat} (v : Option τ) (h : i < n) :
    tally p (Function.update f i v) n + ((f i).any p).toNat = tally p f n + (v.any p).toNat := by
  induction n with
  | zero => omega
  | succ n ih =>
      rw [tally, tally]
      by_cases hi : i = n
      · subst hi
        rw [tally_update_of_le v (Nat.le_refl i), Function.update_self]
        omega
      · have := ih (by omega)
        rw [Function.update_of_ne (fun e => hi e.symm)]
        omega

/-- A tally that is not zero finds a slot. -/
theorem exists_of_tally_pos {n : Nat} (h : 0 < tally p f n) :
    ∃ i < n, ∃ t, f i = some t ∧ p t = true := by
  induction n with
  | zero => cases h
  | succ n ih =>
      rw [tally] at h
      cases hany : (f n).any p with
      | true =>
          cases hf : f n with
          | none => rw [hf] at hany; cases hany
          | some t => exact ⟨n, Nat.lt_succ_self n, t, hf, by rw [hf] at hany; exact hany⟩
      | false =>
          rw [hany] at h
          obtain ⟨i, hi, ht⟩ := ih h
          exact ⟨i, Nat.lt_succ_of_lt hi, ht⟩

theorem exists_of_count_pos {c : Config σ τ} (h : 0 < c.count p) :
    ∃ i < c.next, ∃ t, c.tasks i = some t ∧ p t = true :=
  exists_of_tally_pos h

/-- A segment takes its task's place in the count, for what it leaves. -/
theorem Config.count_after {c : Config σ τ} {i : Nat} {t : τ} (o : Outcome σ τ)
    (ht : c.tasks i = some t) (hi : i < c.next) :
    (c.after i o).count p + (p t).toNat =
      c.count p + (o.self.any p).toNat + (o.child.any p).toNat := by
  have hself := tally_update (p := p) (f := c.tasks) o.self hi
  rw [ht, Option.any_some] at hself
  have hchild : (c.after i o).count p =
      tally p (Function.update c.tasks i o.self) c.next + (o.child.any p).toNat := by
    simp only [Config.count, Config.after, tally, Function.update_self]
    rw [tally_update_of_le _ (Nat.le_refl _)]
  rw [hchild, Config.count]
  omega

theorem Config.count_arrive (c : Config σ τ) (t : τ) :
    Config.count p ⟨c.shared, Function.update c.tasks c.next (some t), c.next + 1⟩ =
      c.count p + (p t).toNat := by
  simp only [Config.count, tally, Function.update_self, Option.any_some]
  rw [tally_update_of_le _ (Nat.le_refl _)]

/-- A restart leaves one task to count. -/
theorem Config.count_restart (s : σ) (t : τ) (n : Nat) :
    Config.count p ⟨s, Function.update (fun _ => none) n (some t), n + 1⟩ = (p t).toNat := by
  have hnone : ∀ m, tally p (fun _ => none) m = 0 := by
    intro m
    induction m with
    | zero => rfl
    | succ m ih => rw [tally, ih]; rfl
  simp only [Config.count, tally, Function.update_self, Option.any_some]
  rw [tally_update_of_le _ (Nat.le_refl _), hnone, Nat.zero_add]

end Count

end Support.Interleave
