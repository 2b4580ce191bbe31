import Mathlib.Data.List.Basic

/-!
# Support — Durable statements

Programs that execute statements, each of which is durable on its own, over a state they can also
read.  A program runs through, raises, or is killed before some statement; what it has executed by
then stays.

* `Performs run x st ks`: from `st` the program `x` executes the statements `ks`, one after the
  other, however soon it is killed.
* `Restartable`: the statements fall into *units*.  Killed between two units a program leaves a
  state it can start from again; killed inside one it leaves a state it never gets out of.
* `Restartable.afterKills`: after any number of killed runs the state is of the first kind exactly
  where every kill came between two units.
-/

namespace Support.Durable

variable {σ κ ε α β : Type}

/-- Why a program stopped. -/
inductive Halt (ε : Type) where
  | killed
  | raised (e : ε)

/-- The state, and the number of statements before the kill, if there is one. -/
structure Session (σ : Type) where
  state : σ
  left : Option Nat

/-- A program: what it comes to, and the session it leaves. -/
structure Prog (σ ε α : Type) where
  runFrom : Session σ → Except (Halt ε) α × Session σ

instance : Monad (Prog σ ε) where
  pure a := ⟨fun s => (.ok a, s)⟩
  bind x f := ⟨fun s => match x.runFrom s with
    | (.ok a, s') => (f a).runFrom s'
    | (.error h, s') => (.error h, s')⟩

/-- The state as it is now. -/
def read : Prog σ ε σ := ⟨fun s => (.ok s.state, s)⟩

def raise (e : ε) : Prog σ ε α := ⟨fun s => (.error (.raised e), s)⟩

/-- One statement. -/
def exec (run : κ → σ → Except ε σ) (k : κ) : Prog σ ε Unit := ⟨fun s =>
  match s.left with
  | some 0 => (.error .killed, s)
  | left => match run k s.state with
    | .ok st => (.ok (), ⟨st, left.map (· - 1)⟩)
    | .error e => (.error (.raised e), s)⟩

/-- Statements, one after the other. -/
def perform (run : κ → σ → Except ε σ) : List κ → Prog σ ε Unit
  | [] => pure ()
  | k :: ks => do
      exec run k
      perform run ks

/-- What statements make of a state, if all of them go through. -/
def execAll (run : κ → σ → Except ε σ) : List κ → σ → Except ε σ
  | [], st => .ok st
  | k :: ks, st => match run k st with
    | .ok st' => execAll run ks st'
    | .error e => .error e

/-- How far statements get. -/
def reached (run : κ → σ → Except ε σ) : List κ → σ → σ
  | [], st => st
  | k :: ks, st => match run k st with
    | .ok st' => reached run ks st'
    | .error _ => st

/-- The program runs through. -/
def Completes (x : Prog σ ε Unit) (st st' : σ) : Prop := x.runFrom ⟨st, none⟩ = (.ok (), ⟨st', none⟩)

/-- The state a program leaves that is killed after `n` statements. -/
def killedAfter (x : Prog σ ε Unit) (n : Nat) (st : σ) : σ := (x.runFrom ⟨st, some n⟩).2.state

/-- The state after runs that are all killed. -/
def afterKills (x : Prog σ ε Unit) : List Nat → σ → σ
  | [], st => st
  | n :: ns, st => afterKills x ns (killedAfter x n st)

/-- `x` executes `ks` from `st`. -/
def Performs (run : κ → σ → Except ε σ) (x : Prog σ ε Unit) (st : σ) (ks : List κ) : Prop :=
  ∀ left, x.runFrom ⟨st, left⟩ = (perform run ks).runFrom ⟨st, left⟩

variable {run : κ → σ → Except ε σ} {x y : Prog σ ε Unit} {st st' : σ} {k : κ} {ks ls : List κ}

theorem bind_runFrom (x : Prog σ ε α) (f : α → Prog σ ε β) (s : Session σ) :
    (x >>= f).runFrom s = match x.runFrom s with
      | (.ok a, s') => (f a).runFrom s'
      | (.error h, s') => (.error h, s') := rfl

theorem read_bind (f : σ → Prog σ ε α) (s : Session σ) :
    (read >>= f).runFrom s = (f s.state).runFrom s := rfl

/-! ### Statements one after the other -/

theorem execAll_append : execAll run (ks ++ ls) st =
    match execAll run ks st with
    | .ok st' => execAll run ls st'
    | .error e => .error e := by
  induction ks generalizing st with
  | nil => rfl
  | cons k ks ih =>
      simp only [List.cons_append, execAll]
      cases run k st with
      | ok st' => exact ih
      | error e => rfl

theorem execAll_append_of_ok (h : execAll run ks st = .ok st') :
    execAll run (ks ++ ls) st = execAll run ls st' := by
  rw [execAll_append, h]

theorem reached_of_ok (h : execAll run ks st = .ok st') : reached run ks st = st' := by
  induction ks generalizing st with
  | nil => exact Except.ok.inj h
  | cons k ks ih =>
      simp only [execAll] at h
      simp only [reached]
      cases hk : run k st with
      | ok st₁ =>
          rw [hk] at h
          exact ih h
      | error e =>
          rw [hk] at h
          cases h

/-- A property every statement keeps holds as far as they get. -/
theorem reached_induction {P : σ → Prop}
    (hstep : ∀ k ∈ ks, ∀ st st', P st → run k st = .ok st' → P st') (h : P st) :
    P (reached run ks st) := by
  induction ks generalizing st with
  | nil => exact h
  | cons k ks ih =>
      simp only [reached]
      cases hk : run k st with
      | ok st' =>
          exact ih (fun l hl => hstep l (List.mem_cons_of_mem _ hl))
            (hstep k List.mem_cons_self st st' h hk)
      | error e => exact h

/-! ### Programs that perform statements -/

theorem exec_ok (h : run k st = .ok st') (left : Option Nat) (hleft : left ≠ some 0) :
    (exec run k).runFrom ⟨st, left⟩ = (.ok (), ⟨st', left.map (· - 1)⟩) := by
  match left with
  | none => simp only [exec, h]
  | some 0 => exact absurd rfl hleft
  | some (n + 1) => simp only [exec, h]

theorem exec_error {e : ε} (h : run k st = .error e) (left : Option Nat) (hleft : left ≠ some 0) :
    (exec run k).runFrom ⟨st, left⟩ = (.error (.raised e), ⟨st, left⟩) := by
  match left with
  | none => simp only [exec, h]
  | some 0 => exact absurd rfl hleft
  | some (n + 1) => simp only [exec, h]

theorem exec_bind_killed (f : Unit → Prog σ ε α) :
    (exec run k >>= f).runFrom ⟨st, some 0⟩ = (.error .killed, ⟨st, some 0⟩) := rfl

theorem exec_bind_ok (h : run k st = .ok st') {left : Option Nat} (hleft : left ≠ some 0)
    (f : Unit → Prog σ ε α) :
    (exec run k >>= f).runFrom ⟨st, left⟩ = (f ()).runFrom ⟨st', left.map (· - 1)⟩ := by
  rw [bind_runFrom, exec_ok h left hleft]

theorem perform_append (s : Session σ) :
    (perform run (ks ++ ls)).runFrom s = (perform run ks >>= fun _ => perform run ls).runFrom s := by
  induction ks generalizing s with
  | nil => rfl
  | cons k ks ih =>
      simp only [List.cons_append, perform, bind_runFrom]
      rcases (exec run k).runFrom s with ⟨_ | u, s'⟩
      · rfl
      · exact ih s'

/-- What a program that performs `ks` leaves when it is left alone. -/
theorem perform_none (ks : List κ) (st : σ) :
    (perform run ks).runFrom ⟨st, none⟩ = match execAll run ks st with
      | .ok st' => (.ok (), ⟨st', none⟩)
      | .error e => (.error (.raised e), ⟨reached run ks st, none⟩) := by
  induction ks generalizing st with
  | nil => rfl
  | cons k ks ih =>
      simp only [perform, execAll, reached, bind_runFrom]
      cases hk : run k st with
      | ok st' =>
          rw [exec_ok hk none nofun]
          exact ih st'
      | error e => rw [exec_error hk none nofun]

/-- What it leaves when it is killed after `n` statements. -/
theorem perform_some (ks : List κ) (n : Nat) (st : σ) :
    ((perform run ks).runFrom ⟨st, some n⟩).2.state = reached run (ks.take n) st := by
  induction ks generalizing n st with
  | nil => rw [List.take_nil]; rfl
  | cons k ks ih =>
      match n with
      | 0 => rfl
      | n + 1 =>
          simp only [perform, List.take_succ_cons, reached, bind_runFrom]
          cases hk : run k st with
          | ok st' =>
              rw [exec_ok hk (some (n + 1)) nofun]
              exact ih n st'
          | error e => rw [exec_error hk (some (n + 1)) nofun]

/-- A program that performed `ks` executed all of them. -/
theorem execAll_of_perform {left : Option Nat} {u : Unit} {s : Session σ}
    (h : (perform run ks).runFrom ⟨st, left⟩ = (.ok u, s)) : execAll run ks st = .ok s.state := by
  induction ks generalizing st left with
  | nil =>
      obtain ⟨-, rfl⟩ := Prod.mk.inj h
      rfl
  | cons k ks ih =>
      simp only [perform, bind_runFrom] at h
      simp only [execAll]
      by_cases hleft : left = some 0
      · rw [hleft] at h
        cases h
      · cases hk : run k st with
        | ok st' =>
            rw [exec_ok hk left hleft] at h
            exact ih h
        | error e =>
            rw [exec_error hk left hleft] at h
            cases h

theorem Performs.completes_iff (h : Performs run x st ks) :
    Completes x st st' ↔ execAll run ks st = .ok st' := by
  rw [Completes, h none, perform_none]
  cases execAll run ks st with
  | ok st₁ => simp
  | error e => simp

theorem Performs.killedAfter (h : Performs run x st ks) (n : Nat) :
    killedAfter x n st = reached run (ks.take n) st := by
  rw [Durable.killedAfter, h (some n), perform_some]

theorem Performs.pure : Performs run (Pure.pure ()) st [] := fun _ => rfl

theorem Performs.exec (k : κ) : Performs run (Durable.exec run k) st [k] := by
  intro left
  simp only [perform, bind_runFrom]
  rcases (Durable.exec run k).runFrom ⟨st, left⟩ with ⟨_ | u, s'⟩
  · rfl
  · rfl

/-- A program that looks at the state goes on as the state tells it. -/
theorem Performs.read {f : σ → Prog σ ε Unit} (h : Performs run (f st) st ks) :
    Performs run (Durable.read >>= f) st ks := h

/-- One program after another. -/
theorem Performs.bind (hx : Performs run x st ks)
    (hy : ∀ st', execAll run ks st = .ok st' → Performs run y st' ls) :
    Performs run (x >>= fun _ => y) st (ks ++ ls) := by
  intro left
  rw [perform_append, bind_runFrom, bind_runFrom, hx left]
  rcases h : (perform run ks).runFrom ⟨st, left⟩ with ⟨e | u, s'⟩
  · rfl
  · exact hy s'.state (execAll_of_perform h) s'.left

/-! ### Units -/

theorem reached_append_of_ok (h : execAll run ks st = .ok st') :
    reached run (ks ++ ls) st = reached run ls st' := by
  induction ks generalizing st with
  | nil => rw [← Except.ok.inj h]; rfl
  | cons k ks ih =>
      simp only [execAll] at h
      simp only [List.cons_append, reached]
      cases hk : run k st with
      | ok st₁ =>
          rw [hk] at h
          exact ih h
      | error e =>
          rw [hk] at h
          cases h

/-- Nothing is executed behind a statement that fails. -/
theorem reached_of_error {e : ε} (h : run k st = .error e) (n : Nat) :
    reached run ((k :: ks).take n) st = st := by
  match n with
  | 0 => rfl
  | n + 1 => simp only [List.take_succ_cons, reached, h]

/-- Statements that are cut after `n` are cut between two units, or not at all. -/
def Boundary (units : List (List κ)) (n : Nat) : Prop :=
  ∃ j, units.flatten.take n = (units.take j).flatten

/-- Every kill comes between two units of the statements that its run performs. -/
def KillsBetween (x : Prog σ ε Unit) (units : σ → List (List κ)) : List Nat → σ → Prop
  | [], _ => True
  | n :: ns, st => Boundary (units st) n ∧ KillsBetween x units ns (killedAfter x n st)

/-- Units that go through from one good state to the next, and are stuck inside. -/
inductive UnitRun (run : κ → σ → Except ε σ) (Good Stuck : σ → Prop) :
    σ → List (List κ) → σ → Prop where
  | nil {st : σ} (h : Good st) : UnitRun run Good Stuck st [] st
  | cons {st st₁ st₂ : σ} {unit : List κ} {units : List (List κ)} (h : Good st)
      (hok : execAll run unit st = .ok st₁)
      (hin : ∀ n, 0 < n → n < unit.length → Stuck (reached run (unit.take n) st))
      (hrest : UnitRun run Good Stuck st₁ units st₂) :
      UnitRun run Good Stuck st (unit :: units) st₂

section UnitRun

variable {Good Stuck P : σ → Prop} {units : List (List κ)}

theorem UnitRun.execAll (h : UnitRun run Good Stuck st units st') :
    execAll run units.flatten st = .ok st' := by
  induction h with
  | nil => rfl
  | cons _ hok _ _ ih => rw [List.flatten_cons, execAll_append_of_ok hok, ih]

theorem UnitRun.between (h : UnitRun run Good Stuck st units st') (j : Nat) :
    Good (reached run (units.take j).flatten st) := by
  induction h generalizing j with
  | nil h => rw [List.take_nil]; exact h
  | cons h hok _ _ ih =>
      match j with
      | 0 => exact h
      | j + 1 =>
          rw [List.take_succ_cons, List.flatten_cons, reached_append_of_ok hok]
          exact ih j

theorem UnitRun.inside (h : UnitRun run Good Stuck st units st') {n : Nat}
    (hn : ¬ Boundary units n) : Stuck (reached run (units.flatten.take n) st) := by
  induction h generalizing n with
  | nil => exact absurd ⟨0, by simp⟩ hn
  | @cons st st₁ st₂ unit units _ hok hin _ ih =>
      by_cases hlt : n < unit.length
      · have hpos : 0 < n := by
          refine Nat.pos_of_ne_zero fun h0 => hn ⟨0, ?_⟩
          rw [h0, List.take_zero, List.take_zero, List.flatten_nil]
        rw [List.flatten_cons, List.take_append_of_le_length (Nat.le_of_lt hlt)]
        exact hin n hpos hlt
      · have htake : (unit :: units).flatten.take n =
            unit ++ units.flatten.take (n - unit.length) := by
          rw [List.flatten_cons, List.take_append, List.take_of_length_le (Nat.le_of_not_lt hlt)]
        rw [htake, reached_append_of_ok hok]
        refine ih fun hb => hn ?_
        obtain ⟨j, hj⟩ := hb
        exact ⟨j + 1, by rw [htake, hj, List.take_succ_cons, List.flatten_cons]⟩

/-- What every statement keeps may be asked of the good states as well. -/
theorem UnitRun.and (hkeep : ∀ k st st', P st → run k st = .ok st' → P st') (hP : P st)
    (h : UnitRun run Good Stuck st units st') :
    UnitRun run (fun st => Good st ∧ P st) Stuck st units st' := by
  induction h with
  | nil h => exact .nil ⟨h, hP⟩
  | cons h hok hin _ ih =>
      refine .cons ⟨h, hP⟩ hok hin (ih ?_)
      rw [← reached_of_ok hok]
      exact reached_induction (fun k _ st st' => hkeep k st st') hP

/-- Statements that keep the good states are units by themselves. -/
theorem UnitRun.singles (hgood : ∀ st, P st → Good st)
    (hkeep : ∀ k ∈ ks, ∀ st st', P st → run k st = .ok st' → P st') {st₁ : σ} (h : P st)
    (hok : Durable.execAll run ks st = .ok st₁) (hrest : UnitRun run Good Stuck st₁ units st') :
    UnitRun run Good Stuck st (ks.map ([·]) ++ units) st' := by
  induction ks generalizing st with
  | nil =>
      cases hok
      exact hrest
  | cons k ks ih =>
      simp only [Durable.execAll] at hok
      cases hk : run k st with
      | error e =>
          rw [hk] at hok
          cases hok
      | ok st₂ =>
          rw [hk] at hok
          refine .cons (hgood st h) (by simp only [Durable.execAll, hk]) ?_
            (ih (fun l hl => hkeep l (List.mem_cons_of_mem _ hl))
              (hkeep k List.mem_cons_self st st₂ h hk) hok)
          intro n hpos hlt
          exact absurd hlt (Nat.not_lt.mpr hpos)

end UnitRun

/-- A program that can be started again where it was killed between two units, and is stuck for
ever where it was killed inside one. -/
structure Restartable (run : κ → σ → Except ε σ) (x : Prog σ ε Unit) (units : σ → List (List κ))
    (Good Stuck : σ → Prop) : Prop where
  performs : ∀ {st}, Good st → Performs run x st (units st).flatten
  runs : ∀ {st}, Good st → ∃ st', UnitRun run Good Stuck st (units st) st'
  stuck : ∀ {st}, Stuck st → ∀ n, Durable.killedAfter x n st = st

/-- **Kills between units are harmless, and no other is.** -/
theorem Restartable.afterKills {units : σ → List (List κ)} {Good Stuck : σ → Prop}
    (h : Restartable run x units Good Stuck) (ns : List Nat) {st : σ} (hst : Good st) :
    KillsBetween x units ns st ∧ Good (afterKills x ns st) ∨
      ¬ KillsBetween x units ns st ∧ Stuck (afterKills x ns st) := by
  have hstuck : ∀ (ns : List Nat) {st : σ}, Stuck st → Durable.afterKills x ns st = st := by
    intro ns
    induction ns with
    | nil => exact fun _ => rfl
    | cons n ns ih =>
        intro st hs
        rw [Durable.afterKills, h.stuck hs n, ih hs]
  induction ns generalizing st with
  | nil => exact .inl ⟨trivial, hst⟩
  | cons n ns ih =>
      have hkill := (h.performs hst).killedAfter n
      obtain ⟨st', hrun⟩ := h.runs hst
      by_cases hb : Boundary (units st) n
      · obtain ⟨j, hj⟩ := hb
        have hgood : Good (Durable.killedAfter x n st) := by
          rw [hkill, hj]
          exact hrun.between j
        rcases ih hgood with ⟨hk, hg⟩ | ⟨hk, hs⟩
        · exact .inl ⟨⟨⟨j, hj⟩, hk⟩, hg⟩
        · exact .inr ⟨fun hk' => hk hk'.2, hs⟩
      · have hs : Stuck (Durable.killedAfter x n st) := by
          rw [hkill]
          exact hrun.inside hb
        refine .inr ⟨fun hk => hb hk.1, ?_⟩
        rw [Durable.afterKills, hstuck ns hs]
        exact hs

end Support.Durable
