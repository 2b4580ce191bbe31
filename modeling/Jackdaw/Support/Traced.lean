import Mathlib.Data.List.Basic

/-!
# Support — Traced calls

Code that awaits calls and may raise, with the calls it makes written down, and the loop that runs
such a body for ever.

* `Traced.loop`: `while True`, up to a given pass, over the outcomes of its passes.
* `Traced.loop_goes_on_iff`: the loop makes a call of every pass again and again exactly where no
  pass raises.
* `Traced.retry`: a bounded number of attempts, as long as what they raise is caught; its calls
  are those of the attempts made (`Traced.retry_eq_numbered`).
* `Traced.retry_inFull_iff`: all of them are made, up to the first success, exactly where no
  attempt before a success raises what is not caught.
-/

namespace Support

variable {α β κ ε : Type}

/-- The calls made, and what came of them. -/
structure Traced (κ ε β : Type) where
  calls : List κ
  result : Except ε β

namespace Traced

instance : Monad (Traced κ ε) where
  pure b := ⟨[], .ok b⟩
  bind x f := match x.result with
    | .ok b => ⟨x.calls ++ (f b).calls, (f b).result⟩
    | .error e => ⟨x.calls, .error e⟩

/-- `await` of a call, with its outcome. -/
def await (c : κ) (r : Except ε β) : Traced κ ε β := ⟨[c], r⟩

/-- Code that calls nothing. -/
def silent (r : Except ε β) : Traced κ ε β := ⟨[], r⟩

/-- `try: … except Exception: …`: whether the body ran through. -/
def tryExcept (x : Traced κ ε Unit) : Traced κ ε Bool := ⟨x.calls, .ok x.result.isOk⟩

@[simp] theorem result_pure (b : β) : (pure b : Traced κ ε β).result = .ok b := rfl

@[simp] theorem calls_pure (b : β) : (pure b : Traced κ ε β).calls = [] := rfl

@[simp] theorem result_await (c : κ) (r : Except ε β) : (await c r).result = r := rfl

@[simp] theorem await_bind_ok (c : κ) (b : α) (f : α → Traced κ ε β) :
    (await c (.ok b) >>= f) = ⟨c :: (f b).calls, (f b).result⟩ := rfl

@[simp] theorem tryExcept_bind (c : κ) (r : Except ε Unit) (f : Bool → Traced κ ε β) :
    (tryExcept (await c r) >>= f) = ⟨c :: (f r.isOk).calls, (f r.isOk).result⟩ := rfl

/-- `while True: body`, up to pass `n`. -/
def loop (body : α → Traced κ ε Unit) (outs : Nat → α) : Nat → Traced κ ε Unit
  | 0 => pure ()
  | n + 1 => do
      loop body outs n
      body (outs n)

variable {body : α → Traced κ ε Unit} {outs : Nat → α}

theorem loop_succ_of_ok {n : Nat} (h : (loop body outs n).result = .ok ()) :
    loop body outs (n + 1) =
      ⟨(loop body outs n).calls ++ (body (outs n)).calls, (body (outs n)).result⟩ := by
  simp only [loop, bind, h]

/-- A loop that has raised is over. -/
theorem loop_succ_of_error {n : Nat} {e : ε} (h : (loop body outs n).result = .error e) :
    loop body outs (n + 1) = ⟨(loop body outs n).calls, .error e⟩ := by
  simp only [loop, bind, h]

/-- While no pass raises the loop makes the calls of all of them. -/
theorem loop_of_ok (h : ∀ n, (body (outs n)).result = .ok ()) (n : Nat) :
    loop body outs n =
      ⟨(List.range n).flatMap fun k => (body (outs k)).calls, .ok ()⟩ := by
  induction n with
  | zero => rfl
  | succ n ih =>
      rw [loop_succ_of_ok (by rw [ih]), ih, h n]
      simp [List.range_succ]

/-- **The loop goes on for ever exactly where no pass raises**: a call that every pass makes once
is made `n` times in `n` passes. -/
theorem loop_goes_on_iff [DecidableEq κ] {c : κ} (hc : ∀ n, (body (outs n)).calls.count c = 1) :
    (∀ n, (loop body outs n).calls.count c = n) ↔ ∀ n, (body (outs n)).result = .ok () := by
  constructor
  · intro hcount n
    -- The first pass to raise would be the last to make the call.
    have hok : ∀ n, (loop body outs n).result = .ok () := by
      intro n
      cases hr : (loop body outs n).result with
      | ok u => rfl
      | error e =>
          have h := hcount (n + 1)
          rw [loop_succ_of_error hr] at h
          exact absurd (h.symm.trans (hcount n)) (Nat.succ_ne_self n)
    have h := hok (n + 1)
    rwa [loop_succ_of_ok (hok n)] at h
  · intro hok n
    rw [loop_of_ok hok n, List.count_flatMap]
    simp [Function.comp_def, hc]

/-! ### Retries -/

/-- `for k in range(k, last + 1)` with `left` passes to go, over `try: run(k); return` and an
`except` that raises the last failure again. -/
def retry (run : Nat → Traced κ ε Unit) (caught : ε → Bool) (last : Nat) :
    (k left : Nat) → Traced κ ε Unit
  | _, 0 => pure ()
  | k, left + 1 =>
      match (run k).result with
      | .ok () => ⟨(run k).calls, .ok ()⟩
      | .error e =>
          if caught e = true ∧ k ≠ last then
            ⟨(run k).calls ++ (retry run caught last (k + 1) left).calls,
              (retry run caught last (k + 1) left).result⟩
          else ⟨(run k).calls, .error e⟩

/-- Attempts that are known by their numbers. -/
def numbered (run : Nat → Except ε Unit) (k : Nat) : Traced Nat ε Unit := await k (run k)

section Retry

variable {run : Nat → Traced κ ε Unit} {caught : ε → Bool} {last k left : Nat} {e : ε}

theorem retry_of_ok (h : (run k).result = .ok ()) :
    retry run caught last k (left + 1) = ⟨(run k).calls, .ok ()⟩ := by
  rw [retry, h]

theorem retry_of_raised (h : (run k).result = .error e) (hend : ¬ (caught e = true ∧ k ≠ last)) :
    retry run caught last k (left + 1) = ⟨(run k).calls, .error e⟩ := by
  simp only [retry, h, if_neg hend]

theorem retry_of_caught (h : (run k).result = .error e) (hgo : caught e = true ∧ k ≠ last) :
    retry run caught last k (left + 1) =
      ⟨(run k).calls ++ (retry run caught last (k + 1) left).calls,
        (retry run caught last (k + 1) left).result⟩ := by
  simp only [retry, h, if_pos hgo]

/-- The calls made are those of the attempts made, one after the other. -/
theorem retry_eq_numbered : retry run caught last k left =
    ⟨(retry (numbered fun k => (run k).result) caught last k left).calls.flatMap
        fun k => (run k).calls,
      (retry (numbered fun k => (run k).result) caught last k left).result⟩ := by
  induction left generalizing k with
  | zero => rfl
  | succ left ih =>
      have hnum : (numbered (fun k => (run k).result) k).result = (run k).result := rfl
      cases hrun : (run k).result with
      | ok u =>
          rw [retry_of_ok hrun, retry_of_ok (hnum.trans hrun)]
          simp [numbered, await]
      | error e =>
          by_cases hgo : caught e = true ∧ k ≠ last
          · rw [retry_of_caught hrun hgo, retry_of_caught (hnum.trans hrun) hgo, ih]
            simp [numbered, await]
          · rw [retry_of_raised hrun hgo, retry_of_raised (hnum.trans hrun) hgo]
            simp [numbered, await]

end Retry

section InFull

variable {run : Nat → Except ε Unit} {caught : ε → Bool} {last k : Nat}

/-- The attempts from the first on are those up to the first that succeeds, or all, and the last of
them decides. -/
def InFull (run : Nat → Except ε Unit) (caught : ε → Bool) (first last : Nat)
    (t : Traced Nat ε Unit) : Prop :=
  ∃ k, first ≤ k ∧ k ≤ last ∧ t.calls = List.range' first (k + 1 - first) ∧
    (∀ j, first ≤ j → j < k → run j ≠ .ok ()) ∧ t.result = run k ∧
    (run k = .ok () ∨ k = last ∧ ∃ e, run k = .error e ∧ caught e = true)

theorem InFull.single (hle : k ≤ last) {t : Traced Nat ε Unit} (ht : t = ⟨[k], run k⟩)
    (h : run k = .ok () ∨ k = last ∧ ∃ e, run k = .error e ∧ caught e = true) :
    InFull run caught k last t := by
  subst ht
  refine ⟨k, Nat.le_refl k, hle, ?_, fun j hj hlt => absurd hlt (by omega), rfl, h⟩
  rw [Nat.add_sub_cancel_left]
  rfl

/-- An attempt that is not the last one made comes before the others. -/
theorem inFull_cons_iff {e : ε} (he : run k = .error e) (hlast : k ≠ last)
    (t : Traced Nat ε Unit) :
    InFull run caught k last ⟨k :: t.calls, t.result⟩ ↔ InFull run caught (k + 1) last t := by
  have hrange : ∀ m, k + 1 ≤ m →
      List.range' k (m + 1 - k) = k :: List.range' (k + 1) (m + 1 - (k + 1)) := by
    intro m hm
    rw [← List.range'_succ]
    congr 1
    omega
  constructor
  · rintro ⟨m, hkm, hml, hcalls, hfail, hresult, hend⟩
    have hne : m ≠ k := by
      rintro rfl
      rcases hend with hok | ⟨hm, -⟩
      · rw [he] at hok
        cases hok
      · exact hlast hm
    rw [hrange m (by omega)] at hcalls
    exact ⟨m, by omega, hml, List.tail_eq_of_cons_eq hcalls, fun j hj => hfail j (by omega),
      hresult, hend⟩
  · rintro ⟨m, hkm, hml, hcalls, hfail, hresult, hend⟩
    refine ⟨m, by omega, hml, ?_, fun j hj hlt => ?_, hresult, hend⟩
    · rw [hrange m hkm, hcalls]
    · rcases Nat.eq_or_lt_of_le hj with rfl | hlt'
      · rw [he]
        exact fun h => by cases h
      · exact hfail j hlt' hlt

/-- **Retries are made in full**, exactly where every attempt that raises what is not caught comes
behind a success. -/
theorem retry_inFull_iff {left : Nat} (hsum : k + left = last + 1) (hpos : 0 < left) :
    InFull run caught k last (retry (numbered run) caught last k left) ↔
      ∀ j, k ≤ j → j ≤ last → (∃ e, run j = .error e ∧ caught e = false) →
        ∃ i, k ≤ i ∧ i < j ∧ run i = .ok () := by
  induction left generalizing k with
  | zero => exact absurd hpos (Nat.lt_irrefl 0)
  | succ left ih =>
      cases hrun : run k with
      | ok u =>
          refine iff_of_true (.single (by omega) (by rw [retry_of_ok hrun, hrun]; rfl) (.inl hrun)) ?_
          rintro j hj - ⟨e, he, -⟩
          refine ⟨k, Nat.le_refl k, Nat.lt_of_le_of_ne hj ?_, hrun⟩
          rintro rfl
          rw [hrun] at he
          cases he
      | error e =>
          by_cases hcaught : caught e = true
          · by_cases hlast : k = last
            · have hend : ¬ (caught e = true ∧ k ≠ last) := fun h => h.2 hlast
              refine iff_of_true (.single (by omega) (by rw [retry_of_raised hrun hend, hrun]; rfl)
                (.inr ⟨hlast, e, hrun, hcaught⟩)) ?_
              rintro j hj hjl ⟨e', he', hno⟩
              obtain rfl : j = k := by omega
              cases hrun.symm.trans he'
              rw [hcaught] at hno
              cases hno
            · -- the attempts behind this one
              rw [retry_of_caught hrun ⟨hcaught, hlast⟩]
              refine (inFull_cons_iff hrun hlast _).trans ((ih (by omega) (by omega)).trans ?_)
              constructor
              · rintro h j hj hjl ⟨e', he', hno⟩
                have hne : j ≠ k := by
                  rintro rfl
                  cases hrun.symm.trans he'
                  rw [hcaught] at hno
                  cases hno
                obtain ⟨i, hi, hlt, hok⟩ := h j (by omega) hjl ⟨e', he', hno⟩
                exact ⟨i, by omega, hlt, hok⟩
              · rintro h j hj hjl hraised
                obtain ⟨i, hi, hlt, hok⟩ := h j (by omega) hjl hraised
                refine ⟨i, ?_, hlt, hok⟩
                rcases Nat.eq_or_lt_of_le hi with rfl | hlt'
                · rw [hrun] at hok
                  cases hok
                · exact hlt'
          · have hend : ¬ (caught e = true ∧ k ≠ last) := fun h => hcaught h.1
            refine iff_of_false ?_ fun h => ?_
            · rw [retry_of_raised hrun hend]
              rintro ⟨m, hkm, -, hcalls, -, -, hfin⟩
              have hlen : [k].length = (List.range' k (m + 1 - k)).length := congrArg _ hcalls
              rw [List.length_range', List.length_singleton] at hlen
              obtain rfl : m = k := by omega
              rw [hrun] at hfin
              rcases hfin with hok | ⟨-, e', he', hcaught'⟩
              · cases hok
              · cases he'
                exact hcaught hcaught'
            · obtain ⟨i, hi, hlt, -⟩ :=
                h k (Nat.le_refl k) (by omega) ⟨e, hrun, Bool.eq_false_iff.mpr hcaught⟩
              omega

end InFull

end Traced

end Support
