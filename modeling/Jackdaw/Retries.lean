import Mathlib.Tactic.Linarith
import Mathlib.Tactic.NormNum
import Mathlib.Tactic.Ring
import Jackdaw.Support.Window
import Jackdaw.Services.RelayCert

/-!
# Serve — retries at first boot

The loop of `_ensure_relay_cert` in `serve.py` on a clock: `issue_relay_cert` is called, takes as
long as it takes and fails, and after a sleep it is called again.  The sleeps double from
`_RETRY_INITIAL_S` up to `_RETRY_MAX_S`.  What an attempt takes is measured to the moment the sleep
begins; a sleep that oversleeps counts towards the attempt before it.

* `first_boot_retries_iff`: an hour never contains the start of more than five attempts, exactly
  where three sums of durations early in the run are long enough; attempts that fail at once are
  seven in the first hour (`seven_in_an_hour`).
-/

namespace Jackdaw

open Support

/-- `_RETRY_INITIAL_S`. -/
def retryInitialS : ℕ := 60

/-- `_RETRY_MAX_S`. -/
def retryMaxS : ℕ := 900

/-- A call of `issue_relay_cert`: when it is made, and the delay at that time. -/
structure Attempt (K : Type*) where
  start : K
  delay : ℕ

section Retries

variable {K : Type*} [Field K]

/-- What the failure of an attempt leads to: a certificate with days left is served, else the loop
sleeps and goes on with twice the delay. -/
def Attempt.afterFailure (days : Option ℚ) (duration : K) (a : Attempt K) : Option (Attempt K) :=
  if days.any (0 < ·) then none
  else some ⟨a.start + duration + a.delay, min (a.delay * 2) retryMaxS⟩

/-- The attempts of `_ensure_relay_cert` that found `days`, when all of them fail; `durations n` is
what attempt `n` takes. -/
def ensureAttempts (days : Option ℚ) (t₀ : K) (durations : ℕ → K) : ℕ → Option (Attempt K)
  | 0 => some ⟨t₀, retryInitialS⟩
  | n + 1 => (ensureAttempts days t₀ durations n).bind (Attempt.afterFailure days (durations n))

/-- The delay after attempt `n`. -/
def retryDelay : ℕ → ℕ
  | 0 => retryInitialS
  | n + 1 => min (retryDelay n * 2) retryMaxS

/-- The start of attempt `n`. -/
def attemptStart (t₀ : K) (durations : ℕ → K) : ℕ → K
  | 0 => t₀
  | n + 1 => attemptStart t₀ durations n + durations n + retryDelay n

variable {days : Option ℚ} {t₀ : K} {d : ℕ → K}

/-- Without a certificate that has days left the loop never ends. -/
theorem ensureAttempts_eq (hdays : days.any (0 < ·) = false) (n : ℕ) :
    ensureAttempts days t₀ d n = some ⟨attemptStart t₀ d n, retryDelay n⟩ := by
  induction n with
  | zero => rfl
  | succ n ih =>
      rw [ensureAttempts, ih, Option.bind_some, Attempt.afterFailure, hdays]
      rfl

theorem retryDelay_le (n : ℕ) : retryDelay n ≤ retryMaxS := by
  cases n with
  | zero => decide
  | succ n => exact min_le_right _ _

/-- From the fifth on, the delays are the longest. -/
theorem retryDelay_capped (n : ℕ) : retryDelay (n + 4) = retryMaxS := by
  induction n with
  | zero => decide
  | succ n ih =>
      have hsucc : retryDelay (n + 1 + 4) = min (retryDelay (n + 4) * 2) retryMaxS := rfl
      rw [hsucc, ih]
      decide

/-- The delays between an attempt and the fifth after it. -/
def delaySum (i : ℕ) : ℕ :=
  retryDelay i + retryDelay (i + 1) + retryDelay (i + 2) + retryDelay (i + 3) + retryDelay (i + 4)

/-- Past the third attempt the delays alone make an hour. -/
theorem le_delaySum (i : ℕ) : 3600 ≤ delaySum (i + 3) := by
  have h1 : retryDelay (i + 3 + 1) = 900 := retryDelay_capped i
  have h2 : retryDelay (i + 3 + 2) = 900 := retryDelay_capped (i + 1)
  have h3 : retryDelay (i + 3 + 3) = 900 := retryDelay_capped (i + 2)
  have h4 : retryDelay (i + 3 + 4) = 900 := retryDelay_capped (i + 3)
  unfold delaySum
  omega

/-- What an attempt and the four after it take. -/
def durationSum (d : ℕ → K) (i : ℕ) : K := d i + d (i + 1) + d (i + 2) + d (i + 3) + d (i + 4)

theorem attemptStart_add_five (i : ℕ) :
    attemptStart t₀ d (i + 5) = attemptStart t₀ d i + (durationSum d i + delaySum i) := by
  simp only [attemptStart, durationSum, delaySum]
  push_cast
  ring

end Retries

section Limit

variable {K : Type*} [Field K] [LinearOrder K]

/-- Every hour contains the start of at most five attempts, and no delay is longer than fifteen
minutes. -/
def UnderLimit (days : Option ℚ) (t₀ : K) (durations : ℕ → K) : Prop :=
  (∀ t, ∀ s : Finset ℕ, (∀ n ∈ s, ∃ a, ensureAttempts days t₀ durations n = some a ∧
    t ≤ a.start ∧ a.start < t + 3600) → s.card ≤ 5) ∧
  ∀ n a, ensureAttempts days t₀ durations n = some a → a.delay ≤ 900

variable {days : Option ℚ} {t₀ : K} {d : ℕ → K}

theorem underLimit_iff (hdays : days.any (0 < ·) = false) :
    UnderLimit days t₀ d ↔ Window.AtMost 5 3600 (attemptStart t₀ d) := by
  simp only [UnderLimit, ensureAttempts_eq hdays, Option.some.injEq, exists_eq_left', forall_eq']
  exact and_iff_left fun n => retryDelay_le n

variable [IsStrictOrderedRing K]

theorem attemptStart_mono (hd : ∀ n, 0 ≤ d n) : Monotone (attemptStart t₀ d) := by
  refine monotone_nat_of_le_succ fun n => ?_
  have hdelay : (0 : K) ≤ retryDelay n := Nat.cast_nonneg _
  rw [attemptStart]
  linarith [hd n]

theorem underLimit_iff_sums (hdays : days.any (0 < ·) = false) (hd : ∀ n, 0 ≤ d n) :
    UnderLimit days t₀ d ↔ ∀ i, 3600 ≤ durationSum d i + delaySum i := by
  rw [underLimit_iff hdays, Window.atMost_iff (attemptStart_mono hd)]
  refine forall_congr' fun i => ?_
  rw [attemptStart_add_five, add_le_add_iff_left]

/-- **First-boot retries against the limit of the CA.**  Without a certificate that has days left,
for every duration of each attempt: an hour never contains the start of more than five attempts, and
no delay is longer than fifteen minutes, exactly where the first five attempts take at least 1800
seconds together, the five from the second on 960, and the five from the third on 180. -/
theorem first_boot_retries_iff (days : Option ℚ) (hdays : days.any (0 < ·) = false) (t₀ : K)
    (d : ℕ → K) (hd : ∀ n, 0 ≤ d n) : UnderLimit days t₀ d ↔
      1800 ≤ d 0 + d 1 + d 2 + d 3 + d 4 ∧ 960 ≤ d 1 + d 2 + d 3 + d 4 + d 5 ∧
      180 ≤ d 2 + d 3 + d 4 + d 5 + d 6 := by
  rw [underLimit_iff_sums hdays hd]
  have h0 : ((delaySum 0 : ℕ) : K) = 1800 := by
    have hsum : delaySum 0 = 1800 := by decide
    rw [hsum]
    norm_num
  have h1 : ((delaySum 1 : ℕ) : K) = 2640 := by
    have hsum : delaySum 1 = 2640 := by decide
    rw [hsum]
    norm_num
  have h2 : ((delaySum 2 : ℕ) : K) = 3420 := by
    have hsum : delaySum 2 = 3420 := by decide
    rw [hsum]
    norm_num
  constructor
  · intro h
    have hfirst := h 0
    have hsecond := h 1
    have hthird := h 2
    rw [h0, durationSum] at hfirst
    rw [h1, durationSum] at hsecond
    rw [h2, durationSum] at hthird
    exact ⟨by linarith, by linarith, by linarith⟩
  · rintro ⟨hfirst, hsecond, hthird⟩ i
    match i with
    | 0 =>
        rw [h0, durationSum]
        linarith
    | 1 =>
        rw [h1, durationSum]
        linarith
    | 2 =>
        rw [h2, durationSum]
        linarith
    | i + 3 =>
        have hdelays : (3600 : K) ≤ delaySum (i + 3) := by exact_mod_cast le_delaySum i
        have hdurations : 0 ≤ durationSum d (i + 3) := by
          unfold durationSum
          linarith [hd (i + 3), hd (i + 3 + 1), hd (i + 3 + 2), hd (i + 3 + 3), hd (i + 3 + 4)]
        linarith

/-- Attempts that take ten minutes each stay under the limit. -/
theorem under_limit_ten_minutes : (none : Option ℚ).any (0 < ·) = false ∧
    (∀ _ : ℕ, (0 : ℚ) ≤ 600) ∧ UnderLimit none 0 (fun _ => (600 : ℚ)) :=
  ⟨rfl, fun _ => by norm_num,
    (first_boot_retries_iff none rfl 0 (fun _ => 600) fun _ => by norm_num).mpr (by norm_num)⟩

/-- **Seven attempts in an hour**: where every attempt fails at once, they start 0, 60, 180, 420,
900, 1800 and 2700 seconds after the first. -/
theorem seven_in_an_hour : ¬ ∀ (days : Option ℚ) (t₀ : ℚ) (d : ℕ → ℚ),
    days.any (0 < ·) = false → (∀ n, 0 ≤ d n) → UnderLimit days t₀ d := by
  intro hall
  have hstarts : ∀ n < 7, (0 : ℚ) ≤ attemptStart 0 (fun _ => 0) n ∧
      attemptStart (0 : ℚ) (fun _ => 0) n < 0 + 3600 := by decide +kernel
  have hcard := (hall none 0 (fun _ => 0) rfl fun _ => le_refl 0).1 0 (Finset.range 7) fun n hn =>
    ⟨_, ensureAttempts_eq rfl n, hstarts n (Finset.mem_range.mp hn)⟩
  rw [Finset.card_range] at hcard
  omega

end Limit

end Jackdaw
