import Jackdaw.Support.Traced
import Jackdaw.Services.RelayCert

/-!
# Background loops

`renewal_loop` of `relay_cert.py` and `_prune_loop` of `main.py`, over what the calls of each pass
come back with.

* `loops_survive_iff`: each loop sleeps and checks again after every pass, exactly where no pass
  raises.  The renewal guards the issuance and not the reload of the live context behind it, and
  the pruning guards nothing, so one failure there ends the loop for good (`loops_die`).
-/

namespace Jackdaw

open Support

/-- What `renewal_loop` awaits. -/
inductive RenewalCall where
  | sleep (seconds : Nat)
  | relayCertDaysRemaining
  | issueRelayCert
  | loadCertChain
deriving DecidableEq

/-- What the calls of one pass of `renewal_loop` come back with. -/
structure RenewalOutcome where
  days : Option ℚ
  issue : Except String Unit
  load : Except String Unit

/-- One pass of `renewal_loop`; `sslContext` tells whether there is a live context. -/
def renewalPass (sslContext : Bool) (out : RenewalOutcome) : Traced RenewalCall String Unit := do
  Traced.await (.sleep 86400) (.ok ())
  match ← Traced.await .relayCertDaysRemaining (.ok out.days) with
  | none => pure ()
  | some days =>
      if days ≥ renewThresholdDays then pure ()
      else do
        let issued ← Traced.tryExcept (Traced.await .issueRelayCert out.issue)
        if issued && sslContext then Traced.await .loadCertChain out.load else pure ()

/-- `renewal_loop`, up to a pass. -/
def renewalLoop (sslContext : Bool) (outs : Nat → RenewalOutcome) (n : Nat) :
    Traced RenewalCall String Unit :=
  Traced.loop (renewalPass sslContext) outs n

/-- What `_prune_loop` awaits. -/
inductive PruneCall where
  | sleep (seconds : Nat)
  | pruneNonces
deriving DecidableEq

/-- One pass of `_prune_loop`, on what `prune_nonces` comes back with. -/
def prunePass (prune : Except String Unit) : Traced PruneCall String Unit := do
  Traced.await (.sleep 60) (.ok ())
  Traced.await .pruneNonces prune

/-- `_prune_loop`, up to a pass. -/
def pruneLoop (prunes : Nat → Except String Unit) (n : Nat) : Traced PruneCall String Unit :=
  Traced.loop prunePass prunes n

/-- The pass renews the certificate and cannot load it into the live context. -/
def ReloadFails (sslContext : Bool) (out : RenewalOutcome) : Prop :=
  sslContext = true ∧ (∃ d, out.days = some d ∧ d < renewThresholdDays) ∧ out.issue = .ok () ∧
    out.load ≠ .ok ()

theorem count_renewalPass (sslContext : Bool) (out : RenewalOutcome) :
    (renewalPass sslContext out).calls.count (.sleep 86400) = 1 ∧
      (renewalPass sslContext out).calls.count .relayCertDaysRemaining = 1 := by
  obtain ⟨days, issue, load⟩ := out
  unfold renewalPass
  cases days with
  | none => exact ⟨rfl, rfl⟩
  | some d =>
      simp only [Traced.await_bind_ok]
      split
      · exact ⟨rfl, rfl⟩
      · simp only [Traced.tryExcept_bind]
        split
        · exact ⟨rfl, rfl⟩
        · exact ⟨rfl, rfl⟩

theorem renewalPass_ok_iff (sslContext : Bool) (out : RenewalOutcome) :
    (renewalPass sslContext out).result = .ok () ↔ ¬ ReloadFails sslContext out := by
  obtain ⟨days, issue, load⟩ := out
  unfold renewalPass ReloadFails
  cases days with
  | none => simp
  | some d =>
      by_cases hd : d ≥ renewThresholdDays
      · simp [hd]
      · cases issue with
        | error e => simp [hd, Except.isOk, Except.toBool]
        | ok u => cases sslContext <;> simp [hd, not_le.mp hd, Except.isOk, Except.toBool]

theorem prunePass_ok_iff (prune : Except String Unit) :
    (prunePass prune).result = .ok () ↔ prune = .ok () := Iff.rfl

/-- **The loops survive their passes**, exactly where no renewed certificate fails to load into
the live context and no pruning raises. -/
theorem loops_survive_iff (sslContext : Bool) (outs : Nat → RenewalOutcome)
    (prunes : Nat → Except String Unit) :
    ((∀ n, (renewalLoop sslContext outs n).calls.count (.sleep 86400) = n ∧
        (renewalLoop sslContext outs n).calls.count .relayCertDaysRemaining = n) ↔
      ∀ n, ¬ ReloadFails sslContext (outs n)) ∧
    ((∀ n, (pruneLoop prunes n).calls.count (.sleep 60) = n ∧
        (pruneLoop prunes n).calls.count .pruneNonces = n) ↔
      ∀ n, prunes n = .ok ()) := by
  have hrenewal := fun n => count_renewalPass sslContext (outs n)
  have hprune : ∀ n, (prunePass (prunes n)).calls.count (.sleep 60) = 1 ∧
      (prunePass (prunes n)).calls.count .pruneNonces = 1 := fun n => ⟨rfl, rfl⟩
  constructor
  · unfold renewalLoop
    rw [forall_and, Traced.loop_goes_on_iff fun n => (hrenewal n).1,
      Traced.loop_goes_on_iff fun n => (hrenewal n).2, and_self]
    exact forall_congr' fun n => renewalPass_ok_iff sslContext (outs n)
  · unfold pruneLoop
    rw [forall_and, Traced.loop_goes_on_iff fun n => (hprune n).1,
      Traced.loop_goes_on_iff fun n => (hprune n).2, and_self]
    exact forall_congr' fun n => prunePass_ok_iff (prunes n)

/-- **Loops that die**: the first pass renews a certificate that does not load, and the first
pruning raises; there is no second pass. -/
theorem loops_die :
    ¬ (∀ (sslContext : Bool) (outs : Nat → RenewalOutcome) (n : Nat),
      (renewalLoop sslContext outs n).calls.count .relayCertDaysRemaining = n) ∧
    ¬ ∀ (prunes : Nat → Except String Unit) (n : Nat),
      (pruneLoop prunes n).calls.count (.sleep 60) = n := by
  constructor
  · intro hall
    exact absurd (hall true (fun _ => ⟨some 10, .ok (), .error "key values mismatch"⟩) 2)
      (by decide)
  · intro hall
    exact absurd (hall (fun _ => .error "database is locked") 2) (by decide)

end Jackdaw
