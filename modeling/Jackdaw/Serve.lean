import Jackdaw.Support.Interleave
import Jackdaw.Services.RelayCert

/-!
# Serve — TLS at boot and renewals

`serve.py` with the renewals of `relay_cert.py`: a process takes `_ensure_relay_cert`, loads the
pair in `_build_tls_server`, and renews it for as long as it lives; it may be killed at any point,
a file operation included, and started again.

* `tls_pair_matches`: whenever `_ensure_relay_cert` has returned, and whenever a renewal reloads the
  live context, both files are on the disk and are those of one `write_relay_cert` call, in every
  run in which no such call is cut off between its two renames over a certificate that parses.
  One that is leaves the new key next to the old certificate, and the next start serves that pair
  where it cannot renew it (`mixed_pair`).
-/

namespace Jackdaw

open Support.Interleave

/-- Who awaits `issue_relay_cert`: `_ensure_relay_cert`, with the days it found, or the
`renewal_loop`, with or without a live context. -/
inductive Issuer where
  | ensure (days : Option ℚ)
  | renewal (sslContext : Bool)

/-- Where the process is. -/
inductive ServePc where
  /-- `_ensure_relay_cert` looks at the disk. -/
  | check
  | issue (issuer : Issuer)
  | write (issuer : Issuer) (w : WriteCall) (op : WriteOp)
  /-- `_ensure_relay_cert` has returned; `_build_tls_server` loads the pair. -/
  | returned
  /-- `renewal_loop` sleeps. -/
  | renew (sslContext : Bool)
  /-- `renewal_loop` loads the pair into the live context. -/
  | reload

/-- What decides the next move. -/
inductive ServeInput where
  | boot (tlsEnabled : Bool)
  | clock (now : ℚ)
  | issued (pemChain keyPem : String)
  | issueFails
  | opDone
  | opFails (left : Option Nat)
  | opKilled (left : Option Nat)
  | load

/-- The disk, and the texts of every `write_relay_cert` call so far. -/
structure RelayDisk where
  disk : Disk
  calls : List (String × String)

def RelayDisk.init : RelayDisk := ⟨{}, []⟩

/-- What an exception of `issue_relay_cert` leads to: a pair found valid is served, a missing one
is issued again after a sleep, and a renewal is left for the next day. -/
def Issuer.afterFailure : Issuer → ServePc
  | .ensure days => if days.any (0 < ·) then .returned else .issue (.ensure days)
  | .renewal sslContext => .renew sslContext

/-- What the return of `issue_relay_cert` leads to. -/
def Issuer.afterSuccess : Issuer → ServePc
  | .ensure _ => .returned
  | .renewal sslContext => if sslContext then .reload else .renew sslContext

/-- `_cert_days_remaining_if_usable`. -/
def certDaysRemainingIfUsable (x509 : String → Option ℚ) (d : Disk) (now : ℚ) : Option ℚ :=
  if relayCertExists x509 d then relayCertDaysRemaining x509 d now else none

/-- One move of the process: the disk and the place it leaves; a process without a place is gone, or
serves without a `renewal_loop`. -/
def serveSeg (x509 : String → Option ℚ) (loads : String → String → Bool) (s : RelayDisk) :
    ServePc → ServeInput → Option (RelayDisk × Option ServePc)
  | .check, .clock now =>
      let days := certDaysRemainingIfUsable x509 s.disk now
      if days.any (· ≥ renewThresholdDays) then some (s, some .returned)
      else some (s, some (.issue (.ensure days)))
  | .issue issuer, .issued pemChain keyPem =>
      some ({ s with calls := s.calls ++ [(pemChain, keyPem)] },
        some (.write issuer ⟨s.calls.length, pemChain, keyPem⟩ .mkdir))
  | .issue issuer, .issueFails => some (s, some issuer.afterFailure)
  | .write issuer w op, .opDone =>
      (op.done w s.disk).map fun d =>
        ({ s with disk := d }, some (match op.next with
          | some op' => .write issuer w op'
          | none => issuer.afterSuccess))
  | .write issuer w op, .opFails left =>
      some ({ s with disk := op.failed w s.disk left }, some issuer.afterFailure)
  | .write _ w op, .opKilled left => some ({ s with disk := op.failed w s.disk left }, none)
  | .returned, .load =>
      some (s, if loadCertChain loads s.disk then some (.renew true) else none)
  | .renew sslContext, .clock now =>
      let days := relayCertDaysRemaining x509 s.disk now
      if days.any (· < renewThresholdDays) then some (s, some (.issue (.renewal sslContext)))
      else some (s, some (.renew sslContext))
  | .reload, .load =>
      some (s, if loadCertChain loads s.disk then some (.renew true) else none)
  | _, _ => none

/-- The processes of the relay, one after the other. -/
def serve (x509 : String → Option ℚ) (loads : String → String → Bool) :
    Machine RelayDisk ServePc ServeInput where
  run _ _ s pc a := (serveSeg x509 loads s pc a).map fun r => ⟨r.1, r.2, none⟩
  arrive _ _ := none
  tick _ _ := none
  restart s
    | .boot tlsEnabled => some (s, if tlsEnabled then .check else .renew false)
    | _ => none

/-! ### What holds between two moves -/

variable {x509 : String → Option ℚ} {loads : String → String → Bool} {s s' : RelayDisk}
  {pc : ServePc} {a : ServeInput} {next : Option ServePc} {c c' : Config RelayDisk ServePc}

/-- Both files are there and are those of one call. -/
def Matched (s : RelayDisk) : Prop :=
  ∃ w : WriteCall, s.calls[w.number]? = some (w.pemChain, w.keyPem) ∧
    s.disk.fullchain = some w.chain ∧ s.disk.privkey = some w.key

/-- The certificate on the disk parses. -/
def Usable (x509 : String → Option ℚ) (s : RelayDisk) : Prop :=
  ∃ f, s.disk.fullchain = some f ∧ (x509 f.text).isSome

/-- A certificate that parses has its key next to it. -/
def Paired (x509 : String → Option ℚ) (s : RelayDisk) : Prop := Usable x509 s → Matched s

/-- The process is between the two renames. -/
def ServePc.Renaming : ServePc → Prop
  | .write _ _ .replaceCert => True
  | _ => False

/-- A call between its two renames gets to the second, where a certificate that parses is on the
disk. -/
def FinishesRenames (x509 : String → Option ℚ) (c c' : Config RelayDisk ServePc) : Prop :=
  ∀ i issuer w, c.tasks i = some (.write issuer w .replaceCert) → Usable x509 c.shared →
    c'.shared.disk.fullchain = some w.chain

/-- What an operation finds on the disk. -/
def WriteOp.Ready (w : WriteCall) (d : Disk) : WriteOp → Prop
  | .mkdir | .writeCertTmp => True
  | .writeKeyTmp => d.fullchainTmp = some w.chain
  | .chmodKeyTmp | .replaceKey => d.fullchainTmp = some w.chain ∧ d.privkeyTmp = some w.key
  | .replaceCert => d.fullchainTmp = some w.chain ∧ d.privkey = some w.key

/-- The days `_ensure_relay_cert` goes by are those of a certificate that parses. -/
def Issuer.Ok (x509 : String → Option ℚ) (s : RelayDisk) : Issuer → Prop
  | .ensure days => days.isSome → Usable x509 s
  | .renewal _ => True

/-- What the process knows of the disk. -/
def ServePc.Ok (x509 : String → Option ℚ) (s : RelayDisk) : ServePc → Prop
  | .check | .renew _ => True
  | .issue issuer => issuer.Ok x509 s
  | .write issuer w op => issuer.Ok x509 s ∧
      s.calls[w.number]? = some (w.pemChain, w.keyPem) ∧ op.Ready w s.disk
  | .returned | .reload => Matched s

theorem Usable.congr (hf : s'.disk.fullchain = s.disk.fullchain) :
    Usable x509 s' ↔ Usable x509 s := by
  unfold Usable
  rw [hf]

/-- A pair stays one while neither file changes and calls are only added. -/
theorem Matched.mono (hf : s'.disk.fullchain = s.disk.fullchain)
    (hk : s'.disk.privkey = s.disk.privkey) {more : List (String × String)}
    (hc : s'.calls = s.calls ++ more) (h : Matched s) : Matched s' := by
  obtain ⟨w, hw, hwf, hwk⟩ := h
  refine ⟨w, ?_, hf.trans hwf, hk.trans hwk⟩
  rw [hc, List.getElem?_append_left (List.getElem?_eq_some_iff.mp hw).1, hw]

theorem Paired.mono (hf : s'.disk.fullchain = s.disk.fullchain)
    (hk : s'.disk.privkey = s.disk.privkey) {more : List (String × String)}
    (hc : s'.calls = s.calls ++ more) (h : Paired x509 s) : Paired x509 s' :=
  fun hu => (h ((Usable.congr hf).mp hu)).mono hf hk hc

theorem Issuer.Ok.congr {issuer : Issuer} (hf : s'.disk.fullchain = s.disk.fullchain)
    (h : issuer.Ok x509 s) : issuer.Ok x509 s' := by
  cases issuer with
  | ensure days => exact fun hd => (Usable.congr hf).mpr (h hd)
  | renewal sslContext => trivial

/-- A failed issuance falls back on the pair that is there. -/
theorem Issuer.afterFailure_ok {issuer : Issuer} (h : issuer.Ok x509 s) (hp : Paired x509 s) :
    issuer.afterFailure.Ok x509 s := by
  cases issuer with
  | renewal sslContext => trivial
  | ensure days =>
      simp only [Issuer.afterFailure]
      split
      · next hd =>
          obtain ⟨d, rfl, -⟩ := (Option.any_eq_true _ _).mp hd
          exact hp (h rfl)
      · exact h

theorem Issuer.afterSuccess_ok {issuer : Issuer} (h : Matched s) :
    issuer.afterSuccess.Ok x509 s := by
  cases issuer with
  | ensure days => exact h
  | renewal sslContext =>
      cases sslContext with
      | true => exact h
      | false => trivial

/-- A call that is left between its renames has the key in place; with its certificate there as
well, or none that parses, the disk is in order. -/
theorem Paired.of_renaming {issuer : Issuer} {w : WriteCall}
    (hok : (ServePc.write issuer w .replaceCert).Ok x509 s)
    (hfin : Usable x509 s → s.disk.fullchain = some w.chain) : Paired x509 s :=
  fun hu => ⟨w, hok.2.1, hfin hu, hok.2.2.2⟩

/-- The days of a usable pair are those of a certificate that parses. -/
theorem usable_of_days {now : ℚ} (h : (certDaysRemainingIfUsable x509 s.disk now).isSome) :
    Usable x509 s := by
  unfold certDaysRemainingIfUsable at h
  split at h
  · next he =>
      unfold relayCertExists at he
      split at he
      · next f k hf hk => exact ⟨f, hf, he⟩
      · cases he
  · cases h

/-- An operation that fails leaves the served files as they are. -/
theorem paired_of_failed {issuer : Issuer} {w : WriteCall} {op : WriteOp} {left : Option Nat}
    (hok : (ServePc.write issuer w op).Ok x509 s)
    (hp : ¬ (ServePc.write issuer w op).Renaming → Paired x509 s)
    (hfin : op = .replaceCert → Usable x509 s →
      (op.failed w s.disk left).fullchain = some w.chain) :
    Paired x509 { s with disk := op.failed w s.disk left } := by
  obtain ⟨hf, hk⟩ := op.failed_served w s.disk left
  refine Paired.mono hf hk (List.append_nil _).symm ?_
  cases op with
  | replaceCert => exact Paired.of_renaming hok fun hu => hf.symm.trans (hfin rfl hu)
  | _ => exact hp id

/-- An operation that goes through prepares the next one, and the last one completes the pair. -/
theorem write_done {issuer : Issuer} {w : WriteCall} {op : WriteOp} {d : Disk}
    (h : op.done w s.disk = some d) (hok : (ServePc.write issuer w op).Ok x509 s) :
    match op.next with
    | some op' => (ServePc.write issuer w op').Ok x509 { s with disk := d } ∧
        (op' ≠ .replaceCert → d.fullchain = s.disk.fullchain ∧ d.privkey = s.disk.privkey)
    | none => Matched { s with disk := d } := by
  obtain ⟨hissuer, hcall, hready⟩ := hok
  cases op with
  | mkdir | chmodKeyTmp =>
      cases h
      exact ⟨⟨hissuer, hcall, hready⟩, fun _ => ⟨rfl, rfl⟩⟩
  | writeCertTmp =>
      cases h
      exact ⟨⟨hissuer.congr rfl, hcall, rfl⟩, fun _ => ⟨rfl, rfl⟩⟩
  | writeKeyTmp =>
      cases h
      exact ⟨⟨hissuer.congr rfl, hcall, hready, rfl⟩, fun _ => ⟨rfl, rfl⟩⟩
  | replaceKey =>
      obtain ⟨f, hf, rfl⟩ := Option.map_eq_some_iff.mp h
      rw [hready.2] at hf
      cases hf
      exact ⟨⟨hissuer.congr rfl, hcall, hready.1, rfl⟩, fun hne => absurd rfl hne⟩
  | replaceCert =>
      obtain ⟨f, hf, rfl⟩ := Option.map_eq_some_iff.mp h
      rw [hready.1] at hf
      cases hf
      exact ⟨w, hcall, rfl, hready.2⟩

/-- What a move leaves: the process knows what it needs of the disk, and the disk is in order
unless the process is between its renames. -/
structure LeavesInOrder (x509 : String → Option ℚ) (s : RelayDisk) (next : Option ServePc) :
    Prop where
  knows : ∀ pc, next = some pc → pc.Ok x509 s
  paired : (∀ pc, next = some pc → ¬ pc.Renaming) → Paired x509 s

/-- The process goes on over a disk that is in order. -/
theorem LeavesInOrder.goes_on (hp : Paired x509 s) (hok : pc.Ok x509 s) :
    LeavesInOrder x509 s (some pc) := by
  refine ⟨?_, fun _ => hp⟩
  rintro _ ⟨⟩
  exact hok

/-- The pair is loaded, and the process goes on if it fits. -/
theorem LeavesInOrder.loaded (hp : Paired x509 s) :
    LeavesInOrder x509 s (if loadCertChain loads s.disk then some (.renew true) else none) := by
  split
  · exact .goes_on hp trivial
  · exact ⟨nofun, fun _ => hp⟩

/-- One move of a process that writes. -/
theorem write_sound {issuer : Issuer} {w : WriteCall} {op : WriteOp}
    (h : serveSeg x509 loads s (.write issuer w op) a = some (s', next))
    (hok : (ServePc.write issuer w op).Ok x509 s)
    (hp : ¬ (ServePc.write issuer w op).Renaming → Paired x509 s)
    (hfin : op = .replaceCert → Usable x509 s → s'.disk.fullchain = some w.chain) :
    LeavesInOrder x509 s' next := by
  cases a with
  | opDone =>
      obtain ⟨d, hd, he⟩ := Option.map_eq_some_iff.mp h
      cases he
      have hw := write_done hd hok
      cases hn : op.next with
      | some op' =>
          rw [hn] at hw
          refine ⟨?_, fun hnot => ?_⟩
          · rintro _ ⟨⟩
            exact hw.1
          · have hne : op' ≠ .replaceCert := by
              rintro rfl
              exact hnot _ rfl trivial
            obtain ⟨hf, hk⟩ := hw.2 hne
            refine Paired.mono (s := s) hf hk (List.append_nil _).symm (hp ?_)
            cases op with
            | replaceCert => cases hn
            | _ => exact id
      | none =>
          rw [hn] at hw
          exact .goes_on (fun _ => hw) (issuer.afterSuccess_ok hw)
  | opFails left =>
      cases h
      have hp' : Paired x509 { s with disk := op.failed w s.disk left } :=
        paired_of_failed hok hp hfin
      exact .goes_on hp'
        (issuer.afterFailure_ok (hok.1.congr (op.failed_served w s.disk left).1) hp')
  | opKilled left =>
      cases h
      exact ⟨nofun, fun _ => paired_of_failed hok hp hfin⟩
  | _ => cases h

/-- **One move of a process.** -/
theorem serveSeg_sound (h : serveSeg x509 loads s pc a = some (s', next)) (hok : pc.Ok x509 s)
    (hp : ¬ pc.Renaming → Paired x509 s)
    (hfin : ∀ issuer w, pc = .write issuer w .replaceCert → Usable x509 s →
      s'.disk.fullchain = some w.chain) :
    LeavesInOrder x509 s' next := by
  cases pc with
  | check =>
      cases a with
      | clock now =>
          simp only [serveSeg] at h
          split at h
          · next hd =>
              obtain ⟨d, hd, -⟩ := (Option.any_eq_true _ _).mp hd
              cases h
              exact .goes_on (hp id) (hp id (usable_of_days (by rw [hd]; rfl)))
          · cases h
            exact .goes_on (hp id) usable_of_days
      | _ => cases h
  | issue issuer =>
      cases a with
      | issued pemChain keyPem =>
          cases h
          refine .goes_on (Paired.mono (s := s) rfl rfl rfl (hp id)) ?_
          exact ⟨hok.congr rfl, by simp, trivial⟩
      | issueFails =>
          cases h
          exact .goes_on (hp id) (issuer.afterFailure_ok hok (hp id))
      | _ => cases h
  | write issuer w op =>
      refine write_sound h hok hp ?_
      rintro rfl hu
      exact hfin issuer w rfl hu
  | returned | reload =>
      cases a with
      | load =>
          cases h
          exact .loaded (hp id)
      | _ => cases h
  | renew sslContext =>
      cases a with
      | clock now =>
          simp only [serveSeg] at h
          split at h
          · cases h
            exact .goes_on (hp id) trivial
          · cases h
            exact .goes_on (hp id) trivial
      | _ => cases h

/-- There is one process at a time. -/
theorem serve_single {P : Config RelayDisk ServePc → Config RelayDisk ServePc → Prop}
    (h : Reach (serve x509 loads) P .init c) {i j : Nat} {t u : ServePc} (hi : c.tasks i = some t)
    (hj : c.tasks j = some u) : i = j := by
  by_contra hne
  refine Reach.pairwise (R := fun _ _ => False) (fun h => h) ?_ ?_ h hi hj hne
  · intro c i t a o _ _ ho _
    obtain ⟨r, -, rfl⟩ := Option.map_eq_some_iff.mp ho
    refine ⟨?_, fun j v _ _ hf => hf.elim⟩
    intro u v _ hchild
    cases hchild
  · intro s a t h
    cases h

/-- The process knows what it needs of the disk, and the disk is in order unless the process is
between its renames. -/
def ServeSound (x509 : String → Option ℚ) (c : Config RelayDisk ServePc) : Prop :=
  (∀ i pc, c.tasks i = some pc → pc.Ok x509 c.shared) ∧
    ((∀ i pc, c.tasks i = some pc → ¬ pc.Renaming) → Paired x509 c.shared)

/-- **One step**: a move of the process, or a new process on the disk the last one left. -/
theorem ServeSound.step {P : Config RelayDisk ServePc → Config RelayDisk ServePc → Prop}
    {b : Action ServeInput} (hr : Reach (serve x509 loads) P .init c)
    (hs : (serve x509 loads).step c b = some c') (hfin : FinishesRenames x509 c c')
    (h : ServeSound x509 c) : ServeSound x509 c' := by
  rcases Machine.step_cases hs with ⟨i, a, t, o, -, hi, ho, rfl⟩ | ⟨a, t, -, ht, -⟩ |
      ⟨a, s, -, ht, -⟩ | ⟨a, s, t, -, ht, rfl⟩
  · obtain ⟨⟨s', next⟩, hseg, rfl⟩ := Option.map_eq_some_iff.mp ho
    have halone : ∀ j u, (c.after i ⟨s', next, none⟩).tasks j = some u → next = some u := by
      intro j u hj
      rcases Config.after_tasks rfl hj with ⟨-, hu⟩ | ⟨hne, hu⟩
      · exact hu
      · exact absurd (serve_single hr hu hi) hne
    have hself : (c.after i ⟨s', next, none⟩).tasks i = next := Config.after_self (hr.lt_next hi)
    obtain ⟨hok, hp⟩ := serveSeg_sound hseg (h.1 i t hi)
      (fun hn => h.2 fun j u hj => by
        cases serve_single hr hj hi
        cases hi.symm.trans hj
        exact hn)
      (fun issuer w e hu => hfin i issuer w (e ▸ hi) hu)
    exact ⟨fun j u hj => hok u (halone j u hj), fun hn => hp fun u hu => hn i u (hself.trans hu)⟩
  · cases ht
  · cases ht
  · cases a with
    | boot tlsEnabled =>
        obtain ⟨rfl, rfl⟩ := Prod.mk.inj (Option.some.inj ht)
        refine ⟨?_, ?_⟩
        · intro j u hj
          rcases update_eq_some (f := fun _ => none) hj with ⟨-, hu⟩ | ⟨-, hu⟩
          · cases hu
            split <;> trivial
          · cases hu
        · intro _
          by_cases hn : ∀ i pc, c.tasks i = some pc → ¬ pc.Renaming
          · exact h.2 hn
          · -- The process that was killed was between its renames.
            push Not at hn
            obtain ⟨i, pc, hi, hren⟩ := hn
            cases pc with
            | write issuer w op =>
                cases op with
                | replaceCert => exact Paired.of_renaming (h.1 i _ hi) (hfin i issuer w hi)
                | _ => exact hren.elim
            | _ => exact hren.elim
    | _ => cases ht

theorem serveSound (h : Reach (serve x509 loads) (FinishesRenames x509) .init c) :
    ServeSound x509 c := by
  induction h with
  | start =>
      refine ⟨fun i pc hi => ?_, fun _ hu => ?_⟩
      · cases hi
      · obtain ⟨f, hf, -⟩ := hu
        cases hf
  | step hr hs hp ih => exact ih.step hr hs hp

/-- **TLS starts on a matching pair**, in every run in which no call is cut off between its renames
over a certificate that parses: where `_ensure_relay_cert` has returned, or a renewal reloads the
live context, both files are those of one call, and they load where the pair of that call does. -/
theorem tls_pair_matches (h : Reach (serve x509 loads) (FinishesRenames x509) .init c) {i : Nat}
    (ht : c.tasks i = some .returned ∨ c.tasks i = some .reload) :
    Matched c.shared ∧
      ((∀ w ∈ c.shared.calls, loads w.1 w.2 = true) →
        loadCertChain loads c.shared.disk = true) := by
  have hm : Matched c.shared := by
    rcases ht with ht | ht
    · exact (serveSound h).1 i _ ht
    · exact (serveSound h).1 i _ ht
  refine ⟨hm, fun hloads => ?_⟩
  obtain ⟨w, hw, hf, hk⟩ := hm
  rw [loadCertChain, hf, hk]
  exact hloads _ (List.mem_of_getElem? hw)

/-- A test for `FinishesRenames`. -/
def finishesRenames (x509 : String → Option ℚ) (c c' : Config RelayDisk ServePc) : Bool :=
  (List.range c.next).all fun i => match c.tasks i with
    | some (.write _ w .replaceCert) =>
        !(c.shared.disk.fullchain.any fun f => (x509 f.text).isSome) ||
          decide (c'.shared.disk.fullchain = some w.chain)
    | _ => true

theorem finishesRenames_sound {P : Config RelayDisk ServePc → Config RelayDisk ServePc → Prop}
    (hr : Reach (serve x509 loads) P .init c) (h : finishesRenames x509 c c' = true) :
    FinishesRenames x509 c c' := by
  intro i issuer w hi hu
  have hrow := List.all_eq_true.mp h i (List.mem_range.mpr (hr.lt_next hi))
  simp only [hi, Bool.or_eq_true, Bool.not_eq_true', decide_eq_true_eq] at hrow
  rcases hrow with hno | hf
  · obtain ⟨f, hf, hx⟩ := hu
    rw [hf, Option.any_some, hx] at hno
    cases hno
  · exact hf

/-- Certificates end a hundred days after the epoch. -/
def Demo.notAfter (text : String) : Option ℚ := if text = "" then none else some 8640000

def Demo.fits (chain key : String) : Bool := chain = key

/-- An issuance whose first `n` file operations go through. -/
def Demo.issuance (process : Nat) (pem : String) (n : Nat) : List (Action ServeInput) :=
  .run process (.issued pem pem) :: List.replicate n (.run process .opDone)

/-- A first boot, which issues a certificate. -/
def Demo.firstBoot : List (Action ServeInput) :=
  [.restart (.boot true), .run 0 (.clock 0)] ++ Demo.issuance 0 "first" 6 ++ [.run 0 .load]

/-- Ten days before the end a renewal goes through. -/
def Demo.isReload : Option ServePc → Bool
  | some .reload => true
  | _ => false

def Demo.isReturned : Option ServePc → Bool
  | some .returned => true
  | _ => false

theorem tls_pair_matches_run :
    ∃ c, (serve Demo.notAfter Demo.fits).schedule (finishesRenames Demo.notAfter) (.start .init)
        (Demo.firstBoot ++ .run 0 (.clock 7776000) :: Demo.issuance 0 "second" 6) = some c ∧
      c.tasks 0 = some .reload ∧ Matched c.shared ∧
      loadCertChain Demo.fits c.shared.disk = true := by
  have hrun : ((serve Demo.notAfter Demo.fits).schedule (finishesRenames Demo.notAfter) (.start .init)
      (Demo.firstBoot ++ .run 0 (.clock 7776000) :: Demo.issuance 0 "second" 6)).any (fun c =>
        Demo.isReload (c.tasks 0) &&
        c.shared.calls.all fun w => Demo.fits w.1 w.2) = true := by decide +kernel
  obtain ⟨c, hc, h⟩ := (Option.any_eq_true _ _).mp hrun
  rw [Bool.and_eq_true] at h
  have hpc : c.tasks 0 = some .reload := by
    have hplace := h.1
    unfold Demo.isReload at hplace
    split at hplace
    · assumption
    · cases hplace
  have hr : Reach (serve Demo.notAfter Demo.fits) (FinishesRenames Demo.notAfter) .init c :=
    Reach.schedule (fun hr _ h => finishesRenames_sound hr h) _ .start hc
  obtain ⟨hm, hload⟩ := tls_pair_matches hr (.inr hpc)
  exact ⟨c, hc, hpc, hm, hload fun w hw => List.all_eq_true.mp h.2 w hw⟩

/-- **A mixed pair**: a renewal is killed between its renames, and the next start, which cannot
renew, serves the old certificate with the new key. -/
theorem mixed_pair :
    ¬ ∀ (x509 : String → Option ℚ) (loads : String → String → Bool)
      (c : Config RelayDisk ServePc) (i : Nat),
      Reach (serve x509 loads) (fun _ _ => True) .init c → c.tasks i = some .returned →
      Matched c.shared := by
  intro hall
  have hrun : ((serve Demo.notAfter Demo.fits).schedule (fun _ _ => true) (.start .init)
      (Demo.firstBoot ++ .run 0 (.clock 7776000) :: Demo.issuance 0 "second" 5 ++
        [.restart (.boot true), .run 17 (.clock 7776000), .run 17 .issueFails])).any (fun c =>
        Demo.isReturned (c.tasks 17) &&
        decide (c.shared.disk.fullchain.map (·.call) = some 0 ∧
          c.shared.disk.privkey.map (·.call) = some 1)) = true := by decide +kernel
  obtain ⟨c, hc, h⟩ := (Option.any_eq_true _ _).mp hrun
  rw [Bool.and_eq_true, decide_eq_true_eq] at h
  have hpc : c.tasks 17 = some .returned := by
    have hplace := h.1
    unfold Demo.isReturned at hplace
    split at hplace
    · assumption
    · cases hplace
  obtain ⟨w, -, hf, hk⟩ := hall Demo.notAfter Demo.fits c 17
    (Reach.schedule (fun _ _ _ => trivial) _ .start hc) hpc
  rw [hf, hk] at h
  exact absurd (Option.some.inj h.2.1 : w.number = 0) (by
    rw [(Option.some.inj h.2.2 : w.number = 1)]
    decide)

end Jackdaw
