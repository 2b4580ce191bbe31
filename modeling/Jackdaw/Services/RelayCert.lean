import Mathlib.Data.Rat.Defs
import Mathlib.Algebra.Order.Field.Rat

/-!
# Services — The relay's own certificate

`relay_cert.py`: the files of the relay's own certificate, `write_relay_cert` one file operation at
a time, and the checks that read them.  Every text on the disk keeps the number of the
`write_relay_cert` call it comes from.  What the x509 parser makes of a text is given
(`x509 : String → Option ℚ`, the end of its validity).
-/

namespace Jackdaw

/-- `RENEW_THRESHOLD_DAYS`. -/
def renewThresholdDays : ℚ := 30

/-- A text on the disk, with the `write_relay_cert` call that wrote it. -/
structure Written where
  call : Nat
  text : String
deriving DecidableEq

/-- `fullchain.pem` and `privkey.pem`, and the temp files next to them. -/
structure Disk where
  fullchain : Option Written := none
  privkey : Option Written := none
  fullchainTmp : Option Written := none
  privkeyTmp : Option Written := none
deriving DecidableEq

/-- The file operations of `write_relay_cert`, in order. -/
inductive WriteOp where
  | mkdir
  | writeCertTmp
  | writeKeyTmp
  | chmodKeyTmp
  | replaceKey
  | replaceCert
deriving DecidableEq

/-- The operation after another. -/
def WriteOp.next : WriteOp → Option WriteOp
  | .mkdir => some .writeCertTmp
  | .writeCertTmp => some .writeKeyTmp
  | .writeKeyTmp => some .chmodKeyTmp
  | .chmodKeyTmp => some .replaceKey
  | .replaceKey => some .replaceCert
  | .replaceCert => none

/-- A `write_relay_cert` call: its number and its two texts. -/
structure WriteCall where
  number : Nat
  pemChain : String
  keyPem : String
deriving DecidableEq

def WriteCall.chain (w : WriteCall) : Written := ⟨w.number, w.pemChain⟩

def WriteCall.key (w : WriteCall) : Written := ⟨w.number, w.keyPem⟩

/-- An operation that goes through; `os.replace` needs its source. -/
def WriteOp.done (w : WriteCall) (d : Disk) : WriteOp → Option Disk
  | .mkdir | .chmodKeyTmp => some d
  | .writeCertTmp => some { d with fullchainTmp := some w.chain }
  | .writeKeyTmp => some { d with privkeyTmp := some w.key }
  | .replaceKey => d.privkeyTmp.map fun f => { d with privkey := some f, privkeyTmp := none }
  | .replaceCert => d.fullchainTmp.map fun f => { d with fullchain := some f, fullchainTmp := none }

/-- An operation that fails, or is cut off: a temp file may be left with the first `k` characters
of its text, the renames are atomic. -/
def WriteOp.failed (w : WriteCall) (d : Disk) (left : Option Nat) : WriteOp → Disk
  | .writeCertTmp => match left with
      | none => d
      | some k => { d with fullchainTmp := some ⟨w.number, String.ofList (w.pemChain.toList.take k)⟩ }
  | .writeKeyTmp => match left with
      | none => d
      | some k => { d with privkeyTmp := some ⟨w.number, String.ofList (w.keyPem.toList.take k)⟩ }
  | _ => d

/-- `relay_cert_exists`. -/
def relayCertExists (x509 : String → Option ℚ) (d : Disk) : Bool :=
  match d.fullchain, d.privkey with
  | some f, some _ => (x509 f.text).isSome
  | _, _ => false

/-- `relay_cert_days_remaining`. -/
def relayCertDaysRemaining (x509 : String → Option ℚ) (d : Disk) (now : ℚ) : Option ℚ :=
  d.fullchain.bind fun f => (x509 f.text).map fun notAfter => (notAfter - now) / 86400

/-- `load_cert_chain` on the pair on the disk; `loads` tells which texts make a pair. -/
def loadCertChain (loads : String → String → Bool) (d : Disk) : Bool :=
  match d.fullchain, d.privkey with
  | some f, some k => loads f.text k.text
  | _, _ => false

/-- Only the renames change the two files that are served. -/
theorem WriteOp.failed_served (w : WriteCall) (d : Disk) (left : Option Nat) (op : WriteOp) :
    (op.failed w d left).fullchain = d.fullchain ∧ (op.failed w d left).privkey = d.privkey := by
  cases op <;> cases left <;> exact ⟨rfl, rfl⟩

end Jackdaw
