import Jackdaw.Support.Text
import Jackdaw.Support.Json
import Jackdaw.Support.Base64

/-!
# Utilities

`_util.py`: the clock, unpadded base64url, and the canonical form of a key.

A time is an `Int`, a count of microseconds: the resolution of the `DateTime` columns.  The columns hold
naive UTC text of one fixed width, so that SQLite's comparison of the text is the comparison of
the times.
-/

namespace Jackdaw

open Support

/-- `timedelta(seconds=n)`. -/
def seconds (n : Int) : Int := n * 1000000

/-- `timedelta(days=n)`. -/
def days (n : Int) : Int := seconds (n * 86400)

/-- `base64.urlsafe_b64decode`: only ASCII text is accepted, `-` and `_` stand for `+` and `/`. -/
def urlsafeB64decode (s : String) : Option (List UInt8) :=
  if s.toList.all fun c => c.toNat < 128 then
    Base64.a2b (s.toList.map fun c => if c = '-' then '+' else if c = '_' then '/' else c)
  else none

/-- `base64.urlsafe_b64encode`. -/
def urlsafeB64encode (bs : List UInt8) : String :=
  String.ofList ((Base64.b2a bs).map fun c => if c = '+' then '-' else if c = '/' then '_' else c)

/-- `b64url_decode`: pad to a multiple of four, then decode; `none` where Python raises. -/
def b64urlDecode (s : String) : Option (List UInt8) :=
  let rem := s.length % 4
  urlsafeB64decode (if rem ≠ 0 then s ++ String.ofList (List.replicate (4 - rem) '=') else s)

/-- `canonical_jwk`. -/
def canonicalJwk (jwkData : Json) : String := jwkData.dumps

/-- `s.encode("ascii")`. -/
def encodeAscii (s : String) : Option (List UInt8) :=
  if s.toList.all fun c => c.toNat < 128 then
    some (s.toList.map fun c => UInt8.ofNat c.toNat)
  else none

end Jackdaw
