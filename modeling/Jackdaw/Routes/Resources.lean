import Jackdaw.Relay.Segment
import Jackdaw.Services.CertStore

/-!
# Routes — authorizations, certificates, revocation

`routes/authz.py`, `routes/cert.py` and `routes/revoke.py`: `get_authz`, `download_cert` and
`revoke_cert`, from the point where `verify_jws` has returned.  None of them writes to the
database.
-/

namespace Jackdaw

open Support

/-! ### `get_authz` -/

inductive GetAuthzPc where
  | get
  | owner (authz : Authorization)

def getAuthzSeg (cfg : Settings) (accountId authzId : String) (db : Db) :
    GetAuthzPc → Seg GetAuthzPc
  | .get => .attempt (orElse (.http 404 (.text "Authorization not found"))
      (db.authorizations.get authzId)) fun authz => .goto (.owner authz)
  | .owner authz => .attempt (requireParentOwner accountId (db.orders.get authz.orderId)) fun _ =>
      .respond ⟨200, .authz
        -- an authorization is never reported as processing, its challenge is
        { status := if authz.status = .processing then .pending else authz.status
          identifier := ⟨"dns", authz.identifier⟩
          challenge :=
            { url := cfg.relayBaseUrl ++ "/acme/challenge/" ++ authzId
              status := authz.status
              token := authz.challengeToken.getD ""
              error := authz.error } }, none⟩

/-! ### `download_cert` -/

inductive DownloadCertPc where
  | get
  | owner (cert : Certificate)

def downloadCertSeg (accountId certId : String) (db : Db) : DownloadCertPc → Seg DownloadCertPc
  | .get => .attempt (orElse (.http 404 (.text "Certificate not found"))
      (db.certificates.get certId)) fun cert => .goto (.owner cert)
  | .owner cert => .attempt (requireParentOwner accountId (db.orders.get cert.orderId)) fun _ =>
      .respond ⟨200, .pem cert.pemChain, none⟩

/-! ### `revoke_cert` -/

inductive RevokeCertPc where
  /-- The look-up by stored serial. -/
  | select (serial : Int)
  /-- The scan of the rows without a serial. -/
  | legacy (serial : Int)
  /-- `le.revoke_cert`. -/
  | forward

def revokeCertStart (o : Oracle) (payload : Json) : Seg RevokeCertPc :=
  match payload.get? "certificate" with
  | none => .fail (.http 400 (.problem AcmeErrors.malformed "Payload must contain 'certificate'"))
  | some cert =>
      match (cert.text?.bind b64urlDecode).bind o.derSerial with
      | none => .fail (.http 400 (.problem AcmeErrors.malformed "Invalid certificate DER encoding"))
      | some serial => .goto (.select serial)

/-- The certificates whose order belongs to the account. -/
def ownCertificates (accountId : String) (db : Db) (p : Certificate → Bool) :
    List (String × Certificate) :=
  db.certificates.select fun _ c =>
    (db.orders.get c.orderId).any (fun r => decide (r.accountId = accountId)) && p c

def revokeCertSeg (o : Oracle) (accountId : String) (db : Db) (ch : Choice) :
    RevokeCertPc → Seg RevokeCertPc
  | .select serial =>
      if (ownCertificates accountId db fun c => decide (c.serial = some (serialHex serial))).isEmpty
      then .goto (.legacy serial) else .goto .forward
  | .legacy serial =>
      if (ownCertificates accountId db fun c => c.serial.isNone).any fun c =>
          o.leafSerial c.2.pemChain = some serial
      then .goto .forward
      else .fail (.http 403 (.problem AcmeErrors.unauthorized
        "Certificate not found or not owned by this account"))
  | .forward =>
      if ch.revoked then .respond ⟨200, .empty, none⟩
      else .fail (.http 500 (.problem AcmeErrors.serverInternal
        "Revocation request to Let's Encrypt failed"))

end Jackdaw
