import Jackdaw.Relay.Segment
import Jackdaw.Services.CertStore
import Jackdaw.Services.Http01

/-!
# Worker — validation and issuance

`worker.py`: the two background tasks.

`run_challenge` reads the authorization, its order and the account's key in one session, validates
over the network with no session open, and writes the outcome in a second session from rows it
loads again.  `process_finalize` issues the certificate over the network and records it in two
commits, one in `store_cert` and one for the order.
-/

namespace Jackdaw

open Support

/-- `key_authorization`; `none` where the stored key does not parse. -/
def keyAuthorization (o : Oracle) (token accountPublicKey : String) : Option String :=
  (storedKey o accountPublicKey).map fun key =>
    token ++ "." ++ Text.rstripChar (urlsafeB64encode (o.thumbprint key)) '='

/-! ### `run_challenge` -/

inductive RunChallengePc where
  | getAuthz
  | getOrder (authz : Option Authorization)
  | getAccount (authz : Authorization) (order : Order)
  /-- `validate_http01(domain, token, expected)`. -/
  | validate (domain token expected : String)
  /-- The second session, with the problem the validation failed with. -/
  | regetAuthz (problem : Option Problem)
  | regetOrder (problem : Option Problem) (authz : Option Authorization)
  | statuses (authz : Authorization) (order : Order)
  | commit (flush : List Dml)

/-- The writes that turn both rows invalid. -/
def invalidate (authzId orderId : String) (authz : Authorization) (order : Order) (p : Problem) :
    List Dml :=
  authz.flush authzId { authz with status := .invalid, error := some p } ++
    order.flush orderId { order with status := .invalid }

/-- `error_problem`, for what `validate_http01` came to. -/
def validationProblem : Except Http01Exn Unit → Option Problem
  | .ok () => none
  | .error (.validation detail acmeType) => some ⟨acmeType, detail⟩
  | .error (.other _) =>
      some ⟨AcmeErrors.serverInternal, "Unexpected error during HTTP-01 validation"⟩

def runChallengeSeg (o : Oracle) (authzId orderId : String) (db : Db) (ch : Choice) :
    RunChallengePc → Seg RunChallengePc
  | .getAuthz => .goto (.getOrder (db.authorizations.get authzId))
  | .getOrder authz =>
      match authz, db.orders.get orderId with
      | some authz, some order =>
          if authz.challengeToken.isNone then
            .goto (.commit (invalidate authzId orderId authz order
              ⟨AcmeErrors.serverInternal, "Authorization has no challenge token"⟩))
          else .goto (.getAccount authz order)
      | _, _ => .stop
  | .getAccount authz order =>
      match db.accounts.get order.accountId with
      | none => .goto (.commit (invalidate authzId orderId authz order
          ⟨AcmeErrors.serverInternal, "Account for this authorization no longer exists"⟩))
      | some account =>
          let token := authz.challengeToken.getD ""
          match keyAuthorization o token account.publicKey with
          | none => .fail .raised
          | some expected => .goto (.validate authz.identifier token expected)
  | .validate _ _ _ => .goto (.regetAuthz ch.validated)
  | .regetAuthz problem => .goto (.regetOrder problem (db.authorizations.get authzId))
  | .regetOrder problem authz =>
      match authz, db.orders.get orderId with
      | some authz, some order =>
          match problem with
          | none => .goto (.statuses authz order)
          | some p => .goto (.commit (invalidate authzId orderId authz order p))
      | _, _ => .stop
  | .statuses authz order =>
      -- autoflush: the query sees the status just assigned
      let write := authz.flush authzId { authz with status := .valid }
      let seen := (Dml.execAll write db).getD db
      { write := write
        next := .goto (.commit (
          if (seen.authorizations.select fun _ a => decide (a.orderId = orderId)).all
              fun a => decide (a.2.status = .valid) then
            order.flush orderId { order with status := .ready }
          else [])) }
  | .commit flush => { write := flush, commit := true, next := .stop }

/-! ### `process_finalize` -/

inductive ProcessFinalizePc where
  | getOrder
  /-- `le.order_cert`. -/
  | issue
  | failGet (problem : Problem)
  | get (pemChain : String) (expiresAt : Int)
  /-- The commit of `store_cert`. -/
  | store (order : Order) (certId : String) (cert : Certificate)
  | commit (flush : List Dml)

/-- `_cert_expiry_from_pem`. -/
def certExpiryFromPem (o : Oracle) (pemChain : String) (now : Int) : Int :=
  (o.leafNotAfter pemChain).getD (now + days 89)

/-- `order_cert`, with the outcome of `client.sign`: a CSR that does not parse raises before that, and
`acme_problem` has a problem for any exception. -/
def orderCert (o : Oracle) (csrDer : List UInt8) (signed : Except Problem String) :
    Except Problem String :=
  match o.derToPemCsr csrDer with
  | none => .error ⟨AcmeErrors.serverInternal,
      "An unexpected error occurred while issuing the certificate."⟩
  | some _ => signed

def processFinalizeSeg (o : Oracle) (orderId : String) (csrDer : List UInt8) (db : Db) (now : Int) :
    ProcessFinalizePc → Choice → Option (Seg ProcessFinalizePc)
  | .getOrder, _ => match db.orders.get orderId with
      | none => some .stop
      | some _ => some (.goto .issue)
  | .issue, ch => match orderCert o csrDer ch.issued with
      | .error p => some (.goto (.failGet p))
      | .ok pemChain => some (.goto (.get pemChain (certExpiryFromPem o pemChain now)))
  | .failGet p, _ => match db.orders.get orderId with
      | none => some .stop
      | some order => some (.goto (.commit
          (order.flush orderId { order with status := .invalid, error := some p })))
  | .get pemChain expiresAt, ch => match db.orders.get orderId with
      | none => some .stop
      | some order =>
          if isUuid ch.uuid then
            some (.goto (.store order ch.uuid
              { orderId, pemChain, issuedAt := now, expiresAt,
                serial := leafSerialHex o pemChain }))
          else none
  | .store order certId cert, _ =>
      some { write := [.insertCert certId cert]
             commit := true
             next := .goto (.commit
               (order.flush orderId { order with certId := some certId, status := .valid })) }
  | .commit flush, _ => some { write := flush, commit := true, next := .stop }

end Jackdaw
