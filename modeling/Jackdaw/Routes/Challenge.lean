import Jackdaw.Relay.Segment

/-!
# Routes — challenges

`routes/challenge.py`: `acknowledge_challenge`, from the point where `verify_jws` has returned.

The status is checked on the row that was loaded before the ownership check.  A pending
authorization is turned to processing, together with its order; the second look-up of the order
flushes the authorization first, so the handler holds the write lock from there to its commit.
The validating task is created after the status change, and also, with no change, for an
authorization that is processing already.
-/

namespace Jackdaw

open Support

inductive ChallengePc where
  | get
  | owner (authz : Authorization)
  /-- The second look-up of the order. -/
  | flush (authz : Authorization)
  | commit (authz : Authorization) (flush : List Dml)

/-- The task and the answer the handler ends with. -/
def startChallenge (cfg : Settings) (authzId : String) (authz : Authorization) :
    Seg ChallengePc :=
  { spawn := some (.runChallenge authzId authz.orderId)
    next := .respond ⟨200, .challenge
      { url := cfg.relayBaseUrl ++ "/acme/challenge/" ++ authzId
        status := .processing
        token := authz.challengeToken.getD "" }, none⟩ }

def challengeSeg (cfg : Settings) (accountId authzId : String) (db : Db) :
    ChallengePc → Seg ChallengePc
  | .get => .attempt (orElse (.http 404 (.text "Authorization not found"))
      (db.authorizations.get authzId)) fun authz => .goto (.owner authz)
  | .owner authz => .attempt (requireParentOwner accountId (db.orders.get authz.orderId)) fun _ =>
      match authz.status with
      | .pending => .goto (.flush authz)
      | .processing => startChallenge cfg authzId authz
      | s => .fail (.http 400 (.text ("Authorization is already '" ++ s.text ++ "'")))
  | .flush authz =>
      { write := authz.flush authzId { authz with status := .processing }
        next := .goto (.commit authz (match db.orders.get authz.orderId with
          | none => []
          | some order =>
              if order.status = .pending then
                order.flush authz.orderId { order with status := .processing }
              else [])) }
  | .commit authz flush =>
      { startChallenge cfg authzId authz with write := flush, commit := true }

end Jackdaw
