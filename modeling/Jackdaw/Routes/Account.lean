import Jackdaw.Relay.Segment

/-!
# Routes — accounts

`routes/account.py` and `routes/keychange.py`: `new_account` and `key_change`, from the point
where `verify_jws` has returned.  Both look the key up by its canonical text first and write the
row in a later transaction; the column has an index, but not a unique one.
-/

namespace Jackdaw

open Support

/-- What pydantic reads as a `bool`. -/
def laxBool : Json → Option Bool
  | .bool b => some b
  | .int n => if n = 0 then some false else if n = 1 then some true else none
  | .float r =>
      if r = "0.0" || r = "-0.0" then some false else if r = "1.0" then some true else none
  | .str s =>
      let t := s.map Char.toLower
      if t ∈ ["0", "off", "f", "false", "n", "no"] then some false
      else if t ∈ ["1", "on", "t", "true", "y", "yes"] then some true
      else none
  | _ => none

/-- The fields of `NewAccountRequest` the handler reads: `contact`, `onlyReturnExisting`. -/
def newAccountRequest (payload : Json) : Option (Option (List String) × Bool) := do
  if !payload.isObj then none
  else
    let _ ← (payload.get? "termsOfServiceAgreed").elim (some false) laxBool
    let contact ← match nonNull (payload.get? "contact") with
      | none => some none
      | some (.arr xs) => (xs.mapM Json.text?).map some
      | some _ => none
    let only ← (payload.get? "onlyReturnExisting").elim (some false) laxBool
    return (contact, only)

/-- `_extract_jwk`, on the body that `verify_jws` accepted; `none` is the `KeyError`. -/
def extractJwk (o : Oracle) (req : HttpRequest) : Option Json := do
  let body ← o.jsonLoads req.body
  let header ← o.jsonLoads (← b64urlDecode (← (← body.get? "protected").text?))
  header.get? "jwk"

def accountUrl (cfg : Settings) (id : String) : String := cfg.relayBaseUrl ++ "/acme/account/" ++ id

/-- `scalar_one_or_none`: more than one row raises. -/
def scalarOneOrNone {α : Type} : List α → Except Exn (Option α)
  | [] => .ok none
  | [a] => .ok (some a)
  | _ => .error .raised

/-- A list without the empty one: `x if x else None`. -/
def orNone (contact : Option (List String)) : Option (List String) :=
  contact.filter fun l => !l.isEmpty

/-! ### `new_account` -/

inductive NewAccountPc where
  | select (contact : Option (List String)) (onlyReturnExisting : Bool) (key : String)
  | commit (id : String) (row : Account) (contact : Option (List String))

def newAccountStart (o : Oracle) (req : HttpRequest) (payload : Json) : Seg NewAccountPc :=
  .attempt (orElse .raised (newAccountRequest payload)) fun (contact, only) =>
    .attempt (orElse .raised (extractJwk o req)) fun jwk =>
      .goto (.select contact only (canonicalJwk jwk))

def newAccountSeg (cfg : Settings) (db : Db) (now : Int) :
    NewAccountPc → Choice → Option (Seg NewAccountPc)
  | .select contact only key, ch =>
      match scalarOneOrNone (db.accounts.select fun _ r => decide (r.publicKey = key)) with
      | .error e => some (.fail e)
      | .ok (some (id, row)) => some (.respond ⟨200, .account
          { status := row.status, contact := orNone row.contact,
            orders := accountUrl cfg id ++ "/orders" }, some (accountUrl cfg id)⟩)
      | .ok none =>
          if only then some (.fail (.http 400 (.problem AcmeErrors.accountDoesNotExist
            "No account found for this key")))
          else if isUuid ch.uuid then
            some (.goto (.commit ch.uuid
              { publicKey := key, contact := orNone contact, status := .valid, createdAt := now }
              contact))
          else none
  | .commit id row contact, _ =>
      some { write := [.insertAccount id row]
             commit := true
             next := .respond ⟨201, .account
               { status := .valid, contact,
                 orders := accountUrl cfg id ++ "/orders" }, some (accountUrl cfg id)⟩ }

/-! ### `key_change` -/

/-- The signature check of the inner JWS: everything it does is inside one `try`. -/
def innerSignatureValid (o : Oracle) (j : Jws) (jwkData : Json) : Bool :=
  (do
    let key ← o.jwkFromJson jwkData
    let msg ← signingInput o j
    let sig ← signatureBytes j
    o.verify j.alg key msg sig) == some true

/-- `_verify_inner_jws`. -/
def verifyInnerJws (o : Oracle) (inner : Json) (expectedAccountUrl oldPublicKey keyChangeUrl : String) :
    Except Exn Json := do
  let protectedB64 := (inner.get? "protected").getD (.str "")
  let payloadB64 := (inner.get? "payload").getD (.str "")
  let signatureB64 := (inner.get? "signature").getD (.str "")
  reject (!protectedB64.truthy || !signatureB64.truthy) 400
    (.text "Inner JWS missing required fields")
  let protectedText ← orElse (.http 400 (.text "Invalid inner JWS protected header"))
    protectedB64.text?
  let header ← orElse (.http 400 (.text "Invalid inner JWS protected header"))
    ((b64urlDecode protectedText).bind o.jsonLoads)
  let algName ← dictGet header "alg"
  let alg ← checkAlg o "Inner JWS unsupported algorithm: " (algName.getD (.str ""))
  let url ← dictGet header "url"
  reject (!(url.getD .null).isStr keyChangeUrl) 400
    (.text "Inner JWS url does not match key-change URL")
  let newJwkData ← orElse
    (.http 400 (.text "Inner JWS protected header must contain 'jwk'")) (nonNull (header.get? "jwk"))
  reject (nonNull (header.get? "kid")).isSome 400 (.text "Inner JWS must not contain 'kid'")
  reject (!innerSignatureValid o ⟨protectedText, payloadB64, signatureB64, header, alg⟩ newJwkData)
    400 (.text "Inner JWS signature verification failed")
  let innerPayload ← orElse (.http 400 (.text "Invalid inner JWS payload"))
    ((payloadB64.text?.bind b64urlDecode).bind o.jsonLoads)
  let account ← dictGet innerPayload "account"
  reject (!(account.getD .null).isStr expectedAccountUrl) 400
    (.text "Inner JWS payload 'account' does not match the requesting account")
  let oldKey ← orElse (.http 400 (.text "Inner JWS payload missing 'oldKey'"))
    (nonNull (innerPayload.get? "oldKey"))
  reject (decide (canonicalJwk oldKey ≠ oldPublicKey)) 400
    (.text "Inner JWS payload 'oldKey' does not match the current account key")
  return newJwkData

/-- What `_verify_inner_jws` raises as an `HTTPException` is a 400. -/
theorem verifyInnerJws_statusIn {P : Nat → Prop} (o : Oracle) (h400 : P 400) (inner : Json)
    (accountUrl oldPublicKey url : String) :
    StatusIn P (verifyInnerJws o inner accountUrl oldPublicKey url) := by
  refine .bind (.reject h400) fun _ => .bind (.orElse (.http h400)) fun _ => ?_
  refine .bind (.orElse (.http h400)) fun _ => .bind (.dictGet _ _) fun _ => ?_
  refine .bind (checkAlg_statusIn o h400 _ _) fun _ => .bind (.dictGet _ _) fun _ => ?_
  refine .bind (.reject h400) fun _ => .bind (.orElse (.http h400)) fun _ => ?_
  refine .bind (.reject h400) fun _ => .bind (.reject h400) fun _ => ?_
  refine .bind (.orElse (.http h400)) fun _ => .bind (.dictGet _ _) fun _ => ?_
  refine .bind (.reject h400) fun _ => .bind (.orElse (.http h400)) fun _ => ?_
  exact .bind (.reject h400) fun _ => .ok _

inductive KeyChangePc where
  | account (inner : Json) (url : String)
  | select (account : Account) (newCanonical : String)
  | commit (account : Account) (newCanonical : String)

def keyChangeStart (accountId : String) (req : HttpRequest) (payload : Json) : Seg KeyChangePc :=
  .attempt (do
    reject (decide (accountId = "")) 400 (.text "key-change requires 'kid' (not 'jwk')")
    reject (!payload.isObj) 400 (.text "key-change payload must be a JSON object")) fun _ =>
  .goto (.account payload req.url)

def keyChangeSeg (o : Oracle) (cfg : Settings) (accountId : String) (db : Db) :
    KeyChangePc → Seg KeyChangePc
  | .account inner url => .attempt (do
      let account ← orElse (.http 401 (.text "Account not found")) (db.accounts.get accountId)
      let newJwkData ← verifyInnerJws o inner (accountUrl cfg accountId) account.publicKey url
      return (account, canonicalJwk newJwkData)) fun (account, newCanonical) =>
    .goto (.select account newCanonical)
  | .select account newCanonical => .attempt (scalarOneOrNone (db.accounts.select fun id r =>
      decide (r.publicKey = newCanonical) && decide (id ≠ accountId))) fun
    | some _ => .fail (.http 409 (.text "New key is already registered to a different account"))
    | none => .goto (.commit account newCanonical)
  | .commit account newCanonical =>
      { write := account.flush accountId newCanonical
        commit := true
        next := .respond ⟨200, .account
          { status := account.status, contact := orNone account.contact,
            orders := accountUrl cfg accountId ++ "/orders" }, some (accountUrl cfg accountId)⟩ }

end Jackdaw
