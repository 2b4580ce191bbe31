import Jackdaw.Relay.Segment

/-!
# Routes — orders

`routes/order.py`: `new_order`, `get_order` and `finalize_order`, each from the point where
`verify_jws` has returned.

`finalize_order` claims the order by a conditional `UPDATE`, commits, and creates the issuing task
only when the `UPDATE` matched; the check of the status it loaded before is a fast path.
-/

namespace Jackdaw

open Support

/-- `Identifier.model_validate`. -/
def identifierOfJson (j : Json) : Option Identifier := do
  let type ← (← j.get? "type").text?
  let value ← (← j.get? "value").text?
  return ⟨type, value⟩

/-- `NewOrderRequest.model_validate`. -/
def newOrderRequest (payload : Json) : Option (List Identifier) := do
  match ← payload.get? "identifiers" with
  | .arr xs => xs.mapM identifierOfJson
  | _ => none

/-- `FinalizeRequest.model_validate`. -/
def finalizeRequest (payload : Json) : Option String := do
  (← payload.get? "csr").text?

/-- `_validate_identifiers`. -/
def validateIdentifiers (identifiers : List Identifier) : Except Exn Unit := do
  reject identifiers.isEmpty 400
    (.problem AcmeErrors.malformed "Order must contain at least one identifier")
  reject (1 < identifiers.length) 400
    (.problem AcmeErrors.malformed
      "This relay issues one domain per order; multi-identifier (SAN) orders are not supported")
  reject (identifiers.any fun i => decide (i.type ≠ "dns") || decide (Text.strip i.value = "")) 400
    (.problem AcmeErrors.malformed "Each identifier must be type 'dns' with a non-empty value")

/-- Is the value an allowed base domain, or under one? -/
def underAllowed (allowed : List String) (value : String) : Bool :=
  allowed.any fun base => decide (value = base) || Text.endsWith value ("." ++ base)

/-- `_check_domain_policy`. -/
def checkDomainPolicy (o : Oracle) (cfg : Settings) (identifiers : List Identifier) :
    Except Exn Unit :=
  if cfg.allowedDomainList.isEmpty then .ok ()
  else match identifiers.find? fun i => !underAllowed cfg.allowedDomainList i.value with
    | none => .ok ()
    | some i => .error (.http 403 (.problem AcmeErrors.rejectedIdentifier
        ("Domain " ++ o.repr (.str i.value) ++ " is not under an allowed base domain")))

def orderUrl (cfg : Settings) (id : String) : String := cfg.relayBaseUrl ++ "/acme/order/" ++ id
def authzUrl (cfg : Settings) (id : String) : String := cfg.relayBaseUrl ++ "/acme/authz/" ++ id
def certUrl (cfg : Settings) (id : String) : String := cfg.relayBaseUrl ++ "/acme/cert/" ++ id

/-- The URLs of an order's authorizations. -/
def authzUrls (cfg : Settings) (db : Db) (orderId : String) : List String :=
  (db.authorizations.select fun _ a => decide (a.orderId = orderId)).map fun a => authzUrl cfg a.1

/-! ### `new_order` -/

inductive NewOrderPc where
  /-- The count of `_check_order_rate_limit`. -/
  | count (identifiers : List Identifier) (windowStart : Int)
  | commit (id : String) (row : Order) (authzs : List (String × Authorization))

/-- The `Order` and `Authorization` objects `new_order` adds to the session. -/
def placeOrder (accountId : String) (identifiers : List Identifier) (now : Int) (ch : Choice) :
    Option (Seg NewOrderPc) :=
  if isUuid ch.uuid && ch.authzs.all (fun a => isUuid a.1) &&
      decide (ch.authzs.length = identifiers.length) then
    some (.goto (.commit ch.uuid
      { accountId, status := .pending, identifiers, certId := none,
        expiresAt := some (now + days 1), createdAt := now, error := none }
      (List.zipWith (fun a ident => (a.1,
        { orderId := ch.uuid, identifier := ident.value, status := .pending,
          challengeToken := some a.2, createdAt := now, error := none }))
        ch.authzs identifiers)))
  else none

/-- `new_order` up to its first statement. -/
def newOrderStart (o : Oracle) (cfg : Settings) (accountId : String) (payload : Json) (now : Int)
    (ch : Choice) : Option (Seg NewOrderPc) :=
  match newOrderRequest payload with
  | none => some (.fail .raised)
  | some identifiers =>
      match do validateIdentifiers identifiers; checkDomainPolicy o cfg identifiers with
      | .error e => some (.fail e)
      | .ok () =>
          if 0 < cfg.orderRateLimit then
            some (.goto (.count identifiers (now - seconds cfg.orderRateWindow)))
          else placeOrder accountId identifiers now ch

def newOrderSeg (cfg : Settings) (accountId : String) (db : Db) (now : Int) :
    NewOrderPc → Choice → Option (Seg NewOrderPc)
  | .count identifiers windowStart, ch =>
      let count := db.orders.count fun _ r =>
        decide (r.accountId = accountId) && decide (windowStart ≤ r.createdAt)
      if cfg.orderRateLimit ≤ count then
        some (.fail (.http 429 (.problem AcmeErrors.rateLimited
          ("Order rate limit of " ++ toString cfg.orderRateLimit ++ " per " ++
            toString cfg.orderRateWindow ++ "s exceeded"))))
      else placeOrder accountId identifiers now ch
  | .commit id row authzs, _ =>
      some { write := .insertOrder id row :: authzs.map fun a => .insertAuthz a.1 a.2
             commit := true
             next := .respond ⟨201, .order
               { status := .pending
                 identifiers := row.identifiers
                 authorizations := authzs.map fun a => authzUrl cfg a.1
                 finalize := orderUrl cfg id ++ "/finalize"
                 expires := row.expiresAt }, some (orderUrl cfg id)⟩ }

/-! ### `get_order` -/

inductive GetOrderPc where
  | get
  | authzs (order : Order)

def getOrderSeg (cfg : Settings) (accountId orderId : String) (db : Db) :
    GetOrderPc → Seg GetOrderPc
  | .get => .attempt (requireOrderOwner accountId (db.orders.get orderId)) fun order =>
      .goto (.authzs order)
  | .authzs order => .respond ⟨200, .order
      { status := order.status
        identifiers := order.identifiers
        authorizations := authzUrls cfg db orderId
        finalize := orderUrl cfg orderId ++ "/finalize"
        certificate := order.certId.map (certUrl cfg)
        expires := order.expiresAt
        error := order.error }, none⟩

/-! ### `finalize_order` -/

inductive FinalizePc where
  | get (csr : String)
  /-- The conditional `UPDATE`. -/
  | update (order : Order) (csrDer : List UInt8) (domain : String)
  | commit (order : Order) (csrDer : List UInt8) (domain : String) (rowcount : Nat)
  /-- The query for the current status, after a lost claim. -/
  | status
  | authzs (order : Order)

/-- The answer to a finalize request for an order that is not ready. -/
def orderNotReady (status : String) : Exn :=
  .http 403 (.problem AcmeErrors.orderNotReady
    ("Order status is " ++ status ++ ", expected 'ready'"))

/-- The checks between loading the order and claiming it. -/
def finalizeChecks (order : Order) (csr : String) : Except Exn (List UInt8 × String) := do
  if order.status ≠ .ready then .error (orderNotReady ("'" ++ order.status.text ++ "'"))
  else
    let csrDer ← orElse .raised (b64urlDecode csr)
    let ident ← orElse (.http 400 (.text "Order has no identifiers")) order.identifiers.head?
    return (csrDer, ident.value)

def finalizeStart (payload : Json) : Seg FinalizePc :=
  .attempt (orElse .raised (finalizeRequest payload)) fun csr => .goto (.get csr)

def finalizeSeg (cfg : Settings) (accountId orderId : String) (db : Db) :
    FinalizePc → Seg FinalizePc
  | .get csr => .attempt (requireOrderOwner accountId (db.orders.get orderId)) fun order =>
      .attempt (finalizeChecks order csr) fun (csrDer, domain) =>
        .goto (.update order csrDer domain)
  | .update order csrDer domain =>
      let rowcount := db.orders.count fun k r => decide (k = orderId) && decide (r.status = .ready)
      { write := [.claimOrder orderId], next := .goto (.commit order csrDer domain rowcount) }
  | .commit order csrDer domain rowcount =>
      if rowcount = 0 then { commit := true, next := .goto .status }
      else { commit := true
             spawn := some (.processFinalize orderId domain csrDer)
             next := .goto (.authzs order) }
  | .status => .fail (orderNotReady (match db.orders.get orderId with
      | some r => "'" ++ r.status.text ++ "'"
      | none => "None"))
  | .authzs order => .respond ⟨200, .order
      { status := .processing
        identifiers := order.identifiers
        authorizations := authzUrls cfg db orderId
        finalize := orderUrl cfg orderId ++ "/finalize"
        expires := order.expiresAt }, none⟩

end Jackdaw
