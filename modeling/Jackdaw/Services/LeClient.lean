import Jackdaw.Util
import Mathlib.Logic.Function.Basic

/-!
# Services — the client of the upstream CA

`le_client.py`: `order_cert` and, under it, `new_order`, `finalize_and_wait` and
`_poll_order_for_cert` of the shared `JackdawAcmeClient`, between one await and the next.

All flows share the client's map from finalize URLs to order URLs, which `new_order` fills and
`finalize_and_wait` empties, and the locks by which `order_cert` lets one flow per domain through.
`sign` is the library's: it calls `new_order`, has the challenges fulfilled, and hands the order to
`finalize_and_wait`.
-/

namespace Jackdaw

open Support

/-- An `AcmeError`, by its text. -/
structure AcmeError where
  text : String
deriving DecidableEq

/-- `_dns01_txt_value`; the hash is the library's. -/
def dns01TxtValue (sha256 : List UInt8 → List UInt8) (keyAuthorization : List UInt8) : String :=
  Text.rstripChar (urlsafeB64encode (sha256 keyAuthorization)) '='

/-- `_is_order_already_finalized`. -/
def isOrderAlreadyFinalized (exc : AcmeError) : Bool := Text.contains exc.text "orderNotReady"

/-- The status of an order at the CA. -/
inductive UpstreamStatus where
  | pending | ready | processing | valid | invalid

/-- What the client reads of an answer about an order: the `Location` header, and the body. -/
structure OrderReply where
  location : Option String
  status : UpstreamStatus
  authorizations : List String
  finalize : String
  certificate : Option String

/-- A certificate chain, by the upstream order and the CSR it was issued for. -/
structure Chain where
  order : Nat
  csr : List UInt8
deriving DecidableEq

/-- What `_post` returns or raises. -/
inductive Reply where
  | order (r : Except AcmeError OrderReply)
  | chain (r : Except AcmeError Chain)

/-- The state of a `JackdawAcmeClient` that flows share: `_order_urls`, and which of the
`_domain_locks` are held. -/
structure LeClient where
  orderUrls : String → Option String
  locked : String → Bool

namespace LeClient

/-- The client of `init_account`. -/
def init : LeClient := ⟨fun _ => none, fun _ => false⟩

/-- `domain_lock(domain)`, taken. -/
def acquire (client : LeClient) (domain : String) : LeClient :=
  { client with locked := Function.update client.locked domain true }

def release (client : LeClient) (domain : String) : LeClient :=
  { client with locked := Function.update client.locked domain false }

/-- `new_order`, behind its POST: the order URL is kept under the finalize URL. -/
def newOrder (client : LeClient) (resp : OrderReply) : LeClient :=
  match resp.location with
  | some loc => { client with orderUrls := Function.update client.orderUrls resp.finalize (some loc) }
  | none => client

/-- `_order_urls.pop(finalize, None)`. -/
def popOrderUrl (client : LeClient) (finalize : String) : LeClient × Option String :=
  ({ client with orderUrls := Function.update client.orderUrls finalize none },
    client.orderUrls finalize)

variable {client : LeClient} {f g u : String}

theorem orderUrls_newOrder {resp : OrderReply} (h : (client.newOrder resp).orderUrls f = some u) :
    f = resp.finalize ∧ resp.location = some u ∨ client.orderUrls f = some u := by
  unfold newOrder at h
  split at h
  · next loc hl =>
      simp only at h
      by_cases e : f = resp.finalize
      · rw [e, Function.update_self] at h
        exact .inl ⟨e, hl.trans h⟩
      · rw [Function.update_of_ne e] at h
        exact .inr h
  · exact .inr h

@[simp] theorem locked_newOrder (client : LeClient) (resp : OrderReply) :
    (client.newOrder resp).locked = client.locked := by
  unfold newOrder
  split <;> rfl

theorem popOrderUrl_self (client : LeClient) (f : String) :
    (client.popOrderUrl f).1.orderUrls f = none := by
  simp [popOrderUrl]

theorem orderUrls_popOrderUrl (h : (client.popOrderUrl g).1.orderUrls f = some u) :
    client.orderUrls f = some u := by
  simp only [popOrderUrl] at h
  by_cases e : f = g
  · rw [e, Function.update_self] at h
    cases h
  · rwa [Function.update_of_ne e] at h

end LeClient

/-- `_FINALIZE_POLL_ATTEMPTS`. -/
def finalizePollAttempts : Nat := 60

/-- Where a flow of `order_cert` awaits something. -/
inductive OrderCertPc where
  /-- The lock of its domain. -/
  | lock
  /-- The POST of `new_order`. -/
  | newOrder
  /-- The challenges of the order, in `sign`. -/
  | challenges (finalize : String)
  /-- The POST of `finalize_and_wait`, with the order URL it has popped. -/
  | finalize (finalize : String) (storedOrderUrl : Option String)
  /-- A POST of `_poll_order_for_cert`, with the attempts that are left. -/
  | poll (orderUri : String) (attempts : Nat)
  | download (certificate : String)

/-- How a segment of a flow ends. -/
inductive OrderCertNext where
  | goto (p : OrderCertPc)
  | returned (chain : Chain)
  | raised

section

-- `_get_order_status` is the library's; it may raise
variable (getOrderStatus : OrderReply → Option UpstreamStatus)

/-- `finalize_and_wait`, behind its POST. -/
def finalizeAndWait (storedOrderUrl : Option String) :
    Except AcmeError OrderReply → OrderCertNext
  | .error exc =>
      match storedOrderUrl with
      | some url =>
          if isOrderAlreadyFinalized exc then .goto (.poll url finalizePollAttempts) else .raised
      | none => .raised
  | .ok resp =>
      match getOrderStatus resp with
      | none => .raised
      | some _ =>
          match resp.location, storedOrderUrl with
          | some uri, _ => .goto (.poll uri finalizePollAttempts)
          | none, some uri => .goto (.poll uri finalizePollAttempts)
          | none, none =>
              match resp.status, resp.certificate with
              | .valid, some cert => .goto (.download cert)
              | _, _ => .raised

/-- `_poll_order_for_cert`, behind one of its POSTs. -/
def pollOrderForCert (orderUri : String) (attempts : Nat) :
    Except AcmeError OrderReply → OrderCertNext
  | .error _ => .raised
  | .ok resp =>
      match getOrderStatus resp with
      | none => .raised
      | some .valid => match resp.certificate with
          | some cert => .goto (.download cert)
          | none => .raised
      | some .invalid => .raised
      | some _ => if attempts ≤ 1 then .raised else .goto (.poll orderUri (attempts - 1))

/-- One segment of `order_cert` for a domain: the client it leaves, and how it ends; `none` where
the flow still waits. -/
def orderCertSeg (client : LeClient) (domain : String) :
    OrderCertPc → Option Reply → Option (LeClient × OrderCertNext)
  | .lock, none =>
      if client.locked domain then none else some (client.acquire domain, .goto .newOrder)
  | .newOrder, some (.order (.ok resp)) =>
      -- the order URL is kept before the authorizations are paired with the one identifier
      some (client.newOrder resp,
        if resp.authorizations.length = 1 then .goto (.challenges resp.finalize) else .raised)
  | .newOrder, some (.order (.error _)) => some (client, .raised)
  | .challenges finalize, none =>
      let (client, stored) := client.popOrderUrl finalize
      some (client, .goto (.finalize finalize stored))
  | .finalize _ stored, some (.order resp) => some (client, finalizeAndWait getOrderStatus stored resp)
  | .poll uri attempts, some (.order resp) =>
      some (client, pollOrderForCert getOrderStatus uri attempts resp)
  | .download _, some (.chain (.ok chain)) => some (client, .returned chain)
  | .download _, some (.chain (.error _)) => some (client, .raised)
  | _, _ => none

end

end Jackdaw
