import Jackdaw.Services.LeClient
import Jackdaw.Support.Interleave

/-!
# Upstream — flows and the CA

Any number of flows of `order_cert` on one client, and the CA they talk to.  The CA hands out
whichever of its orders it likes, also one it has handed out before.  It accepts one finalize of an
order, refuses those that come before or after, and issues for the CSR it has accepted.  It may leave out a
`Location` header anywhere, and refuse anything.

A POST is answered in one step and the flow goes on in another, so that other flows may come in
between; a flow may also fail wherever it waits, whether its POST has been answered or not.
-/

namespace Jackdaw

open Support Support.Interleave

/-- The URLs the CA gives its orders and certificates: no two orders share one. -/
structure Ca where
  orderUrl : Nat → String
  finalizeUrl : Nat → String
  certUrl : Nat → String
  orderUrl_inj : Function.Injective orderUrl
  finalizeUrl_inj : Function.Injective finalizeUrl
  certUrl_inj : Function.Injective certUrl

/-- An order at the CA, with the CSR of the finalize it has accepted. -/
inductive CaOrder where
  | pending
  | ready
  | processing (csr : List UInt8)
  | valid (csr : List UInt8)
  | invalid

/-- What happened, by the number of the flow. -/
inductive UpstreamEvent where
  /-- `new_order` was answered with an order. -/
  | handed (flow order : Nat)
  /-- The finalize of the flow was accepted. -/
  | accepted (flow order : Nat) (csr : List UInt8)
  /-- The finalize of the flow was refused. -/
  | refused (flow : Nat) (exc : AcmeError)
  /-- The flow sends a POST to ask for its order. -/
  | polled (flow : Nat) (url : String)
  /-- `finalize_and_wait`, for a CSR, returns a chain. -/
  | returned (flow : Nat) (csr : List UInt8) (chain : Chain)
deriving DecidableEq

/-- A flow of `order_cert`, with the answer to the POST it awaits once there is one. -/
structure Flow where
  domain : String
  csr : List UInt8
  pc : OrderCertPc
  reply : Option Reply

structure Upstream where
  client : LeClient
  orders : Nat → CaOrder
  log : List UpstreamEvent

def Upstream.init : Upstream := ⟨.init, fun _ => .pending, []⟩

/-- What the CA decides about a POST. -/
inductive CaChoice where
  /-- The order a `new_order` or a poll is answered with, whether there is a `Location`, and the
  authorizations. -/
  | order (n : Nat) (location : Bool) (authorizations : List String)
  /-- The order of an accepted finalize, and whether it is issued at once. -/
  | accept (n : Nat) (location issued : Bool) (authorizations : List String)
  | chain (n : Nat)
  | refuse (exc : AcmeError)

/-- What the environment decides. -/
inductive UpstreamInput where
  | orderCert (domain : String) (csr : List UInt8)
  | answer (ch : CaChoice)
  | resume
  | fail
  /-- The CA sets an order on its way: validated, issued, given up, or finalized by somebody else. -/
  | validate (n : Nat)
  | issue (n : Nat)
  | giveUp (n : Nat)
  | finalized (n : Nat) (csr : List UInt8)

/-- The status of an order. -/
def CaOrder.status : CaOrder → UpstreamStatus
  | .pending => .pending
  | .ready => .ready
  | .processing _ => .processing
  | .valid _ => .valid
  | .invalid => .invalid

/-- The answer about order `n`. -/
def Ca.reply (ca : Ca) (n : Nat) (location : Bool) (authorizations : List String)
    (order : CaOrder) : OrderReply where
  location := if location then some (ca.orderUrl n) else none
  status := order.status
  authorizations := authorizations
  finalize := ca.finalizeUrl n
  certificate := match order with
    | .valid _ => some (ca.certUrl n)
    | _ => none

/-- The CA answers the POST flow `i` is waiting for. -/
def Ca.answer (ca : Ca) (i : Nat) (s : Upstream) (t : Flow) :
    CaChoice → Option (Upstream × Reply)
  | .refuse exc => match t.pc with
      | .newOrder | .poll _ _ => some (s, .order (.error exc))
      | .finalize _ _ => some ({ s with log := .refused i exc :: s.log }, .order (.error exc))
      | .download _ => some (s, .chain (.error exc))
      | _ => none
  | .order n location authorizations => match t.pc with
      | .newOrder => some ({ s with log := .handed i n :: s.log },
          .order (.ok (ca.reply n location authorizations (s.orders n))))
      | .poll uri _ =>
          if ca.orderUrl n = uri then
            some (s, .order (.ok (ca.reply n location authorizations (s.orders n))))
          else none
      | _ => none
  | .accept n location issued authorizations => match t.pc, s.orders n with
      | .finalize url _, .ready =>
          if ca.finalizeUrl n = url then
            let order := if issued then CaOrder.valid t.csr else .processing t.csr
            some ({ s with
                orders := Function.update s.orders n order
                log := .accepted i n t.csr :: s.log },
              .order (.ok (ca.reply n location authorizations order)))
          else none
      | _, _ => none
  | .chain n => match t.pc, s.orders n with
      | .download url, .valid csr =>
          if ca.certUrl n = url then some (s, .chain (.ok ⟨n, csr⟩)) else none
      | _, _ => none

/-- The client a flow leaves that ends. -/
def Flow.leave (t : Flow) (client : LeClient) : LeClient :=
  match t.pc with
  | .lock => client
  | _ => client.release t.domain

/-- What a flow does with the outcome of its segment. -/
def Flow.finish (i : Nat) (s : Upstream) (t : Flow) (client : LeClient) :
    OrderCertNext → Outcome Upstream Flow
  | .goto (.poll uri attempts) =>
      ⟨{ s with client, log := .polled i uri :: s.log },
        some { t with pc := .poll uri attempts, reply := none }, none⟩
  | .goto pc => ⟨{ s with client }, some { t with pc, reply := none }, none⟩
  | .returned chain =>
      ⟨{ s with client := t.leave client, log := .returned i t.csr chain :: s.log }, none, none⟩
  | .raised => ⟨{ s with client := t.leave client }, none, none⟩

/-- The flows on one client. -/
def upstream (ca : Ca) (getOrderStatus : OrderReply → Option UpstreamStatus) :
    Machine Upstream Flow UpstreamInput where
  run i _ s t
    | .answer ch => match t.reply with
        | none => (ca.answer i s t ch).map fun (s', reply) =>
            ⟨s', some { t with reply := some reply }, none⟩
        | some _ => none
    | .resume => (orderCertSeg getOrderStatus s.client t.domain t.pc t.reply).map
        fun (client, next) => t.finish i s client next
    | .fail => some ⟨{ s with client := t.leave s.client }, none, none⟩
    | _ => none
  arrive _
    | .orderCert domain csr => some ⟨domain, csr, .lock, none⟩
    | _ => none
  tick s
    | .validate n => match s.orders n with
        | .pending => some { s with orders := Function.update s.orders n .ready }
        | _ => none
    | .issue n => match s.orders n with
        | .processing csr => some { s with orders := Function.update s.orders n (.valid csr) }
        | _ => none
    | .giveUp n => match s.orders n with
        | .valid _ => none
        | _ => some { s with orders := Function.update s.orders n .invalid }
    | .finalized n csr => match s.orders n with
        | .ready => some { s with orders := Function.update s.orders n (.processing csr) }
        | _ => none
    | _ => none
  restart _ _ := none

end Jackdaw
