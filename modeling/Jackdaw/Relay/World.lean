import Mathlib.Logic.Relation
import Jackdaw.Relay.Machine
import Jackdaw.Services.Http01
import Jackdaw.Upstream.Flows

/-!
# Relay — the world the tasks meet

In the machine a `Choice` is free to say what `validate_http01` and `client.sign` came to.  A `World`
says what they can come to: it has the resolvers and web servers of the clients, domain by domain and
attempt by attempt, and the CA, behind the flows of `order_cert` on the one client.

* `World.Admits`: the choice is one that `validate_http01` and `order_cert` make in the world.
* `Leads`: the relay gets from one configuration to another in moves that the world admits.
* `World.Returns.issued`: a chain that a flow returns is that of a valid order at the CA.
-/

namespace Jackdaw

open Support Support.Interleave

/-- What the background tasks talk to; `nets domain k` is what attempt `k` to validate the domain
meets, and `pem` the text of a chain. -/
structure World where
  nets : String → Nat → Network
  ca : Ca
  getOrderStatus : OrderReply → Option UpstreamStatus
  pem : Chain → String

namespace World

variable {w : World} {domain : String} {csr : List UInt8} {chain : Chain}

/-- The flows of `order_cert` and the CA get to `c`. -/
def Reaches (w : World) (c : Config Upstream Flow) : Prop :=
  Reach (upstream w.ca w.getOrderStatus) (fun _ _ => True) .init c

/-- A flow of `order_cert` for the domain and the CSR returns the chain. -/
def Returns (w : World) (domain : String) (csr : List UInt8) (chain : Chain) : Prop :=
  ∃ c c' i t, w.Reaches c ∧ c.tasks i = some t ∧ t.domain = domain ∧ t.csr = csr ∧
    (upstream w.ca w.getOrderStatus).step c (.run i .resume) = some c' ∧
    c'.shared.log = .returned i csr chain :: c.shared.log

/-- The CA has issued the chain, for the CSR unless another flow had finalized the order. -/
def Issued (w : World) (csr : List UInt8) (chain : Chain) : Prop :=
  ∃ c i, w.Reaches c ∧ .returned i csr chain ∈ c.shared.log ∧
    c.shared.orders chain.order = .valid chain.csr ∧
    (chain.csr = csr ∨ c.shared.AlreadyFinalized i)

/-- **A chain that is returned was issued.** -/
theorem Returns.issued (h : w.Returns domain csr chain) : w.Issued csr chain := by
  obtain ⟨c, c', i, t, hc, -, -, -, hstep, hlog⟩ := h
  have hc' : w.Reaches c' := .step hc hstep trivial
  have hreturned : .returned i csr chain ∈ c'.shared.log := by
    rw [hlog]
    exact List.mem_cons_self
  obtain ⟨-, hvalid, hcsr⟩ := (Upstream.reach_ok hc').returned i csr chain hreturned
  exact ⟨c', i, hc', hreturned, hvalid, hcsr⟩

/-- The choice is what the code that is awaited comes to: `validate_http01` on the networks of the
domain, or a flow of `order_cert`, which may always raise. -/
def Admits (w : World) (o : Oracle) (cfg : Settings) (pc : Pc) (ch : Choice) : Prop :=
  match pc with
  | .runChallenge _ _ (.validate domain token expected) =>
      ch.validated =
        validationProblem (validateHttp01 o cfg domain token expected false (w.nets domain))
  | .processFinalize _ domain csrDer .issue =>
      ∀ pemChain, ch.issued = .ok pemChain →
        ∃ chain, w.Returns domain csrDer chain ∧ w.pem chain = pemChain
  | _ => True

/-- The moves in which nothing fails: a request arrives, or a task runs on as the world admits. -/
def Permits (w : World) (o : Oracle) (cfg : Settings) (c : Relay) : Action Input → Prop
  | .arrive (.request _) => True
  | .run i (.choose ch) => ∀ t, c.tasks i = some t → w.Admits o cfg t.pc ch
  | _ => False

end World

/-- The relay gets from `c` to `c'` in moves that the world permits. -/
def Leads (o : Oracle) (cfg : Settings) (w : World) : Relay → Relay → Prop :=
  Relation.ReflTransGen fun c c' => ∃ a, (relay o cfg).step c a = some c' ∧ w.Permits o cfg c a

end Jackdaw
