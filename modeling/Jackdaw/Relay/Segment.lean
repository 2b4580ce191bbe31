import Jackdaw.Services.Jws

/-!
# Relay — segments

A coroutine of the relay runs from one `await` to the next.  A *segment* is what it does between
the two: the statement it awaited has its result, the code behind it has run, and the next
statement is about to be issued or the coroutine is over.  `Seg P` is the effect of a segment of a
coroutine whose suspension points are of type `P`:

* the statements it sends, in its open transaction;
* whether it commits;
* the background task it creates, if any;
* what comes next.

A segment computes its effect from the database it sees, the clock, and `Choice`, what the world
decides in it: fresh identifiers and the outcome of a network call.
-/

namespace Jackdaw

open Support

/-- `OrderResponse`.  The `expires` text is the time it writes. -/
structure OrderBody where
  status : OrderStatus
  identifiers : List Identifier
  authorizations : List String
  finalize : String
  certificate : Option String := none
  expires : Option Int
  error : Option Problem := none

/-- `ChallengeObject`, of type `http-01`. -/
structure ChallengeBody where
  url : String
  status : AuthzStatus
  token : String
  error : Option Problem := none

/-- `AuthzResponse`, with its one challenge. -/
structure AuthzBody where
  status : AuthzStatus
  identifier : Identifier
  challenge : ChallengeBody

/-- `AccountResponse`. -/
structure AccountBody where
  status : AccountStatus
  contact : Option (List String)
  orders : String

inductive Body where
  | order (b : OrderBody)
  | authz (b : AuthzBody)
  | challenge (b : ChallengeBody)
  | account (b : AccountBody)
  | pem (chain : String)
  | failure (detail : Detail)
  | empty

structure Response where
  status : Nat
  body : Body
  location : Option String := none

/-- A task the relay creates for itself. -/
inductive Bg where
  | runChallenge (authzId orderId : String)
  | processFinalize (orderId domain : String) (csrDer : List UInt8)
  deriving DecidableEq, Repr

/-- What comes after a segment. -/
inductive Next (P : Type) where
  | goto (p : P)
  | respond (r : Response)
  /-- A background task is over. -/
  | stop
  /-- The startup is over, and requests are served. -/
  | serve
  /-- An exception nothing handles; a request is answered 500. -/
  | raised
  /-- The statement or commit failed. -/
  | dbError

/-- The effect of a segment. -/
structure Seg (P : Type) where
  write : List Dml := []
  commit : Bool := false
  spawn : Option Bg := none
  next : Next P

namespace Next

def map {P Q : Type} (f : P → Q) : Next P → Next Q
  | goto p => goto (f p)
  | respond r => respond r
  | stop => stop
  | serve => serve
  | raised => raised
  | dbError => dbError

theorem map_eq_goto {P Q : Type} {f : P → Q} {n : Next P} {q : Q} (h : n.map f = goto q) :
    ∃ p, n = goto p ∧ q = f p := by
  cases n <;> cases h
  exact ⟨_, rfl, rfl⟩

theorem map_eq_respond {P Q : Type} {f : P → Q} {n : Next P} {r : Response}
    (h : n.map f = respond r) : n = respond r := by
  cases n <;> cases h
  rfl

end Next

namespace Seg

def map {P Q : Type} (f : P → Q) (s : Seg P) : Seg Q :=
  ⟨s.write, s.commit, s.spawn, s.next.map f⟩

@[simp] theorem map_write {P Q : Type} (f : P → Q) (s : Seg P) : (s.map f).write = s.write := rfl

@[simp] theorem map_commit {P Q : Type} (f : P → Q) (s : Seg P) : (s.map f).commit = s.commit := rfl

@[simp] theorem map_spawn {P Q : Type} (f : P → Q) (s : Seg P) : (s.map f).spawn = s.spawn := rfl

@[simp] theorem map_next {P Q : Type} (f : P → Q) (s : Seg P) :
    (s.map f).next = s.next.map f := rfl

/-- A segment that only moves on. -/
def goto {P : Type} (p : P) : Seg P := { next := .goto p }

/-- A segment that only answers. -/
def respond {P : Type} (r : Response) : Seg P := { next := .respond r }

/-- The end of a coroutine that raises. -/
def fail {P : Type} : Exn → Seg P
  | .http status detail => { next := .respond ⟨status, .failure detail, none⟩ }
  | .raised => { next := .raised }

/-- The end of a background task. -/
def stop {P : Type} : Seg P := { next := .stop }

/-- A computation that may raise, and the segment it goes on with. -/
def attempt {α P : Type} (x : Except Exn α) (f : α → Seg P) : Seg P :=
  match x with
  | .ok a => f a
  | .error e => fail e

@[simp] theorem attempt_ok {α P : Type} {x : α} {f : α → Seg P} : attempt (.ok x) f = f x := rfl

@[simp] theorem attempt_error {α P : Type} {e : Exn} {f : α → Seg P} :
    attempt (.error e) f = fail e := rfl

/-- An answer the segment gives is an error. -/
def Refuses {P : Type} (seg : Seg P) : Prop := ∀ r, seg.next = .respond r → 400 ≤ r.status

theorem Refuses.goto {P : Type} (p : P) : (Seg.goto p).Refuses := fun _ h => by cases h

theorem Refuses.fail {P : Type} {e : Exn} (h : Jackdaw.Refuses (.error e : Except Exn Unit)) :
    (fail e : Seg P).Refuses := by
  cases e with
  | http status detail =>
      rintro r ⟨⟩
      exact h _ _ rfl
  | raised => exact fun _ h => by cases h

theorem Refuses.attempt {α P : Type} {x : Except Exn α} {f : α → Seg P}
    (hx : Jackdaw.Refuses x) (hf : ∀ a, x = .ok a → (f a).Refuses) : (attempt x f).Refuses := by
  rcases x with e | a
  · refine .fail ?_
    rintro status detail ⟨⟩
    exact hx _ _ rfl
  · exact hf a rfl

theorem Refuses.map {P Q : Type} {seg : Seg P} (h : seg.Refuses) (F : P → Q) :
    (seg.map F).Refuses :=
  fun r hr => h r (Next.map_eq_respond hr)

end Seg

/-- What the world decides in a segment. -/
structure Choice where
  /-- `str(uuid.uuid4())`. -/
  uuid : String := ""
  /-- Further identifiers with their challenge tokens, one for each authorization of an order. -/
  authzs : List (String × String) := []
  /-- `secrets.token_urlsafe(32)`, as a nonce. -/
  token : String := ""
  /-- What `validate_http01` raised, or nothing if it returned. -/
  validated : Option Problem := none
  /-- The chain `client.sign` returned in `order_cert`, or the problem it raised. -/
  issued : Except Problem String := .error ⟨"", ""⟩
  /-- Did `le.revoke_cert` return? -/
  revoked : Bool := false

/-- The text of a UUID has 36 characters. -/
def isUuid (s : String) : Bool := s.length = 36

/-! ### A coroutine by itself -/

/-- A coroutine that nothing interferes with: the segment, then at most `n` further ones, each on
the database the last one left.  No transaction is open between two of them. -/
def Seg.drive {P : Type} (body : Db → P → Seg P) : Nat → Seg P → Db → Next P × Db
  | n, seg, db =>
      match if seg.commit then Dml.execAll seg.write db else some db with
      | none => (.dbError, db)
      | some db' =>
          match n, seg.next with
          | n + 1, .goto p => drive body n (body db' p) db'
          | _, next => (next, db')

/-- The coroutine answers with the status. -/
def Next.Answers {P : Type} (n : Next P) (status : Nat) : Prop :=
  ∃ r, n = .respond r ∧ r.status = status

section Drive

variable {P : Type} {body : Db → P → Seg P} {n : Nat} {db : Db}

@[simp] theorem Seg.drive_fail (e : Exn) : (Seg.fail e).drive body n db = ((Seg.fail e).next, db) := by
  cases e <;> cases n <;> rfl

@[simp] theorem Seg.drive_goto (p : P) :
    (Seg.goto p).drive body (n + 1) db = (body db p).drive body n db := rfl

end Drive

/-! ### Ownership

`services/ownership.py`: the row, if it exists and belongs to the requesting account. -/

/-- `_UNAUTHORIZED`. -/
def notOwner : Exn :=
  .http 403 (.problem AcmeErrors.unauthorized
    "This resource does not belong to the requesting account")

/-- `require_order_owner`, on the row it loaded. -/
def requireOrderOwner (accountId : String) : Option Order → Except Exn Order
  | none => .error (.http 404 (.text "Order not found"))
  | some order => if order.accountId = accountId then .ok order else .error notOwner

/-- The second half of `require_authz_owner` and `require_cert_owner`: the parent order is there
and belongs to the account. -/
def requireParentOwner (accountId : String) (order : Option Order) : Except Exn Unit :=
  match order with
  | none => .error notOwner
  | some order => if order.accountId = accountId then .ok () else .error notOwner

theorem requireOrderOwner_refuses (a : String) (x : Option Order) :
    Refuses (requireOrderOwner a x) := by
  rcases x with _ | r
  · exact .http (by decide)
  · simp only [requireOrderOwner]
    split
    · exact .ok _
    · exact .http (by decide)

theorem requireParentOwner_refuses (a : String) (x : Option Order) :
    Refuses (requireParentOwner a x) := by
  rcases x with _ | r
  · exact .http (by decide)
  · simp only [requireParentOwner]
    split
    · exact .ok _
    · exact .http (by decide)

theorem requireOrderOwner_ok {a : String} {x : Option Order} {order : Order}
    (h : requireOrderOwner a x = .ok order) : x = some order ∧ order.accountId = a := by
  rcases x with _ | r
  · cases h
  · simp only [requireOrderOwner] at h
    split at h
    · cases h
      exact ⟨rfl, by assumption⟩
    · cases h

theorem requireParentOwner_ok {a : String} {x : Option Order} {u : Unit}
    (h : requireParentOwner a x = .ok u) : ∃ order, x = some order ∧ order.accountId = a := by
  rcases x with _ | r
  · cases h
  · simp only [requireParentOwner] at h
    split at h
    · exact ⟨r, rfl, by assumption⟩
    · cases h

end Jackdaw
