import Jackdaw.Support.Table
import Jackdaw.Util

/-!
# Database — the five tables

`db/models.py`, and the write statements the program issues against the tables.

A status column is an enumeration; a problem document and an identifier list, which the program
stores as JSON text it wrote itself, are the values that text encodes.  The columns
`le_order_url` and `le_authz_url` are written and read by nothing and left out.  Foreign keys are
declared but not enforced, so a row may name an account that does not exist.

`Dml` is the type of the `INSERT`, `UPDATE` and `DELETE` statements; `Dml.exec` runs one.  The
unit of work writes an object back by its primary key, and only the attributes that differ from
the row it was loaded from: `Order.flush` and `Authorization.flush`.
-/

namespace Jackdaw

open Support

inductive AccountStatus where
  | valid
  | deactivated
  | revoked
  deriving DecidableEq, Repr

inductive OrderStatus where
  | pending
  | ready
  | processing
  | valid
  | invalid
  deriving DecidableEq, Repr

inductive AuthzStatus where
  | pending
  | processing
  | valid
  | invalid
  deriving DecidableEq, Repr

/-- The text of the status column. -/
def OrderStatus.text : OrderStatus → String
  | .pending => "pending"
  | .ready => "ready"
  | .processing => "processing"
  | .valid => "valid"
  | .invalid => "invalid"

def AuthzStatus.text : AuthzStatus → String
  | .pending => "pending"
  | .processing => "processing"
  | .valid => "valid"
  | .invalid => "invalid"

def AccountStatus.text : AccountStatus → String
  | .valid => "valid"
  | .deactivated => "deactivated"
  | .revoked => "revoked"

/-- A problem document: `{"type": …, "detail": …}`. -/
structure Problem where
  type : String
  detail : String
  deriving DecidableEq, Repr

/-- An ACME identifier, `{"type": …, "value": …}`. -/
structure Identifier where
  type : String
  value : String
  deriving DecidableEq, Repr

structure Account where
  publicKey : String
  contact : Option (List String)
  status : AccountStatus
  createdAt : Int
  deriving DecidableEq, Repr

structure Order where
  accountId : String
  status : OrderStatus
  identifiers : List Identifier
  certId : Option String
  expiresAt : Option Int
  createdAt : Int
  error : Option Problem
  deriving DecidableEq, Repr

structure Authorization where
  orderId : String
  identifier : String
  status : AuthzStatus
  challengeToken : Option String
  createdAt : Int
  error : Option Problem
  deriving DecidableEq, Repr

structure Certificate where
  orderId : String
  pemChain : String
  issuedAt : Int
  expiresAt : Int
  serial : Option String
  deriving DecidableEq, Repr

structure Nonce where
  used : Bool
  createdAt : Int
  deriving DecidableEq, Repr

/-- The database, one table per model, each under its primary key. -/
structure Db where
  accounts : Table String Account
  orders : Table String Order
  authorizations : Table String Authorization
  certificates : Table String Certificate
  nonces : Table String Nonce

/-- The database the first migration leaves. -/
def Db.empty : Db := ⟨.empty, .empty, .empty, .empty, .empty⟩

/-! ### Statements -/

/-- The columns of an order that an `UPDATE` by primary key sets. -/
structure OrderPatch where
  status : Option OrderStatus := none
  certId : Option (Option String) := none
  error : Option (Option Problem) := none
  deriving DecidableEq, Repr

def OrderPatch.apply (p : OrderPatch) (r : Order) : Order :=
  { r with
    status := p.status.getD r.status
    certId := p.certId.getD r.certId
    error := p.error.getD r.error }

/-- The columns of an authorization that an `UPDATE` by primary key sets. -/
structure AuthzPatch where
  status : Option AuthzStatus := none
  error : Option (Option Problem) := none
  deriving DecidableEq, Repr

def AuthzPatch.apply (p : AuthzPatch) (r : Authorization) : Authorization :=
  { r with
    status := p.status.getD r.status
    error := p.error.getD r.error }

/-- `_INTERRUPTED_ORDER_ERROR`. -/
def interruptedOrderError : Problem :=
  ⟨"urn:ietf:params:acme:error:serverInternal",
    "Certificate issuance was interrupted by a relay restart; submit a new order."⟩

/-- The rows the consuming `UPDATE` flips: the nonce itself, unused and not older than `cutoff`. -/
def Nonce.consumable (value : Option String) (cutoff : Int) (v : String) (r : Nonce) : Bool :=
  decide (value = some v) && !r.used && decide (cutoff ≤ r.createdAt)

/-- `UPDATE nonces SET used = 1 WHERE value = :value AND NOT used AND created_at >= :cutoff`; a
null `value` is compared by `IS NULL` and finds nothing. -/
def Nonce.consume (t : Table String Nonce) (value : Option String) (cutoff : Int) :
    Table String Nonce :=
  t.updateWhere (Nonce.consumable value cutoff) fun r => { r with used := true }

/-- `DELETE FROM nonces WHERE created_at < :cutoff`. -/
def Nonce.prune (t : Table String Nonce) (cutoff : Int) : Table String Nonce :=
  t.deleteWhere fun _ r => decide (r.createdAt < cutoff)

/-- The write statements of the program. -/
inductive Dml where
  | insertAccount (id : String) (row : Account)
  | setAccountKey (id key : String)
  | insertOrder (id : String) (row : Order)
  | updateOrder (id : String) (patch : OrderPatch)
  /-- `UPDATE orders SET status = 'processing' WHERE id = :id AND status = 'ready'` -/
  | claimOrder (id : String)
  | insertAuthz (id : String) (row : Authorization)
  | updateAuthz (id : String) (patch : AuthzPatch)
  | insertCert (id : String) (row : Certificate)
  /-- The two statements of `_reset_processing_orders`. -/
  | resetOrders
  | resetAuthzs
  | insertNonce (value : String) (row : Nonce)
  | consumeNonce (value : Option String) (cutoff : Int)
  | pruneNonces (cutoff : Int)
  deriving DecidableEq, Repr

/-- One statement; `none` is an integrity error. -/
def Dml.exec : Dml → Db → Option Db
  | .insertAccount id row, db =>
      (db.accounts.insert? id row).map fun t => { db with accounts := t }
  | .setAccountKey id key, db =>
      some { db with accounts := db.accounts.update id fun r => { r with publicKey := key } }
  | .insertOrder id row, db => (db.orders.insert? id row).map fun t => { db with orders := t }
  | .updateOrder id p, db => some { db with orders := db.orders.update id p.apply }
  | .claimOrder id, db =>
      some { db with
        orders := db.orders.updateWhere (fun k r => decide (k = id) && decide (r.status = .ready))
          fun r => { r with status := .processing } }
  | .insertAuthz id row, db =>
      (db.authorizations.insert? id row).map fun t => { db with authorizations := t }
  | .updateAuthz id p, db =>
      some { db with authorizations := db.authorizations.update id p.apply }
  | .insertCert id row, db =>
      (db.certificates.insert? id row).map fun t => { db with certificates := t }
  | .resetOrders, db =>
      some { db with
        orders := db.orders.updateWhere (fun _ r => decide (r.status = .processing))
          fun r => { r with status := .invalid, error := some interruptedOrderError } }
  | .resetAuthzs, db =>
      some { db with
        authorizations :=
          db.authorizations.updateWhere (fun _ r => decide (r.status = .processing))
            fun r => { r with status := .invalid } }
  | .insertNonce v row, db => (db.nonces.insert? v row).map fun t => { db with nonces := t }
  | .consumeNonce v cutoff, db =>
      some { db with nonces := Nonce.consume db.nonces v cutoff }
  | .pruneNonces cutoff, db =>
      some { db with nonces := Nonce.prune db.nonces cutoff }

/-- The statements of a transaction, in order. -/
def Dml.execAll : List Dml → Db → Option Db
  | [], db => some db
  | d :: ds, db => (d.exec db).bind (execAll ds)

/-! ### The unit of work -/

/-- A changed attribute. -/
def changed {α : Type} [DecidableEq α] (old new : α) : Option α :=
  if old = new then none else some new

/-- The `UPDATE` that writes an order back, when an attribute differs from the loaded row. -/
def Order.flush (id : String) (old new : Order) : List Dml :=
  let p : OrderPatch := ⟨changed old.status new.status, changed old.certId new.certId,
    changed old.error new.error⟩
  if p = {} then [] else [.updateOrder id p]

/-- The `UPDATE` that writes an authorization back. -/
def Authorization.flush (id : String) (old new : Authorization) : List Dml :=
  let p : AuthzPatch := ⟨changed old.status new.status, changed old.error new.error⟩
  if p = {} then [] else [.updateAuthz id p]

/-- The `UPDATE` that writes an account's key back. -/
def Account.flush (id : String) (old : Account) (key : String) : List Dml :=
  if old.publicKey = key then [] else [.setAccountKey id key]

end Jackdaw
