import Jackdaw.Db.Grows

/-!
# Database — the rows a statement leaves alone

A row is named by its table and its key (`RowKey`), and belongs to an account: an account to
itself, an order to the one it names, an authorization and a certificate to the one of their order
(`Db.owner`).

* `Dml.exec_keeps`: a statement changes no row but the ones it updates; an `INSERT` changes none.
* `Db.Grows.owner`: a row never changes its owner.
-/

namespace Jackdaw

open Support

/-- A row of the accounts, orders, authorizations or certificates. -/
inductive RowKey where
  | account (id : String)
  | order (id : String)
  | authz (id : String)
  | cert (id : String)
  deriving DecidableEq

/-- The account an order belongs to. -/
def Db.orderOwner (db : Db) (id : String) : Option String := (db.orders.get id).map Order.accountId

/-- The account a row belongs to. -/
def Db.owner (db : Db) : RowKey → Option String
  | .account k => some k
  | .order k => db.orderOwner k
  | .authz k => (db.authorizations.get k).bind fun r => db.orderOwner r.orderId
  | .cert k => (db.certificates.get k).bind fun r => db.orderOwner r.orderId

/-- The row, if it is there, is the same in `db'`. -/
def Db.Keeps (db db' : Db) : RowKey → Prop
  | .account k => ∀ r, db.accounts.get k = some r → db'.accounts.get k = some r
  | .order k => ∀ r, db.orders.get k = some r → db'.orders.get k = some r
  | .authz k => ∀ r, db.authorizations.get k = some r → db'.authorizations.get k = some r
  | .cert k => ∀ r, db.certificates.get k = some r → db'.certificates.get k = some r

theorem Db.Keeps.refl (db : Db) (k : RowKey) : db.Keeps db k := by
  cases k <;> exact fun _ h => h

theorem Db.Keeps.trans {db db' db'' : Db} {k : RowKey} (h : db.Keeps db' k)
    (h' : db'.Keeps db'' k) : db.Keeps db'' k := by
  cases k <;> exact fun r hr => h' r (h r hr)

/-- The statement updates the row. -/
def Dml.Updates : Dml → RowKey → Prop
  | .setAccountKey id _, .account k => id = k
  | .updateOrder id _, .order k => id = k
  | .claimOrder id, .order k => id = k
  | .resetOrders, .order _ => True
  | .updateAuthz id _, .authz k => id = k
  | .resetAuthzs, .authz _ => True
  | _, _ => False

/-- The one row an `UPDATE` by primary key is about. -/
def Dml.row : Dml → Option RowKey
  | .setAccountKey id _ => some (.account id)
  | .updateOrder id _ | .claimOrder id => some (.order id)
  | .updateAuthz id _ => some (.authz id)
  | _ => none

theorem Dml.Updates.row {d : Dml} {k k' : RowKey} (h : d.Updates k) (hd : d.row = some k') :
    k = k' := by
  cases d with
  | setAccountKey _ _ | updateOrder _ _ | claimOrder _ | updateAuthz _ _ =>
      cases hd
      cases k <;> first | exact h.elim | (cases h; rfl)
  | _ => cases hd

/-- An `UPDATE` of other rows. -/
theorem get_updateWhere_keeps {R : Type} {t : Table String R} {p : String → R → Bool} {f : R → R}
    {k : String} (hp : ∀ r, p k r = false) {r : R} (h : t.get k = some r) :
    (t.updateWhere p f).get k = some r := by
  rw [Table.get_updateWhere, h, Option.map_some, hp, if_neg Bool.false_ne_true]

/-- The table of a row. -/
def RowKey.table : RowKey → TableName
  | .account _ => .accounts
  | .order _ => .orders
  | .authz _ => .authorizations
  | .cert _ => .certificates

theorem Db.Same.keeps {db db' : Db} {k : RowKey} (h : db.Same db' k.table) : db.Keeps db' k := by
  cases k with
  | account _ | order _ | authz _ | cert _ =>
      intro r hr
      rwa [h]

/-- **A statement changes only the rows it updates.** -/
theorem Dml.exec_keeps {d : Dml} {db db' : Db} (h : d.exec db = some db') {k : RowKey}
    (hk : ¬ d.Updates k) : db.Keeps db' k := by
  by_cases hd : d.table = k.table
  · cases k with
    | account k =>
        cases d with
        | insertAccount id row =>
            obtain ⟨t, ht, rfl⟩ := Option.map_eq_some_iff.mp h
            exact fun r hr => get_insert?_of_get ht hr
        | setAccountKey id key =>
            cases Option.some.inj h
            exact fun r hr => get_updateWhere_keeps (fun _ => decide_eq_false (Ne.symm hk)) hr
        | _ => cases hd
    | order k =>
        cases d with
        | insertOrder id row =>
            obtain ⟨t, ht, rfl⟩ := Option.map_eq_some_iff.mp h
            exact fun r hr => get_insert?_of_get ht hr
        | updateOrder id p =>
            cases Option.some.inj h
            exact fun r hr => get_updateWhere_keeps (fun _ => decide_eq_false (Ne.symm hk)) hr
        | claimOrder id =>
            cases Option.some.inj h
            refine fun r hr => get_updateWhere_keeps (fun _ => ?_) hr
            rw [decide_eq_false (Ne.symm hk), Bool.false_and]
        | resetOrders => exact absurd trivial hk
        | _ => cases hd
    | authz k =>
        cases d with
        | insertAuthz id row =>
            obtain ⟨t, ht, rfl⟩ := Option.map_eq_some_iff.mp h
            exact fun r hr => get_insert?_of_get ht hr
        | updateAuthz id p =>
            cases Option.some.inj h
            exact fun r hr => get_updateWhere_keeps (fun _ => decide_eq_false (Ne.symm hk)) hr
        | resetAuthzs => exact absurd trivial hk
        | _ => cases hd
    | cert k =>
        cases d with
        | insertCert id row =>
            obtain ⟨t, ht, rfl⟩ := Option.map_eq_some_iff.mp h
            exact fun r hr => get_insert?_of_get ht hr
        | _ => cases hd
  · exact (Dml.exec_same h hd).keeps

theorem Dml.execAll_keeps {ds : List Dml} {db db' : Db} (h : Dml.execAll ds db = some db')
    {k : RowKey} (hk : ∀ d ∈ ds, ¬ d.Updates k) : db.Keeps db' k :=
  Dml.execAll_induction (R := fun a b => a.Keeps b k) (fun db => .refl db k) .trans
    (fun d hd _ _ hab => Dml.exec_keeps hab (hk d hd)) h

/-! ### Owners -/

theorem Db.Grows.orderOwner {db db' : Db} (h : db.Grows db') {id a : String}
    (ha : db.orderOwner id = some a) : db'.orderOwner id = some a := by
  obtain ⟨r, hr, rfl⟩ := Option.map_eq_some_iff.mp ha
  obtain ⟨r', hr', hf⟩ := h.orders hr
  rw [Db.orderOwner, hr', Option.map_some, (Order.fixed_eq hf).1]

/-- **A row never changes its owner.** -/
theorem Db.Grows.owner {db db' : Db} (h : db.Grows db') {k : RowKey} {a : String}
    (ha : db.owner k = some a) : db'.owner k = some a := by
  cases k with
  | account k => exact ha
  | order k => exact h.orderOwner ha
  | authz k =>
      obtain ⟨r, hr, ha⟩ := Option.bind_eq_some_iff.mp ha
      obtain ⟨r', hr', hf⟩ := h.authorizations hr
      rw [Db.owner, hr', Option.bind_some, (Authorization.fixed_eq hf).1]
      exact h.orderOwner ha
  | cert k =>
      obtain ⟨r, hr, ha⟩ := Option.bind_eq_some_iff.mp ha
      rw [Db.owner, h.certificates hr, Option.bind_some]
      exact h.orderOwner ha

end Jackdaw
