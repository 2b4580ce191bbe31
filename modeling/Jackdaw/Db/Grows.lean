import Jackdaw.Db.Models

/-!
# Database — what statements never change

Rows of accounts, orders, authorizations and certificates are never deleted, and an order's owner,
identifiers and expiry, like an authorization's order, identifier and token, never change.
`Db.Grows` is the preorder this makes of databases; every statement, and so every transaction,
moves up in it.

A row that appears was inserted (`Dml.execAll_authorizations`).  A status that changes was set by a
statement: `Dml.SetsOrder` and `Dml.SetsAuthz` say from which status to which a statement turns a
row, and `Dml.exec_orderStatus` and `Dml.exec_authzStatus` that nothing else changes one.
-/

namespace Jackdaw

open Support

/-- The columns of an account no statement updates. -/
def Account.fixed (r : Account) : Option (List String) × AccountStatus × Int :=
  (r.contact, r.status, r.createdAt)

/-- The columns of an order no statement updates. -/
def Order.fixed (r : Order) : String × List Identifier × Option Int × Int :=
  (r.accountId, r.identifiers, r.expiresAt, r.createdAt)

/-- The columns of an authorization no statement updates. -/
def Authorization.fixed (r : Authorization) : String × String × Option String × Int :=
  (r.orderId, r.identifier, r.challengeToken, r.createdAt)

@[simp] theorem OrderPatch.fixed_apply (p : OrderPatch) (r : Order) :
    (p.apply r).fixed = r.fixed := rfl

@[simp] theorem AuthzPatch.fixed_apply (p : AuthzPatch) (r : Authorization) :
    (p.apply r).fixed = r.fixed := rfl

theorem Order.fixed_eq {r r' : Order} (h : r'.fixed = r.fixed) :
    r'.accountId = r.accountId ∧ r'.identifiers = r.identifiers ∧ r'.expiresAt = r.expiresAt := by
  simp only [Order.fixed, Prod.mk.injEq] at h
  exact ⟨h.1, h.2.1, h.2.2.1⟩

theorem Authorization.fixed_eq {r r' : Authorization} (h : r'.fixed = r.fixed) :
    r'.orderId = r.orderId ∧ r'.identifier = r.identifier ∧
      r'.challengeToken = r.challengeToken := by
  simp only [Authorization.fixed, Prod.mk.injEq] at h
  exact ⟨h.1, h.2.1, h.2.2.1⟩

/-- `db'` has the rows of `db`, with their fixed columns. -/
structure Db.Grows (db db' : Db) : Prop where
  accounts : ∀ {id r}, db.accounts.get id = some r →
    ∃ r', db'.accounts.get id = some r' ∧ r'.fixed = r.fixed
  orders : ∀ {id r}, db.orders.get id = some r →
    ∃ r', db'.orders.get id = some r' ∧ r'.fixed = r.fixed
  authorizations : ∀ {id r}, db.authorizations.get id = some r →
    ∃ r', db'.authorizations.get id = some r' ∧ r'.fixed = r.fixed
  certificates : ∀ {id r}, db.certificates.get id = some r → db'.certificates.get id = some r

namespace Db.Grows

theorem refl (db : Db) : db.Grows db :=
  ⟨fun h => ⟨_, h, rfl⟩, fun h => ⟨_, h, rfl⟩, fun h => ⟨_, h, rfl⟩, id⟩

theorem trans {db db' db'' : Db} (h : db.Grows db') (h' : db'.Grows db'') : db.Grows db'' where
  accounts e := by
    obtain ⟨r', e', hf⟩ := h.accounts e
    obtain ⟨r'', e'', hf'⟩ := h'.accounts e'
    exact ⟨r'', e'', hf'.trans hf⟩
  orders e := by
    obtain ⟨r', e', hf⟩ := h.orders e
    obtain ⟨r'', e'', hf'⟩ := h'.orders e'
    exact ⟨r'', e'', hf'.trans hf⟩
  authorizations e := by
    obtain ⟨r', e', hf⟩ := h.authorizations e
    obtain ⟨r'', e'', hf'⟩ := h'.authorizations e'
    exact ⟨r'', e'', hf'.trans hf⟩
  certificates e := h'.certificates (h.certificates e)

end Db.Grows

/-- A row survives an `INSERT` under another key, which is free. -/
theorem get_insert?_of_get {R : Type} {t t' : Table String R} {k id : String} {r row : R}
    (h : t.insert? k row = some t') (e : t.get id = some r) : t'.get id = some r := by
  rw [Table.get_insert? h]
  by_cases hk : id = k
  · subst hk
    rw [Table.get_of_insert? h] at e
    cases e
  · rw [if_neg hk, e]

/-- A row updated by a function that keeps `φ` is still there, with the same `φ`. -/
theorem get_updateWhere_of_get {R F : Type} {t : Table String R} {p : String → R → Bool}
    {f : R → R} (φ : R → F) {id : String} {r : R} (e : t.get id = some r)
    (hφ : ∀ r, φ (f r) = φ r := by intro _; rfl) : ∃ r', (t.updateWhere p f).get id = some r' ∧ φ r' = φ r := by
  rw [Table.get_updateWhere, e]
  refine ⟨_, rfl, ?_⟩
  by_cases hp : p id r = true
  · simpa only [hp, if_true] using hφ r
  · simp only [hp, if_false, Bool.false_eq_true]

/-- **Every statement moves up.** -/
theorem Dml.exec_grows {d : Dml} {db db' : Db} (h : d.exec db = some db') : db.Grows db' := by
  have hkeep := Db.Grows.refl db
  cases d with
  | insertAccount id row =>
      obtain ⟨t, ht, rfl⟩ := Option.map_eq_some_iff.mp h
      exact { hkeep with accounts := fun e => ⟨_, get_insert?_of_get ht e, rfl⟩ }
  | setAccountKey id key =>
      cases Option.some.inj h
      exact { hkeep with accounts := fun e => get_updateWhere_of_get Account.fixed e }
  | insertOrder id row =>
      obtain ⟨t, ht, rfl⟩ := Option.map_eq_some_iff.mp h
      exact { hkeep with orders := fun e => ⟨_, get_insert?_of_get ht e, rfl⟩ }
  | updateOrder id p =>
      cases Option.some.inj h
      exact { hkeep with orders := fun e => get_updateWhere_of_get Order.fixed e }
  | claimOrder id =>
      cases Option.some.inj h
      exact { hkeep with orders := fun e => get_updateWhere_of_get Order.fixed e }
  | insertAuthz id row =>
      obtain ⟨t, ht, rfl⟩ := Option.map_eq_some_iff.mp h
      exact { hkeep with authorizations := fun e => ⟨_, get_insert?_of_get ht e, rfl⟩ }
  | updateAuthz id p =>
      cases Option.some.inj h
      exact { hkeep with authorizations := fun e => get_updateWhere_of_get Authorization.fixed e }
  | insertCert id row =>
      obtain ⟨t, ht, rfl⟩ := Option.map_eq_some_iff.mp h
      exact { hkeep with certificates := get_insert?_of_get ht }
  | resetOrders =>
      cases Option.some.inj h
      exact { hkeep with orders := fun e => get_updateWhere_of_get Order.fixed e }
  | resetAuthzs =>
      cases Option.some.inj h
      exact { hkeep with
        authorizations := fun e => get_updateWhere_of_get Authorization.fixed e }
  | insertNonce v row =>
      obtain ⟨t, ht, rfl⟩ := Option.map_eq_some_iff.mp h
      exact { hkeep with }
  | consumeNonce v cutoff =>
      cases Option.some.inj h
      exact { hkeep with }
  | pruneNonces cutoff =>
      cases Option.some.inj h
      exact { hkeep with }

/-- A relation every statement of a list respects holds across the list. -/
theorem Dml.execAll_induction {R : Db → Db → Prop} (hrefl : ∀ db, R db db)
    (htrans : ∀ {a b c}, R a b → R b c → R a c) :
    ∀ {ds : List Dml} {db db' : Db}, (∀ d ∈ ds, ∀ {a b}, d.exec a = some b → R a b) →
      Dml.execAll ds db = some db' → R db db'
  | [], db, db', _, h => by cases Option.some.inj h; exact hrefl db
  | d :: ds, db, db', hd, h => by
      obtain ⟨db₁, h₁, h⟩ := Option.bind_eq_some_iff.mp h
      exact htrans (hd d List.mem_cons_self h₁)
        (execAll_induction hrefl htrans (fun d' hd' => hd d' (List.mem_cons_of_mem d hd')) h)

theorem Dml.execAll_grows {ds : List Dml} {db db' : Db} (h : Dml.execAll ds db = some db') :
    db.Grows db' :=
  Dml.execAll_induction Db.Grows.refl Db.Grows.trans (fun _ _ _ _ => Dml.exec_grows) h

/-! ### What a statement is about -/

inductive TableName where
  | accounts
  | orders
  | authorizations
  | certificates
  | nonces

/-- The table a statement writes to. -/
def Dml.table : Dml → TableName
  | .insertAccount _ _ | .setAccountKey _ _ => .accounts
  | .insertOrder _ _ | .updateOrder _ _ | .claimOrder _ | .resetOrders => .orders
  | .insertAuthz _ _ | .updateAuthz _ _ | .resetAuthzs => .authorizations
  | .insertCert _ _ => .certificates
  | .insertNonce _ _ | .consumeNonce _ _ | .pruneNonces _ => .nonces

/-- Table `n` is the same in `db'`. -/
def Db.Same (db db' : Db) : TableName → Prop
  | .accounts => db'.accounts = db.accounts
  | .orders => db'.orders = db.orders
  | .authorizations => db'.authorizations = db.authorizations
  | .certificates => db'.certificates = db.certificates
  | .nonces => db'.nonces = db.nonces

theorem Db.Same.refl (db : Db) (n : TableName) : db.Same db n := by
  cases n <;> rfl

theorem Db.Same.trans {db db' db'' : Db} {n : TableName} (h : db.Same db' n)
    (h' : db'.Same db'' n) : db.Same db'' n := by
  cases n <;> exact Eq.trans h' h

/-- **A statement writes to its own table.** -/
theorem Dml.exec_same {d : Dml} {db db' : Db} (h : d.exec db = some db') {n : TableName}
    (hd : d.table ≠ n) : db.Same db' n := by
  cases d with
  | insertAccount _ _ | insertOrder _ _ | insertAuthz _ _ | insertCert _ _ | insertNonce _ _ =>
      obtain ⟨t, -, rfl⟩ := Option.map_eq_some_iff.mp h
      cases n <;> first | rfl | exact absurd rfl hd
  | setAccountKey _ _ | updateOrder _ _ | claimOrder _ | resetOrders | updateAuthz _ _
  | resetAuthzs | consumeNonce _ _ | pruneNonces _ =>
      cases Option.some.inj h
      cases n <;> first | rfl | exact absurd rfl hd

theorem Dml.execAll_same {ds : List Dml} {db db' : Db} (h : Dml.execAll ds db = some db')
    {n : TableName} (hd : ∀ d ∈ ds, d.table ≠ n) : db.Same db' n :=
  Dml.execAll_induction (R := fun a b => a.Same b n) (fun db => .refl db n) .trans
    (fun d hmem _ _ hab => Dml.exec_same hab (hd d hmem)) h

/-! ### Where a row comes from -/

/-- A row after an `UPDATE` was there before it, with the same `φ`. -/
theorem get_of_get_updateWhere {R F : Type} {t : Table String R} {p : String → R → Bool}
    {f : R → R} (φ : R → F) {id : String} {r' : R} (e : (t.updateWhere p f).get id = some r')
    (hφ : ∀ r, φ (f r) = φ r := by intro _; rfl) : ∃ r, t.get id = some r ∧ φ r' = φ r := by
  rw [Table.get_updateWhere, Option.map_eq_some_iff] at e
  obtain ⟨r, hr, rfl⟩ := e
  refine ⟨r, hr, ?_⟩
  by_cases hp : p id r = true
  · rw [if_pos hp, hφ]
  · rw [if_neg hp]

theorem get_of_get_insert? {R : Type} {t t' : Table String R} {k id : String} {r row : R}
    (h : t.insert? k row = some t') (e : t'.get id = some r) :
    t.get id = some r ∨ k = id ∧ row = r := by
  rw [Table.get_insert? h] at e
  by_cases hk : id = k
  · rw [if_pos hk] at e
    exact .inr ⟨hk.symm, Option.some.inj e⟩
  · rw [if_neg hk] at e
    exact .inl e

/-- An account after a statement was there before it, or is the one it inserts. -/
theorem Dml.exec_account {d : Dml} {db db' : Db} (h : d.exec db = some db') {a : String}
    {r' : Account} (e : db'.accounts.get a = some r') :
    (∃ r, db.accounts.get a = some r ∧ r'.fixed = r.fixed) ∨ d = .insertAccount a r' := by
  by_cases hd : d.table = .accounts
  · cases d with
    | insertAccount k row =>
        obtain ⟨t, ht, rfl⟩ := Option.map_eq_some_iff.mp h
        rcases get_of_get_insert? ht e with e | ⟨rfl, rfl⟩
        · exact .inl ⟨r', e, rfl⟩
        · exact .inr rfl
    | setAccountKey _ _ =>
        cases Option.some.inj h
        exact .inl (get_of_get_updateWhere Account.fixed e)
    | _ => cases hd
  · rw [show db'.accounts = db.accounts from Dml.exec_same h hd] at e
    exact .inl ⟨r', e, rfl⟩

/-- An order after a statement was there before it, or is the one it inserts. -/
theorem Dml.exec_order {d : Dml} {db db' : Db} (h : d.exec db = some db') {id : String}
    {r' : Order} (e : db'.orders.get id = some r') :
    (∃ r, db.orders.get id = some r ∧ r'.fixed = r.fixed) ∨ d = .insertOrder id r' := by
  by_cases hd : d.table = .orders
  · cases d with
    | insertOrder k row =>
        obtain ⟨t, ht, rfl⟩ := Option.map_eq_some_iff.mp h
        rcases get_of_get_insert? ht e with e | ⟨rfl, rfl⟩
        · exact .inl ⟨r', e, rfl⟩
        · exact .inr rfl
    | updateOrder _ _ | claimOrder _ | resetOrders =>
        cases Option.some.inj h
        exact .inl (get_of_get_updateWhere Order.fixed e)
    | _ => cases hd
  · rw [show db'.orders = db.orders from Dml.exec_same h hd] at e
    exact .inl ⟨r', e, rfl⟩

/-- An authorization after a statement was there before it, or is the one it inserts. -/
theorem Dml.exec_authorizations {d : Dml} {db db' : Db} (h : d.exec db = some db') {z : String}
    {r' : Authorization} (e : db'.authorizations.get z = some r') :
    (∃ r, db.authorizations.get z = some r ∧ r'.fixed = r.fixed) ∨ d = .insertAuthz z r' := by
  by_cases hd : d.table = .authorizations
  · cases d with
    | insertAuthz k row =>
        obtain ⟨t, ht, rfl⟩ := Option.map_eq_some_iff.mp h
        rcases get_of_get_insert? ht e with e | ⟨rfl, rfl⟩
        · exact .inl ⟨r', e, rfl⟩
        · exact .inr rfl
    | updateAuthz _ _ | resetAuthzs =>
        cases Option.some.inj h
        exact .inl (get_of_get_updateWhere Authorization.fixed e)
    | _ => cases hd
  · rw [show db'.authorizations = db.authorizations from Dml.exec_same h hd] at e
    exact .inl ⟨r', e, rfl⟩

/-- **An authorization after a transaction was there before it, or is one it inserts.** -/
theorem Dml.execAll_authorizations {z : String} {r' : Authorization} :
    ∀ {ds : List Dml} {db db' : Db}, Dml.execAll ds db = some db' →
      db'.authorizations.get z = some r' →
      (∃ r, db.authorizations.get z = some r ∧ r'.fixed = r.fixed) ∨
        ∃ row, .insertAuthz z row ∈ ds
  | [], db, db', h, e => by cases Option.some.inj h; exact .inl ⟨r', e, rfl⟩
  | d :: ds, db, db', h, e => by
      obtain ⟨db₁, h₁, h⟩ := Option.bind_eq_some_iff.mp h
      rcases execAll_authorizations h e with ⟨r₁, e₁, hf₁⟩ | ⟨row, hrow⟩
      · rcases Dml.exec_authorizations h₁ e₁ with ⟨r, e₀, hf⟩ | rfl
        · exact .inl ⟨r, e₀, hf₁.trans hf⟩
        · exact .inr ⟨r₁, List.mem_cons_self⟩
      · exact .inr ⟨row, List.mem_cons_of_mem d hrow⟩

/-! ### Who sets a status -/

/-- The stored status of an order. -/
def Db.orderStatus (db : Db) (id : String) : Option OrderStatus :=
  (db.orders.get id).map Order.status

/-- The stored status of an authorization. -/
def Db.authzStatus (db : Db) (id : String) : Option AuthzStatus :=
  (db.authorizations.get id).map Authorization.status

theorem Db.orderStatus_eq_some {db : Db} {id : String} {st : OrderStatus} :
    db.orderStatus id = some st ↔ ∃ r, db.orders.get id = some r ∧ r.status = st :=
  Option.map_eq_some_iff

theorem Db.authzStatus_eq_some {db : Db} {id : String} {st : AuthzStatus} :
    db.authzStatus id = some st ↔ ∃ r, db.authorizations.get id = some r ∧ r.status = st :=
  Option.map_eq_some_iff

/-- The statement turns order `id` from status `old` to `st`. -/
def Dml.SetsOrder (d : Dml) (id : String) (old : Option OrderStatus) (st : OrderStatus) : Prop :=
  match d with
  | .insertOrder id' row => id' = id ∧ old = none ∧ st = row.status
  | .updateOrder id' p => id' = id ∧ old ≠ none ∧ p.status = some st
  | .claimOrder id' => id' = id ∧ old = some .ready ∧ st = .processing
  | .resetOrders => old = some .processing ∧ st = .invalid
  | _ => False

/-- The statement turns authorization `id` from status `old` to `st`. -/
def Dml.SetsAuthz (d : Dml) (id : String) (old : Option AuthzStatus) (st : AuthzStatus) : Prop :=
  match d with
  | .insertAuthz id' row => id' = id ∧ old = none ∧ st = row.status
  | .updateAuthz id' p => id' = id ∧ old ≠ none ∧ p.status = some st
  | .resetAuthzs => old = some .processing ∧ st = .invalid
  | _ => False

/-- The status of a row after an `INSERT`. -/
theorem map_get_insert? {R S : Type} {t t' : Table String R} {k : String} {row : R} {φ : R → S}
    (h : t.insert? k row = some t') (id : String) :
    (t'.get id).map φ = (t.get id).map φ ∨
      k = id ∧ (t.get id).map φ = none ∧ (t'.get id).map φ = some (φ row) := by
  rw [Table.get_insert? h]
  by_cases hk : id = k
  · subst hk
    rw [if_pos rfl, Table.get_of_insert? h]
    exact .inr ⟨rfl, rfl, rfl⟩
  · rw [if_neg hk]
    exact .inl rfl

/-- The status of a row after an `UPDATE`. -/
theorem map_get_updateWhere {R S : Type} (t : Table String R) (p : String → R → Bool) (f : R → R)
    (φ : R → S) (id : String) :
    ((t.updateWhere p f).get id).map φ = (t.get id).map φ ∨
      ∃ r, t.get id = some r ∧ p id r = true ∧
        ((t.updateWhere p f).get id).map φ = some (φ (f r)) := by
  rw [Table.get_updateWhere]
  cases hr : t.get id with
  | none => exact .inl rfl
  | some r =>
      by_cases hp : p id r = true
      · exact .inr ⟨r, rfl, hp, by simp [hp]⟩
      · exact .inl (by simp [hp])

theorem Dml.exec_orderStatus {d : Dml} {db db' : Db} (h : d.exec db = some db') (id : String) :
    db'.orderStatus id = db.orderStatus id ∨
      ∃ st, db'.orderStatus id = some st ∧ d.SetsOrder id (db.orderStatus id) st := by
  by_cases hd : d.table = .orders
  · cases d with
    | insertOrder k row =>
        obtain ⟨t, ht, rfl⟩ := Option.map_eq_some_iff.mp h
        rcases map_get_insert? (φ := Order.status) ht id with e | ⟨hk, hn, e⟩
        · exact .inl e
        · exact .inr ⟨_, e, hk, hn, rfl⟩
    | updateOrder k p =>
        cases Option.some.inj h
        rcases map_get_updateWhere db.orders _ p.apply Order.status id with e | ⟨r, hr, hk, e⟩
        · exact .inl e
        · cases hp : p.status with
          | none =>
              refine .inl (e.trans ?_)
              rw [Db.orderStatus, hr]
              simp [OrderPatch.apply, hp]
          | some st =>
              refine .inr ⟨st, e.trans (by simp [OrderPatch.apply, hp]), ?_, ?_, hp⟩
              · exact (of_decide_eq_true hk).symm
              · simp [Db.orderStatus, hr]
    | claimOrder k =>
        cases Option.some.inj h
        rcases map_get_updateWhere db.orders
          (fun k' r => decide (k' = k) && decide (r.status = .ready))
          (fun r => { r with status := .processing }) Order.status id with e | ⟨r, hr, hk, e⟩
        · exact .inl e
        · simp only [Bool.and_eq_true, decide_eq_true_eq] at hk
          exact .inr ⟨_, e, hk.1.symm, Db.orderStatus_eq_some.mpr ⟨r, hr, hk.2⟩, rfl⟩
    | resetOrders =>
        cases Option.some.inj h
        rcases map_get_updateWhere db.orders (fun _ r => decide (r.status = .processing))
          (fun r => { r with status := .invalid, error := some interruptedOrderError })
          Order.status id with e | ⟨r, hr, hk, e⟩
        · exact .inl e
        · exact .inr ⟨_, e, Db.orderStatus_eq_some.mpr ⟨r, hr, of_decide_eq_true hk⟩, rfl⟩
    | _ => cases hd
  · refine .inl ?_
    rw [Db.orderStatus, show db'.orders = db.orders from Dml.exec_same h hd, Db.orderStatus]

theorem Dml.exec_authzStatus {d : Dml} {db db' : Db} (h : d.exec db = some db') (id : String) :
    db'.authzStatus id = db.authzStatus id ∨
      ∃ st, db'.authzStatus id = some st ∧ d.SetsAuthz id (db.authzStatus id) st := by
  by_cases hd : d.table = .authorizations
  · cases d with
    | insertAuthz k row =>
        obtain ⟨t, ht, rfl⟩ := Option.map_eq_some_iff.mp h
        rcases map_get_insert? (φ := Authorization.status) ht id with e | ⟨hk, hn, e⟩
        · exact .inl e
        · exact .inr ⟨_, e, hk, hn, rfl⟩
    | updateAuthz k p =>
        cases Option.some.inj h
        rcases map_get_updateWhere db.authorizations _ p.apply Authorization.status id with
          e | ⟨r, hr, hk, e⟩
        · exact .inl e
        · cases hp : p.status with
          | none =>
              refine .inl (e.trans ?_)
              rw [Db.authzStatus, hr]
              simp [AuthzPatch.apply, hp]
          | some st =>
              refine .inr ⟨st, e.trans (by simp [AuthzPatch.apply, hp]), ?_, ?_, hp⟩
              · exact (of_decide_eq_true hk).symm
              · simp [Db.authzStatus, hr]
    | resetAuthzs =>
        cases Option.some.inj h
        rcases map_get_updateWhere db.authorizations (fun _ r => decide (r.status = .processing))
          (fun r => { r with status := .invalid }) Authorization.status id with e | ⟨r, hr, hk, e⟩
        · exact .inl e
        · exact .inr ⟨_, e, Db.authzStatus_eq_some.mpr ⟨r, hr, of_decide_eq_true hk⟩, rfl⟩
    | _ => cases hd
  · refine .inl ?_
    rw [Db.authzStatus, show db'.authorizations = db.authorizations from Dml.exec_same h hd,
      Db.authzStatus]

/-- **A transaction leaves an order with the status it had, or one a statement of it set.** -/
theorem Dml.execAll_orderStatus (id : String) :
    ∀ {ds : List Dml} {db db' : Db}, Dml.execAll ds db = some db' →
      db'.orderStatus id = db.orderStatus id ∨
        ∃ d ∈ ds, ∃ old st, d.SetsOrder id old st ∧ db'.orderStatus id = some st
  | [], db, db', h => by cases Option.some.inj h; exact .inl rfl
  | d :: ds, db, db', h => by
      obtain ⟨db₁, h₁, h⟩ := Option.bind_eq_some_iff.mp h
      rcases execAll_orderStatus id h with e | ⟨d', hd', old, st, hs, e⟩
      · rcases Dml.exec_orderStatus h₁ id with e₁ | ⟨st, e₁, hs⟩
        · exact .inl (e.trans e₁)
        · exact .inr ⟨d, List.mem_cons_self, _, st, hs, e.trans e₁⟩
      · exact .inr ⟨d', List.mem_cons_of_mem d hd', old, st, hs, e⟩

/-! ### A row that is written back -/

@[simp] theorem changed_getD {α : Type} [DecidableEq α] (old new : α) :
    (changed old new).getD old = new := by
  unfold changed
  split
  · assumption
  · rfl

theorem changed_eq_none {α : Type} [DecidableEq α] {old new : α} :
    changed old new = none ↔ old = new := by
  unfold changed
  split <;> simp_all

theorem Dml.execAll_append (ds ds' : List Dml) (db : Db) :
    Dml.execAll (ds ++ ds') db = (Dml.execAll ds db).bind (Dml.execAll ds') := by
  induction ds generalizing db with
  | nil => rfl
  | cons d ds ih =>
      show (d.exec db).bind _ = ((d.exec db).bind _).bind _
      rw [Option.bind_assoc]
      exact congrArg _ (funext ih)

/-- **Writing back an order that is still as it was loaded** leaves the new row, and nothing else
changed. -/
theorem Order.exec_flush {db db' : Db} {id : String} {old new : Order}
    (hr : db.orders.get id = some old) (hf : new.fixed = old.fixed)
    (h : Dml.execAll (old.flush id new) db = some db') :
    (∀ k, db'.orders.get k = if k = id then some new else db.orders.get k) ∧
      db'.authorizations = db.authorizations ∧ db'.certificates = db.certificates ∧
      db'.accounts = db.accounts := by
  simp only [Order.fixed, Prod.mk.injEq] at hf
  obtain ⟨h₁, h₂, h₃, h₄⟩ := hf
  have hnew : (OrderPatch.apply ⟨changed old.status new.status, changed old.certId new.certId,
      changed old.error new.error⟩ old) = new := by
    cases old
    cases new
    simp_all [OrderPatch.apply]
  simp only [Order.flush] at h
  split at h
  · rename_i hp
    simp only [OrderPatch.mk.injEq, changed_eq_none] at hp
    cases Option.some.inj h
    refine ⟨fun k => ?_, rfl, rfl, rfl⟩
    by_cases hk : k = id
    · rw [if_pos hk, hk, hr]
      cases old
      cases new
      simp_all
    · rw [if_neg hk]
  · cases Option.some.inj h
    refine ⟨fun k => ?_, rfl, rfl, rfl⟩
    simp only [Table.get_update]
    by_cases hk : k = id
    · rw [if_pos hk, if_pos hk, hk, hr, Option.map_some, hnew]
    · rw [if_neg hk, if_neg hk]

/-- **Writing back an authorization that is still as it was loaded.** -/
theorem Authorization.exec_flush {db db' : Db} {z : String} {old new : Authorization}
    (hr : db.authorizations.get z = some old) (hf : new.fixed = old.fixed)
    (h : Dml.execAll (old.flush z new) db = some db') :
    (∀ k, db'.authorizations.get k = if k = z then some new else db.authorizations.get k) ∧
      db'.orders = db.orders ∧ db'.certificates = db.certificates ∧ db'.accounts = db.accounts := by
  simp only [Authorization.fixed, Prod.mk.injEq] at hf
  obtain ⟨h₁, h₂, h₃, h₄⟩ := hf
  have hnew : (AuthzPatch.apply ⟨changed old.status new.status, changed old.error new.error⟩ old) =
      new := by
    cases old
    cases new
    simp_all [AuthzPatch.apply]
  simp only [Authorization.flush] at h
  split at h
  · rename_i hp
    simp only [AuthzPatch.mk.injEq, changed_eq_none] at hp
    cases Option.some.inj h
    refine ⟨fun k => ?_, rfl, rfl, rfl⟩
    by_cases hk : k = z
    · rw [if_pos hk, hk, hr]
      cases old
      cases new
      simp_all
    · rw [if_neg hk]
  · cases Option.some.inj h
    refine ⟨fun k => ?_, rfl, rfl, rfl⟩
    simp only [Table.get_update]
    by_cases hk : k = z
    · rw [if_pos hk, if_pos hk, hk, hr, Option.map_some, hnew]
    · rw [if_neg hk, if_neg hk]

end Jackdaw
