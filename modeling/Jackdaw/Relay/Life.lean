import Jackdaw.Relay.Certificates
import Jackdaw.Relay.Claims
import Jackdaw.Relay.Terminal

/-!
# Relay — the rows of an order, step by step

While the tasks of an order follow each other, a background task is alone with its rows: the row it
loaded is the row that is there when it writes it back (`Pc.Holds`), so that writing back the
columns it changed leaves the row it had in mind.  `OrderStep` and `AuthzStep` are the steps of the
rows that this leaves, with everything each step changes.

* `Turn.order_step`, `Turn.authz_step`: a turn leaves a row as it is, or makes one of these steps.
* `holds`: what a background task holds is what is there, in every run in which no second
  validating task is created for an authorization.
-/

namespace Jackdaw

open Support Support.Interleave

/-! ### What a background task holds -/

/-- What `run_challenge` holds where it is suspended, with the statements `tx` sent. -/
def RunChallengePc.Holds (z id : String) (db : Db) (tx : List Dml) : RunChallengePc → Prop
  | .getOrder authz => ∀ a, authz = some a → db.authorizations.get z = some a
  | .regetOrder _ authz => ∀ a, authz = some a → db.authorizations.get z = some a
  | .getAccount authz order =>
      db.authorizations.get z = some authz ∧ db.orders.get id = some order
  | .statuses authz order => db.authorizations.get z = some authz ∧ db.orders.get id = some order
  | .commit flush => ∃ authz order, db.authorizations.get z = some authz ∧
      db.orders.get id = some order ∧
      ((∃ problem, tx = [] ∧ flush = invalidate z id authz order problem) ∨
        tx = authz.flush z { authz with status := .valid } ∧
          flush = order.flush id { order with status := .ready })
  | _ => True

/-- What `process_finalize` holds where it is suspended. -/
def ProcessFinalizePc.Holds (id : String) (db : Db) : ProcessFinalizePc → Prop
  | .store order _ _ => db.orders.get id = some order
  | .commit flush => ∃ order, db.orders.get id = some order ∧
      ((∃ problem,
          flush = order.flush id { order with status := .invalid, error := some problem }) ∨
        ∃ k, db.CertOf k id ∧
          flush = order.flush id { order with certId := some k, status := .valid })
  | _ => True

/-- What a background task holds: the rows it loaded are the ones that are there. -/
def Pc.Holds (db : Db) (tx : List Dml) : Pc → Prop
  | .runChallenge z id p => p.Holds z id db tx
  | .processFinalize id _ _ p => p.Holds id db
  | _ => True

/-! ### Steps of a row -/

/-- The entry makes this step of order `id`, from the row it finds to the row it leaves. -/
inductive OrderStep (e : Entry) (id : String) : Option Order → Order → Prop where
  | place {a p r} (hpc : e.pc = .newOrder a p)
      (new : r.status = .pending ∧ r.certId = none ∧ r.error = none) : OrderStep e id none r
  | acknowledge {a z p r} (hpc : e.pc = .challenge a z p) (hz : e.pre.AuthzOf z id)
      (hv : e.validates z = true) (old : r.status = .pending) :
      OrderStep e id (some r) { r with status := .processing }
  | claim {a p r} (hpc : e.pc = .finalize a id p) (old : r.status = .ready) :
      OrderStep e id (some r) { r with status := .processing }
  | validate {z p r} (hpc : e.pc = .runChallenge z id p) (old : r.status = .processing)
      (hz : e.post.authzStatus z = some .valid) :
      OrderStep e id (some r) { r with status := .ready }
  | refute {z p r} (hpc : e.pc = .runChallenge z id p) (old : r.status = .processing) :
      OrderStep e id (some r) { r with status := .invalid }
  | record {domain csrDer p r k} (hpc : e.pc = .processFinalize id domain csrDer p)
      (old : r.status = .processing) (hk : e.pre.CertOf k id) :
      OrderStep e id (some r) { r with certId := some k, status := .valid }
  | refuse {domain csrDer p r problem} (hpc : e.pc = .processFinalize id domain csrDer p)
      (old : r.status = .processing) :
      OrderStep e id (some r) { r with status := .invalid, error := some problem }
  | interrupt {p r} (hpc : e.pc = .reset p) (old : r.status = .processing) :
      OrderStep e id (some r)
        { r with status := .invalid, error := some interruptedOrderError }

/-- The entry makes this step of authorization `z`. -/
inductive AuthzStep (e : Entry) (z : String) : Option Authorization → Authorization → Prop where
  | place {a p r} (hpc : e.pc = .newOrder a p) (new : r.status = .pending ∧ r.error = none) :
      AuthzStep e z none r
  | acknowledge {a p r} (hpc : e.pc = .challenge a z p) (hv : e.validates z = true)
      (old : r.status = .pending) : AuthzStep e z (some r) { r with status := .processing }
  | validate {id p r} (hpc : e.pc = .runChallenge z id p) (old : r.status = .processing) :
      AuthzStep e z (some r) { r with status := .valid }
  | refute {id p r problem} (hpc : e.pc = .runChallenge z id p) (old : r.status = .processing) :
      AuthzStep e z (some r) { r with status := .invalid, error := some problem }
  | interrupt {p r} (hpc : e.pc = .reset p) (old : r.status = .processing) :
      AuthzStep e z (some r) { r with status := .invalid }

section

variable {o : Oracle} {cfg : Settings} {c : Relay} {i : Nat} {t u : Task} {seg : Seg Pc}
  {out : Outcome Shared Task}

/-! ### What each commit leaves -/

/-- The commit of `acknowledge_challenge`, row by row. -/
theorem Turn.acknowledge_rows (h : Turn o cfg c i t seg out) (hk : t.pc.Knows i c.shared t.tx)
    {a z : String} {p : ChallengePc} (hpc : t.pc = .challenge a z p) (hc : seg.commit = true) :
    ∃ id, c.shared.db.AuthzOf z id ∧ h.entry.validates z = true ∧
      (∀ k, out.shared.db.orders.get k = (c.shared.db.orders.get k).map fun r =>
        if k = id ∧ r.status = .pending then { r with status := .processing } else r) ∧
      ∀ w, out.shared.db.authorizations.get w = (c.shared.db.authorizations.get w).map fun r =>
        if w = z then { r with status := .processing } else r := by
  obtain ⟨ch, hseg⟩ := h.commits hc
  rw [hpc] at hseg hk
  have hseg := Option.some.inj hseg
  subst hseg
  obtain ⟨authz, flush, rfl⟩ := challengeSeg_commit hc
  obtain ⟨hz, -, htx, rfl⟩ := hk
  refine ⟨authz.orderId, hz.authzOf, Entry.validates_iff.mpr ⟨_, rfl⟩, ?_⟩
  rcases h.db with ⟨-, e⟩ | ⟨hcf, -⟩
  · rw [htx] at e
    have e : Dml.execAll (.updateAuthz z { status := some .processing } ::
      ackFlush c.shared.db authz.orderId) c.shared.db = some out.shared.db := e
    have hauthz : ∀ w, (c.shared.db.authorizations.update z
        (AuthzPatch.apply { status := some .processing })).get w =
        (c.shared.db.authorizations.get w).map fun r =>
          if w = z then { r with status := .processing } else r := by
      intro w
      rw [Table.get_update]
      split
      · rfl
      · exact Option.map_id'.symm
    unfold ackFlush at e
    by_cases hst : c.shared.db.orderStatus authz.orderId = some .pending
    · rw [if_pos hst] at e
      rw [← Option.some.inj e]
      refine ⟨fun k => ?_, hauthz⟩
      show (c.shared.db.orders.update _ _).get k = _
      rw [Table.get_update]
      by_cases hid : k = authz.orderId
      · subst hid
        obtain ⟨r, hr, hp⟩ := Db.orderStatus_eq_some.mp hst
        simp [hr, hp, OrderPatch.apply]
      · simp [hid]
    · rw [if_neg hst] at e
      rw [← Option.some.inj e]
      refine ⟨fun k => ?_, hauthz⟩
      show c.shared.db.orders.get k = _
      cases hr : c.shared.db.orders.get k with
      | none => rfl
      | some r =>
          rw [Option.map_some, if_neg]
          rintro ⟨rfl, hp⟩
          exact hst (Db.orderStatus_eq_some.mpr ⟨r, hr, hp⟩)
  · cases hcf

/-- The commit of `finalize_order`, row by row. -/
theorem claim_rows {db db' : Db} {id : String} (h : Dml.execAll [.claimOrder id] db = some db')
    (k : String) : db'.orders.get k = (db.orders.get k).map fun r =>
      if k = id ∧ r.status = .ready then { r with status := .processing } else r := by
  cases Option.some.inj h
  show (Table.updateWhere ..).get k = _
  rw [Table.get_updateWhere]
  refine congrArg (fun f => Option.map f (db.orders.get k)) (funext fun r => ?_)
  simp only [Bool.and_eq_true, decide_eq_true_eq]

/-- **The commit of `run_challenge`**: both rows, as the validation came out. -/
theorem Turn.runChallenge_rows (h : Turn o cfg c i t seg out)
    (hh : t.pc.Holds c.shared.db t.tx) {z id : String} {p : RunChallengePc}
    (hpc : t.pc = .runChallenge z id p) (hc : seg.commit = true) :
    ∃ authz order authz' order', c.shared.db.authorizations.get z = some authz ∧
      c.shared.db.orders.get id = some order ∧
      (∀ k, out.shared.db.orders.get k =
        if k = id then some order' else c.shared.db.orders.get k) ∧
      (∀ w, out.shared.db.authorizations.get w =
        if w = z then some authz' else c.shared.db.authorizations.get w) ∧
      out.shared.db.certificates = c.shared.db.certificates ∧
      (authz' = { authz with status := .valid } ∧ order' = { order with status := .ready } ∨
        ∃ problem, authz' = { authz with status := .invalid, error := some problem } ∧
          order' = { order with status := .invalid }) := by
  obtain ⟨ch, hseg⟩ := h.commits hc
  rw [hpc] at hseg hh
  have hseg := Option.some.inj hseg
  subst hseg
  obtain ⟨flush, rfl⟩ := runChallengeSeg_commit hc
  obtain ⟨authz, order, hz, ho, hcase⟩ := hh
  have hflush : ∀ {authz' : Authorization} {order' : Order}, authz'.fixed = authz.fixed →
      order'.fixed = order.fixed →
      Dml.execAll (authz.flush z authz' ++ order.flush id order') c.shared.db =
        some out.shared.db →
      (∀ k, out.shared.db.orders.get k =
        if k = id then some order' else c.shared.db.orders.get k) ∧
      (∀ w, out.shared.db.authorizations.get w =
        if w = z then some authz' else c.shared.db.authorizations.get w) ∧
      out.shared.db.certificates = c.shared.db.certificates := by
    intro authz' order' hfa hfo e
    rw [Dml.execAll_append] at e
    obtain ⟨db₁, e₁, e⟩ := Option.bind_eq_some_iff.mp e
    obtain ⟨ha₁, ho₁, hc₁, -⟩ := Authorization.exec_flush hz hfa e₁
    obtain ⟨ho₂, ha₂, hc₂, -⟩ := Order.exec_flush (ho₁ ▸ ho) hfo e
    refine ⟨fun k => ?_, fun w => ?_, hc₂.trans hc₁⟩
    · rw [ho₂, ho₁]
    · rw [ha₂, ha₁]
  rcases h.db with ⟨-, e⟩ | ⟨hcf, -⟩
  · rcases hcase with ⟨problem, htx, rfl⟩ | ⟨htx, rfl⟩
    · rw [htx] at e
      have e : Dml.execAll (invalidate z id authz order problem) c.shared.db =
        some out.shared.db := e
      obtain ⟨h₁, h₂, h₃⟩ := hflush (by rfl) (by rfl) e
      exact ⟨authz, order, _, _, hz, ho, h₁, h₂, h₃, .inr ⟨problem, rfl, rfl⟩⟩
    · rw [htx] at e
      have e : Dml.execAll (authz.flush z { authz with status := .valid } ++
        order.flush id { order with status := .ready }) c.shared.db = some out.shared.db := e
      obtain ⟨h₁, h₂, h₃⟩ := hflush (by rfl) (by rfl) e
      exact ⟨authz, order, _, _, hz, ho, h₁, h₂, h₃, .inl ⟨rfl, rfl⟩⟩
  · cases hcf

/-- **The commits of `process_finalize`**: the certificate is stored, or the order is written. -/
theorem Turn.processFinalize_rows (h : Turn o cfg c i t seg out)
    (hh : t.pc.Holds c.shared.db t.tx) {id domain : String} {csrDer : List UInt8}
    {p : ProcessFinalizePc} (hpc : t.pc = .processFinalize id domain csrDer p)
    (hc : seg.commit = true) :
    out.shared.db.authorizations = c.shared.db.authorizations ∧
    ((∃ order k cert, p = .store order k cert ∧ out.shared.db.orders = c.shared.db.orders ∧
      ∀ w, out.shared.db.certificates.get w =
        if w = k then some cert else c.shared.db.certificates.get w) ∨
    ∃ flush order order', p = .commit flush ∧ c.shared.db.orders.get id = some order ∧
      (∀ k, out.shared.db.orders.get k =
        if k = id then some order' else c.shared.db.orders.get k) ∧
      out.shared.db.certificates = c.shared.db.certificates ∧
      ((∃ problem, order' = { order with status := .invalid, error := some problem }) ∨
        ∃ k, c.shared.db.CertOf k id ∧
          order' = { order with certId := some k, status := .valid })) := by
  obtain ⟨ch, hseg⟩ := h.commits hc
  rw [hpc] at hseg hh
  obtain ⟨seg', h', rfl⟩ := Option.map_eq_some_iff.mp hseg
  have htx : t.tx = [] := h.tx_nil (by rw [hpc]; rfl)
  rcases h.db with ⟨-, e⟩ | ⟨hcf, -⟩
  · rcases processFinalizeSeg_commit h' hc with ⟨order, k, cert, rfl⟩ | ⟨flush, rfl⟩
    · cases Option.some.inj h'
      rw [htx] at e
      obtain ⟨db₁, h₁, e⟩ := Option.bind_eq_some_iff.mp e
      obtain ⟨tab, ht, rfl⟩ := Option.map_eq_some_iff.mp h₁
      rw [← Option.some.inj e]
      exact ⟨rfl, .inl ⟨order, k, cert, rfl, rfl, Table.get_insert? ht⟩⟩
    · cases Option.some.inj h'
      obtain ⟨order, ho, hcase⟩ := hh
      rw [htx] at e
      have e : Dml.execAll flush c.shared.db = some out.shared.db := e
      rcases hcase with ⟨problem, rfl⟩ | ⟨k, hk, rfl⟩
      · obtain ⟨h₁, h₂, h₃, -⟩ := Order.exec_flush ho (by rfl) e
        exact ⟨h₂, .inr ⟨_, order, _, rfl, ho, h₁, h₃, .inl ⟨problem, rfl⟩⟩⟩
      · obtain ⟨h₁, h₂, h₃, -⟩ := Order.exec_flush ho (by rfl) e
        exact ⟨h₂, .inr ⟨_, order, _, rfl, ho, h₁, h₃, .inr ⟨k, hk, rfl⟩⟩⟩
  · rw [hc] at hcf
    cases hcf

/-- The reset, row by row. -/
theorem Turn.reset_rows (h : Turn o cfg c i t seg out) {p : ResetPc} (hpc : t.pc = .reset p) :
    (∀ id, out.shared.db.orders.get id = c.shared.db.orders.get id ∨
      ∃ r, c.shared.db.orders.get id = some r ∧ r.status = .processing ∧
        out.shared.db.orders.get id = some
          { r with status := .invalid, error := some interruptedOrderError }) ∧
    ∀ z, out.shared.db.authorizations.get z = c.shared.db.authorizations.get z ∨
      ∃ r, c.shared.db.authorizations.get z = some r ∧ r.status = .processing ∧
        out.shared.db.authorizations.get z = some { r with status := .invalid } := by
  rcases h.committed with e | ⟨-, e⟩
  · rw [e]
    exact ⟨fun _ => .inl rfl, fun _ => .inl rfl⟩
  · have hds : ∀ d ∈ t.tx ++ seg.write, d = .resetOrders ∨ d = .resetAuthzs := by
      intro d hd
      have hmay := h.may_statement hd
      rw [hpc] at hmay
      cases d with
      | resetOrders => exact .inl rfl
      | resetAuthzs => exact .inr rfl
      | _ => exact hmay.elim
    constructor
    · intro id
      refine Dml.execAll_induction (R := fun a b => b.orders.get id = a.orders.get id ∨
        ∃ r, a.orders.get id = some r ∧ r.status = .processing ∧ b.orders.get id = some
          { r with status := .invalid, error := some interruptedOrderError })
        (fun _ => .inl rfl) ?_ ?_ e
      · rintro a b d (e₁ | ⟨r, hr, hst, e₁⟩) (e₂ | ⟨r', hr', hst', e₂⟩)
        · exact .inl (e₂.trans e₁)
        · exact .inr ⟨r', e₁ ▸ hr', hst', e₂⟩
        · exact .inr ⟨r, hr, hst, e₂.trans e₁⟩
        · rw [e₁] at hr'
          cases hr'
          cases hst'
      · intro d hd a b hab
        rcases hds d hd with rfl | rfl
        · cases Option.some.inj hab
          cases hr : a.orders.get id with
          | none => simp [hr]
          | some r => by_cases hst : r.status = .processing <;> simp [hr, hst]
        · cases Option.some.inj hab
          exact .inl rfl
    · intro z
      refine Dml.execAll_induction (R := fun a b =>
        b.authorizations.get z = a.authorizations.get z ∨
          ∃ r, a.authorizations.get z = some r ∧ r.status = .processing ∧
            b.authorizations.get z = some { r with status := .invalid })
        (fun _ => .inl rfl) ?_ ?_ e
      · rintro a b d (e₁ | ⟨r, hr, hst, e₁⟩) (e₂ | ⟨r', hr', hst', e₂⟩)
        · exact .inl (e₂.trans e₁)
        · exact .inr ⟨r', e₁ ▸ hr', hst', e₂⟩
        · exact .inr ⟨r, hr, hst, e₂.trans e₁⟩
        · rw [e₁] at hr'
          cases hr'
          cases hst'
      · intro d hd a b hab
        rcases hds d hd with rfl | rfl
        · cases Option.some.inj hab
          exact .inl rfl
        · cases Option.some.inj hab
          cases hr : a.authorizations.get z with
          | none => simp [hr]
          | some r => by_cases hst : r.status = .processing <;> simp [hr, hst]

/-! ### What a turn does to a row -/

/-- A row that none of the turn's statements updates. -/
theorem Turn.order_kept (h : Turn o cfg c i t seg out) {id : String} {r : Order}
    (hr : c.shared.db.orders.get id = some r)
    (hd : ∀ d, t.pc.May d → ¬ d.Updates (.order id)) :
    out.shared.db.orders.get id = some r :=
  h.keeps (fun d _ _ hmay => hd d hmay) r hr

theorem Turn.authz_kept (h : Turn o cfg c i t seg out) {z : String} {r : Authorization}
    (hr : c.shared.db.authorizations.get z = some r)
    (hd : ∀ d, t.pc.May d → ¬ d.Updates (.authz z)) :
    out.shared.db.authorizations.get z = some r :=
  h.keeps (fun d _ _ hmay => hd d hmay) r hr

theorem Db.status_of_order {db : Db} {id : String} {r : Order} {st : OrderStatus}
    (h : db.orderStatus id = some st) (hr : db.orders.get id = some r) : r.status = st := by
  rw [Db.orderStatus, hr] at h
  exact Option.some.inj h

theorem Db.status_of_authz {db : Db} {z : String} {r : Authorization} {st : AuthzStatus}
    (h : db.authzStatus z = some st) (hr : db.authorizations.get z = some r) : r.status = st := by
  rw [Db.authzStatus, hr] at h
  exact Option.some.inj h

/-- A row that was not there before the turn is one that `new_order` places. -/
theorem Turn.new_rows (h : Turn o cfg c i t seg out) (hk : t.pc.Knows i c.shared t.tx) :
    (∀ {id r'}, c.shared.db.orders.get id = none → out.shared.db.orders.get id = some r' →
      OrderStep h.entry id none r') ∧
    ∀ {z r'}, c.shared.db.authorizations.get z = none →
      out.shared.db.authorizations.get z = some r' → AuthzStep h.entry z none r' := by
  rcases h.places hk with ⟨k, row, z, v, r, -, -, -, hrow, hr, ⟨a, p, hpc⟩, e⟩ | ⟨hauthz, horder⟩
  · obtain ⟨db₁, h₁, e⟩ := Option.bind_eq_some_iff.mp e
    obtain ⟨db₂, h₂, e⟩ := Option.bind_eq_some_iff.mp e
    obtain ⟨tab, ht, rfl⟩ := Option.map_eq_some_iff.mp h₁
    obtain ⟨tab', ht', rfl⟩ := Option.map_eq_some_iff.mp h₂
    refine ⟨fun hold hnew => ?_, fun hold hnew => ?_⟩
    · rw [← Option.some.inj e] at hnew
      rcases get_of_get_insert? ht hnew with hrow' | ⟨rfl, rfl⟩
      · rw [hold] at hrow'
        cases hrow'
      · exact .place hpc hrow
    · rw [← Option.some.inj e] at hnew
      rcases get_of_get_insert? ht' hnew with hr' | ⟨rfl, rfl⟩
      · rw [show c.shared.db.authorizations.get _ = none from hold] at hr'
        cases hr'
      · exact .place hpc hr
  · refine ⟨fun hold hnew => ?_, fun hold hnew => ?_⟩
    · obtain ⟨r, hr, -⟩ := horder hnew
      rw [hold] at hr
      cases hr
    · obtain ⟨r, hr, -⟩ := hauthz hnew
      rw [hold] at hr
      cases hr

/-- What the commit of a validating task does to an order. -/
theorem Turn.order_step_runChallenge (h : Turn o cfg c i t seg out) (hf : t.pc.Finds i c.shared)
    (hh : t.pc.Holds c.shared.db t.tx) {z id' : String} {p : RunChallengePc}
    (hpc : t.pc = .runChallenge z id' p) (hc : seg.commit = true) {id : String} {r : Order}
    (hold : c.shared.db.orders.get id = some r) :
    out.shared.db.orders.get id = some r ∨
      ∃ r', out.shared.db.orders.get id = some r' ∧ OrderStep h.entry id (some r) r' := by
  obtain ⟨authz, order, authz', order', ha, ho, hos, has, -, hcase⟩ :=
    h.runChallenge_rows hh hpc hc
  by_cases hid : id = id'
  · subst hid
    rw [hold] at ho
    cases ho
    rw [hpc] at hf
    have hst := Db.status_of_order hf.2.2.2 hold
    rw [hos, if_pos rfl]
    refine .inr ⟨order', rfl, ?_⟩
    rcases hcase with ⟨rfl, rfl⟩ | ⟨problem, -, rfl⟩
    · refine .validate hpc hst
        (Db.authzStatus_eq_some.mpr ⟨{ authz with status := .valid }, ?_, rfl⟩)
      show out.shared.db.authorizations.get z = _
      rw [has, if_pos rfl]
    · exact .refute hpc hst
  · rw [hos, if_neg hid]
    exact .inl hold

/-- What a commit of the issuing task does to an order. -/
theorem Turn.order_step_processFinalize (h : Turn o cfg c i t seg out) (hf : t.pc.Finds i c.shared)
    (hh : t.pc.Holds c.shared.db t.tx) {id' domain : String} {csrDer : List UInt8}
    {p : ProcessFinalizePc} (hpc : t.pc = .processFinalize id' domain csrDer p)
    (hc : seg.commit = true) {id : String} {r : Order}
    (hold : c.shared.db.orders.get id = some r) :
    out.shared.db.orders.get id = some r ∨
      ∃ r', out.shared.db.orders.get id = some r' ∧ OrderStep h.entry id (some r) r' := by
  obtain ⟨-, ⟨order, k, cert, -, ho, -⟩ | ⟨flush, order, order', -, ho, hos, -, hcase⟩⟩ :=
    h.processFinalize_rows hh hpc hc
  · rw [ho]
    exact .inl hold
  by_cases hid : id = id'
  · subst hid
    rw [hold] at ho
    cases ho
    rw [hpc] at hf
    have hst := Db.status_of_order hf.2 hold
    rw [hos, if_pos rfl]
    refine .inr ⟨order', rfl, ?_⟩
    rcases hcase with ⟨problem, rfl⟩ | ⟨k, hcert, rfl⟩
    · exact .refuse hpc hst
    · exact .record hpc hst hcert
  · rw [hos, if_neg hid]
    exact .inl hold

/-- **What a turn does to an order.** -/
theorem Turn.order_step (h : Turn o cfg c i t seg out) (hk : t.pc.Knows i c.shared t.tx)
    (hf : t.pc.Finds i c.shared) (hh : t.pc.Holds c.shared.db t.tx) (id : String) :
    out.shared.db.orders.get id = c.shared.db.orders.get id ∨
      ∃ r', out.shared.db.orders.get id = some r' ∧
        OrderStep h.entry id (c.shared.db.orders.get id) r' := by
  by_cases hc : seg.commit = true
  case neg =>
    rw [Bool.not_eq_true] at hc
    exact .inl (by rw [h.db_eq hc])
  cases hold : c.shared.db.orders.get id with
  | none =>
      cases hnew : out.shared.db.orders.get id with
      | none => exact .inl rfl
      | some r' => exact .inr ⟨r', rfl, (h.new_rows hk).1 hold hnew⟩
  | some r =>
      have hkept := fun hd => Or.inl (b := ∃ r', out.shared.db.orders.get id = some r' ∧
        OrderStep h.entry id (some r) r') (h.order_kept hold hd)
      cases hpc : t.pc with
      | challenge a z p =>
          obtain ⟨id', hz, hv, ho, -⟩ := h.acknowledge_rows hk hpc hc
          rw [ho, hold, Option.map_some]
          split
          · rename_i hp
            exact .inr ⟨_, rfl, .acknowledge hpc (hp.1 ▸ hz) hv hp.2⟩
          · exact .inl rfl
      | finalize a id' p =>
          rcases h.claims_finalize hk hpc with ⟨hidle, -⟩ | ⟨-, e, -⟩
          · exact .inl ((hidle.1 id).trans hold)
          · rw [claim_rows e, hold, Option.map_some]
            split
            · rename_i hp
              exact .inr ⟨_, rfl, .claim (hp.1 ▸ hpc) hp.2⟩
            · exact .inl rfl
      | runChallenge z id' p => exact h.order_step_runChallenge hf hh hpc hc hold
      | processFinalize id' domain csrDer p =>
          exact h.order_step_processFinalize hf hh hpc hc hold
      | reset p =>
          rcases (h.reset_rows hpc).1 id with e | ⟨r₀, hr₀, hst, e⟩
          · exact .inl (e.trans hold)
          · rw [hold] at hr₀
            cases hr₀
            exact .inr ⟨_, e, .interrupt hpc hst⟩
      | _ =>
          refine hkept fun d hmay hup => ?_
          rw [hpc] at hmay
          cases d <;> first | exact hup.elim | exact hmay.elim

/-- **What a turn does to an authorization.** -/
theorem Turn.authz_step (h : Turn o cfg c i t seg out) (hk : t.pc.Knows i c.shared t.tx)
    (hf : t.pc.Finds i c.shared) (hh : t.pc.Holds c.shared.db t.tx) (hI : Lifecycle c.shared)
    (hp : FirstDispatch c (c.after i out)) (z : String) :
    out.shared.db.authorizations.get z = c.shared.db.authorizations.get z ∨
      ∃ r', out.shared.db.authorizations.get z = some r' ∧
        AuthzStep h.entry z (c.shared.db.authorizations.get z) r' := by
  by_cases hc : seg.commit = true
  case neg =>
    rw [Bool.not_eq_true] at hc
    exact .inl (by rw [h.db_eq hc])
  cases hold : c.shared.db.authorizations.get z with
  | none =>
      cases hnew : out.shared.db.authorizations.get z with
      | none => exact .inl rfl
      | some r' => exact .inr ⟨r', rfl, (h.new_rows hk).2 hold hnew⟩
  | some r =>
      have hkept := fun hd => Or.inl (b := ∃ r', out.shared.db.authorizations.get z = some r' ∧
        AuthzStep h.entry z (some r) r') (h.authz_kept hold hd)
      cases hpc : t.pc with
      | challenge a z' p =>
          obtain ⟨id, hz, hv, -, has⟩ := h.acknowledge_rows hk hpc hc
          rw [has, hold, Option.map_some]
          split
          · rename_i e
            subst e
            -- the commit creates the first task, so the authorization is as it was placed
            have hst := (hI.fresh hz (hp h.entry h.log z hv)).1
            exact .inr ⟨_, rfl, .acknowledge hpc hv (Db.status_of_authz hst hold)⟩
          · exact .inl rfl
      | runChallenge z' id p =>
          obtain ⟨authz, order, authz', order', ha, ho, hos, has, -, hcase⟩ :=
            h.runChallenge_rows hh hpc hc
          by_cases hz : z = z'
          · subst hz
            rw [hold] at ha
            cases ha
            rw [hpc] at hf
            have hst := Db.status_of_authz hf.2.2.1 hold
            rw [has, if_pos rfl]
            refine .inr ⟨authz', rfl, ?_⟩
            rcases hcase with ⟨rfl, -⟩ | ⟨problem, rfl, -⟩
            · exact .validate hpc hst
            · exact .refute hpc hst
          · rw [has, if_neg hz]
            exact .inl hold
      | reset p =>
          rcases (h.reset_rows hpc).2 z with e | ⟨r₀, hr₀, hst, e⟩
          · exact .inl (e.trans hold)
          · rw [hold] at hr₀
            cases hr₀
            exact .inr ⟨_, e, .interrupt hpc hst⟩
      | _ =>
          refine hkept fun d hmay hup => ?_
          rw [hpc] at hmay
          cases d <;> first | exact hup.elim | exact hmay.elim

/-! ### What a task holds is kept -/

theorem OrderStep.status_ne {e : Entry} {id : String} {r r' : Order}
    (h : OrderStep e id (some r) r') : r'.status ≠ r.status := by
  cases h with
  | acknowledge _ _ _ old | claim _ old | validate _ old _ | refute _ old | record _ old _
  | refuse _ old | interrupt _ old =>
      rw [old]
      exact nofun

theorem AuthzStep.status_ne {e : Entry} {z : String} {r r' : Authorization}
    (h : AuthzStep e z (some r) r') : r'.status ≠ r.status := by
  cases h with
  | acknowledge _ _ old | validate _ old | refute _ old | interrupt _ old =>
      rw [old]
      exact nofun

theorem RunChallengePc.Holds.congr {z id : String} {db db' : Db} {tx : List Dml}
    {p : RunChallengePc} (h : p.Holds z id db tx)
    (hz : db'.authorizations.get z = db.authorizations.get z)
    (ho : db'.orders.get id = db.orders.get id) : p.Holds z id db' tx := by
  cases p with
  | getOrder _ | regetOrder _ _ | getAccount _ _ | statuses _ _ | commit _ =>
      simp only [RunChallengePc.Holds, hz, ho] at h ⊢
      exact h
  | getAuthz | validate _ _ _ | regetAuthz _ => trivial

theorem ProcessFinalizePc.Holds.congr {id : String} {db db' : Db} {p : ProcessFinalizePc}
    (h : p.Holds id db) (hg : db.Grows db') (ho : db'.orders.get id = db.orders.get id) :
    p.Holds id db' := by
  cases p with
  | store order k cert => exact ho.trans h
  | commit flush =>
      obtain ⟨order, hr, hcase⟩ := h
      refine ⟨order, ho.trans hr, hcase.imp_right ?_⟩
      rintro ⟨k, hk, e⟩
      exact ⟨k, hk.grows hg, e⟩
  | getOrder | issue | failGet _ | get _ _ => trivial

/-- The authorization flushed valid is the one the query sees, and there is no other. -/
theorem statuses_all_valid {db : Db} {z id : String} {authz : Authorization}
    (hl : db.Linked) (hz : db.authorizations.get z = some authz) (hid : authz.orderId = id) :
    ((((Dml.execAll (authz.flush z { authz with status := .valid }) db).getD
      db).authorizations.select fun _ a => decide (a.orderId = id)).all
        fun a => decide (a.2.status = .valid)) = true := by
  obtain ⟨db', e⟩ : ∃ db', Dml.execAll (authz.flush z { authz with status := .valid }) db =
      some db' := by
    unfold Authorization.flush
    dsimp only
    split <;> exact ⟨_, rfl⟩
  obtain ⟨ha, -⟩ := Authorization.exec_flush hz (by rfl) e
  rw [e, Option.getD_some, List.all_eq_true]
  rintro ⟨w, r⟩ hw
  obtain ⟨hr, ho⟩ := Table.mem_select.mp hw
  rw [decide_eq_true_eq] at ho ⊢
  rw [ha] at hr
  split at hr
  · cases hr
    rfl
  · rename_i hne
    exact absurd (hl.unique hr hz (ho.trans hid.symm)) hne

/-- **What `run_challenge` holds, step by step.** -/
theorem Turn.holds_runChallenge (h : Turn o cfg c i t seg out) (hl : c.shared.db.Linked)
    (hk : t.pc.Knows i c.shared t.tx) (hh : t.pc.Holds c.shared.db t.tx)
    (hu : out.self = some u) {z id : String} {p : RunChallengePc}
    (hpc : t.pc = .runChallenge z id p) : u.pc.Holds out.shared.db u.tx := by
  obtain ⟨ch, hseg⟩ := h.goes_on hu
  have hn := (h.self hu).1
  rw [hpc] at hseg hh hk
  have hseg := Option.some.inj hseg
  -- where it reads, the transaction is empty and stays so
  have hreads : t.pc.inTx = false →
      (seg.Reads fun p => p.Holds c.shared.db []) → u.pc.Holds out.shared.db u.tx := by
    intro hin hr
    obtain ⟨hq, hdb, htx⟩ := h.reads hr hu
    rw [hdb, htx, h.tx_nil hin]
    exact hq
  cases p with
  | getAuthz =>
      exact hreads (by rw [hpc]; rfl) (hseg ▸ .map _ (.goto fun a ha => ha))
  | getOrder authz =>
      refine hreads (by rw [hpc]; rfl) (hseg ▸ .map _ ?_)
      simp only [runChallengeSeg]
      split
      · rename_i a order ho _
        split
        · exact .goto ⟨a, order, hh a rfl, ho, .inl ⟨_, rfl, rfl⟩⟩
        · exact .goto ⟨hh a rfl, ho⟩
      · exact .inl Seg.stop_quiet
  | getAccount authz order =>
      refine hreads (by rw [hpc]; rfl) (hseg ▸ .map _ ?_)
      simp only [runChallengeSeg]
      split
      · exact .goto ⟨authz, order, hh.1, hh.2, .inl ⟨_, rfl, rfl⟩⟩
      · split
        · exact .fail _
        · exact .goto trivial
  | validate domain token expected =>
      exact hreads (by rw [hpc]; rfl) (hseg ▸ .map _ (.goto trivial))
  | regetAuthz problem =>
      exact hreads (by rw [hpc]; rfl) (hseg ▸ .map _ (.goto fun a ha => ha))
  | regetOrder problem authz =>
      refine hreads (by rw [hpc]; rfl) (hseg ▸ .map _ ?_)
      simp only [runChallengeSeg]
      split
      · rename_i a order ho _
        split
        · exact .goto ⟨hh a rfl, ho⟩
        · exact .goto ⟨a, order, hh a rfl, ho, .inl ⟨_, rfl, rfl⟩⟩
      · exact .inl Seg.stop_quiet
  | statuses authz order =>
      obtain ⟨hz, ho⟩ := hh
      obtain ⟨r, hr, hid⟩ := hk.1
      rw [hz] at hr
      cases hr
      subst hseg
      obtain ⟨htx, hdb, -⟩ := h.sends hu (by rw [hpc]; rfl) rfl
      rw [← Next.goto.inj hn, htx, hdb]
      refine ⟨authz, order, hz, ho, .inr ⟨rfl, ?_⟩⟩
      exact if_pos (statuses_all_valid hl hz hid)
  | commit flush =>
      subst hseg
      cases hn

/-- **What `process_finalize` holds, step by step.** -/
theorem Turn.holds_processFinalize (h : Turn o cfg c i t seg out)
    (hh : t.pc.Holds c.shared.db t.tx) (hu : out.self = some u) {id domain : String}
    {csrDer : List UInt8} {p : ProcessFinalizePc}
    (hpc : t.pc = .processFinalize id domain csrDer p) : u.pc.Holds out.shared.db u.tx := by
  obtain ⟨ch, hseg⟩ := h.goes_on hu
  have hn := (h.self hu).1
  have hpend := h.sane.pending
  have hh' := hh
  rw [hpc] at hseg hh' hpend
  obtain ⟨seg', h', rfl⟩ := Option.map_eq_some_iff.mp hseg
  cases p with
  | getOrder | issue =>
      simp only [processFinalizeSeg] at h'
      split at h' <;> cases Option.some.inj h' <;>
        first | (rw [← Next.goto.inj hn]; trivial) | cases hn
  | failGet problem =>
      simp only [processFinalizeSeg] at h'
      split at h' <;> cases Option.some.inj h'
      · cases hn
      · rename_i order ho
        rw [← Next.goto.inj hn, h.db_eq rfl]
        exact ⟨order, ho, .inl ⟨problem, rfl⟩⟩
  | get pemChain expiresAt =>
      simp only [processFinalizeSeg] at h'
      split at h'
      · cases Option.some.inj h'
        cases hn
      · rename_i order ho
        split at h'
        · cases Option.some.inj h'
          rw [← Next.goto.inj hn, h.db_eq rfl]
          exact ho
        · cases h'
  | store order k cert =>
      cases Option.some.inj h'
      obtain ⟨-, ⟨_, _, _, e, ho, hc⟩ | ⟨_, _, _, e, -⟩⟩ := h.processFinalize_rows hh hpc rfl
      · cases e
        rw [← Next.goto.inj hn]
        refine ⟨order, by rw [ho]; exact hh', .inr ⟨k, ⟨cert, ?_, ?_⟩, rfl⟩⟩
        · rw [hc, if_pos rfl]
        · exact hpend _ List.mem_cons_self
      · cases e
  | commit flush =>
      cases Option.some.inj h'
      cases hn

theorem Pc.isStart_holds {p : Pc} (h : p.isStart = true) {db : Db} {tx : List Dml} :
    p.Holds db tx := by
  unfold Pc.isStart at h
  split at h <;> trivial

theorem Turn.holds (h : Turn o cfg c i t seg out) (hl : c.shared.db.Linked)
    (hk : t.pc.Knows i c.shared t.tx) (hh : t.pc.Holds c.shared.db t.tx)
    (hu : out.self = some u) : u.pc.Holds out.shared.db u.tx := by
  rcases h.stays_or_starts hu with e | hs | ⟨a, p, e⟩
  · cases hq : u.pc with
    | runChallenge z id q =>
        rw [hq] at e
        obtain ⟨p, hpc⟩ := Pc.eq_runChallenge e.symm
        exact hq ▸ h.holds_runChallenge hl hk hh hu hpc
    | processFinalize id domain csrDer q =>
        rw [hq] at e
        obtain ⟨p, hpc⟩ := Pc.eq_processFinalize e.symm
        exact hq ▸ h.holds_processFinalize hh hu hpc
    | _ => trivial
  · exact Pc.isStart_holds hs
  · rw [e]
    trivial

/-- An order that stays processing stays as it is. -/
theorem Turn.order_still (h : Turn o cfg c i t seg out) (hk : t.pc.Knows i c.shared t.tx)
    (hf : t.pc.Finds i c.shared) (hh : t.pc.Holds c.shared.db t.tx) {id : String}
    {st : OrderStatus} (hst : c.shared.db.orderStatus id = some st)
    (hst' : out.shared.db.orderStatus id = some st) :
    out.shared.db.orders.get id = c.shared.db.orders.get id := by
  rcases h.order_step hk hf hh id with e | ⟨r', e, hstep⟩
  · exact e
  · obtain ⟨r, hr, hs⟩ := Db.orderStatus_eq_some.mp hst
    rw [hr] at hstep
    rw [Db.orderStatus, e] at hst'
    exact absurd ((Option.some.inj hst').trans hs.symm) hstep.status_ne

theorem Turn.authz_still (h : Turn o cfg c i t seg out) (hk : t.pc.Knows i c.shared t.tx)
    (hf : t.pc.Finds i c.shared) (hh : t.pc.Holds c.shared.db t.tx) (hI : Lifecycle c.shared)
    (hp : FirstDispatch c (c.after i out)) {z : String} {st : AuthzStatus}
    (hst : c.shared.db.authzStatus z = some st) (hst' : out.shared.db.authzStatus z = some st) :
    out.shared.db.authorizations.get z = c.shared.db.authorizations.get z := by
  rcases h.authz_step hk hf hh hI hp z with e | ⟨r', e, hstep⟩
  · exact e
  · obtain ⟨r, hr, hs⟩ := Db.authzStatus_eq_some.mp hst
    rw [hr] at hstep
    rw [Db.authzStatus, e] at hst'
    exact absurd ((Option.some.inj hst').trans hs.symm) hstep.status_ne

/-- **The turns of the others leave the rows a background task holds**: they are processing, and
stay so. -/
theorem Turn.holds_other (hr : Reach (relay o cfg) FirstDispatch .init c)
    (h : Turn o cfg c i t seg out) (hp : FirstDispatch c (c.after i out))
    (hh : t.pc.Holds c.shared.db t.tx) {j : Nat} (hj : c.tasks j = some u) (hne : j ≠ i)
    (hu : u.pc.Holds c.shared.db u.tx) : u.pc.Holds out.shared.db u.tx := by
  have hk := Jackdaw.knows hr h.task
  have hI := Jackdaw.lifecycle hr
  have hf := Jackdaw.finds hr h.task
  have hbefore := Jackdaw.finds hr hj
  have hafter := h.finds_other hr hf hI hp hj hne hbefore
  cases hpc : u.pc with
  | runChallenge z id p =>
      rw [hpc] at hu hbefore hafter
      exact RunChallengePc.Holds.congr hu
        (h.authz_still hk hf hh hI hp hbefore.2.2.1 hafter.2.2.1)
        (h.order_still hk hf hh hbefore.2.2.2 hafter.2.2.2)
  | processFinalize id domain csrDer p =>
      rw [hpc] at hu hbefore hafter
      exact ProcessFinalizePc.Holds.congr hu h.grows
        (h.order_still hk hf hh hbefore.2 hafter.2)
  | _ => trivial

def lifeSafety (o : Oracle) (cfg : Settings) : Safety o cfg FirstDispatch where
  Inv _ _ := True
  Ok _ s t := t.pc.Holds s.db t.tx
  start := trivial
  run hr h _ _ hh := by
    refine ⟨trivial, fun u hu => h.holds (linked hr) (knows hr h.task) hh hu, fun b _ => ?_⟩
    cases b <;> trivial
  others hr h hp _ hh hj hne hu := h.holds_other hr hp hh hj hne hu
  request {c t} _ _ _ hpc := by
    rcases hpc with ⟨req, e⟩ | ⟨p, e⟩ | ⟨cutoff, e⟩ <;> rw [e] <;> trivial
  fresh hI := hI
  clock _ hI := ⟨hI, fun _ _ h => h⟩
  restart hI := ⟨hI, trivial⟩

/-- **A background task holds what is there**, in every run in which no second validating task is
created for an authorization. -/
theorem holds (hr : Reach (relay o cfg) FirstDispatch .init c) (ht : c.tasks i = some t) :
    t.pc.Holds c.shared.db t.tx :=
  ((lifeSafety o cfg).reach hr).2 i t ht

/-- **The life of an order**, step by step. -/
theorem Turn.order_life (h : Turn o cfg c i t seg out)
    (hr : Reach (relay o cfg) FirstDispatch .init c) (id : String) :
    out.shared.db.orders.get id = c.shared.db.orders.get id ∨
      ∃ r', out.shared.db.orders.get id = some r' ∧
        OrderStep h.entry id (c.shared.db.orders.get id) r' :=
  h.order_step (Jackdaw.knows hr h.task) (Jackdaw.finds hr h.task) (Jackdaw.holds hr h.task) id

/-- **The life of an authorization**, step by step. -/
theorem Turn.authz_life (h : Turn o cfg c i t seg out)
    (hr : Reach (relay o cfg) FirstDispatch .init c) (hp : FirstDispatch c (c.after i out))
    (z : String) : out.shared.db.authorizations.get z = c.shared.db.authorizations.get z ∨
      ∃ r', out.shared.db.authorizations.get z = some r' ∧
        AuthzStep h.entry z (c.shared.db.authorizations.get z) r' :=
  h.authz_step (Jackdaw.knows hr h.task) (Jackdaw.finds hr h.task) (Jackdaw.holds hr h.task)
    (Jackdaw.lifecycle hr) hp z

end

end Jackdaw
