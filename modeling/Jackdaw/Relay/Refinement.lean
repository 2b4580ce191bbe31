import Jackdaw.Relay.Attended
import Jackdaw.Relay.Frame
import Jackdaw.Relay.Links
import Jackdaw.Relay.OrderBook

/-!
# Relay — the relay keeps an order book

An order is a row of one table and a row of another, written by requests and background tasks in
several transactions each.  All of them together do no more to it than the order book does: the two
rows always are those of an order at one stage, and every segment that writes to them does one act
of the book.

* `Booking.Shown`, `Db.Shows`: the rows of an order at a stage, and the tables of a book.
* `Entry.Does`: which segments do which act, for which account, and what they do to the rows.
* `relay_refines_order_book`: every run in which no second validating task is created for an
  authorization simulates a run of the book.
* `order_history`: the segments that changed the row of an order, and what each of them did, follow
  from where it is.
-/

namespace Jackdaw

open Support Support.Interleave

/-! ### Rows that show a booking -/

section Stage

variable {κ π : Type}

/-- The status of an order at the stage. -/
def Stage.orderStatus : Stage κ π → OrderStatus
  | .pending => .pending
  | .validating | .issuing => .processing
  | .ready => .ready
  | .valid _ => .valid
  | .refused _ | .failed _ | .abandoned _ => .invalid

/-- The status of its authorization. -/
def Stage.authzStatus : Stage κ π → AuthzStatus
  | .pending => .pending
  | .validating => .processing
  | .ready | .issuing | .valid _ | .failed _ => .valid
  | .refused _ | .abandoned _ => .invalid

def Stage.orderError : Stage κ π → Option π
  | .failed why | .abandoned why => some why
  | _ => none

def Stage.authzError : Stage κ π → Option π
  | .refused why => some why
  | _ => none

end Stage

/-- The book of the relay; certificates are their PEM chains. -/
abbrev Book := OrderBook String String String String Problem

/-- What is done to it. -/
abbrev Deed := Act String String String String Problem

def relayBook : Spec Book Deed :=
  orderBook String String String String Problem interruptedOrderError

/-- An order with this `cert_id` has the certificate of its stage. -/
def Stage.Certificate (db : Db) (id : String) (certId : Option String) :
    Stage String Problem → Prop
  | .valid chain => ∃ k cert, certId = some k ∧ db.certificates.get k = some cert ∧
      cert.orderId = id ∧ cert.pemChain = chain
  | _ => certId = none

/-- The rows are those of order `id` as the book has it. -/
structure Booking.Shown (k : Booking String String String Problem) (db : Db) (id : String)
    (r : Order) (authz : Authorization) : Prop where
  parent : authz.orderId = id
  owner : r.accountId = k.owner
  identifiers : r.identifiers = [⟨"dns", k.name⟩]
  name : authz.identifier = k.name
  status : r.status = k.stage.orderStatus
  error : r.error = k.stage.orderError
  authzStatus : authz.status = k.stage.authzStatus
  authzError : authz.error = k.stage.authzError
  certificate : k.stage.Certificate db id r.certId

/-- The tables have order `id` as the book has it. -/
def Db.ShowsAt (db : Db) (id : String) : Option (Booking String String String Problem) → Prop
  | none => db.orders.get id = none
  | some k => ∃ r z authz, db.orders.get id = some r ∧ db.authorizations.get z = some authz ∧
      k.Shown db id r authz

/-- **The tables show the book.** -/
def Db.Shows (db : Db) (b : Book) : Prop := ∀ id, db.ShowsAt id (b id)

section Db

variable {db db' : Db} {id z : String} {b : Book} {k : Booking String String String Problem}
  {r : Order} {authz : Authorization}

theorem Booking.Shown.grows (h : k.Shown db id r authz) (hg : db.Grows db') :
    k.Shown db' id r authz := by
  refine { h with certificate := ?_ }
  have hc := h.certificate
  cases hst : k.stage with
  | valid chain =>
      rw [hst] at hc
      obtain ⟨c, cert, hid, hcert, ho, hchain⟩ := hc
      exact ⟨c, cert, hid, hg.certificates hcert, ho, hchain⟩
  | _ =>
      rw [hst] at hc
      exact hc

/-- The order is the account's that owns its row. -/
theorem Booking.Shown.owned {a : String} (h : k.Shown db id r authz)
    (hr : db.orders.get id = some r) (ho : db.OwnedBy id a) : k.owner = a := by
  obtain ⟨r', hr', hown⟩ := ho
  rw [hr] at hr'
  cases hr'
  exact h.owner.symm.trans hown

/-- An order whose two rows stay. -/
theorem Db.ShowsAt.keep {k : Option (Booking String String String Problem)} (h : db.ShowsAt id k)
    (hg : db.Grows db') (ho : db'.orders.get id = db.orders.get id)
    (ha : ∀ z, db.AuthzOf z id → db'.authorizations.get z = db.authorizations.get z) :
    db'.ShowsAt id k := by
  cases k with
  | none => exact ho.trans h
  | some k =>
      obtain ⟨r, z, authz, hr, hz, hs⟩ := h
      exact ⟨r, z, authz, ho.trans hr, (ha z ⟨authz, hz, hs.parent⟩).trans hz, hs.grows hg⟩

/-- What the book has for two rows. -/
theorem Db.Shows.booked (h : db.Shows b) (hl : db.Linked) (hr : db.orders.get id = some r)
    (hz : db.authorizations.get z = some authz) (ho : authz.orderId = id) :
    ∃ k, b id = some k ∧ k.Shown db id r authz := by
  have hat := h id
  cases hb : b id with
  | none =>
      rw [hb] at hat
      rw [show db.orders.get id = none from hat] at hr
      cases hr
  | some k =>
      rw [hb] at hat
      obtain ⟨r', z', authz', hr', hz', hs⟩ := hat
      rw [hr] at hr'
      cases hr'
      obtain rfl := hl.unique hz hz' (ho.trans hs.parent.symm)
      rw [hz] at hz'
      cases hz'
      exact ⟨k, rfl, hs⟩

/-- An order that moves, and nothing else does. -/
theorem Db.Shows.update (h : db.Shows b) (hg : db.Grows db')
    (ho : ∀ j, j ≠ id → db'.orders.get j = db.orders.get j)
    (ha : ∀ j z, j ≠ id → db.AuthzOf z j → db'.authorizations.get z = db.authorizations.get z)
    (hid : db'.ShowsAt id (some k)) : db'.Shows (Function.update b id (some k)) := by
  intro j
  by_cases e : j = id
  · subst e
    rw [Function.update_self]
    exact hid
  · rw [Function.update_of_ne e]
    exact (h j).keep hg (ho j e) fun z hz => ha j z e hz

end Db

/-! ### Who does what -/

/-- The entry goes on to answer with the order it has loaded. -/
def Entry.LoadsOrder (e : Entry) (a id : String) (order : Order) : Prop :=
  e.pc = .getOrder a id .get ∧ e.seg.next = .goto (.getOrder a id (.authzs order))

/-- The entry moves order `id` from `k` to `k'`, and leaves every other one alone. -/
structure Entry.Moves (e : Entry) (id : String)
    (k k' : Option (Booking String String String Problem)) : Prop where
  before : e.pre.ShowsAt id k
  after : e.post.ShowsAt id k'
  orders : ∀ j, j ≠ id → e.post.orders.get j = e.pre.orders.get j
  authzs : ∀ j z, j ≠ id → e.pre.AuthzOf z j →
    e.post.authorizations.get z = e.pre.authorizations.get z

/-- What the entry does to the book. -/
inductive Entry.Does (e : Entry) : Option Deed → Prop where
  | quiet (ho : ∀ id, e.post.orders.get id = e.pre.orders.get id)
      (ha : ∀ z, e.post.authorizations.get z = e.pre.authorizations.get z)
      (hl : ∀ a id order, ¬ e.LoadsOrder a id order) : e.Does none
  | place {a id name p} (hpc : e.pc = .newOrder a p)
      (hm : e.Moves id none (some ⟨a, name, .pending⟩)) : e.Does (some (.place a id name))
  | acknowledge {a z id name p} (hpc : e.pc = .challenge a z p) (hz : e.pre.AuthzOf z id)
      (hv : e.validates z = true)
      (hm : e.Moves id (some ⟨a, name, .pending⟩) (some ⟨a, name, .validating⟩)) :
      e.Does (some (.acknowledge a id))
  | validate {z id owner name p outcome} (hpc : e.pc = .runChallenge z id p)
      (hz : e.pre.AuthzOf z id)
      (hm : e.Moves id (some ⟨owner, name, .validating⟩)
        (some ⟨owner, name, outcome.elim .ready .refused⟩)) :
      e.Does (some (.validate id outcome))
  | claim {a id name p} (hpc : e.pc = .finalize a id p) (hi : e.issues id = true)
      (hm : e.Moves id (some ⟨a, name, .ready⟩) (some ⟨a, name, .issuing⟩)) :
      e.Does (some (.claim a id))
  | issue {id domain csrDer owner name p stage outcome}
      (hpc : e.pc = .processFinalize id domain csrDer p)
      (hs : Stage.issue outcome .issuing = some stage)
      (hm : e.Moves id (some ⟨owner, name, .issuing⟩) (some ⟨owner, name, stage⟩)) :
      e.Does (some (.issue id outcome))
  | restart {p} (hpc : e.pc = .reset p) (hdb : e.post = e.pre.reset) : e.Does (some .restart)
  | look {a id order stage} (hl : e.LoadsOrder a id order)
      (hrow : e.pre.orders.get id = some order) (hst : order.status = stage.orderStatus)
      (herr : order.error = stage.orderError) (hdb : e.post = e.pre) :
      e.Does (some (.look a id stage))

section Turn

variable {o : Oracle} {cfg : Settings} {c : Relay} {i : Nat} {t : Task} {seg : Seg Pc}
  {out : Outcome Shared Task} {b : Book}

/-- The turn does an act of the book, or nothing. -/
def Turn.Books (h : Turn o cfg c i t seg out) (b : Book) : Prop :=
  h.entry.Does none ∧ out.shared.db.Shows b ∨
    ∃ w b', h.entry.Does (some w) ∧ relayBook.act b w = some b' ∧ out.shared.db.Shows b'

theorem Turn.books_quiet (h : Turn o cfg c i t seg out) (hb : c.shared.db.Shows b)
    (ho : ∀ id, out.shared.db.orders.get id = c.shared.db.orders.get id)
    (ha : ∀ z, out.shared.db.authorizations.get z = c.shared.db.authorizations.get z)
    (hl : ∀ a id order, ¬ h.entry.LoadsOrder a id order) : h.Books b :=
  .inl ⟨.quiet ho ha hl, fun id => (hb id).keep h.grows (ho id) fun z _ => ha z⟩

/-- A turn that moves one order on. -/
theorem Turn.books_move (h : Turn o cfg c i t seg out) (hb : c.shared.db.Shows b) {id z : String}
    {k : Booking String String String Problem} {stage : Stage String Problem} {w : Deed}
    {f : Booking String String String Problem → Option (Stage String Problem)} {r : Order}
    {q : Authorization}
    (hd : h.entry.Moves id (some k) (some { k with stage }) → h.entry.Does (some w))
    (hw : relayBook.act b w = b.move id f) (hk : b id = some k) (hf : f k = some stage)
    (ho : ∀ j, j ≠ id → out.shared.db.orders.get j = c.shared.db.orders.get j)
    (ha : ∀ j z, j ≠ id → c.shared.db.AuthzOf z j →
      out.shared.db.authorizations.get z = c.shared.db.authorizations.get z)
    (hr : out.shared.db.orders.get id = some r)
    (hz : out.shared.db.authorizations.get z = some q)
    (hs : Booking.Shown { k with stage } out.shared.db id r q) : h.Books b := by
  have hafter : out.shared.db.ShowsAt id (some { k with stage }) := ⟨r, z, q, hr, hz, hs⟩
  have hbefore : c.shared.db.ShowsAt id (some k) := hk ▸ hb id
  exact .inr ⟨w, _, hd ⟨hbefore, hafter, ho, ha⟩,
    hw.trans (OrderBook.move_eq_some.mpr ⟨k, stage, hk, hf, rfl⟩), hb.update h.grows ho ha hafter⟩

/-- The commit of `new_order`. -/
theorem Turn.books_newOrder (h : Turn o cfg c i t seg out) (hb : c.shared.db.Shows b)
    (hr : Reach (relay o cfg) FirstDispatch .init c) (hp : FirstDispatch c (c.after i out))
    {a : String} {p : NewOrderPc} (hpc : t.pc = .newOrder a p) : h.Books b := by
  rcases h.places (Jackdaw.knows hr h.task) with
    ⟨id, row, z, v, r, hids, ho, hv, hrow, hst, -, e⟩ | ⟨hauthz, horder⟩
  · obtain ⟨db₁, h₁, e⟩ := Option.bind_eq_some_iff.mp e
    obtain ⟨db₂, h₂, e⟩ := Option.bind_eq_some_iff.mp e
    obtain ⟨tab, ht, rfl⟩ := Option.map_eq_some_iff.mp h₁
    obtain ⟨tab', ht', rfl⟩ := Option.map_eq_some_iff.mp h₂
    have hdb := Option.some.inj e
    have horders : ∀ j, out.shared.db.orders.get j =
        if j = id then some row else c.shared.db.orders.get j := by
      intro j
      rw [← hdb]
      exact Table.get_insert? ht j
    have hauthzs : ∀ w, out.shared.db.authorizations.get w =
        if w = z then some r else c.shared.db.authorizations.get w := by
      intro w
      rw [← hdb]
      exact Table.get_insert? ht' w
    have hfree : c.shared.db.orders.get id = none := Table.get_of_insert? ht
    have hzfree : c.shared.db.authorizations.get z = none := Table.get_of_insert? ht'
    -- an identifier that is free in the table is free in the book
    have hnone : b id = none := by
      cases hbid : b id with
      | none => rfl
      | some k =>
          have hat := hb id
          rw [hbid] at hat
          obtain ⟨r', -, -, hr', -⟩ := hat
          rw [hfree] at hr'
          cases hr'
    -- the account of the row is the one the request is handled for
    have howner : row.accountId = a := by
      have hnew : out.shared.db.orders.get id = some row := (horders id).trans (if_pos rfl)
      rcases h.order_from hnew with ⟨r', hr', -⟩ | ⟨-, q, hq⟩
      · rw [hfree] at hr'
        cases hr'
      · rw [hpc] at hq
        cases hq
        rfl
    have hbefore : c.shared.db.ShowsAt id none := hfree
    have hafter : out.shared.db.ShowsAt id (some ⟨a, v, .pending⟩) :=
      ⟨row, z, r, (horders id).trans (if_pos rfl), (hauthzs z).trans (if_pos rfl),
        ⟨ho, howner, hids, hv, hrow.1, hrow.2.2, hst.1, hst.2, hrow.2.1⟩⟩
    have hothers : ∀ j, j ≠ id → out.shared.db.orders.get j = c.shared.db.orders.get j :=
      fun j hj => (horders j).trans (if_neg hj)
    have hparents : ∀ j w, j ≠ id → c.shared.db.AuthzOf w j →
        out.shared.db.authorizations.get w = c.shared.db.authorizations.get w := by
      rintro j w - ⟨r', hr', -⟩
      refine (hauthzs w).trans (if_neg ?_)
      rintro rfl
      rw [hzfree] at hr'
      cases hr'
    exact .inr ⟨.place a id v, _, .place hpc ⟨hbefore, hafter, hothers, hparents⟩,
      if_pos (by rw [hnone]; rfl), hb.update h.grows hothers hparents hafter⟩
  · refine h.books_quiet hb (fun id => ?_) (fun z => ?_) (fun a' id order hl => ?_)
    · rcases h.order_life hr id with e | ⟨r', hr', hs⟩
      · exact e
      · obtain ⟨r, hold, -⟩ := horder hr'
        rw [hold] at hs
        cases hs with
        | acknowledge hpc' _ _ _ | claim hpc' _ | validate hpc' _ _ | refute hpc' _
        | record hpc' _ _ | refuse hpc' _ | interrupt hpc' _ => cases hpc.symm.trans hpc'
    · rcases h.authz_life hr hp z with e | ⟨r', hr', hs⟩
      · exact e
      · obtain ⟨r, hold, -⟩ := hauthz hr'
        rw [hold] at hs
        cases hs with
        | acknowledge hpc' _ _ | validate hpc' _ | refute hpc' _ | interrupt hpc' _ =>
            cases hpc.symm.trans hpc'
    · cases hpc.symm.trans hl.1

/-- An acknowledgement that commits is the owner's. -/
theorem Turn.challenge_owned (h : Turn o cfg c i t seg out) {a z id : String} {p : ChallengePc}
    (hpc : t.pc = .challenge a z p) (hc : seg.commit = true) (ho : t.pc.Owns c.shared.db)
    (hz : c.shared.db.AuthzOf z id) : c.shared.db.OwnedBy id a := by
  obtain ⟨ch, hseg⟩ := h.commits hc
  rw [hpc] at hseg ho
  have hseg := Option.some.inj hseg
  subst hseg
  obtain ⟨authz, flush, rfl⟩ := challengeSeg_commit hc
  rw [hz.unique ho.1.authzOf]
  exact ho.2

/-- The commit of `acknowledge_challenge`. -/
theorem Turn.books_challenge (h : Turn o cfg c i t seg out) (hb : c.shared.db.Shows b)
    (hr : Reach (relay o cfg) FirstDispatch .init c) (hp : FirstDispatch c (c.after i out))
    {a z : String} {p : ChallengePc} (hpc : t.pc = .challenge a z p) (hc : seg.commit = true) :
    h.Books b := by
  obtain ⟨id, hz, hv, hos, has⟩ := h.acknowledge_rows (Jackdaw.knows hr h.task) hpc hc
  -- it creates the first task, so the rows are as they were placed
  obtain ⟨hauthz, horder⟩ := (Jackdaw.lifecycle hr).fresh hz (hp h.entry h.log z hv)
  obtain ⟨r, hrow, hst⟩ := Db.orderStatus_eq_some.mp horder
  obtain ⟨authz, hzrow, -⟩ := Db.authzStatus_eq_some.mp hauthz
  have hparent : authz.orderId = id := Db.AuthzOf.unique ⟨authz, hzrow, rfl⟩ hz
  obtain ⟨⟨owner, name, stage⟩, hk, hs⟩ := hb.booked (Jackdaw.linked hr) hrow hzrow hparent
  have hstage : stage = .pending := by
    have := hst.symm.trans hs.status
    cases stage <;> first | rfl | cases this
  have howner : owner = a :=
    hs.owned hrow (h.challenge_owned hpc hc (entitled hr h.task).owns hz)
  subst hstage howner
  refine h.books_move hb (z := z) (.acknowledge hpc hz hv) rfl hk (if_pos rfl) (fun j hj => ?_)
    (fun j w hj hw => ?_) (r := { r with status := .processing })
    (q := { authz with status := .processing }) ?_ ?_
    ⟨hs.parent, hs.owner, hs.identifiers, hs.name, rfl, hs.error, rfl, hs.authzError,
      hs.certificate⟩
  · rw [hos]
    cases c.shared.db.orders.get j with
    | none => rfl
    | some r' => rw [Option.map_some, if_neg fun e => hj e.1]
  · have hne : w ≠ z := by
      rintro rfl
      exact hj (hw.unique hz)
    obtain ⟨authz', hw', -⟩ := hw
    rw [has, hw', Option.map_some, if_neg hne]
  · rw [hos, hrow, Option.map_some, if_pos ⟨rfl, hst⟩]
  · rw [has, hzrow, Option.map_some, if_pos rfl]

/-- The claim of `finalize_order`. -/
theorem Turn.books_finalize (h : Turn o cfg c i t seg out) (hb : c.shared.db.Shows b)
    (hr : Reach (relay o cfg) FirstDispatch .init c) (hp : FirstDispatch c (c.after i out))
    {a id : String} {p : FinalizePc} (hpc : t.pc = .finalize a id p) (hc : seg.commit = true) :
    h.Books b := by
  have hauthz : ∀ z, out.shared.db.authorizations.get z = c.shared.db.authorizations.get z := by
    intro z
    rcases h.authz_life hr hp z with e | ⟨r', -, hs⟩
    · exact e
    · generalize c.shared.db.authorizations.get z = old at hs
      cases hs with
      | place hpc' _ | acknowledge hpc' _ _ | validate hpc' _ | refute hpc' _
      | interrupt hpc' _ => cases hpc.symm.trans hpc'
  rcases h.claims_finalize (Jackdaw.knows hr h.task) hpc with ⟨hidle, -⟩ | ⟨hclaims, e, hiss, -⟩
  · exact h.books_quiet hb hidle.1 hauthz fun _ _ _ hl => by cases hpc.symm.trans hl.1
  · obtain ⟨r, hrow, hst⟩ := Db.orderStatus_eq_some.mp hclaims.1
    obtain ⟨z, authz, hz, hparent⟩ := (in_step hr).has hrow
    obtain ⟨⟨owner, name, stage⟩, hk, hs⟩ := hb.booked (Jackdaw.linked hr) hrow hz hparent
    have hstage : stage = .ready := by
      have := hst.symm.trans hs.status
      cases stage <;> first | rfl | cases this
    have howner : owner = a := hs.owned hrow (h.finalize_owned hpc hc (entitled hr h.task).owns)
    subst hstage howner
    refine h.books_move hb (z := z) (.claim hpc hiss) rfl hk (if_pos rfl) (fun j hj => ?_)
      (fun j w _ _ => hauthz w) (r := { r with status := .processing }) ?_
      ((hauthz z).trans hz) ⟨hs.parent, hs.owner, hs.identifiers, hs.name, rfl, hs.error,
        hs.authzStatus, hs.authzError, hs.certificate⟩
    · rw [claim_rows e]
      cases c.shared.db.orders.get j with
      | none => rfl
      | some r' => rw [Option.map_some, if_neg fun e => hj e.1]
    · rw [claim_rows e, hrow, Option.map_some, if_pos ⟨rfl, hst⟩]

/-- The commit of `run_challenge`. -/
theorem Turn.books_runChallenge (h : Turn o cfg c i t seg out) (hb : c.shared.db.Shows b)
    (hr : Reach (relay o cfg) FirstDispatch .init c) {z id : String} {p : RunChallengePc}
    (hpc : t.pc = .runChallenge z id p) (hc : seg.commit = true) : h.Books b := by
  obtain ⟨authz, order, authz', order', hz, ho, hos, has, -, hcase⟩ :=
    h.runChallenge_rows (Jackdaw.holds hr h.task) hpc hc
  have hk := Jackdaw.knows hr h.task
  have hf := Jackdaw.finds hr h.task
  rw [hpc] at hk hf
  have hof : c.shared.db.AuthzOf z id := hk.1
  have hparent : authz.orderId = id := Db.AuthzOf.unique ⟨authz, hz, rfl⟩ hof
  obtain ⟨⟨owner, name, stage⟩, hbk, hs⟩ := hb.booked (Jackdaw.linked hr) ho hz hparent
  -- no other stage has both statuses
  have hstage : stage = .validating := by
    have h₁ := (Db.status_of_order hf.2.2.2 ho).symm.trans hs.status
    have h₂ := (Db.status_of_authz hf.2.2.1 hz).symm.trans hs.authzStatus
    cases stage <;> first | rfl | (cases h₁; done) | cases h₂
  subst hstage
  have horders : ∀ j, j ≠ id → out.shared.db.orders.get j = c.shared.db.orders.get j :=
    fun j hj => (hos j).trans (if_neg hj)
  have hauthzs : ∀ j w, j ≠ id → c.shared.db.AuthzOf w j →
      out.shared.db.authorizations.get w = c.shared.db.authorizations.get w := by
    intro j w hj hw
    refine (has w).trans (if_neg ?_)
    rintro rfl
    exact hj (hw.unique hof)
  have horder : out.shared.db.orders.get id = some order' := (hos id).trans (if_pos rfl)
  have hauthz : out.shared.db.authorizations.get z = some authz' := (has z).trans (if_pos rfl)
  rcases hcase with ⟨rfl, rfl⟩ | ⟨problem, rfl, rfl⟩
  · exact h.books_move hb (w := .validate id none) (.validate hpc hof) rfl hbk rfl horders hauthzs
      horder hauthz ⟨hs.parent, hs.owner, hs.identifiers, hs.name, rfl, hs.error, rfl,
        hs.authzError, hs.certificate⟩
  · exact h.books_move hb (w := .validate id (some problem)) (.validate hpc hof) rfl hbk rfl horders
      hauthzs horder hauthz ⟨hs.parent, hs.owner, hs.identifiers, hs.name, rfl, hs.error, rfl, rfl,
        hs.certificate⟩

/-- **Where the issuing task is under way, the name is validated.** -/
theorem issuing_validated (hr : Reach (relay o cfg) FirstDispatch .init c)
    (ht : c.tasks i = some t) {id domain z : String} {csrDer : List UInt8} {p : ProcessFinalizePc}
    (hpc : t.pc = .processFinalize id domain csrDer p) (hz : c.shared.db.AuthzOf z id) :
    c.shared.db.authzStatus z = some .valid := by
  have hf := Jackdaw.finds hr ht
  rw [hpc] at hf
  obtain ⟨⟨e, he, hiss, -⟩, -⟩ := hf
  obtain ⟨l₂, l₁, hl⟩ := List.append_of_mem he
  obtain ⟨c₀, j, u, seg, out, hturn, hr₀, -, rfl⟩ := entry_turn hr hl
  -- the request that created the task found the order ready
  obtain ⟨domain', csrDer', hs⟩ := Entry.issues_iff.mp hiss
  obtain ⟨a, order, rowcount, hclaim, hready, -⟩ := hturn.issues (Jackdaw.knows hr₀ hturn.task) hs
  obtain ⟨r, hrow, hst⟩ := Db.orderStatus_eq_some.mp hready
  obtain ⟨⟨w, hw⟩, hvalid⟩ := ((readySafety o cfg).reach hr₀).1 hrow hst
  have hwz : w = z := by
    obtain ⟨authz', hw', ho'⟩ := hw.grows (entry_grows hr he).1
    obtain ⟨authz, hz', ho⟩ := hz
    exact (Jackdaw.linked hr).unique hw' hz' (ho'.trans ho.symm)
  subst hwz
  have hpost : out.shared.db.authzStatus w = some .valid := by
    rcases hturn.authzStatus w with e | ⟨-, st, hturns, -⟩
    · exact e.trans (hvalid w hw)
    · rw [hclaim] at hturns
      exact hturns.elim
  exact (((terminalSafety o cfg).reach hr).1.2 hturn.entry he).2 w .valid rfl hpost

/-- The commits of `process_finalize`. -/
theorem Turn.books_processFinalize (h : Turn o cfg c i t seg out) (hb : c.shared.db.Shows b)
    (hr : Reach (relay o cfg) FirstDispatch .init c) {id domain : String} {csrDer : List UInt8}
    {p : ProcessFinalizePc} (hpc : t.pc = .processFinalize id domain csrDer p)
    (hc : seg.commit = true) : h.Books b := by
  obtain ⟨hauthzs, ⟨order, k, cert, -, hos, -⟩ | ⟨flush, order, order', -, ho, hos, -, hcase⟩⟩ :=
    h.processFinalize_rows (Jackdaw.holds hr h.task) hpc hc
  · -- the certificate is stored first, in a transaction of its own
    exact h.books_quiet hb (fun _ => by rw [hos]) (fun _ => by rw [hauthzs])
      fun _ _ _ hl => by cases hpc.symm.trans hl.1
  obtain ⟨z, hof⟩ := (in_step hr).has ho
  have hvalid := issuing_validated hr h.task hpc hof
  obtain ⟨authz, hz, hparent⟩ := hof
  have hf := Jackdaw.finds hr h.task
  rw [hpc] at hf
  obtain ⟨⟨owner, name, stage⟩, hbk, hs⟩ := hb.booked (Jackdaw.linked hr) ho hz hparent
  have hstage : stage = .issuing := by
    have h₁ := (Db.status_of_order hf.2 ho).symm.trans hs.status
    have h₂ := (Db.status_of_authz hvalid hz).symm.trans hs.authzStatus
    cases stage <;> first | rfl | (cases h₁; done) | cases h₂
  subst hstage
  have horders : ∀ j, j ≠ id → out.shared.db.orders.get j = c.shared.db.orders.get j :=
    fun j hj => (hos j).trans (if_neg hj)
  have horder : out.shared.db.orders.get id = some order' := (hos id).trans (if_pos rfl)
  have hauthz : out.shared.db.authorizations.get z = some authz := by rw [hauthzs, hz]
  rcases hcase with ⟨problem, rfl⟩ | ⟨k, ⟨cert, hcert, hcertOf⟩, rfl⟩
  · exact h.books_move hb (w := .issue id (.error problem)) (.issue hpc rfl) rfl hbk rfl horders
      (fun _ _ _ _ => by rw [hauthzs]) horder hauthz ⟨hs.parent, hs.owner, hs.identifiers, hs.name,
        rfl, rfl, hs.authzStatus, hs.authzError, hs.certificate⟩
  · exact h.books_move hb (w := .issue id (.ok cert.pemChain)) (.issue hpc rfl) rfl hbk rfl horders
      (fun _ _ _ _ => by rw [hauthzs]) horder hauthz ⟨hs.parent, hs.owner, hs.identifiers, hs.name,
        rfl, hs.error, hs.authzStatus, hs.authzError,
        ⟨k, cert, rfl, h.grows.certificates hcert, hcertOf, rfl⟩⟩

/-- The reset restarts the book. -/
theorem Db.ShowsAt.reset {db : Db} {id : String}
    {k : Option (Booking String String String Problem)} (h : db.ShowsAt id k) :
    db.reset.ShowsAt id
      (k.map fun k => { k with stage := k.stage.restart interruptedOrderError }) := by
  cases k with
  | none =>
      have h : db.orders.get id = none := h
      show db.reset.orders.get id = none
      simp [Db.reset, h]
  | some k =>
      obtain ⟨r, z, authz, hr, hz, hs⟩ := h
      obtain ⟨owner, name, stage⟩ := k
      have hs' := hs.grows db.reset_grows
      have horder : r.status = .processing → db.reset.orders.get id =
          some { r with status := .invalid, error := some interruptedOrderError } :=
        fun hst => by simp [Db.reset, hr, hst]
      have hauthz : authz.status = .processing → db.reset.authorizations.get z =
          some { authz with status := .invalid } :=
        fun hst => by simp [Db.reset, hz, hst]
      cases stage with
      | validating =>
          exact ⟨_, z, _, horder hs.status, hauthz hs.authzStatus, ⟨hs.parent, hs.owner,
            hs.identifiers, hs.name, rfl, rfl, rfl, hs.authzError, hs.certificate⟩⟩
      | issuing =>
          exact ⟨_, z, authz, horder hs.status,
            Db.reset_keeps_authz hz (fun e => by rw [hs.authzStatus] at e; cases e),
            ⟨hs.parent, hs.owner, hs.identifiers, hs.name, rfl, rfl, hs.authzStatus,
              hs.authzError, hs.certificate⟩⟩
      | pending | ready | valid _ | refused _ | failed _ | abandoned _ =>
          exact ⟨r, z, authz,
            Db.reset_keeps_order hr (fun e => by rw [hs.status] at e; cases e),
            Db.reset_keeps_authz hz (fun e => by rw [hs.authzStatus] at e; cases e), hs'⟩

/-- The commit of the startup reset. -/
theorem Turn.books_reset (h : Turn o cfg c i t seg out) (hb : c.shared.db.Shows b)
    (hr : Reach (relay o cfg) FirstDispatch .init c) {p : ResetPc} (hpc : t.pc = .reset p)
    (hc : seg.commit = true) : h.Books b := by
  -- by the time it commits, the task has sent both updates
  have hdb : out.shared.db = c.shared.db.reset := by
    obtain ⟨ch, hseg⟩ := h.commits hc
    rw [hpc] at hseg
    cases p with
    | orders | authzs =>
        cases Option.some.inj hseg
        cases hc
    | commit =>
        cases Option.some.inj hseg
        rcases h.db with ⟨-, e⟩ | ⟨hcf, -⟩
        · rw [sent_reset hr h.task _ hpc] at e
          exact (Option.some.inj ((reset_exec c.shared.db).symm.trans e)).symm
        · cases hcf
  refine .inr ⟨.restart, _, .restart hpc hdb, rfl, fun id => ?_⟩
  rw [hdb]
  exact (hb id).reset

/-- `get_order` looks at its order. -/
theorem Turn.books_getOrder (h : Turn o cfg c i t seg out) (hb : c.shared.db.Shows b)
    (hr : Reach (relay o cfg) FirstDispatch .init c) {a id : String} {order : Order}
    (hl : h.entry.LoadsOrder a id order) : h.Books b := by
  obtain ⟨hrow, hdb⟩ := h.getOrder_loads hl.1 hl.2
  obtain ⟨tx, hu⟩ := h.goes hl.2
  have howns : out.shared.db.OwnedBy id a := h.owns hu (entitled hr h.task).owns
  obtain ⟨z, authz, hz, hparent⟩ := (in_step hr).has hrow
  obtain ⟨k, hk, hs⟩ := hb.booked (Jackdaw.linked hr) hrow hz hparent
  have howner : k.owner = a := hs.owned hrow (hdb ▸ howns)
  refine .inr ⟨.look a id k.stage, b, .look hl hrow hs.status hs.error hdb, if_pos ?_, hdb ▸ hb⟩
  rw [hk]
  exact decide_eq_true ⟨howner, rfl⟩

/-- The coroutines that write to orders and authorizations. -/
def Pc.writesOrders : Pc → Bool
  | .newOrder _ _ | .challenge _ _ _ | .finalize _ _ _ | .runChallenge _ _ _
  | .processFinalize _ _ _ _ | .reset _ => true
  | _ => false

theorem OrderStep.writes {e : Entry} {id : String} {old : Option Order} {r : Order}
    (h : OrderStep e id old r) : e.pc.writesOrders = true := by
  cases h with
  | place hpc _ | acknowledge hpc _ _ _ | claim hpc _ | validate hpc _ _ | refute hpc _
  | record hpc _ _ | refuse hpc _ | interrupt hpc _ =>
      rw [hpc]
      rfl

theorem AuthzStep.writes {e : Entry} {z : String} {old : Option Authorization}
    {r : Authorization} (h : AuthzStep e z old r) : e.pc.writesOrders = true := by
  cases h with
  | place hpc _ | acknowledge hpc _ _ | validate hpc _ | refute hpc _ | interrupt hpc _ =>
      rw [hpc]
      rfl

/-- **A turn does one act of the book, or nothing.** -/
theorem Turn.books (h : Turn o cfg c i t seg out) (hb : c.shared.db.Shows b)
    (hr : Reach (relay o cfg) FirstDispatch .init c) (hp : FirstDispatch c (c.after i out)) :
    h.Books b := by
  by_cases hl : ∃ a id order, h.entry.LoadsOrder a id order
  · obtain ⟨a, id, order, hl⟩ := hl
    exact h.books_getOrder hb hr hl
  have hl : ∀ a id order, ¬ h.entry.LoadsOrder a id order :=
    fun a id order hload => hl ⟨a, id, order, hload⟩
  by_cases hc : seg.commit = true
  case neg =>
    rw [Bool.not_eq_true] at hc
    exact h.books_quiet hb (fun _ => by rw [h.db_eq hc]) (fun _ => by rw [h.db_eq hc]) hl
  by_cases hw : t.pc.writesOrders = true
  case neg =>
    refine h.books_quiet hb (fun id => ?_) (fun z => ?_) hl
    · rcases h.order_life hr id with e | ⟨_, -, hs⟩
      · exact e
      · exact absurd hs.writes hw
    · rcases h.authz_life hr hp z with e | ⟨_, -, hs⟩
      · exact e
      · exact absurd hs.writes hw
  cases hpc : t.pc with
  | newOrder a p => exact h.books_newOrder hb hr hp hpc
  | challenge a z p => exact h.books_challenge hb hr hp hpc hc
  | finalize a id p => exact h.books_finalize hb hr hp hpc hc
  | runChallenge z id p => exact h.books_runChallenge hb hr hpc hc
  | processFinalize id domain csrDer p => exact h.books_processFinalize hb hr hpc hc
  | reset p => exact h.books_reset hb hr hpc hc
  | _ =>
      rw [hpc] at hw
      cases hw

/-! ### Runs -/

def bookSafety (o : Oracle) (cfg : Settings) : Safety o cfg FirstDispatch where
  Inv _ s := ∃ ws b, Simulates relayBook Entry.post Db.Shows Entry.Does s.log ws b ∧ s.db.Shows b
  Ok _ _ _ := True
  start := ⟨[], _, .start, fun _ => rfl⟩
  run hr h hp hI _ := by
    obtain ⟨ws, b, hs, hb⟩ := hI
    refine ⟨?_, fun _ _ => trivial, fun _ _ => trivial⟩
    rw [h.log]
    exact hs.step (h.books hb hr hp)
  others _ _ _ _ _ _ _ _ := trivial
  request _ _ _ _ := trivial
  fresh hI := hI
  clock _ hI := ⟨hI, fun _ _ _ => trivial⟩
  restart hI := ⟨hI, trivial⟩

/-- **The relay refines the order book.**  In every run in which no second validating task is
created for an authorization, the log simulates a run of the book: every entry does an act of it,
for the account of the order where a request does it, or leaves all orders and authorizations
alone; each act may happen where the book is; and after every entry the tables show the book. -/
theorem relay_refines_order_book (h : Reach (relay o cfg) FirstDispatch .init c) :
    ∃ ws b, Simulates relayBook Entry.post Db.Shows Entry.Does c.shared.log ws b ∧
      c.shared.db.Shows b :=
  ((bookSafety o cfg).reach h).1

/-! ### The history of an order -/

section History

variable {e : Entry} {id z : String} {k k' : Option (Booking String String String Problem)}
  {w : Option Deed}

def Pc.isReset : Pc → Bool
  | .reset _ => true
  | _ => false

/-- The entry changed the row of order `id`, and is no startup reset. -/
def Entry.acts (e : Entry) (id : String) : Bool :=
  !e.pc.isReset && decide (e.post.orders.get id ≠ e.pre.orders.get id)

/-- The status of an order in the book. -/
abbrev bookedStatus (k : Option (Booking String String String Problem)) : Option OrderStatus :=
  k.map fun k => k.stage.orderStatus

theorem Db.ShowsAt.orderStatus {db : Db} (h : db.ShowsAt id k) :
    db.orderStatus id = bookedStatus k := by
  cases k with
  | none => rw [Db.orderStatus, show db.orders.get id = none from h]; rfl
  | some k =>
      obtain ⟨r, z, authz, hr, -, hs⟩ := h
      rw [Db.orderStatus, hr, Option.map_some, hs.status]
      rfl

/-- A move that changes the status of its order changes the row of no other one. -/
theorem Entry.Moves.acts (h : e.Moves id k k') (hpc : e.pc.isReset = false)
    (hne : bookedStatus k ≠ bookedStatus k') (j : String) : e.acts j = decide (id = j) := by
  by_cases hj : j = id
  · subst hj
    have hchanged : e.post.orders.get j ≠ e.pre.orders.get j := by
      intro hsame
      refine hne ?_
      rw [← h.before.orderStatus, ← h.after.orderStatus, Db.orderStatus, Db.orderStatus, hsame]
    simp [Entry.acts, hpc, hchanged]
  · simp [Entry.acts, h.orders j hj, Ne.symm hj]

/-- What an entry does moves one order to another status, or it is a reset, or changes no row. -/
theorem Entry.Does.moves (h : e.Does w) :
    (∃ id k k', w.bind Act.about = some id ∧ e.Moves id k k' ∧ e.pc.isReset = false ∧
      bookedStatus k ≠ bookedStatus k') ∨
    (w.bind Act.about = none ∧ (e.pc.isReset = true ∨
      (∀ id, e.post.orders.get id = e.pre.orders.get id) ∧
        ∀ z, e.post.authorizations.get z = e.pre.authorizations.get z)) := by
  cases h with
  | quiet ho ha _ => exact .inr ⟨rfl, .inr ⟨ho, ha⟩⟩
  | place hpc hm | acknowledge hpc _ _ hm | claim hpc _ hm =>
      exact .inl ⟨_, _, _, rfl, hm, by rw [hpc]; rfl, by simp [Stage.orderStatus]⟩
  | @validate z id owner name p outcome hpc _ hm =>
      refine .inl ⟨_, _, _, rfl, hm, by rw [hpc]; rfl, ?_⟩
      cases outcome <;> simp [Stage.orderStatus]
  | @issue id domain csrDer owner name p stage outcome hpc hs hm =>
      refine .inl ⟨_, _, _, rfl, hm, by rw [hpc]; rfl, ?_⟩
      cases outcome <;> cases hs <;> simp [Stage.orderStatus]
  | restart hpc _ => exact .inr ⟨rfl, .inl (by rw [hpc]; rfl)⟩
  | look _ _ _ _ hdb => exact .inr ⟨rfl, .inr ⟨fun _ => by rw [hdb], fun _ => by rw [hdb]⟩⟩

/-- **The entries that changed the row of an order are those that did an act about it.** -/
theorem Entry.Does.acts (h : e.Does w) (id : String) :
    e.acts id = w.any fun w => decide (w.about = some id) := by
  have habout : (w.any fun w => decide (w.about = some id)) =
      decide (w.bind Act.about = some id) := by
    cases w <;> simp
  rw [habout]
  rcases h.moves with ⟨j, k, k', hw, hm, hpc, hne⟩ | ⟨hw, hpc | ⟨ho, -⟩⟩
  · rw [hm.acts hpc hne id, hw]
    simp
  · simp [Entry.acts, hpc, hw]
  · simp [Entry.acts, ho, hw]

/-- The others leave its authorization alone, too. -/
theorem Entry.Does.keeps_authz (h : e.Does w) (hacts : e.acts id = false)
    (hreset : e.pc.isReset = false) (hz : e.pre.AuthzOf z id) :
    e.post.authorizations.get z = e.pre.authorizations.get z := by
  rcases h.moves with ⟨j, k, k', hw, hm, hpc, hne⟩ | ⟨-, hpc | ⟨-, ha⟩⟩
  · refine hm.authzs id z ?_ hz
    rintro rfl
    rw [hm.acts hpc hne, decide_eq_false_iff_not] at hacts
    exact hacts rfl
  · rw [hreset] at hpc
    cases hpc
  · exact ha z

end History

/-- **An order has the history of its stage.**  In such a run, the status, the error and the
certificate of an order are those of a stage; and the entries that changed its row, those of startup
resets left out, are the acts this stage comes from, one each and in this order: it was placed and
acknowledged by its account, validated, claimed by its account, issued, each time from the rows of
the stage before to the rows of the stage after.  No other entry but a reset changed its
authorization. -/
theorem order_history (h : Reach (relay o cfg) FirstDispatch .init c) {id : String} {row : Order}
    (hrow : c.shared.db.orders.get id = some row) :
    ∃ (k : Booking String String String Problem) (z : String) (authz : Authorization)
      (ws : List Deed),
      c.shared.db.authorizations.get z = some authz ∧ k.Shown c.shared.db id row authz ∧
      k.stage.Past id k.owner k.name ws ∧
      List.Forall₂ (fun e w => e.Does (some w)) (c.shared.log.filter fun e => e.acts id) ws ∧
      ∀ e ∈ c.shared.log, e.acts id = false → e.pc.isReset = false →
        ∀ z, e.pre.AuthzOf z id → e.post.authorizations.get z = e.pre.authorizations.get z := by
  obtain ⟨ws, b, hs, hb⟩ := ((bookSafety o cfg).reach h).1
  obtain ⟨z, authz, hz, hparent⟩ := (in_step h).has hrow
  obtain ⟨k, hk, hshown⟩ := hb.booked (linked h) hrow hz hparent
  have hpast := orderBook_past hs.run id
  rw [hk] at hpast
  have hacts := hs.filter (q := fun e => e.acts id) fun e w hd => hd.acts id
  refine ⟨k, z, authz, _, hz, hshown, hpast, hacts, fun e he hno hreset z hof => ?_⟩
  obtain ⟨w, hd⟩ := hs.does he
  exact hd.keeps_authz hno hreset hof

end Turn

/-- The run of an order that is placed, validated, finalized and issued. -/
theorem relay_refines_order_book_run : ∃ c, Demo.run firstDispatch Demo.issuedOrder = some c ∧
    c.shared.db.orderStatus (Demo.uuid 3) = some .valid ∧
    ∃ ws b, Simulates relayBook Entry.post Db.Shows Entry.Does c.shared.log ws b ∧
      c.shared.db.Shows b := by
  obtain ⟨c, hc, hst, -⟩ := Demo.issuedOrder_run
  exact ⟨c, hc, hst, relay_refines_order_book (Demo.reach (fun _ => firstDispatch_sound) hc)⟩

theorem order_history_run : ∃ c row, Demo.run firstDispatch Demo.issuedOrder = some c ∧
    c.shared.db.orders.get (Demo.uuid 3) = some row ∧ row.status = .valid ∧
    ∃ (k : Booking String String String Problem) (z : String) (authz : Authorization)
      (ws : List Deed),
      c.shared.db.authorizations.get z = some authz ∧
      k.Shown c.shared.db (Demo.uuid 3) row authz ∧
      k.stage.Past (Demo.uuid 3) k.owner k.name ws ∧
      List.Forall₂ (fun e w => e.Does (some w))
        (c.shared.log.filter fun e => e.acts (Demo.uuid 3)) ws ∧
      ∀ e ∈ c.shared.log, e.acts (Demo.uuid 3) = false → e.pc.isReset = false →
        ∀ z, e.pre.AuthzOf z (Demo.uuid 3) →
          e.post.authorizations.get z = e.pre.authorizations.get z := by
  obtain ⟨c, hc, hst, -⟩ := Demo.issuedOrder_run
  obtain ⟨row, hrow, hvalid⟩ := Db.orderStatus_eq_some.mp hst
  exact ⟨c, row, hc, hrow, hvalid,
    order_history (Demo.reach (fun _ => firstDispatch_sound) hc) hrow⟩

end Jackdaw
