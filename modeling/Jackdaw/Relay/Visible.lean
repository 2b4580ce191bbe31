import Jackdaw.Relay.Claims
import Jackdaw.Relay.Statuses

/-!
# Relay — the order a client sees

The protocol knows one way of an order: pending, ready, processing, valid, and invalid from any of
these but the last (RFC 8555 §7.1.6, `OrderStatus.Moves`).  The relay has a second `processing`, for
an order whose challenge is being validated.  To the protocol such an order is still pending
(`Shared.visible`), and with that reading every step of the relay is a move of the protocol, or
none (`Turn.visible_step`).

`get_authz` reads the status of an authorization that way and `get_order` does not: it shows the
second `processing` as it is, before anybody has asked for a certificate (`processing_too_early`).

* `statuses_follow_protocol`: where no order is looked at while its authorization is processing, nor
  between its claim and the answer to the request that claimed it, the statuses a client is shown
  follow the protocol.
-/

namespace Jackdaw

open Support Support.Interleave

/-! ### The order of the protocol -/

/-- A move of an order in the protocol. -/
inductive OrderStatus.Moves : OrderStatus → OrderStatus → Prop where
  | ready : Moves .pending .ready
  | processing : Moves .ready .processing
  | valid : Moves .processing .valid
  | invalid {st : OrderStatus} (h : st.terminal = false) : Moves st .invalid

/-- A status that may be seen some time after another one. -/
abbrev OrderStatus.Leads : OrderStatus → OrderStatus → Prop := Relation.ReflTransGen Moves

/-- The status of order `id` in the protocol: pending until a finalize request has claimed it, if
it is not ready yet. -/
def Shared.visible (s : Shared) (id : String) : Option OrderStatus :=
  if s.db.orderStatus id = some .processing ∧ issuances s.log id = 0 then some .pending
  else s.db.orderStatus id

theorem Shared.visible_eq {s : Shared} {id : String} {st : OrderStatus}
    (h : s.db.orderStatus id = some st) (hst : st = .processing → issuances s.log id ≠ 0) :
    s.visible id = some st := by
  rw [Shared.visible, if_neg, h]
  rintro ⟨e, hzero⟩
  rw [h] at e
  exact hst (Option.some.inj e) hzero

theorem Shared.visible_pending {s : Shared} {id : String}
    (h : s.db.orderStatus id = some .processing) (hz : issuances s.log id = 0) :
    s.visible id = some .pending :=
  if_pos ⟨h, hz⟩

/-! ### What a client is shown -/

/-- The order a handler is about. -/
def Pc.order : Pc → Option String
  | .getOrder _ id _ | .finalize _ id _ | .newOrder _ (.commit id _ _) => some id
  | _ => none

/-- The entry answers its client with the status of order `id`. -/
def Answers (e : Entry) (id : String) (st : OrderStatus) : Prop :=
  e.pc.order = some id ∧
    ∃ r b, e.seg.next = .respond r ∧ r.status < 400 ∧ r.body = .order b ∧ b.status = st

/-- A finalize request for order `id` was answered 200. -/
def Finalized (l : List Entry) (id : String) : Prop :=
  ∃ e ∈ l, ∃ a p r, e.pc = .finalize a id p ∧ e.seg.next = .respond r ∧ r.status = 200

/-- The statuses the clients were shown follow the protocol: of two answers the second of which is
to a request that came after the first, and where an order is shown processing. -/
structure FollowProtocol (l : List Entry) : Prop where
  path : ∀ l₂ e l₁ e' id st st', l = l₂ ++ e :: l₁ → e' ∈ l₂ → (∀ g ∈ e :: l₁, g.tid ≠ e'.tid) →
    Answers e id st → Answers e' id st' → st.Leads st'
  processing : ∀ l₂ e l₁ a id p, l = l₂ ++ e :: l₁ → e.pc = .getOrder a id p →
    Answers e id .processing → Finalized l₁ id

/-- **The step is no early look**: a `get_order` loads no order whose authorization is processing,
and none that is processing because a finalize request claimed it that was not answered 200. -/
def PollsSettled (c c' : Relay) : Prop :=
  ∀ e, c'.shared.log = e :: c.shared.log → ∀ a id, e.pc = .getOrder a id .get →
    (∀ z, e.pre.AuthzOf z id → e.pre.authzStatus z ≠ some .processing) ∧
    (e.pre.orderStatus id = some .processing → issuances c.shared.log id ≠ 0 →
      Finalized c.shared.log id)

/-- The entry is where a request takes the status of order `id` that it will show. -/
inductive Takes (e : Entry) (id : String) : OrderStatus → Prop where
  | place {a row authzs r} (hpc : e.pc = .newOrder a (.commit id row authzs))
      (hn : e.seg.next = .respond r) : Takes e id .pending
  | load {a order} (hpc : e.pc = .getOrder a id .get)
      (hn : e.seg.next = .goto (.getOrder a id (.authzs order))) : Takes e id order.status
  | claim {a p order} (hpc : e.pc = .finalize a id p)
      (hn : e.seg.next = .goto (.finalize a id (.authzs order))) : Takes e id .processing

section

variable {o : Oracle} {cfg : Settings} {c : Relay} {i : Nat} {t u : Task} {seg : Seg Pc}
  {out : Outcome Shared Task}

/-! ### The two kinds of processing -/

/-- An order that is processing and was not claimed is being validated. -/
def Phase (s : Shared) : Prop :=
  ∀ {z id}, s.db.AuthzOf z id → s.db.orderStatus id = some .processing →
    issuances s.log id = 0 → s.db.authzStatus z = some .processing

/-- What the startup reset has sent. -/
def ResetPc.sent : ResetPc → List Dml
  | .orders => []
  | .authzs => [.resetOrders]
  | .commit => [.resetOrders, .resetAuthzs]

def Task.SentReset (t : Task) : Prop := ∀ p, t.pc = .reset p → t.tx = p.sent

theorem Turn.sentReset (h : Turn o cfg c i t seg out) (hs : t.SentReset) (hu : out.self = some u) :
    u.SentReset := by
  intro q hq
  rcases h.stays_or_starts hu with e | hstart | ⟨a, p, e⟩
  · rw [hq] at e
    obtain ⟨p, hpc⟩ := Pc.eq_reset e.symm
    obtain ⟨ch, hseg⟩ := h.goes_on hu
    obtain ⟨hn, htx⟩ := h.self hu
    rw [hpc] at hseg
    rw [htx, hs p hpc]
    cases p with
    | orders | authzs =>
        cases Option.some.inj hseg
        rw [hq] at hn
        cases hn
        rfl
    | commit =>
        cases Option.some.inj hseg
        cases hn
  · rw [hq] at hstart
    cases hstart
  · rw [hq] at e
    cases e

/-- The commit of the reset leaves no order processing. -/
theorem Turn.reset_settles (h : Turn o cfg c i t seg out) (hs : t.SentReset) {p : ResetPc}
    (hpc : t.pc = .reset p) (hc : seg.commit = true) (id : String) :
    out.shared.db.orderStatus id ≠ some .processing := by
  obtain ⟨ch, hseg⟩ := h.commits hc
  rw [hpc] at hseg
  cases p with
  | orders | authzs =>
      cases Option.some.inj hseg
      cases hc
  | commit =>
      cases Option.some.inj hseg
      rcases h.db with ⟨-, e⟩ | ⟨hcf, -⟩
      · rw [hs _ hpc] at e
        rw [← Option.some.inj ((reset_exec c.shared.db).symm.trans e)]
        exact Db.reset_orders
      · cases hcf

/-- **A turn keeps the two apart.** -/
theorem Turn.phase (h : Turn o cfg c i t seg out)
    (hr : Reach (relay o cfg) FirstDispatch .init c) (hp : FirstDispatch c (c.after i out))
    (hs : t.SentReset) (hI : Phase c.shared) : Phase out.shared := by
  intro z id hz hst hzero
  have hk := Jackdaw.knows hr h.task
  by_cases hc : seg.commit = true
  case neg =>
    rw [Bool.not_eq_true] at hc
    rw [h.db_eq hc] at hz hst ⊢
    rw [h.log, issuances_cons] at hzero
    exact hI hz hst (Nat.eq_zero_of_add_eq_zero hzero).1
  rw [h.log, issuances_cons] at hzero
  obtain ⟨hzero, hnot⟩ := Nat.eq_zero_of_add_eq_zero hzero
  rcases h.placed hk hz with hold | ⟨-, hnew⟩
  case inr =>
    rw [hst] at hnew
    cases hnew
  rcases h.moves_order hk (Jackdaw.finds hr h.task) id with e | ⟨st, e, hm⟩
  · rw [hst] at e
    have hproc := hI hold e.symm hzero
    rcases h.moves_authz hk (Jackdaw.finds hr h.task) (Jackdaw.lifecycle hr) hp z with
      e' | ⟨st, -, hm⟩
    · exact e'.trans hproc
    · -- whoever moves the authorization on moves the order on, too
      cases hm with
      | place _ old _ | acknowledge _ _ old _ =>
          rw [hproc] at old
          cases old
      | @validate id' p hpc _ _ =>
          have hpc : t.pc = _ := hpc
          obtain ⟨_, _, _, order', -, -, hos, -, -, hcase⟩ :=
            h.runChallenge_rows (Jackdaw.holds hr h.task) hpc hc
          rw [hpc] at hk
          rw [hk.1.unique hold] at hos
          rw [Db.orderStatus, hos, if_pos rfl] at hst
          rcases hcase with ⟨-, rfl⟩ | ⟨_, -, rfl⟩ <;> cases hst
      | interrupt hpc _ _ => exact absurd hst (h.reset_settles hs hpc hc id)
  · rw [hst] at e
    cases e
    cases hm with
    | @acknowledge a z' p hpc hz' _ _ _ =>
        obtain ⟨-, -, -, hauthz, -⟩ := h.challenge_commit hk hpc hc
        obtain ⟨r, hr', ho⟩ := hold
        obtain ⟨r', hr'', ho'⟩ := hz'
        rw [(Jackdaw.linked hr).unique hr' hr'' (ho.trans ho'.symm)]
        exact hauthz
    | claim hpc old _ =>
        rcases h.claims_finalize hk hpc with ⟨hidle, -⟩ | ⟨-, -, hiss, -⟩
        · rw [Db.orderStatus, hidle.1 id] at hst
          rw [Db.orderStatus, hst] at old
          cases old
        · rw [if_pos hiss] at hnot
          cases hnot
    | place _ _ new | interrupt _ _ new => cases new
    | validate _ _ new | issue _ _ new => rcases new with e | e <;> cases e

def phaseSafety (o : Oracle) (cfg : Settings) : Safety o cfg FirstDispatch where
  Inv _ s := Phase s
  Ok _ _ t := t.SentReset
  start := fun ⟨_, h, _⟩ => by cases h
  run hr h hp hI hs := by
    refine ⟨h.phase hr hp hs hI, fun u hu => h.sentReset hs hu, fun b _ p hpc => ?_⟩
    cases b <;> cases hpc
  others _ _ _ _ _ _ _ hu := hu
  request {c t} _ _ _ hpc p hp := by
    rcases hpc with ⟨req, e⟩ | ⟨q, e⟩ | ⟨cutoff, e⟩ <;> rw [e] at hp <;> cases hp
  fresh hI := hI
  clock _ hI := ⟨hI, fun _ _ h => h⟩
  restart hI := ⟨hI, fun p hp => by cases hp; rfl⟩

theorem phase (h : Reach (relay o cfg) FirstDispatch .init c) : Phase c.shared :=
  ((phaseSafety o cfg).reach h).1

/-! ### The simulation -/

/-- A segment that moves the order otherwise than by issuing is a move of the protocol, or none. -/
theorem Turn.visible_moves (h : Turn o cfg c i t seg out)
    (hr : Reach (relay o cfg) FirstDispatch .init c) {id : String} {st st' : OrderStatus}
    (hst : c.shared.visible id = some st) (hiss : h.entry.issues id = false)
    (hsame : issuances out.shared.log id = issuances c.shared.log id)
    (e : out.shared.db.orderStatus id = some st') (hm : MovesOrder h.entry id st') :
    ∃ st', out.shared.visible id = some st' ∧ (st' = st ∨ st.Moves st') := by
  have hf := Jackdaw.finds hr h.task
  cases hm with
  | place _ old _ =>
      have old : c.shared.db.orderStatus id = none := old
      rw [Shared.visible, if_neg (by rw [old]; exact nofun), old] at hst
      cases hst
  | acknowledge _ _ _ old new =>
      -- to the protocol nothing happens
      rw [Shared.visible_eq old nofun] at hst
      cases hst
      rw [new] at e
      refine ⟨_, Shared.visible_pending e ?_, .inl rfl⟩
      rw [hsame]
      by_contra hne
      obtain ⟨st, hst, hpend, -⟩ := (Jackdaw.lifecycle hr).spent hne
      rw [show c.shared.db.orderStatus id = _ from old] at hst
      exact hpend (Option.some.inj hst).symm
  | claim hpc old new =>
      rcases h.claims_finalize (Jackdaw.knows hr h.task) hpc with ⟨hidle, -⟩ | ⟨-, -, hiss', -⟩
      · have hsame : out.shared.db.orderStatus id = c.shared.db.orderStatus id :=
          congrArg _ (hidle.1 id)
        rw [hsame, show c.shared.db.orderStatus id = _ from old, new] at e
        cases e
      · rw [hiss] at hiss'
        cases hiss'
  | validate hpc old new =>
      have hpc : t.pc = _ := hpc
      rw [hpc] at hf
      rw [Shared.visible_pending old hf.2.1] at hst
      cases hst
      rcases new with rfl | rfl
      · exact ⟨_, Shared.visible_eq e nofun, .inr .ready⟩
      · exact ⟨_, Shared.visible_eq e nofun, .inr (.invalid rfl)⟩
  | issue hpc old new =>
      have hpc : t.pc = _ := hpc
      rw [hpc] at hf
      rw [Shared.visible_eq old fun _ => issuances_ne_zero hf.1] at hst
      cases hst
      rcases new with rfl | rfl
      · exact ⟨_, Shared.visible_eq e nofun, .inr .valid⟩
      · exact ⟨_, Shared.visible_eq e nofun, .inr (.invalid rfl)⟩
  | interrupt _ old new =>
      subst new
      refine ⟨_, Shared.visible_eq e nofun, .inr (.invalid ?_)⟩
      rw [Shared.visible, show c.shared.db.orderStatus id = _ from old] at hst
      split at hst <;> cases hst <;> rfl

/-- **Every step of the relay is a move of the protocol, or none.** -/
theorem Turn.visible_step (h : Turn o cfg c i t seg out)
    (hr : Reach (relay o cfg) FirstDispatch .init c) {id : String} {st : OrderStatus}
    (hst : c.shared.visible id = some st) :
    ∃ st', out.shared.visible id = some st' ∧ (st' = st ∨ st.Moves st') := by
  have hk := Jackdaw.knows hr h.task
  have hlog : out.shared.log = h.entry :: c.shared.log := h.log
  cases hiss : h.entry.issues id with
  | true =>
      -- the claim
      obtain ⟨domain, csrDer, hs⟩ := Entry.issues_iff.mp hiss
      obtain ⟨a, order, rowcount, -, hready, hproc⟩ := h.issues hk hs
      rw [Shared.visible_eq hready nofun] at hst
      cases hst
      refine ⟨_, Shared.visible_eq hproc fun _ => ?_, .inr .processing⟩
      rw [hlog, issuances_cons, if_pos hiss]
      exact Nat.succ_ne_zero _
  | false =>
      have hsame : issuances out.shared.log id = issuances c.shared.log id := by
        rw [hlog, issuances_cons, hiss]
        rfl
      rcases h.moves_order hk (Jackdaw.finds hr h.task) id with e | ⟨st', e, hm⟩
      · refine ⟨st, ?_, .inl rfl⟩
        rw [Shared.visible, e, hsame]
        exact hst
      · exact h.visible_moves hr hst hiss hsame e hm

/-! ### What a request takes is what it shows -/

/-- `new_order` leaves the order it answers with pending. -/
theorem Turn.places_pending (h : Turn o cfg c i t seg out) {a id : String} {row : Order}
    {authzs : List (String × Authorization)} {r : Response}
    (hpc : t.pc = .newOrder a (.commit id row authzs)) (hn : seg.next = .respond r) :
    out.shared.db.orderStatus id = some .pending := by
  rcases h.runs with ⟨ch, hseg⟩ | rfl
  case inr => cases hn
  rw [hpc] at hseg
  cases Option.some.inj hseg
  have hmay := h.may_statement
    (List.mem_append_right t.tx (List.mem_cons_self (a := Dml.insertOrder id row)))
  rw [hpc] at hmay
  rw [Db.orderStatus, h.places_order hpc rfl, if_pos rfl, Option.map_some, hmay.2.1]

/-- The row `get_order` has loaded. -/
theorem Turn.getOrder_loads (h : Turn o cfg c i t seg out) {a id : String} {order : Order}
    (hpc : t.pc = .getOrder a id .get) (hn : seg.next = .goto (.getOrder a id (.authzs order))) :
    c.shared.db.orders.get id = some order ∧ out.shared.db = c.shared.db := by
  obtain ⟨tx, hu⟩ := h.goes hn
  obtain ⟨ch, hseg⟩ := h.goes_on hu
  rw [hpc] at hseg
  have hreads : seg.Reads fun q => ∀ order, q = .getOrder a id (.authzs order) →
      c.shared.db.orders.get id = some order :=
    Option.some.inj hseg ▸ .map _ (.attempt fun order ho => .goto fun _ e => by
      cases e
      exact (requireOrderOwner_ok ho).1)
  exact ⟨hreads.of_goto hn order rfl, (h.reads hreads hu).2.1⟩

/-- A status that is taken is the one the protocol has. -/
theorem Turn.takes_visible (h : Turn o cfg c i t seg out)
    (hr : Reach (relay o cfg) FirstDispatch .init c) (hp : PollsSettled c (c.after i out))
    {id : String} {st : OrderStatus} (ht : Takes h.entry id st) :
    out.shared.visible id = some st := by
  have hk := Jackdaw.knows hr h.task
  have hlog : out.shared.log = h.entry :: c.shared.log := h.log
  cases ht with
  | @place a row authzs r hpc hn => exact Shared.visible_eq (h.places_pending hpc hn) nofun
  | @load a order hpc hn =>
      obtain ⟨ho, hdb⟩ := h.getOrder_loads hpc hn
      have hst : c.shared.db.orderStatus id = some order.status := by
        rw [Db.orderStatus, ho]
        rfl
      refine Shared.visible_eq (by rw [hdb, hst]) fun hproc hzero => ?_
      -- it would be validated, and is not looked at then
      rw [hlog, issuances_cons] at hzero
      obtain ⟨z, hz⟩ := (in_step hr).has ho
      rw [hproc] at hst
      exact (hp h.entry hlog a id hpc).1 z hz
        (Jackdaw.phase hr hz hst (Nat.eq_zero_of_add_eq_zero hzero).1)
  | claim hpc hn =>
      rcases h.claims_finalize hk hpc with ⟨-, hne⟩ | ⟨hc, -, hiss, -⟩
      · exact absurd hn (hne _)
      · refine Shared.visible_eq hc.2 fun _ => ?_
        rw [hlog, issuances_cons, if_pos hiss]
        exact Nat.succ_ne_zero _

/-- The status a suspended request is going to show. -/
def Pc.shows : Pc → Option (String × OrderStatus)
  | .getOrder _ id (.authzs order) => some (id, order.status)
  | .finalize _ id (.authzs _) => some (id, .processing)
  | _ => none

/-- Task `i` has taken the status it is going to show; and a `get_order` that has taken
`processing` came after the answer to a finalize request. -/
def Pc.Taken (i : Nat) (l : List Entry) (pc : Pc) : Prop :=
  (∀ id st, pc.shows = some (id, st) → ∃ g ∈ l, g.tid = i ∧ Takes g id st) ∧
    ∀ a id order, pc = .getOrder a id (.authzs order) → order.status = .processing →
      Finalized l id

theorem Finalized.cons {l : List Entry} {id : String} (h : Finalized l id) (e : Entry) :
    Finalized (e :: l) id := by
  obtain ⟨w, hw, hf⟩ := h
  exact ⟨w, List.mem_cons_of_mem e hw, hf⟩

theorem Pc.Taken.cons {l : List Entry} {pc : Pc} (h : pc.Taken i l) (e : Entry) :
    pc.Taken i (e :: l) := by
  refine ⟨fun id st hs => ?_, fun a id order hpc hst => (h.2 a id order hpc hst).cons e⟩
  obtain ⟨g, hg, ht⟩ := h.1 id st hs
  exact ⟨g, List.mem_cons_of_mem e hg, ht⟩

theorem Pc.taken_of_shows_none {l : List Entry} {pc : Pc} (h : pc.shows = none) :
    pc.Taken i l := by
  refine ⟨fun id st hs => ?_, fun a id order hpc _ => ?_⟩
  · rw [h] at hs
    cases hs
  · rw [hpc] at h
    cases h

/-- What a request has taken, after a turn. -/
theorem Turn.taken (h : Turn o cfg c i t seg out)
    (hr : Reach (relay o cfg) FirstDispatch .init c) (hp : PollsSettled c (c.after i out))
    (hu : out.self = some u) : u.pc.Taken i out.shared.log := by
  obtain ⟨ch, hseg⟩ := h.goes_on hu
  have hn := (h.self hu).1
  have hlog : out.shared.log = h.entry :: c.shared.log := h.log
  rcases h.stays_or_starts hu with e | hs | ⟨a, p, e⟩
  · cases hq : u.pc with
    | getOrder a id q =>
        rw [hq] at e hn
        obtain ⟨p, hpc⟩ := Pc.eq_getOrder e.symm
        cases q with
        | get => exact Pc.taken_of_shows_none rfl
        | authzs order =>
            cases p with
            | authzs order' =>
                rw [hpc] at hseg
                cases Option.some.inj hseg
                cases hn
            | get =>
                rw [hlog]
                refine ⟨fun id' st hs => ?_, fun a' id' order' e hst => ?_⟩
                · cases hs
                  exact ⟨h.entry, List.mem_cons_self, rfl, .load hpc hn⟩
                · cases e
                  obtain ⟨ho, -⟩ := h.getOrder_loads hpc hn
                  obtain ⟨hauthz, hanswer⟩ := hp h.entry hlog a id hpc
                  have hproc : c.shared.db.orderStatus id = some .processing :=
                    Db.orderStatus_eq_some.mpr ⟨order, ho, hst⟩
                  refine (hanswer hproc fun hzero => ?_).cons _
                  obtain ⟨z, hz⟩ := (in_step hr).has ho
                  exact hauthz z hz (Jackdaw.phase hr hz hproc hzero)
    | finalize a id q =>
        rw [hq] at e hn
        obtain ⟨p, hpc⟩ := Pc.eq_finalize e.symm
        cases q with
        | authzs order =>
            refine ⟨fun id' st hs => ?_, fun _ _ _ e => by cases e⟩
            cases hs
            exact ⟨h.entry, hlog ▸ List.mem_cons_self, rfl, .claim hpc hn⟩
        | get _ | update _ _ _ | commit _ _ _ _ | status => exact Pc.taken_of_shows_none rfl
    | _ => exact Pc.taken_of_shows_none rfl
  · refine Pc.taken_of_shows_none ?_
    unfold Pc.isStart at hs
    split at hs <;> first | (rename_i e; rw [e]; rfl) | cases hs
  · rw [e]
    cases p <;> exact Pc.taken_of_shows_none rfl

/-- `get_order` answers with the row it has loaded. -/
theorem Turn.getOrder_answers (h : Turn o cfg c i t seg out) {a id : String} {p : GetOrderPc}
    (hpc : t.pc = .getOrder a id p) {st : OrderStatus} (ha : Answers h.entry id st) :
    ∃ order, t.pc = .getOrder a id (.authzs order) ∧ order.status = st := by
  obtain ⟨-, r, b, hn, hlt, hb, rfl⟩ := ha
  have hn : seg.next = .respond r := hn
  rcases h.runs with ⟨ch, hseg⟩ | rfl
  case inr => cases hn
  rw [hpc] at hseg
  cases Option.some.inj hseg
  cases p with
  | authzs order =>
      cases hn
      cases hb
      exact ⟨order, hpc, rfl⟩
  | get =>
      have hrefuses := Seg.Refuses.map (.attempt (requireOrderOwner_refuses a _)
        fun order _ => .goto (GetOrderPc.authzs order)) (Pc.getOrder a id) r hn
      omega

/-- An answer shows the status that was taken, here or before. -/
theorem Turn.answers (h : Turn o cfg c i t seg out) (ht : t.pc.Taken i c.shared.log) {id : String}
    {st : OrderStatus} (ha : Answers h.entry id st) :
    ∃ g ∈ h.entry :: c.shared.log, g.tid = i ∧ Takes g id st := by
  have hid : t.pc.order = some id := ha.1
  obtain ⟨r, b, hn, hlt, hb, rfl⟩ := ha.2
  have hn : seg.next = .respond r := hn
  have hbefore : t.pc.shows = some (id, b.status) →
      ∃ g ∈ h.entry :: c.shared.log, g.tid = i ∧ Takes g id b.status := by
    intro hs
    obtain ⟨g, hg, hi⟩ := ht.1 id b.status hs
    exact ⟨g, List.mem_cons_of_mem _ hg, hi⟩
  cases hpc : t.pc with
  | newOrder a p =>
      rcases h.runs with ⟨ch, hseg⟩ | rfl
      case inr => cases hn
      rw [hpc] at hid hseg
      cases p with
      | commit id' row authzs =>
          cases hid
          cases Option.some.inj hseg
          cases hn
          cases hb
          exact ⟨h.entry, List.mem_cons_self, rfl, .place hpc rfl⟩
      | count _ _ => cases hid
  | getOrder a id' p =>
      rw [hpc] at hid
      cases hid
      obtain ⟨order, hpc', hst⟩ := h.getOrder_answers hpc ha
      exact hbefore (by rw [hpc', ← hst]; rfl)
  | finalize a id' p =>
      rw [hpc] at hid
      cases hid
      rcases h.answer_finalize (.inl ⟨a, p, hpc⟩) hn with hle | ⟨-, a', order, hpc'⟩
      · omega
      · refine hbefore ?_
        rcases h.runs with ⟨ch, hseg⟩ | rfl
        · rw [hpc'] at hseg ⊢
          cases Option.some.inj hseg
          cases hn
          cases hb
          rfl
        · cases hn
  | _ =>
      rw [hpc] at hid
      cases hid

/-! ### Runs -/

/-- What every answer of the log shows was taken by its request, and what is taken later follows. -/
def Seen : List Entry → Prop
  | [] => True
  | e :: l =>
      (∀ id st, Answers e id st → ∃ g ∈ e :: l, g.tid = e.tid ∧ Takes g id st) ∧
      (∀ a id p, e.pc = .getOrder a id p → Answers e id .processing → Finalized l id) ∧
      (∀ g ∈ l, ∀ id st st', Takes g id st → Takes e id st' → st.Leads st') ∧ Seen l

theorem Seen.tail {l₁ : List Entry} : ∀ l₂ : List Entry, Seen (l₂ ++ l₁) → Seen l₁
  | [], h => h
  | _ :: l₂, h => Seen.tail l₂ h.2.2.2

theorem Seen.follow {l : List Entry} (h : Seen l) : FollowProtocol l where
  path := by
    rintro l₂ e l₁ e' id st st' rfl he' hlater ha ha'
    obtain ⟨g, hg, -, ht⟩ := (h.tail l₂).1 id st ha
    obtain ⟨l₃, l₄, rfl⟩ := List.append_of_mem he'
    rw [List.append_assoc] at h
    obtain ⟨g', hg', hi, ht'⟩ := (h.tail l₃).1 id st' ha'
    -- the later request took its status after the first answer
    have hmem : g' ∈ e' :: l₄ := by
      rcases List.mem_append (s := e' :: l₄) (t := e :: l₁) |>.mp hg' with hmem | hmem
      · exact hmem
      · exact absurd hi (hlater g' hmem)
    obtain ⟨l₅, l₆, e₆⟩ := List.append_of_mem hmem
    have hseen : Seen (g' :: (l₆ ++ e :: l₁)) := by
      refine Seen.tail (l₃ ++ l₅) ?_
      rw [List.append_assoc, ← List.cons_append, ← List.append_assoc l₅, ← e₆]
      exact h
    exact hseen.2.2.1 g (List.mem_append_right l₆ hg) id st st' ht ht'
  processing := by
    rintro l₂ e l₁ a id p rfl hpc ha
    exact (h.tail l₂).2.1 a id p hpc ha

/-- What was taken leads to what the protocol has now. -/
def LeadsOn (s : Shared) : Prop :=
  ∀ g ∈ s.log, ∀ id st, Takes g id st → ∃ st', s.visible id = some st' ∧ st.Leads st'

theorem Turn.leads (h : Turn o cfg c i t seg out)
    (hr : Reach (relay o cfg) FirstDispatch .init c) (hI : LeadsOn c.shared) {g : Entry}
    (hg : g ∈ c.shared.log) {id : String} {st : OrderStatus} (ht : Takes g id st) :
    ∃ st', out.shared.visible id = some st' ∧ st.Leads st' := by
  obtain ⟨st₁, hv, hl⟩ := hI g hg id st ht
  obtain ⟨st₂, hv', rfl | hm⟩ := h.visible_step hr hv
  · exact ⟨st₂, hv', hl⟩
  · exact ⟨st₂, hv', hl.tail hm⟩

/-- **What a turn shows follows what was shown.** -/
theorem Turn.seen (h : Turn o cfg c i t seg out)
    (hr : Reach (relay o cfg) FirstDispatch .init c) (hp : PollsSettled c (c.after i out))
    (hI : LeadsOn c.shared) (hs : Seen c.shared.log) (ht : t.pc.Taken i c.shared.log) :
    Seen out.shared.log := by
  rw [h.log]
  refine ⟨fun id st ha => h.answers ht ha, fun a id p hpc ha => ?_,
    fun g hg id st st' hg' he => ?_, hs⟩
  · obtain ⟨order, hpc', hst⟩ := h.getOrder_answers hpc ha
    exact ht.2 a id order hpc' hst
  · obtain ⟨st₁, hv, hl⟩ := h.leads hr hI hg hg'
    rw [h.takes_visible hr hp he] at hv
    cases hv
    exact hl

def visibleSafety (o : Oracle) (cfg : Settings) :
    Safety o cfg fun c c' => FirstDispatch c c' ∧ PollsSettled c c' where
  Inv _ s := LeadsOn s ∧ Seen s.log
  Ok i s t := t.pc.Taken i s.log
  start := ⟨List.forall_mem_nil _, trivial⟩
  run {c i t seg out} hr h hp hI ht := by
    have hr' := hr.mono (Q := FirstDispatch) fun _ _ h => h.1
    refine ⟨⟨fun g hg id st hg' => ?_, h.seen hr' hp.2 hI.1 hI.2 ht⟩,
      fun u hu => h.taken hr' hp.2 hu, fun b _ => ?_⟩
    · rw [h.log] at hg
      rcases List.mem_cons.mp hg with rfl | hg
      · exact ⟨st, h.takes_visible hr' hp.2 hg', .refl⟩
      · exact h.leads hr' hI.1 hg hg'
    · cases b <;> exact Pc.taken_of_shows_none rfl
  others _ h _ _ _ _ _ ht := h.log ▸ ht.cons _
  request {c t} _ _ _ hpc := by
    refine Pc.taken_of_shows_none ?_
    rcases hpc with ⟨req, e⟩ | ⟨p, e⟩ | ⟨cutoff, e⟩ <;> rw [e] <;> rfl
  fresh hI := hI
  clock _ hI := ⟨hI, fun _ _ h => h⟩
  restart hI := ⟨hI, Pc.taken_of_shows_none rfl⟩

/-- **The statuses a client is shown follow the protocol**, in every run in which no second
validating task is created for an authorization and no order is looked at too early. -/
theorem statuses_follow_protocol (h : Reach (relay o cfg)
    (fun c c' => FirstDispatch c c' ∧ PollsSettled c c') .init c) :
    FollowProtocol c.shared.log :=
  ((visibleSafety o cfg).reach h).1.2.follow

end

/-- A test for `Finalized` that may be run. -/
def finalized (l : List Entry) (id : String) : Bool :=
  l.any fun e => match e.pc, e.seg.next with
    | .finalize _ id' _, .respond r => decide (id' = id) && decide (r.status = 200)
    | _, _ => false

theorem finalized_iff {l : List Entry} {id : String} :
    finalized l id = true ↔ Finalized l id := by
  simp only [finalized, List.any_eq_true, Finalized]
  refine exists_congr fun e => and_congr_right fun _ => ⟨fun h => ?_, ?_⟩
  · split at h
    · rename_i a id' p r hpc hn
      simp only [Bool.and_eq_true, decide_eq_true_eq] at h
      obtain ⟨rfl, hst⟩ := h
      exact ⟨a, p, r, hpc, hn, hst⟩
    · cases h
  · rintro ⟨a, p, r, hpc, hn, hst⟩
    simp [hpc, hn, hst]

/-- A test for `PollsSettled` that may be run. -/
def pollsSettled (c c' : Relay) : Bool :=
  c'.shared.log.head?.all fun e => match e.pc with
    | .getOrder _ id .get =>
        (e.pre.authorizations.rows.all fun a =>
          decide (a.2.orderId ≠ id) || decide (a.2.status ≠ .processing)) &&
        (decide (e.pre.orderStatus id ≠ some .processing) || finalized c.shared.log id)
    | _ => true

theorem pollsSettled_sound {c c' : Relay} (h : pollsSettled c c' = true) : PollsSettled c c' := by
  intro e he a id hpc
  simp only [pollsSettled, he, List.head?_cons, Option.all_some, hpc, Bool.and_eq_true,
    Bool.or_eq_true, decide_eq_true_eq, List.all_eq_true, finalized_iff] at h
  refine ⟨fun z hz hst => ?_, fun hproc _ => h.2.resolve_left fun hne => hne hproc⟩
  obtain ⟨r, hr, ho⟩ := hz
  obtain ⟨r', hr', hst⟩ := Db.authzStatus_eq_some.mp hst
  rw [hr] at hr'
  cases hr'
  rcases h.1 _ (Table.get_eq_some_iff.mp hr) with hne | hne
  · exact hne ho
  · exact hne hst

/-- A test for `Answers` of a `get_order` that may be run. -/
def Demo.answers (e : Entry) (id : String) (st : OrderStatus) : Bool :=
  match e.pc, e.seg.next with
  | .getOrder _ id' _, .respond ⟨200, .order b, _⟩ => decide (id' = id) && decide (b.status = st)
  | _, _ => false

theorem Demo.answers_sound {e : Entry} {id : String} {st : OrderStatus}
    (h : answers e id st = true) : (∃ a p, e.pc = .getOrder a id p) ∧ Answers e id st := by
  unfold answers at h
  split at h
  · rename_i a id' p b l hpc hn
    simp only [Bool.and_eq_true, decide_eq_true_eq] at h
    obtain ⟨rfl, hst⟩ := h
    exact ⟨⟨a, p, hpc⟩, by rw [hpc]; rfl, _, b, hn, (by decide : 200 < 400), rfl, hst⟩
  · cases h

/-- `get_order` for the order. -/
def Demo.poll (n : UInt8) : Nat → List (Action Input) := call (request 11 n 4) (turns 5)

/-- An order that is looked at when it is ready and when it is valid. -/
def Demo.polledOrder : List (Nat → List (Action Input)) :=
  readyOrder ++ [poll 5, call (request 11 4 3) (turns 7),
    fun _ => go 55 (turns 1 ++ [{ issued := .ok "pem" }, { uuid := uuid 5 }] ++ turns 2), poll 6]

theorem statuses_follow_protocol_run :
    ∃ c, Demo.run (fun c c' => firstDispatch c c' && pollsSettled c c') Demo.polledOrder = some c ∧
      (∃ e ∈ c.shared.log, Answers e (Demo.uuid 3) .ready) ∧
      (∃ e ∈ c.shared.log, Answers e (Demo.uuid 3) .valid) ∧ FollowProtocol c.shared.log := by
  have hrun : (Demo.run (fun c c' => firstDispatch c c' && pollsSettled c c')
      Demo.polledOrder).any (fun c =>
        (c.shared.log.any fun e => Demo.answers e (Demo.uuid 3) .ready) &&
        c.shared.log.any fun e => Demo.answers e (Demo.uuid 3) .valid) = true := by decide +kernel
  obtain ⟨c, hc, h⟩ := (Option.any_eq_true _ _).mp hrun
  simp only [Bool.and_eq_true, List.any_eq_true] at h
  obtain ⟨⟨e, he, ha⟩, e', he', ha'⟩ := h
  refine ⟨c, hc, ⟨e, he, (Demo.answers_sound ha).2⟩, ⟨e', he', (Demo.answers_sound ha').2⟩,
    statuses_follow_protocol (Demo.reach (fun _ h => ?_) hc)⟩
  rw [Bool.and_eq_true] at h
  exact ⟨firstDispatch_sound h.1, pollsSettled_sound h.2⟩

/-- An order that is looked at while its challenge is validated. -/
def Demo.polledEarly : List (Nat → List (Action Input)) :=
  placedOrder ++ [call (request 11 3 2) (turns 7), poll 4]

/-- **An order that is processing before it is finalized.** -/
theorem processing_too_early :
    ¬ ∀ c, Reachable Demo.oracle Demo.settings c → FollowProtocol c.shared.log := by
  intro hall
  have hrun : (Demo.run (fun _ _ => true) Demo.polledEarly).any (fun c =>
      (c.shared.log.any fun e => Demo.answers e (Demo.uuid 3) .processing) &&
      !finalized c.shared.log (Demo.uuid 3)) = true := by decide +kernel
  obtain ⟨c, hc, h⟩ := (Option.any_eq_true _ _).mp hrun
  simp only [Bool.and_eq_true, List.any_eq_true] at h
  obtain ⟨⟨e, he, ha⟩, hnone⟩ := h
  obtain ⟨⟨a, p, hpc⟩, ha⟩ := Demo.answers_sound ha
  obtain ⟨l₂, l₁, hlog⟩ := List.append_of_mem he
  obtain ⟨w, hw, hf⟩ := (hall c (Demo.reach (fun _ _ => trivial) hc)).processing
    l₂ e l₁ a _ p hlog hpc ha
  have hfin : Finalized c.shared.log (Demo.uuid 3) :=
    ⟨w, hlog ▸ List.mem_append_right l₂ (List.mem_cons_of_mem e hw), hf⟩
  rw [finalized_iff.mpr hfin] at hnone
  cases hnone

end Jackdaw
