import Jackdaw.Relay.History

/-!
# Relay — rows, and what a task knows of them

An order has one identifier and one authorization, which names it (`Db.Linked`).  A task that has
loaded a row knows its fixed columns from then on; a task in its transaction knows what it is
about to do to the row as well, because nobody else writes (`Task.Knows`).  Both hold at every
reached state, for any steps the run is made of.
-/

namespace Jackdaw

open Support Support.Interleave

/-! ### What is known -/

/-- The order is there, with the fixed columns of `order`. -/
def Db.HasOrder (db : Db) (id : String) (order : Order) : Prop :=
  ∃ r, db.orders.get id = some r ∧ r.fixed = order.fixed

/-- The authorization is there, with the fixed columns of `authz`. -/
def Db.HasAuthz (db : Db) (z : String) (authz : Authorization) : Prop :=
  ∃ r, db.authorizations.get z = some r ∧ r.fixed = authz.fixed

theorem Db.HasOrder.grows {db db' : Db} {id : String} {order : Order} (h : db.HasOrder id order)
    (hg : db.Grows db') : db'.HasOrder id order := by
  obtain ⟨r, hr, hf⟩ := h
  obtain ⟨r', hr', hf'⟩ := hg.orders hr
  exact ⟨r', hr', hf'.trans hf⟩

theorem Db.HasAuthz.grows {db db' : Db} {z : String} {authz : Authorization}
    (h : db.HasAuthz z authz) (hg : db.Grows db') : db'.HasAuthz z authz := by
  obtain ⟨r, hr, hf⟩ := h
  obtain ⟨r', hr', hf'⟩ := hg.authorizations hr
  exact ⟨r', hr', hf'.trans hf⟩

/-- The authorization is there, and is one of order `id`. -/
def Db.AuthzOf (db : Db) (z id : String) : Prop :=
  ∃ r, db.authorizations.get z = some r ∧ r.orderId = id

theorem Db.AuthzOf.grows {db db' : Db} {z id : String} (h : db.AuthzOf z id)
    (hg : db.Grows db') : db'.AuthzOf z id := by
  obtain ⟨r, hr, rfl⟩ := h
  obtain ⟨r', hr', hf⟩ := hg.authorizations hr
  exact ⟨r', hr', (Authorization.fixed_eq hf).1⟩

theorem Db.AuthzOf.unique {db : Db} {z id id' : String} (h : db.AuthzOf z id)
    (h' : db.AuthzOf z id') : id = id' := by
  obtain ⟨r, hr, rfl⟩ := h
  obtain ⟨r', hr', rfl⟩ := h'
  rw [hr] at hr'
  cases hr'
  rfl

theorem Db.HasAuthz.authzOf {db : Db} {z : String} {authz : Authorization}
    (h : db.HasAuthz z authz) : db.AuthzOf z authz.orderId := by
  obtain ⟨r, hr, hf⟩ := h
  exact ⟨r, hr, (Authorization.fixed_eq hf).1⟩

/-- Every authorization has its order, whose one identifier it is for, and an order has no
second authorization. -/
structure Db.Linked (db : Db) : Prop where
  order : ∀ {z r}, db.authorizations.get z = some r →
    ∃ order, db.orders.get r.orderId = some order ∧ order.identifiers = [⟨"dns", r.identifier⟩]
  unique : ∀ {z z' r r'}, db.authorizations.get z = some r →
    db.authorizations.get z' = some r' → r.orderId = r'.orderId → z = z'

/-- The rows `new_order` is about to insert. -/
def Placed (id : String) (row : Order) (authzs : List (String × Authorization)) : Prop :=
  ∃ v z r, row.identifiers = [⟨"dns", v⟩] ∧ authzs = [(z, r)] ∧ r.orderId = id ∧ r.identifier = v

/-- The flush of the order an `acknowledge_challenge` is about to send. -/
def ackFlush (db : Db) (id : String) : List Dml :=
  if db.orderStatus id = some .pending then
    [.updateOrder id { status := some .processing }] else []

/-- What task `i` knows where it is suspended, with the statements `tx` sent. -/
def Pc.Knows (i : Nat) (s : Shared) (tx : List Dml) : Pc → Prop
  | .newOrder _ (.count ids _) => ∃ v, ids = [⟨"dns", v⟩]
  | .newOrder _ (.commit id row authzs) => Placed id row authzs
  | .finalize _ id (.update order _ domain) =>
      s.db.HasOrder id order ∧ order.identifiers.head?.map Identifier.value = some domain
  | .finalize _ id (.commit order _ domain rowcount) =>
      (s.db.HasOrder id order ∧ order.identifiers.head?.map Identifier.value = some domain) ∧
        s.lock = some i ∧ tx = [.claimOrder id] ∧
        (rowcount ≠ 0 ↔ s.db.orderStatus id = some .ready)
  | .challenge _ z (.owner authz) => s.db.HasAuthz z authz
  | .challenge _ z (.flush authz) => s.db.HasAuthz z authz ∧ authz.status = .pending
  | .challenge _ z (.commit authz flush) =>
      s.db.HasAuthz z authz ∧ s.lock = some i ∧
        tx = [.updateAuthz z { status := some .processing }] ∧
        flush = ackFlush s.db authz.orderId
  | .runChallenge z id _ => s.db.AuthzOf z id ∧ ∀ d ∈ tx, ∃ p, d = .updateAuthz z p
  | _ => True

theorem Pc.Knows.later {i : Nat} {s s' : Shared} {tx : List Dml} {pc : Pc} (h : pc.Knows i s tx)
    (hl : Shared.Later i s s') : pc.Knows i s' tx := by
  cases pc with
  | newOrder a p => cases p <;> exact h
  | finalize a id p =>
      cases p with
      | update order csrDer domain => exact ⟨h.1.grows hl.grows, h.2⟩
      | commit order csrDer domain rowcount =>
          obtain ⟨⟨h₁, h₂⟩, hlock, htx, hrow⟩ := h
          obtain ⟨hlock', hdb⟩ := hl.held hlock
          refine ⟨⟨h₁.grows hl.grows, h₂⟩, hlock', htx, ?_⟩
          rw [hdb]
          exact hrow
      | get _ | status | authzs _ => trivial
  | challenge a z p =>
      cases p with
      | owner authz => exact Db.HasAuthz.grows h hl.grows
      | flush authz => exact ⟨h.1.grows hl.grows, h.2⟩
      | commit authz flush =>
          obtain ⟨h₁, hlock, htx, hflush⟩ := h
          obtain ⟨hlock', hdb⟩ := hl.held hlock
          refine ⟨h₁.grows hl.grows, hlock', htx, ?_⟩
          rw [hdb]
          exact hflush
      | get => trivial
  | runChallenge z id p => exact ⟨h.1.grows hl.grows, h.2⟩
  | _ => trivial

/-! ### How it comes to be known -/

section

variable {o : Oracle} {cfg : Settings}

theorem validateIdentifiers_ok {ids : List Identifier} {u : Unit}
    (h : validateIdentifiers ids = .ok u) : ∃ v, ids = [⟨"dns", v⟩] := by
  unfold validateIdentifiers at h
  obtain ⟨_, h₁, h⟩ := ok_of_bind h
  obtain ⟨_, h₂, h₃⟩ := ok_of_bind h
  simp only [reject_eq_ok, decide_eq_false_iff_not, Nat.not_lt] at h₁ h₂ h₃
  rcases ids with _ | ⟨⟨type, v⟩, _ | ⟨_, _⟩⟩
  · simp at h₁
  · simp only [List.any_cons, List.any_nil, Bool.or_false, Bool.or_eq_false_iff,
      decide_eq_false_iff_not, not_not] at h₃
    obtain ⟨rfl, -⟩ := h₃
    exact ⟨v, rfl⟩
  · simp at h₂

theorem placeOrder_placed {a v : String} {now : Int} {ch : Choice} {seg : Seg NewOrderPc}
    (h : placeOrder a [⟨"dns", v⟩] now ch = some seg) :
    seg.Reads fun p => ∀ i s tx, (Pc.newOrder a p).Knows i s tx := by
  unfold placeOrder at h
  split at h
  · rename_i hch
    simp only [Bool.and_eq_true, decide_eq_true_eq] at hch
    cases Option.some.inj h
    obtain ⟨⟨z, token⟩, hz⟩ := List.length_eq_one_iff.mp hch.2
    rw [hz]
    exact .goto fun _ _ _ => ⟨v, z, _, rfl, rfl, rfl, rfl⟩
  · cases h

theorem newOrderStart_knows {a : String} {payload : Json} {now : Int} {ch : Choice}
    {seg : Seg NewOrderPc} (h : newOrderStart o cfg a payload now ch = some seg) :
    seg.Reads fun p => ∀ i s tx, (Pc.newOrder a p).Knows i s tx := by
  unfold newOrderStart at h
  split at h
  · cases Option.some.inj h
    exact .fail _
  · split at h
    · cases Option.some.inj h
      exact .fail _
    · rename_i hv
      obtain ⟨_, hv, -⟩ := ok_of_bind hv
      obtain ⟨v, rfl⟩ := validateIdentifiers_ok hv
      split at h
      · cases Option.some.inj h
        exact .goto fun _ _ _ => ⟨v, rfl⟩
      · exact placeOrder_placed h

theorem finalizeChecks_ok {order : Order} {csr : String} {csrDer : List UInt8} {domain : String}
    (h : finalizeChecks order csr = .ok (csrDer, domain)) :
    order.status = .ready ∧ order.identifiers.head?.map Identifier.value = some domain := by
  unfold finalizeChecks at h
  split at h
  · cases h
  · rename_i hst
    obtain ⟨_, -, h⟩ := ok_of_bind h
    obtain ⟨ident, hid, h⟩ := ok_of_bind h
    cases h
    rw [orElse_eq_ok] at hid
    exact ⟨not_not.mp hst, by rw [hid]; rfl⟩

theorem Pc.isStart_knows {p : Pc} (h : p.isStart = true) {i : Nat} {s : Shared} {tx : List Dml} :
    p.Knows i s tx := by
  unfold Pc.isStart at h
  split at h <;> trivial

/-- What a task knows when `verify_jws` has handed over to its handler. -/
theorem routeStart_knows {req : Request} {a : String} {payload : Json} {now : Int} {ch : Choice}
    {seg : Seg Pc} (h : routeStart o cfg req a payload now ch = some seg) :
    seg.Reads fun p => ∀ i s tx, p.Knows i s tx := by
  rcases routeStart_cases h with ⟨seg', -, h', rfl⟩ | hr
  · exact (newOrderStart_knows h').map _
  · exact hr.mono fun p hp _ _ _ => p.isStart_knows hp.1

/-- The count of the conditional `UPDATE` of `finalize_order`. -/
theorem claim_count {db : Db} {id : String} :
    (db.orders.count fun k r => decide (k = id) && decide (r.status = .ready)) ≠ 0 ↔
      db.orderStatus id = some .ready := by
  rw [Table.count_ne_zero, Db.orderStatus_eq_some]
  constructor
  · rintro ⟨k, r, hr, hk⟩
    simp only [Bool.and_eq_true, decide_eq_true_eq] at hk
    obtain ⟨rfl, hst⟩ := hk
    exact ⟨r, hr, hst⟩
  · rintro ⟨r, hr, hst⟩
    exact ⟨id, r, hr, by simp [hst]⟩

theorem flush_pending {z : String} {authz : Authorization} (h : authz.status = .pending) :
    authz.flush z { authz with status := .processing } =
      [.updateAuthz z { status := some .processing }] := by
  simp [Authorization.flush, changed, h]

theorem flush_order_pending {db : Db} {id : String} :
    (match db.orders.get id with
      | none => []
      | some order =>
          if order.status = .pending then order.flush id { order with status := .processing }
          else []) = ackFlush db id := by
  unfold ackFlush Db.orderStatus
  cases hr : db.orders.get id with
  | none => rfl
  | some order =>
      by_cases hst : order.status = .pending
      · simp [hst, Order.flush, changed]
      · simp [hst]

variable {c : Relay} {i : Nat} {t u : Task} {seg : Seg Pc} {out : Outcome Shared Task}

/-- A turn that reads what the task it leaves knows. -/
theorem Turn.reads_knows (h : Turn o cfg c i t seg out) (hu : out.self = some u)
    (hr : seg.Reads fun p => ∀ s : Shared, s.db = c.shared.db → p.Knows i s u.tx) :
    u.pc.Knows i out.shared u.tx := by
  obtain ⟨hk, hdb, -⟩ := h.reads hr hu
  exact hk _ hdb

/-- A turn that has sent a transaction's first statements holds the lock. -/
theorem Turn.sends (h : Turn o cfg c i t seg out) (hu : out.self = some u)
    (hin : t.pc.inTx = false) (hc : seg.commit = false) :
    u.tx = seg.write ∧ out.shared.db = c.shared.db ∧
      (seg.write ≠ [] → out.shared.lock = some i) := by
  have htx : u.tx = seg.write := by
    rw [(h.self hu).2, hc, h.tx_nil hin]
    rfl
  exact ⟨htx, h.db_eq hc, fun hw => (h.self_sane hu).lock (htx ▸ hw)⟩

theorem Turn.knows_newOrder (h : Turn o cfg c i t seg out) (hu : out.self = some u)
    {a : String} {p : NewOrderPc} (hpc : t.pc = .newOrder a p)
    (hk : t.pc.Knows i c.shared t.tx) : u.pc.Knows i out.shared u.tx := by
  obtain ⟨ch, hseg⟩ := h.goes_on hu
  rw [hpc] at hseg hk
  obtain ⟨seg', h', rfl⟩ := Option.map_eq_some_iff.mp hseg
  cases p with
  | count ids start =>
      obtain ⟨v, rfl⟩ := hk
      refine h.reads_knows hu (.map _ ?_)
      simp only [newOrderSeg] at h'
      split at h'
      · cases Option.some.inj h'
        exact .fail _
      · exact (placeOrder_placed h').mono fun p hp s _ => hp _ _ _
  | commit id row authzs =>
      cases Option.some.inj h'
      cases (h.self hu).1

theorem Turn.knows_finalize (h : Turn o cfg c i t seg out) (hu : out.self = some u)
    {a id : String} {p : FinalizePc} (hpc : t.pc = .finalize a id p)
    (hk : t.pc.Knows i c.shared t.tx) : u.pc.Knows i out.shared u.tx := by
  obtain ⟨ch, hseg⟩ := h.goes_on hu
  have hn := (h.self hu).1
  rw [hpc] at hseg hk
  have hseg := Option.some.inj hseg
  cases p with
  | get csr =>
      refine h.reads_knows hu (hseg ▸ .map _ (.attempt fun order ho =>
        .attempt fun (csrDer, domain) hch => .goto fun s hs => ?_))
      exact ⟨⟨order, hs ▸ (requireOrderOwner_ok ho).1, rfl⟩, (finalizeChecks_ok hch).2⟩
  | update order csrDer domain =>
      subst hseg
      obtain ⟨htx, hdb, hlock⟩ := h.sends hu (by rw [hpc]; rfl) rfl
      rw [← Next.goto.inj hn, htx]
      refine ⟨?_, hlock (List.cons_ne_nil _ _), rfl, ?_⟩
      · rw [hdb]
        exact hk
      · rw [hdb]
        exact claim_count
  | commit order csrDer domain rowcount =>
      simp only [finalizeSeg] at hseg
      split at hseg
      all_goals
        subst hseg
        rw [← Next.goto.inj hn]
        trivial
  | status => exact absurd hn (hseg ▸ ((Seg.fail_quiet _).map _).next _)
  | authzs order => exact absurd hn (hseg ▸ ((Seg.respond_quiet _).map _).next _)

theorem Turn.knows_challenge (h : Turn o cfg c i t seg out) (hu : out.self = some u)
    {a z : String} {p : ChallengePc} (hpc : t.pc = .challenge a z p)
    (hk : t.pc.Knows i c.shared t.tx) : u.pc.Knows i out.shared u.tx := by
  obtain ⟨ch, hseg⟩ := h.goes_on hu
  have hn := (h.self hu).1
  rw [hpc] at hseg hk
  have hseg := Option.some.inj hseg
  cases p with
  | get =>
      refine h.reads_knows hu (hseg ▸ .map _ (.attempt fun authz ha => .goto fun s hs => ?_))
      exact ⟨authz, hs ▸ orElse_eq_ok.mp ha, rfl⟩
  | owner authz =>
      rcases hx : requireParentOwner a (c.shared.db.orders.get authz.orderId) with e | x
      · simp only [challengeSeg, hx] at hseg
        exact absurd hn (hseg ▸ ((Seg.fail_quiet _).map _).next _)
      · simp only [challengeSeg, hx, Seg.attempt] at hseg
        split at hseg
        · rename_i hst
          refine h.reads_knows hu (hseg ▸ .map _ (.goto fun s hs => ⟨?_, hst⟩))
          rw [hs]
          exact hk
        · subst hseg
          cases hn
        · exact absurd hn (hseg ▸ ((Seg.fail_quiet _).map _).next _)
  | flush authz =>
      subst hseg
      obtain ⟨htx, hdb, hlock⟩ := h.sends hu (by rw [hpc]; rfl) rfl
      have hw := flush_pending (z := z) hk.2
      rw [← Next.goto.inj hn, htx]
      refine ⟨hdb ▸ hk.1, hlock ?_, hw, ?_⟩
      · show authz.flush z _ ≠ []
        rw [hw]
        exact List.cons_ne_nil _ _
      · rw [hdb]
        exact flush_order_pending
  | commit authz flush =>
      subst hseg
      cases hn

/-- Before its last segment `run_challenge` writes to the authorization only. -/
theorem runChallengeSeg_write {z id : String} {db : Db} {ch : Choice} {p : RunChallengePc}
    (h : (runChallengeSeg o z id db ch p).commit = false) :
    ∀ d ∈ (runChallengeSeg o z id db ch p).write, ∃ q, d = .updateAuthz z q := by
  cases p with
  | commit flush => cases h
  | getAuthz | validate _ _ _ | regetAuthz _ => exact fun _ hd => by cases hd
  | getOrder _ | getAccount _ _ | regetOrder _ _ =>
      simp only [runChallengeSeg]
      repeat' split
      all_goals exact fun _ hd => by cases hd
  | statuses authz order =>
      intro d hd
      obtain ⟨q, e, -⟩ := Authorization.mem_flush hd
      exact ⟨q, e⟩

/-- `run_challenge` commits in its last segment only. -/
theorem runChallengeSeg_commit {z id : String} {db : Db} {ch : Choice} {p : RunChallengePc}
    (h : (runChallengeSeg o z id db ch p).commit = true) : ∃ flush, p = .commit flush := by
  cases p with
  | commit flush => exact ⟨flush, rfl⟩
  | getAuthz | validate _ _ _ | regetAuthz _ | statuses _ _ => cases h
  | getOrder _ | getAccount _ _ | regetOrder _ _ =>
      simp only [runChallengeSeg] at h
      repeat' split at h
      all_goals cases h

theorem Turn.knows_runChallenge (h : Turn o cfg c i t seg out) (hu : out.self = some u)
    {z id : String} {p : RunChallengePc} (hpc : t.pc = .runChallenge z id p)
    (hk : t.pc.Knows i c.shared t.tx) : u.pc.Knows i out.shared u.tx := by
  obtain ⟨ch, hseg⟩ := h.goes_on hu
  obtain ⟨hn, htx⟩ := h.self hu
  rw [hpc] at hseg hk
  have hseg := Option.some.inj hseg
  subst hseg
  obtain ⟨q, -, e⟩ := Next.map_eq_goto hn
  rw [e]
  refine ⟨hk.1.grows h.grows, fun d hd => ?_⟩
  rw [htx] at hd
  split at hd
  · cases hd
  · rename_i hc
    rcases List.mem_append.mp hd with hd | hd
    · exact hk.2 d hd
    · exact runChallengeSeg_write (Bool.not_eq_true _ ▸ hc) d hd

/-- **What the task a turn leaves knows.** -/
theorem Turn.knows (h : Turn o cfg c i t seg out) (hu : out.self = some u)
    (hk : t.pc.Knows i c.shared t.tx) : u.pc.Knows i out.shared u.tx := by
  obtain ⟨ch, hseg⟩ := h.goes_on hu
  have hn := (h.self hu).1
  cases hpc : t.pc with
  | jws req p =>
      rw [hpc] at hseg
      cases p with
      | verify =>
          exact h.reads_knows hu ((Option.some.inj hseg) ▸ .attempt fun _ _ =>
            .goto fun _ _ => trivial)
      | consume a nonce payload cutoff =>
          cases Option.some.inj hseg
          rw [← Next.goto.inj hn]
          trivial
      | commit a payload rowcount =>
          simp only [Pc.seg, jwsSeg] at hseg
          split at hseg
          · cases Option.some.inj hseg
            exact absurd hn ((Seg.fail_quiet _).next _)
          · obtain ⟨seg', h', rfl⟩ := Option.map_eq_some_iff.mp hseg
            exact (routeStart_knows h').of_goto hn _ _ _
  | newOrder a p => exact h.knows_newOrder hu hpc hk
  | finalize a id p => exact h.knows_finalize hu hpc hk
  | challenge a z p => exact h.knows_challenge hu hpc hk
  | runChallenge z id p => exact h.knows_runChallenge hu hpc hk
  | newAccount _ | processFinalize _ _ _ _ =>
      rw [hpc] at hseg
      obtain ⟨seg', -, rfl⟩ := Option.map_eq_some_iff.mp hseg
      obtain ⟨q, -, e⟩ := Next.map_eq_goto hn
      rw [e]
      trivial
  | keyChange _ _ | getOrder _ _ _ | getAuthz _ _ _ | downloadCert _ _ _ | revokeCert _ _
  | reset _ | nonce _ | prune _ =>
      rw [hpc] at hseg
      cases Option.some.inj hseg
      obtain ⟨q, -, e⟩ := Next.map_eq_goto hn
      rw [e]
      trivial

/-- A task is created for an authorization of its order. -/
theorem Turn.knows_child (h : Turn o cfg c i t seg out) (hk : t.pc.Knows i c.shared t.tx) {b : Bg}
    (hb : seg.spawn = some b) {n : Nat} : b.pc.Knows n out.shared [] := by
  have hs := h.proper.spawn b hb
  unfold Pc.Spawns at hs
  split at hs
  · rw [hs.2]
    trivial
  · rename_i hpc
    rw [hpc] at hk
    rw [hs.2]
    exact ⟨(Db.HasAuthz.authzOf hk).grows h.grows, List.forall_mem_nil _⟩
  · rename_i hpc
    rw [hpc] at hk
    rw [hs]
    exact ⟨hk.1.authzOf.grows h.grows, List.forall_mem_nil _⟩
  · exact hs.elim

/-! ### Rows stay linked -/

/-- The transaction of `new_order`. -/
theorem Db.Linked.place {db db' : Db} (hl : db.Linked) {id z v : String} {row : Order}
    {r : Authorization} (hid : row.identifiers = [⟨"dns", v⟩]) (ho : r.orderId = id)
    (hi : r.identifier = v)
    (h : Dml.execAll [.insertOrder id row, .insertAuthz z r] db = some db') : db'.Linked := by
  obtain ⟨db₁, h₁, h⟩ := Option.bind_eq_some_iff.mp h
  obtain ⟨db₂, h₂, h⟩ := Option.bind_eq_some_iff.mp h
  cases Option.some.inj h
  obtain ⟨t, ht, rfl⟩ := Option.map_eq_some_iff.mp h₁
  obtain ⟨t', ht', rfl⟩ := Option.map_eq_some_iff.mp h₂
  have hnew : ∀ k, t.get k = if k = id then some row else db.orders.get k := Table.get_insert? ht
  have hfree : db.orders.get id = none := Table.get_of_insert? ht
  -- an older authorization is not one of the new order
  have hold : ∀ {w : String} {q : Authorization}, db.authorizations.get w = some q →
      q.orderId ≠ id := by
    intro w q hq e
    obtain ⟨order, he, -⟩ := hl.order hq
    rw [e, hfree] at he
    cases he
  constructor
  · intro w q hq
    show ∃ order, t.get q.orderId = some order ∧ _
    rcases get_of_get_insert? ht' hq with hq | ⟨-, rfl⟩
    · obtain ⟨order, he, hident⟩ := hl.order hq
      refine ⟨order, ?_, hident⟩
      rw [hnew, if_neg (hold hq)]
      exact he
    · refine ⟨row, ?_, by rw [hid, hi]⟩
      rw [hnew, if_pos ho]
  · intro w w' q q' hq hq' e
    rcases get_of_get_insert? ht' hq with hq | ⟨rfl, rfl⟩
    · rcases get_of_get_insert? ht' hq' with hq' | ⟨rfl, rfl⟩
      · exact hl.unique hq hq' e
      · exact absurd (e.trans ho) (hold hq)
    · rcases get_of_get_insert? ht' hq' with hq' | ⟨rfl, rfl⟩
      · exact absurd (e.symm.trans ho) (hold hq')
      · rfl

/-- A transaction that inserts no authorization. -/
theorem Db.Linked.keep {db db' : Db} (hl : db.Linked) (hg : db.Grows db')
    (h : ∀ {z r'}, db'.authorizations.get z = some r' →
      ∃ r, db.authorizations.get z = some r ∧ r'.fixed = r.fixed) : db'.Linked where
  order hr' := by
    obtain ⟨r, hr, hf⟩ := h hr'
    obtain ⟨ho, hi, -⟩ := Authorization.fixed_eq hf
    obtain ⟨order, he, hident⟩ := hl.order hr
    obtain ⟨order', he', hf'⟩ := hg.orders he
    rw [ho, hi]
    exact ⟨order', he', (Order.fixed_eq hf').2.1.trans hident⟩
  unique hr' hs' e := by
    obtain ⟨r, hr, hf⟩ := h hr'
    obtain ⟨q, hq, hf'⟩ := h hs'
    refine hl.unique hr hq ?_
    rw [← (Authorization.fixed_eq hf).1, ← (Authorization.fixed_eq hf').1, e]

/-- **Where orders and authorizations come from**: a turn inserts an order together with its
authorization, both pending, or it inserts none. -/
theorem Turn.places (h : Turn o cfg c i t seg out) (hk : t.pc.Knows i c.shared t.tx) :
    (∃ id row z v r, row.identifiers = [⟨"dns", v⟩] ∧ r.orderId = id ∧ r.identifier = v ∧
      (row.status = .pending ∧ row.certId = none ∧ row.error = none) ∧
      (r.status = .pending ∧ r.error = none) ∧ (∃ a p, t.pc = .newOrder a p) ∧
      Dml.execAll [.insertOrder id row, .insertAuthz z r] c.shared.db = some out.shared.db) ∨
    (∀ {z r'}, out.shared.db.authorizations.get z = some r' →
      ∃ r, c.shared.db.authorizations.get z = some r ∧ r'.fixed = r.fixed) ∧
    ∀ {id r'}, out.shared.db.orders.get id = some r' →
      ∃ r, c.shared.db.orders.get id = some r ∧ r'.fixed = r.fixed := by
  rcases h.committed with e | ⟨hc, e⟩
  · rw [e]
    exact .inr ⟨fun hr => ⟨_, hr, rfl⟩, fun hr => ⟨_, hr, rfl⟩⟩
  · obtain ⟨ch, hseg⟩ := h.commits hc
    by_cases hnew : ∃ a p, t.pc = .newOrder a p
    · obtain ⟨a, p, hpc⟩ := hnew
      left
      have hpend := h.sane.pending
      rw [hpc] at hseg hk hpend
      obtain ⟨seg', h', rfl⟩ := Option.map_eq_some_iff.mp hseg
      rw [h.tx_nil (by rw [hpc]; rfl)] at e
      cases p with
      | count ids start =>
          simp only [newOrderSeg] at h'
          split at h'
          · cases Option.some.inj h'
            cases hc
          · rw [Seg.map_commit, (placeOrder_reads h').commit] at hc
            cases hc
      | commit id row authzs =>
          cases Option.some.inj h'
          obtain ⟨v, z, r, hid, rfl, ho, hi⟩ := hk
          have hrow := hpend _ List.mem_cons_self
          have hr := hpend _ (List.mem_cons_of_mem _ List.mem_cons_self)
          exact ⟨id, row, z, v, r, hid, ho, hi, ⟨hrow.2.1, hrow.2.2.1, hrow.2.2.2.1⟩, hr,
            ⟨a, _, hpc⟩, e⟩
    · -- nobody else inserts one
      have hno : ∀ d ∈ t.tx ++ seg.write, (∀ z row, d ≠ .insertAuthz z row) ∧
          ∀ id row, d ≠ .insertOrder id row := by
        intro d hd
        have hmay := h.may_statement hd
        constructor <;> rintro k row rfl <;> cases hpc : t.pc <;> rw [hpc] at hmay <;>
          first | exact hmay | exact hnew ⟨_, _, hpc⟩
      refine .inr ⟨fun hr' => ?_, fun {id r'} hr' => ?_⟩
      · rcases Dml.execAll_authorizations e hr' with hr | ⟨row, hd⟩
        · exact hr
        · exact absurd rfl ((hno _ hd).1 _ row)
      · refine Dml.execAll_induction (R := fun a b => ∀ r', b.orders.get id = some r' →
          ∃ r, a.orders.get id = some r ∧ r'.fixed = r.fixed) (fun _ r hr => ⟨r, hr, rfl⟩) ?_ ?_ e r' hr'
        · intro a b d h₁ h₂ r' hr'
          obtain ⟨r, hr, hf⟩ := h₂ r' hr'
          obtain ⟨r₀, hr₀, hf₀⟩ := h₁ r hr
          exact ⟨r₀, hr₀, hf.trans hf₀⟩
        · intro d hd a b hab r' hr'
          rcases Dml.exec_order hab hr' with hr | hd'
          · exact hr
          · exact absurd hd' ((hno d hd).2 _ _)

/-- An authorization that appears is pending, and its order with it. -/
theorem Turn.placed (h : Turn o cfg c i t seg out) (hk : t.pc.Knows i c.shared t.tx)
    {z id : String} (hz : out.shared.db.AuthzOf z id) :
    c.shared.db.AuthzOf z id ∨ out.shared.db.authzStatus z = some .pending ∧
      out.shared.db.orderStatus id = some .pending := by
  obtain ⟨r, hr, rfl⟩ := hz
  rcases h.places hk with ⟨k, row, z', v, r', -, ho, -, ⟨hrow, -⟩, ⟨hst, -⟩, -, e⟩ | ⟨hkeep, -⟩
  · obtain ⟨db₁, h₁, e⟩ := Option.bind_eq_some_iff.mp e
    obtain ⟨db₂, h₂, e⟩ := Option.bind_eq_some_iff.mp e
    rw [← Option.some.inj e] at hr ⊢
    obtain ⟨tab, ht, rfl⟩ := Option.map_eq_some_iff.mp h₁
    obtain ⟨tab', ht', rfl⟩ := Option.map_eq_some_iff.mp h₂
    rcases get_of_get_insert? ht' hr with hr | ⟨rfl, rfl⟩
    · exact .inl ⟨r, hr, rfl⟩
    · refine .inr ⟨Db.authzStatus_eq_some.mpr ⟨r', hr, hst⟩, ?_⟩
      refine Db.orderStatus_eq_some.mpr ⟨row, ?_, hrow⟩
      show tab.get r'.orderId = some row
      rw [Table.get_insert? ht, if_pos ho]
  · obtain ⟨r₀, hr₀, hf⟩ := hkeep hr
    exact .inl ⟨r₀, hr₀, (Authorization.fixed_eq hf).1.symm⟩

theorem Turn.linked (h : Turn o cfg c i t seg out) (hk : t.pc.Knows i c.shared t.tx)
    (hl : c.shared.db.Linked) : out.shared.db.Linked := by
  rcases h.places hk with ⟨id, row, z, v, r, hid, ho, hi, -, -, -, e⟩ | ⟨hkeep, -⟩
  · exact hl.place hid ho hi e
  · exact hl.keep h.grows hkeep

/-- The commit of `new_order` inserts its order. -/
theorem Turn.places_order (h : Turn o cfg c i t seg out) {a id : String} {row : Order}
    {authzs : List (String × Authorization)} (hpc : t.pc = .newOrder a (.commit id row authzs))
    (hc : seg.commit = true) (k : String) :
    out.shared.db.orders.get k = if k = id then some row else c.shared.db.orders.get k := by
  obtain ⟨ch, hseg⟩ := h.commits hc
  rw [hpc] at hseg
  cases Option.some.inj hseg
  rcases h.db with ⟨-, e⟩ | ⟨hcf, -⟩
  · rw [h.tx_nil (by rw [hpc]; rfl)] at e
    obtain ⟨db₁, h₁, e⟩ := Option.bind_eq_some_iff.mp e
    obtain ⟨tab, ht, rfl⟩ := Option.map_eq_some_iff.mp h₁
    -- the statements behind it are about authorizations
    have horders : out.shared.db.orders = tab := by
      refine Dml.execAll_same (n := .orders) e fun d hd => ?_
      obtain ⟨x, -, rfl⟩ := List.mem_map.mp hd
      exact nofun
    rw [horders, Table.get_insert? ht]
  · cases hcf

def rowsSafety (o : Oracle) (cfg : Settings) (P : Relay → Relay → Prop) : Safety o cfg P where
  Inv _ s := s.db.Linked
  Ok i s t := t.pc.Knows i s t.tx
  start := ⟨nofun, nofun⟩
  run _ h _ hI hk := ⟨h.linked hk hI, fun _ hu => h.knows hu hk, fun _ hb => h.knows_child hk hb⟩
  others _ h _ _ _ _ hne hk := hk.later (h.later hne)
  request {c t} _ _ _ hpc := by
    rcases hpc with ⟨req, e⟩ | ⟨p, e⟩ | ⟨cutoff, e⟩ <;> rw [e] <;> trivial
  fresh hI := hI
  clock _ hI := ⟨hI, fun _ _ hk => hk.later Shared.later_clock⟩
  restart hI := ⟨hI, trivial⟩

variable {P : Relay → Relay → Prop}

theorem linked (h : Reach (relay o cfg) P .init c) : c.shared.db.Linked :=
  ((rowsSafety o cfg P).reach h).1

theorem knows (h : Reach (relay o cfg) P .init c) (ht : c.tasks i = some t) :
    t.pc.Knows i c.shared t.tx :=
  ((rowsSafety o cfg P).reach h).2 i t ht

/-! ### Who turns an order ready, and who claims it -/

/-- The statements turn order `id` ready. -/
def SetsReady (id : String) (ds : List Dml) : Prop :=
  ∃ p, .updateOrder id p ∈ ds ∧ p.status = some .ready

/-- **Only the commit of a `run_challenge` turns an order ready.** -/
theorem Turn.turns_ready (h : Turn o cfg c i t seg out) (hk : t.pc.Knows i c.shared t.tx)
    {id : String} (hst : out.shared.db.orderStatus id = some .ready)
    (hne : c.shared.db.orderStatus id ≠ some .ready) :
    ∃ z flush, t.pc = .runChallenge z id (.commit flush) ∧ SetsReady id flush := by
  rcases h.committed with e | ⟨hc, e⟩
  · rw [e] at hst
    exact absurd hst hne
  · rcases Dml.execAll_orderStatus id e with e' | ⟨d, hd, old, st, hs, e'⟩
    · rw [e'] at hst
      exact absurd hst hne
    · rw [hst] at e'
      cases e'
      have hmay := h.may_statement hd
      have hturns := hmay.order hs
      obtain ⟨ch, hseg⟩ := h.commits hc
      cases hpc : t.pc with
      | runChallenge z id' p =>
          rw [hpc] at hturns hseg hk hmay
          obtain ⟨rfl, -⟩ := hturns
          have hseg := Option.some.inj hseg
          subst hseg
          obtain ⟨flush, rfl⟩ := runChallengeSeg_commit hc
          refine ⟨z, flush, rfl, ?_⟩
          cases d with
          | updateOrder k q =>
              obtain ⟨rfl, -, hq⟩ := hs
              rcases List.mem_append.mp hd with hd | hd
              · obtain ⟨_, e⟩ := hk.2 _ hd
                cases e
              · exact ⟨q, hd, hq⟩
          | insertOrder _ _ | claimOrder _ | resetOrders => exact hmay.elim
          | _ => exact hs.elim
      | newOrder _ _ | finalize _ _ _ | processFinalize _ _ _ _ | reset _ | challenge _ _ _ =>
          rw [hpc] at hturns
          simp [Pc.TurnsOrder] at hturns
      | _ =>
          rw [hpc] at hturns
          exact hturns.elim

/-- The claim of a ready order. -/
theorem claim_ready {db db' : Db} {id : String} (h : Dml.execAll [.claimOrder id] db = some db')
    (hr : db.orderStatus id = some .ready) : db'.orderStatus id = some .processing := by
  obtain ⟨r, hr, hst⟩ := Db.orderStatus_eq_some.mp hr
  cases Option.some.inj h
  simp [Db.orderStatus, hr, hst]

/-- The claim of any other order changes nothing. -/
theorem claim_other {db db' : Db} {id k : String} (h : Dml.execAll [.claimOrder id] db = some db')
    (hr : k = id → db.orderStatus id ≠ some .ready) : db'.orders.get k = db.orders.get k := by
  cases Option.some.inj h
  show (Table.updateWhere ..).get k = _
  rw [Table.get_updateWhere]
  cases hk : db.orders.get k with
  | none => rfl
  | some r =>
      by_cases hki : k = id
      · subst hki
        have : r.status ≠ .ready := fun hst => hr rfl (Db.orderStatus_eq_some.mpr ⟨r, hk, hst⟩)
        simp [this]
      · simp [hki]

/-- **The commit of a `finalize_order`.**  It finds the order ready, turns it to processing and
creates the issuing task, or it finds it not ready and changes no order. -/
theorem Turn.finalize_commit (h : Turn o cfg c i t seg out) (hk : t.pc.Knows i c.shared t.tx)
    {a id domain : String} {order : Order} {csrDer : List UInt8} {rowcount : Nat}
    (hpc : t.pc = .finalize a id (.commit order csrDer domain rowcount))
    (hc : seg.commit = true) :
    (rowcount ≠ 0 ∧ c.shared.db.orderStatus id = some .ready ∧
      Dml.execAll [.claimOrder id] c.shared.db = some out.shared.db ∧
      out.shared.db.orderStatus id = some .processing ∧
      seg = { commit := true, spawn := some (.processFinalize id domain csrDer)
              next := .goto (.finalize a id (.authzs order)) }) ∨
    (rowcount = 0 ∧ c.shared.db.orderStatus id ≠ some .ready ∧
      (∀ k, out.shared.db.orders.get k = c.shared.db.orders.get k) ∧
      seg = { commit := true, next := .goto (.finalize a id .status) }) := by
  obtain ⟨ch, hseg⟩ := h.commits hc
  rw [hpc] at hseg hk
  obtain ⟨-, -, htx, hready⟩ := hk
  have hseg := Option.some.inj hseg
  rcases h.db with ⟨-, e⟩ | ⟨hcf, -⟩
  · by_cases hrow : rowcount = 0
    · simp only [finalizeSeg, hrow, if_true] at hseg
      subst hseg
      have hno := fun hr => hready.mpr hr hrow
      rw [htx] at e
      exact .inr ⟨hrow, hno, fun k => claim_other e fun _ => hno, rfl⟩
    · simp only [finalizeSeg, hrow, if_false] at hseg
      subst hseg
      rw [htx] at e
      have hr := hready.mp hrow
      exact .inl ⟨hrow, hr, e, claim_ready e hr, rfl⟩
  · rw [hc] at hcf
    cases hcf

/-- The transaction of `acknowledge_challenge`. -/
theorem ack_exec {db db' : Db} {z id : String} (hz : db.AuthzOf z id)
    (h : Dml.execAll (.updateAuthz z { status := some .processing } :: ackFlush db id) db
      = some db') :
    db'.authzStatus z = some .processing ∧
      (∀ k, k ≠ id ∨ db.orderStatus id ≠ some .pending → db'.orderStatus k = db.orderStatus k) ∧
      (db.orderStatus id = some .pending → db'.orderStatus id = some .processing) := by
  obtain ⟨r, hr, -⟩ := hz
  unfold ackFlush at h
  by_cases hst : db.orderStatus id = some .pending
  · rw [if_pos hst] at h
    cases Option.some.inj h
    obtain ⟨order, ho, -⟩ := Db.orderStatus_eq_some.mp hst
    refine ⟨?_, fun k hk => ?_, fun _ => ?_⟩
    · simp [Db.authzStatus, AuthzPatch.apply, hr]
    · rcases hk with hk | hk
      · simp [Db.orderStatus, hk]
      · exact absurd hst hk
    · simp [Db.orderStatus, OrderPatch.apply, ho]
  · rw [if_neg hst] at h
    cases Option.some.inj h
    refine ⟨?_, fun k _ => rfl, fun hp => absurd hp hst⟩
    simp [Db.authzStatus, AuthzPatch.apply, hr]

/-- `acknowledge_challenge` commits in its last segment only. -/
theorem challengeSeg_commit {a z : String} {db : Db} {p : ChallengePc}
    (h : (challengeSeg cfg a z db p).commit = true) : ∃ authz flush, p = .commit authz flush := by
  cases p with
  | commit authz flush => exact ⟨authz, flush, rfl⟩
  | get =>
      have hr : (challengeSeg cfg a z db .get).Reads fun _ => True :=
        .attempt fun _ _ => .goto trivial
      rw [hr.commit] at h
      cases h
  | owner authz =>
      rcases hx : requireParentOwner a (db.orders.get authz.orderId) with e | x
      · simp only [challengeSeg, hx, Seg.attempt, (Seg.fail_quiet _).commit] at h
        cases h
      · simp only [challengeSeg, hx, Seg.attempt] at h
        split at h
        · cases h
        · cases h
        · rw [(Seg.fail_quiet _).commit] at h
          cases h
  | flush authz => cases h

/-- **The commit of an `acknowledge_challenge`.**  It turns its authorization to processing, and
the order with it if that is pending, and creates the validating task. -/
theorem Turn.challenge_commit (h : Turn o cfg c i t seg out) (hk : t.pc.Knows i c.shared t.tx)
    {a z : String} {p : ChallengePc} (hpc : t.pc = .challenge a z p) (hc : seg.commit = true) :
    ∃ id, c.shared.db.AuthzOf z id ∧ seg.spawn = some (.runChallenge z id) ∧
      out.shared.db.authzStatus z = some .processing ∧
      (∀ k, k ≠ id ∨ c.shared.db.orderStatus id ≠ some .pending →
        out.shared.db.orderStatus k = c.shared.db.orderStatus k) ∧
      (c.shared.db.orderStatus id = some .pending →
        out.shared.db.orderStatus id = some .processing) := by
  obtain ⟨ch, hseg⟩ := h.commits hc
  rw [hpc] at hseg hk
  have hseg := Option.some.inj hseg
  subst hseg
  obtain ⟨authz, flush, rfl⟩ := challengeSeg_commit hc
  obtain ⟨hz, -, htx, rfl⟩ := hk
  rcases h.db with ⟨-, e⟩ | ⟨hcf, -⟩
  · rw [htx] at e
    exact ⟨authz.orderId, hz.authzOf, rfl, ack_exec hz.authzOf e⟩
  · cases hcf

end

end Jackdaw
