import Jackdaw.Db.Grows
import Jackdaw.Relay.Machine

/-!
# Relay — the statements a coroutine sends

`Pc.May` says which statements a coroutine sends at all, from where it is suspended, and
`Pc.seg_proper` that every segment keeps to it: what it writes, what it leaves for a later commit
(`Pc.pending`), where its transaction stays open (`Pc.inTx`) and which task it starts (`Pc.Spawns`).

What follows for statuses is `Pc.May.order` and `Pc.May.authz`: the coroutines that set one, with
the statuses each sets (`Pc.TurnsOrder`, `Pc.TurnsAuthz`).
-/

namespace Jackdaw

open Support Support.Interleave

/-! ### The unit of work -/

@[simp] theorem changed_self {α : Type} [DecidableEq α] (x : α) : changed x x = none :=
  if_pos rfl

theorem changed_eq_some {α : Type} [DecidableEq α] {old new x : α} :
    changed old new = some x ↔ old ≠ new ∧ new = x := by
  unfold changed
  split
  · rename_i e
    simp [e]
  · rename_i hne
    simp [hne]

/-- The statement that writes an order back sets the attributes that differ. -/
theorem Order.eq_of_mem_flush {id : String} {old new : Order} {d : Dml}
    (h : d ∈ old.flush id new) : d = .updateOrder id ⟨changed old.status new.status,
      changed old.certId new.certId, changed old.error new.error⟩ := by
  simp only [Order.flush] at h
  split at h
  · cases h
  · exact List.mem_singleton.mp h

/-- The statement that writes an authorization back sets the attributes that differ. -/
theorem Authorization.eq_of_mem_flush {id : String} {old new : Authorization} {d : Dml}
    (h : d ∈ old.flush id new) : d = .updateAuthz id ⟨changed old.status new.status,
      changed old.error new.error⟩ := by
  simp only [Authorization.flush] at h
  split at h
  · cases h
  · exact List.mem_singleton.mp h

theorem Order.mem_flush {id : String} {old new : Order} {d : Dml} (h : d ∈ old.flush id new) :
    ∃ p, d = .updateOrder id p ∧ ∀ st, p.status = some st → st = new.status :=
  ⟨_, Order.eq_of_mem_flush h, fun _ hst => (changed_eq_some.mp hst).2.symm⟩

theorem Authorization.mem_flush {id : String} {old new : Authorization} {d : Dml}
    (h : d ∈ old.flush id new) :
    ∃ p, d = .updateAuthz id p ∧ ∀ st, p.status = some st → st = new.status :=
  ⟨_, Authorization.eq_of_mem_flush h, fun _ hst => (changed_eq_some.mp hst).2.symm⟩

theorem Account.mem_flush {id key : String} {old : Account} {d : Dml}
    (h : d ∈ old.flush id key) : d = .setAccountKey id key := by
  simp only [Account.flush] at h
  split at h
  · cases h
  · exact List.mem_singleton.mp h

/-! ### Ends of a coroutine -/

/-- The segment has no effect and ends its coroutine. -/
structure Seg.Quiet {P : Type} (seg : Seg P) : Prop where
  write : seg.write = []
  commit : seg.commit = false
  spawn : seg.spawn = none
  next : ∀ p, seg.next ≠ .goto p

namespace Seg

theorem fail_quiet {P : Type} (e : Exn) : (fail e : Seg P).Quiet := by
  cases e <;> exact ⟨rfl, rfl, rfl, nofun⟩

theorem respond_quiet {P : Type} (r : Response) : (respond r : Seg P).Quiet :=
  ⟨rfl, rfl, rfl, nofun⟩

theorem stop_quiet {P : Type} : (stop : Seg P).Quiet := ⟨rfl, rfl, rfl, nofun⟩

theorem Quiet.map {P Q : Type} {seg : Seg P} (h : seg.Quiet) (F : P → Q) : (seg.map F).Quiet where
  write := h.write
  commit := h.commit
  spawn := h.spawn
  next q hq := by
    obtain ⟨p, hp, -⟩ := Next.map_eq_goto hq
    exact h.next p hp

/-- The segment sends nothing: it ends its coroutine, or moves on to a point that is `ok`. -/
def Reads {P : Type} (ok : P → Prop) (seg : Seg P) : Prop :=
  seg.Quiet ∨ ∃ p, seg = .goto p ∧ ok p

theorem Reads.mono {P : Type} {ok ok' : P → Prop} {seg : Seg P} (h : seg.Reads ok)
    (hok : ∀ p, ok p → ok' p) : seg.Reads ok' :=
  h.imp id fun ⟨p, e, hp⟩ => ⟨p, e, hok p hp⟩

theorem Reads.map {P Q : Type} {ok : Q → Prop} {seg : Seg P} (F : P → Q)
    (h : seg.Reads fun p => ok (F p)) : (seg.map F).Reads ok := by
  rcases h with h | ⟨p, rfl, hp⟩
  · exact .inl (h.map F)
  · exact .inr ⟨F p, rfl, hp⟩

theorem Reads.of_goto {P : Type} {ok : P → Prop} {seg : Seg P} (h : seg.Reads ok) {p : P}
    (hp : seg.next = .goto p) : ok p := by
  rcases h with h | ⟨q, rfl, hq⟩
  · exact absurd hp (h.next p)
  · cases hp
    exact hq

theorem Reads.commit {P : Type} {ok : P → Prop} {seg : Seg P} (h : seg.Reads ok) :
    seg.commit = false := by
  rcases h with h | ⟨p, rfl, -⟩
  · exact h.commit
  · rfl

theorem Reads.spawn {P : Type} {ok : P → Prop} {seg : Seg P} (h : seg.Reads ok) :
    seg.spawn = none := by
  rcases h with h | ⟨p, rfl, -⟩
  · exact h.spawn
  · rfl

theorem Reads.fail {P : Type} {ok : P → Prop} (e : Exn) : (fail e : Seg P).Reads ok :=
  .inl (fail_quiet e)

theorem Reads.goto {P : Type} {ok : P → Prop} {p : P} (h : ok p) : (Seg.goto p).Reads ok :=
  .inr ⟨p, rfl, h⟩

/-- A computation that may raise, before a segment that sends nothing. -/
theorem Reads.attempt {α P : Type} {ok : P → Prop} {x : Except Exn α} {f : α → Seg P}
    (h : ∀ a, x = .ok a → (f a).Reads ok) : (Seg.attempt x f).Reads ok := by
  rcases x with e | a
  · exact .fail e
  · exact h a rfl

end Seg

/-! ### Coroutines -/

/-- A coroutine with its arguments. -/
inductive Coroutine where
  | jws (req : Request)
  | newAccount
  | keyChange (accountId : String)
  | newOrder (accountId : String)
  | getOrder (accountId orderId : String)
  | finalize (accountId orderId : String)
  | getAuthz (accountId authzId : String)
  | challenge (accountId authzId : String)
  | downloadCert (accountId certId : String)
  | revokeCert (accountId : String)
  | runChallenge (authzId orderId : String)
  | processFinalize (orderId domain : String) (csrDer : List UInt8)
  | reset
  | nonce
  | prune

/-- The coroutine that is suspended at `pc`. -/
def Pc.coroutine : Pc → Coroutine
  | .jws req _ => .jws req
  | .newAccount _ => .newAccount
  | .keyChange a _ => .keyChange a
  | .newOrder a _ => .newOrder a
  | .getOrder a id _ => .getOrder a id
  | .finalize a id _ => .finalize a id
  | .getAuthz a id _ => .getAuthz a id
  | .challenge a id _ => .challenge a id
  | .downloadCert a id _ => .downloadCert a id
  | .revokeCert a _ => .revokeCert a
  | .runChallenge z id _ => .runChallenge z id
  | .processFinalize id domain csrDer _ => .processFinalize id domain csrDer
  | .reset _ => .reset
  | .nonce _ => .nonce
  | .prune _ => .prune

theorem Pc.eq_jws {pc : Pc} {req : Request} (h : pc.coroutine = .jws req) :
    ∃ p, pc = .jws req p := by
  cases pc <;> cases h
  exact ⟨_, rfl⟩

theorem Pc.eq_getOrder {pc : Pc} {a id : String} (h : pc.coroutine = .getOrder a id) :
    ∃ p, pc = .getOrder a id p := by
  cases pc <;> cases h
  exact ⟨_, rfl⟩

theorem Pc.eq_finalize {pc : Pc} {a id : String} (h : pc.coroutine = .finalize a id) :
    ∃ p, pc = .finalize a id p := by
  cases pc <;> cases h
  exact ⟨_, rfl⟩

theorem Pc.eq_challenge {pc : Pc} {a z : String} (h : pc.coroutine = .challenge a z) :
    ∃ p, pc = .challenge a z p := by
  cases pc <;> cases h
  exact ⟨_, rfl⟩

theorem Pc.eq_runChallenge {pc : Pc} {z id : String} (h : pc.coroutine = .runChallenge z id) :
    ∃ p, pc = .runChallenge z id p := by
  cases pc <;> cases h
  exact ⟨_, rfl⟩

theorem Pc.eq_reset {pc : Pc} (h : pc.coroutine = .reset) : ∃ p, pc = .reset p := by
  cases pc <;> cases h
  exact ⟨_, rfl⟩

theorem Pc.eq_processFinalize {pc : Pc} {id domain : String} {csrDer : List UInt8}
    (h : pc.coroutine = .processFinalize id domain csrDer) :
    ∃ p, pc = .processFinalize id domain csrDer p := by
  cases pc <;> cases h
  exact ⟨_, rfl⟩

/-- The handler of a route, for the account `verify_jws` returned. -/
def Route.coroutine (accountId : String) : Route → Coroutine
  | .newAccount => .newAccount
  | .keyChange => .keyChange accountId
  | .newOrder => .newOrder accountId
  | .order id => .getOrder accountId id
  | .finalize id => .finalize accountId id
  | .authz id => .getAuthz accountId id
  | .challenge id => .challenge accountId id
  | .cert id => .downloadCert accountId id
  | .revokeCert => .revokeCert accountId

/-- Is a handler suspended at its first statement? -/
def Pc.isStart : Pc → Bool
  | .newAccount (.select _ _ _) => true
  | .keyChange _ (.account _ _) => true
  | .getOrder _ _ .get => true
  | .finalize _ _ (.get _) => true
  | .getAuthz _ _ .get => true
  | .challenge _ _ .get => true
  | .downloadCert _ _ .get => true
  | .revokeCert _ (.select _) => true
  | _ => false

/-! ### What a coroutine sends -/

/-- The statements a coroutine sends, by where it is suspended. -/
def Pc.May : Pc → Dml → Prop
  | .jws _ _ => fun
    | .consumeNonce _ _ => True
    | _ => False
  | .newAccount _ => fun
    | .insertAccount id _ => isUuid id = true
    | _ => False
  | .keyChange a _ => fun
    | .setAccountKey id _ => id = a
    | _ => False
  | .newOrder a _ => fun
    | .insertOrder _ row =>
        row.accountId = a ∧ row.status = .pending ∧ row.certId = none ∧ row.error = none ∧
          row.expiresAt = some (row.createdAt + days 1)
    | .insertAuthz _ row => row.status = .pending ∧ row.error = none
    | _ => False
  | .finalize _ id _ => fun
    | .claimOrder id' => id' = id
    | _ => False
  | .challenge _ z _ => fun
    | .updateAuthz z' p => z' = z ∧ ∀ st, p.status = some st → st = .processing
    | .updateOrder _ p => (∀ st, p.status = some st → st = .processing) ∧ p.certId = none
    | _ => False
  | .runChallenge z id _ => fun
    | .updateAuthz z' p => z' = z ∧ ∀ st, p.status = some st → st = .valid ∨ st = .invalid
    | .updateOrder id' p =>
        id' = id ∧ (∀ st, p.status = some st → st = .ready ∨ st = .invalid) ∧ p.certId = none
    | _ => False
  | .processFinalize id _ _ _ => fun
    | .updateOrder id' p => id' = id ∧ ∀ st, p.status = some st → st = .valid ∨ st = .invalid
    | .insertCert _ row => row.orderId = id
    | _ => False
  | .reset _ => fun
    | .resetOrders | .resetAuthzs => True
    | _ => False
  | .nonce _ => fun
    | .insertNonce _ _ => True
    | _ => False
  | .prune _ => fun
    | .pruneNonces _ => True
    | _ => False
  | .getOrder _ _ _ | .getAuthz _ _ _ | .downloadCert _ _ _ | .revokeCert _ _ => fun _ => False

/-- The statements a suspended coroutine has decided on and not sent. -/
def Pc.pending : Pc → List Dml
  | .newAccount (.commit id row _) => [.insertAccount id row]
  | .newOrder _ (.commit id row authzs) =>
      .insertOrder id row :: authzs.map fun a => .insertAuthz a.1 a.2
  | .challenge _ _ (.commit _ flush) => flush
  | .runChallenge _ _ (.commit flush) => flush
  | .processFinalize _ _ _ (.store _ k cert) => [.insertCert k cert]
  | .processFinalize _ _ _ (.commit flush) => flush
  | _ => []

/-- Is a transaction open where the coroutine is suspended? -/
def Pc.inTx : Pc → Bool
  | .jws _ (.commit _ _ _) => true
  | .challenge _ _ (.commit _ _) => true
  | .finalize _ _ (.commit _ _ _ _) => true
  | .runChallenge _ _ (.commit _) => true
  | .reset .authzs => true
  | .reset .commit => true
  | .prune .commit => true
  | _ => false

/-- The pending statements are the coroutine's own. -/
def Pc.PendingOk (pc : Pc) : Prop := ∀ d ∈ pc.pending, pc.May d

theorem Pc.PendingOk.none {pc : Pc} (h : pc.pending = []) : pc.PendingOk := by
  intro d hd
  rw [h] at hd
  cases hd

/-- The tasks a coroutine creates from where it is suspended: `finalize_order` one once it has won
its claim, `acknowledge_challenge` one when it found the authorization processing or has turned
it so. -/
def Pc.Spawns : Pc → Bg → Prop
  | .finalize _ id (.commit _ csrDer domain rowcount), b =>
      rowcount ≠ 0 ∧ b = .processFinalize id domain csrDer
  | .challenge _ z (.owner authz), b =>
      authz.status = .processing ∧ b = .runChallenge z authz.orderId
  | .challenge _ z (.commit authz _), b => b = .runChallenge z authz.orderId
  | _, _ => False

/-- The segment of a coroutine suspended at `pc` keeps to what the coroutine may do. -/
structure Seg.Proper (pc : Pc) (seg : Seg Pc) : Prop where
  write : ∀ d ∈ seg.write, pc.May d
  pending : ∀ p, seg.next = .goto p → p.PendingOk
  may : ∀ p, seg.next = .goto p → seg.commit = false → ∀ d, pc.May d → p.May d
  inTx : ∀ p, seg.next = .goto p → seg.commit = false →
    seg.write = [] ∧ pc.inTx = false ∨ p.inTx = true
  spawn : ∀ b, seg.spawn = some b → pc.Spawns b

/-- The task the segment starts, if any, is one of the coroutine's own. -/
def Seg.MaySpawn (pc : Pc) (seg : Seg Pc) : Prop := ∀ b, seg.spawn = some b → pc.Spawns b

theorem Seg.MaySpawn.none {pc : Pc} {seg : Seg Pc} (h : seg.spawn = .none) :
    seg.MaySpawn pc := by
  intro b hb
  rw [h] at hb
  cases hb

/-- A segment that ends its coroutine. -/
theorem Seg.Proper.last {pc : Pc} {seg : Seg Pc} (hw : ∀ d ∈ seg.write, pc.May d)
    (hn : ∀ p, seg.next ≠ .goto p)
    (hb : seg.MaySpawn pc) : seg.Proper pc where
  write := hw
  spawn := hb
  pending p hp := absurd hp (hn p)
  may p hp := absurd hp (hn p)
  inTx p hp := absurd hp (hn p)

theorem Seg.Quiet.proper {pc : Pc} {seg : Seg Pc} (h : seg.Quiet) : seg.Proper pc :=
  .last (by simp [h.write]) h.next (.none h.spawn)

/-- A segment that sends nothing and stays within its coroutine. -/
theorem Seg.Reads.proper {pc : Pc} {seg : Seg Pc}
    (h : seg.Reads fun p => p.PendingOk ∧ ∀ d, pc.May d → p.May d) (ht : pc.inTx = false) :
    seg.Proper pc := by
  rcases h with h | ⟨p, rfl, hp, hm⟩
  · exact h.proper
  · refine ⟨List.forall_mem_nil _, fun q hq => ?_, fun q hq _ => ?_, fun q hq _ => .inl ⟨rfl, ht⟩, nofun⟩
    · cases hq; exact hp
    · cases hq; exact hm

/-- A segment that commits leaves no transaction open. -/
theorem Seg.Proper.commits {pc : Pc} {seg : Seg Pc} (hc : seg.commit = true)
    (hw : ∀ d ∈ seg.write, pc.May d) (hp : ∀ p, seg.next = .goto p → p.PendingOk)
    (hb : seg.MaySpawn pc) : seg.Proper pc where
  write := hw
  pending := hp
  spawn := hb
  may p _ h := by rw [hc] at h; cases h
  inTx p _ h := by rw [hc] at h; cases h

theorem Seg.Proper.committed {pc : Pc} {seg : Seg Pc} (h : seg.Proper pc) :
    Seg.Proper pc { seg with commit := true } :=
  .commits rfl h.write h.pending h.spawn

/-- A segment that sends statements and is suspended in its transaction. -/
theorem Seg.Proper.sends {pc p : Pc} {ds : List Dml} (hw : ∀ d ∈ ds, pc.May d)
    (hp : p.PendingOk) (hm : ∀ d, pc.May d → p.May d) (ht : p.inTx = true) :
    Seg.Proper pc ⟨ds, false, none, .goto p⟩ := by
  refine ⟨hw, fun q hq => ?_, fun q hq _ => ?_, fun q hq _ => ?_, nofun⟩
  · cases hq; exact hp
  · cases hq; exact hm
  · cases hq; exact .inr ht

/-! ### Every segment keeps to it -/

section Families

variable {o : Oracle} {cfg : Settings} {db : Db} {now : Int} {ch : Choice} {seg : Seg Pc}

theorem placeOrder_reads {a : String} {ids : List Identifier} {seg : Seg NewOrderPc}
    (h : placeOrder a ids now ch = some seg) : seg.Reads fun p => (Pc.newOrder a p).PendingOk := by
  unfold placeOrder at h
  split at h
  · cases Option.some.inj h
    refine .goto fun d hd => ?_
    rcases List.mem_cons.mp hd with rfl | hd
    · exact ⟨rfl, rfl, rfl, rfl, rfl⟩
    · obtain ⟨⟨z, za⟩, hz, rfl⟩ := List.mem_map.mp hd
      obtain ⟨k, hk, e⟩ := List.mem_iff_getElem.mp hz
      rw [List.getElem_zipWith] at e
      cases e
      exact ⟨rfl, rfl⟩
  · cases h

theorem newOrderStart_reads {a : String} {payload : Json} {seg : Seg NewOrderPc}
    (h : newOrderStart o cfg a payload now ch = some seg) :
    seg.Reads fun p => (Pc.newOrder a p).PendingOk := by
  unfold newOrderStart at h
  split at h
  · cases Option.some.inj h
    exact .fail _
  · split at h
    · cases Option.some.inj h
      exact .fail _
    · split at h
      · cases Option.some.inj h
        exact .goto (.none rfl)
      · exact placeOrder_reads h

/-- The handler of a route is first suspended at its first statement; only `new_order` may have
decided on its rows by then. -/
theorem routeStart_cases {req : Request} {a : String} {payload : Json}
    (h : routeStart o cfg req a payload now ch = some seg) :
    (∃ seg', req.route = .newOrder ∧ newOrderStart o cfg a payload now ch = some seg' ∧
      seg = seg'.map (.newOrder a)) ∨
    seg.Reads fun p => p.isStart = true ∧ p.coroutine = req.route.coroutine a := by
  unfold routeStart at h
  split at h
  all_goals rename_i e; rw [e]
  case h_3 =>
    obtain ⟨seg', h', rfl⟩ := Option.map_eq_some_iff.mp h
    exact .inl ⟨seg', rfl, h', rfl⟩
  all_goals
    right
    cases Option.some.inj h
  case h_1 => exact .map _ (.attempt fun _ _ => .attempt fun _ _ => .goto ⟨rfl, rfl⟩)
  case h_2 => exact .map _ (.attempt fun _ _ => .goto ⟨rfl, rfl⟩)
  case h_5 => exact .map _ (.attempt fun _ _ => .goto ⟨rfl, rfl⟩)
  case h_9 =>
    refine .map _ ?_
    unfold revokeCertStart
    split
    · exact .fail _
    · split
      · exact .fail _
      · exact .goto ⟨rfl, rfl⟩
  all_goals exact .goto ⟨rfl, rfl⟩

theorem Pc.isStart_pending {p : Pc} (h : p.isStart = true) : p.pending = [] := by
  unfold Pc.isStart at h
  split at h <;> first | rfl | cases h

theorem routeStart_reads {req : Request} {a : String} {payload : Json}
    (h : routeStart o cfg req a payload now ch = some seg) :
    seg.Reads fun p => p.PendingOk ∧ p.coroutine = req.route.coroutine a := by
  rcases routeStart_cases h with ⟨seg', hroute, h', rfl⟩ | hr
  · rw [hroute]
    exact .map _ ((newOrderStart_reads h').mono fun _ hp => ⟨hp, rfl⟩)
  · exact hr.mono fun p hp => ⟨.none (Pc.isStart_pending hp.1), hp.2⟩

theorem jws_proper {req : Request} {p : JwsPc} (h : jwsSeg o cfg req db now ch p = some seg) :
    seg.Proper (.jws req p) := by
  cases p with
  | verify =>
      cases Option.some.inj h
      exact Seg.Reads.proper (.attempt fun _ _ => .goto ⟨.none rfl, fun _ h => h⟩) rfl
  | consume a nonce payload cutoff =>
      cases Option.some.inj h
      refine .sends (fun d hd => ?_) (.none rfl) (fun _ h => h) rfl
      cases List.mem_singleton.mp hd
      trivial
  | commit a payload rowcount =>
      simp only [jwsSeg] at h
      split at h
      · cases Option.some.inj h
        exact (Seg.fail_quiet _).proper.committed
      · obtain ⟨seg', h', rfl⟩ := Option.map_eq_some_iff.mp h
        rcases routeStart_reads h' with hq | ⟨p, rfl, hp, -⟩
        · exact hq.proper.committed
        · refine .commits rfl (List.forall_mem_nil _) (fun q hq => ?_) (.none rfl)
          cases hq
          exact hp

theorem newAccount_proper {p : NewAccountPc} {seg : Seg NewAccountPc}
    (h : newAccountSeg cfg db now p ch = some seg) (hp : (Pc.newAccount p).PendingOk) :
    (seg.map .newAccount).Proper (.newAccount p) := by
  cases p with
  | select contact only key =>
      refine Seg.Reads.proper (.map _ ?_) rfl
      simp only [newAccountSeg] at h
      split at h
      · cases Option.some.inj h
        exact .fail _
      · cases Option.some.inj h
        exact .inl (Seg.respond_quiet _)
      · split at h
        · cases Option.some.inj h
          exact .fail _
        · split at h
          · cases Option.some.inj h
            refine .goto ⟨fun d hd => ?_, fun _ h => h⟩
            cases List.mem_singleton.mp hd
            assumption
          · cases h
  | commit id row contact =>
      cases Option.some.inj h
      exact .last hp (fun _ h => by cases h) (.none rfl)

theorem keyChange_proper {a : String} {p : KeyChangePc} :
    ((keyChangeSeg o cfg a db p).map (.keyChange a)).Proper (.keyChange a p) := by
  cases p with
  | account inner url =>
      exact Seg.Reads.proper (.map _ (.attempt fun _ _ => .goto ⟨.none rfl, fun _ h => h⟩)) rfl
  | select account key =>
      refine Seg.Reads.proper (.map _ (.attempt fun x _ => ?_)) rfl
      cases x with
      | none => exact .goto ⟨.none rfl, fun _ h => h⟩
      | some _ => exact .fail _
  | commit account key =>
      refine .last (fun d hd => ?_) (fun _ h => by cases h) (.none rfl)
      rw [Account.mem_flush hd]
      exact (rfl : a = a)

theorem newOrder_proper {a : String} {p : NewOrderPc} {seg : Seg NewOrderPc}
    (h : newOrderSeg cfg a db now p ch = some seg) (hp : (Pc.newOrder a p).PendingOk) :
    (seg.map (.newOrder a)).Proper (.newOrder a p) := by
  cases p with
  | count ids start =>
      refine Seg.Reads.proper (.map _ ?_) rfl
      simp only [newOrderSeg] at h
      split at h
      · cases Option.some.inj h
        exact .fail _
      · exact (placeOrder_reads h).mono fun _ hp => ⟨hp, fun _ h => h⟩
  | commit id row authzs =>
      cases Option.some.inj h
      exact .last hp (fun _ h => by cases h) (.none rfl)

theorem finalize_proper {a id : String} {p : FinalizePc} :
    ((finalizeSeg cfg a id db p).map (.finalize a id)).Proper (.finalize a id p) := by
  cases p with
  | get csr =>
      exact Seg.Reads.proper (.map _ (.attempt fun _ _ => .attempt fun _ _ =>
        .goto ⟨.none rfl, fun _ h => h⟩)) rfl
  | update order csrDer domain =>
      refine .sends (fun d hd => ?_) (.none rfl) (fun _ h => h) rfl
      cases List.mem_singleton.mp hd
      exact (rfl : id = id)
  | commit order csrDer domain rowcount =>
      have hnext : ∀ {p q : Pc}, p.pending = [] → Next.goto p = .goto q → q.PendingOk := by
        rintro p q hp ⟨⟩
        exact .none hp
      simp only [finalizeSeg]
      split
      · exact .commits rfl (List.forall_mem_nil _) (fun _ => hnext rfl) (.none rfl)
      · refine .commits rfl (List.forall_mem_nil _) (fun _ => hnext rfl) fun b hb => ?_
        cases hb
        exact ⟨by assumption, rfl⟩
  | status => exact ((Seg.fail_quiet _).map _).proper
  | authzs order => exact ((Seg.respond_quiet _).map _).proper

/-- The flush of an order that was pending. -/
theorem challenge_flush_may {a z id : String} {p : ChallengePc} {order : Order} :
    ∀ d ∈ order.flush id { order with status := .processing }, (Pc.challenge a z p).May d := by
  intro d hd
  rw [Order.eq_of_mem_flush hd]
  exact ⟨fun st hst => (changed_eq_some.mp hst).2.symm, changed_self _⟩

theorem challenge_proper {a z : String} {p : ChallengePc} (hp : (Pc.challenge a z p).PendingOk) :
    ((challengeSeg cfg a z db p).map (.challenge a z)).Proper (.challenge a z p) := by
  cases p with
  | get => exact Seg.Reads.proper (.map _ (.attempt fun _ _ => .goto ⟨.none rfl, fun _ h => h⟩)) rfl
  | owner authz =>
      rcases hx : requireParentOwner a (db.orders.get authz.orderId) with e | u
      · simp only [challengeSeg, hx]
        exact ((Seg.fail_quiet _).map _).proper
      · simp only [challengeSeg, hx, Seg.attempt]
        split
        · exact Seg.Reads.proper (.goto ⟨.none rfl, fun _ h => h⟩) rfl
        · refine .last (List.forall_mem_nil _) (fun _ h => by cases h) fun b hb => ?_
          cases hb
          exact ⟨by assumption, rfl⟩
        · exact ((Seg.fail_quiet _).map _).proper
  | flush authz =>
      refine .sends (fun d hd => ?_) (fun d hd => ?_) (fun _ h => h) rfl
      · obtain ⟨q, rfl, hq⟩ := Authorization.mem_flush hd
        exact ⟨rfl, hq⟩
      · simp only [Pc.pending] at hd
        split at hd
        · cases hd
        · split at hd
          · exact challenge_flush_may d hd
          · cases hd
  | commit authz flush =>
      refine .last hp (fun _ h => by cases h) fun b hb => ?_
      cases hb
      exact (rfl : Bg.runChallenge z authz.orderId = _)

theorem invalidate_may {z id : String} {p : RunChallengePc} {authz : Authorization}
    {order : Order} {problem : Problem} :
    ∀ d ∈ invalidate z id authz order problem, (Pc.runChallenge z id p).May d := by
  intro d hd
  rcases List.mem_append.mp hd with hd | hd
  · obtain ⟨q, rfl, hq⟩ := Authorization.mem_flush hd
    exact ⟨rfl, fun st hst => .inr (hq st hst)⟩
  · rw [Order.eq_of_mem_flush hd]
    exact ⟨rfl, fun st hst => .inr (changed_eq_some.mp hst).2.symm, changed_self _⟩

theorem runChallenge_proper {z id : String} {p : RunChallengePc}
    (hp : (Pc.runChallenge z id p).PendingOk) :
    ((runChallengeSeg o z id db ch p).map (.runChallenge z id)).Proper (.runChallenge z id p) := by
  have hinv : ∀ {authz order problem}, (Pc.runChallenge z id
      (.commit (invalidate z id authz order problem))).PendingOk := invalidate_may
  cases p with
  | getAuthz | regetAuthz _ | validate _ _ _ =>
      exact Seg.Reads.proper (.goto ⟨.none rfl, fun _ h => h⟩) rfl
  | getOrder authz =>
      refine Seg.Reads.proper (.map _ ?_) rfl
      simp only [runChallengeSeg]
      split
      · split
        · exact .goto ⟨hinv, fun _ h => h⟩
        · exact .goto ⟨.none rfl, fun _ h => h⟩
      · exact .inl Seg.stop_quiet
  | getAccount authz order =>
      refine Seg.Reads.proper (.map _ ?_) rfl
      simp only [runChallengeSeg]
      split
      · exact .goto ⟨hinv, fun _ h => h⟩
      · split
        · exact .fail _
        · exact .goto ⟨.none rfl, fun _ h => h⟩
  | regetOrder problem authz =>
      refine Seg.Reads.proper (.map _ ?_) rfl
      simp only [runChallengeSeg]
      split
      · split
        · exact .goto ⟨.none rfl, fun _ h => h⟩
        · exact .goto ⟨hinv, fun _ h => h⟩
      · exact .inl Seg.stop_quiet
  | statuses authz order =>
      refine .sends (fun d hd => ?_) (fun d hd => ?_) (fun _ h => h) rfl
      · obtain ⟨q, rfl, hq⟩ := Authorization.mem_flush hd
        exact ⟨rfl, fun st hst => .inl (hq st hst)⟩
      · simp only [Pc.pending] at hd
        split at hd
        · rw [Order.eq_of_mem_flush hd]
          exact ⟨rfl, fun st hst => .inl (changed_eq_some.mp hst).2.symm, changed_self _⟩
        · cases hd
  | commit flush => exact .last hp (fun _ h => by cases h) (.none rfl)

theorem processFinalize_proper {id domain : String} {csrDer : List UInt8} {p : ProcessFinalizePc}
    {seg : Seg ProcessFinalizePc} (h : processFinalizeSeg o id csrDer db now p ch = some seg)
    (hp : (Pc.processFinalize id domain csrDer p).PendingOk) :
    (seg.map (.processFinalize id domain csrDer)).Proper (.processFinalize id domain csrDer p) := by
  cases p with
  | getOrder =>
      refine Seg.Reads.proper (.map _ ?_) rfl
      simp only [processFinalizeSeg] at h
      split at h <;> cases Option.some.inj h
      · exact .inl Seg.stop_quiet
      · exact .goto ⟨.none rfl, fun _ h => h⟩
  | issue =>
      refine Seg.Reads.proper (.map _ ?_) rfl
      simp only [processFinalizeSeg] at h
      split at h <;> cases Option.some.inj h
      · exact .goto ⟨.none rfl, fun _ h => h⟩
      · exact .goto ⟨.none rfl, fun _ h => h⟩
  | failGet problem =>
      refine Seg.Reads.proper (.map _ ?_) rfl
      simp only [processFinalizeSeg] at h
      split at h <;> cases Option.some.inj h
      · exact .inl Seg.stop_quiet
      · refine .goto ⟨fun d hd => ?_, fun _ h => h⟩
        obtain ⟨q, rfl, hq⟩ := Order.mem_flush hd
        exact ⟨rfl, fun st hst => .inr (hq st hst)⟩
  | get pemChain expiresAt =>
      refine Seg.Reads.proper (.map _ ?_) rfl
      simp only [processFinalizeSeg] at h
      split at h
      · cases Option.some.inj h
        exact .inl Seg.stop_quiet
      · split at h
        · cases Option.some.inj h
          refine .goto ⟨fun d hd => ?_, fun _ h => h⟩
          cases List.mem_singleton.mp hd
          exact (rfl : id = id)
        · cases h
  | store order certId cert =>
      cases Option.some.inj h
      refine .commits rfl hp (fun q hq => ?_) (.none rfl)
      cases hq
      intro d hd
      obtain ⟨q, rfl, hq⟩ := Order.mem_flush hd
      exact ⟨rfl, fun st hst => .inl (hq st hst)⟩
  | commit flush =>
      cases Option.some.inj h
      exact .last hp (fun _ h => by cases h) (.none rfl)

theorem revokeCert_proper {a : String} {p : RevokeCertPc} :
    ((revokeCertSeg o a db ch p).map (.revokeCert a)).Proper (.revokeCert a p) := by
  refine Seg.Reads.proper (.map _ ?_) (by cases p <;> rfl)
  cases p <;> simp only [revokeCertSeg] <;> split
  · exact .goto ⟨.none rfl, fun _ h => h⟩
  · exact .goto ⟨.none rfl, fun _ h => h⟩
  · exact .goto ⟨.none rfl, fun _ h => h⟩
  · exact .fail _
  · exact .inl (Seg.respond_quiet _)
  · exact .fail _

theorem reset_proper {p : ResetPc} : ((resetSeg p).map .reset).Proper (.reset p) := by
  cases p with
  | orders | authzs =>
      refine .sends (fun d hd => ?_) (.none rfl) (fun _ h => h) rfl
      cases List.mem_singleton.mp hd
      trivial
  | commit => exact .last (List.forall_mem_nil _) (fun _ h => by cases h) (.none rfl)

theorem nonce_proper {p : NoncePc} :
    ((nonceSeg cfg db now ch p).map .nonce).Proper (.nonce p) := by
  cases p with
  | count =>
      refine Seg.Reads.proper (.map _ ?_) rfl
      simp only [nonceSeg]
      split
      · exact .inl Seg.stop_quiet
      · exact .goto ⟨.none rfl, fun _ h => h⟩
  | commit value row =>
      refine .last (fun d hd => ?_) (fun _ h => by cases h) (.none rfl)
      cases List.mem_singleton.mp hd
      trivial

theorem prune_proper {p : PrunePc} : ((pruneSeg p).map .prune).Proper (.prune p) := by
  cases p with
  | delete cutoff =>
      refine .sends (fun d hd => ?_) (.none rfl) (fun _ h => h) rfl
      cases List.mem_singleton.mp hd
      trivial
  | commit => exact .last (List.forall_mem_nil _) (fun _ h => by cases h) (.none rfl)

/-- **Every segment keeps to what its coroutine may send.** -/
theorem Pc.seg_proper {pc : Pc} (h : pc.seg o cfg db now ch = some seg) (hp : pc.PendingOk) :
    seg.Proper pc := by
  cases pc with
  | jws req p => exact jws_proper h
  | newAccount p =>
      obtain ⟨seg', h', rfl⟩ := Option.map_eq_some_iff.mp h
      exact newAccount_proper h' hp
  | keyChange a p => cases Option.some.inj h; exact keyChange_proper
  | newOrder a p =>
      obtain ⟨seg', h', rfl⟩ := Option.map_eq_some_iff.mp h
      exact newOrder_proper h' hp
  | getOrder a id p =>
      cases Option.some.inj h
      cases p with
      | get => exact Seg.Reads.proper (.map _ (.attempt fun _ _ => .goto ⟨.none rfl, fun _ h => h⟩)) rfl
      | authzs order => exact ((Seg.respond_quiet _).map _).proper
  | finalize a id p => cases Option.some.inj h; exact finalize_proper
  | getAuthz a id p =>
      cases Option.some.inj h
      cases p with
      | get => exact Seg.Reads.proper (.map _ (.attempt fun _ _ => .goto ⟨.none rfl, fun _ h => h⟩)) rfl
      | owner authz =>
          exact Seg.Reads.proper (.map _ (.attempt fun _ _ => .inl (Seg.respond_quiet _))) rfl
  | challenge a z p => cases Option.some.inj h; exact challenge_proper hp
  | downloadCert a id p =>
      cases Option.some.inj h
      cases p with
      | get => exact Seg.Reads.proper (.map _ (.attempt fun _ _ => .goto ⟨.none rfl, fun _ h => h⟩)) rfl
      | owner cert =>
          exact Seg.Reads.proper (.map _ (.attempt fun _ _ => .inl (Seg.respond_quiet _))) rfl
  | revokeCert a p => cases Option.some.inj h; exact revokeCert_proper
  | runChallenge z id p => cases Option.some.inj h; exact runChallenge_proper hp
  | processFinalize id domain csrDer p =>
      obtain ⟨seg', h', rfl⟩ := Option.map_eq_some_iff.mp h
      exact processFinalize_proper h' hp
  | reset p => cases Option.some.inj h; exact reset_proper
  | nonce p => cases Option.some.inj h; exact nonce_proper
  | prune p => cases Option.some.inj h; exact prune_proper

/-- Where `verify_jws` goes on: to its next statement, or to the first one of a handler. -/
theorem jwsSeg_goto {req : Request} {p : JwsPc} {q : Pc}
    (h : jwsSeg o cfg req db now ch p = some seg) (hn : seg.next = .goto q) :
    (∃ p', q = .jws req p') ∨
      (q.isStart = true ∨ ∃ a p', q = .newOrder a p') ∧
        ∃ a payload rowcount, p = .commit a payload rowcount ∧
          q.coroutine = req.route.coroutine a := by
  cases p with
  | verify =>
      have hr : Seg.Reads (fun q : Pc => ∃ p', q = .jws req p') seg :=
        (Option.some.inj h) ▸ .attempt fun _ _ => .goto ⟨_, rfl⟩
      exact .inl (hr.of_goto hn)
  | consume a nonce payload cutoff =>
      cases Option.some.inj h
      cases hn
      exact .inl ⟨_, rfl⟩
  | commit a payload rowcount =>
      simp only [jwsSeg] at h
      split at h
      · cases Option.some.inj h
        exact absurd hn ((Seg.fail_quiet _).next q)
      · obtain ⟨seg', h', rfl⟩ := Option.map_eq_some_iff.mp h
        refine .inr ⟨?_, a, payload, rowcount, rfl, ((routeStart_reads h').of_goto hn).2⟩
        rcases routeStart_cases h' with ⟨seg'', -, -, rfl⟩ | hr
        · obtain ⟨p', -, e⟩ := Next.map_eq_goto hn
          exact .inr ⟨a, p', e⟩
        · exact .inl (hr.of_goto hn).1

/-- A segment of a coroutine stays in it, or hands the request from `verify_jws` on to the handler
of its route. -/
theorem Pc.seg_coroutine {pc p : Pc} (h : pc.seg o cfg db now ch = some seg)
    (hn : seg.next = .goto p) :
    p.coroutine = pc.coroutine ∨ ∃ req a payload rowcount,
      pc = .jws req (.commit a payload rowcount) ∧ p.coroutine = req.route.coroutine a := by
  cases pc with
  | jws req q =>
      rcases jwsSeg_goto h hn with ⟨p', rfl⟩ | ⟨-, a, payload, rowcount, rfl, e⟩
      · exact .inl rfl
      · exact .inr ⟨req, a, payload, rowcount, rfl, e⟩
  | newAccount _ | newOrder _ _ | processFinalize _ _ _ _ =>
      obtain ⟨seg', -, rfl⟩ := Option.map_eq_some_iff.mp h
      obtain ⟨q, -, rfl⟩ := Next.map_eq_goto hn
      exact .inl rfl
  | keyChange _ _ | getOrder _ _ _ | finalize _ _ _ | getAuthz _ _ _ | challenge _ _ _
  | downloadCert _ _ _ | revokeCert _ _ | runChallenge _ _ _ | reset _ | nonce _ | prune _ =>
      cases Option.some.inj h
      obtain ⟨q, -, rfl⟩ := Next.map_eq_goto hn
      exact .inl rfl

end Families

/-! ### Who sets a status -/

/-- What a coroutine may set the status of order `id` to, and from what. -/
def Pc.TurnsOrder (pc : Pc) (id : String) (old : Option OrderStatus) (st : OrderStatus) : Prop :=
  match pc with
  | .newOrder _ _ => old = none ∧ st = .pending
  | .challenge _ _ _ => st = .processing
  | .finalize _ id' _ => id' = id ∧ old = some .ready ∧ st = .processing
  | .runChallenge _ id' _ => id' = id ∧ (st = .ready ∨ st = .invalid)
  | .processFinalize id' _ _ _ => id' = id ∧ (st = .valid ∨ st = .invalid)
  | .reset _ => old = some .processing ∧ st = .invalid
  | _ => False

/-- What a coroutine may set the status of authorization `id` to, and from what. -/
def Pc.TurnsAuthz (pc : Pc) (id : String) (old : Option AuthzStatus) (st : AuthzStatus) : Prop :=
  match pc with
  | .newOrder _ _ => old = none ∧ st = .pending
  | .challenge _ z _ => z = id ∧ st = .processing
  | .runChallenge z _ _ => z = id ∧ (st = .valid ∨ st = .invalid)
  | .reset _ => old = some .processing ∧ st = .invalid
  | _ => False

theorem Pc.TurnsOrder.trans {pc : Pc} {id : String} {old : Option OrderStatus}
    {st st' : OrderStatus} (h : pc.TurnsOrder id old st) (h' : pc.TurnsOrder id (some st) st') :
    pc.TurnsOrder id old st' := by
  cases pc with
  | newOrder a p => cases h'.1
  | challenge a z p => exact h'
  | finalize a k p =>
      rw [h.2.2] at h'
      cases h'.2.1
  | runChallenge z k p => exact ⟨h.1, h'.2⟩
  | processFinalize k domain csrDer p => exact ⟨h.1, h'.2⟩
  | reset p =>
      rw [h.2] at h'
      cases h'.1
  | _ => exact h.elim

theorem Pc.TurnsAuthz.trans {pc : Pc} {id : String} {old : Option AuthzStatus}
    {st st' : AuthzStatus} (h : pc.TurnsAuthz id old st) (h' : pc.TurnsAuthz id (some st) st') :
    pc.TurnsAuthz id old st' := by
  cases pc with
  | newOrder a p => cases h'.1
  | challenge a z p => exact h'
  | runChallenge z k p => exact h'
  | reset p =>
      rw [h.2] at h'
      cases h'.1
  | _ => exact h.elim

theorem Pc.May.order {pc : Pc} {d : Dml} {id : String} {old : Option OrderStatus}
    {st : OrderStatus} (h : pc.May d) (hs : d.SetsOrder id old st) : pc.TurnsOrder id old st := by
  cases d with
  | insertOrder k row =>
      obtain ⟨-, ho, rfl⟩ := hs
      cases pc with
      | newOrder a p => exact ⟨ho, h.2.1⟩
      | _ => exact h.elim
  | updateOrder k p =>
      obtain ⟨rfl, -, hp⟩ := hs
      cases pc with
      | challenge a z q => exact h.1 st hp
      | runChallenge z k' q => exact ⟨h.1.symm, h.2.1 st hp⟩
      | processFinalize k' _ _ q => exact ⟨h.1.symm, h.2 st hp⟩
      | _ => exact h.elim
  | claimOrder k =>
      obtain ⟨rfl, ho, rfl⟩ := hs
      cases pc with
      | finalize a k' q => exact ⟨h.symm, ho, rfl⟩
      | _ => exact h.elim
  | resetOrders =>
      cases pc with
      | reset p => exact hs
      | _ => exact h.elim
  | _ => exact hs.elim

theorem Pc.May.authz {pc : Pc} {d : Dml} {id : String} {old : Option AuthzStatus}
    {st : AuthzStatus} (h : pc.May d) (hs : d.SetsAuthz id old st) : pc.TurnsAuthz id old st := by
  cases d with
  | insertAuthz k row =>
      obtain ⟨-, ho, rfl⟩ := hs
      cases pc with
      | newOrder a p => exact ⟨ho, h.1⟩
      | _ => exact h.elim
  | updateAuthz k p =>
      obtain ⟨rfl, -, hp⟩ := hs
      cases pc with
      | challenge a z q => exact ⟨h.1.symm, h.2 st hp⟩
      | runChallenge z k' q => exact ⟨h.1.symm, h.2 st hp⟩
      | _ => exact h.elim
  | resetAuthzs =>
      cases pc with
      | reset p => exact hs
      | _ => exact h.elim
  | _ => exact hs.elim

end Jackdaw
