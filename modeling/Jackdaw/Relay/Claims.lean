import Jackdaw.Relay.Issuance

/-!
# Relay — what a finalize request is answered, and what it did

Three counts about finalize requests agree in every run: answers 200, turns of an order from ready
to processing, and issuing tasks created.

* `finalize_accounting`: a request that was answered 200 has in the log one entry that claimed its
  order and created one task, and no other entry that touched an order or created a task; a request
  that was answered anything else has none; and between two claims of one order there is an entry
  that turned it ready.

A request is one task from `verify_jws` to its answer, so its entries are the entries with its
number.  Its accounts are carried along its way: nothing until the claim (`AllIdle`), the claim
from then on (`Won`).
-/

namespace Jackdaw

open Support Support.Interleave

/-- The entry turned order `id` from ready to processing. -/
def Entry.Claims (e : Entry) (id : String) : Prop :=
  e.pre.orderStatus id = some .ready ∧ e.post.orderStatus id = some .processing

/-- The entry left every order as it was and created no task. -/
def Entry.Idle (e : Entry) : Prop :=
  (∀ id, e.post.orders.get id = e.pre.orders.get id) ∧ e.seg.spawn = none

/-- The entry is one of a finalize request for order `id`. -/
def Entry.OfFinalize (e : Entry) (id : String) : Prop :=
  (∃ a p, e.pc = .finalize a id p) ∨ ∃ req p, e.pc = .jws req p ∧ req.route = .finalize id

/-- Task `i` touched no order and created no task. -/
def AllIdle (i : Nat) (l : List Entry) : Prop := ∀ e ∈ l, e.tid = i → e.Idle

/-- Task `i` claimed order `id` by its conditional `UPDATE` and created the issuing task, once and
in one entry, and did nothing else to an order. -/
def Won (i : Nat) (id : String) (l : List Entry) : Prop :=
  ∃ l₂ w l₁, l = l₂ ++ w :: l₁ ∧ w.tid = i ∧ w.Claims id ∧
    Dml.execAll [.claimOrder id] w.pre = some w.post ∧ w.issues id = true ∧
    AllIdle i l₂ ∧ AllIdle i l₁

theorem AllIdle.cons {i : Nat} {e : Entry} {l : List Entry} (he : e.tid = i → e.Idle)
    (h : AllIdle i l) : AllIdle i (e :: l) := by
  intro e' he'
  rcases List.mem_cons.mp he' with rfl | he'
  · exact he
  · exact h e' he'

theorem Won.cons {i : Nat} {id : String} {e : Entry} {l : List Entry} (he : e.tid = i → e.Idle)
    (h : Won i id l) : Won i id (e :: l) := by
  obtain ⟨l₂, w, l₁, rfl, hw, hc, hx, hs, h₂, h₁⟩ := h
  exact ⟨e :: l₂, w, l₁, rfl, hw, hc, hx, hs, h₂.cons he, h₁⟩

/-- What the log says of task `i`, by where it is suspended. -/
def Pc.Accounts (i : Nat) (l : List Entry) : Pc → Prop
  | .jws _ _ => AllIdle i l
  | .finalize _ id (.authzs _) => Won i id l
  | .finalize _ _ _ => AllIdle i l
  | _ => True

/-- What the log says of a finalize request that is over. -/
def Settled (l : List Entry) : Prop :=
  ∀ e ∈ l, ∀ id, e.OfFinalize id →
    (∀ r, e.seg.next = .respond r → r.status = 200 → Won e.tid id l) ∧
    ((∃ r, e.seg.next = .respond r ∧ r.status ≠ 200) ∨ e.seg.next = .raised → AllIdle e.tid l)

/-! ### One step of a finalize request -/

section

variable {o : Oracle} {cfg : Settings} {c : Relay} {i : Nat} {t u : Task} {seg : Seg Pc}
  {out : Outcome Shared Task}

theorem Turn.idle_jws (h : Turn o cfg c i t seg out) {req : Request} {p : JwsPc}
    (hpc : t.pc = .jws req p) : h.entry.Idle := by
  constructor
  · intro id
    have hsame : c.shared.db.Same out.shared.db .orders := by
      refine h.same fun d hd => ?_
      rw [hpc] at hd
      cases d <;> first | exact hd.elim | (intro e; cases e)
    show out.shared.db.orders.get id = _
    rw [show out.shared.db.orders = _ from hsame]
  · cases hs : seg.spawn with
    | none => rfl
    | some b =>
        have := h.proper.spawn b hs
        rw [hpc] at this
        exact this.elim

/-- `finalize_order` commits in one segment only. -/
theorem finalizeSeg_commit {a id : String} {db : Db} {p : FinalizePc}
    (h : (finalizeSeg cfg a id db p).commit = true) :
    ∃ order csrDer domain rowcount, p = .commit order csrDer domain rowcount := by
  cases p with
  | commit order csrDer domain rowcount => exact ⟨order, csrDer, domain, rowcount, rfl⟩
  | get csr =>
      have hr : (finalizeSeg cfg a id db (.get csr)).Reads fun _ => True :=
        .attempt fun _ _ => .attempt fun _ _ => .goto trivial
      rw [hr.commit] at h
      cases h
  | update _ _ _ | authzs _ => cases h
  | status =>
      simp only [finalizeSeg, (Seg.fail_quiet _).commit] at h
      cases h

/-- **One step of a finalize request**: it is idle, or it is the claim. -/
theorem Turn.claims_finalize (h : Turn o cfg c i t seg out) (hk : t.pc.Knows i c.shared t.tx)
    {a id : String} {p : FinalizePc} (hpc : t.pc = .finalize a id p) :
    (h.entry.Idle ∧ ∀ order, seg.next ≠ .goto (.finalize a id (.authzs order))) ∨
    (h.entry.Claims id ∧ Dml.execAll [.claimOrder id] c.shared.db = some out.shared.db ∧
      h.entry.issues id = true ∧ ∃ order, seg.next = .goto (.finalize a id (.authzs order))) := by
  by_cases hc : seg.commit = true
  · obtain ⟨ch, hseg⟩ := h.commits hc
    rw [hpc] at hseg
    have hseg := Option.some.inj hseg
    have hc' := hc
    rw [← hseg] at hc'
    obtain ⟨order, csrDer, domain, rowcount, rfl⟩ := finalizeSeg_commit hc'
    rcases h.finalize_commit hk hpc hc with ⟨-, hr, hx, hp, rfl⟩ | ⟨-, -, hkeep, rfl⟩
    · exact .inr ⟨⟨hr, hp⟩, hx, Entry.issues_iff.mpr ⟨domain, csrDer, rfl⟩, order, rfl⟩
    · exact .inl ⟨⟨hkeep, rfl⟩, fun _ h => by cases h⟩
  · have hcf : seg.commit = false := by simpa using hc
    left
    have hdb : ∀ k, out.shared.db.orders.get k = c.shared.db.orders.get k := by
      intro k
      rw [h.db_eq hcf]
    rcases h.runs with ⟨ch, hseg⟩ | rfl
    · rw [hpc] at hseg
      have hseg := Option.some.inj hseg
      cases p with
      | commit order csrDer domain rowcount =>
          simp only [finalizeSeg] at hseg
          split at hseg <;> rw [← hseg] at hcf <;> cases hcf
      | update order csrDer domain =>
          subst hseg
          exact ⟨⟨hdb, rfl⟩, fun _ h => by cases h⟩
      | get csr =>
          have hr : seg.Reads fun q => ∀ order, q ≠ .finalize a id (.authzs order) :=
            hseg ▸ .map _ (.attempt fun _ _ => .attempt fun _ _ => .goto fun _ h => by cases h)
          exact ⟨⟨hdb, hr.spawn⟩, fun order hn => hr.of_goto hn order rfl⟩
      | status =>
          have hq : seg.Quiet := hseg ▸ (Seg.fail_quiet _).map _
          exact ⟨⟨hdb, hq.spawn⟩, fun _ => hq.next _⟩
      | authzs order =>
          have hq : seg.Quiet := hseg ▸ (Seg.respond_quiet _).map _
          exact ⟨⟨hdb, hq.spawn⟩, fun _ => hq.next _⟩
    · exact ⟨⟨hdb, rfl⟩, fun _ h => by cases h⟩

theorem finalizeChecks_refuses (order : Order) (csr : String) :
    Refuses (finalizeChecks order csr) := by
  unfold finalizeChecks
  split
  · exact .http (by decide)
  · exact .bind (.orElse .raised) fun _ => .bind (.orElse (.http (by decide))) fun _ => .ok _

/-- `verify_jws`, and the start of `finalize_order` behind it, answer with errors only. -/
theorem jwsSeg_refuses {req : Request} {id : String} (hroute : req.route = .finalize id) {db : Db}
    {now : Int} {ch : Choice} {p : JwsPc} (h : jwsSeg o cfg req db now ch p = some seg) :
    seg.Refuses := by
  cases p with
  | verify =>
      cases Option.some.inj h
      refine .attempt ?_ fun _ _ => .goto _
      refine .bind (authenticate_refuses o cfg _ _) fun ⟨j, key, a⟩ => ?_
      exact .bind (headerNonce_refuses o _) fun _ => .ok _
  | consume a nonce payload cutoff =>
      cases Option.some.inj h
      exact fun r hr => by cases hr
  | commit a payload rowcount =>
      simp only [jwsSeg] at h
      split at h
      · rename_i e he
        cases Option.some.inj h
        refine Seg.Refuses.fail fun status detail hx => ?_
        cases hx
        exact Refuses.bind (.reject (by decide)) (fun _ => decodeJwsPayload_refuses o payload) _ _ he
      · obtain ⟨seg', h', rfl⟩ := Option.map_eq_some_iff.mp h
        simp only [routeStart, hroute] at h'
        cases Option.some.inj h'
        exact Seg.Refuses.map (.attempt (.orElse .raised) fun _ _ => .goto _) _

/-- **A finalize request that is answered, and not refused, has made its claim.** -/
theorem Turn.answer_finalize (h : Turn o cfg c i t seg out) {id : String}
    (hof : h.entry.OfFinalize id) {r : Response} (hr : seg.next = .respond r) :
    400 ≤ r.status ∨ r.status = 200 ∧ ∃ a order, t.pc = .finalize a id (.authzs order) := by
  rcases h.runs with ⟨ch, hseg⟩ | rfl
  · rcases hof with ⟨a, p, hpc⟩ | ⟨req, p, hpc, hroute⟩
    · have hpc : t.pc = .finalize a id p := hpc
      rw [hpc] at hseg
      have hseg := Option.some.inj hseg
      subst hseg
      cases p with
      | get csr =>
          refine .inl (Seg.Refuses.map (.attempt (requireOrderOwner_refuses _ _) fun order _ =>
            .attempt (finalizeChecks_refuses order csr) fun _ _ => .goto _) _ r hr)
      | update order csrDer domain => cases hr
      | commit order csrDer domain rowcount =>
          simp only [finalizeSeg] at hr
          split at hr <;> cases hr
      | status => exact .inl (Seg.Refuses.map (.fail (.http (by decide))) _ r hr)
      | authzs order =>
          cases hr
          exact .inr ⟨rfl, a, order, hpc⟩
    · have hpc : t.pc = .jws req p := hpc
      rw [hpc] at hseg
      exact .inl (jwsSeg_refuses hroute hseg r hr)
  · cases hr

theorem Pc.isStart_accounts {p : Pc} (h : p.isStart = true) {l : List Entry}
    (hl : AllIdle i l) : p.Accounts i l := by
  unfold Pc.isStart at h
  split at h <;> trivial

/-- What the log says of the task a turn leaves. -/
theorem Turn.accounts (h : Turn o cfg c i t seg out) (hk : t.pc.Knows i c.shared t.tx)
    (hu : out.self = some u) (ha : t.pc.Accounts i c.shared.log) :
    u.pc.Accounts i out.shared.log := by
  obtain ⟨ch, hseg⟩ := h.goes_on hu
  have hn := (h.self hu).1
  have hlog : out.shared.log = h.entry :: c.shared.log := h.log
  by_cases hjws : ∃ req p, t.pc = .jws req p
  · obtain ⟨req, p, hpc⟩ := hjws
    rw [hpc] at ha hseg
    have hidle : AllIdle i out.shared.log := hlog ▸ ha.cons fun _ => h.idle_jws hpc
    rcases jwsSeg_goto hseg hn with ⟨p', e⟩ | ⟨hs | ⟨a, p', e⟩, -⟩
    · rw [e]
      exact hidle
    · exact Pc.isStart_accounts hs hidle
    · rw [e]
      trivial
  · have hco : u.pc.coroutine = t.pc.coroutine := by
      rcases h.coroutine hu with e | ⟨req, a, payload, rowcount, e, -⟩
      · exact e
      · exact absurd ⟨req, _, e⟩ hjws
    cases hupc : u.pc with
    | jws req q =>
        rw [hupc] at hco
        obtain ⟨p, hpc⟩ := Pc.eq_jws hco.symm
        exact absurd ⟨req, p, hpc⟩ hjws
    | finalize a id q =>
        rw [hupc] at hco hn
        obtain ⟨p, hpc⟩ := Pc.eq_finalize hco.symm
        rw [hpc] at ha hseg
        have hseg := Option.some.inj hseg
        have hbefore : AllIdle i c.shared.log := by
          cases p with
          | authzs order => exact absurd hn (hseg ▸ ((Seg.respond_quiet _).map _).next _)
          | _ => exact ha
        rw [hlog]
        rcases h.claims_finalize hk hpc with ⟨hidle, hne⟩ | ⟨hc, hx, hs, order, hgo⟩
        · cases q with
          | authzs order => exact absurd hn (hne order)
          | _ => exact hbefore.cons fun _ => hidle
        · rw [hgo] at hn
          cases hn
          exact ⟨[], h.entry, c.shared.log, rfl, rfl, hc, hx, hs, List.forall_mem_nil _, hbefore⟩
    | _ => trivial

/-- The last step of a finalize request is idle. -/
theorem Turn.idle_of_finalize (h : Turn o cfg c i t seg out) (hk : t.pc.Knows i c.shared t.tx)
    {id : String} (hof : h.entry.OfFinalize id) (hend : ∀ p, seg.next ≠ .goto p) :
    h.entry.Idle := by
  rcases hof with ⟨a, p, hpc⟩ | ⟨req, p, hpc, -⟩
  · rcases h.claims_finalize hk hpc with ⟨hidle, -⟩ | ⟨-, -, -, order, hgo⟩
    · exact hidle
    · exact absurd hgo (hend _)
  · exact h.idle_jws hpc

/-- A finalize request that is refused had claimed nothing. -/
theorem Turn.idle_before (h : Turn o cfg c i t seg out) {id : String}
    (hof : h.entry.OfFinalize id) (ha : t.pc.Accounts i c.shared.log)
    (hend : (∃ r, seg.next = .respond r ∧ r.status ≠ 200) ∨ seg.next = .raised) :
    AllIdle i c.shared.log := by
  rcases hof with ⟨a, p, hpc⟩ | ⟨req, p, hpc, -⟩
  · have hpc : t.pc = .finalize a id p := hpc
    rw [hpc] at ha
    cases p with
    | authzs order =>
        rcases h.runs with ⟨ch, hseg⟩ | rfl
        · rw [hpc] at hseg
          have hseg := Option.some.inj hseg
          subst hseg
          rcases hend with ⟨r, hr, hst⟩ | hr
          · cases hr
            exact absurd rfl hst
          · cases hr
        · rcases hend with ⟨r, hr, -⟩ | hr <;> cases hr
    | _ => exact ha
  · have hpc : t.pc = .jws req p := hpc
    rw [hpc] at ha
    exact ha

/-- What the log says of the requests that are over, after a turn. -/
theorem Turn.settled (h : Turn o cfg c i t seg out) (hk : t.pc.Knows i c.shared t.tx)
    (halive : ∀ e ∈ c.shared.log, e.tid = i → ∃ p, e.seg.next = .goto p)
    (ha : t.pc.Accounts i c.shared.log) (hs : Settled c.shared.log) : Settled out.shared.log := by
  have hlog : out.shared.log = h.entry :: c.shared.log := h.log
  rw [hlog]
  intro e he id hof
  rcases List.mem_cons.mp he with rfl | he
  · -- the request of this turn
    refine ⟨fun r hr hst => ?_, fun hend => ?_⟩
    · rcases h.answer_finalize hof hr with hle | ⟨-, a, order, hpc⟩
      · omega
      · rw [hpc] at ha
        refine Won.cons (fun _ => h.idle_of_finalize hk hof fun p hp => ?_) ha
        rw [show seg.next = .respond r from hr] at hp
        cases hp
    · refine AllIdle.cons (fun _ => h.idle_of_finalize hk hof fun p hp => ?_)
        (h.idle_before hof ha hend)
      rcases hend with ⟨r, hr, -⟩ | hr <;>
        rw [show seg.next = _ from hr] at hp <;> cases hp
  · -- a request that is over runs no more
    obtain ⟨h200, hno⟩ := hs e he id hof
    have hother : (∀ p, e.seg.next ≠ .goto p) → h.entry.tid = e.tid → h.entry.Idle := by
      intro hend hi
      obtain ⟨p, hp⟩ := halive e he hi.symm
      exact absurd hp (hend p)
    refine ⟨fun r hr hst => (h200 r hr hst).cons (hother ?_), fun hend => (hno hend).cons (hother ?_)⟩
    · intro p hp
      rw [hr] at hp
      cases hp
    · intro p hp
      rcases hend with ⟨r, hr, -⟩ | hr <;> rw [hr] at hp <;> cases hp

def claimSafety (o : Oracle) (cfg : Settings) (P : Relay → Relay → Prop) : Safety o cfg P where
  Inv _ s := Settled s.log
  Ok i s t := t.pc.Accounts i s.log
  start := List.forall_mem_nil _
  run {c i t seg out} hr h _ hI ha := by
    have hk := knows hr h.task
    refine ⟨h.settled hk (fun e he hi => tid_alive hr h.task he hi) ha hI,
      fun u hu => h.accounts hk hu ha, fun b _ => ?_⟩
    cases b <;> trivial
  others {c i j t u seg out} _ h _ _ _ _ hne hu := by
    have hlog : out.shared.log = h.entry :: c.shared.log := h.log
    have hother : h.entry.tid = j → h.entry.Idle := fun e => absurd e.symm hne
    rw [hlog]
    cases hpc : u.pc with
    | jws req p =>
        rw [hpc] at hu
        exact AllIdle.cons hother hu
    | finalize a id p =>
        rw [hpc] at hu
        cases p with
        | authzs order => exact Won.cons hother hu
        | get _ | update _ _ _ | commit _ _ _ _ | status => exact AllIdle.cons hother hu
    | _ => trivial
  request {c t} hr _ _ hpc := by
    have hidle : AllIdle c.next c.shared.log :=
      fun e he hi => absurd hi (tid_lt hr he).ne
    rcases hpc with ⟨req, e⟩ | ⟨p, e⟩ | ⟨cutoff, e⟩ <;> rw [e]
    · exact hidle
    all_goals trivial
  fresh hI := hI
  clock _ hI := ⟨hI, fun _ _ h => h⟩
  restart hI := ⟨hI, trivial⟩

/-- What the log says of a request that is suspended. -/
theorem accounts {P : Relay → Relay → Prop} (h : Reach (relay o cfg) P .init c)
    (ht : c.tasks i = some t) : t.pc.Accounts i c.shared.log :=
  ((claimSafety o cfg P).reach h).2 i t ht

/-- **Finalize requests, claims and tasks.**  A request that is answered 200 has claimed its order
and created its task, each once; one that is refused has done nothing; and between two claims of
one order it was turned ready. -/
theorem finalize_accounting (h : Reachable o cfg c) :
    Settled c.shared.log ∧
    ∀ id l₃ e' l₂ e l₁, c.shared.log = l₃ ++ e' :: (l₂ ++ e :: l₁) → e.Claims id → e'.Claims id →
      ∃ w ∈ l₂, w.pre.orderStatus id ≠ some .ready ∧ w.post.orderStatus id = some .ready := by
  refine ⟨((claimSafety o cfg _).reach h).1, fun id l₃ e' l₂ e l₁ hlog hc hc' => ?_⟩
  have hrec := recorded h
  rw [hlog] at hrec
  obtain ⟨w, hw, hpre, hpost⟩ := hrec.tail.lost (Q := fun db => db.orderStatus id ≠ some .ready)
    (by rw [hc.2]; exact nofun) (fun hn => hn hc'.1)
  exact ⟨w, hw, hpre, not_not.mp hpost⟩

end

/-- The finalized order, finalized once more while its certificate is issued. -/
def Demo.finalizedAgain : List (Nat → List (Action Input)) :=
  finalizedOrder ++ [call (request 11 5 3) (turns 4)]

/-- The entry answers a `finalize` of order `3` with the status. -/
def Demo.answersFinalize (st : Nat) (e : Entry) : Bool :=
  match e.pc, e.seg.next with
  | .finalize _ id _, .respond r => decide (id = Demo.uuid 3) && decide (r.status = st)
  | _, _ => false

theorem finalize_accounting_run :
    ∃ c, Demo.run (fun _ _ => true) Demo.finalizedAgain = some c ∧
      (∃ e ∈ c.shared.log, (∃ r, e.seg.next = .respond r ∧ r.status = 200) ∧
        Won e.tid (Demo.uuid 3) c.shared.log) ∧
      ∃ e ∈ c.shared.log, (∃ r, e.seg.next = .respond r ∧ r.status = 403) ∧
        AllIdle e.tid c.shared.log := by
  have hrun : (Demo.run (fun _ _ => true) Demo.finalizedAgain).any (fun c =>
      [200, 403].all fun st => c.shared.log.any (Demo.answersFinalize st)) = true := by
    decide +kernel
  obtain ⟨c, hc, h⟩ := (Option.any_eq_true _ _).mp hrun
  obtain ⟨hsettled, -⟩ := finalize_accounting (Demo.reach (fun _ _ => trivial) hc)
  have hof : ∀ st ∈ [200, 403], ∃ e ∈ c.shared.log, e.OfFinalize (Demo.uuid 3) ∧
      ∃ r, e.seg.next = .respond r ∧ r.status = st := by
    intro st hst
    obtain ⟨e, he, ha⟩ := List.any_eq_true.mp (List.all_eq_true.mp h st hst)
    unfold Demo.answersFinalize at ha
    split at ha
    · rename_i a id p r hpc hr
      simp only [Bool.and_eq_true, decide_eq_true_eq] at ha
      obtain ⟨rfl, hst⟩ := ha
      exact ⟨e, he, .inl ⟨a, p, hpc⟩, r, hr, hst⟩
    · cases ha
  obtain ⟨e, he, hfin, r, hr, hst⟩ := hof 200 (by decide)
  obtain ⟨e', he', hfin', r', hr', hst'⟩ := hof 403 (by decide)
  refine ⟨c, hc, ⟨e, he, ⟨r, hr, hst⟩, (hsettled e he _ hfin).1 r hr hst⟩,
    e', he', ⟨r', hr', hst'⟩, (hsettled e' he' _ hfin').2 (.inl ⟨r', hr', ?_⟩)⟩
  rw [hst']
  decide

end Jackdaw
