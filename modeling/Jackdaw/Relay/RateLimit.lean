import Jackdaw.Relay.Expiry

/-!
# Relay — the order rate limit

`_check_order_rate_limit` counts the orders the account has placed since the start of the window,
and `new_order` inserts the next one in a statement of its own, behind another await.  Two requests
of one account that both count before either commits see the same number (`limit_exceeded`).

* `rate_limit_holds`: where no `new_order` counts while another one of its account is between count
  and commit, and the clock does not go back, every window has at most as many orders of an account
  as the limit says; and the count looks at the orders of the account only.

The window of a count starts where its request read the clock, and the order is dated when the
count has returned.  So a window that reaches up to the new order starts no earlier than the one
that was counted.
-/

namespace Jackdaw

open Support Support.Interleave

/-- How many orders of account `a` were created from `s` on. -/
def Db.ordersSince (db : Db) (a : String) (s : Int) : Nat :=
  db.orders.count fun _ r => decide (r.accountId = a) && decide (s ≤ r.createdAt)

/-- How many orders of account `a` were created from `s` to `e`. -/
def Db.ordersIn (db : Db) (a : String) (s e : Int) : Nat :=
  db.orders.count fun _ r =>
    decide (r.accountId = a) && (decide (s ≤ r.createdAt) && decide (r.createdAt ≤ e))

/-- Every window has at most as many orders of an account as the limit says. -/
def RateLimited (cfg : Settings) (db : Db) : Prop :=
  ∀ a s, (db.ordersIn a s (s + seconds cfg.orderRateWindow) : Int) ≤ cfg.orderRateLimit

/-- The two databases have the same orders of account `a`. -/
def Db.SameOrders (a : String) (db db' : Db) : Prop :=
  ∀ id r, r.accountId = a → (db.orders.get id = some r ↔ db'.orders.get id = some r)

/-- The account whose order the task is about to commit. -/
def Pc.placing : Pc → Option String
  | .newOrder a (.commit _ _ _) => some a
  | _ => none

/-- **The step is no overlapping count**: where a `new_order` counts, no other one of its account is
about to commit. -/
def CountsAlone (c c' : Relay) : Prop :=
  ∀ e, c'.shared.log = e :: c.shared.log → ∀ a ids start, e.pc = .newOrder a (.count ids start) →
    ∀ j u, c.tasks j = some u → u.pc.placing ≠ some a

/-- What a `new_order` knows of the window, in a relay with a limit: it starts no later than it
would now, and the order that is about to be committed has room in it. -/
def Pc.HasRoom (cfg : Settings) (s : Shared) : Pc → Prop
  | .newOrder _ (.count _ start) => start ≤ s.now - seconds cfg.orderRateWindow
  | .newOrder a (.commit _ row _) => ∀ x, row.createdAt ≤ x + seconds cfg.orderRateWindow →
      (s.db.ordersSince a x : Int) < cfg.orderRateLimit
  | _ => True

/-! ### Counting -/

/-- A count of orders of account `a` that looks at their account and their date only. -/
theorem Db.count_orders_le {db db' : Db} {a : String} {p : Int → Bool}
    (h : ∀ {id r'}, db'.orders.get id = some r' → r'.accountId = a →
      ∃ r, db.orders.get id = some r ∧ r'.fixed = r.fixed) :
    (db'.orders.count fun _ r => decide (r.accountId = a) && p r.createdAt) ≤
      db.orders.count fun _ r => decide (r.accountId = a) && p r.createdAt := by
  refine Table.count_le fun {id r'} hr' hp => ?_
  rw [Bool.and_eq_true, decide_eq_true_eq] at hp
  obtain ⟨r, hr, hf⟩ := h hr' hp.1
  simp only [Order.fixed, Prod.mk.injEq] at hf
  refine ⟨r, hr, ?_⟩
  rw [Bool.and_eq_true, decide_eq_true_eq, ← hf.1, ← hf.2.2.2]
  exact hp

theorem Db.ordersSince_le {db db' : Db} {a : String} {s : Int}
    (h : ∀ {id r'}, db'.orders.get id = some r' → r'.accountId = a →
      ∃ r, db.orders.get id = some r ∧ r'.fixed = r.fixed) :
    db'.ordersSince a s ≤ db.ordersSince a s :=
  Db.count_orders_le (p := fun x => decide (s ≤ x)) h

theorem Db.ordersIn_le {db db' : Db} {a : String} {s e : Int}
    (h : ∀ {id r'}, db'.orders.get id = some r' → r'.accountId = a →
      ∃ r, db.orders.get id = some r ∧ r'.fixed = r.fixed) :
    db'.ordersIn a s e ≤ db.ordersIn a s e :=
  Db.count_orders_le (p := fun x => decide (s ≤ x) && decide (x ≤ e)) h

/-- A later start leaves fewer. -/
theorem Db.ordersSince_anti {db : Db} {a : String} {s s' : Int} (h : s ≤ s') :
    db.ordersSince a s' ≤ db.ordersSince a s := by
  refine Table.count_le fun {id r} hr hp => ⟨r, hr, ?_⟩
  simp only [Bool.and_eq_true, decide_eq_true_eq] at hp ⊢
  exact ⟨hp.1, h.trans hp.2⟩

/-- **The decision is about the orders of the account.** -/
theorem newOrderSeg_count {cfg : Settings} {a : String} {db db' : Db} (h : db.SameOrders a db')
    (ids : List Identifier) (start now : Int) (ch : Choice) :
    newOrderSeg cfg a db now (.count ids start) ch =
      newOrderSeg cfg a db' now (.count ids start) ch := by
  have hcount : db.ordersSince a start = db'.ordersSince a start := by
    refine Nat.le_antisymm (Db.ordersSince_le fun hr ha => ?_) (Db.ordersSince_le fun hr ha => ?_)
    · exact ⟨_, (h _ _ ha).mp hr, rfl⟩
    · exact ⟨_, (h _ _ ha).mpr hr, rfl⟩
  simp only [Db.ordersSince] at hcount
  simp only [newOrderSeg, hcount]

section

variable {o : Oracle} {cfg : Settings} {c : Relay} {i : Nat} {t u : Task} {seg : Seg Pc}
  {out : Outcome Shared Task}

/-! ### The way of a `new_order` -/

theorem newOrderStart_counts (hL : 0 < cfg.orderRateLimit) {a : String} {payload : Json}
    {now : Int} {ch : Choice} {seg : Seg NewOrderPc}
    (h : newOrderStart o cfg a payload now ch = some seg) :
    seg.Reads fun p => ∃ ids, p = .count ids (now - seconds cfg.orderRateWindow) := by
  unfold newOrderStart at h
  split at h
  · cases Option.some.inj h
    exact .fail _
  · split at h
    · cases Option.some.inj h
      exact .fail _
    · rw [if_pos hL] at h
      cases Option.some.inj h
      exact .goto ⟨_, rfl⟩

/-- A request becomes a `new_order` before its count. -/
theorem Turn.starts_counting (hL : 0 < cfg.orderRateLimit) (h : Turn o cfg c i t seg out)
    (hu : out.self = some u) {a : String} {q : NewOrderPc} (hq : u.pc = .newOrder a q) :
    (∃ p, t.pc = .newOrder a p) ∨
      ∃ ids, q = .count ids (c.shared.now - seconds cfg.orderRateWindow) := by
  obtain ⟨ch, hseg⟩ := h.goes_on hu
  have hn := (h.self hu).1
  rcases h.coroutine hu with e | ⟨req, a', payload, rowcount, hpc, -⟩
  · rw [hq] at e
    cases hpc : t.pc with
    | newOrder a' p =>
        rw [hpc] at e
        cases e
        exact .inl ⟨p, rfl⟩
    | _ =>
        rw [hpc] at e
        cases e
  · rw [hpc] at hseg
    rw [hq] at hn
    have hseg : jwsSeg o cfg req c.shared.db c.shared.now ch (.commit a' payload rowcount) =
      some seg := hseg
    simp only [jwsSeg] at hseg
    split at hseg
    · cases Option.some.inj hseg
      exact absurd hn ((Seg.fail_quiet _).next _)
    · obtain ⟨seg', h', rfl⟩ := Option.map_eq_some_iff.mp hseg
      rcases routeStart_cases h' with ⟨seg'', -, h'', rfl⟩ | hr
      · obtain ⟨p', hn', e⟩ := Next.map_eq_goto hn
        cases e
        exact .inr ((newOrderStart_counts hL h'').of_goto hn')
      · have hs := (hr.of_goto hn).1
        cases hs

/-- What a count that passes has found. -/
theorem Turn.counted (h : Turn o cfg c i t seg out) (hu : out.self = some u) {a : String}
    {ids : List Identifier} {start : Int} (hpc : t.pc = .newOrder a (.count ids start)) :
    (c.shared.db.ordersSince a start : Int) < cfg.orderRateLimit ∧
      out.shared.db = c.shared.db ∧
      ∃ id row authzs, u.pc = .newOrder a (.commit id row authzs) ∧
        row.createdAt = c.shared.now := by
  obtain ⟨ch, hseg⟩ := h.goes_on hu
  have hn := (h.self hu).1
  rw [hpc] at hseg
  obtain ⟨seg', h', rfl⟩ := Option.map_eq_some_iff.mp hseg
  obtain ⟨p', hn', e⟩ := Next.map_eq_goto hn
  simp only [newOrderSeg] at h'
  split at h'
  · cases Option.some.inj h'
    exact absurd hn' ((Seg.fail_quiet _).next _)
  · rename_i hlt
    have hplace : seg'.Reads fun p => ∃ id row authzs, p = .commit id row authzs ∧
        row.createdAt = c.shared.now := by
      unfold placeOrder at h'
      split at h'
      · cases Option.some.inj h'
        exact .goto ⟨_, _, _, rfl, rfl⟩
      · cases h'
    obtain ⟨id, row, authzs, rfl, hrow⟩ := hplace.of_goto hn'
    have hdb : out.shared.db = c.shared.db := h.db_eq (by rw [Seg.map_commit, hplace.commit])
    exact ⟨not_le.mp hlt, hdb, id, row, authzs, e, hrow⟩

theorem newOrderSeg_count_commit {a : String} {db : Db} {now : Int} {ids : List Identifier}
    {start : Int} {ch : Choice} {seg : Seg NewOrderPc}
    (h : newOrderSeg cfg a db now (.count ids start) ch = some seg) : seg.commit = false := by
  simp only [newOrderSeg] at h
  split at h
  · cases Option.some.inj h
    exact (Seg.fail_quiet _).commit
  · unfold placeOrder at h
    split at h
    · cases Option.some.inj h
      rfl
    · cases h

/-! ### One at a time -/

theorem Pc.placing_eq_some {pc : Pc} {a : String} (h : pc.placing = some a) :
    ∃ id row authzs, pc = .newOrder a (.commit id row authzs) := by
  unfold Pc.placing at h
  split at h
  · cases h
    exact ⟨_, _, _, rfl⟩
  · cases h

/-- A task that is about to commit an order has just counted. -/
theorem Turn.places_after_count (hL : 0 < cfg.orderRateLimit) (h : Turn o cfg c i t seg out)
    (hu : out.self = some u) {a : String} (ha : u.pc.placing = some a) :
    ∃ ids start, t.pc = .newOrder a (.count ids start) := by
  obtain ⟨id, row, authzs, hq⟩ := Pc.placing_eq_some ha
  rcases h.starts_counting hL hu hq with ⟨p, hpc⟩ | ⟨ids, e⟩
  · cases p with
    | count ids start => exact ⟨ids, start, hpc⟩
    | commit id' row' authzs' =>
        obtain ⟨ch, hseg⟩ := h.goes_on hu
        rw [hpc] at hseg
        cases Option.some.inj hseg
        cases (h.self hu).1
  · cases e

/-- **Two requests of one account are not both about to commit.** -/
theorem placing_unique (hL : 0 < cfg.orderRateLimit) {P : Relay → Relay → Prop}
    (hP : ∀ {c c'}, P c c' → CountsAlone c c') (hr : Reach (relay o cfg) P .init c) {j : Nat}
    (hi : c.tasks i = some t) (hj : c.tasks j = some u) (hne : i ≠ j) {a : String}
    (ht : t.pc.placing = some a) : u.pc.placing ≠ some a := by
  refine Reach.pairwise (R := fun t u : Task => ∀ a, t.pc.placing = some a →
    u.pc.placing ≠ some a) (fun h a hu ht => h a ht hu) ?_ ?_ hr hi hj hne a ht
  · intro c i t b out hr hi ho hp
    obtain ⟨seg, h⟩ := turn_of_run hr hi ho
    have hchild : ∀ {u : Task}, out.child = some u → u.pc.placing = none := by
      intro u hu
      rw [h.child] at hu
      obtain ⟨b, -, rfl⟩ := Option.map_eq_some_iff.mp hu
      cases b <;> rfl
    refine ⟨fun u v _ hv a _ => ?_, fun j v hj _ _ => ⟨fun u hu a ha => ?_, fun u hu a ha => ?_⟩⟩
    · rw [hchild hv]
      exact nofun
    · -- it has counted, and nobody else was there
      obtain ⟨ids, start, hpc⟩ := h.places_after_count hL hu ha
      exact hP hp h.entry h.log a ids start hpc j v hj
    · rw [hchild hu] at ha
      cases ha
  · intro s b t ht u a ha
    obtain ⟨-, -, hpc⟩ := arrive_cases ht
    rcases hpc with ⟨req, e⟩ | ⟨p, e⟩ | ⟨cutoff, e⟩ <;> rw [e] at ha <;> cases ha

/-! ### Runs -/

/-- The orders of an account are placed by its own `new_order`. -/
theorem Turn.orders_of (h : Turn o cfg c i t seg out) {a : String} (ha : t.pc.placing ≠ some a) :
    ∀ {id r'}, out.shared.db.orders.get id = some r' → r'.accountId = a →
      ∃ r, c.shared.db.orders.get id = some r ∧ r'.fixed = r.fixed := by
  intro id r' hr' hacc
  rcases h.order_from hr' with hold | ⟨-, p, hpc⟩
  · exact hold
  · rw [hacc] at hpc
    cases p with
    | commit id' row authzs => exact absurd (by rw [hpc]; rfl) ha
    | count ids start =>
        -- the count commits nothing
        have hc : seg.commit = false := by
          by_contra hc
          rw [Bool.not_eq_false] at hc
          obtain ⟨ch, hseg⟩ := h.commits hc
          rw [hpc] at hseg
          obtain ⟨seg', h', rfl⟩ := Option.map_eq_some_iff.mp hseg
          rw [Seg.map_commit, newOrderSeg_count_commit h'] at hc
          cases hc
        rw [h.db_eq hc] at hr'
        exact ⟨r', hr', rfl⟩

/-- **A turn keeps the limit.** -/
theorem Turn.rateLimited (h : Turn o cfg c i t seg out) (hroom : t.pc.HasRoom cfg c.shared)
    (hI : RateLimited cfg c.shared.db) : RateLimited cfg out.shared.db := by
  intro a s
  by_cases ha : t.pc.placing = some a
  case neg =>
    have hle : out.shared.db.ordersIn a s (s + seconds cfg.orderRateWindow) ≤
        c.shared.db.ordersIn a s (s + seconds cfg.orderRateWindow) :=
      Db.ordersIn_le (h.orders_of ha)
    have := hI a s
    omega
  obtain ⟨id, row, authzs, hpc⟩ := Pc.placing_eq_some ha
  by_cases hc : seg.commit = true
  case neg =>
    rw [Bool.not_eq_true] at hc
    rw [h.db_eq hc]
    exact hI a s
  have hrows := h.places_order hpc hc
  by_cases hin : s ≤ row.createdAt ∧ row.createdAt ≤ s + seconds cfg.orderRateWindow
  · -- the window reaches up to the new order, so it was counted
    rw [hpc] at hroom
    have hlt := hroom s hin.2
    have hle : out.shared.db.ordersIn a s (s + seconds cfg.orderRateWindow) ≤
        c.shared.db.ordersSince a s + 1 := by
      refine Table.count_le_add_one id fun {k r} hne hr hp => ⟨r, ?_, ?_⟩
      · rw [hrows, if_neg hne] at hr
        exact hr
      · simp only [Bool.and_eq_true, decide_eq_true_eq] at hp ⊢
        exact ⟨hp.1, hp.2.1⟩
    omega
  · have hle : out.shared.db.ordersIn a s (s + seconds cfg.orderRateWindow) ≤
        c.shared.db.ordersIn a s (s + seconds cfg.orderRateWindow) := by
      refine Table.count_le fun {k r} hr hp => ⟨r, ?_, hp⟩
      rw [hrows] at hr
      split at hr
      · cases hr
        simp only [Bool.and_eq_true, decide_eq_true_eq] at hp
        exact absurd hp.2 hin
      · exact hr
    have := hI a s
    omega

/-- What a `new_order` knows of the window, after a turn. -/
theorem Turn.hasRoom (hL : 0 < cfg.orderRateLimit) (h : Turn o cfg c i t seg out)
    (hroom : t.pc.HasRoom cfg c.shared) (hu : out.self = some u) :
    u.pc.HasRoom cfg out.shared := by
  cases hq : u.pc with
  | newOrder a q =>
      rcases h.starts_counting hL hu hq with ⟨p, hpc⟩ | ⟨ids, rfl⟩
      · cases p with
        | count ids start =>
            obtain ⟨hlt, hdb, id, row, authzs, e, hrow⟩ := h.counted hu hpc
            rw [hq] at e
            cases e
            rw [hpc] at hroom
            intro x hx
            have hstart : start ≤ c.shared.now - seconds cfg.orderRateWindow := hroom
            have hle := c.shared.db.ordersSince_anti (a := a) (show start ≤ x by omega)
            rw [hdb]
            omega
        | commit id row authzs =>
            obtain ⟨ch, hseg⟩ := h.goes_on hu
            rw [hpc] at hseg
            cases Option.some.inj hseg
            cases (h.self hu).1
      · show c.shared.now - _ ≤ out.shared.now - _
        rw [h.now]
  | _ => trivial

/-- The turns of the others leave the room there was. -/
theorem Turn.hasRoom_other (h : Turn o cfg c i t seg out) {pc : Pc}
    (hne : ∀ a, pc.placing = some a → t.pc.placing ≠ some a) (hroom : pc.HasRoom cfg c.shared) :
    pc.HasRoom cfg out.shared := by
  cases pc with
  | newOrder a q =>
      cases q with
      | count ids start =>
          show start ≤ out.shared.now - _
          rw [h.now]
          exact hroom
      | commit id row authzs =>
          intro x hx
          have hle : out.shared.db.ordersSince a x ≤ c.shared.db.ordersSince a x :=
            Db.ordersSince_le (h.orders_of (hne a rfl))
          have := hroom x hx
          omega
  | _ => trivial

def rateSafety (o : Oracle) (cfg : Settings) (hL : 0 < cfg.orderRateLimit) :
    Safety o cfg fun c c' => MonotoneClock c c' ∧ CountsAlone c c' where
  Inv _ s := RateLimited cfg s.db
  Ok _ s t := t.pc.HasRoom cfg s
  start := fun _ _ => hL.le
  run {c i t seg out} _ h _ hI hroom := by
    refine ⟨h.rateLimited hroom hI, fun u hu => h.hasRoom hL hroom hu, fun b _ => ?_⟩
    cases b <;> trivial
  others hr h _ _ _ hj hne hroom :=
    h.hasRoom_other (fun _ ha => placing_unique hL (fun hp => hp.2) hr hj h.task hne ha) hroom
  request {c t} _ _ _ hpc := by
    rcases hpc with ⟨req, e⟩ | ⟨p, e⟩ | ⟨cutoff, e⟩ <;> rw [e] <;> trivial
  fresh hI := hI
  clock {c now} hp hI := by
    refine ⟨hI, fun j u hroom => ?_⟩
    have hle : c.shared.now ≤ now := hp.1
    cases hpc : u.pc with
    | newOrder a q =>
        rw [hpc] at hroom
        cases q with
        | count ids start =>
            have hroom : start ≤ c.shared.now - _ := hroom
            show start ≤ now - _
            omega
        | commit id row authzs => exact hroom
    | _ => trivial
  restart hI := ⟨hI, trivial⟩

/-- **The order rate limit holds**, in every run with a monotone clock in which no `new_order`
counts while another one of its account is about to commit; and orders of other accounts do not
bear on what a count decides. -/
theorem rate_limit_holds (hL : 0 < cfg.orderRateLimit) (h : Reach (relay o cfg)
    (fun c c' => MonotoneClock c c' ∧ CountsAlone c c') .init c) :
    RateLimited cfg c.shared.db ∧
    ∀ a db', c.shared.db.SameOrders a db' → ∀ ids start now ch,
      newOrderSeg cfg a c.shared.db now (.count ids start) ch =
        newOrderSeg cfg a db' now (.count ids start) ch :=
  ⟨((rateSafety o cfg hL).reach h).1, fun _ _ hs => newOrderSeg_count hs⟩

end

/-- A test for `CountsAlone` that may be run. -/
def countsAlone (c c' : Relay) : Bool :=
  c'.shared.log.head?.all fun e => match e.pc with
    | .newOrder a (.count _ _) => (List.range c.next).all fun j =>
        (c.tasks j).all fun u => decide (u.pc.placing ≠ some a)
    | _ => true

theorem countsAlone_sound {o : Oracle} {cfg : Settings} {P : Relay → Relay → Prop} {c c' : Relay}
    (hr : Reach (relay o cfg) P .init c) (h : countsAlone c c' = true) : CountsAlone c c' := by
  intro e he a ids start hpc j u hj
  simp only [countsAlone, he, List.head?_cons, Option.all_some, hpc, List.all_eq_true,
    List.mem_range] at h
  have hj' := h j (hr.lt_next hj)
  rw [hj, Option.all_some] at hj'
  exact of_decide_eq_true hj'

/-- One order a week. -/
def Demo.limited : Settings := { Demo.settings with orderRateLimit := 1 }

/-- `new_order` up to its commit, with the identifiers it draws. -/
def Demo.count (n : UInt8) (id z : Nat) : Nat → List (Action Input) :=
  call (request 11 n 1) (turns 3 ++ [{ uuid := uuid id, authzs := [(uuid z, "tok")] }])

/-- The relay with a limit, after a script. -/
def Demo.runLimited (p : Relay → Relay → Bool) (parts : List (Nat → List (Action Input))) :
    Option Relay :=
  (relay oracle limited).schedule p (.start .init) (script 0 parts)

/-- An account places an order, and is refused a second one. -/
def Demo.orderedOnce : List (Nat → List (Action Input)) :=
  [boot, nonce 1, nonce 2, nonce 3, account 1 1, count 2 3 4, fun _ => go 16 (turns 1),
    call (request 11 3 1) (turns 4)]

theorem rate_limit_holds_run :
    ∃ c, Demo.runLimited (fun c c' => monotoneClock c c' && countsAlone c c')
        Demo.orderedOnce = some c ∧
      c.shared.db.ordersIn (Demo.uuid 1) 0 (seconds Demo.limited.orderRateWindow) = 1 ∧
      RateLimited Demo.limited c.shared.db := by
  have hrun : (Demo.runLimited (fun c c' => monotoneClock c c' && countsAlone c c')
      Demo.orderedOnce).any (fun c => decide (c.shared.db.ordersIn (Demo.uuid 1) 0
        (seconds Demo.limited.orderRateWindow) = 1)) = true := by decide +kernel
  obtain ⟨c, hc, h⟩ := (Option.any_eq_true _ _).mp hrun
  refine ⟨c, hc, of_decide_eq_true h,
    (rate_limit_holds (by decide) (Reach.schedule (fun hr _ h => ?_) _ .start hc)).1⟩
  rw [Bool.and_eq_true] at h
  exact ⟨monotoneClock_sound h.1, countsAlone_sound hr h.2⟩

/-- Two requests of an account count before either commits. -/
def Demo.orderedTwice : List (Nat → List (Action Input)) :=
  [boot, nonce 1, nonce 2, nonce 3, account 1 1, count 2 3 4, count 3 5 6,
    fun _ => go 16 (turns 1), fun _ => go 21 (turns 1)]

/-- **Two orders where the limit is one.** -/
theorem limit_exceeded :
    ¬ ∀ c, Reach (relay Demo.oracle Demo.limited) MonotoneClock .init c →
      RateLimited Demo.limited c.shared.db := by
  intro hall
  have hrun : (Demo.runLimited monotoneClock Demo.orderedTwice).any (fun c =>
      decide (c.shared.db.ordersIn (Demo.uuid 1) 0
        (0 + seconds Demo.limited.orderRateWindow) = 2)) = true := by decide +kernel
  obtain ⟨c, hc, h⟩ := (Option.any_eq_true _ _).mp hrun
  have hle := hall c (Reach.schedule (fun _ _ h => monotoneClock_sound h) _ .start hc)
    (Demo.uuid 1) 0
  rw [of_decide_eq_true h] at hle
  exact absurd hle (by decide)

end Jackdaw
