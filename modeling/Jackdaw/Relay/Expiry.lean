import Jackdaw.Relay.Claims

/-!
# Relay — expiry of orders

`new_order` gives an order a day (`expires_at`), and no handler looks at it again: a ready order is
finalized at any later time (`finalized_late`).

* `expiry_enforced_iff`: in a run with a monotone clock, expiry was enforced on finalize requests and
  issuing tasks exactly when every finalize request whose conditional `UPDATE` found its order ready
  has committed it by the expiry of the order, or not at all (`ClaimsInTime`).
-/

namespace Jackdaw

open Support Support.Interleave

/-- The clock does not go back. -/
def MonotoneClock (c c' : Relay) : Prop := c.shared.now ≤ c'.shared.now

/-- The order's expiry has passed. -/
def Db.Expired (db : Db) (id : String) (now : Int) : Prop :=
  ∃ r x, db.orders.get id = some r ∧ r.expiresAt = some x ∧ x < now

theorem Db.Expired.mono {db db' : Db} {id : String} {now now' : Int} (h : db.Expired id now)
    (hg : db.Grows db') (hle : now ≤ now') : db'.Expired id now' := by
  obtain ⟨r, x, hr, hx, hlt⟩ := h
  obtain ⟨r', hr', hf⟩ := hg.orders hr
  exact ⟨r', x, hr', (Order.fixed_eq hf).2.2.trans hx, hlt.trans_le hle⟩

/-- The entry is the look-up of a finalize request for order `id`, made after the expiry. -/
def Entry.Late (e : Entry) (id : String) : Prop :=
  (∃ a csr, e.pc = .finalize a id (.get csr)) ∧ e.pre.Expired id e.now

/-- Expiry is enforced: no issuing task was created after the expiry of its order, and no finalize
request that loaded the order after it was answered 200. -/
structure ExpiryEnforced (l : List Entry) : Prop where
  dispatch : ∀ e ∈ l, ∀ id, e.issues id = true → ¬ e.pre.Expired id e.now
  answer : ∀ g ∈ l, ∀ e ∈ l, ∀ id r, g.Late id → e.tid = g.tid → e.seg.next = .respond r →
    r.status ≠ 200

/-- The entry is the conditional `UPDATE` of a finalize request for order `id`. -/
def Entry.SendsClaim (e : Entry) (id : String) : Prop :=
  ∃ a order csrDer domain, e.pc = .finalize a id (.update order csrDer domain)

/-- The entry is the `commit` behind it, or its failure. -/
def Entry.AtClaim (e : Entry) (id : String) : Prop :=
  ∃ a order csrDer domain rowcount, e.pc = .finalize a id (.commit order csrDer domain rowcount)

/-- Every finalize request that sends its conditional `UPDATE` while the order is ready commits it
by the expiry of the order, unless the commit fails or is never made. -/
def ClaimsInTime (l : List Entry) : Prop :=
  ∀ u ∈ l, ∀ e ∈ l, ∀ id, u.SendsClaim id → u.pre.orderStatus id = some .ready → e.tid = u.tid →
    e.AtClaim id → e.seg.next ≠ .dbError → ¬ e.pre.Expired id e.now

/-! ### The invariant -/

/-- Task `i` is a finalize request that loaded order `id` after its expiry. -/
def LateTask (i : Nat) (l : List Entry) (id : String) : Prop := ∃ g ∈ l, g.tid = i ∧ g.Late id

theorem LateTask.of_cons {i : Nat} {e : Entry} {l : List Entry} {id : String}
    (h : LateTask i (e :: l) id) : (e.tid = i ∧ e.Late id) ∨ LateTask i l id := by
  obtain ⟨g, hg, hi, hl⟩ := h
  rcases List.mem_cons.mp hg with rfl | hg
  · exact .inl ⟨hi, hl⟩
  · exact .inr ⟨g, hg, hi, hl⟩

/-- An issuing task of order `id` was created after the expiry. -/
def IssuedLate (l : List Entry) (id : String) : Prop :=
  ∃ w ∈ l, w.issues id = true ∧ w.pre.Expired id w.now

theorem IssuedLate.cons {e : Entry} {l : List Entry} {id : String} (h : IssuedLate l id) :
    IssuedLate (e :: l) id := by
  obtain ⟨w, hw, hi, hx⟩ := h
  exact ⟨w, List.mem_cons_of_mem e hw, hi, hx⟩

/-- What the log says of task `i`: it has loaded no expired order, or it is the finalize request
that has, on its way to the claim or past it. -/
def Pc.Dated (i : Nat) (s : Shared) : Pc → Prop
  | .finalize _ _ (.authzs _) => ∀ id, LateTask i s.log id → IssuedLate s.log id
  | .finalize _ id' (.update _ _ _) | .finalize _ id' (.commit _ _ _ _)
  | .finalize _ id' .status => ∀ id, LateTask i s.log id → id = id' ∧ s.db.Expired id s.now
  | _ => ∀ id, ¬ LateTask i s.log id

theorem Pc.Dated.of_not_late {i : Nat} {s : Shared} (h : ∀ id, ¬ LateTask i s.log id) (pc : Pc) :
    pc.Dated i s := by
  unfold Pc.Dated
  split
  · exact fun id hl => absurd hl (h id)
  · exact fun id hl => absurd hl (h id)
  · exact fun id hl => absurd hl (h id)
  · exact fun id hl => absurd hl (h id)
  · exact h

theorem Pc.Dated.not_late {i : Nat} {s : Shared} {pc : Pc} (h : pc.Dated i s)
    (hpc : ∀ a id p, pc ≠ .finalize a id p) : ∀ id, ¬ LateTask i s.log id := by
  unfold Pc.Dated at h
  split at h
  · exact absurd rfl (hpc _ _ _)
  · exact absurd rfl (hpc _ _ _)
  · exact absurd rfl (hpc _ _ _)
  · exact absurd rfl (hpc _ _ _)
  · exact h

/-- Task `i` has sent no conditional `UPDATE`. -/
def Unclaimed (i : Nat) (l : List Entry) : Prop :=
  ∀ e ∈ l, e.tid = i → ∀ id, ¬ e.SendsClaim id ∧ ¬ e.AtClaim id

/-- Task `i` has sent one, for order `id`, and it matched `rowcount` orders. -/
structure SentClaim (i : Nat) (id : String) (rowcount : Nat) (l : List Entry) : Prop where
  sent : ∃ e ∈ l, e.tid = i ∧ e.SendsClaim id
  matched : ∀ e ∈ l, e.tid = i → ∀ k, e.SendsClaim k →
    k = id ∧ (rowcount ≠ 0 ↔ e.pre.orderStatus id = some .ready)

/-- The conditional `UPDATE` in the log of a task. -/
def Pc.Sent (i : Nat) (l : List Entry) : Pc → Prop
  | .finalize _ id (.commit _ _ _ rowcount) => SentClaim i id rowcount l
  | .finalize _ _ .status | .finalize _ _ (.authzs _) => True
  | _ => Unclaimed i l

/-- A task that has not run yet has claimed nothing. -/
theorem Unclaimed.of_lt {i : Nat} {l : List Entry} (h : ∀ e ∈ l, e.tid < i) : Unclaimed i l :=
  fun e he hi => absurd hi (h e he).ne

theorem Unclaimed.cons {i : Nat} {e : Entry} {l : List Entry} (h : Unclaimed i l)
    (he : e.tid = i → ∀ id, ¬ e.SendsClaim id ∧ ¬ e.AtClaim id) : Unclaimed i (e :: l) :=
  List.forall_mem_cons.mpr ⟨he, h⟩

theorem SentClaim.cons {i : Nat} {id : String} {rowcount : Nat} {e : Entry} {l : List Entry}
    (h : SentClaim i id rowcount l) (he : e.tid ≠ i) : SentClaim i id rowcount (e :: l) where
  sent := by
    obtain ⟨u, hu, hi, hs⟩ := h.sent
    exact ⟨u, List.mem_cons_of_mem e hu, hi, hs⟩
  matched := List.forall_mem_cons.mpr ⟨fun hi => absurd hi he, h.matched⟩

theorem Pc.Sent.unclaimed {i : Nat} {l : List Entry} {pc : Pc} (h : pc.Sent i l)
    (hpc : ∀ a id p, pc ≠ .finalize a id p) : Unclaimed i l := by
  unfold Pc.Sent at h
  split at h
  · exact absurd rfl (hpc _ _ _)
  · exact absurd rfl (hpc _ _ _)
  · exact absurd rfl (hpc _ _ _)
  · exact h

theorem Pc.Sent.of_unclaimed {i : Nat} {l : List Entry} {pc : Pc} (h : Unclaimed i l)
    (hpc : ∀ a id order csrDer domain rowcount,
      pc ≠ .finalize a id (.commit order csrDer domain rowcount)) : pc.Sent i l := by
  unfold Pc.Sent
  split
  · exact absurd rfl (hpc _ _ _ _ _ _)
  · trivial
  · trivial
  · exact h

section

variable {o : Oracle} {cfg : Settings} {c : Relay} {i j : Nat} {t u : Task} {seg : Seg Pc}
  {out : Outcome Shared Task}

/-- The turns of the others leave what a task has claimed. -/
theorem Turn.sent_other (h : Turn o cfg c i t seg out) (hne : j ≠ i)
    (hu : u.pc.Sent j c.shared.log) : u.pc.Sent j out.shared.log := by
  have hi : h.entry.tid ≠ j := Ne.symm hne
  have hlog : out.shared.log = h.entry :: c.shared.log := h.log
  rw [hlog]
  unfold Pc.Sent at hu ⊢
  split at hu
  · exact hu.cons hi
  · trivial
  · trivial
  · exact hu.cons fun e => absurd e hi

/-- What a finalize request has claimed, after its turn. -/
theorem Turn.sent_finalize (h : Turn o cfg c i t seg out) (hu : out.self = some u)
    (hs : t.pc.Sent i c.shared.log) {a id : String} {p : FinalizePc}
    (hpc : t.pc = .finalize a id p) : u.pc.Sent i out.shared.log := by
  obtain ⟨ch, hseg⟩ := h.goes_on hu
  have hn := (h.self hu).1
  have hlog : out.shared.log = h.entry :: c.shared.log := h.log
  rw [hpc] at hseg hs
  have hseg := Option.some.inj hseg
  cases p with
  | get csr =>
      have hr : seg.Reads fun q => ∃ order csrDer domain,
          q = .finalize a id (.update order csrDer domain) :=
        hseg ▸ .map _ (.attempt fun _ _ => .attempt fun _ _ => .goto ⟨_, _, _, rfl⟩)
      obtain ⟨⟨order, csrDer, domain, hq⟩, -, -⟩ := h.reads hr hu
      rw [hq, hlog]
      refine Unclaimed.cons hs fun _ k => ⟨?_, ?_⟩
      · rintro ⟨_, _, _, _, e⟩
        cases hpc.symm.trans e
      · rintro ⟨_, _, _, _, _, e⟩
        cases hpc.symm.trans e
  | update order csrDer domain =>
      subst hseg
      rw [← Next.goto.inj hn, hlog]
      have hold : Unclaimed i c.shared.log := hs
      refine ⟨⟨h.entry, List.mem_cons_self, rfl, a, order, csrDer, domain, hpc⟩, ?_⟩
      refine List.forall_mem_cons.mpr ⟨fun _ k hk => ?_, fun e he hi k hk =>
        absurd hk (hold e he hi k).1⟩
      obtain ⟨_, _, _, _, e⟩ := hk
      cases hpc.symm.trans e
      exact ⟨rfl, claim_count⟩
  | commit order csrDer domain rowcount =>
      simp only [finalizeSeg] at hseg
      split at hseg
      all_goals
        subst hseg
        rw [← Next.goto.inj hn]
        trivial
  | status => exact absurd hn (hseg ▸ ((Seg.fail_quiet _).map _).next _)
  | authzs order => exact absurd hn (hseg ▸ ((Seg.respond_quiet _).map _).next _)

theorem Turn.sent (h : Turn o cfg c i t seg out) (hu : out.self = some u)
    (hs : t.pc.Sent i c.shared.log) : u.pc.Sent i out.shared.log := by
  by_cases hfin : ∃ a id p, t.pc = .finalize a id p
  · obtain ⟨a, id, p, hpc⟩ := hfin
    exact h.sent_finalize hu hs hpc
  · have hpc : ∀ a id p, t.pc ≠ .finalize a id p := fun a id p e => hfin ⟨a, id, p, e⟩
    have hlog : out.shared.log = h.entry :: c.shared.log := h.log
    refine .of_unclaimed ?_ fun a id order csrDer domain rowcount e => ?_
    · rw [hlog]
      refine (hs.unclaimed hpc).cons fun _ k => ⟨?_, ?_⟩
      · rintro ⟨_, _, _, _, e⟩
        exact hpc _ _ _ e
      · rintro ⟨_, _, _, _, _, e⟩
        exact hpc _ _ _ e
    · -- a finalize request starts with its look-up
      rcases h.stays_or_starts hu with hco | hstart | ⟨b, q, e'⟩
      · rw [e] at hco
        obtain ⟨q, hq⟩ := Pc.eq_finalize hco.symm
        exact hpc _ _ _ hq
      · rw [e] at hstart
        cases hstart
      · rw [e] at e'
        cases e'

/-- The turns of the others leave what the log says of a task. -/
theorem Turn.dated_other (h : Turn o cfg c i t seg out) (hne : j ≠ i)
    (hu : u.pc.Dated j c.shared) : u.pc.Dated j out.shared := by
  have hlate : ∀ {id}, LateTask j out.shared.log id → LateTask j c.shared.log id := by
    intro id hl
    rw [h.log] at hl
    rcases hl.of_cons with ⟨hi, -⟩ | hl
    · exact absurd hi.symm hne
    · exact hl
  unfold Pc.Dated at hu ⊢
  split at hu
  · intro id hl
    rw [h.log]
    exact (hu id (hlate hl)).cons
  · intro id hl
    obtain ⟨e, hx⟩ := hu id (hlate hl)
    exact ⟨e, hx.mono h.grows h.now.ge⟩
  · intro id hl
    obtain ⟨e, hx⟩ := hu id (hlate hl)
    exact ⟨e, hx.mono h.grows h.now.ge⟩
  · intro id hl
    obtain ⟨e, hx⟩ := hu id (hlate hl)
    exact ⟨e, hx.mono h.grows h.now.ge⟩
  · exact fun id hl => hu id (hlate hl)

/-- One step of a finalize request. -/
theorem Turn.dated_finalize (h : Turn o cfg c i t seg out) (hk : t.pc.Knows i c.shared t.tx)
    (hu : out.self = some u) (hd : t.pc.Dated i c.shared) {a id : String} {p : FinalizePc}
    (hpc : t.pc = .finalize a id p) : u.pc.Dated i out.shared := by
  obtain ⟨ch, hseg⟩ := h.goes_on hu
  have hn := (h.self hu).1
  have hlog : out.shared.log = h.entry :: c.shared.log := h.log
  -- past the look-up, the entry is not a look-up
  have hold : (∀ csr, p ≠ .get csr) → ∀ {k}, LateTask i out.shared.log k →
      LateTask i c.shared.log k := by
    intro hget k hl
    rw [hlog] at hl
    rcases hl.of_cons with ⟨-, ⟨a', csr, e⟩, -⟩ | hl
    · have e : t.pc = .finalize a' k (.get csr) := e
      rw [hpc] at e
      cases e
      exact absurd rfl (hget csr)
    · exact hl
  rw [hpc] at hseg hd
  have hseg := Option.some.inj hseg
  cases p with
  | get csr =>
      have hr : seg.Reads fun q => ∃ order csrDer domain,
          q = .finalize a id (.update order csrDer domain) :=
        hseg ▸ .map _ (.attempt fun _ _ => .attempt fun _ _ => .goto ⟨_, _, _, rfl⟩)
      obtain ⟨⟨order, csrDer, domain, hq⟩, hdb, -⟩ := h.reads hr hu
      rw [hq]
      intro k hl
      rw [hlog] at hl
      rcases hl.of_cons with ⟨-, ⟨a', csr', e⟩, hx⟩ | hl
      · have e : t.pc = .finalize a' k (.get csr') := e
        rw [hpc] at e
        cases e
        rw [hdb, h.now]
        exact ⟨rfl, hx⟩
      · exact absurd hl (hd k)
  | update order csrDer domain =>
      subst hseg
      rw [← Next.goto.inj hn]
      intro k hl
      obtain ⟨rfl, hx⟩ := hd k (hold (fun _ h => by cases h) hl)
      exact ⟨rfl, hx.mono h.grows h.now.ge⟩
  | commit order csrDer domain rowcount =>
      have hc : seg.commit = true := by
        simp only [finalizeSeg] at hseg
        split at hseg <;> rw [← hseg] <;> rfl
      rcases h.finalize_commit hk hpc hc with ⟨-, -, -, -, e⟩ | ⟨-, -, -, e⟩
      · have hs : seg.spawn = some (.processFinalize id domain csrDer) := by rw [e]
        rw [e] at hn
        rw [← Next.goto.inj hn]
        intro k hl
        obtain ⟨rfl, hx⟩ := hd k (hold (fun _ h => by cases h) hl)
        exact ⟨h.entry, hlog ▸ List.mem_cons_self, Entry.issues_iff.mpr ⟨domain, csrDer, hs⟩, hx⟩
      · rw [e] at hn
        rw [← Next.goto.inj hn]
        intro k hl
        obtain ⟨rfl, hx⟩ := hd k (hold (fun _ h => by cases h) hl)
        exact ⟨rfl, hx.mono h.grows h.now.ge⟩
  | status => exact absurd hn (hseg ▸ ((Seg.fail_quiet _).map _).next _)
  | authzs order => exact absurd hn (hseg ▸ ((Seg.respond_quiet _).map _).next _)

theorem Turn.dated (h : Turn o cfg c i t seg out) (hk : t.pc.Knows i c.shared t.tx)
    (hu : out.self = some u) (hd : t.pc.Dated i c.shared) : u.pc.Dated i out.shared := by
  by_cases hfin : ∃ a id p, t.pc = .finalize a id p
  · obtain ⟨a, id, p, hpc⟩ := hfin
    exact h.dated_finalize hk hu hd hpc
  · have hpc : ∀ a id p, t.pc ≠ .finalize a id p := fun a id p e => hfin ⟨a, id, p, e⟩
    refine .of_not_late (fun id hl => ?_) _
    rw [h.log] at hl
    rcases hl.of_cons with ⟨-, ⟨a, csr, e⟩, -⟩ | hl
    · exact hpc _ _ _ e
    · exact hd.not_late hpc id hl

/-- **An answer 200 to a request that was late** comes after an issuing task that was. -/
theorem Turn.answers_late (h : Turn o cfg c i t seg out) (hd : t.pc.Dated i c.shared)
    {r : Response} (hr : seg.next = .respond r) (hst : r.status = 200) {id : String}
    (hl : LateTask i out.shared.log id) : IssuedLate out.shared.log id := by
  rw [h.log] at hl ⊢
  by_cases hfin : ∃ a k p, t.pc = .finalize a k p
  · obtain ⟨a, k, p, hpc⟩ := hfin
    rcases h.answer_finalize (.inl ⟨a, p, hpc⟩) hr with hbad | ⟨-, a', order, hpc'⟩
    · omega
    · rw [hpc'] at hd
      rcases hl.of_cons with ⟨-, ⟨a', csr, e⟩, -⟩ | hl
      · have e : t.pc = _ := e
        rw [hpc'] at e
        cases e
      · exact (hd id hl).cons
  · have hpc : ∀ a id p, t.pc ≠ .finalize a id p := fun a id p e => hfin ⟨a, id, p, e⟩
    rcases hl.of_cons with ⟨-, ⟨a, csr, e⟩, -⟩ | hl
    · exact absurd e (hpc _ _ _)
    · exact absurd hl (hd.not_late hpc id)

/-- **Issuing tasks are created** by the commits behind an `UPDATE` that found its order ready, and by
each of them. -/
theorem Turn.issues_iff_sent (h : Turn o cfg c i t seg out) (hk : t.pc.Knows i c.shared t.tx)
    (hs : t.pc.Sent i c.shared.log) (id : String) : h.entry.issues id = true ↔
      (h.entry.AtClaim id ∧ seg.next ≠ .dbError) ∧
        ∃ u ∈ c.shared.log, u.tid = i ∧ u.SendsClaim id ∧ u.pre.orderStatus id = some .ready := by
  have hcommits : ∀ {a order csrDer domain rowcount},
      t.pc = .finalize a id (.commit order csrDer domain rowcount) →
      (seg.commit = true ↔ seg.next ≠ .dbError) := by
    intro a order csrDer domain rowcount hpc
    rcases h.runs with ⟨ch, hseg⟩ | rfl
    · rw [hpc] at hseg
      have hseg := Option.some.inj hseg
      simp only [finalizeSeg] at hseg
      split at hseg <;> rw [← hseg] <;> simp [Seg.map, Next.map]
    · simp
  constructor
  · intro hi
    obtain ⟨domain, csrDer, hspawn⟩ := Entry.issues_iff.mp hi
    obtain ⟨a, order, rowcount, hpc, hready, -⟩ := h.issues hk hspawn
    rw [hpc] at hs hk
    obtain ⟨u, hu, htid, hsent⟩ := hs.sent
    obtain ⟨-, -, -, hrow⟩ := hk
    refine ⟨⟨⟨a, order, csrDer, domain, rowcount, hpc⟩, fun hn => ?_⟩, u, hu, htid, hsent,
      (hs.matched u hu htid id hsent).2.mp (hrow.mpr hready)⟩
    rcases h.runs with ⟨ch, hseg⟩ | rfl
    · rw [hpc] at hseg
      have hseg := Option.some.inj hseg
      simp only [finalizeSeg] at hseg
      split at hseg <;> rw [← hseg] at hn <;> cases hn
    · cases hspawn
  · rintro ⟨⟨⟨a, order, csrDer, domain, rowcount, hpc⟩, hn⟩, u, hu, htid, hsent, hready⟩
    have hpc : t.pc = .finalize a id (.commit order csrDer domain rowcount) := hpc
    rcases h.finalize_commit hk hpc ((hcommits hpc).mpr hn) with ⟨-, -, -, -, e⟩ | ⟨h0, -⟩
    · have hspawn : seg.spawn = some (.processFinalize id domain csrDer) := by rw [e]
      exact Entry.issues_iff.mpr ⟨domain, csrDer, hspawn⟩
    · rw [hpc] at hs
      exact absurd h0 ((hs.matched u hu htid id hsent).2.mpr hready)

/-! ### Runs -/

/-- The invariant: what the log says of late requests and of claims, and that orders have a day. -/
structure DatedLog (s : Shared) : Prop where
  answered : ∀ e ∈ s.log, ∀ r, e.seg.next = .respond r → r.status = 200 → ∀ id,
    LateTask e.tid s.log id → IssuedLate s.log id
  claims : ∀ e ∈ s.log, ∀ id, e.issues id = true ↔ (e.AtClaim id ∧ e.seg.next ≠ .dbError) ∧
    ∃ u ∈ s.log, u.tid = e.tid ∧ u.SendsClaim id ∧ u.pre.orderStatus id = some .ready
  day : ∀ id r, s.db.orders.get id = some r → r.expiresAt = some (r.createdAt + days 1)

theorem Turn.datedLog {P : Relay → Relay → Prop} (hr : Reach (relay o cfg) P .init c)
    (h : Turn o cfg c i t seg out) (hI : DatedLog c.shared) (hd : t.pc.Dated i c.shared)
    (hs : t.pc.Sent i c.shared.log) : DatedLog out.shared where
  answered := by
    intro e he r hresp hst id hl
    have hl' := hl
    rw [h.log] at he hl
    rcases List.mem_cons.mp he with rfl | he
    · exact h.answers_late hd hresp hst hl'
    · rcases hl.of_cons with ⟨hi, -⟩ | hl
      · -- a task that was answered runs no more
        obtain ⟨p, hp⟩ := tid_alive hr h.task he hi.symm
        rw [hresp] at hp
        cases hp
      · rw [h.log]
        exact (hI.answered e he r hresp hst id hl).cons
  claims := by
    intro e he id
    have hlog : out.shared.log = h.entry :: c.shared.log := h.log
    rw [hlog] at he ⊢
    rcases List.mem_cons.mp he with rfl | he
    · rw [h.issues_iff_sent (Jackdaw.knows hr h.task) hs id]
      refine and_congr_right fun ⟨⟨a, order, csrDer, domain, rowcount, hpc⟩, _⟩ => ?_
      refine ⟨fun ⟨u, hu, hsent⟩ => ⟨u, List.mem_cons_of_mem _ hu, hsent⟩, ?_⟩
      rintro ⟨u, hu, htid, hsent, hready⟩
      rcases List.mem_cons.mp hu with rfl | hu
      · obtain ⟨_, _, _, _, e⟩ := hsent
        cases hpc.symm.trans e
      · exact ⟨u, hu, htid, hsent, hready⟩
    · rw [hI.claims e he id]
      refine and_congr_right fun ⟨hat, _⟩ => ?_
      refine ⟨fun ⟨u, hu, hsent⟩ => ⟨u, List.mem_cons_of_mem _ hu, hsent⟩, ?_⟩
      rintro ⟨u, hu, htid, hsent, hready⟩
      rcases List.mem_cons.mp hu with rfl | hu
      · -- a request that was at its commit does not send its `UPDATE` now
        obtain ⟨a, order, csrDer, domain, hpc⟩ := hsent
        have hpc : t.pc = .finalize a id (.update order csrDer domain) := hpc
        rw [hpc] at hs
        exact absurd hat (hs e he htid.symm id).2
      · exact ⟨u, hu, htid, hsent, hready⟩
  day := by
    intro id r' hr'
    rcases h.order_from hr' with ⟨r, hrow, hf⟩ | ⟨hexp, -⟩
    · simp only [Order.fixed, Prod.mk.injEq] at hf
      rw [hf.2.2.1, hf.2.2.2]
      exact hI.day id r hrow
    · exact hexp

theorem Pc.Dated.clock {pc : Pc} {s : Shared} {now : Int} (h : pc.Dated i s) (hle : s.now ≤ now) :
    pc.Dated i { s with now } := by
  unfold Pc.Dated at h ⊢
  split at h
  · exact h
  · exact fun id hl => ⟨(h id hl).1, (h id hl).2.mono (.refl _) hle⟩
  · exact fun id hl => ⟨(h id hl).1, (h id hl).2.mono (.refl _) hle⟩
  · exact fun id hl => ⟨(h id hl).1, (h id hl).2.mono (.refl _) hle⟩
  · exact h

def expirySafety (o : Oracle) (cfg : Settings) : Safety o cfg MonotoneClock where
  Inv n s := DatedLog s ∧ ∀ e ∈ s.log, e.tid < n
  Ok i s t := t.pc.Dated i s ∧ t.pc.Sent i s.log
  start := ⟨⟨List.forall_mem_nil _, List.forall_mem_nil _, fun _ _ h => by cases h⟩,
    List.forall_mem_nil _⟩
  run {c i t seg out} hr h _ hI hok := by
    obtain ⟨hd, hs⟩ := hok
    have hlt : ∀ e ∈ out.shared.log, e.tid < c.next := by
      intro e he
      rw [h.log] at he
      rcases List.mem_cons.mp he with rfl | he
      · exact hr.lt_next h.task
      · exact hI.2 e he
    refine ⟨⟨h.datedLog hr hI.1 hd hs, fun e he => Nat.lt_succ_of_lt (hlt e he)⟩,
      fun u hu => ⟨h.dated (knows hr h.task) hu hd, h.sent hu hs⟩, fun b _ => ?_⟩
    refine ⟨.of_not_late (fun id hl => ?_) _, ?_⟩
    · obtain ⟨g, hg, hi, -⟩ := hl
      exact absurd hi (hlt g hg).ne
    · cases b <;> exact .of_lt hlt
  others _ h _ _ _ _ hne hu := ⟨h.dated_other hne hu.1, h.sent_other hne hu.2⟩
  request {c t} _ hI _ hpc := by
    refine ⟨.of_not_late (fun id hl => ?_) _, ?_⟩
    · obtain ⟨g, hg, hi, -⟩ := hl
      exact absurd hi (hI.2 g hg).ne
    · rcases hpc with ⟨req, e⟩ | ⟨p, e⟩ | ⟨cutoff, e⟩ <;> rw [e] <;> exact .of_lt hI.2
  fresh hI := ⟨hI.1, fun e he => Nat.lt_succ_of_lt (hI.2 e he)⟩
  clock hp hI :=
    ⟨⟨⟨hI.1.answered, hI.1.claims, hI.1.day⟩, hI.2⟩, fun _ _ hd => ⟨hd.1.clock hp, hd.2⟩⟩
  restart {n s} hI := by
    refine ⟨⟨⟨hI.1.answered, hI.1.claims, hI.1.day⟩, hI.2⟩, .of_not_late (fun id hl => ?_) _,
      .of_lt hI.2⟩
    obtain ⟨g, hg, hi, -⟩ := hl
    exact absurd hi (hI.2 g hg).ne

/-- **When expiry is enforced.**  Orders have a day from their creation; and in a run with a
monotone clock expiry was enforced exactly when every request that found its order ready claimed it
in time. -/
theorem expiry_enforced_iff (h : Reach (relay o cfg) MonotoneClock .init c) :
    (∀ id r, c.shared.db.orders.get id = some r → r.expiresAt = some (r.createdAt + days 1)) ∧
    (ExpiryEnforced c.shared.log ↔ ClaimsInTime c.shared.log) := by
  obtain ⟨⟨hI, -⟩, -⟩ := (expirySafety o cfg).reach h
  refine ⟨hI.day, fun hx u hu e he id hsent hready htid hat hn => ?_, fun hin => ?_⟩
  · exact hx.dispatch e he id
      ((hI.claims e he id).mpr ⟨⟨hat, hn⟩, u, hu, htid.symm, hsent, hready⟩)
  · have hdispatch : ∀ e ∈ c.shared.log, ∀ id, e.issues id = true → ¬ e.pre.Expired id e.now := by
      intro e he id hi
      obtain ⟨⟨hat, hn⟩, u, hu, htid, hsent, hready⟩ := (hI.claims e he id).mp hi
      exact hin u hu e he id hsent hready htid.symm hat hn
    refine ⟨hdispatch, fun g hg e he id r hlate htid hresp hst => ?_⟩
    obtain ⟨w, hw, hi, hx⟩ := hI.answered e he r hresp hst id ⟨g, hg, htid.symm, hlate⟩
    exact hdispatch w hw id hi hx

end

/-- A test for `MonotoneClock` that may be run. -/
def monotoneClock (c c' : Relay) : Bool := decide (c.shared.now ≤ c'.shared.now)

theorem monotoneClock_sound {c c' : Relay} (h : monotoneClock c c' = true) : MonotoneClock c c' :=
  of_decide_eq_true (p := c.shared.now ≤ c'.shared.now) h

theorem expiry_enforced_iff_run :
    ∃ c, Demo.run monotoneClock Demo.finalizedOrder = some c ∧
      issuances c.shared.log (Demo.uuid 3) = 1 ∧
      (∀ id r, c.shared.db.orders.get id = some r →
        r.expiresAt = some (r.createdAt + days 1)) ∧
      (ExpiryEnforced c.shared.log ↔ ClaimsInTime c.shared.log) := by
  have hrun : (Demo.run monotoneClock Demo.finalizedOrder).any (fun c =>
      decide (issuances c.shared.log (Demo.uuid 3) = 1)) = true := by decide +kernel
  obtain ⟨c, hc, hone⟩ := (Option.any_eq_true _ _).mp hrun
  exact ⟨c, hc, of_decide_eq_true hone,
    expiry_enforced_iff (Demo.reach (fun _ => monotoneClock_sound) hc)⟩

/-- A ready order is left alone for two days and finalized then. -/
def Demo.finalizedLate : List (Nat → List (Action Input)) :=
  readyOrder ++ [fun _ => [.tick (.clock (days 2))], nonce 7, call (request 11 7 3) (turns 7)]

/-- **An issuing task for an order that has expired.** -/
theorem finalized_late :
    ¬ ∀ c, Reach (relay Demo.oracle Demo.settings) MonotoneClock .init c →
      ExpiryEnforced c.shared.log := by
  intro hall
  have hrun : (Demo.run monotoneClock Demo.finalizedLate).any (fun c =>
      c.shared.log.any fun e => e.issues (Demo.uuid 3) &&
        (e.pre.orders.get (Demo.uuid 3)).any fun r =>
          r.expiresAt.any fun x => decide (x < e.now)) = true := by decide +kernel
  obtain ⟨c, hc, h⟩ := (Option.any_eq_true _ _).mp hrun
  obtain ⟨e, he, h⟩ := List.any_eq_true.mp h
  obtain ⟨hi, h⟩ := (Bool.and_eq_true _ _).mp h
  obtain ⟨r, hr, h⟩ := (Option.any_eq_true _ _).mp h
  obtain ⟨x, hx, h⟩ := (Option.any_eq_true _ _).mp h
  exact (hall c (Demo.reach (fun _ => monotoneClock_sound) hc)).dispatch e he (Demo.uuid 3) hi
    ⟨r, x, hr, hx, of_decide_eq_true h⟩

end Jackdaw
