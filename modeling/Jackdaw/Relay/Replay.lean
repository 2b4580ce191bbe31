import Jackdaw.Relay.Rows

/-!
# Relay — replayed requests

A signed request may be sent again, by its client or by anybody who has seen it.  What keeps the
relay from acting on it twice is the nonce in its protected header: the `UPDATE` that spends the
nonce and the start of the handler are one transaction and what follows its commit, and the row of a
spent nonce stays spent until it is pruned.

* `redemptions`, `nonceIssues`: how often a nonce was redeemed by a request, and how often it was
  issued.
* `no_replay`: no nonce is redeemed more often than it was issued, nothing is handled without a
  redemption, and the nonce was issued at most the time to live before the signature was checked.

None of this needs the clock to run forward, or a run without crashes.
-/

namespace Jackdaw

open Support Support.Interleave

/-! ### Redemptions -/

/-- The nonce a request names in its protected header. -/
def requestNonce (o : Oracle) (req : Request) : Option String :=
  match parseJws o req.toHttpRequest with
  | .error _ => none
  | .ok j =>
      match headerNonce o j.header with
      | .error _ => none
      | .ok value => value

/-- The entry commits the `UPDATE` that found nonce `v` for its request. -/
def Entry.redeems (o : Oracle) (e : Entry) (v : String) : Bool :=
  match e.pc with
  | .jws req (.commit _ _ rowcount) =>
      decide (rowcount ≠ 0) && e.seg.commit && decide (requestNonce o req = some v)
  | _ => false

/-- The entry commits the `INSERT` of nonce `v`. -/
def Entry.issuesNonce (e : Entry) (v : String) : Bool :=
  match e.pc with
  | .nonce (.commit value _) => decide (value = v) && e.seg.commit
  | _ => false

/-- How often nonce `v` was redeemed. -/
def redemptions (o : Oracle) (l : List Entry) (v : String) : Nat := l.countP fun e => e.redeems o v

/-- How often nonce `v` was issued. -/
def nonceIssues (l : List Entry) (v : String) : Nat := l.countP fun e => e.issuesNonce v

theorem redemptions_cons (o : Oracle) (e : Entry) (l : List Entry) (v : String) :
    redemptions o (e :: l) v = redemptions o l v + (e.redeems o v).toNat := by
  rw [redemptions, redemptions, List.countP_cons]
  cases e.redeems o v <;> rfl

theorem nonceIssues_cons (e : Entry) (l : List Entry) (v : String) :
    nonceIssues (e :: l) v = nonceIssues l v + (e.issuesNonce v).toNat := by
  rw [nonceIssues, nonceIssues, List.countP_cons]
  cases e.issuesNonce v <;> rfl

/-- The nonce is there, and not spent. -/
def Db.unspent (db : Db) (v : String) : Bool := (db.nonces.get v).any fun r => !r.used

/-- The row of nonce `v`, if there is one, was inserted by an entry, at the time it says. -/
def Issued (l : List Entry) (v : String) (createdAt : Int) : Prop :=
  ∃ g ∈ l, ∃ row, g.pc = .nonce (.commit v row) ∧ g.seg.commit = true ∧ row.createdAt = createdAt

/-! ### The statements on the nonces -/

/-- A statement that inserts no nonce leaves the rows there are, with their times, and makes none
unspent. -/
theorem Dml.exec_nonces {d : Dml} {db db' : Db} (h : d.exec db = some db')
    (hd : ∀ v row, d ≠ .insertNonce v row) {v : String} {r' : Nonce}
    (hr' : db'.nonces.get v = some r') :
    ∃ r, db.nonces.get v = some r ∧ r'.createdAt = r.createdAt ∧ (r'.used = false → r.used = false) := by
  by_cases ht : d.table = .nonces
  · cases d with
    | insertNonce w row => exact absurd rfl (hd w row)
    | consumeNonce w cutoff =>
        cases Option.some.inj h
        simp only [Nonce.consume, Table.get_updateWhere, Option.map_eq_some_iff] at hr'
        obtain ⟨r, hr, rfl⟩ := hr'
        refine ⟨r, hr, ?_, fun hu => ?_⟩
        · split <;> rfl
        · split at hu
          · cases hu
          · exact hu
    | pruneNonces cutoff =>
        cases Option.some.inj h
        simp only [Nonce.prune, Table.get_deleteWhere, Option.filter_eq_some_iff] at hr'
        exact ⟨r', hr'.1, rfl, id⟩
    | _ => cases ht
  · rw [show db'.nonces = db.nonces from Dml.exec_same h ht] at hr'
    exact ⟨r', hr', rfl, id⟩

section

variable {o : Oracle} {cfg : Settings} {P : Relay → Relay → Prop} {c : Relay} {i : Nat}
  {t u : Task} {seg : Seg Pc} {out : Outcome Shared Task}

/-- A turn that issues no nonce leaves no row that was not there. -/
theorem Turn.nonces (h : Turn o cfg c i t seg out) (hpc : ∀ v row, t.pc ≠ .nonce (.commit v row))
    {v : String} {r' : Nonce} (hr' : out.shared.db.nonces.get v = some r') :
    ∃ r, c.shared.db.nonces.get v = some r ∧ r'.createdAt = r.createdAt ∧
      (r'.used = false → r.used = false) := by
  rcases h.committed with e | ⟨hc, e⟩
  · rw [e] at hr'
    exact ⟨r', hr', rfl, id⟩
  · refine Dml.execAll_induction (R := fun a b => ∀ r', b.nonces.get v = some r' →
      ∃ r, a.nonces.get v = some r ∧ r'.createdAt = r.createdAt ∧ (r'.used = false → r.used = false))
      (fun _ r' hr => ⟨r', hr, rfl, id⟩) ?_ (fun d hd a b hab r' hr => ?_) e r' hr'
    · intro a b d h₁ h₂ r' hr
      obtain ⟨r₁, hr₁, ht₁, hu₁⟩ := h₂ r' hr
      obtain ⟨r₀, hr₀, ht₀, hu₀⟩ := h₁ r₁ hr₁
      exact ⟨r₀, hr₀, ht₁.trans ht₀, fun hu => hu₀ (hu₁ hu)⟩
    · refine Dml.exec_nonces hab (fun w row hins => ?_) hr
      have hmay := h.may_statement (hins ▸ hd)
      obtain ⟨ch, hseg⟩ := h.commits hc
      cases hq : t.pc with
      | nonce p =>
          cases p with
          | commit w row => exact hpc w row hq
          | count =>
              rw [hq] at hseg
              have hseg := Option.some.inj hseg
              rw [← hseg] at hc
              simp only [nonceSeg] at hc
              split at hc <;> cases hc
      | _ =>
          rw [hq] at hmay
          exact hmay.elim

theorem Turn.unspent_le (h : Turn o cfg c i t seg out)
    (hpc : ∀ v row, t.pc ≠ .nonce (.commit v row)) (v : String) :
    (out.shared.db.unspent v).toNat ≤ (c.shared.db.unspent v).toNat := by
  cases ho : out.shared.db.unspent v with
  | false => exact Nat.zero_le _
  | true =>
      obtain ⟨r', hr', hu⟩ := (Option.any_eq_true _ _).mp ho
      obtain ⟨r, hr, -, hused⟩ := h.nonces hpc hr'
      rw [Db.unspent, hr, Option.any_some, hused (by simpa using hu)]
      rfl

/-- The `INSERT` of a nonce. -/
theorem Turn.issues_nonce (h : Turn o cfg c i t seg out) {v : String} {row : Nonce}
    (hpc : t.pc = .nonce (.commit v row)) (hc : seg.commit = true) :
    c.shared.db.nonces.get v = none ∧
      ∀ w, out.shared.db.nonces.get w = if w = v then some row else c.shared.db.nonces.get w := by
  obtain ⟨ch, hseg⟩ := h.commits hc
  rw [hpc] at hseg
  have hseg := Option.some.inj hseg
  subst hseg
  rcases h.db with ⟨-, e⟩ | ⟨hcf, -⟩
  · rw [h.tx_nil (by rw [hpc]; rfl)] at e
    obtain ⟨db₁, h₁, e⟩ := Option.bind_eq_some_iff.mp e
    obtain ⟨tab, ht, rfl⟩ := Option.map_eq_some_iff.mp h₁
    rw [← Option.some.inj e]
    exact ⟨Table.get_of_insert? ht, Table.get_insert? ht⟩
  · cases hcf

/-- The `UPDATE` that finds a nonce. -/
theorem consume_unspent {db db' : Db} {value : Option String} {cutoff : Int}
    (h : Dml.execAll [.consumeNonce value cutoff] db = some db')
    (hn : consumeRowcount db.nonces value cutoff ≠ 0) :
    ∃ v r, value = some v ∧ db.nonces.get v = some r ∧ r.used = false ∧ cutoff ≤ r.createdAt ∧
      db'.unspent v = false := by
  obtain ⟨v, r, rfl, hr, hu, hcut⟩ := consumeRowcount_ne_zero.mp hn
  refine ⟨v, r, rfl, hr, hu, hcut, ?_⟩
  cases Option.some.inj h
  simp [Db.unspent, Nonce.consume, Nonce.consumable, hr, hu, hcut]

/-! ### What a request has done so far -/

/-- Task `i` had its signature verified, at a time for which `cutoff` is the oldest nonce. -/
def SignatureVerified (o : Oracle) (cfg : Settings) (l : List Entry) (i : Nat) (req : Request)
    (cutoff : Int) : Prop :=
  ∃ f ∈ l, f.tid = i ∧ f.pc = .jws req .verify ∧ cutoff = nonceCutoff cfg f.now ∧
    ∃ r, authenticate o cfg f.pre.accounts req.toHttpRequest = .ok r

/-- The coroutine handles a request, behind `verify_jws`. -/
def Pc.handles : Pc → Bool
  | .newAccount _ | .keyChange _ _ | .newOrder _ _ | .getOrder _ _ _ | .finalize _ _ _
  | .getAuthz _ _ _ | .challenge _ _ _ | .downloadCert _ _ _ | .revokeCert _ _ => true
  | .jws _ _ | .runChallenge _ _ _ | .processFinalize _ _ _ _ | .reset _ | .nonce _ | .prune _ =>
      false

/-- What task `i` has done for its nonce, where it is suspended. -/
def Pc.Redeeming (o : Oracle) (cfg : Settings) (i : Nat) (s : Shared) (tx : List Dml) :
    Pc → Prop
  | .jws _ .verify => True
  | .jws req (.consume _ value _ cutoff) =>
      requestNonce o req = value ∧ SignatureVerified o cfg s.log i req cutoff
  | .jws req (.commit _ _ rowcount) => ∃ value cutoff, requestNonce o req = value ∧
      SignatureVerified o cfg s.log i req cutoff ∧ s.lock = some i ∧
        tx = [.consumeNonce value cutoff] ∧ rowcount = consumeRowcount s.db.nonces value cutoff
  | pc => pc.handles = true → ∃ g ∈ s.log, g.tid = i ∧ ∃ v, g.redeems o v = true

theorem SignatureVerified.cons {l : List Entry} {req : Request} {cutoff : Int}
    (h : SignatureVerified o cfg l i req cutoff) (e : Entry) :
    SignatureVerified o cfg (e :: l) i req cutoff := by
  obtain ⟨f, hf, h⟩ := h
  exact ⟨f, List.mem_cons_of_mem e hf, h⟩

theorem Pc.Redeeming.later {s s' : Shared} {tx : List Dml} {pc : Pc}
    (h : pc.Redeeming o cfg i s tx) (hl : Shared.Later i s s') : pc.Redeeming o cfg i s' tx := by
  obtain ⟨l, hlog, -⟩ := hl.log
  have hverified : ∀ {req cutoff}, SignatureVerified o cfg s.log i req cutoff →
      SignatureVerified o cfg s'.log i req cutoff := by
    rintro req cutoff ⟨f, hf, h⟩
    exact ⟨f, hlog ▸ List.mem_append_right l hf, h⟩
  have hhandles : ∀ {pc : Pc}, (pc.handles = true → ∃ g ∈ s.log, g.tid = i ∧ ∃ v,
      g.redeems o v = true) → pc.handles = true → ∃ g ∈ s'.log, g.tid = i ∧ ∃ v,
        g.redeems o v = true := by
    intro pc h hpc
    obtain ⟨g, hg, h⟩ := h hpc
    exact ⟨g, hlog ▸ List.mem_append_right l hg, h⟩
  cases pc with
  | jws req p =>
      cases p with
      | verify => trivial
      | consume a value payload cutoff => exact ⟨h.1, hverified h.2⟩
      | commit a payload rowcount =>
          obtain ⟨value, cutoff, hv, hver, hlock, htx, hn⟩ := h
          obtain ⟨hlock', hdb⟩ := hl.held hlock
          exact ⟨value, cutoff, hv, hverified hver, hlock', htx, hdb ▸ hn⟩
  | _ => exact hhandles h

/-- The nonce `verify_jws` hands on is the one the request names. -/
theorem requestNonce_of_verify {req : Request} {r : Jws × o.Key × String} {value : Option String}
    {accounts : Table String Account} (hauth : authenticate o cfg accounts req.toHttpRequest = .ok r)
    (hnonce : headerNonce o r.1.header = .ok value) : requestNonce o req = value := by
  obtain ⟨j, hj, hauth⟩ := ok_of_bind hauth
  obtain ⟨⟨key, a⟩, -, hauth⟩ := ok_of_bind hauth
  obtain ⟨_, -, hauth⟩ := ok_of_bind hauth
  cases hauth
  simp only [requestNonce, hj, hnonce]

/-- **The way of a request to its handler.** -/
theorem Turn.redeeming (h : Turn o cfg c i t seg out) (hu : out.self = some u)
    (hok : t.pc.Redeeming o cfg i c.shared t.tx) : u.pc.Redeeming o cfg i out.shared u.tx := by
  obtain ⟨ch, hseg⟩ := h.goes_on hu
  obtain ⟨hn, htx⟩ := h.self hu
  have hlog := h.log
  cases hpc : t.pc with
  | jws req p =>
      rw [hpc] at hseg hok
      have hseg : jwsSeg o cfg req c.shared.db c.shared.now ch p = some seg := hseg
      cases p with
      | verify =>
          have hr : seg.Reads fun q => ∃ a value payload cutoff,
              q = .jws req (.consume a value payload cutoff) ∧ requestNonce o req = value ∧
                cutoff = nonceCutoff cfg c.shared.now ∧
                ∃ r, authenticate o cfg c.shared.db.accounts req.toHttpRequest = .ok r := by
            refine Option.some.inj hseg ▸ .attempt fun ⟨j, a, value⟩ hx => .goto ?_
            obtain ⟨⟨j', key, a'⟩, hauth, hx⟩ := ok_of_bind hx
            obtain ⟨value', hnonce, hx⟩ := ok_of_bind hx
            cases hx
            exact ⟨_, _, _, _, rfl, requestNonce_of_verify hauth hnonce, rfl, _, hauth⟩
          obtain ⟨a, value, payload, cutoff, hq, hv, hcut, hauth⟩ := hr.of_goto hn
          rw [hq]
          exact ⟨hv, h.entry, hlog ▸ List.mem_cons_self, rfl, hpc, hcut, hauth⟩
      | consume a value payload cutoff =>
          obtain ⟨hv, hver⟩ := hok
          cases Option.some.inj hseg
          obtain ⟨hwrite, hdb, hlock⟩ := h.sends hu (by rw [hpc]; rfl) rfl
          rw [← Next.goto.inj hn, hwrite]
          refine ⟨value, cutoff, hv, ?_, hlock (List.cons_ne_nil _ _), rfl, ?_⟩
          · rw [hlog]
            exact hver.cons _
          · rw [hdb]
      | commit a payload rowcount =>
          simp only [jwsSeg] at hseg
          split at hseg
          · cases Option.some.inj hseg
            exact absurd hn ((Seg.fail_quiet _).next _)
          · rename_i x hx
            obtain ⟨_, hcheck, -⟩ := ok_of_bind hx
            obtain ⟨seg', h', rfl⟩ := Option.map_eq_some_iff.mp hseg
            have hrow : rowcount ≠ 0 := by
              have := reject_eq_ok.mp hcheck
              exact of_decide_eq_false this
            obtain ⟨value, cutoff, hv, hver, hlock, htx', hcount⟩ := hok
            obtain ⟨v, r, rfl, -⟩ := consumeRowcount_ne_zero.mp (hcount ▸ hrow)
            have hredeem : h.entry.redeems o v = true := by
              simp only [Entry.redeems, hpc, hv, decide_true, Bool.and_true, decide_eq_true_eq]
              exact hrow
            have hco := ((routeStart_reads h').of_goto hn).2
            have hgoal : u.pc.handles = true → ∃ g ∈ out.shared.log, g.tid = i ∧ ∃ v,
                g.redeems o v = true :=
              fun _ => ⟨h.entry, hlog ▸ List.mem_cons_self, rfl, v, hredeem⟩
            cases hq : u.pc with
            | jws req' p' =>
                rw [hq] at hco
                cases hroute : req.route <;> rw [hroute] at hco <;> cases hco
            | _ =>
                rw [hq] at hgoal
                exact hgoal
  | _ =>
      rcases h.coroutine hu with e | ⟨req, a, payload, rowcount, e, -⟩
      · rw [hpc] at e hok
        cases hq : u.pc <;> rw [hq] at e <;> cases e
        all_goals
          intro hh
          obtain ⟨g, hg, hrest⟩ := hok hh
          exact ⟨g, hlog ▸ List.mem_cons_of_mem _ hg, hrest⟩
      · rw [hpc] at e
        cases e

/-! ### Runs -/

/-- What the nonces in the table and those in the log have to do with each other. -/
structure Spending (o : Oracle) (s : Shared) : Prop where
  le : ∀ v, redemptions o s.log v + (s.db.unspent v).toNat ≤ nonceIssues s.log v
  row : ∀ {v r}, s.db.nonces.get v = some r → Issued s.log v r.createdAt

/-- A nonce that was redeemed was issued at most the time to live before the signature was
checked. -/
def Entry.Timely (o : Oracle) (cfg : Settings) (e : Entry) (l : List Entry) : Prop :=
  ∀ v, e.redeems o v = true → ∃ createdAt, Issued l v createdAt ∧ ∃ f ∈ l, f.tid = e.tid ∧
    (∃ req, f.pc = .jws req .verify ∧ requestNonce o req = some v ∧
      ∃ r, authenticate o cfg f.pre.accounts req.toHttpRequest = .ok r) ∧
    f.now - createdAt ≤ seconds cfg.nonceTtl

theorem Issued.cons {l : List Entry} {v : String} {createdAt : Int} (h : Issued l v createdAt)
    (e : Entry) : Issued (e :: l) v createdAt := by
  obtain ⟨g, hg, h⟩ := h
  exact ⟨g, List.mem_cons_of_mem e hg, h⟩

/-- A turn that neither redeems nor issues. -/
theorem Spending.quiet (hI : Spending o c.shared) (h : Turn o cfg c i t seg out)
    (hpc : ∀ v row, t.pc ≠ .nonce (.commit v row)) (hr : ∀ v, h.entry.redeems o v = false) :
    Spending o out.shared where
  le v := by
    rw [h.log, redemptions_cons, nonceIssues_cons, hr v]
    exact Nat.le_trans (Nat.add_le_add_left (h.unspent_le hpc v) _)
      (Nat.le_trans (hI.le v) (Nat.le_add_right _ _))
  row {v r'} hr' := by
    obtain ⟨r, hr, ht, -⟩ := h.nonces hpc hr'
    rw [h.log, ht]
    exact (hI.row hr).cons _

/-- A turn that issues a nonce. -/
theorem Spending.issue (hI : Spending o c.shared) (h : Turn o cfg c i t seg out) {v : String}
    {row : Nonce} (hpc : t.pc = .nonce (.commit v row)) (hc : seg.commit = true) :
    Spending o out.shared := by
  obtain ⟨hnone, hget⟩ := h.issues_nonce hpc hc
  have hredeems : ∀ w, h.entry.redeems o w = false := fun w => by
    simp only [Entry.redeems, hpc]
  have hissues : ∀ w, h.entry.issuesNonce w = decide (v = w) := fun w => by
    simp only [Entry.issuesNonce, hpc, hc, Bool.and_true]
  constructor
  · intro w
    rw [h.log, redemptions_cons, nonceIssues_cons, hredeems w, hissues w]
    have hle := hI.le w
    by_cases hw : w = v
    · subst hw
      have : (out.shared.db.unspent w).toNat ≤ 1 := Bool.toNat_le _
      simp only [Bool.toNat_false, decide_true, Bool.toNat_true]
      omega
    · have : out.shared.db.unspent w = c.shared.db.unspent w := by
        rw [Db.unspent, Db.unspent, hget, if_neg hw]
      rw [this]
      exact Nat.le_trans hle (Nat.le_add_right _ _)
  · intro w r hr
    rw [hget] at hr
    rw [h.log]
    split at hr
    · cases hr
      rename_i hw
      exact ⟨h.entry, List.mem_cons_self, row, hw ▸ hpc, hc, rfl⟩
    · exact (hI.row hr).cons _

/-- A turn that redeems a nonce. -/
theorem Spending.redeem (hI : Spending o c.shared) (h : Turn o cfg c i t seg out) {req : Request}
    {a : String} {payload : Json} {rowcount : Nat} (hpc : t.pc = .jws req (.commit a payload rowcount))
    (hc : seg.commit = true) (hrow : rowcount ≠ 0)
    (hok : t.pc.Redeeming o cfg i c.shared t.tx) :
    Spending o out.shared ∧ h.entry.Timely o cfg c.shared.log := by
  have hwrite : seg.write = [] := by
    obtain ⟨ch, hseg⟩ := h.commits hc
    rw [hpc] at hseg
    have hseg : jwsSeg o cfg req c.shared.db c.shared.now ch (.commit a payload rowcount) =
      some seg := hseg
    simp only [jwsSeg] at hseg
    split at hseg
    · rw [← Option.some.inj hseg]
      exact (Seg.fail_quiet _).write
    · obtain ⟨seg', h', rfl⟩ := Option.map_eq_some_iff.mp hseg
      rcases routeStart_reads h' with hq | ⟨p, rfl, -⟩
      · exact hq.write
      · rfl
  rw [hpc] at hok
  obtain ⟨value, cutoff, hv, ⟨f, hf, htid, hfpc, hcut, hauth⟩, -, htx, hcount⟩ := hok
  have e : Dml.execAll [.consumeNonce value cutoff] c.shared.db = some out.shared.db := by
    rcases h.db with ⟨-, e⟩ | ⟨hcf, -⟩
    · rwa [htx, hwrite] at e
    · rw [hc] at hcf
      cases hcf
  obtain ⟨v, r, rfl, hr, hu, hold, hspent⟩ := consume_unspent e (hcount ▸ hrow)
  have hredeems : ∀ w, h.entry.redeems o w = decide (v = w) := fun w => by
    simp only [Entry.redeems, hpc, hv, hc, hrow, Option.some.injEq, ne_eq, not_false_eq_true,
      decide_true, Bool.and_true, Bool.true_and]
  have hpc' : ∀ v row, t.pc ≠ .nonce (.commit v row) := fun v row e => by
    rw [hpc] at e
    cases e
  have hissues : ∀ w, h.entry.issuesNonce w = false := fun w => by
    simp only [Entry.issuesNonce, hpc]
  refine ⟨⟨fun w => ?_, fun {w r'} hr' => ?_⟩, fun w hw => ?_⟩
  · rw [h.log, redemptions_cons, nonceIssues_cons, hredeems w, hissues w]
    have hle := hI.le w
    by_cases hw : v = w
    · subst hw
      have hbefore : c.shared.db.unspent v = true := by
        rw [Db.unspent, hr, Option.any_some, hu]
        rfl
      rw [hbefore] at hle
      rw [hspent]
      simp only [decide_true, Bool.toNat_true, Bool.toNat_false] at hle ⊢
      omega
    · have := h.unspent_le hpc' w
      simp only [hw, decide_false, Bool.toNat_false]
      omega
  · obtain ⟨r₀, hr₀, ht, -⟩ := h.nonces hpc' hr'
    rw [h.log, ht]
    exact (hI.row hr₀).cons _
  · rw [hredeems w, decide_eq_true_eq] at hw
    subst hw
    refine ⟨r.createdAt, hI.row hr, f, hf, htid, ⟨req, hfpc, hv, hauth⟩, ?_⟩
    rw [hcut, nonceCutoff] at hold
    omega

/-- **A turn keeps the count**, and what it redeems was issued in time. -/
theorem Turn.spending (h : Turn o cfg c i t seg out) (hI : Spending o c.shared)
    (hok : t.pc.Redeeming o cfg i c.shared t.tx) :
    Spending o out.shared ∧ h.entry.Timely o cfg c.shared.log := by
  have hquiet : (∀ v row, t.pc ≠ .nonce (.commit v row)) →
      (∀ v, h.entry.redeems o v = false) →
      Spending o out.shared ∧ h.entry.Timely o cfg c.shared.log := fun hpc hr =>
    ⟨hI.quiet h hpc hr, fun v hv => by rw [hr v] at hv; cases hv⟩
  cases hpc : t.pc with
  | jws req p =>
      have hno : ∀ v row, t.pc ≠ .nonce (.commit v row) := fun v row e => by
        rw [hpc] at e
        cases e
      cases p with
      | verify | consume _ _ _ _ =>
          exact hquiet hno fun v => by simp only [Entry.redeems, hpc]
      | commit a payload rowcount =>
          by_cases hc : seg.commit = true
          · by_cases hrow : rowcount = 0
            · exact hquiet hno fun v => by simp [Entry.redeems, hpc, hrow]
            · exact hI.redeem h hpc hc hrow hok
          · exact hquiet hno fun v => by simp [Entry.redeems, hpc, hc]
  | nonce p =>
      have hr : ∀ v, h.entry.redeems o v = false := fun v => by simp only [Entry.redeems, hpc]
      cases p with
      | count => exact hquiet (fun v row e => by rw [hpc] at e; cases e) hr
      | commit v row =>
          by_cases hc : seg.commit = true
          · exact ⟨hI.issue h hpc hc, fun w hw => by rw [hr w] at hw; cases hw⟩
          · -- the `INSERT` failed
            have hdb := h.db_eq (by simpa using hc)
            refine ⟨⟨fun w => ?_, fun {w r} hw => ?_⟩, fun w hw => by rw [hr w] at hw; cases hw⟩
            · rw [h.log, redemptions_cons, nonceIssues_cons, hr w, hdb]
              exact Nat.le_trans (hI.le w) (Nat.le_add_right _ _)
            · rw [hdb] at hw
              rw [h.log]
              exact (hI.row hw).cons _
  | _ =>
      exact hquiet (fun v row e => by rw [hpc] at e; cases e)
        fun v => by simp only [Entry.redeems, hpc]

/-- Every entry of the log is timely. -/
def AllTimely (o : Oracle) (cfg : Settings) : List Entry → Prop
  | [] => True
  | e :: l => e.Timely o cfg l ∧ AllTimely o cfg l

theorem AllTimely.split {e : Entry} {l₁ : List Entry} :
    ∀ {l₂ : List Entry}, AllTimely o cfg (l₂ ++ e :: l₁) → e.Timely o cfg l₁
  | [], h => h.1
  | _ :: _, h => AllTimely.split h.2

def replaySafety (o : Oracle) (cfg : Settings) (P : Relay → Relay → Prop) : Safety o cfg P where
  Inv _ s := (Spending o s ∧ AllTimely o cfg s.log) ∧
    ∀ e ∈ s.log, e.pc.handles = true → ∃ g ∈ s.log, g.tid = e.tid ∧ ∃ v, g.redeems o v = true
  Ok i s t := t.pc.Redeeming o cfg i s t.tx
  start := ⟨⟨⟨fun _ => Nat.le_refl _, fun h => by cases h⟩, trivial⟩, List.forall_mem_nil _⟩
  run {c i t seg out} _ h _ hI hok := by
    obtain ⟨⟨hspend, htimely⟩, hhandles⟩ := hI
    obtain ⟨hspend', htimely'⟩ := h.spending hspend hok
    refine ⟨⟨⟨hspend', ?_⟩, fun e he hh => ?_⟩, fun u hu => h.redeeming hu hok, fun b hb => ?_⟩
    · rw [h.log]
      exact ⟨htimely', htimely⟩
    · rw [h.log] at he ⊢
      have hold : ∃ g ∈ c.shared.log, g.tid = e.tid ∧ ∃ v, g.redeems o v = true := by
        rcases List.mem_cons.mp he with rfl | he
        · have hh : t.pc.handles = true := hh
          cases hpc : t.pc <;> rw [hpc] at hh hok <;> first | exact hok hh | cases hh
        · exact hhandles e he hh
      obtain ⟨g, hg, hrest⟩ := hold
      exact ⟨g, List.mem_cons_of_mem _ hg, hrest⟩
    · cases b <;> exact fun hh => by cases hh
  others {c i j t u seg out} _ h _ _ _ _ hne hu := hu.later (h.later hne)
  request {c t} _ _ _ hpc := by
    rcases hpc with ⟨req, e⟩ | ⟨p, e⟩ | ⟨cutoff, e⟩ <;> rw [e]
    · trivial
    · exact fun hh => by cases hh
    · exact fun hh => by cases hh
  fresh hI := hI
  clock {c now} _ hI := ⟨⟨⟨⟨hI.1.1.le, hI.1.1.row⟩, hI.1.2⟩, hI.2⟩,
    fun j u hu => hu.later Shared.later_clock⟩
  restart {n s} hI := ⟨⟨⟨⟨hI.1.1.le, hI.1.1.row⟩, hI.1.2⟩, hI.2⟩, fun hh => by cases hh⟩

/-- **No replay.**  In every run, whatever crashes and however the clock is set: a nonce is redeemed
at most as often as it was issued, so that of two requests that name a nonce issued once, one at most
gets past it; nothing is handled for a request that has not redeemed its nonce; and a nonce that is
redeemed was issued at most the time to live before the signature was checked. -/
theorem no_replay (h : Reachable o cfg c) :
    (∀ v, redemptions o c.shared.log v ≤ nonceIssues c.shared.log v) ∧
    (∀ v, nonceIssues c.shared.log v ≤ 1 → ∀ e ∈ c.shared.log, ∀ e' ∈ c.shared.log,
      e.redeems o v = true → e'.redeems o v = true → e = e') ∧
    (∀ e ∈ c.shared.log, e.pc.handles = true →
      ∃ g ∈ c.shared.log, g.tid = e.tid ∧ ∃ v, g.redeems o v = true) ∧
    ∀ l₂ e l₁, c.shared.log = l₂ ++ e :: l₁ → e.Timely o cfg l₁ := by
  obtain ⟨⟨hspend, htimely⟩, hhandles⟩ := ((replaySafety o cfg _).reach h).1
  have hle : ∀ v, redemptions o c.shared.log v ≤ nonceIssues c.shared.log v := fun v =>
    Nat.le_of_add_right_le (hspend.le v)
  refine ⟨hle, fun v hone e he e' he' hr hr' => ?_, hhandles, fun l₂ e l₁ hl => ?_⟩
  · exact unique_of_countP (p := fun e => e.redeems o v) (Nat.le_trans (hle v) hone) he he' hr hr'
  · have htimely : AllTimely o cfg c.shared.log := htimely
    rw [hl] at htimely
    exact htimely.split

/-- A request is sent again. -/
def Demo.replayed : List (Nat → List (Action Input)) :=
  [boot, nonce 1, account 1 1, call (request 1 1 0) (turns 3)]

/-- Both requests name the nonce that was issued once; one redeems it. -/
theorem no_replay_run :
    ∃ c, Demo.run (fun _ _ => true) Demo.replayed = some c ∧
      redemptions Demo.oracle c.shared.log "1" = 1 ∧ nonceIssues c.shared.log "1" ≤ 1 ∧
      (∀ e ∈ c.shared.log, ∀ e' ∈ c.shared.log, e.redeems Demo.oracle "1" = true →
        e'.redeems Demo.oracle "1" = true → e = e') ∧
      ∀ l₂ e l₁, c.shared.log = l₂ ++ e :: l₁ → e.Timely Demo.oracle Demo.settings l₁ := by
  have hrun : (Demo.run (fun _ _ => true) Demo.replayed).any (fun c =>
      decide (redemptions Demo.oracle c.shared.log "1" = 1) &&
        decide (nonceIssues c.shared.log "1" ≤ 1)) = true := by decide +kernel
  obtain ⟨c, hc, h⟩ := (Option.any_eq_true _ _).mp hrun
  simp only [Bool.and_eq_true, decide_eq_true_eq] at h
  obtain ⟨hone, hissued⟩ := h
  obtain ⟨-, hunique, -, htimely⟩ := no_replay (Demo.reach (fun _ _ => trivial) hc)
  exact ⟨c, hc, hone, hissued, hunique "1" hissued, htimely⟩

end

end Jackdaw
