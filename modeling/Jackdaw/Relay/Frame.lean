import Jackdaw.Relay.Ownership

/-!
# Relay — a request keeps to the rows of its account

A request reaches rows by identifiers its client chose, and through joins: an authorization leads
to its order, and the order to its account.  `request_frame` says that none of this leads to a row
of another account: whatever a request does, and whatever the background task it creates does, each
row that belongs to somebody else is left as it was, and no row changes its owner.

The update of a row is an update of a row the task owns (`Turn.frame`); a task is one request for
one account to its end (`Pc.SameRequest`).
-/

namespace Jackdaw

open Support Support.Interleave

/-- Is the coroutine one that handles a request? -/
def Pc.isRequest : Pc → Bool
  | .runChallenge _ _ _ | .processFinalize _ _ _ _ | .reset _ | .nonce _ | .prune _ => false
  | _ => true

/-- A task that was at `p` goes on as the same request at `q`, for the same account. -/
def Pc.SameRequest (p q : Pc) : Prop :=
  p.isRequest = q.isRequest ∧
    ∀ a, p.actsFor = some a → q.actsFor = some a ∨ q.coroutine = .newAccount

/-- Task `i` is a request that `verify_jws` accepted for account `a`. -/
def RequestOf (l : List Entry) (i : Nat) (a : String) : Prop :=
  ∃ d ∈ l, d.tid = i ∧ d.pc.actsFor = some a

/-- The entry is one of the request of task `i`, or of a background task it created. -/
def Entry.Serves (e : Entry) (l : List Entry) (i : Nat) : Prop :=
  e.tid = i ∨ ∃ d ∈ l, d.tid = i ∧ d.seg.spawn ≠ none ∧ d.child = e.tid

section

variable {o : Oracle} {cfg : Settings} {c : Relay} {i : Nat} {t u : Task} {seg : Seg Pc}
  {out : Outcome Shared Task}

/-! ### One step -/

theorem Db.OwnedBy.orderOwner {db : Db} {id a : String} (h : db.OwnedBy id a) :
    db.orderOwner id = some a := by
  obtain ⟨r, hr, rfl⟩ := h
  rw [Db.orderOwner, hr, Option.map_some]

theorem Db.AuthzOf.owner {db : Db} {z id a : String} (h : db.AuthzOf z id) (ho : db.OwnedBy id a) :
    db.owner (.authz z) = some a := by
  obtain ⟨r, hr, rfl⟩ := h
  rw [Db.owner, hr, Option.bind_some, ho.orderOwner]

/-- A task works for account `a`: it handles a request, for no other account, or it works on an
order of the account. -/
def Pc.WorksFor (db : Db) (pc : Pc) (a : String) : Prop :=
  (pc.isRequest = true ∧ ∀ b, pc.actsFor = some b → b = a) ∨
    ∃ id, pc.worksOn = some id ∧ db.OwnedBy id a

/-- A turn of `finalize` that commits has found the order to be the account's. -/
theorem Turn.finalize_owned (h : Turn o cfg c i t seg out) {b id : String} {p : FinalizePc}
    (hpc : t.pc = .finalize b id p) (hc : seg.commit = true) (ho : t.pc.Owns c.shared.db) :
    c.shared.db.OwnedBy id b := by
  obtain ⟨ch, hseg⟩ := h.commits hc
  rw [hpc] at hseg ho
  cases p with
  | get csr =>
      have hr : seg.Reads fun _ => True := (Option.some.inj hseg) ▸ .map _
        (.attempt fun _ _ => .attempt fun _ _ => .goto trivial)
      rw [hr.commit] at hc
      cases hc
  | _ => exact ho

/-- The statements of an acknowledgement are about the authorization and its order. -/
theorem Turn.challenge_rows (h : Turn o cfg c i t seg out) {b z : String} {p : ChallengePc}
    (hpc : t.pc = .challenge b z p) (hc : seg.commit = true) (hk : t.pc.Knows i c.shared t.tx)
    (ho : t.pc.Owns c.shared.db) {d : Dml} (hd : d ∈ t.tx ++ seg.write) {k : RowKey}
    (hup : d.Updates k) : c.shared.db.owner k = some b := by
  obtain ⟨ch, hseg⟩ := h.commits hc
  rw [hpc] at hseg ho hk
  have hseg := Option.some.inj hseg
  subst hseg
  obtain ⟨authz, flush, rfl⟩ := challengeSeg_commit hc
  obtain ⟨-, -, htx, hflush⟩ := hk
  rcases List.mem_append.mp hd with hd | hd
  · rw [htx, List.mem_singleton] at hd
    subst hd
    rw [hup.row rfl]
    exact ho.1.authzOf.owner ho.2
  · have hd : d ∈ flush := hd
    rw [hflush, ackFlush] at hd
    split at hd
    · rw [List.mem_singleton] at hd
      subst hd
      rw [hup.row rfl]
      exact ho.2.orderOwner
    · cases hd

/-- **A turn updates rows of its account only.** -/
theorem Turn.frame (h : Turn o cfg c i t seg out) (hk : t.pc.Knows i c.shared t.tx)
    (ho : t.pc.Owns c.shared.db) {a : String} (hw : t.pc.WorksFor c.shared.db a) {k : RowKey}
    (hne : c.shared.db.owner k ≠ some a) : c.shared.db.Keeps out.shared.db k := by
  refine h.keeps fun d hd hc hmay hup => hne ?_
  cases hpc : t.pc with
  | keyChange b p =>
      rw [hpc] at hmay hw
      rcases hw with ⟨-, hw⟩ | ⟨id, hw, -⟩
      · cases d with
        | setAccountKey id key =>
            rw [hup.row rfl, show id = b from hmay, hw b rfl]
            rfl
        | _ => exact hmay.elim
      · cases hw
  | finalize b id p =>
      have hown := h.finalize_owned hpc hc ho
      rw [hpc] at hmay hw
      rcases hw with ⟨-, hw⟩ | ⟨id', hw, -⟩
      · obtain rfl := hw b rfl
        cases d with
        | claimOrder id' =>
            rw [hup.row rfl, show id' = id from hmay]
            exact hown.orderOwner
        | _ => exact hmay.elim
      · cases hw
  | challenge b z p =>
      have hrows := h.challenge_rows hpc hc hk ho hd hup
      rw [hpc] at hw
      rcases hw with ⟨-, hw⟩ | ⟨id', hw, -⟩
      · rw [hrows, hw b rfl]
      · cases hw
  | runChallenge z id p =>
      rw [hpc] at hmay hw hk
      rcases hw with ⟨hw, -⟩ | ⟨id', hw, hown⟩
      · cases hw
      · cases hw
        cases d with
        | updateAuthz z' q =>
            rw [hup.row rfl, hmay.1]
            exact hk.1.owner hown
        | updateOrder id' q =>
            rw [hup.row rfl, hmay.1]
            exact hown.orderOwner
        | _ => exact hmay.elim
  | processFinalize id domain csrDer p =>
      rw [hpc] at hmay hw
      rcases hw with ⟨hw, -⟩ | ⟨id', hw, hown⟩
      · cases hw
      · cases hw
        cases d with
        | updateOrder id' q =>
            rw [hup.row rfl, hmay.1]
            exact hown.orderOwner
        | insertCert k' row => exact hup.elim
        | _ => exact hmay.elim
  | reset p =>
      rw [hpc] at hw
      rcases hw with ⟨hw, -⟩ | ⟨id', hw, -⟩ <;> cases hw
  | jws _ _ | newAccount _ | newOrder _ _ | nonce _ | prune _ =>
      rw [hpc] at hmay
      cases d <;> first | exact hup.elim | exact hmay.elim
  | getOrder _ _ _ | getAuthz _ _ _ | downloadCert _ _ _ | revokeCert _ _ =>
      rw [hpc] at hmay
      exact hmay.elim

/-! ### One request, one account -/

theorem Pc.actsFor_newAccount {pc : Pc} (h : pc.coroutine = .newAccount) : pc.actsFor = none := by
  cases pc <;> cases h
  rfl

theorem Pc.SameRequest.refl (p : Pc) : p.SameRequest p := ⟨rfl, fun _ h => .inl h⟩

/-- A task that stays in its coroutine, past `verify_jws`. -/
theorem Pc.SameRequest.of_coroutine {p q : Pc} (h : q.coroutine = p.coroutine)
    (hp : ∀ req r, p ≠ .jws req r) : p.SameRequest q := by
  have hq : ∀ req r, q ≠ .jws req r := by
    intro req r e
    rw [e] at h
    obtain ⟨r', e'⟩ := Pc.eq_jws h.symm
    exact hp req r' e'
  refine ⟨?_, fun a ha => ?_⟩
  · cases p <;> cases q <;> first | rfl | cases h
  · rw [Pc.actsFor_eq hp, ← h, ← Pc.actsFor_eq hq] at ha
    exact .inl ha

theorem Turn.sameRequest (h : Turn o cfg c i t seg out) (hu : out.self = some u) :
    t.pc.SameRequest u.pc := by
  obtain ⟨ch, hseg⟩ := h.goes_on hu
  have hn := (h.self hu).1
  by_cases hjws : ∃ req p, t.pc = .jws req p
  · obtain ⟨req, p, hpc⟩ := hjws
    rw [hpc] at hseg ⊢
    cases p with
    | verify =>
        refine ⟨?_, fun a ha => by cases ha⟩
        have hseg : jwsSeg o cfg req c.shared.db c.shared.now ch .verify = some seg := hseg
        rcases jwsSeg_goto hseg hn with ⟨p', e⟩ | ⟨-, a, payload, rowcount, e, -⟩
        · rw [e]
          rfl
        · cases e
    | consume b nonce payload cutoff =>
        cases Option.some.inj hseg
        rw [← Next.goto.inj hn]
        exact ⟨rfl, fun a ha => .inl ha⟩
    | commit b payload rowcount =>
        simp only [Pc.seg, jwsSeg] at hseg
        split at hseg
        · cases Option.some.inj hseg
          exact absurd hn ((Seg.fail_quiet _).next _)
        · obtain ⟨seg', h', rfl⟩ := Option.map_eq_some_iff.mp hseg
          have hco := ((routeStart_reads h').of_goto hn).2
          cases hroute : req.route <;> rw [hroute] at hco <;> cases hq : u.pc <;>
            rw [hq] at hco <;> cases hco
          · exact ⟨rfl, fun _ _ => .inr rfl⟩
          all_goals exact ⟨rfl, fun _ ha => .inl ha⟩
  · have hne : ∀ req p, t.pc ≠ .jws req p := fun req p e => hjws ⟨req, p, e⟩
    rcases h.coroutine hu with e | ⟨req, b, payload, rowcount, e, -⟩
    · exact .of_coroutine e hne
    · exact absurd e (hne req _)

/-- An entry of the task, at whatever point it was, is of the same request. -/
theorem Pc.SameRequest.trans {p q r : Pc} (h : p.SameRequest q) (h' : q.SameRequest r)
    (hnew : q.coroutine = .newAccount → r.coroutine = .newAccount) : p.SameRequest r := by
  refine ⟨h.1.trans h'.1, fun a ha => ?_⟩
  rcases h.2 a ha with hq | hq
  · exact h'.2 a hq
  · exact .inr (hnew hq)

def frameSafety (o : Oracle) (cfg : Settings) (P : Relay → Relay → Prop) : Safety o cfg P where
  Inv n s := (∀ e ∈ s.log, e.tid < n) ∧
    (∀ d ∈ s.log, ∀ e ∈ s.log, d.tid = e.tid → d.pc.SameRequest e.pc ∨ e.pc.SameRequest d.pc) ∧
    ∀ e ∈ s.log, ∀ a, e.pc.WorksFor e.pre a → ∀ k, e.pre.owner k ≠ some a → e.pre.Keeps e.post k
  Ok i s t := ∀ e ∈ s.log, e.tid = i → e.pc.SameRequest t.pc
  start := ⟨List.forall_mem_nil _, List.forall_mem_nil _, List.forall_mem_nil _⟩
  run {c i t seg out} hr h _ hI hok := by
    obtain ⟨hlt, hsame, hframe⟩ := hI
    have hlog : out.shared.log = h.entry :: c.shared.log := h.log
    rw [hlog]
    refine ⟨⟨fun e he => ?_, fun d hd e he htid => ?_, fun e he => ?_⟩, fun u hu e he hi => ?_,
      fun b _ e he hi => ?_⟩
    · rcases List.mem_cons.mp he with rfl | he
      · exact Nat.lt_succ_of_lt (hr.lt_next h.task)
      · exact Nat.lt_succ_of_lt (hlt e he)
    · rcases List.mem_cons.mp hd with rfl | hd
      · rcases List.mem_cons.mp he with rfl | he
        · exact .inl (.refl _)
        · exact .inr (hok e he htid.symm)
      · rcases List.mem_cons.mp he with rfl | he
        · exact .inl (hok d hd htid)
        · exact hsame d hd e he htid
    · rcases List.mem_cons.mp he with rfl | he
      · exact fun a hw k => h.frame (knows hr h.task) (entitled hr h.task).owns hw
      · exact hframe e he
    · rcases List.mem_cons.mp he with rfl | he
      · exact h.sameRequest hu
      · refine (hok e he hi).trans (h.sameRequest hu) fun hco => ?_
        rcases h.coroutine hu with e' | ⟨req, b, payload, rowcount, e', -⟩
        · rw [e', hco]
        · rw [e'] at hco
          cases hco
    · rcases List.mem_cons.mp he with rfl | he
      · exact absurd hi (hr.lt_next h.task).ne
      · exact absurd hi (hlt e he).ne
  others {c i j t u seg out} hr h _ _ _ hj hne hu e he hi := by
    rw [h.log] at he
    rcases List.mem_cons.mp he with rfl | he
    · exact absurd hi.symm hne
    · exact hu e he hi
  request hr _ _ _ e he hi := absurd hi (tid_lt hr he).ne
  fresh hI := ⟨fun e he => Nat.lt_succ_of_lt (hI.1 e he), hI.2⟩
  clock _ hI := ⟨hI, fun _ _ h => h⟩
  restart hI := ⟨hI, fun e he hi => absurd hi (hI.1 e he).ne⟩

/-! ### Runs -/

variable {P : Relay → Relay → Prop}

/-- Every entry of a request, and of a task it created, works for its account. -/
theorem Entry.Serves.worksFor (h : Reach (relay o cfg) P .init c) {a : String}
    (hreq : RequestOf c.shared.log i a) {e : Entry} (he : e ∈ c.shared.log)
    (hs : e.Serves c.shared.log i) : e.pc.WorksFor e.pre a := by
  obtain ⟨d, hd, hi, ha⟩ := hreq
  obtain ⟨-, hsame, -⟩ := ((frameSafety o cfg P).reach h).1
  -- two accounts one task acts for are the same account
  have hone : ∀ {e b}, e ∈ c.shared.log → e.tid = i → e.pc.actsFor = some b → b = a := by
    intro e b he hei hb
    rcases hsame d hd e he (hi.trans hei.symm) with hx | hx
    · rcases hx.2 a ha with h' | h'
      · rw [hb] at h'
        exact Option.some.inj h'
      · rw [Pc.actsFor_newAccount h'] at hb
        cases hb
    · rcases hx.2 b hb with h' | h'
      · rw [ha] at h'
        exact (Option.some.inj h').symm
      · rw [Pc.actsFor_newAccount h'] at ha
        cases ha
  rcases hs with hei | ⟨w, hw, hwi, hspawn, hchild⟩
  · refine .inl ⟨?_, fun b hb => hone he hei hb⟩
    have hdreq : d.pc.isRequest = true := by
      cases hpc : d.pc <;> rw [hpc] at ha <;> first | rfl | cases ha
    rcases hsame d hd e he (hi.trans hei.symm) with hx | hx
    · rw [← hx.1, hdreq]
    · rw [hx.1, hdreq]
  · obtain ⟨b, id, hb, hid, hown⟩ := (entry_entitled h he).dispatched w hw hchild hspawn
    exact .inr ⟨id, hid, hone hw hwi hb ▸ hown⟩

/-- **A request keeps to the rows of its account.**  Whatever a request that `verify_jws` accepted
for account `a` does, and the background task it created, every row of another account is left as
it was, and no row changes its owner. -/
theorem request_frame (h : Reachable o cfg c) {a : String} (hreq : RequestOf c.shared.log i a)
    {e : Entry} (he : e ∈ c.shared.log) (hs : e.Serves c.shared.log i) (k : RowKey) :
    (e.pre.owner k ≠ some a → e.pre.Keeps e.post k) ∧
      ∀ b, e.pre.owner k = some b → e.post.owner k = some b := by
  obtain ⟨-, -, hframe⟩ := ((frameSafety o cfg _).reach h).1
  exact ⟨hframe e he a (hs.worksFor h hreq he) k, fun b hb => (entry_step h he).owner hb⟩

end

/-- Two accounts register, and the challenge of an order of the first is acknowledged and
validated. -/
def Demo.twoAccounts : List (Nat → List (Action Input)) :=
  [boot, nonce 1, nonce 2, nonce 3, nonce 4, nonce 5, nonce 6, account 1 1, account 2 2,
    order 11 3, call (request 11 4 2) (turns 7), fun _ => go 40 (turns 8)]

theorem request_frame_run :
    ∃ c, Demo.run (fun _ _ => true) Demo.twoAccounts = some c ∧
      RequestOf c.shared.log 33 (Demo.uuid 1) ∧
      ∃ e ∈ c.shared.log, e.tid = 40 ∧ e.seg.commit = true ∧ e.Serves c.shared.log 33 ∧
        e.pre.accounts.get (Demo.uuid 2) ≠ none ∧
        e.pre.Keeps e.post (.account (Demo.uuid 2)) := by
  have hrun : (Demo.run (fun _ _ => true) Demo.twoAccounts).any (fun c =>
      (c.shared.log.any fun d => decide (d.tid = 33) &&
        decide (d.pc.actsFor = some (Demo.uuid 1)) && d.seg.spawn.isSome &&
        decide (d.child = 40)) &&
      c.shared.log.any fun e => decide (e.tid = 40) && e.seg.commit &&
        (e.pre.accounts.get (Demo.uuid 2)).isSome) = true := by
    decide +kernel
  obtain ⟨c, hc, h⟩ := (Option.any_eq_true _ _).mp hrun
  simp only [Bool.and_eq_true, List.any_eq_true, decide_eq_true_eq] at h
  obtain ⟨⟨d, hd, ⟨⟨hdt, hda⟩, hds⟩, hdc⟩, e, he, ⟨het, hec⟩, hacc⟩ := h
  have hreq : RequestOf c.shared.log 33 (Demo.uuid 1) := ⟨d, hd, hdt, hda⟩
  have hs : e.Serves c.shared.log 33 :=
    .inr ⟨d, hd, hdt, Option.isSome_iff_ne_none.mp hds, hdc.trans het.symm⟩
  have hframe := request_frame (Demo.reach (fun _ _ => trivial) hc) hreq he hs
    (.account (Demo.uuid 2))
  have hne : some (Demo.uuid 2) ≠ some (Demo.uuid 1) := by decide
  exact ⟨c, hc, hreq, e, he, het, hec, hs, Option.isSome_iff_ne_none.mp hacc, hframe.1 hne⟩

end Jackdaw
