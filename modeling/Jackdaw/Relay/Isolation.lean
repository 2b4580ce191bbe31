import Jackdaw.Relay.Ownership
import Jackdaw.Relay.RollOvers

/-!
# Relay — isolation of accounts

A request is answered with success about an order, one of its authorizations or its certificate
only after the order's account was compared with the one `verify_jws` returned.  For a request
with a `kid` that is an account of the relay, and the signature was verified under its stored key.
For a request with an embedded `jwk` it is the empty text: an order placed by such a request
belongs to nobody, and every key may answer for it (`answered_to_a_stranger`).

* `isolation_iff`: requests answered with success about an order were signed under the key of the
  account that placed it, exactly when the order has an account.
-/

namespace Jackdaw

open Support Support.Interleave

/-- The request of task `i` was verified under the key account `a` had stored, `publicKey`. -/
def SignedUnder (o : Oracle) (cfg : Settings) (l : List Entry) (i : Nat) (a publicKey : String) :
    Prop :=
  ∃ v ∈ l, v.tid = i ∧ ∃ req j key row, v.pc = .jws req .verify ∧
    authenticate o cfg v.pre.accounts req.toHttpRequest = .ok (j, key, a) ∧
    v.pre.accounts.get a = some row ∧ row.publicKey = publicKey ∧
    storedKey o publicKey = some key

/-- Order `id` was placed by a request of account `a`. -/
def PlacedBy (o : Oracle) (cfg : Settings) (l : List Entry) (id a : String) : Prop :=
  ∃ k ∈ l, k.pre.orders.get id = none ∧ k.post.OwnedBy id a ∧ (∃ p, k.pc = .newOrder a p) ∧
    ∃ publicKey, SignedUnder o cfg l k.tid a publicKey

/-- The entry is of a request about order `id`, its authorization or its certificate. -/
def Entry.About (e : Entry) (id : String) : Prop :=
  match e.pc with
  | .getOrder _ id' _ | .finalize _ id' _ => id' = id
  | .getAuthz _ z _ | .challenge _ z _ => e.pre.AuthzOf z id
  | .downloadCert _ k _ => ∃ cert, e.pre.certificates.get k = some cert ∧ cert.orderId = id
  | _ => False

/-- The entry answered its request with success. -/
def Entry.Accepted (e : Entry) : Prop :=
  ∃ r, e.seg.next = .respond r ∧ 200 ≤ r.status ∧ r.status < 300

/-- **Two requests about order `id` are isolated from the other accounts**: one account placed the
order, and both requests were signed under its key. -/
def Isolated (o : Oracle) (cfg : Settings) (l : List Entry) (e e' : Entry) (id : String) : Prop :=
  ∃ a, PlacedBy o cfg l id a ∧ (∃ publicKey, SignedUnder o cfg l e.tid a publicKey) ∧
    ∃ publicKey, SignedUnder o cfg l e'.tid a publicKey

/-- Accounts have the identifiers that were drawn for them. -/
def Db.AccountsNamed (db : Db) : Prop := ∀ a r, db.accounts.get a = some r → isUuid a = true

section

variable {o : Oracle} {cfg : Settings} {c : Relay} {i : Nat} {t u : Task} {seg : Seg Pc}
  {out : Outcome Shared Task}

/-- An answer that is not refused. -/
theorem Seg.Refuses.not_accepted {e : Entry} (h : e.seg.Refuses) : ¬ e.Accepted := by
  rintro ⟨r, hr, -, hlt⟩
  have := h r hr
  omega

/-- A segment behind the ownership check that is not a refusal has passed it. -/
theorem requireParentOwner_of_accepted {P : Type} {a : String} {x : Option Order}
    {f : Unit → Seg P} {F : P → Pc}
    (hacc : ¬ ((Seg.attempt (requireParentOwner a x) f).map F).Refuses) :
    ∃ y, requireParentOwner a x = .ok y := by
  rcases hx : requireParentOwner a x with e | y
  · refine absurd (Seg.Refuses.map (.attempt (requireParentOwner_refuses a x) ?_) F) hacc
    intro y hy
    rw [hx] at hy
    cases hy
  · exact ⟨y, rfl⟩

/-- An acknowledgement that is accepted is of the owner. -/
theorem Turn.accepted_challenge (h : Turn o cfg c i t seg out) (ho : t.pc.Owns c.shared.db)
    {a z : String} {p : ChallengePc} {ch : Choice} (hpc : t.pc = .challenge a z p) {r : Response}
    (hr : seg.next = .respond r) (hacc : ¬ seg.Refuses)
    (hseg : (Pc.challenge a z p).seg o cfg c.shared.db c.shared.now ch = some seg) {id : String}
    (hid : c.shared.db.AuthzOf z id) : c.shared.db.OwnedBy id a := by
  cases p with
  | get =>
      exact absurd ((Option.some.inj hseg) ▸ Seg.Refuses.map
        (.attempt (.orElse (.http (by decide))) fun _ _ => .goto _) _) hacc
  | owner authz =>
      rcases h.challenge_owner hpc with ⟨⟨a', authz', e, hown, -⟩, -⟩ | ⟨-, hx⟩
      · have e : t.pc = _ := e
        rw [hpc] at e ho
        cases e
        rw [hid.unique (Db.HasAuthz.authzOf ho)]
        exact requireParentOwner_owned hown
      · exact absurd hx hacc
  | flush authz =>
      rw [← Option.some.inj hseg] at hr
      cases hr
  | commit authz flush =>
      rw [hpc] at ho
      rw [hid.unique ho.1.authzOf]
      exact ho.2

/-- **A request is answered with success about an order of its account only.** -/
theorem Turn.accepted_owner (h : Turn o cfg c i t seg out) (ho : t.pc.Owns c.shared.db)
    (ha : h.entry.Accepted) {id : String} (hid : h.entry.About id) :
    ∃ a, t.pc.actsFor = some a ∧ c.shared.db.OwnedBy id a := by
  obtain ⟨r, hr, hge, hlt⟩ := ha
  have hacc : ¬ seg.Refuses := fun hx => hx.not_accepted (e := h.entry) ⟨r, hr, hge, hlt⟩
  have hr : seg.next = .respond r := hr
  rcases h.runs with ⟨ch, hseg⟩ | rfl
  · cases hpc : t.pc with
    | getOrder a id' p =>
        simp only [Entry.About, hpc] at hid
        subst hid
        rw [hpc] at hseg ho
        have hseg := Option.some.inj hseg
        cases p with
        | get =>
            exact absurd (hseg ▸ Seg.Refuses.map (.attempt (requireOrderOwner_refuses _ _)
              fun _ _ => .goto _) _) hacc
        | authzs order => exact ⟨a, rfl, ho⟩
    | finalize a id' p =>
        simp only [Entry.About, hpc] at hid
        subst hid
        have hof : h.entry.OfFinalize id' := .inl ⟨a, p, hpc⟩
        rcases h.answer_finalize hof hr with hle | ⟨-, a', order, e⟩
        · omega
        · rw [hpc] at e
          cases e
          rw [hpc] at ho
          exact ⟨a, rfl, ho⟩
    | getAuthz a z p =>
        simp only [Entry.About, hpc] at hid
        rw [hpc] at hseg ho
        have hseg := Option.some.inj hseg
        subst hseg
        cases p with
        | get =>
            exact absurd (Seg.Refuses.map (.attempt (.orElse (.http (by decide)))
              fun _ _ => .goto _) _) hacc
        | owner authz =>
            obtain ⟨y, hy⟩ := requireParentOwner_of_accepted hacc
            rw [hid.unique (Db.HasAuthz.authzOf ho)]
            exact ⟨a, rfl, requireParentOwner_owned hy⟩
    | challenge a z p =>
        simp only [Entry.About, hpc] at hid
        rw [hpc] at hseg
        exact ⟨a, rfl, h.accepted_challenge ho hpc hr hacc hseg hid⟩
    | downloadCert a k p =>
        simp only [Entry.About, hpc] at hid
        obtain ⟨cert', hcert, rfl⟩ := hid
        rw [hpc] at hseg ho
        have hseg := Option.some.inj hseg
        subst hseg
        cases p with
        | get =>
            exact absurd (Seg.Refuses.map (.attempt (.orElse (.http (by decide)))
              fun _ _ => .goto _) _) hacc
        | owner cert =>
            have ho : c.shared.db.certificates.get k = some cert := ho
            have hcert : c.shared.db.certificates.get k = some cert' := hcert
            rw [ho, Option.some.injEq] at hcert
            subst hcert
            obtain ⟨y, hy⟩ := requireParentOwner_of_accepted hacc
            exact ⟨a, rfl, requireParentOwner_owned hy⟩
    | _ => simp only [Entry.About, hpc] at hid
  · cases hr

/-- **Where accounts come from**: one that appears has the identifier that was drawn for it. -/
theorem Turn.accountsNamed (h : Turn o cfg c i t seg out) (hn : c.shared.db.AccountsNamed) :
    out.shared.db.AccountsNamed := by
  rcases h.committed with e | ⟨-, e⟩
  · rw [e]
    exact hn
  · refine Dml.execAll_induction (R := fun a b => a.AccountsNamed → b.AccountsNamed)
      (fun _ h => h) (fun h₁ h₂ h => h₂ (h₁ h)) (fun d hd a b hab ha k r hr => ?_) e hn
    rcases Dml.exec_account hab hr with ⟨r₀, hr₀, -⟩ | rfl
    · exact ha k r₀ hr₀
    · have hmay := h.may_statement hd
      cases hpc : t.pc <;> rw [hpc] at hmay <;> first | exact hmay.elim | exact hmay

def isolationSafety (o : Oracle) (cfg : Settings) (P : Relay → Relay → Prop) :
    Safety o cfg P where
  Inv _ s := (s.db.AccountsNamed ∧ ∀ e ∈ s.log, e.pre.AccountsNamed) ∧
    (∀ e ∈ s.log, ∀ id, e.Accepted → e.About id →
      ∃ a, e.pc.actsFor = some a ∧ e.pre.OwnedBy id a) ∧
    ∀ id r, s.db.orders.get id = some r → ∃ k ∈ s.log, k.pre.orders.get id = none ∧
      k.post.OwnedBy id r.accountId ∧ ∃ p, k.pc = .newOrder r.accountId p
  Ok _ _ _ := True
  start := ⟨⟨fun _ _ h => (by cases h), List.forall_mem_nil _⟩, List.forall_mem_nil _,
    fun _ _ h => by cases h⟩
  run {c i t seg out} hr h _ hI _ := by
    obtain ⟨⟨hn, hns⟩, hacc, hplaced⟩ := hI
    have hlog : out.shared.log = h.entry :: c.shared.log := h.log
    rw [hlog]
    refine ⟨⟨⟨h.accountsNamed hn, fun e he => ?_⟩, fun e he id => ?_, fun id r hrow => ?_⟩,
      fun _ _ => trivial, fun _ _ => trivial⟩
    · rcases List.mem_cons.mp he with rfl | he
      · exact hn
      · exact hns e he
    · rcases List.mem_cons.mp he with rfl | he
      · exact fun ha hid => h.accepted_owner (entitled hr h.task).owns ha hid
      · exact hacc e he id
    · -- an order that was there was placed before, and one that was not is placed now
      cases hold : c.shared.db.orders.get id with
      | some r₀ =>
          obtain ⟨r', hr', hf⟩ := h.grows.orders hold
          rw [hrow] at hr'
          cases hr'
          obtain ⟨k, hk, hnone, hpost, hpc⟩ := hplaced id r₀ hold
          rw [(Order.fixed_eq hf).1]
          exact ⟨k, List.mem_cons_of_mem _ hk, hnone, hpost, hpc⟩
      | none =>
          rcases h.order_from hrow with ⟨r₀, hr₀, -⟩ | ⟨-, hpc⟩
          · rw [hold] at hr₀
            cases hr₀
          · exact ⟨h.entry, List.mem_cons_self, hold, ⟨r, hrow, rfl⟩, hpc⟩
  others _ _ _ _ _ _ _ _ := trivial
  request _ _ _ _ := trivial
  fresh hI := hI
  clock _ hI := ⟨hI, fun _ _ _ => trivial⟩
  restart hI := ⟨hI, trivial⟩

/-- A request that is handled for an account was signed under its key. -/
theorem SignedAs.signedUnder {l : List Entry} {a : String} (h : SignedAs o cfg l i a)
    (ha : a ≠ "") : ∃ publicKey, SignedUnder o cfg l i a publicKey := by
  obtain ⟨v, hv, hi, req, j, key, hpc, hauth⟩ := h
  cases (authenticate_ok hauth).resolves with
  | @kid kid row _ _ _ _ hrow _ hkey =>
      exact ⟨row.publicKey, v, hv, hi, req, j, key, row, hpc, hauth, hrow, rfl, hkey⟩
  | jwk => exact absurd rfl ha

/-- An order an account placed has an account. -/
theorem PlacedBy.owner (h : Reachable o cfg c) {id a : String}
    (hp : PlacedBy o cfg c.shared.log id a) {order : Order}
    (ho : c.shared.db.orders.get id = some order) : order.accountId ≠ "" := by
  obtain ⟨⟨⟨-, hnamed⟩, -⟩, -⟩ := (isolationSafety o cfg _).reach h
  obtain ⟨k, hk, -, ⟨r, hr, hra⟩, -, publicKey, v, hv, -, req, j, key, row, -, -, hrow, -⟩ := hp
  obtain ⟨r', hr', hf⟩ := (entry_grows h hk).2.orders hr
  rw [ho] at hr'
  cases hr'
  rw [(Order.fixed_eq hf).1, hra]
  rintro rfl
  exact absurd (hnamed v hv "" row hrow) (by decide)

/-- **Success about an order is for the account that placed it, exactly when it has one.** -/
theorem isolation_iff (h : Reachable o cfg c) {e e' : Entry} (he : e ∈ c.shared.log)
    (he' : e' ∈ c.shared.log) {id : String} (ha : e.Accepted) (hid : e.About id)
    (ha' : e'.Accepted) (hid' : e'.About id) :
    ∃ order, c.shared.db.orders.get id = some order ∧
      (Isolated o cfg c.shared.log e e' id ↔ order.accountId ≠ "") := by
  obtain ⟨⟨-, hacc, hplaced⟩, -⟩ := (isolationSafety o cfg _).reach h
  -- both requests were handled for the order's account
  have howner : ∀ {e : Entry}, e ∈ c.shared.log → e.Accepted → e.About id →
      ∃ order, c.shared.db.orders.get id = some order ∧ e.pc.actsFor = some order.accountId := by
    intro e he ha hid
    obtain ⟨a, hact, r, hr, rfl⟩ := hacc e he id ha hid
    obtain ⟨order, ho, hf⟩ := (entry_grows h he).1.orders hr
    exact ⟨order, ho, by rw [hact, (Order.fixed_eq hf).1]⟩
  obtain ⟨order, ho, hact⟩ := howner he ha hid
  obtain ⟨order', ho', hact'⟩ := howner he' ha' hid'
  rw [ho] at ho'
  cases ho'
  refine ⟨order, ho, fun hiso => ?_, fun hne => ?_⟩
  · obtain ⟨a, hp, -⟩ := hiso
    exact hp.owner h ho
  have hsigned : ∀ {e : Entry}, e ∈ c.shared.log → e.pc.actsFor = some order.accountId →
      ∃ publicKey, SignedUnder o cfg c.shared.log e.tid order.accountId publicKey :=
    fun he hact => ((entry_entitled h he).signed _ hact).signedUnder hne
  obtain ⟨k, hk, hnone, hpost, p, hpc⟩ := hplaced id order ho
  exact ⟨order.accountId, ⟨k, hk, hnone, hpost, ⟨p, hpc⟩, hsigned hk (by rw [hpc]; rfl)⟩,
    hsigned he hact, hsigned he' hact'⟩

end

/-- An account places an order and asks for it, replaces its key, and asks for it again. -/
def Demo.askedUnderTwoKeys : List (Nat → List (Action Input)) :=
  [boot, nonce 1, nonce 2, nonce 3, nonce 4, nonce 5, account 1 1, order 11 2,
    call (request 11 3 4) (turns 5), call (keyChangeTo 4 1 2) (turns 6),
    call (request 12 5 4) (turns 5)]

/-- A key without an account places an order, and another one asks for it. -/
def Demo.askedByStranger : List (Nat → List (Action Input)) :=
  [boot, nonce 1, nonce 2, order 1 1, call (request 2 2 4) (turns 5)]

/-- Was the request the entry ends for the order, and answered with success? -/
def Entry.served (e : Entry) (id : String) : Bool :=
  match e.pc, e.seg.next with
  | .getOrder _ id' _, .respond r => decide (id' = id) && decide (r.status = 200)
  | _, _ => false

theorem Entry.served_sound {e : Entry} {id : String} (h : e.served id = true) :
    e.Accepted ∧ e.About id := by
  unfold Entry.served at h
  split at h
  · rename_i hpc hr
    simp only [Bool.and_eq_true, decide_eq_true_eq] at h
    refine ⟨⟨_, hr, by omega, by omega⟩, ?_⟩
    simp only [Entry.About, hpc]
    exact h.1
  · cases h

/-- Was the entry a success, while account `1` had key `k`? -/
def Entry.servedUnder (e : Entry) (k : Nat) : Bool :=
  e.served (Demo.uuid 3) &&
    decide (e.pre.keyOf (Demo.uuid 1) = some (canonicalJwk (Demo.jwk k)))

/-- Two requests of the owner, signed with two keys. -/
theorem isolation_iff_run :
    ∃ c, Demo.runRollOvers (fun _ _ => true) Demo.askedUnderTwoKeys = some c ∧
      ∃ e ∈ c.shared.log, ∃ e' ∈ c.shared.log,
        e.pre.keyOf (Demo.uuid 1) = some (canonicalJwk (Demo.jwk 1)) ∧
        e'.pre.keyOf (Demo.uuid 1) = some (canonicalJwk (Demo.jwk 2)) ∧
        Isolated Demo.rollOversOracle Demo.settings c.shared.log e e' (Demo.uuid 3) := by
  have hrun : (Demo.runRollOvers (fun _ _ => true) Demo.askedUnderTwoKeys).any (fun c =>
      (c.shared.log.any fun e => e.servedUnder 1) && (c.shared.log.any fun e => e.servedUnder 2) &&
      (c.shared.db.orders.get (Demo.uuid 3)).any fun r => decide (r.accountId ≠ "")) = true := by
    decide +kernel
  obtain ⟨c, hc, h⟩ := (Option.any_eq_true _ _).mp hrun
  simp only [Entry.servedUnder, Bool.and_eq_true, List.any_eq_true, Option.any_eq_true,
    decide_eq_true_eq] at h
  obtain ⟨⟨⟨e, he, hs, hkey⟩, e', he', hs', hkey'⟩, r, hr, hne⟩ := h
  obtain ⟨ha, hid⟩ := Entry.served_sound hs
  obtain ⟨ha', hid'⟩ := Entry.served_sound hs'
  have hreach : Reachable Demo.rollOversOracle Demo.settings c :=
    Reach.schedule (fun _ _ _ => trivial) _ .start hc
  obtain ⟨order, ho, hiff⟩ := isolation_iff hreach he he' ha hid ha' hid'
  rw [hr] at ho
  cases ho
  exact ⟨c, hc, e, he, e', he', hkey, hkey', hiff.mpr hne⟩

/-- **An order anybody may ask for**: it was placed under one key and is shown to another, neither
of which belongs to an account. -/
theorem answered_to_a_stranger :
    ¬ ∀ c, Reachable Demo.oracle Demo.settings c → ∀ e ∈ c.shared.log, ∀ e' ∈ c.shared.log, ∀ id,
      e.Accepted → e.About id → e'.Accepted → e'.About id →
        Isolated Demo.oracle Demo.settings c.shared.log e e' id := by
  intro hall
  have hrun : (Demo.run (fun _ _ => true) Demo.askedByStranger).any (fun c =>
      (c.shared.log.any fun e => e.served (Demo.uuid 3)) &&
      (c.shared.db.orders.get (Demo.uuid 3)).any fun r => decide (r.accountId = "")) = true := by
    decide +kernel
  obtain ⟨c, hc, h⟩ := (Option.any_eq_true _ _).mp hrun
  simp only [Bool.and_eq_true, List.any_eq_true, Option.any_eq_true, decide_eq_true_eq] at h
  obtain ⟨⟨e, he, hs⟩, r, hr, hempty⟩ := h
  obtain ⟨ha, hid⟩ := Entry.served_sound hs
  have hreach := Demo.reach (fun _ _ => trivial) hc
  obtain ⟨a, hp, -⟩ := hall c hreach e he e he _ ha hid ha hid
  exact hp.owner hreach hr hempty

end Jackdaw
