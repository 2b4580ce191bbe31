import Jackdaw.Relay.Acknowledge
import Jackdaw.Relay.Claims

/-!
# Relay — who a task acts for, and what it owns

A request is handled for the account `verify_jws` returned (`Pc.actsFor`).  The log has the entry
in which its signature was verified (`SignedAs`), and past its ownership check the order it is
about belongs to that account (`Pc.Owns`), whatever the other tasks do: an order never changes
its account, and an authorization or certificate never changes its order.  A background task works
on an order of the account whose request created it (`Dispatched`).

* `entitled`: all of this holds of every suspended task.
* `entry_entitled`: and it held of every task that ran, when it ran.
-/

namespace Jackdaw

open Support Support.Interleave

/-- The account a request is handled for, once its signature was verified. -/
def Pc.actsFor : Pc → Option String
  | .jws _ (.consume a _ _ _) => some a
  | .jws _ (.commit a _ _) => some a
  | .keyChange a _ => some a
  | .newOrder a _ => some a
  | .getOrder a _ _ => some a
  | .finalize a _ _ => some a
  | .getAuthz a _ _ => some a
  | .challenge a _ _ => some a
  | .downloadCert a _ _ => some a
  | .revokeCert a _ => some a
  | _ => none

/-- The order is there, and belongs to the account. -/
def Db.OwnedBy (db : Db) (id a : String) : Prop :=
  ∃ r, db.orders.get id = some r ∧ r.accountId = a

theorem Db.OwnedBy.grows {db db' : Db} {id a : String} (h : db.OwnedBy id a)
    (hg : db.Grows db') : db'.OwnedBy id a := by
  obtain ⟨r, hr, rfl⟩ := h
  obtain ⟨r', hr', hf⟩ := hg.orders hr
  exact ⟨r', hr', (Order.fixed_eq hf).1⟩

/-- What a handler knows of the ownership of its resource. -/
def Pc.Owns (db : Db) : Pc → Prop
  | .getOrder a id (.authzs _) => db.OwnedBy id a
  | .finalize _ _ (.get _) => True
  | .finalize a id _ => db.OwnedBy id a
  | .getAuthz _ z (.owner authz) => db.HasAuthz z authz
  | .challenge _ z (.owner authz) => db.HasAuthz z authz
  | .challenge a z (.flush authz) => db.HasAuthz z authz ∧ db.OwnedBy authz.orderId a
  | .challenge a z (.commit authz _) => db.HasAuthz z authz ∧ db.OwnedBy authz.orderId a
  | .downloadCert _ k (.owner cert) => db.certificates.get k = some cert
  | _ => True

theorem Pc.Owns.grows {db db' : Db} {pc : Pc} (h : pc.Owns db) (hg : db.Grows db') :
    pc.Owns db' := by
  cases pc with
  | getOrder a id p =>
      cases p with
      | get => trivial
      | authzs order => exact Db.OwnedBy.grows h hg
  | finalize a id p =>
      cases p with
      | get csr => trivial
      | _ => exact Db.OwnedBy.grows h hg
  | getAuthz a z p =>
      cases p with
      | get => trivial
      | owner authz => exact Db.HasAuthz.grows h hg
  | challenge a z p =>
      cases p with
      | get => trivial
      | owner authz => exact Db.HasAuthz.grows h hg
      | flush authz | commit authz _ => exact ⟨h.1.grows hg, h.2.grows hg⟩
  | downloadCert a k p =>
      cases p with
      | get => trivial
      | owner cert => exact hg.certificates h
  | _ => trivial

section

variable {o : Oracle} {cfg : Settings} {c : Relay} {i : Nat} {t u : Task} {seg : Seg Pc}
  {out : Outcome Shared Task}

/-! ### Ownership is checked -/

/-- Past its check, the authorization's order belongs to the account. -/
theorem requireParentOwner_owned {a id : String} {db : Db} {x : Unit}
    (h : requireParentOwner a (db.orders.get id) = .ok x) : db.OwnedBy id a :=
  requireParentOwner_ok h

theorem Turn.owns_challenge (h : Turn o cfg c i t seg out) (hu : out.self = some u)
    {a z : String} {p : ChallengePc} (hpc : t.pc = .challenge a z p)
    (ho : t.pc.Owns c.shared.db) : u.pc.Owns out.shared.db := by
  obtain ⟨ch, hseg⟩ := h.goes_on hu
  have hn := (h.self hu).1
  rw [hpc] at hseg ho
  have hseg := Option.some.inj hseg
  cases p with
  | get =>
      have hr : seg.Reads fun q => q.Owns c.shared.db :=
        hseg ▸ .map _ (.attempt fun authz ha => .goto ⟨authz, orElse_eq_ok.mp ha, rfl⟩)
      obtain ⟨hq, hdb, -⟩ := h.reads hr hu
      rw [hdb]
      exact hq
  | owner authz =>
      rcases h.challenge_owner hpc with ⟨⟨a', authz', e, hown, -⟩, rfl | rfl⟩ | ⟨hquiet, -⟩
      · have e : t.pc = _ := e
        rw [hpc] at e
        cases e
        rw [← Next.goto.inj hn]
        exact ⟨Db.HasAuthz.grows ho h.grows, (requireParentOwner_owned hown).grows h.grows⟩
      · cases hn
      · exact absurd hn (hquiet.next _)
  | flush authz =>
      subst hseg
      rw [← Next.goto.inj hn]
      exact ⟨ho.1.grows h.grows, ho.2.grows h.grows⟩
  | commit authz flush =>
      subst hseg
      cases hn

theorem Turn.owns_finalize (h : Turn o cfg c i t seg out) (hu : out.self = some u)
    {a id : String} {p : FinalizePc} (hpc : t.pc = .finalize a id p)
    (ho : t.pc.Owns c.shared.db) : u.pc.Owns out.shared.db := by
  obtain ⟨ch, hseg⟩ := h.goes_on hu
  have hn := (h.self hu).1
  rw [hpc] at hseg ho
  have hseg := Option.some.inj hseg
  have hq : ∀ {q}, c.shared.db.OwnedBy id a → u.pc = .finalize a id q →
      u.pc.Owns out.shared.db := by
    intro q hown e
    rw [e]
    cases q with
    | get csr => trivial
    | _ => exact hown.grows h.grows
  obtain ⟨q, -, e⟩ := Next.map_eq_goto ((congrArg Seg.next hseg).trans hn)
  cases p with
  | get csr =>
      have hr : seg.Reads fun _ => c.shared.db.OwnedBy id a :=
        hseg ▸ .map _ (.attempt fun order hx => .attempt fun _ _ =>
          .goto ⟨order, requireOrderOwner_ok hx⟩)
      exact hq (hr.of_goto hn) e
  | _ => exact hq ho e

/-- A handler that starts has checked nothing. -/
theorem Pc.isStart_owns {p : Pc} (h : p.isStart = true) {db : Db} : p.Owns db := by
  unfold Pc.isStart at h
  split at h <;> trivial

/-- **A turn keeps what its handler knows of the ownership.** -/
theorem Turn.owns (h : Turn o cfg c i t seg out) (hu : out.self = some u)
    (ho : t.pc.Owns c.shared.db) : u.pc.Owns out.shared.db := by
  obtain ⟨ch, hseg⟩ := h.goes_on hu
  have hn := (h.self hu).1
  cases hpc : t.pc with
  | jws req p =>
      rw [hpc] at hseg
      rcases jwsSeg_goto hseg hn with ⟨p', e⟩ | ⟨hs | ⟨a, p', e⟩, -⟩
      · rw [e]
        trivial
      · exact Pc.isStart_owns hs
      · rw [e]
        trivial
  | challenge a z p => exact h.owns_challenge hu hpc ho
  | finalize a id p => exact h.owns_finalize hu hpc ho
  | getOrder a id p =>
      rw [hpc] at hseg
      have hseg := Option.some.inj hseg
      cases p with
      | get =>
          have hr : seg.Reads fun q => q.Owns c.shared.db :=
            hseg ▸ .map _ (.attempt fun order hx => .goto ⟨order, requireOrderOwner_ok hx⟩)
          obtain ⟨hq, hdb, -⟩ := h.reads hr hu
          rw [hdb]
          exact hq
      | authzs order => exact absurd hn (hseg ▸ ((Seg.respond_quiet _).map _).next _)
  | getAuthz a z p =>
      rw [hpc] at hseg
      have hseg := Option.some.inj hseg
      cases p with
      | get =>
          have hr : seg.Reads fun q => q.Owns c.shared.db :=
            hseg ▸ .map _ (.attempt fun authz hx => .goto ⟨authz, orElse_eq_ok.mp hx, rfl⟩)
          obtain ⟨hq, hdb, -⟩ := h.reads hr hu
          rw [hdb]
          exact hq
      | owner authz =>
          have hr : seg.Reads fun _ => False :=
            hseg ▸ .map _ (.attempt fun _ _ => .inl (Seg.respond_quiet _))
          exact (hr.of_goto hn).elim
  | downloadCert a k p =>
      rw [hpc] at hseg
      have hseg := Option.some.inj hseg
      cases p with
      | get =>
          have hr : seg.Reads fun q => q.Owns c.shared.db :=
            hseg ▸ .map _ (.attempt fun cert hx => .goto (orElse_eq_ok.mp hx))
          obtain ⟨hq, hdb, -⟩ := h.reads hr hu
          rw [hdb]
          exact hq
      | owner cert =>
          have hr : seg.Reads fun _ => False :=
            hseg ▸ .map _ (.attempt fun _ _ => .inl (Seg.respond_quiet _))
          exact (hr.of_goto hn).elim
  | _ =>
      rcases h.coroutine hu with e | ⟨req, a, payload, rowcount, e, -⟩
      · rw [hpc] at e
        cases hq : u.pc <;> rw [hq] at e <;> trivial
      · rw [hpc] at e
        cases e

/-! ### The signature -/

/-- The account a coroutine is called for. -/
def Coroutine.account : Coroutine → Option String
  | .keyChange a => some a
  | .newOrder a => some a
  | .getOrder a _ => some a
  | .finalize a _ => some a
  | .getAuthz a _ => some a
  | .challenge a _ => some a
  | .downloadCert a _ => some a
  | .revokeCert a => some a
  | _ => none

theorem Pc.actsFor_eq {pc : Pc} (h : ∀ req p, pc ≠ .jws req p) :
    pc.actsFor = pc.coroutine.account := by
  cases pc with
  | jws req p => exact absurd rfl (h req p)
  | _ => rfl

theorem Route.account_coroutine {route : Route} {a b : String}
    (h : (route.coroutine a).account = some b) : b = a := by
  cases route with
  | newAccount => cases h
  | _ => exact (Option.some.inj h).symm

/-- Task `i` is a request whose signature was verified for account `a`. -/
def SignedAs (o : Oracle) (cfg : Settings) (l : List Entry) (i : Nat) (a : String) : Prop :=
  ∃ v ∈ l, v.tid = i ∧ ∃ req j key, v.pc = .jws req .verify ∧
    authenticate o cfg v.pre.accounts req.toHttpRequest = .ok (j, key, a)

theorem SignedAs.cons {l : List Entry} {a : String} (h : SignedAs o cfg l i a) (e : Entry) :
    SignedAs o cfg (e :: l) i a := by
  obtain ⟨v, hv, h⟩ := h
  exact ⟨v, List.mem_cons_of_mem e hv, h⟩

/-- **A request is handled for the account its signature was verified for.** -/
theorem Turn.signed_as (h : Turn o cfg c i t seg out) (hu : out.self = some u)
    (hs : ∀ a, t.pc.actsFor = some a → SignedAs o cfg c.shared.log i a) {a : String}
    (ha : u.pc.actsFor = some a) : SignedAs o cfg out.shared.log i a := by
  obtain ⟨ch, hseg⟩ := h.goes_on hu
  have hn := (h.self hu).1
  have hkeep : t.pc.actsFor = some a → SignedAs o cfg out.shared.log i a :=
    fun ht => h.log ▸ (hs a ht).cons _
  by_cases hjws : ∃ req p, t.pc = .jws req p
  · obtain ⟨req, p, hpc⟩ := hjws
    rw [hpc] at hseg
    cases p with
    | verify =>
        have hr : seg.Reads fun q => ∀ a, q.actsFor = some a → ∃ j key,
            authenticate o cfg c.shared.db.accounts req.toHttpRequest = .ok (j, key, a) := by
          refine (Option.some.inj hseg) ▸ .attempt fun ⟨j, a, nonce⟩ hx => .goto fun b hb => ?_
          obtain ⟨⟨j', key, a'⟩, hauth, hx⟩ := ok_of_bind hx
          obtain ⟨_, -, hx⟩ := ok_of_bind hx
          cases hx
          cases Option.some.inj hb
          exact ⟨j, key, hauth⟩
        obtain ⟨j, key, hauth⟩ := hr.of_goto hn a ha
        exact ⟨h.entry, h.log ▸ List.mem_cons_self, rfl, req, j, key, hpc, hauth⟩
    | consume b nonce payload cutoff =>
        cases Option.some.inj hseg
        refine hkeep ?_
        rw [hpc, ← ha, ← Next.goto.inj hn]
        rfl
    | commit b payload rowcount =>
        refine hkeep ?_
        rw [hpc]
        simp only [Pc.seg, jwsSeg] at hseg
        split at hseg
        · cases Option.some.inj hseg
          exact absurd hn ((Seg.fail_quiet _).next _)
        · obtain ⟨seg', h', rfl⟩ := Option.map_eq_some_iff.mp hseg
          have hco := ((routeStart_reads h').of_goto hn).2
          have hne : ∀ req p, u.pc ≠ .jws req p := by
            intro req' p' e
            rw [e] at hco
            cases hroute : req.route <;> rw [hroute] at hco <;> cases hco
          rw [Pc.actsFor_eq hne, hco] at ha
          rw [Route.account_coroutine ha]
          rfl
  · have hne : ∀ req p, t.pc ≠ .jws req p := fun req p e => hjws ⟨req, p, e⟩
    refine hkeep ?_
    rcases h.coroutine hu with e | ⟨req, b, payload, rowcount, e, -⟩
    · have hne' : ∀ req p, u.pc ≠ .jws req p := by
        intro req p e'
        rw [e'] at e
        obtain ⟨q, hq⟩ := Pc.eq_jws e.symm
        exact hne req q hq
      rw [← ha, Pc.actsFor_eq hne, Pc.actsFor_eq hne', e]
    · exact absurd e (hne req _)

/-! ### The tasks a request creates -/

/-- The order a background task works on. -/
def Pc.worksOn : Pc → Option String
  | .runChallenge _ id _ => some id
  | .processFinalize id _ _ _ => some id
  | _ => none

/-- The order a background coroutine is called for. -/
def Coroutine.worksOn : Coroutine → Option String
  | .runChallenge _ id => some id
  | .processFinalize id _ _ => some id
  | _ => none

theorem Pc.worksOn_eq (pc : Pc) : pc.worksOn = pc.coroutine.worksOn := by
  cases pc <;> rfl

/-- Task `i`, where it is suspended, works on an order of the account whose request created it. -/
def Dispatched (db : Db) (l : List Entry) (i : Nat) (pc : Pc) : Prop :=
  ∀ d ∈ l, d.child = i → d.seg.spawn ≠ none →
    ∃ a id, d.pc.actsFor = some a ∧ pc.worksOn = some id ∧ db.OwnedBy id a

theorem Dispatched.keep {db db' : Db} {l : List Entry} {pc pc' : Pc} {e : Entry}
    (h : Dispatched db l i pc) (hg : db.Grows db') (hpc : pc'.worksOn = pc.worksOn)
    (he : e.child ≠ i) : Dispatched db' (e :: l) i pc' := by
  intro d hd hi hs
  rcases List.mem_cons.mp hd with rfl | hd
  · exact absurd hi he
  · obtain ⟨a, id, ha, hid, hown⟩ := h d hd hi hs
    exact ⟨a, id, ha, hpc.trans hid, hown.grows hg⟩

/-- A request creates a task for an order of its account. -/
theorem Turn.dispatches (h : Turn o cfg c i t seg out) (ho : t.pc.Owns c.shared.db) {b : Bg}
    (hb : seg.spawn = some b) :
    ∃ a id, t.pc.actsFor = some a ∧ b.pc.worksOn = some id ∧ out.shared.db.OwnedBy id a := by
  have hsp := h.proper.spawn b hb
  unfold Pc.Spawns at hsp
  split at hsp
  · rename_i a id order csrDer domain rowcount hpc
    rw [hpc] at ho ⊢
    rw [hsp.2]
    exact ⟨a, id, rfl, rfl, Db.OwnedBy.grows ho h.grows⟩
  · rename_i a z authz hpc
    rcases h.challenge_owner hpc with ⟨⟨a', authz', e, hown, -⟩, -⟩ | ⟨hquiet, -⟩
    · have e : t.pc = _ := e
      rw [hpc] at e
      cases e
      rw [hpc, hsp.2]
      exact ⟨a, authz.orderId, rfl, rfl, (requireParentOwner_owned hown).grows h.grows⟩
    · rw [hquiet.spawn] at hb
      cases hb
  · rename_i a z authz flush hpc
    rw [hpc] at ho ⊢
    rw [hsp]
    exact ⟨a, authz.orderId, rfl, rfl, ho.2.grows h.grows⟩
  · exact hsp.elim

/-! ### Runs -/

/-- What entitles task `i` to go on from `pc`. -/
structure Entitled (o : Oracle) (cfg : Settings) (db : Db) (l : List Entry) (i : Nat) (pc : Pc) :
    Prop where
  owns : pc.Owns db
  signed : ∀ a, pc.actsFor = some a → SignedAs o cfg l i a
  dispatched : Dispatched db l i pc

theorem Entitled.keep {db db' : Db} {l : List Entry} {pc : Pc} {e : Entry}
    (h : Entitled o cfg db l i pc) (hg : db.Grows db') (he : e.child ≠ i) :
    Entitled o cfg db' (e :: l) i pc :=
  ⟨h.owns.grows hg, fun a ha => (h.signed a ha).cons e, h.dispatched.keep hg rfl he⟩

theorem Entitled.fresh {db : Db} {l : List Entry} {pc : Pc} (hown : pc.Owns db)
    (ha : pc.actsFor = none) (hl : ∀ e ∈ l, e.child < i) : Entitled o cfg db l i pc := by
  refine ⟨hown, fun a h => ?_, fun d hd hi => absurd hi (hl d hd).ne⟩
  rw [ha] at h
  cases h

theorem Turn.worksOn (h : Turn o cfg c i t seg out) (hu : out.self = some u) :
    u.pc.worksOn = t.pc.worksOn := by
  rw [Pc.worksOn_eq, Pc.worksOn_eq]
  rcases h.coroutine hu with e | ⟨req, a, payload, rowcount, hpc, e⟩
  · rw [e]
  · rw [e, hpc]
    cases req.route <;> rfl

def ownershipSafety (o : Oracle) (cfg : Settings) (P : Relay → Relay → Prop) :
    Safety o cfg P where
  Inv n s := (∀ e ∈ s.log, e.child < n) ∧ ∀ e ∈ s.log, Entitled o cfg e.pre s.log e.tid e.pc
  Ok i s t := Entitled o cfg s.db s.log i t.pc
  start := ⟨List.forall_mem_nil _, List.forall_mem_nil _⟩
  run {c i t seg out} hr h _ hI hok := by
    have hlog : out.shared.log = h.entry :: c.shared.log := h.log
    have hi : h.entry.child ≠ i := (hr.lt_next h.task).ne'
    rw [hlog]
    refine ⟨⟨fun e he => ?_, fun e he => ?_⟩, fun u hu => ⟨h.owns hu hok.owns, fun a ha => ?_, ?_⟩,
      fun b hb => ⟨?_, fun a ha => ?_, fun d hd hn hs => ?_⟩⟩
    · rcases List.mem_cons.mp he with rfl | he
      · exact Nat.lt_succ_self _
      · exact Nat.lt_succ_of_lt (hI.1 e he)
    · rcases List.mem_cons.mp he with rfl | he
      · exact hok.keep (.refl _) hi
      · exact (hI.2 e he).keep (.refl _) (tid_lt hr he).ne'
    · exact hlog ▸ h.signed_as hu hok.signed ha
    · exact hok.dispatched.keep h.grows (h.worksOn hu) hi
    · cases b <;> trivial
    · cases b <;> cases ha
    · rcases List.mem_cons.mp hd with rfl | hd
      · exact h.dispatches hok.owns hb
      · exact absurd hn (hI.1 d hd).ne
  others {c i j t u seg out} hr h _ _ _ hj _ hu := by
    rw [h.log]
    exact hu.keep h.grows (hr.lt_next hj).ne'
  request {c t} _ hI _ hpc := by
    rcases hpc with ⟨req, e⟩ | ⟨p, e⟩ | ⟨cutoff, e⟩ <;> rw [e] <;> exact .fresh trivial rfl hI.1
  fresh hI := ⟨fun e he => Nat.lt_succ_of_lt (hI.1 e he), hI.2⟩
  clock _ hI := ⟨hI, fun _ _ h => h⟩
  restart hI := ⟨hI, .fresh trivial rfl hI.1⟩

variable {P : Relay → Relay → Prop}

/-- **Every suspended task is entitled to go on.** -/
theorem entitled (h : Reach (relay o cfg) P .init c) (ht : c.tasks i = some t) :
    Entitled o cfg c.shared.db c.shared.log i t.pc :=
  ((ownershipSafety o cfg P).reach h).2 i t ht

/-- **Every task that ran was.** -/
theorem entry_entitled (h : Reach (relay o cfg) P .init c) {e : Entry} (he : e ∈ c.shared.log) :
    Entitled o cfg e.pre c.shared.log e.tid e.pc :=
  ((ownershipSafety o cfg P).reach h).1.2 e he

end

end Jackdaw
