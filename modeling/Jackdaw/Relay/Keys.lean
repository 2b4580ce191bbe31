import Jackdaw.Relay.History

/-!
# Relay — one account per key

`new_account` and `key_change` look a key up before they store it, and store it in a later
transaction.  Between the two another request may look the same key up and find it free as well,
and then two accounts have one key (`key_stored_twice`): the index on the column is not unique.

* `keys_unique`: in a run in which no look-up that finds a key free comes between the look-up and
  the commit of another request for the same key, no two accounts have the same key, and the
  look-ups meet at most one row.
-/

namespace Jackdaw

open Support Support.Interleave

/-! ### Looking up and storing -/

/-- The key a look-up asks for, with the account that may have it already. -/
def Pc.looksUp : Pc → Option (String × Option String)
  | .newAccount (.select _ false key) => some (key, none)
  | .keyChange a (.select _ key) => some (key, some a)
  | _ => none

/-- The key a coroutine is about to store, and the account it stores it for. -/
def Pc.storing : Pc → Option (String × String)
  | .newAccount (.commit id row _) => some (row.publicKey, id)
  | .keyChange a (.commit _ key) => some (key, a)
  | _ => none

/-- No account but `own` has the key. -/
def Db.KeyFree (db : Db) (key : String) (own : Option String) : Prop :=
  ∀ id r, db.accounts.get id = some r → r.publicKey = key → own = some id

/-- **Look-ups do not overlap**: a look-up that finds its key free is not made while another
request, which found it free before, is about to store it for a different account. -/
def NoOverlap (c c' : Relay) : Prop :=
  ∀ e, c'.shared.log = e :: c.shared.log → ∀ key own, e.pc.looksUp = some (key, own) →
    e.pre.KeyFree key own → e.seg.next ≠ .dbError →
    ∀ j u id, c.tasks j = some u → j ≠ e.tid → u.pc.storing = some (key, id) → own = some id

/-- No two accounts have the same key. -/
def Db.KeysUnique (db : Db) : Prop :=
  ∀ id id' r r', db.accounts.get id = some r → db.accounts.get id' = some r' →
    r.publicKey = r'.publicKey → id = id'

theorem scalarOneOrNone_ok {α : Type} {l : List α} (h : l.length ≤ 1) :
    ∃ x, scalarOneOrNone l = .ok x := by
  rcases l with _ | ⟨a, _ | ⟨b, l⟩⟩
  · exact ⟨none, rfl⟩
  · exact ⟨some a, rfl⟩
  · simp at h

theorem scalarOneOrNone_none {α : Type} {l : List α} (h : scalarOneOrNone l = .ok none) :
    l = [] := by
  rcases l with _ | ⟨a, _ | ⟨b, l⟩⟩
  · rfl
  · cases h
  · cases h

theorem scalarOneOrNone_nil_iff {α : Type} {l : List α} : scalarOneOrNone l = .ok none ↔ l = [] :=
  ⟨scalarOneOrNone_none, fun h => by rw [h]; rfl⟩

/-- The look-up for the new key finds no other account exactly when none has it. -/
theorem keyFree_iff {db : Db} {a key : String} :
    scalarOneOrNone (db.accounts.select fun id r =>
      decide (r.publicKey = key) && decide (id ≠ a)) = .ok none ↔ db.KeyFree key (some a) := by
  rw [scalarOneOrNone_nil_iff, List.eq_nil_iff_forall_not_mem]
  constructor
  · intro h id r hr hk
    by_contra hne
    refine h (id, r) (Table.mem_select.mpr ⟨hr, ?_⟩)
    simp only [hk, decide_true, Bool.true_and, decide_eq_true_eq]
    exact fun e => hne (by rw [e])
  · rintro h ⟨id, r⟩ hmem
    obtain ⟨hr, hp⟩ := Table.mem_select.mp hmem
    simp only [Bool.and_eq_true, decide_eq_true_eq] at hp
    exact hp.2 (Option.some.inj (h id r hr hp.1)).symm

/-- The look-up of `new_account` finds nothing only where no account has the key. -/
theorem keyFree_of_none {db : Db} {key : String} (h : scalarOneOrNone
    (db.accounts.select fun _ r => decide (r.publicKey = key)) = .ok none) :
    db.KeyFree key none := by
  intro id r hr hk
  have hmem : (id, r) ∈ db.accounts.select fun _ r => decide (r.publicKey = key) :=
    Table.mem_select.mpr ⟨hr, decide_eq_true hk⟩
  rw [scalarOneOrNone_none h] at hmem
  cases hmem

/-- A query for the accounts of one key returns. -/
theorem Db.KeysUnique.query {db : Db} (h : db.KeysUnique) {p : String → Account → Bool}
    {key : String} (hp : ∀ {id r}, p id r = true → r.publicKey = key) :
    ∃ x, scalarOneOrNone (db.accounts.select p) = .ok x := by
  refine scalarOneOrNone_ok (Table.length_select_le_one fun {id id' r r'} hr hpr hr' hpr' => ?_)
  exact h id id' r r' hr hr' ((hp hpr).trans (hp hpr').symm)

section

variable {o : Oracle} {cfg : Settings} {c : Relay} {i j : Nat} {t u : Task} {seg : Seg Pc}
  {out : Outcome Shared Task}

/-! ### One step -/

theorem newAccountSeg_select {db : Db} {now : Int} {ch : Choice} {contact : Option (List String)}
    {only : Bool} {key : String} {seg : Seg NewAccountPc}
    (h : newAccountSeg cfg db now (.select contact only key) ch = some seg) :
    seg.Reads fun p => only = false ∧ db.KeyFree key none ∧
      ∃ id row contact', p = .commit id row contact' ∧ row.publicKey = key := by
  simp only [newAccountSeg] at h
  split at h
  · cases Option.some.inj h
    exact .fail _
  · cases Option.some.inj h
    exact .inl (Seg.respond_quiet _)
  · rename_i hnone
    split at h
    · cases Option.some.inj h
      exact .fail _
    · rename_i honly
      split at h
      · cases Option.some.inj h
        exact .goto ⟨by simpa using honly, keyFree_of_none hnone, _, _, _, rfl, rfl⟩
      · cases h

theorem keyChangeSeg_account {a : String} {db : Db} {inner : Json} {url : String} :
    (keyChangeSeg o cfg a db (.account inner url)).Reads fun p =>
      ∃ account jwk, db.accounts.get a = some account ∧
        verifyInnerJws o inner (accountUrl cfg a) account.publicKey url = .ok jwk ∧
        p = .select account (canonicalJwk jwk) := by
  refine .attempt fun x hx => ?_
  obtain ⟨account, haccount, hx⟩ := ok_of_bind hx
  obtain ⟨jwk, hjwk, hx⟩ := ok_of_bind hx
  cases hx
  exact .goto ⟨account, jwk, orElse_eq_ok.mp haccount, hjwk, rfl⟩

theorem keyChangeSeg_select {a : String} {db : Db} {account : Account} {key : String} :
    (keyChangeSeg o cfg a db (.select account key)).Reads fun p =>
      db.KeyFree key (some a) ∧ p = .commit account key := by
  refine .attempt fun x hx => ?_
  cases x with
  | some y => exact .fail _
  | none => exact .goto ⟨keyFree_iff.mp hx, rfl⟩

/-- **Who writes an account**: a task that is about to store a key, in its own row. -/
theorem Turn.writes_account (h : Turn o cfg c i t seg out) :
    out.shared.db.accounts = c.shared.db.accounts ∨
    ∃ key id, t.pc.storing = some (key, id) ∧ ∀ {k r}, out.shared.db.accounts.get k = some r →
      c.shared.db.accounts.get k = some r ∨ k = id ∧ r.publicKey = key := by
  rcases h.committed with e | ⟨hc, e⟩
  · exact .inl (by rw [e])
  · obtain ⟨ch, hseg⟩ := h.commits hc
    by_cases hw : ∀ d, t.pc.May d → d.table ≠ .accounts
    · exact .inl (h.same hw)
    · cases hpc : t.pc with
      | newAccount p =>
          rw [hpc] at hseg
          obtain ⟨seg', h', rfl⟩ := Option.map_eq_some_iff.mp hseg
          cases p with
          | select contact only key =>
              rw [Seg.map_commit, (newAccountSeg_select h').commit] at hc
              cases hc
          | commit id row contact =>
              cases Option.some.inj h'
              rw [h.tx_nil (by rw [hpc]; rfl)] at e
              obtain ⟨db, hdb, e⟩ := Option.bind_eq_some_iff.mp e
              obtain ⟨tab, ht, rfl⟩ := Option.map_eq_some_iff.mp hdb
              refine .inr ⟨row.publicKey, id, rfl, fun hr => ?_⟩
              rw [← Option.some.inj e] at hr
              rcases get_of_get_insert? ht hr with hr | ⟨rfl, rfl⟩
              · exact .inl hr
              · exact .inr ⟨rfl, rfl⟩
      | keyChange a p =>
          rw [hpc] at hseg
          have hseg := Option.some.inj hseg
          subst hseg
          cases p with
          | account inner url =>
              rw [Seg.map_commit, keyChangeSeg_account.commit] at hc
              cases hc
          | select account key =>
              rw [Seg.map_commit, keyChangeSeg_select.commit] at hc
              cases hc
          | commit account key =>
              rw [h.tx_nil (by rw [hpc]; rfl)] at e
              refine .inr ⟨key, a, rfl, fun {k r} hr => ?_⟩
              simp only [keyChangeSeg, Seg.map_write, List.nil_append, Account.flush] at e
              split at e
              · rw [← Option.some.inj e] at hr
                exact .inl hr
              · rw [← Option.some.inj e] at hr
                by_cases hk : k = a
                · subst hk
                  simp only [Table.get_update, if_true, Option.map_eq_some_iff] at hr
                  obtain ⟨r', -, rfl⟩ := hr
                  exact .inr ⟨rfl, rfl⟩
                · simp only [Table.get_update, if_neg hk] at hr
                  exact .inl hr
      | _ =>
          exfalso
          refine hw fun d hd ht => ?_
          rw [hpc] at hd
          cases d <;> first | exact hd.elim | cases ht

/-- A task that is about to store a key has just found it free. -/
theorem Turn.storing (h : Turn o cfg c i t seg out) (hu : out.self = some u) {key id : String}
    (hs : u.pc.storing = some (key, id)) :
    ∃ own, t.pc.looksUp = some (key, own) ∧ c.shared.db.KeyFree key own ∧
      (own = none ∨ own = some id) ∧ out.shared.db = c.shared.db := by
  obtain ⟨ch, hseg⟩ := h.goes_on hu
  have hn := (h.self hu).1
  cases hpc : t.pc with
  | newAccount p =>
      rw [hpc] at hseg
      obtain ⟨seg', h', rfl⟩ := Option.map_eq_some_iff.mp hseg
      obtain ⟨q, hn', hq⟩ := Next.map_eq_goto hn
      cases p with
      | select contact only key' =>
          have hr := newAccountSeg_select h'
          obtain ⟨rfl, hfree, id', row, contact', rfl, hkey⟩ := hr.of_goto hn'
          rw [hq] at hs
          cases hs
          exact ⟨none, by rw [hkey]; rfl, hkey ▸ hfree, .inl rfl, h.db_eq hr.commit⟩
      | commit id' row contact =>
          cases Option.some.inj h'
          cases hn'
  | keyChange a p =>
      rw [hpc] at hseg
      have hseg := Option.some.inj hseg
      subst hseg
      obtain ⟨q, hn', hq⟩ := Next.map_eq_goto hn
      cases p with
      | account inner url =>
          obtain ⟨account, jwk, -, -, rfl⟩ := keyChangeSeg_account.of_goto hn'
          rw [hq] at hs
          cases hs
      | select account key' =>
          obtain ⟨hfree, rfl⟩ := keyChangeSeg_select.of_goto hn'
          rw [hq] at hs
          cases hs
          exact ⟨some id, rfl, hfree, .inr rfl, h.db_eq keyChangeSeg_select.commit⟩
      | commit account key' => cases hn'
  | jws req p =>
      -- a handler that starts has looked nothing up
      rw [hpc] at hseg
      rcases jwsSeg_goto hseg hn with ⟨p', e⟩ | ⟨hstart | ⟨a, p', e⟩, -⟩
      · rw [e] at hs
        cases hs
      · unfold Pc.isStart at hstart
        split at hstart <;> first | (rename_i e; rw [e] at hs; cases hs) | cases hstart
      · rw [e] at hs
        cases hs
  | _ =>
      exfalso
      rcases h.coroutine hu with e | ⟨req, a, payload, rowcount, e, -⟩
      · rw [hpc] at e
        cases hq : u.pc <;> rw [hq] at e hs <;> first | (cases e; done) | cases hs
      · rw [hpc] at e
        cases e

/-- **Two tasks that are about to store one key store it for one account.** -/
theorem storing_unique (hr : Reach (relay o cfg) NoOverlap .init c) (hi : c.tasks i = some t)
    (hj : c.tasks j = some u) (hne : i ≠ j) {key id id' : String}
    (ht : t.pc.storing = some (key, id)) (hu : u.pc.storing = some (key, id')) : id = id' := by
  refine Reach.pairwise (R := fun t u : Task => ∀ key id id', t.pc.storing = some (key, id) →
    u.pc.storing = some (key, id') → id = id') (fun hR key id id' ht hu => (hR key id' id hu ht).symm)
    ?_ ?_ hr hi hj hne key id id' ht hu
  · intro c i t a out hr hi ho hp
    obtain ⟨seg, h⟩ := turn_of_run hr hi ho
    have hchild : ∀ {v}, out.child = some v → v.pc.storing = none := by
      intro v hv
      rw [h.child] at hv
      obtain ⟨b, -, rfl⟩ := Option.map_eq_some_iff.mp hv
      cases b <;> rfl
    refine ⟨fun u v _ hv key id id' _ hs => ?_, fun j v hj hne _ => ⟨fun u hu key id id' hs hs' => ?_,
      fun u hu key id id' hs => ?_⟩⟩
    · rw [hchild hv] at hs
      cases hs
    · obtain ⟨own, hlook, hfree, hown, -⟩ := h.storing hu hs
      have hnext : seg.next ≠ .dbError := by
        rw [(h.self hu).1]
        exact nofun
      have := hp h.entry h.log key own hlook hfree hnext j v id' hj hne hs'
      rcases hown with rfl | rfl
      · cases this
      · exact Option.some.inj this
    · rw [hchild hu] at hs
      cases hs
  · intro s a t ha u key id id' hs
    obtain ⟨-, -, ⟨req, e⟩ | ⟨p, e⟩ | ⟨cutoff, e⟩⟩ := arrive_cases ha <;> rw [e] at hs <;> cases hs

/-! ### Runs -/

theorem Db.KeyFree.some {db : Db} {key id : String} {own : Option String}
    (h : db.KeyFree key own) (hown : own = none ∨ own = some id) : db.KeyFree key (some id) := by
  intro k r hr hk
  rcases hown with rfl | rfl
  · cases h k r hr hk
  · exact h k r hr hk

/-- A key that is nobody else's is stored. -/
theorem Db.KeysUnique.store {db db' : Db} {key id : String} (h : db.KeysUnique)
    (hfree : db.KeyFree key (some id)) (hfrom : ∀ {k r}, db'.accounts.get k = some r →
      db.accounts.get k = some r ∨ k = id ∧ r.publicKey = key) : db'.KeysUnique := by
  intro k k' r r' hr hr' hkey
  rcases hfrom hr with hr | ⟨rfl, hk⟩
  · rcases hfrom hr' with hr' | ⟨rfl, hk'⟩
    · exact h k k' r r' hr hr' hkey
    · exact (Option.some.inj (hfree k r hr (hkey.trans hk'))).symm
  · rcases hfrom hr' with hr' | ⟨rfl, -⟩
    · exact Option.some.inj (hfree k' r' hr' (hkey.symm.trans hk))
    · rfl

def keySafety (o : Oracle) (cfg : Settings) : Safety o cfg NoOverlap where
  Inv _ s := s.db.KeysUnique
  Ok _ s t := ∀ key id, t.pc.storing = some (key, id) → s.db.KeyFree key (some id)
  start := fun _ _ _ _ h => by cases h
  run {c i t seg out} _ h _ hI hok := by
    refine ⟨?_, fun u hu key id hs => ?_, fun b _ key id hs => ?_⟩
    · rcases h.writes_account with e | ⟨key, id, hs, hfrom⟩
      · intro k k' r r'
        rw [e]
        exact hI k k' r r'
      · exact hI.store (hok key id hs) hfrom
    · obtain ⟨own, -, hfree, hown, hdb⟩ := h.storing hu hs
      rw [hdb]
      exact hfree.some hown
    · cases b <;> cases hs
  others {c i j t u seg out} hr h _ _ _ hj hne hu key id hs := by
    rcases h.writes_account with e | ⟨key', id', hs', hfrom⟩
    · intro k r
      rw [e]
      exact hu key id hs k r
    · intro k r hrow hk
      rcases hfrom hrow with hrow | ⟨rfl, hk'⟩
      · exact hu key id hs k r hrow hk
      · rw [hk] at hk'
        subst hk'
        rw [storing_unique hr hj h.task hne hs hs']
  request {c t} _ _ _ hpc key id hs := by
    rcases hpc with ⟨req, e⟩ | ⟨p, e⟩ | ⟨cutoff, e⟩ <;> rw [e] at hs <;> cases hs
  fresh hI := hI
  clock _ hI := ⟨hI, fun _ _ h => h⟩
  restart hI := ⟨hI, fun _ _ hs => by cases hs⟩

/-- Accounts have different keys, and the look-ups of `new_account` and `key_change` return. -/
def Db.KeysApart (db : Db) : Prop :=
  db.KeysUnique ∧
  (∀ key, ∃ x, scalarOneOrNone
    (db.accounts.select fun _ r => decide (r.publicKey = key)) = .ok x) ∧
  ∀ key a, ∃ x, scalarOneOrNone
    (db.accounts.select fun id r => decide (r.publicKey = key) && decide (id ≠ a)) = .ok x

/-- **One account per key**, in every run without overlapping look-ups. -/
theorem keys_unique (h : Reach (relay o cfg) NoOverlap .init c) : c.shared.db.KeysApart := by
  have hI := ((keySafety o cfg).reach h).1
  refine ⟨hI, fun key => ?_, fun key a => ?_⟩
  · exact Db.KeysUnique.query hI fun hp => of_decide_eq_true hp
  · exact Db.KeysUnique.query hI fun hp => of_decide_eq_true ((Bool.and_eq_true _ _).mp hp).1

end

/-- A test for `NoOverlap` that may be run. -/
def noOverlap (c c' : Relay) : Bool :=
  c'.shared.log.head?.all fun e =>
    e.pc.looksUp.all fun (key, own) => (List.range c.next).all fun j =>
      decide (j = e.tid) || (c.tasks j).all fun u =>
        u.pc.storing.all fun (key', id) => decide (key' ≠ key) || decide (own = some id)

theorem noOverlap_sound {o : Oracle} {cfg : Settings} {P : Relay → Relay → Prop} {c c' : Relay}
    (hr : Reach (relay o cfg) P .init c) (h : noOverlap c c' = true) : NoOverlap c c' := by
  intro e he key own hlook _ _ j u id hj hne hs
  simp only [noOverlap, he, List.head?_cons, Option.all_some, hlook] at h
  have := List.all_eq_true.mp h j (List.mem_range.mpr (hr.lt_next hj))
  simpa [hne, hj, hs] using this

theorem keys_unique_run :
    ∃ c, Demo.run noOverlap [Demo.boot, Demo.nonce 1, Demo.nonce 2, Demo.account 1 1,
        Demo.account 2 2] = some c ∧
      (c.shared.db.accounts.get (Demo.uuid 1)).isSome ∧
      (c.shared.db.accounts.get (Demo.uuid 2)).isSome ∧ c.shared.db.KeysApart := by
  have hrun : (Demo.run noOverlap [Demo.boot, Demo.nonce 1, Demo.nonce 2, Demo.account 1 1,
      Demo.account 2 2]).any (fun c => (c.shared.db.accounts.get (Demo.uuid 1)).isSome &&
        (c.shared.db.accounts.get (Demo.uuid 2)).isSome) = true := by decide +kernel
  obtain ⟨c, hc, h⟩ := (Option.any_eq_true _ _).mp hrun
  obtain ⟨h₁, h₂⟩ := (Bool.and_eq_true _ _).mp h
  exact ⟨c, hc, h₁, h₂, keys_unique (Demo.reach noOverlap_sound hc)⟩

/-- Two `new_account` requests with one key, the second of which looks the key up before the first
commits. -/
def Demo.registeredTwice : List (Nat → List (Action Input)) :=
  [boot, nonce 1, nonce 2, call (request 1 1 0) (turns 3 ++ [{ uuid := uuid 1 }]),
    call (request 1 2 0) (turns 3 ++ [{ uuid := uuid 2 }]), fun _ => go 8 (turns 1),
    fun _ => go 13 (turns 1)]

/-- **Two accounts with one key.** -/
theorem key_stored_twice :
    ¬ ∀ c, Reachable Demo.oracle Demo.settings c → c.shared.db.KeysApart := by
  intro hall
  have hrun : (Demo.run (fun _ _ => true) Demo.registeredTwice).any (fun c =>
      (c.shared.db.accounts.get (Demo.uuid 1)).any fun r =>
        (c.shared.db.accounts.get (Demo.uuid 2)).any fun r' =>
          decide (r.publicKey = r'.publicKey)) = true := by decide +kernel
  obtain ⟨c, hc, h⟩ := (Option.any_eq_true _ _).mp hrun
  obtain ⟨r, hr, h⟩ := (Option.any_eq_true _ _).mp h
  obtain ⟨r', hr', h⟩ := (Option.any_eq_true _ _).mp h
  have := (hall c (Demo.reach (fun _ _ => trivial) hc)).1 _ _ r r' hr hr' (of_decide_eq_true h)
  exact absurd this (by decide)

end Jackdaw
