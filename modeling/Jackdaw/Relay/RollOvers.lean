import Jackdaw.Relay.KeyChange

/-!
# Relay — roll-overs of one account

A `key_change` compares the old key of its inner JWS with the row it loads, looks the new key up,
and writes the row by its primary key, each in a statement of its own.  What it replaces is what is
stored when it writes, and that is what it compared with unless another roll-over of the account
has committed since (`replaced_unnamed_key`).

* `Turn.account_kept`: nothing else changes the row of an account.
* `roll_overs_linearize`: in a run in which no roll-over commits between the look-up and the commit
  of another one of the same account, each that is answered 200 replaces the key it names.
-/

namespace Jackdaw

open Support Support.Interleave

/-! ### What a roll-over names and stores -/

/-- The key the payload of an inner JWS names as `oldKey`. -/
def innerOldKey (o : Oracle) (inner : Json) : Option Json := do
  let text ← ((inner.get? "payload").getD (.str "")).text?
  let payload ← (b64urlDecode text).bind o.jsonLoads
  nonNull (payload.get? "oldKey")

/-- The key that is stored for an account. -/
def Db.keyOf (db : Db) (a : String) : Option String := (db.accounts.get a).map Account.publicKey

/-- The entry looks account `a` up, for a request with this inner JWS. -/
def Entry.LooksUp (e : Entry) (a : String) (inner : Json) : Prop :=
  ∃ url, e.pc = .keyChange a (.account inner url)

/-- The entry writes the new key of account `a`, and answers 200. -/
def Entry.RollsOver (e : Entry) (a key : String) : Prop :=
  (∃ account, e.pc = .keyChange a (.commit account key)) ∧ e.seg.next.Answers 200

/-- Since the task of the entry looked account `a` up, no other roll-over of it was committed. -/
def Entry.Undisturbed (e : Entry) (a : String) (l : List Entry) : Prop :=
  ∀ l₂ d l₁ inner, l = l₂ ++ d :: l₁ → d.tid = e.tid → d.LooksUp a inner →
    ∀ w ∈ l₂, ∀ key, ¬ w.RollsOver a key

/-- **Roll-overs do not overlap**: one that is committed found none of the same account committed
since its look-up. -/
def RollOversApart (c c' : Relay) : Prop :=
  ∀ e, c'.shared.log = e :: c.shared.log → ∀ a key, e.RollsOver a key →
    e.Undisturbed a c.shared.log

/-- The request of the entry, which looked account `a` up in `l`, names the old key. -/
def Entry.Names (o : Oracle) (e : Entry) (a old : String) (l : List Entry) : Prop :=
  ∃ d ∈ l, d.tid = e.tid ∧ ∃ inner key, d.LooksUp a inner ∧ innerOldKey o inner = some key ∧
    canonicalJwk key = old

/-- **Roll-overs linearize**: each that is answered 200 replaces the key it names, and of two that
have both looked the account up before the first is written, and name the same key, only one stores
its new key. -/
structure RollOversLinear (o : Oracle) (log : List Entry) : Prop where
  replaces : ∀ l₂ e l₁ a key, log = l₂ ++ e :: l₁ → e.RollsOver a key →
    ∃ old, e.Names o a old l₁ ∧ e.pre.keyOf a = some old ∧ e.post.keyOf a = some key
  oneWins : ∀ l₃ e₂ l₂ e₁ l₁ a key₁ key₂ old, log = l₃ ++ e₂ :: (l₂ ++ e₁ :: l₁) →
    e₁.Names o a old l₁ → e₂.Names o a old l₁ → key₁ ≠ key₂ →
    e₁.RollsOver a key₁ → ¬ e₂.RollsOver a key₂

theorem innerOldKey_of_ok {o : Oracle} {inner jwk : Json} {accountUrl oldPublicKey url : String}
    (h : verifyInnerJws o inner accountUrl oldPublicKey url = .ok jwk) :
    ∃ old, innerOldKey o inner = some old ∧ canonicalJwk old = oldPublicKey := by
  obtain ⟨j, key, hin⟩ := verifyInnerJws_ok h
  obtain ⟨text, bytes, p, old, htext, hbytes, hp, -, hold, hsame⟩ := hin.payload
  refine ⟨old, ?_, hsame⟩
  rw [hin.members.2.2.1] at htext
  simp only [innerOldKey, htext, Json.text?, hbytes, Option.bind_some, hp, bind]
  exact hold

section

variable {o : Oracle} {cfg : Settings} {c : Relay} {i : Nat} {t u : Task} {seg : Seg Pc}
  {out : Outcome Shared Task}

/-! ### One step -/

/-- **Who changes an account**: a roll-over of it that is committed. -/
theorem Turn.account_kept (h : Turn o cfg c i t seg out) {b : String} {row : Account}
    (hrow : c.shared.db.accounts.get b = some row) :
    out.shared.db.accounts.get b = some row ∨ ∃ key, h.entry.RollsOver b key := by
  by_cases hpc : ∃ p, t.pc = .keyChange b p
  · obtain ⟨p, hpc⟩ := hpc
    rcases h.committed with e | ⟨hc, -⟩
    · exact .inl (by rw [e]; exact hrow)
    obtain ⟨ch, hseg⟩ := h.commits hc
    rw [hpc] at hseg
    cases Option.some.inj hseg
    cases p with
    | account inner url =>
        rw [Seg.map_commit, keyChangeSeg_account.commit] at hc
        cases hc
    | select account key =>
        rw [Seg.map_commit, keyChangeSeg_select.commit] at hc
        cases hc
    | commit account key => exact .inr ⟨key, ⟨account, hpc⟩, _, rfl, rfl⟩
  · refine .inl (h.keeps (k := .account b) (fun d _ _ hmay hup => ?_) row hrow)
    cases d with
    | setAccountKey id key =>
        have hid : id = b := hup
        subst hid
        cases ht : t.pc with
        | keyChange a p =>
            rw [ht] at hmay
            have ha : id = a := hmay
            exact hpc ⟨p, by rw [ht, ha]⟩
        | _ =>
            rw [ht] at hmay
            exact hmay
    | _ => exact hup

/-- The account a roll-over that is past its look-up has loaded. -/
def Pc.rollingOver : Pc → Option (String × Account)
  | .keyChange a (.select account _) => some (a, account)
  | .keyChange a (.commit account _) => some (a, account)
  | _ => none

/-- A roll-over past its look-up has just looked the account up, or was past it before. -/
theorem Turn.rollingOver (h : Turn o cfg c i t seg out) (hu : out.self = some u) {a : String}
    {account : Account} (hpc : u.pc.rollingOver = some (a, account)) :
    t.pc.rollingOver = some (a, account) ∨
      ∃ inner url old, t.pc = .keyChange a (.account inner url) ∧ out.shared.db = c.shared.db ∧
        c.shared.db.accounts.get a = some account ∧ innerOldKey o inner = some old ∧
        canonicalJwk old = account.publicKey := by
  obtain ⟨ch, hseg⟩ := h.goes_on hu
  have hn := (h.self hu).1
  have hu' : ∃ p, u.pc = .keyChange a p ∧ u.pc.isStart = false := by
    unfold Pc.rollingOver at hpc
    split at hpc
    · cases hpc
      exact ⟨_, by assumption, by simp only [*, Pc.isStart]⟩
    · cases hpc
      exact ⟨_, by assumption, by simp only [*, Pc.isStart]⟩
    · cases hpc
  obtain ⟨p, hp, hstart⟩ := hu'
  have hcor : u.pc.coroutine = t.pc.coroutine := by
    rcases h.stays_or_starts hu with e | e | ⟨b, q, e⟩
    · exact e
    · rw [hstart] at e
      cases e
    · rw [hp] at e
      cases e
  cases ht : t.pc with
  | keyChange b q =>
      rw [ht] at hseg
      cases Option.some.inj hseg
      obtain ⟨q', hn', hq⟩ := Next.map_eq_goto hn
      cases q with
      | account inner url =>
          obtain ⟨account', jwk, hget, hok, rfl⟩ := keyChangeSeg_account.of_goto hn'
          rw [hq] at hpc
          cases hpc
          obtain ⟨old, hold, hsame⟩ := innerOldKey_of_ok hok
          exact .inr ⟨inner, url, old, rfl, h.db_eq keyChangeSeg_account.commit, hget, hold, hsame⟩
      | select account' key =>
          obtain ⟨-, rfl⟩ := keyChangeSeg_select.of_goto hn'
          rw [hq] at hpc
          exact .inl hpc
      | commit account' key => cases hn'
  | _ =>
      rw [hp, ht] at hcor
      cases hcor

/-! ### Runs -/

/-- Task `i` has looked account `a` up, found this row, and compared its key with `oldKey`. -/
def LookedUp (o : Oracle) (i : Nat) (a : String) (account : Account) (l : List Entry) : Prop :=
  ∃ l₂ d l₁ inner old, l = l₂ ++ d :: l₁ ∧ d.tid = i ∧ d.LooksUp a inner ∧
    d.post.accounts.get a = some account ∧ innerOldKey o inner = some old ∧
    canonicalJwk old = account.publicKey

theorem LookedUp.cons {a : String} {account : Account} {l : List Entry}
    (h : LookedUp o i a account l) (e : Entry) : LookedUp o i a account (e :: l) := by
  obtain ⟨l₂, d, l₁, inner, old, rfl, hd⟩ := h
  exact ⟨e :: l₂, d, l₁, inner, old, rfl, hd⟩

/-- A roll-over that is committed undisturbed finds the row it has looked up. -/
theorem LookedUp.stored {a : String} {account : Account} {e : Entry} {db : Db} {l : List Entry}
    (h : LookedUp o e.tid a account l) (hrec : Recorded db l) (hun : e.Undisturbed a l)
    (hkept : ∀ w ∈ l, ∀ b row, w.pre.accounts.get b = some row →
      w.post.accounts.get b = some row ∨ ∃ key, w.RollsOver b key) :
    db.accounts.get a = some account := by
  obtain ⟨l₂, d, l₁, inner, old, rfl, htid, hlook, hget, -, -⟩ := h
  by_contra hne
  obtain ⟨w, hw, hpre, hpost⟩ := hrec.lost (Q := fun db => db.accounts.get a = some account) hget hne
  rcases hkept w (List.mem_append_left _ hw) a account hpre with e | ⟨key, hroll⟩
  · exact hpost e
  · exact hun l₂ d l₁ inner rfl htid hlook w hw key hroll

theorem LookedUp.names {a : String} {account : Account} {e : Entry} {l : List Entry}
    (h : LookedUp o e.tid a account l) : e.Names o a account.publicKey l := by
  obtain ⟨l₂, d, l₁, inner, old, rfl, htid, hlook, -, hold, hsame⟩ := h
  exact ⟨d, List.mem_append_right _ List.mem_cons_self, htid, inner, old, hlook, hold, hsame⟩

/-- What the write of an undisturbed roll-over finds and leaves. -/
theorem Turn.rollsOver (h : Turn o cfg c i t seg out) {a key : String}
    (hroll : h.entry.RollsOver a key) {account : Account}
    (hpc : t.pc = .keyChange a (.commit account key))
    (hstored : c.shared.db.accounts.get a = some account) :
    c.shared.db.keyOf a = some account.publicKey ∧ out.shared.db.keyOf a = some key := by
  refine ⟨by rw [Db.keyOf, hstored]; rfl, ?_⟩
  have hseg : seg = (keyChangeSeg o cfg a c.shared.db (.commit account key)).map (.keyChange a) := by
    rcases h.runs with ⟨ch, hseg⟩ | rfl
    · rw [hpc] at hseg
      exact (Option.some.inj hseg).symm
    · obtain ⟨r, hr, -⟩ := hroll.2
      cases hr
  subst hseg
  obtain ⟨db', hexec, hrolled⟩ := flush_rolled hstored key
  rcases h.db with ⟨-, e⟩ | ⟨hc, -⟩
  · rw [h.tx_nil (by rw [hpc]; rfl)] at e
    have e : Dml.execAll (account.flush a key) c.shared.db = some out.shared.db := e
    rw [hexec] at e
    cases e
    rw [Db.keyOf, hrolled a, if_pos rfl]
    rfl
  · cases hc

/-- The log with its newest entry, and where an entry of it stands. -/
theorem cons_eq_append_cons {α : Type} {x e : α} {l l₁ l₂ : List α} (h : x :: l = l₂ ++ e :: l₁) :
    l₂ = [] ∧ x = e ∧ l = l₁ ∨ ∃ l₂', l₂ = x :: l₂' ∧ l = l₂' ++ e :: l₁ := by
  rcases l₂ with _ | ⟨y, l₂⟩
  · cases h
    exact .inl ⟨rfl, rfl, rfl⟩
  · cases h
    exact .inr ⟨l₂, rfl, rfl⟩

/-- Accounts change by roll-overs alone, and each was undisturbed and replaced what it names. -/
structure RolledLog (o : Oracle) (log : List Entry) : Prop where
  kept : ∀ w ∈ log, ∀ b row, w.pre.accounts.get b = some row →
    w.post.accounts.get b = some row ∨ ∃ key, w.RollsOver b key
  apart : ∀ l₂ e l₁ a key, log = l₂ ++ e :: l₁ → e.RollsOver a key → e.Undisturbed a l₁ ∧
    ∃ old, e.Names o a old l₁ ∧ e.pre.keyOf a = some old ∧ e.post.keyOf a = some key

def rollOverSafety (o : Oracle) (cfg : Settings) : Safety o cfg RollOversApart where
  Inv _ s := RolledLog o s.log
  Ok i s t := ∀ a account, t.pc.rollingOver = some (a, account) → LookedUp o i a account s.log
  start := ⟨List.forall_mem_nil _, fun _ _ _ _ _ h => by simp [Shared.init] at h⟩
  run {c i t seg out} hr h hp hI hok := by
    refine ⟨⟨fun w hw b row hrow => ?_, fun l₂ e l₁ a key hlog hroll => ?_⟩,
      fun u hu a account hpc => ?_, fun b _ a account hpc => ?_⟩
    · rw [h.log] at hw
      rcases List.mem_cons.mp hw with rfl | hw
      · exact h.account_kept hrow
      · exact hI.kept w hw b row hrow
    · rw [h.log] at hlog
      rcases cons_eq_append_cons hlog with ⟨rfl, rfl, rfl⟩ | ⟨l₂', -, hlog'⟩
      · have hun := hp _ h.log a key hroll
        obtain ⟨account, hpc⟩ := hroll.1
        have hlook : LookedUp o i a account c.shared.log := by
          refine hok a account ?_
          rw [show t.pc = _ from hpc]
          rfl
        have hstored := LookedUp.stored (e := h.entry) hlook (recorded hr) hun hI.kept
        exact ⟨hun, _, LookedUp.names (e := h.entry) hlook, h.rollsOver hroll hpc hstored⟩
      · exact hI.apart l₂' e l₁ a key hlog' hroll
    · rw [h.log]
      rcases h.rollingOver hu hpc with hpc' | ⟨inner, url, old, hpc', hdb, hget, hold, hsame⟩
      · exact (hok a account hpc').cons _
      · refine ⟨[], _, c.shared.log, inner, old, rfl, rfl, ⟨url, hpc'⟩, ?_, hold, hsame⟩
        rw [hdb]
        exact hget
    · cases b <;> cases hpc
  others {c i j t u seg out} _ h _ _ _ _ _ hu a account hpc := by
    rw [h.log]
    exact (hu a account hpc).cons _
  request {c t} _ _ _ hpc a account hs := by
    rcases hpc with ⟨req, e⟩ | ⟨p, e⟩ | ⟨cutoff, e⟩ <;> rw [e] at hs <;> cases hs
  fresh hI := hI
  clock _ hI := ⟨hI, fun _ _ h => h⟩
  restart hI := ⟨hI, fun _ _ hs => by cases hs⟩

/-- **Roll-overs linearize**, in every run in which none is committed between the look-up and the
commit of another one of the same account. -/
theorem roll_overs_linearize (h : Reach (relay o cfg) RollOversApart .init c) :
    RollOversLinear o c.shared.log := by
  have hI : RolledLog o c.shared.log := ((rollOverSafety o cfg).reach h).1
  refine ⟨fun l₂ e l₁ a key hlog hroll => (hI.apart l₂ e l₁ a key hlog hroll).2, ?_⟩
  rintro l₃ e₂ l₂ e₁ l₁ a key₁ key₂ old hlog - ⟨d, hd, htid, inner, -, hlook, -, -⟩ - h₁ h₂
  -- the write of the first lies between the look-up and the write of the second
  obtain ⟨l₀, l₁', rfl⟩ := List.append_of_mem hd
  refine (hI.apart l₃ e₂ _ a key₂ hlog h₂).1 (l₂ ++ e₁ :: l₀) d l₁' inner ?_ htid hlook e₁ ?_ key₁ h₁
  · simp
  · simp

end

/-! ### Two runs -/

namespace Demo

/-- The requests of the small world, also those that account `1` signs with key `2` (as `12`), and
its key changes from key `old` to key `k`: the body, its header, the inner JWS, its header and its
payload. -/
def decodeRollOvers : List UInt8 → Option Json
  | [5, n, old, k] => some (.obj
      [("protected", .str (urlsafeB64encode [6, n])),
       ("payload", .str (urlsafeB64encode [7, old, k])),
       ("signature", .str (urlsafeB64encode [old]))])
  | [6, n] => some (.obj
      [("alg", .str "ES256"), ("url", .str "https://relay.test/acme/key-change"),
       ("nonce", .str (toString n.toNat)),
       ("kid", .str ("https://relay.test/acme/account/" ++ uuid 1))])
  | [7, old, k] => some (.obj
      [("protected", .str (urlsafeB64encode [8, k])), ("payload", .str (urlsafeB64encode [9, old])),
       ("signature", .str (urlsafeB64encode [k]))])
  | [8, k] => some (.obj
      [("alg", .str "ES256"), ("url", .str "https://relay.test/acme/key-change"),
       ("jwk", jwk k.toNat)])
  | [9, old] => some (.obj
      [("account", .str ("https://relay.test/acme/account/" ++ uuid 1)),
       ("oldKey", jwk old.toNat)])
  | [1, 12, n, r] => some (.obj
      [("alg", .str "ES256"), ("url", .str (url (route r))), ("nonce", .str (toString n.toNat)),
       ("kid", .str ("https://relay.test/acme/account/" ++ uuid 1))])
  | bytes => decode bytes

def rollOversOracle : Oracle := { oracle with jsonLoads := decodeRollOvers }

/-- A key change from key `old` to key `k`, with nonce `n`. -/
def keyChangeTo (n old k : UInt8) : Input :=
  .request ⟨⟨"application/jose+json", [5, n, old, k], "https://relay.test/acme/key-change"⟩,
    .keyChange⟩

def runRollOvers (p : Relay → Relay → Bool) (parts : List (Nat → List (Action Input))) :
    Option Relay :=
  (relay rollOversOracle settings).schedule p (.start .init) (script 0 parts)

/-- The account replaces its key, and replaces the new one again. -/
def rolledOver : List (Nat → List (Action Input)) :=
  [boot, nonce 1, nonce 2, nonce 3, account 1 1, call (keyChangeTo 2 1 2) (turns 6),
    call (keyChangeTo 3 2 3) (turns 6)]

/-- Two requests replace its key: both have looked it up before the first commits. -/
def rolledOverTwice : List (Nat → List (Action Input)) :=
  [boot, nonce 1, nonce 2, nonce 3, account 1 1, call (keyChangeTo 2 1 2) (turns 5),
    call (keyChangeTo 3 1 3) (turns 5), fun _ => go 16 (turns 1), fun _ => go 22 (turns 1)]

/-- The entry writes the new key of account `1`, and answers 200. -/
def storesKey (e : Entry) : Bool :=
  match e.pc, e.seg.next with
  | .keyChange a (.commit _ _), .respond r => decide (a = uuid 1) && decide (r.status = 200)
  | _, _ => false

theorem rollsOver_of_storesKey {e : Entry} (h : storesKey e = true) :
    ∃ key, e.RollsOver (uuid 1) key := by
  unfold storesKey at h
  split at h
  · rename_i a account key r hpc hnext
    obtain ⟨ha, hr⟩ := (Bool.and_eq_true _ _).mp h
    cases of_decide_eq_true ha
    exact ⟨key, ⟨account, hpc⟩, r, hnext, of_decide_eq_true hr⟩
  · cases h

end Demo

def Entry.commitsKey (e : Entry) : Bool :=
  match e.pc with
  | .keyChange _ (.commit _ _) => true
  | _ => false

/-- Behind every commit of a roll-over in the log, task `i` has looked up no account. -/
def undisturbed (i : Nat) : List Entry → Bool
  | [] => true
  | w :: l => (!w.commitsKey || l.all fun d => match d.pc with
      | .keyChange _ (.account _ _) => decide (d.tid ≠ i)
      | _ => true) && undisturbed i l

theorem undisturbed_sound {e : Entry} {a : String} :
    ∀ {l : List Entry}, undisturbed e.tid l = true → e.Undisturbed a l
  | [], _, l₂, d, l₁, inner, hl => by cases l₂ <;> cases hl
  | w :: l, h, l₂, d, l₁, inner, hl => by
      obtain ⟨hw, h⟩ := (Bool.and_eq_true _ _).mp h
      rintro htid ⟨url, hpc⟩ v hv key hroll
      cases l₂ with
      | nil => cases hv
      | cons w' l₂ =>
          obtain ⟨rfl, rfl⟩ := List.cons.inj hl
          rcases List.mem_cons.mp hv with rfl | hv
          · obtain ⟨⟨account, hcommit⟩, -⟩ := hroll
            simp only [Entry.commitsKey, hcommit, Bool.not_true, Bool.false_or] at hw
            have hd := List.all_eq_true.mp hw d (List.mem_append_right _ List.mem_cons_self)
            rw [hpc] at hd
            exact of_decide_eq_true hd htid
          · exact undisturbed_sound h l₂ d l₁ inner rfl htid ⟨url, hpc⟩ v hv key hroll

/-- A test for `RollOversApart` that may be run. -/
def rollOversApart (c c' : Relay) : Bool :=
  match c'.shared.log with
  | e :: l => !(e.commitsKey && decide (l.length = c.shared.log.length)) ||
      undisturbed e.tid c.shared.log
  | [] => true

theorem rollOversApart_sound {c c' : Relay} (h : rollOversApart c c' = true) :
    RollOversApart c c' := by
  rintro e he a key ⟨⟨account, hpc⟩, -⟩
  simp only [rollOversApart, he, Entry.commitsKey, hpc, decide_true, Bool.and_self, Bool.not_true,
    Bool.false_or] at h
  exact undisturbed_sound h

/-- Two roll-overs, the second of the key the first has stored. -/
theorem roll_over_run :
    ∃ c, Demo.runRollOvers rollOversApart Demo.rolledOver = some c ∧
      (∃ e l e' l', c.shared.log = e :: l ∧ e' :: l' <:+ l ∧
        (∃ key, e.RollsOver (Demo.uuid 1) key) ∧ ∃ key, e'.RollsOver (Demo.uuid 1) key) ∧
      RollOversLinear Demo.rollOversOracle c.shared.log := by
  have hrun : (Demo.runRollOvers rollOversApart Demo.rolledOver).any (fun c =>
      match c.shared.log with
      | e :: l => Demo.storesKey e && l.any Demo.storesKey
      | [] => false) = true := by decide +kernel
  obtain ⟨c, hc, h⟩ := (Option.any_eq_true _ _).mp hrun
  have hreach : Reach (relay Demo.rollOversOracle Demo.settings) RollOversApart .init c :=
    Reach.schedule (fun _ _ => rollOversApart_sound) _ .start hc
  refine ⟨c, hc, ?_, roll_overs_linearize hreach⟩
  split at h
  · rename_i e l hlog
    obtain ⟨hlast, hfirst⟩ := (Bool.and_eq_true _ _).mp h
    obtain ⟨e', he', hstores⟩ := List.any_eq_true.mp hfirst
    obtain ⟨l₂, l', rfl⟩ := List.append_of_mem he'
    exact ⟨e, _, e', l', hlog, List.suffix_append l₂ _, Demo.rollsOver_of_storesKey hlast,
      Demo.rollsOver_of_storesKey hstores⟩
  · cases h

/-- The entry's request names key `1`, if it is a key change that has looked up its account. -/
def Demo.namesFirstKey (d : Entry) : Bool :=
  match d.pc with
  | .keyChange _ (.account inner _) =>
      decide ((innerOldKey Demo.rollOversOracle inner).map canonicalJwk =
        some (canonicalJwk (Demo.jwk 1)))
  | _ => true

/-- The last entry replaces another key than the one all requests name. -/
def Demo.replacesUnnamed : List Entry → Bool
  | e :: l => Demo.storesKey e &&
      decide (e.pre.keyOf (Demo.uuid 1) ≠ some (canonicalJwk (Demo.jwk 1))) &&
      l.all Demo.namesFirstKey
  | [] => false

/-- **A key that was not named is replaced**: both requests name key `1`, and the second replaces
the key the first has stored. -/
theorem replaced_unnamed_key :
    ¬ ∀ c, Reachable Demo.rollOversOracle Demo.settings c →
      RollOversLinear Demo.rollOversOracle c.shared.log := by
  intro hall
  have hrun : (Demo.runRollOvers (fun _ _ => true) Demo.rolledOverTwice).any (fun c =>
      Demo.replacesUnnamed c.shared.log) = true := by decide +kernel
  obtain ⟨c, hc, h⟩ := (Option.any_eq_true _ _).mp hrun
  have hlin := hall c (Reach.schedule (fun _ _ _ => trivial) _ .start hc)
  unfold Demo.replacesUnnamed at h
  split at h
  · rename_i e l hlog
    simp only [Bool.and_eq_true, decide_eq_true_eq] at h
    obtain ⟨⟨hstores, hne⟩, hnamed⟩ := h
    obtain ⟨key, hroll⟩ := Demo.rollsOver_of_storesKey hstores
    obtain ⟨old, ⟨d, hd, -, inner, k, ⟨url, hpc⟩, hold, rfl⟩, hpre, -⟩ :=
      hlin.replaces [] e l _ key hlog hroll
    have hkey := List.all_eq_true.mp hnamed d hd
    simp only [Demo.namesFirstKey, hpc, hold, Option.map_some, decide_eq_true_eq] at hkey
    rw [hkey] at hpre
    exact hne hpre
  · cases h

end Jackdaw
