import Jackdaw.Relay.Keys

/-!
# Relay — key roll-over

`key_change` replaces the key of an account under two signatures: the outer JWS is signed with the
old key, its payload is a second JWS, signed with the new key, and the payload of that one names
the account and the old key.

`keyChange` is the coroutine on a database nothing else writes to meanwhile: `verify_jws`, then its
segments, each on the database the last one left.  On the machine a request whose task alone runs
ends with the same answer and the same database (`keyChange_alone`).

* `verifyInnerJws_ok_iff`: the inner JWS that is accepted, part by part (`InnerSigned`).
* `keyChange_cases`: the key is replaced for a `RollOver`, and in no other case is anything but
  the nonce written.
* `key_rolled_over_exactly`: the answer, the rows, and who is authenticated afterwards.
-/

namespace Jackdaw

open Support Support.Interleave

/-! ### The inner JWS -/

/-- The inner JWS `j` is signed under the key it carries, is meant for `url`, and its payload names
the account and the old key. -/
structure InnerSigned (o : Oracle) (inner : Json) (accountUrl oldPublicKey url : String) (j : Jws)
    (jwk : Json) (key : o.Key) : Prop where
  members : inner.get? "protected" = some (.str j.protectedB64) ∧ j.protectedB64 ≠ "" ∧
    j.payloadB64 = (inner.get? "payload").getD (.str "") ∧
    inner.get? "signature" = some j.signatureB64
  header : ∃ bytes, b64urlDecode j.protectedB64 = some bytes ∧ o.jsonLoads bytes = some j.header
  alg : j.header.get? "alg" = some (.str j.alg) ∧ j.alg ∈ allowedAlgs
  url : j.header.get? "url" = some (.str url)
  carries : nonNull (j.header.get? "jwk") = some jwk
  noKid : nonNull (j.header.get? "kid") = none
  parses : o.jwkFromJson jwk = some key
  signature : ∃ msg text sig, encodeAscii (j.protectedB64 ++ "." ++ o.format j.payloadB64) =
      some msg ∧ j.signatureB64 = .str text ∧ text ≠ "" ∧ b64urlDecode text = some sig ∧
    o.verify j.alg key msg sig = some true
  payload : ∃ text bytes p oldKey, j.payloadB64 = .str text ∧ b64urlDecode text = some bytes ∧
    o.jsonLoads bytes = some p ∧ p.get? "account" = some (.str accountUrl) ∧
    nonNull (p.get? "oldKey") = some oldKey ∧ canonicalJwk oldKey = oldPublicKey

section Inner

variable {o : Oracle} {inner jwk : Json} {accountUrl oldPublicKey url : String} {j : Jws}
  {key : o.Key}

theorem innerSignatureValid_iff : innerSignatureValid o j jwk = true ↔
    ∃ key msg text sig, o.jwkFromJson jwk = some key ∧
      encodeAscii (j.protectedB64 ++ "." ++ o.format j.payloadB64) = some msg ∧
      j.signatureB64 = .str text ∧ b64urlDecode text = some sig ∧
      o.verify j.alg key msg sig = some true := by
  simp only [innerSignatureValid, beq_iff_eq, bind, Option.bind_eq_some_iff, signingInput,
    signatureBytes]
  constructor
  · rintro ⟨key, hkey, msg, hmsg, sig, ⟨text, htext, hsig⟩, hv⟩
    exact ⟨key, msg, text, sig, hkey, hmsg, Json.text?_eq_some htext, hsig, hv⟩
  · rintro ⟨key, msg, text, sig, hkey, hmsg, htext, hsig, hv⟩
    exact ⟨key, hkey, msg, hmsg, sig, ⟨text, by rw [htext]; rfl, hsig⟩, hv⟩

theorem verifyInnerJws_ok (h : verifyInnerJws o inner accountUrl oldPublicKey url = .ok jwk) :
    ∃ j key, InnerSigned o inner accountUrl oldPublicKey url j jwk key := by
  obtain ⟨_, hpresent, h⟩ := ok_of_bind h
  obtain ⟨p, hp, h⟩ := ok_of_bind h
  obtain ⟨hd, hhd, h⟩ := ok_of_bind h
  obtain ⟨algName, halgName, h⟩ := ok_of_bind h
  obtain ⟨alg, halg, h⟩ := ok_of_bind h
  obtain ⟨url', hurl, h⟩ := ok_of_bind h
  obtain ⟨_, hmatch, h⟩ := ok_of_bind h
  obtain ⟨jwk', hjwk, h⟩ := ok_of_bind h
  obtain ⟨_, hkid, h⟩ := ok_of_bind h
  obtain ⟨_, hsig, h⟩ := ok_of_bind h
  obtain ⟨payload, hpayload, h⟩ := ok_of_bind h
  obtain ⟨account, haccount, h⟩ := ok_of_bind h
  obtain ⟨_, hbound, h⟩ := ok_of_bind h
  obtain ⟨oldKey, hold, h⟩ := ok_of_bind h
  obtain ⟨_, hsame, h⟩ := ok_of_bind h
  cases h
  simp only [orElse_eq_ok, reject_eq_ok, Bool.or_eq_false_iff, Bool.not_eq_false',
    Option.isSome_eq_false_iff, Option.isNone_iff_eq_none, decide_eq_false_iff_not,
    not_not] at hpresent hp hhd hmatch hjwk hkid hsig hpayload hbound hold hsame
  obtain ⟨key, msg, text, sig, hkey, hmsg, htext, hsigBytes, hv⟩ := innerSignatureValid_iff.mp hsig
  replace htext : (inner.get? "signature").getD (.str "") = .str text := htext
  have hpText := Json.text?_eq_some hp
  have hpne : p ≠ "" := by
    rintro rfl
    rw [hpText] at hpresent
    exact absurd hpresent.1 (by decide)
  have htne : text ≠ "" := by
    rintro rfl
    rw [htext] at hpresent
    exact absurd hpresent.2 (by decide)
  have hmembers : inner.get? "signature" = some ((inner.get? "signature").getD (.str "")) := by
    refine get?_of_getD rfl fun e => ?_
    rw [e] at hpresent
    exact absurd hpresent.2 (by decide)
  obtain ⟨ha, hmem⟩ := checkAlg_ok halg
  rw [dictGet_eq_ok halgName] at ha
  have halg' : hd.get? "alg" = some (.str alg) := by
    refine get?_of_getD ha fun e => ?_
    cases e
    exact absurd hmem (by decide)
  rw [Json.isStr_iff, dictGet_eq_ok hurl] at hmatch
  rw [Json.isStr_iff, dictGet_eq_ok haccount] at hbound
  obtain ⟨bytes, ⟨ptext, hptext, hbytes⟩, hloads⟩ := by
    simpa only [Option.bind_eq_some_iff] using hpayload
  have hnull : ∀ {s : String}, Json.str s ≠ .null := by
    intro s e
    cases e
  refine ⟨⟨p, _, _, hd, alg⟩, key, ⟨get?_of_getD hpText ?_, hpne, rfl, hmembers⟩,
    Option.bind_eq_some_iff.mp hhd, ⟨halg', hmem⟩, get?_of_getD hmatch hnull, hjwk, hkid, hkey,
    ⟨msg, text, sig, hmsg, htext, htne, hsigBytes, hv⟩, ptext, bytes, payload, oldKey,
    Json.text?_eq_some hptext, hbytes, hloads, get?_of_getD hbound hnull, hold, hsame⟩
  intro e
  cases e
  exact hpne rfl

/-- **The inner JWS that is accepted**, part by part. -/
theorem verifyInnerJws_ok_iff : verifyInnerJws o inner accountUrl oldPublicKey url = .ok jwk ↔
    ∃ j key, InnerSigned o inner accountUrl oldPublicKey url j jwk key := by
  refine ⟨verifyInnerJws_ok, ?_⟩
  rintro ⟨⟨p, payloadB64, signatureB64, hd, alg⟩, key, h⟩
  obtain ⟨hp, hpne, rfl, hs⟩ := h.members
  obtain ⟨bytes, hbytes, hloads⟩ := h.header
  obtain ⟨msg, text, sig, hmsg, htext, htne, hsig, hv⟩ := h.signature
  obtain ⟨ptext, pbytes, payload, oldKey, hptext, hpbytes, hpayload, haccount, hold, hsame⟩ :=
    h.payload
  replace hp : inner.get? "protected" = some (.str p) := hp
  replace hs : inner.get? "signature" = some signatureB64 := hs
  replace htext : signatureB64 = .str text := htext
  replace hptext : (inner.get? "payload").getD (.str "") = .str ptext := hptext
  have hvalid : innerSignatureValid o ⟨p, _, signatureB64, hd, alg⟩ jwk = true :=
    innerSignatureValid_iff.mpr ⟨key, msg, text, sig, h.parses, hmsg, htext, hsig, hv⟩
  subst htext
  simp only [verifyInnerJws, hp, hs, Option.getD_some]
  -- the checks, in the order in which they are made
  refine bind_of_not_reject ?_ ?_
  · simpa [Json.truthy] using ⟨hpne, htne⟩
  refine bind_of_ok (orElse_eq_ok.mpr rfl) ?_
  refine bind_of_ok (orElse_eq_ok.mpr (Option.bind_eq_some_iff.mpr ⟨bytes, hbytes, hloads⟩)) ?_
  refine bind_of_ok (dictGet_of_get? h.alg.1 "alg") ?_
  refine bind_of_ok (checkAlg_of_allowed h.alg.1 h.alg.2) ?_
  refine bind_of_ok (dictGet_of_get? h.url "url") ?_
  refine bind_of_not_reject (isStr_of_get? h.url) ?_
  refine bind_of_ok (orElse_eq_ok.mpr h.carries) ?_
  refine bind_of_not_reject (by rw [h.noKid]; rfl) ?_
  refine bind_of_not_reject (by rw [hvalid]; rfl) ?_
  refine bind_of_ok (orElse_eq_ok.mpr (?_ : _ = some payload)) ?_
  · rw [hptext]
    exact Option.bind_eq_some_iff.mpr ⟨pbytes, hpbytes, hpayload⟩
  refine bind_of_ok (dictGet_of_get? haccount "account") ?_
  refine bind_of_not_reject (isStr_of_get? haccount) ?_
  refine bind_of_ok (orElse_eq_ok.mpr hold) ?_
  exact bind_of_not_reject (decide_eq_false (not_not.mpr hsame)) rfl

end Inner

/-! ### The coroutine by itself -/

/-- `key_change`, on a database nothing else writes to meanwhile: how it ends, and the database it
leaves. -/
def keyChange (o : Oracle) (cfg : Settings) (db : Db) (now : Int) (req : HttpRequest) :
    Next KeyChangePc × Db :=
  match verifyJws o cfg db now req with
  | (.error e, db) => ((Seg.fail e).next, db)
  | (.ok (payload, accountId), db) =>
      (keyChangeStart accountId req payload).drive (keyChangeSeg o cfg accountId) 3 db

/-- **A key roll-over.**  The outer JWS is accepted for the account `a`, whose row is `row`; its
payload is an inner JWS that is signed under the new key, the one `jwk` reads as, and that binds
the account and its old key; and no other account has the new key. -/
structure RollOver (o : Oracle) (cfg : Settings) (db : Db) (now : Int) (req : HttpRequest)
    (a : String) (row : Account) (jwk : Json) (key : o.Key) : Prop where
  named : a ≠ ""
  stored : db.accounts.get a = some row
  signed : ∃ inner j, (verifyJws o cfg db now req).1 = .ok (inner, a) ∧
    InnerSigned o inner (accountUrl cfg a) row.publicKey req.url j jwk key
  free : db.KeyFree (canonicalJwk jwk) (some a)

section KeyChange

variable {o : Oracle} {cfg : Settings} {db : Db} {now : Int} {req : HttpRequest} {a : String}
  {row : Account} {jwk : Json} {key : o.Key}

/-- An answer that is not an error is not given. -/
def Next.Refused {P : Type} (n : Next P) : Prop := ∀ r, n = .respond r → 400 ≤ r.status

theorem refused_of_refuses {α P : Type} {x : Except Exn α} {e : Exn} (h : Refuses x)
    (he : x = .error e) : (Seg.fail e : Seg P).next.Refused :=
  Seg.Refuses.fail (h.of_error he)

theorem verifyInnerJws_refuses (inner : Json) (accountUrl oldPublicKey url : String) :
    Refuses (verifyInnerJws o inner accountUrl oldPublicKey url) :=
  verifyInnerJws_statusIn (P := (400 ≤ ·)) o (by decide) inner accountUrl oldPublicKey url

theorem scalarOneOrNone_refuses {α : Type} (l : List α) : Refuses (scalarOneOrNone l) := by
  rcases l with _ | ⟨_, _ | ⟨_, _⟩⟩
  · exact .ok _
  · exact .ok _
  · exact .raised

/-- The rows of the accounts after the key of `a` became `key`. -/
def Rolled (db db' : Db) (a : String) (row : Account) (key : String) : Prop :=
  ∀ b, db'.accounts.get b = if b = a then some { row with publicKey := key } else db.accounts.get b

/-- The statement that writes the key back has that effect, also when it is left out because the
key is the old one. -/
theorem flush_rolled (hrow : db.accounts.get a = some row) (key : String) :
    ∃ db', Dml.execAll (row.flush a key) db = some db' ∧ Rolled db db' a row key := by
  by_cases hk : row.publicKey = key
  · refine ⟨db, by rw [Account.flush, if_pos hk]; rfl, fun b => ?_⟩
    split
    · subst b key
      exact hrow
    · rfl
  · refine ⟨_, by rw [Account.flush, if_neg hk]; rfl, fun b => ?_⟩
    rw [Table.get_update]
    split
    · subst b
      rw [hrow]
      rfl
    · rfl

theorem keyChangeStart_eq {payload : Json} (ha : a ≠ "") (hobj : payload.isObj = true) :
    keyChangeStart a req payload = .goto (.account payload req.url) := by
  simp only [keyChangeStart, ha, hobj, reject]
  rfl

/-- The look-up of the account and the check of the inner JWS, in one segment. -/
theorem keyChangeSeg_account_eq {inner : Json} {url : String}
    (hrow : db.accounts.get a = some row) :
    keyChangeSeg o cfg a db (.account inner url) =
      .attempt (verifyInnerJws o inner (accountUrl cfg a) row.publicKey url) fun jwk =>
        .goto (.select row (canonicalJwk jwk)) := by
  rw [keyChangeSeg, hrow, bind_of_ok (orElse_eq_ok.mpr rfl) rfl]
  cases verifyInnerJws o inner (accountUrl cfg a) row.publicKey url with
  | ok jwk => rfl
  | error e => rfl

theorem keyChangeSeg_select_eq {key : String} (hfree : db.KeyFree key (some a)) :
    keyChangeSeg o cfg a db (.select row key) = .goto (.commit row key) := by
  rw [keyChangeSeg, keyFree_iff.mpr hfree]
  rfl

/-- **A roll-over is answered 200, and replaces the key.** -/
theorem keyChange_of_rollOver (h : RollOver o cfg db now req a row jwk key) :
    (keyChange o cfg db now req).1.Answers 200 ∧
      Rolled db (keyChange o cfg db now req).2 a row (canonicalJwk jwk) := by
  obtain ⟨inner, j, hok, hin⟩ := h.signed
  have hacc := verifyJws_accounts o cfg db now req
  unfold keyChange
  rcases hv : verifyJws o cfg db now req with ⟨x, db₁⟩
  rw [hv] at hok hacc
  replace hok : x = .ok (inner, a) := hok
  replace hacc : db₁.accounts = db.accounts := hacc
  subst hok
  have hobj : inner.isObj = true := by
    cases inner with
    | obj ms => rfl
    | _ => cases hin.members.1
  have hrow : db₁.accounts.get a = some row := by rw [hacc]; exact h.stored
  have hfree : db₁.KeyFree (canonicalJwk jwk) (some a) := by
    unfold Db.KeyFree
    rw [hacc]
    exact h.free
  obtain ⟨db', hexec, hrolled⟩ := flush_rolled hrow (canonicalJwk jwk)
  simp only [keyChangeStart_eq h.named hobj, Seg.drive_goto,
    keyChangeSeg_account_eq hrow, verifyInnerJws_ok_iff.mpr ⟨j, key, hin⟩, Seg.attempt_ok,
    keyChangeSeg_select_eq hfree]
  simp only [keyChangeSeg, Seg.drive, if_true, hexec]
  refine ⟨⟨_, rfl, rfl⟩, fun b => ?_⟩
  rw [hrolled b, hacc]

/-- **In every other case it is refused, and the accounts stay as they are.** -/
theorem keyChange_otherwise (h : ∀ a row jwk key, ¬ RollOver o cfg db now req a row jwk key) :
    (keyChange o cfg db now req).1.Refused ∧
      (keyChange o cfg db now req).2.accounts = db.accounts := by
  have hacc := verifyJws_accounts o cfg db now req
  have hrefuses := verifyJws_refuses o cfg req db now
  unfold keyChange
  rcases hv : verifyJws o cfg db now req with ⟨x, db₁⟩
  rw [hv] at hacc hrefuses
  replace hacc : db₁.accounts = db.accounts := hacc
  rcases x with e | ⟨inner, a⟩
  · exact ⟨refused_of_refuses hrefuses rfl, hacc⟩
  by_cases ha : a = ""
  · simp only [keyChangeStart, ha, reject]
    exact ⟨by rintro r ⟨⟩; decide, hacc⟩
  by_cases hobj : inner.isObj = true
  case neg =>
    simp only [keyChangeStart, ha, hobj, reject]
    exact ⟨by rintro r ⟨⟩; decide, hacc⟩
  simp only [keyChangeStart_eq ha hobj, Seg.drive_goto]
  cases hrow : db₁.accounts.get a with
  | none =>
      simp only [keyChangeSeg, hrow, orElse]
      exact ⟨by rintro r ⟨⟩; decide, hacc⟩
  | some row =>
      rw [keyChangeSeg_account_eq hrow]
      cases hin : verifyInnerJws o inner (accountUrl cfg a) row.publicKey req.url with
      | error e =>
          rw [Seg.attempt_error, Seg.drive_fail]
          exact ⟨refused_of_refuses (verifyInnerJws_refuses inner _ _ _) hin, hacc⟩
      | ok jwk =>
          rw [Seg.attempt_ok, Seg.drive_goto, keyChangeSeg]
          cases hsel : scalarOneOrNone (db₁.accounts.select fun id r =>
              decide (r.publicKey = canonicalJwk jwk) && decide (id ≠ a)) with
          | error e =>
              rw [Seg.attempt_error, Seg.drive_fail]
              exact ⟨refused_of_refuses (scalarOneOrNone_refuses _) hsel, hacc⟩
          | ok found =>
              rcases found with _ | y
              · obtain ⟨j, key, hin⟩ := verifyInnerJws_ok hin
                refine absurd ⟨ha, ?_, ⟨inner, j, by rw [hv], hin⟩, ?_⟩ (h a row jwk key)
                · rw [← hacc]
                  exact hrow
                · have hfree := keyFree_iff.mp hsel
                  unfold Db.KeyFree at hfree ⊢
                  rwa [hacc] at hfree
              · rw [Seg.attempt_ok, Seg.drive_fail]
                exact ⟨by rintro r ⟨⟩; decide, hacc⟩

end KeyChange

/-! ### On the machine -/

/-- Task `i` runs, nothing fails, and nothing else happens. -/
def Alone (o : Oracle) (cfg : Settings) (i : Nat) : Relay → Relay → Prop :=
  Relation.ReflTransGen fun c c' => ∃ ch, (relay o cfg).step c (.run i (.choose ch)) = some c'

/-- The last segment was task `i`'s, which ended so, and left the database. -/
def Ended (i : Nat) (c : Relay) (n : Next Pc) (db : Db) : Prop :=
  c.tasks i = none ∧ c.shared.db = db ∧ ∃ e l, c.shared.log = e :: l ∧ e.tid = i ∧ e.seg.next = n

/-- Task `i`, left alone, comes to its end, and always to this one. -/
def Delivers (o : Oracle) (cfg : Settings) (i : Nat) (c : Relay) (n : Next Pc) (db : Db) : Prop :=
  (∃ c', Alone o cfg i c c' ∧ Ended i c' n db) ∧
    ∀ c', Alone o cfg i c c' → c'.tasks i = none → Ended i c' n db

/-- Task `i` is suspended at `t`, and nobody else holds the write lock. -/
structure Owns (i : Nat) (c : Relay) (t : Task) : Prop where
  task : c.tasks i = some t
  lt : i < c.next
  lock : c.shared.lock = some i ∨ c.shared.lock = none ∧ t.tx = []

section Alone

variable {o : Oracle} {cfg : Settings} {i : Nat} {c c₁ : Relay} {t : Task} {n : Next Pc}
  {seg : Seg Pc} {db : Db}

theorem Ended.delivers (h : Ended i c n db) : Delivers o cfg i c n db := by
  refine ⟨⟨c, .refl, h⟩, fun c' hc' _ => ?_⟩
  rcases Relation.ReflTransGen.cases_head hc' with rfl | ⟨c₁, ⟨ch, hs⟩, -⟩
  · exact h
  · rw [Machine.step, h.1] at hs
    cases hs

theorem Delivers.step (ht : c.tasks i = some t)
    (hs : ∀ ch, (relay o cfg).step c (.run i (.choose ch)) = some c₁)
    (h : Delivers o cfg i c₁ n db) : Delivers o cfg i c n db := by
  obtain ⟨⟨c', hc', hend⟩, hall⟩ := h
  refine ⟨⟨c', .head ⟨{}, hs {}⟩ hc', hend⟩, fun c' hc' hnone => ?_⟩
  rcases Relation.ReflTransGen.cases_head hc' with rfl | ⟨c₂, ⟨ch, hs'⟩, hc'⟩
  · rw [ht] at hnone
    cases hnone
  · cases Option.some.inj ((hs ch).symm.trans hs')
    exact hall c' hc' hnone

theorem Owns.mayWrite (h : Owns i c t) (ds : List Dml) : c.shared.mayWrite i ds = true := by
  unfold Shared.mayWrite
  rcases h.lock with e | ⟨e, -⟩
  · simp [e]
  · simp [e]

/-- Nothing keeps a task that owns the lock, or needs none, from running its segment, when its
commit does not fail. -/
theorem Owns.performs (h : Owns i c t)
    (hexec : seg.commit = true → ∃ db', Dml.execAll (t.tx ++ seg.write) c.shared.db = some db') :
    ∃ out, perform i c.next c.shared t seg = some out := by
  unfold perform
  rw [if_pos (h.mayWrite seg.write)]
  by_cases hc : seg.commit = true
  · obtain ⟨db', hdb'⟩ := hexec hc
    rw [if_pos hc, hdb']
    exact ⟨_, rfl⟩
  · rw [if_neg hc]
    split
    · exact ⟨_, rfl⟩
    · split <;> exact ⟨_, rfl⟩

/-- The lock after a segment that goes on: its own, or free with nothing left to commit. -/
theorem Owns.lock_after {out : Outcome Shared Task} {u : Task} (h : Owns i c t)
    (hp : Performs i c.next c.shared t seg out) (hu : out.self = some u) :
    out.shared.lock = some i ∨ out.shared.lock = none ∧ u.tx = [] := by
  rcases hp.lock with ⟨e, -⟩ | ⟨e, hw, hcommit⟩ | ⟨e, hnil⟩
  · exact .inl e
  · rcases h.lock with hl | ⟨hl, htx⟩
    · exact .inl (e.trans hl)
    · refine .inr ⟨e.trans hl, ?_⟩
      rw [(hp.self hu).2, hcommit, htx, hw]
      rfl
  · refine .inr ⟨?_, hnil hu⟩
    rw [e, Shared.release]
    rcases h.lock with hl | ⟨hl, -⟩
    · rw [if_pos hl]
    · rw [hl]
      split <;> rfl

/-- **One segment of a task that is left alone.** -/
theorem Owns.turn (h : Owns i c t)
    (hseg : ∀ ch, t.pc.seg o cfg (t.view c.shared.db) c.shared.now ch = some seg)
    (hspawn : seg.spawn = none)
    (hdb : (if seg.commit then Dml.execAll (t.tx ++ seg.write) c.shared.db
      else some c.shared.db) = some db) :
    ∃ c₁, (∀ ch, (relay o cfg).step c (.run i (.choose ch)) = some c₁) ∧ c₁.shared.db = db ∧
      c₁.shared.now = c.shared.now ∧
      (∀ p, seg.next = .goto p →
        Owns i c₁ ⟨p, if seg.commit then [] else t.tx ++ seg.write⟩) ∧
      ((∀ p, seg.next ≠ .goto p) → Ended i c₁ seg.next db) := by
  obtain ⟨out, hout⟩ : ∃ out, perform i c.next c.shared t seg = some out :=
    h.performs fun hc => ⟨db, by rwa [if_pos hc] at hdb⟩
  have hp := performs_of_perform hout
  have hchild : out.child = none := by rw [hp.child, hspawn]; rfl
  have hpost : out.shared.db = db := by
    rcases hp.db with ⟨hc, e⟩ | ⟨hc, e⟩
    · rw [if_pos hc, e] at hdb
      exact Option.some.inj hdb
    · rw [hc] at hdb
      exact e.trans (Option.some.inj hdb)
  refine ⟨c.after i out, fun ch => ?_, hpost, hp.now, fun p hn => ?_, fun hn => ⟨?_, hpost, ?_⟩⟩
  · simp only [Machine.step, h.task, Option.bind_some, relay, hseg ch, hout, Option.map_some]
  · obtain ⟨tx, hself⟩ := hp.goes hn
    obtain ⟨-, rfl⟩ := hp.self hself
    exact ⟨(Config.after_self h.lt).trans hself, Nat.lt_succ_of_lt h.lt, h.lock_after hp hself⟩
  · rw [Config.after_self h.lt]
    refine Option.eq_none_iff_forall_ne_some.mpr fun u hu => hn _ (hp.self hu).1
  · exact ⟨_, _, hp.log, rfl, rfl⟩

/-- A segment that ends the task. -/
theorem Owns.ends (h : Owns i c t)
    (hseg : ∀ ch, t.pc.seg o cfg (t.view c.shared.db) c.shared.now ch = some seg)
    (hspawn : seg.spawn = none)
    (hdb : (if seg.commit then Dml.execAll (t.tx ++ seg.write) c.shared.db
      else some c.shared.db) = some db)
    (hn : ∀ p, seg.next ≠ .goto p) : Delivers o cfg i c seg.next db := by
  obtain ⟨c₁, hs, -, -, -, hend⟩ := h.turn hseg hspawn hdb
  exact .step h.task hs (hend hn).delivers

theorem Owns.quiet (h : Owns i c t)
    (hseg : ∀ ch, t.pc.seg o cfg (t.view c.shared.db) c.shared.now ch = some seg)
    (hq : seg.Quiet) : Delivers o cfg i c seg.next c.shared.db :=
  h.ends hseg hq.spawn (by rw [hq.commit]; rfl) hq.next

/-- A segment that only moves on. -/
theorem Owns.goto {pc p : Pc} (h : Owns i c ⟨pc, []⟩)
    (hseg : ∀ ch, pc.seg o cfg c.shared.db c.shared.now ch = some (.goto p)) :
    ∃ c₁, (∀ ch, (relay o cfg).step c (.run i (.choose ch)) = some c₁) ∧
      c₁.shared.db = c.shared.db ∧ c₁.shared.now = c.shared.now ∧ Owns i c₁ ⟨p, []⟩ := by
  obtain ⟨c₁, hs, hdb, hnow, hgoto, -⟩ := h.turn hseg rfl rfl
  exact ⟨c₁, hs, hdb, hnow, hgoto p rfl⟩

variable {a : String}

/-- Task `i`, left alone, ends as `key_change` of the account does. -/
def Completes (o : Oracle) (cfg : Settings) (i : Nat) (c : Relay) (a : String)
    (r : Next KeyChangePc × Db) : Prop :=
  Delivers o cfg i c (r.1.map (.keyChange a)) r.2

theorem Seg.Quiet.drive {P : Type} {body : Db → P → Seg P} {m : Nat} {s : Seg P} (h : s.Quiet) :
    s.drive body m db = (s.next, db) := by
  unfold Seg.drive
  rw [h.commit]
  rcases m with _ | m
  · rfl
  · cases hn : s.next with
    | goto p => exact absurd hn (h.next p)
    | _ => rfl

/-- A segment that only reads, and what comes after it. -/
theorem completes_of_reads {p : KeyChangePc} {ok : KeyChangePc → Prop} {m : Nat}
    (h : Owns i c ⟨.keyChange a p, []⟩) (hr : (keyChangeSeg o cfg a c.shared.db p).Reads ok)
    (hnext : ∀ {q c₁}, ok q → Owns i c₁ ⟨.keyChange a q, []⟩ → Completes o cfg i c₁ a
      ((keyChangeSeg o cfg a c₁.shared.db q).drive (keyChangeSeg o cfg a) m c₁.shared.db)) :
    Completes o cfg i c a ((keyChangeSeg o cfg a c.shared.db p).drive (keyChangeSeg o cfg a) (m + 1)
      c.shared.db) := by
  rcases hr with hq | ⟨q, e, hok⟩
  · rw [Completes, hq.drive]
    exact h.quiet (fun _ => rfl) (hq.map _)
  · rw [e, Seg.drive_goto]
    have hseg : ∀ ch, (Pc.keyChange a p).seg o cfg c.shared.db c.shared.now ch =
        some (.goto (.keyChange a q)) := by
      intro ch
      rw [Pc.seg, e]
      rfl
    obtain ⟨c₁, hs, hdb, -, howns⟩ := h.goto hseg
    rw [← hdb]
    exact .step h.task hs (hnext hok howns)

theorem keyChange_commit_completes {row : Account} {key : String}
    (h : Owns i c ⟨.keyChange a (.commit row key), []⟩) : Completes o cfg i c a
      ((keyChangeSeg o cfg a c.shared.db (.commit row key)).drive (keyChangeSeg o cfg a) 0
        c.shared.db) := by
  have hexec : ∃ db', Dml.execAll (row.flush a key) c.shared.db = some db' := by
    unfold Account.flush
    split
    · exact ⟨_, rfl⟩
    · exact ⟨_, rfl⟩
  obtain ⟨db', hdb'⟩ := hexec
  simp only [Completes, keyChangeSeg, Seg.drive, if_true, hdb']
  exact h.ends (fun _ => rfl) rfl hdb' fun p e => by cases e

theorem keyChange_completes {inner : Json} {url : String}
    (h : Owns i c ⟨.keyChange a (.account inner url), []⟩) : Completes o cfg i c a
      ((keyChangeSeg o cfg a c.shared.db (.account inner url)).drive (keyChangeSeg o cfg a) 2
        c.shared.db) := by
  refine completes_of_reads h keyChangeSeg_account ?_
  rintro q c₁ ⟨row, jwk, -, -, rfl⟩ h₁
  refine completes_of_reads h₁ keyChangeSeg_select ?_
  rintro q c₂ ⟨-, rfl⟩ h₂
  exact keyChange_commit_completes h₂

theorem Seg.fail_next_map {P Q : Type} (e : Exn) (f : P → Q) :
    (Seg.fail e : Seg P).next.map f = (Seg.fail e : Seg Q).next := by
  cases e <;> rfl

/-- The commit of the `UPDATE` of the nonces, and the handler behind it. -/
theorem jws_commit_completes {req : Request} {payloadB64 : Json} {rowcount : Nat}
    {nonce : Option String} {cutoff : Int} (hroute : req.route = .keyChange)
    (h : Owns i c ⟨.jws req (.commit a payloadB64 rowcount), [.consumeNonce nonce cutoff]⟩)
    (hdb : { c.shared.db with nonces := Nonce.consume c.shared.db.nonces nonce cutoff } = db) :
    Completes o cfg i c a
      (match (do checkRowcount rowcount; decodeJwsPayload o payloadB64 : Except Exn Json) with
      | .error e => ((Seg.fail e).next, db)
      | .ok payload =>
          (keyChangeStart a req.toHttpRequest payload).drive (keyChangeSeg o cfg a) 3 db) := by
  have hexec : Dml.execAll [.consumeNonce nonce cutoff] c.shared.db = some db := by
    rw [← hdb]
    rfl
  cases hx : (do checkRowcount rowcount; decodeJwsPayload o payloadB64 : Except Exn Json) with
  | error e =>
      have hseg : ∀ ch db, jwsSeg o cfg req db c.shared.now ch (.commit a payloadB64 rowcount) =
          some ⟨[], true, none, (Seg.fail e).next⟩ := by
        intro ch db
        rw [jwsSeg, hx]
        cases e <;> rfl
      simp only [Completes, Seg.fail_next_map]
      have hend := h.ends (fun ch => hseg ch c.shared.db) rfl hexec (Seg.fail_quiet e).next
      exact hend
  | ok payload =>
      have hseg : ∀ ch db, jwsSeg o cfg req db c.shared.now ch (.commit a payloadB64 rowcount) =
          some { (keyChangeStart a req.toHttpRequest payload).map (Pc.keyChange a) with
            commit := true } := by
        intro ch db
        simp only [jwsSeg, hx, routeStart, hroute]
        rfl
      have hr : (keyChangeStart a req.toHttpRequest payload).Reads fun q =>
          q = .account payload req.url :=
        .attempt fun _ _ => .goto rfl
      rcases hr with hq | ⟨q, e, rfl⟩
      · simp only [Completes, hq.drive]
        refine h.ends (fun ch => hseg ch c.shared.db) hq.spawn ?_ (hq.map _).next
        rw [Seg.map_write, hq.write]
        exact hexec
      · rw [e] at hseg
        simp only [e, Seg.drive_goto]
        obtain ⟨c₁, hs, hdb₁, -, hgoto, -⟩ := h.turn (fun ch => hseg ch c.shared.db) rfl hexec
        rw [← hdb₁]
        exact .step h.task hs (keyChange_completes (hgoto _ rfl))

theorem jws_consume_completes {req : Request} {payloadB64 : Json} {nonce : Option String}
    {cutoff : Int} (hroute : req.route = .keyChange)
    (h : Owns i c ⟨.jws req (.consume a nonce payloadB64 cutoff), []⟩) :
    Completes o cfg i c a
      (match (do
          checkRowcount (consumeRowcount c.shared.db.nonces nonce cutoff)
          decodeJwsPayload o payloadB64 : Except Exn Json) with
      | .error e => ((Seg.fail e).next,
          { c.shared.db with nonces := Nonce.consume c.shared.db.nonces nonce cutoff })
      | .ok payload => (keyChangeStart a req.toHttpRequest payload).drive (keyChangeSeg o cfg a) 3
          { c.shared.db with nonces := Nonce.consume c.shared.db.nonces nonce cutoff }) := by
  obtain ⟨c₁, hs, hdb, -, hgoto, -⟩ := h.turn (fun _ => rfl) rfl rfl
  have h₁ : Owns i c₁ ⟨.jws req (.commit a payloadB64
      (consumeRowcount c.shared.db.nonces nonce cutoff)), [.consumeNonce nonce cutoff]⟩ :=
    hgoto _ rfl
  exact .step h.task hs (jws_commit_completes hroute h₁ (by rw [hdb]))

/-- The payload with the account id, once the nonce is spent. -/
theorem redeem_eq {rowcount : Nat} {payloadB64 : Json} :
    (do
      checkRowcount rowcount
      let payload ← decodeJwsPayload o payloadB64
      return (payload, a) : Except Exn (Json × String)) =
    (do checkRowcount rowcount; decodeJwsPayload o payloadB64 : Except Exn Json).map (·, a) := by
  cases checkRowcount rowcount with
  | error e => rfl
  | ok u =>
      cases decodeJwsPayload o payloadB64 with
      | error e => rfl
      | ok payload => rfl

theorem verify_seg_error {req : Request} {now : Int} {e : Exn} (ch : Choice)
    (h : (do
      let (j, _, a) ← authenticate o cfg db.accounts req.toHttpRequest
      let nonce ← headerNonce o j.header
      return (j, a, nonce) : Except Exn (Jws × String × Option String)) = .error e) :
    jwsSeg o cfg req db now ch .verify = some (.fail e) := by
  rw [jwsSeg, h]
  rfl

/-- **The machine does what `keyChange` says**: a request that arrived, left alone, ends with its
answer and its database, whatever else is suspended, as long as nobody holds the write lock. -/
theorem keyChange_alone {req : Request} (hroute : req.route = .keyChange)
    (ht : c.tasks i = some ⟨.jws req .verify, []⟩) (hlt : i < c.next) (hlock : c.shared.lock = none) :
    ∃ a, Completes o cfg i c a (keyChange o cfg c.shared.db c.shared.now req.toHttpRequest) := by
  have h : Owns i c ⟨.jws req .verify, []⟩ := ⟨ht, hlt, .inr ⟨hlock, rfl⟩⟩
  unfold keyChange verifyJws
  cases hauth : authenticate o cfg c.shared.db.accounts req.toHttpRequest with
  | error e =>
      refine ⟨"", ?_⟩
      simp only [Completes, Seg.fail_next_map]
      exact h.quiet (fun ch => verify_seg_error ch (bind_of_error hauth)) (Seg.fail_quiet e)
  | ok x =>
      obtain ⟨j, key, a⟩ := x
      cases hn : headerNonce o j.header with
      | error e =>
          refine ⟨"", ?_⟩
          simp only [hn, Completes, Seg.fail_next_map]
          refine h.quiet (fun ch => verify_seg_error ch ?_) (Seg.fail_quiet e)
          exact bind_of_ok hauth (bind_of_error hn)
      | ok value =>
          refine ⟨a, ?_⟩
          have hseg : ∀ ch, jwsSeg o cfg req c.shared.db c.shared.now ch .verify = some (.goto
              (.jws req (.consume a value j.payloadB64 (nonceCutoff cfg c.shared.now)))) := by
            intro ch
            rw [jwsSeg, bind_of_ok hauth (bind_of_ok hn rfl)]
            rfl
          obtain ⟨c₁, hs, hdb, -, h₁⟩ := h.goto hseg
          refine .step h.task hs ?_
          have hend : Completes o cfg i c₁ a _ := jws_consume_completes hroute h₁
          rw [hdb] at hend
          simp only [hn, redeem_eq]
          cases hx : (do
              checkRowcount (consumeRowcount c.shared.db.nonces value (nonceCutoff cfg c.shared.now))
              decodeJwsPayload o j.payloadB64 : Except Exn Json) with
          | error e =>
              rw [hx] at hend
              exact hend
          | ok payload =>
              rw [hx] at hend
              exact hend

end Alone

/-! ### Who is authenticated afterwards -/

/-- What the program relies on when it stores a key as text. -/
structure Oracle.ReadsBack (o : Oracle) : Prop where
  /-- `json.loads` reads what `json.dumps` wrote for a key, up to the order of the members. -/
  loads : ∀ j key, o.jwkFromJson j = some key →
    ∃ j', o.jsonLoadsText j.dumps = some j' ∧ j'.dumps = j.dumps
  /-- `JWK.from_json` does not look at the order of the members. -/
  members : ∀ j j', j'.dumps = j.dumps → o.jwkFromJson j' = o.jwkFromJson j

/-- A request that names the account `a` is accepted under `key`, and under no other key. -/
structure SignsFor (o : Oracle) (cfg : Settings) (db : Db) (a : String) (key : o.Key) : Prop where
  accepts : ∀ now req payload, (verifyJws o cfg db now req).1 = .ok (payload, a) ↔
    ∃ j, KidSigned o cfg req j key a ∧ Redeems o cfg db.nonces now j payload
  only : ∀ req j key', authenticate o cfg db.accounts req = .ok (j, key', a) → key' = key

section SignsFor

variable {o : Oracle} {cfg : Settings} {db : Db} {now : Int} {req : HttpRequest} {a : String}
  {row : Account} {jwk : Json} {key : o.Key}

/-- A key is read back from the text it is stored as. -/
theorem Oracle.ReadsBack.storedKey (ho : o.ReadsBack) (h : o.jwkFromJson jwk = some key) :
    storedKey o (canonicalJwk jwk) = some key := by
  obtain ⟨jwk', hloads, hsame⟩ := ho.loads jwk key h
  rw [Jackdaw.storedKey, canonicalJwk, hloads, Option.bind_some, ho.members jwk jwk' hsame, h]

theorem signsFor_of_row (ha : a ≠ "") (hrow : db.accounts.get a = some row)
    (hstatus : row.status = .valid) (hkey : storedKey o row.publicKey = some key) :
    SignsFor o cfg db a key := by
  have honly : ∀ req j key', authenticate o cfg db.accounts req = .ok (j, key', a) →
      key' = key := by
    intro req j key' h
    obtain ⟨-, row', hrow', -, hkey'⟩ := (authenticate_kid_iff ha).mp h
    cases hrow.symm.trans hrow'
    exact Option.some.inj (hkey'.symm.trans hkey)
  refine ⟨fun now req payload => verifyJws_ok_iff.trans ⟨?_, ?_⟩, honly⟩
  · rintro ⟨j, key', hauth, hredeems⟩
    obtain rfl := honly req j key' hauth
    exact ⟨j, ((authenticate_kid_iff ha).mp hauth).1, hredeems⟩
  · rintro ⟨j, hsigned, hredeems⟩
    exact ⟨j, key, (authenticate_kid_iff ha).mpr ⟨hsigned, row, hrow, hstatus, hkey⟩, hredeems⟩

/-- The outer JWS of a roll-over is signed under the stored key of an active account. -/
theorem RollOver.outer (h : RollOver o cfg db now req a row jwk key) :
    row.status = .valid ∧ ∃ old j, storedKey o row.publicKey = some old ∧
      KidSigned o cfg req j old a := by
  obtain ⟨inner, -, hok, -⟩ := h.signed
  obtain ⟨j, old, hauth, -⟩ := verifyJws_ok_iff.mp hok
  obtain ⟨hsigned, row', hrow', hstatus, hkey⟩ := (authenticate_kid_iff h.named).mp hauth
  cases h.stored.symm.trans hrow'
  exact ⟨hstatus, old, j, hkey, hsigned⟩

/-- **Key roll-over is exact and atomic.**  For every database and request: the answer is 200
exactly for a roll-over.  Then the key of that one account becomes the canonical form of the new
one and no other account row changes; the outer JWS was signed under the old key, under which
requests that named the account were accepted before; and as long as the row stays, they are
accepted under the new key, and under no other.  In every other case no account row changes. -/
theorem key_rolled_over_exactly (o : Oracle) (ho : o.ReadsBack) (cfg : Settings) (db : Db)
    (now : Int) (req : HttpRequest) :
    ((keyChange o cfg db now req).1.Answers 200 ↔
      ∃ a row jwk key, RollOver o cfg db now req a row jwk key) ∧
    (∀ a row jwk key, RollOver o cfg db now req a row jwk key →
      Rolled db (keyChange o cfg db now req).2 a row (canonicalJwk jwk) ∧
      ∃ old, storedKey o row.publicKey = some old ∧ (∃ j, KidSigned o cfg req j old a) ∧
        SignsFor o cfg db a old ∧
        ∀ later : Db, later.accounts.get a = (keyChange o cfg db now req).2.accounts.get a →
          SignsFor o cfg later a key ∧
          (old ≠ key → ∀ req' j', authenticate o cfg later.accounts req' ≠ .ok (j', old, a))) ∧
    ((∀ a row jwk key, ¬ RollOver o cfg db now req a row jwk key) →
      ∀ b, (keyChange o cfg db now req).2.accounts.get b = db.accounts.get b) := by
  refine ⟨⟨fun h => ?_, ?_⟩, fun a row jwk key h => ?_, fun h b => by rw [(keyChange_otherwise h).2]⟩
  · by_contra hno
    push Not at hno
    obtain ⟨r, hr, hstatus⟩ := h
    have hle := (keyChange_otherwise hno).1 r hr
    omega
  · rintro ⟨a, row, jwk, key, h⟩
    exact (keyChange_of_rollOver h).1
  · have hrolled := (keyChange_of_rollOver h).2
    obtain ⟨hvalid, old, j, hold, hsigned⟩ := h.outer
    refine ⟨hrolled, old, hold, ⟨j, hsigned⟩, signsFor_of_row h.named h.stored hvalid hold,
      fun later hrow => ?_⟩
    rw [hrolled a, if_pos rfl] at hrow
    obtain ⟨inner, j', -, hin⟩ := h.signed
    have hnew : SignsFor o cfg later a key :=
      signsFor_of_row h.named hrow hvalid (ho.storedKey hin.parses)
    exact ⟨hnew, fun hne req' j' hauth => hne (hnew.only req' j' old hauth)⟩

end SignsFor

namespace Demo

/-- The parts of one key change, each decoded from a byte of its own: the body, its header, the
inner JWS, its header and its payload. -/
def decodeRollOver : List UInt8 → Option Json
  | [0] => some (.obj
      [("protected", .str (urlsafeB64encode [1])), ("payload", .str (urlsafeB64encode [2])),
       ("signature", .str (urlsafeB64encode [1]))])
  | [1] => some (.obj
      [("alg", .str "ES256"), ("url", .str "https://relay.test/acme/key-change"),
       ("nonce", .str "1"), ("kid", .str ("https://relay.test/acme/account/" ++ uuid 1))])
  | [2] => some (.obj
      [("protected", .str (urlsafeB64encode [3])), ("payload", .str (urlsafeB64encode [4])),
       ("signature", .str (urlsafeB64encode [2]))])
  | [3] => some (.obj
      [("alg", .str "ES256"), ("url", .str "https://relay.test/acme/key-change"),
       ("jwk", jwk 2)])
  | [4] => some (.obj
      [("account", .str ("https://relay.test/acme/account/" ++ uuid 1)), ("oldKey", jwk 1)])
  | _ => none

/-- The two keys, whatever the order of their members. -/
def rollOverOracle : Oracle :=
  { oracle with
    jsonLoads := decodeRollOver
    jwkFromJson := fun j => (oracle.jsonLoadsText j.dumps).bind oracle.jwkFromJson }

def rollOverDb : Db :=
  { Db.empty with
    accounts := .single (uuid 1) ⟨canonicalJwk (jwk 1), none, .valid, 0⟩
    nonces := .single "1" ⟨false, 0⟩ }

def rollOverRequest : HttpRequest :=
  ⟨"application/jose+json", [0], "https://relay.test/acme/key-change"⟩

theorem rollOverOracle_readsBack : rollOverOracle.ReadsBack := by
  constructor
  · intro j key h
    obtain ⟨j', hj', -⟩ := Option.bind_eq_some_iff.mp h
    have hfound : decide (canonicalJwk j' = j.dumps) = true :=
      List.find?_some (p := fun x => decide (canonicalJwk x = j.dumps)) hj'
    exact ⟨j', hj', of_decide_eq_true hfound⟩
  · intro j j' h
    show (oracle.jsonLoadsText j'.dumps).bind _ = (oracle.jsonLoadsText j.dumps).bind _
    rw [h]

/-- An account replaces its key. -/
theorem key_rolled_over : rollOverOracle.ReadsBack ∧ ∃ a row jwk key,
    RollOver rollOverOracle settings rollOverDb 0 rollOverRequest a row jwk key ∧
      Rolled rollOverDb (keyChange rollOverOracle settings rollOverDb 0 rollOverRequest).2 a row
        (canonicalJwk jwk) := by
  have hexact := key_rolled_over_exactly rollOverOracle rollOverOracle_readsBack settings rollOverDb
    0 rollOverRequest
  have hrun : (match (keyChange rollOverOracle settings rollOverDb 0 rollOverRequest).1 with
      | .respond r => decide (r.status = 200)
      | _ => false) = true := by decide +kernel
  have h200 : (keyChange rollOverOracle settings rollOverDb 0 rollOverRequest).1.Answers 200 := by
    split at hrun
    · exact ⟨_, by assumption, of_decide_eq_true hrun⟩
    · cases hrun
  obtain ⟨a, row, jwk, key, h⟩ := hexact.1.mp h200
  exact ⟨rollOverOracle_readsBack, a, row, jwk, key, h, (hexact.2.1 a row jwk key h).1⟩

end Demo

end Jackdaw
