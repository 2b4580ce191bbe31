import Jackdaw.Relay.KeyChange

/-!
# Relay — which account a key is

An account is found by the text of its key, `canonical_jwk` of the JWK it was registered with, while
signatures and key authorizations depend on the key that the text is read back as.  The text keeps
every member of the JWK, also those that do not belong to the key (`alg`, `use`, `kid`), so that one
key has many texts.

`newAccount` is `new_account` on a database nothing else writes to meanwhile, as `keyChange` is
`key_change`; `Served` are the databases that a sequence of such requests leaves.

* `reordered_returns_account`: the order of the members makes no difference.
* `one_key_one_account`: where each JWK is spelled as the account that has the key stores it, no two
  accounts have the same key; and a request is told so exactly then.
* `key_registered_twice`: two requests that differ in one optional member make two accounts.
-/

namespace Jackdaw

open Support

/-! ### `new_account` by itself -/

/-- `new_account`, on a database nothing else writes to meanwhile; `id` is the identifier it draws
for an account it makes. -/
def newAccount (o : Oracle) (cfg : Settings) (db : Db) (now : Int) (id : String)
    (req : HttpRequest) : Next NewAccountPc × Db :=
  match verifyJws o cfg db now req with
  | (.error e, db) => ((Seg.fail e).next, db)
  | (.ok (payload, _), db) =>
      (newAccountStart o req payload).drive
        (fun db p => (newAccountSeg cfg db now p { uuid := id }).getD .stop) 2 db

/-- The answer is 200, with the address of the account. -/
def Next.ReturnsAccount {P : Type} (n : Next P) (url : String) : Prop :=
  ∃ r, n = .respond r ∧ r.status = 200 ∧ r.location = some url

/-- The request is accepted, and registers `jwk`. -/
structure Registers (o : Oracle) (cfg : Settings) (db : Db) (now : Int) (req : HttpRequest)
    (jwk : Json) : Prop where
  accepted : ∃ payload a, (verifyJws o cfg db now req).1 = .ok (payload, a) ∧
    (newAccountRequest payload).isSome = true
  carries : extractJwk o req = some jwk

/-- The request is accepted for account `a`, and asks to replace its key by that of `jwk`. -/
structure Asks (o : Oracle) (cfg : Settings) (db : Db) (now : Int) (req : HttpRequest) (a : String)
    (row : Account) (jwk : Json) (key : o.Key) : Prop where
  named : a ≠ ""
  stored : db.accounts.get a = some row
  signed : ∃ inner j, (verifyJws o cfg db now req).1 = .ok (inner, a) ∧
    InnerSigned o inner (accountUrl cfg a) row.publicKey req.url j jwk key

/-! ### One key in several texts -/

/-- The two texts are read back as keys with one thumbprint. -/
def SameKey (o : Oracle) (text text' : String) : Prop :=
  ∃ key key', storedKey o text = some key ∧ storedKey o text' = some key' ∧
    o.thumbprint key = o.thumbprint key'

/-- Every account but `own` that has the key of the text stores this text. -/
def SpelledAs (o : Oracle) (db : Db) (own : Option String) (text : String) : Prop :=
  ∀ id row, db.accounts.get id = some row → own ≠ some id → SameKey o row.publicKey text →
    row.publicKey = text

/-- No two accounts have the same key. -/
def Db.KeysDistinct (o : Oracle) (db : Db) : Prop :=
  ∀ id id' row row', db.accounts.get id = some row → db.accounts.get id' = some row' →
    SameKey o row.publicKey row'.publicKey → id = id'

theorem SameKey.symm {o : Oracle} {s t : String} (h : SameKey o s t) : SameKey o t s := by
  obtain ⟨key, key', hs, ht, e⟩ := h
  exact ⟨key', key, ht, hs, e.symm⟩

theorem SameKey.trans {o : Oracle} {s t u : String} (h : SameKey o s t) (h' : SameKey o t u) :
    SameKey o s u := by
  obtain ⟨key, key', hs, ht, e⟩ := h
  obtain ⟨key₁, key₂, ht', hu, e'⟩ := h'
  cases ht.symm.trans ht'
  exact ⟨key, key₂, hs, hu, e.trans e'⟩

/-! ### What a registration leaves -/

section Registers

variable {o : Oracle} {cfg : Settings} {db : Db} {now : Int} {id : String} {req : HttpRequest}
  {jwk : Json}

/-- What a look-up of a text returns. -/
theorem scalarOneOrNone_mem {α : Type} {l : List α} {a : α}
    (h : scalarOneOrNone l = .ok (some a)) : a ∈ l := by
  rcases l with _ | ⟨b, _ | ⟨c, l⟩⟩
  · cases h
  · cases h
    exact List.mem_singleton_self _
  · cases h

/-- A request that does not register anything leaves the accounts as they are. -/
theorem newAccount_otherwise (h : ∀ jwk, ¬ Registers o cfg db now req jwk) :
    (newAccount o cfg db now id req).2.accounts = db.accounts := by
  have hacc := verifyJws_accounts o cfg db now req
  unfold newAccount
  rcases hv : verifyJws o cfg db now req with ⟨x, db₁⟩
  rw [hv] at hacc
  rcases x with e | ⟨payload, a⟩
  · exact hacc
  simp only [newAccountStart]
  cases hreq : newAccountRequest payload with
  | none =>
      simp only [orElse, Seg.attempt_error, Seg.drive_fail]
      exact hacc
  | some r =>
      cases hjwk : extractJwk o req with
      | none =>
          simp only [orElse, Seg.attempt_ok, Seg.attempt_error, Seg.drive_fail]
          exact hacc
      | some jwk =>
          refine absurd ⟨⟨payload, a, by rw [hv], ?_⟩, hjwk⟩ (h jwk)
          rw [hreq]
          rfl

/-- A request that registers a key comes to the look-up of its text. -/
theorem newAccount_looks_up (id : String) (h : Registers o cfg db now req jwk) : ∃ contact only db₁,
    db₁.accounts = db.accounts ∧ newAccount o cfg db now id req =
      ((newAccountSeg cfg db₁ now (.select contact only (canonicalJwk jwk))
        { uuid := id }).getD .stop).drive
        (fun db p => (newAccountSeg cfg db now p { uuid := id }).getD .stop) 1 db₁ := by
  obtain ⟨payload, a, hok, hreq⟩ := h.accepted
  obtain ⟨⟨contact, only⟩, hreq⟩ := Option.isSome_iff_exists.mp hreq
  have hacc := verifyJws_accounts o cfg db now req
  unfold newAccount
  rcases hv : verifyJws o cfg db now req with ⟨x, db₁⟩
  rw [hv] at hok hacc
  replace hok : x = .ok (payload, a) := hok
  subst hok
  refine ⟨contact, only, db₁, hacc, ?_⟩
  simp only [newAccountStart, hreq, h.carries, orElse, Seg.attempt_ok, Seg.drive_goto]

/-- The commit of the new account. -/
theorem drive_insert {P : Type} {body : Db → P → Seg P} {n : Nat} {row : Account} {r : Response}
    {x : Next P × Db}
    (hx : Seg.drive body n ⟨[.insertAccount id row], true, none, .respond r⟩ db = x)
    (hr : r.status ≠ 200) :
    (∀ url, ¬ x.1.ReturnsAccount url) ∧
      (x.2.accounts = db.accounts ∨ db.accounts.insert? id row = some x.2.accounts) := by
  subst hx
  unfold Seg.drive
  simp only [if_true, Dml.execAll, Dml.exec]
  cases hins : db.accounts.insert? id row with
  | none =>
      refine ⟨?_, .inl rfl⟩
      rintro url ⟨r, ⟨⟩, -⟩
  | some tab =>
      cases n <;>
      · refine ⟨?_, .inr rfl⟩
        rintro url ⟨r', e, h200, -⟩
        cases e
        exact hr h200

/-- **A registration**, where no two accounts store one text: the account that stores the text is
returned; or none does, and then one may be made. -/
theorem newAccount_cases (id : String) (h : Registers o cfg db now req jwk) (hu : db.KeysUnique) :
    (∃ id' row, db.accounts.get id' = some row ∧ row.publicKey = canonicalJwk jwk ∧
      (newAccount o cfg db now id req).1.ReturnsAccount (accountUrl cfg id') ∧
      (newAccount o cfg db now id req).2.accounts = db.accounts) ∨
    db.KeyFree (canonicalJwk jwk) none ∧
      (∀ url, ¬ (newAccount o cfg db now id req).1.ReturnsAccount url) ∧
      ((newAccount o cfg db now id req).2.accounts = db.accounts ∨
        ∃ row, row.publicKey = canonicalJwk jwk ∧
          db.accounts.insert? id row = some (newAccount o cfg db now id req).2.accounts) := by
  obtain ⟨contact, only, db₁, hacc, e⟩ := newAccount_looks_up id h
  rw [e, newAccountSeg, ← hacc]
  have hu : db₁.KeysUnique := by
    unfold Db.KeysUnique
    rw [hacc]
    exact hu
  obtain ⟨x, hx⟩ : ∃ x, scalarOneOrNone
      (db₁.accounts.select fun _ r => decide (r.publicKey = canonicalJwk jwk)) = .ok x :=
    hu.query fun hp => of_decide_eq_true hp
  rw [hx]
  rcases x with _ | ⟨id', row⟩
  · have hfree := keyFree_of_none hx
    unfold Db.KeyFree at hfree ⊢
    rw [hacc] at hfree
    refine .inr ⟨hfree, ?_⟩
    by_cases honly : only = true
    · rw [if_pos honly, Option.getD_some, Seg.drive_fail]
      refine ⟨?_, .inl rfl⟩
      rintro url ⟨r, ⟨⟩, h200, -⟩
      cases h200
    rw [if_neg honly]
    by_cases huuid : isUuid id = true
    · rw [if_pos huuid, Option.getD_some, Seg.drive_goto, newAccountSeg, Option.getD_some]
      generalize hx : Seg.drive _ 0 _ db₁ = x
      obtain ⟨hno, hins⟩ := drive_insert hx (show (201 : Nat) ≠ 200 by decide)
      exact ⟨hno, hins.imp_right fun hins => ⟨_, rfl, hins⟩⟩
    · rw [if_neg huuid, Option.getD_none]
      refine ⟨?_, .inl rfl⟩
      rintro url ⟨r, ⟨⟩, -⟩
  · obtain ⟨hrow, hkey⟩ := Table.mem_select.mp (scalarOneOrNone_mem hx)
    refine .inl ⟨id', row, hrow, of_decide_eq_true hkey, ⟨_, rfl, rfl, rfl⟩, rfl⟩

end Registers

/-! ### What a roll-over leaves -/

section Asks

variable {o : Oracle} {cfg : Settings} {db : Db} {now : Int} {req : HttpRequest} {a : String}
  {row : Account} {jwk : Json} {key : o.Key}

theorem Asks.rollOver (h : Asks o cfg db now req a row jwk key)
    (hfree : db.KeyFree (canonicalJwk jwk) (some a)) : RollOver o cfg db now req a row jwk key :=
  ⟨h.named, h.stored, h.signed, hfree⟩

theorem RollOver.asks (h : RollOver o cfg db now req a row jwk key) :
    Asks o cfg db now req a row jwk key :=
  ⟨h.named, h.stored, h.signed⟩

/-- A roll-over to a text that another account stores is answered 409, where no two accounts store
one text. -/
theorem keyChange_conflict (h : Asks o cfg db now req a row jwk key) (hu : db.KeysUnique)
    (hfree : ¬ db.KeyFree (canonicalJwk jwk) (some a)) :
    (keyChange o cfg db now req).1.Answers 409 := by
  obtain ⟨inner, j, hok, hin⟩ := h.signed
  have hacc := verifyJws_accounts o cfg db now req
  unfold keyChange
  rcases hv : verifyJws o cfg db now req with ⟨x, db₁⟩
  rw [hv] at hok hacc
  replace hok : x = .ok (inner, a) := hok
  replace hacc : db₁.accounts = db.accounts := hacc
  subst hok
  have hrow : db₁.accounts.get a = some row := by rw [hacc]; exact h.stored
  obtain ⟨x, hx⟩ : ∃ x, scalarOneOrNone (db₁.accounts.select fun id r =>
      decide (r.publicKey = canonicalJwk jwk) && decide (id ≠ a)) = .ok x := by
    rw [hacc]
    exact hu.query fun hp => of_decide_eq_true ((Bool.and_eq_true _ _).mp hp).1
  simp only [keyChangeStart_eq h.named (isObj_of_get? hin.members.1), Seg.drive_goto,
    keyChangeSeg_account_eq hrow, verifyInnerJws_ok_iff.mpr ⟨j, key, hin⟩, Seg.attempt_ok]
  rw [keyChangeSeg, hx]
  rcases x with _ | y
  · have := keyFree_iff.mp hx
    unfold Db.KeyFree at this hfree
    rw [hacc] at this
    exact absurd this hfree
  · exact ⟨_, rfl, rfl⟩

end Asks

/-! ### Sequences of requests -/

/-- What happens to the database, one thing after the other. -/
inductive AccountEvent where
  | newAccount (now : Int) (id : String) (req : HttpRequest)
  | keyChange (now : Int) (req : HttpRequest)
  /-- Anything else leaves the accounts as they are. -/
  | other (db : Db)

def AccountEvent.run (o : Oracle) (cfg : Settings) (db : Db) : AccountEvent → Db
  | .newAccount now id req => (Jackdaw.newAccount o cfg db now id req).2
  | .keyChange now req => (Jackdaw.keyChange o cfg db now req).2
  | .other db' => { db' with accounts := db.accounts }

/-- The databases a sequence of events leaves, each of which satisfies `P`. -/
inductive Served (o : Oracle) (cfg : Settings) (P : Db → AccountEvent → Prop) : Db → Prop where
  | start : Served o cfg P .empty
  | step {db : Db} (h : Served o cfg P db) (e : AccountEvent) (hp : P db e) :
      Served o cfg P (e.run o cfg db)

/-- **Keys are spelled alike**: the JWK that is registered, or rolled over to, is spelled as the
other accounts with its key store it, up to the order of its members. -/
def SpelledAlike (o : Oracle) (cfg : Settings) (db : Db) : AccountEvent → Prop
  | .newAccount now _ req => ∀ jwk, Registers o cfg db now req jwk →
      SpelledAs o db none (canonicalJwk jwk)
  | .keyChange now req => ∀ a row jwk key, Asks o cfg db now req a row jwk key →
      SpelledAs o db (some a) (canonicalJwk jwk)
  | .other _ => True

section Served

variable {o : Oracle} {cfg : Settings} {db db' : Db}

/-- A text is stored that no other account spells differently. -/
theorem Db.KeysDistinct.store {text id : String} (h : db.KeysDistinct o)
    (hfree : db.KeyFree text (some id)) (hsp : SpelledAs o db (some id) text)
    (hfrom : ∀ {k r}, db'.accounts.get k = some r →
      db.accounts.get k = some r ∨ k = id ∧ r.publicKey = text) : db'.KeysDistinct o := by
  -- whoever has the key of the text is the account it is stored for
  have howner : ∀ {k r}, db.accounts.get k = some r → SameKey o r.publicKey text → k = id := by
    intro k r hr hsame
    by_contra hne
    refine hne (Option.some.inj (hfree k r hr ?_)).symm
    exact hsp k r hr (fun e => hne (Option.some.inj e).symm) hsame
  intro k k' r r' hr hr' hsame
  rcases hfrom hr with hr | ⟨rfl, hk⟩
  · rcases hfrom hr' with hr' | ⟨rfl, hk'⟩
    · exact h k k' r r' hr hr' hsame
    · exact howner hr (hk' ▸ hsame)
  · rcases hfrom hr' with hr' | ⟨rfl, -⟩
    · exact (howner hr' (hk ▸ hsame.symm)).symm
    · rfl

/-- **What an event does to the accounts**: nothing, or it stores a text for one of them that no
other has. -/
theorem AccountEvent.run_cases (e : AccountEvent) (hu : db.KeysUnique) :
    (e.run o cfg db).accounts = db.accounts ∨
    ∃ id text, db.KeyFree text (some id) ∧
      (SpelledAlike o cfg db e → SpelledAs o db (some id) text) ∧
      ∀ {k r}, (e.run o cfg db).accounts.get k = some r →
        db.accounts.get k = some r ∨ k = id ∧ r.publicKey = text := by
  cases e with
  | newAccount now id req =>
      by_cases hreg : ∃ jwk, Registers o cfg db now req jwk
      · obtain ⟨jwk, hreg⟩ := hreg
        rcases newAccount_cases id hreg hu with ⟨-, -, -, -, -, e⟩ |
            ⟨hfree, -, e | ⟨row, hkey, hins⟩⟩
        · exact .inl e
        · exact .inl e
        · refine .inr ⟨id, canonicalJwk jwk, hfree.some (.inl rfl), ?_, fun {k r} hr => ?_⟩
          · intro hsp k r hr _
            exact hsp jwk hreg k r hr nofun
          · refine (get_of_get_insert? hins hr).imp_right ?_
            rintro ⟨rfl, rfl⟩
            exact ⟨rfl, hkey⟩
      · exact .inl (newAccount_otherwise fun jwk h => hreg ⟨jwk, h⟩)
  | keyChange now req =>
      by_cases hroll : ∃ a row jwk key, RollOver o cfg db now req a row jwk key
      · obtain ⟨a, row, jwk, key, hroll⟩ := hroll
        obtain ⟨-, hrolled⟩ := keyChange_of_rollOver hroll
        refine .inr ⟨a, canonicalJwk jwk, hroll.free, fun hsp => hsp a row jwk key hroll.asks, ?_⟩
        intro k r hr
        have hr : (Jackdaw.keyChange o cfg db now req).2.accounts.get k = some r := hr
        rw [hrolled k] at hr
        split at hr
        · cases hr
          exact .inr ⟨by assumption, rfl⟩
        · exact .inl hr
      · exact .inl (keyChange_otherwise fun a row jwk key h => hroll ⟨a, row, jwk, key, h⟩).2
  | other db' => exact .inl rfl

/-- **Accounts have different texts**, in every sequence of requests. -/
theorem served_unique {P : Db → AccountEvent → Prop} (h : Served o cfg P db) : db.KeysUnique := by
  induction h with
  | start => exact nofun
  | step _ e _ ih =>
      rcases e.run_cases ih with hsame | ⟨id, text, hfree, -, hfrom⟩
      · unfold Db.KeysUnique
        rw [hsame]
        exact ih
      · exact ih.store hfree hfrom

/-- **Accounts have different keys**, where the requests spell them alike. -/
theorem served_distinct (h : Served o cfg (SpelledAlike o cfg) db) : db.KeysDistinct o := by
  induction h with
  | start => exact nofun
  | step h e hp ih =>
      rcases e.run_cases (served_unique h) with hsame | ⟨id, text, hfree, hsp, hfrom⟩
      · unfold Db.KeysDistinct
        rw [hsame]
        exact ih
      · exact ih.store hfree (hsp hp) hfrom

/-- **Reordered members find the account**, in every sequence of requests. -/
theorem reordered_returns_account {P : Db → AccountEvent → Prop} (h : Served o cfg P db) {now : Int}
    {id owner : String} {req : HttpRequest} {row : Account} {ms ms' : List (String × Json)}
    (hreg : Registers o cfg db now req (.obj ms')) (hrow : db.accounts.get owner = some row)
    (htext : row.publicKey = canonicalJwk (.obj ms)) (hp : ms.Perm ms')
    (hnodup : (ms.map Prod.fst).Nodup) :
    (newAccount o cfg db now id req).1.ReturnsAccount (accountUrl cfg owner) := by
  have hu := served_unique h
  rw [canonicalJwk, Json.dumps_obj_perm hp hnodup] at htext
  rcases newAccount_cases id hreg hu with ⟨k, r, hr, hkey, hret, -⟩ | ⟨hfree, -⟩
  · rwa [hu k owner r row hr hrow (hkey.trans htext.symm)] at hret
  · cases hfree owner row hrow htext

/-- **One key, one account**, in every sequence of requests that spell keys alike: no two accounts
have the same key; a JWK of a registered key is answered with the account that has it exactly when
it is spelled as that account stores it; and so is a roll-over to the key of another account, with
a conflict. -/
theorem one_key_one_account (ho : o.ReadsBack) (h : Served o cfg (SpelledAlike o cfg) db) :
    db.KeysDistinct o ∧
    (∀ now id req jwk owner row key key', Registers o cfg db now req jwk →
      db.accounts.get owner = some row → storedKey o row.publicKey = some key →
      o.jwkFromJson jwk = some key' → o.thumbprint key = o.thumbprint key' →
      ((newAccount o cfg db now id req).1.ReturnsAccount (accountUrl cfg owner) ↔
        row.publicKey = canonicalJwk jwk)) ∧
    (∀ now req a own jwk key' owner row key, Asks o cfg db now req a own jwk key' →
      owner ≠ a → db.accounts.get owner = some row → storedKey o row.publicKey = some key →
      o.thumbprint key = o.thumbprint key' →
      ((keyChange o cfg db now req).1.Answers 409 ↔ row.publicKey = canonicalJwk jwk)) := by
  have hu := served_unique h
  have hd := served_distinct h
  refine ⟨hd, fun now id req jwk owner row key key' hreg hrow hkey hkey' hprint => ?_,
    fun now req a own jwk key' owner row key hask hne hrow hkey hprint => ?_⟩
  · have hsame : SameKey o row.publicKey (canonicalJwk jwk) :=
      ⟨key, key', hkey, ho.storedKey hkey', hprint⟩
    rcases newAccount_cases id hreg hu with ⟨k, r, hr, htext, hret, -⟩ | ⟨hfree, hno, -⟩
    · -- the account that is returned has the key, so it is the owner
      cases hd k owner r row hr hrow (htext ▸ hsame.symm)
      cases hr.symm.trans hrow
      exact ⟨fun _ => htext, fun _ => hret⟩
    · exact ⟨fun hret => absurd hret (hno _), fun htext => by cases hfree owner row hrow htext⟩
  · obtain ⟨inner, j, -, hin⟩ := hask.signed
    have hsame : SameKey o row.publicKey (canonicalJwk jwk) :=
      ⟨key, key', hkey, ho.storedKey hin.parses, hprint⟩
    by_cases hfree : db.KeyFree (canonicalJwk jwk) (some a)
    · obtain ⟨⟨r, hr, h200⟩, -⟩ := keyChange_of_rollOver (hask.rollOver hfree)
      refine ⟨?_, fun htext => absurd (Option.some.inj (hfree owner row hrow htext)).symm hne⟩
      rintro ⟨r', hr', h409⟩
      cases hr.symm.trans hr'
      rw [h200] at h409
      cases h409
    · refine ⟨fun _ => ?_, fun _ => keyChange_conflict hask hu hfree⟩
      -- somebody else stores the text, and that is the owner of the key
      unfold Db.KeyFree at hfree
      push Not at hfree
      obtain ⟨k, r, hr, htext, -⟩ := hfree
      cases hd k owner r row hr hrow (htext ▸ hsame.symm)
      cases hr.symm.trans hrow
      exact htext

end Served

namespace Demo

/-- Key `1`, with the optional member `alg`. -/
def jwkWithAlg : Json := .obj [("alg", .str "ES256"), ("kty", .str "EC"), ("x", .str "1")]

/-- The requests of the small world, and `new_account` with key `1` in its other spelling. -/
def decodeSpelling : List UInt8 → Option Json
  | [0, n] => some (.obj
      [("protected", .str (urlsafeB64encode [1, n])), ("payload", .str (urlsafeB64encode [2, 0])),
       ("signature", .str (urlsafeB64encode [1]))])
  | [1, n] => some (.obj
      [("alg", .str "ES256"), ("url", .str (url .newAccount)), ("nonce", .str (toString n.toNat)),
       ("jwk", jwkWithAlg)])
  | bytes => decode bytes

/-- The key is the member `x`, and its thumbprint leaves the other members out. -/
def spellingOracle : Oracle :=
  { oracle with
    Key := String
    jsonLoads := decodeSpelling
    jsonLoadsText := fun s => [jwk 1, jwkWithAlg].find? fun j => canonicalJwk j = s
    jwkFromJson := fun j => ([jwk 1, jwkWithAlg].find? fun j' => canonicalJwk j' = j.dumps).bind
      fun j' => (j'.get? "x").bind Json.text?
    verify := oracle.verify
    thumbprint := fun key => key.toList.map fun c => UInt8.ofNat c.toNat }

instance : DecidableEq spellingOracle.Key := inferInstanceAs (DecidableEq String)

theorem spellingOracle_readsBack : spellingOracle.ReadsBack := by
  constructor
  · intro j key h
    obtain ⟨j', hj', -⟩ := Option.bind_eq_some_iff.mp h
    have hfound : decide (canonicalJwk j' = j.dumps) = true :=
      List.find?_some (p := fun x => decide (canonicalJwk x = j.dumps)) hj'
    exact ⟨j', hj', of_decide_eq_true hfound⟩
  · intro j j' h
    simp only [spellingOracle, h]

/-- Two nonces are issued, and key `1` is registered. -/
def registered : Db :=
  AccountEvent.run spellingOracle settings
    (AccountEvent.run spellingOracle settings .empty (.other { Db.empty with
      nonces := ⟨[("1", ⟨false, 0⟩), ("2", ⟨false, 0⟩)], by decide⟩ }))
    (.newAccount 0 (uuid 1) ⟨"application/jose+json", [0, 1, 1, 0], url .newAccount⟩)

/-- Then it is registered in its other spelling. -/
def registeredAgain : Db :=
  AccountEvent.run spellingOracle settings registered
    (.newAccount 0 (uuid 2) ⟨"application/jose+json", [0, 2], url .newAccount⟩)

/-- Key `1` is registered again as it was, with the second nonce. -/
def sameSpelling : HttpRequest :=
  ⟨"application/jose+json", [0, 1, 2, 0], url .newAccount⟩

theorem registers_sameSpelling :
    Registers spellingOracle settings registered 0 sameSpelling (jwk 1) := by
  constructor
  · have hrun : (match (verifyJws spellingOracle settings registered 0 sameSpelling).1 with
        | .ok (payload, _) => (newAccountRequest payload).isSome
        | .error _ => false) = true := by decide +kernel
    split at hrun
    · exact ⟨_, _, by assumption, hrun⟩
    · cases hrun
  · rfl

end Demo

theorem key_registered_once :
    Demo.spellingOracle.ReadsBack ∧
    Served Demo.spellingOracle Demo.settings (SpelledAlike Demo.spellingOracle Demo.settings)
      Demo.registered ∧
    Demo.registered.KeysDistinct Demo.spellingOracle ∧
    (newAccount Demo.spellingOracle Demo.settings Demo.registered 0 (Demo.uuid 2)
      Demo.sameSpelling).1.ReturnsAccount (accountUrl Demo.settings (Demo.uuid 1)) := by
  have hserved : Served Demo.spellingOracle Demo.settings
      (SpelledAlike Demo.spellingOracle Demo.settings) Demo.registered := by
    refine .step (.step .start _ trivial) _ fun jwk _ id row hrow => ?_
    cases hrow
  obtain ⟨hdistinct, hreturns, -⟩ := one_key_one_account Demo.spellingOracle_readsBack hserved
  have hrow : (Demo.registered.accounts.get (Demo.uuid 1)).any (fun row =>
      decide (row.publicKey = canonicalJwk (Demo.jwk 1))) = true := by decide +kernel
  obtain ⟨row, hrow, htext⟩ := (Option.any_eq_true _ _).mp hrow
  refine ⟨Demo.spellingOracle_readsBack, hserved, hdistinct, ?_⟩
  refine (hreturns _ _ _ _ _ row "1" "1" Demo.registers_sameSpelling hrow ?_ ?_ rfl).mpr
    (of_decide_eq_true htext)
  · rw [of_decide_eq_true htext]
    decide +kernel
  · decide +kernel

/-- **Two accounts with one key**, which the two requests spell with and without `alg`. -/
theorem key_registered_twice :
    Demo.spellingOracle.ReadsBack ∧
    ¬ ∀ db, Served Demo.spellingOracle Demo.settings (fun _ _ => True) db →
      db.KeysDistinct Demo.spellingOracle := by
  refine ⟨Demo.spellingOracle_readsBack, fun hall => ?_⟩
  have hserved : Served Demo.spellingOracle Demo.settings (fun _ _ => True) Demo.registeredAgain :=
    .step (.step (.step .start _ trivial) _ trivial) _ trivial
  have hrun : (Demo.registeredAgain.accounts.get (Demo.uuid 1)).any (fun r =>
      (Demo.registeredAgain.accounts.get (Demo.uuid 2)).any fun r' =>
        decide (r.publicKey = canonicalJwk (Demo.jwk 1)) &&
          decide (r'.publicKey = canonicalJwk Demo.jwkWithAlg)) = true := by decide +kernel
  obtain ⟨r, hr, h⟩ := (Option.any_eq_true _ _).mp hrun
  obtain ⟨r', hr', h⟩ := (Option.any_eq_true _ _).mp h
  obtain ⟨htext, htext'⟩ := (Bool.and_eq_true _ _).mp h
  have hsame : SameKey Demo.spellingOracle r.publicKey r'.publicKey := by
    rw [of_decide_eq_true htext, of_decide_eq_true htext']
    exact ⟨"1", "1", by decide +kernel, by decide +kernel, rfl⟩
  exact absurd (hall _ hserved _ _ r r' hr hr' hsame) (by decide)

end Jackdaw
