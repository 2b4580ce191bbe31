import Jackdaw.Http
import Jackdaw.Services.Nonce
import Mathlib.Algebra.Group.Int.Defs

/-!
# Services — JWS verification

`services/jws.py`.  Every ACME request is a flat JSON JWS; `verify_jws` decodes the protected
header, resolves the key, checks the signature, and only then spends the nonce.

The function is cut at its two database statements: `authenticate` is everything up to and
including the signature check, which reads the accounts table; the `UPDATE` on the nonces table
and the decoding of the payload follow.  `verifyJws` is the whole, on a database nothing else
writes to meanwhile.

* `authenticate_ok`: what a request that authenticates looks like, part by part (`Signed`).
* `authenticate_kid_iff`: a request that names an account authenticates exactly under its stored
  key.
* `verifyJws_db`: the database afterwards is the one before, or the one the consuming `UPDATE`
  leaves, and the latter only when the request authenticates.
-/

namespace Jackdaw

open Support

/-- `_ALLOWED_ALGS`. -/
def allowedAlgs : List String := ["RS256", "RS384", "RS512", "ES256", "ES384", "ES512"]

/-- The parts of a JWS that passed the checks on its header. -/
structure Jws where
  protectedB64 : String
  payloadB64 : Json
  signatureB64 : Json
  header : Json
  alg : String

/-- `alg_name not in _ALLOWED_ALGS`, with the text of the refusal; an array or object is not
hashable. -/
def checkAlg (o : Oracle) (refusal : String) (alg : Json) : Except Exn String :=
  match alg with
  | .arr _ => .error .raised
  | .obj _ => .error .raised
  | .str s =>
      if s ∈ allowedAlgs then .ok s else .error (.http 400 (.text (refusal ++ o.repr alg)))
  | _ => .error (.http 400 (.text (refusal ++ o.repr alg)))

/-- `verify_jws` up to the check of the header's `url`. -/
def parseJws (o : Oracle) (req : HttpRequest) : Except Exn Jws := do
  reject (!Text.contains req.contentType "application/jose+json") 415
    (.text "Content-Type must be application/jose+json")
  let body ← orElse (.http 400 (.text "Request body is not valid JSON"))
    ((o.jsonLoads req.body).filter Json.isObj)
  let protectedB64 := (body.get? "protected").getD (.str "")
  let payloadB64 := (body.get? "payload").getD (.str "")
  let signatureB64 := (body.get? "signature").getD (.str "")
  reject (!protectedB64.truthy || !signatureB64.truthy) 400 (.text "JWS missing required fields")
  let protectedText ← orElse (.http 400 (.text "Invalid JWS protected header")) protectedB64.text?
  let header ← orElse (.http 400 (.text "Invalid JWS protected header"))
    ((b64urlDecode protectedText).bind o.jsonLoads)
  let algName ← dictGet header "alg"
  let alg ← checkAlg o "Unsupported JWS algorithm: " (algName.getD (.str ""))
  let url ← dictGet header "url"
  reject (!(url.getD .null).isStr req.url) 400 (.text "JWS url claim does not match request URL")
  return ⟨protectedText, payloadB64, signatureB64, header, alg⟩

/-- `_account_url_prefix`. -/
def accountUrlPrefix (cfg : Settings) : String := cfg.relayBaseUrl ++ "/acme/account/"

/-- The account id a `kid` names: what follows the prefix, without trailing slashes. -/
def kidAccountId (cfg : Settings) (kid : String) : String :=
  Text.rstripChar (Text.drop kid (accountUrlPrefix cfg).length) '/'

/-- `JWK.from_json(json.loads(account.public_key))`. -/
def storedKey (o : Oracle) (publicKey : String) : Option o.Key :=
  (o.jsonLoadsText publicKey).bind o.jwkFromJson

/-- The key and account of a `kid` that is text. -/
def resolveKidText (o : Oracle) (cfg : Settings) (accounts : Table String Account) (kid : String) :
    Except Exn (o.Key × String) := do
  reject (!Text.startsWith kid (accountUrlPrefix cfg)) 400
    (.text "JWS kid is not a valid account URL for this server")
  let accountId := kidAccountId cfg kid
  reject (decide (accountId = "")) 400 (.text "JWS kid is missing the account ID")
  let account ← orElse (.http 401 (.text "Account not found")) (accounts.get accountId)
  reject (decide (account.status ≠ .valid)) 401 (.text "Account is not active")
  let key ← orElse .raised (storedKey o account.publicKey)
  return (key, accountId)

/-- What `kid.startswith(prefix)` says of a string with a lone surrogate. -/
def rawStartsWith (points : List Nat) (s : String) : Bool :=
  (s.toList.map Char.toNat).isPrefixOf points

/-- The key and account of a `kid`.  One with a lone surrogate behind the prefix cannot be bound as
a parameter of the look-up, and what is not a string has no `startswith`. -/
def resolveKid (o : Oracle) (cfg : Settings) (accounts : Table String Account) :
    Json → Except Exn (o.Key × String)
  | .str kid => resolveKidText o cfg accounts kid
  | .rawStr points => do
      reject (!rawStartsWith points (accountUrlPrefix cfg)) 400
        (.text "JWS kid is not a valid account URL for this server")
      .error .raised
  | _ => .error .raised

/-- `_resolve_key_and_account`. -/
def resolveKeyAndAccount (o : Oracle) (cfg : Settings) (accounts : Table String Account)
    (header : Json) : Except Exn (o.Key × String) :=
  match nonNull (header.get? "jwk"), nonNull (header.get? "kid") with
  | some _, some _ =>
      .error (.http 400 (.text "JWS protected header must contain 'jwk' or 'kid', not both"))
  | some jwkData, none => do
      let key ← orElse .raised (o.jwkFromJson jwkData)
      return (key, "")
  | none, some kid => resolveKid o cfg accounts kid
  | none, none =>
      .error (.http 400 (.text "JWS protected header must contain 'jwk' or 'kid'"))

/-- `f"{protected_b64}.{payload_b64}".encode("ascii")`. -/
def signingInput (o : Oracle) (j : Jws) : Option (List UInt8) :=
  encodeAscii (j.protectedB64 ++ "." ++ o.format j.payloadB64)

/-- The bytes of the signature field; `b64url_decode` raises on anything but a string. -/
def signatureBytes (j : Jws) : Option (List UInt8) := j.signatureB64.text?.bind b64urlDecode

/-- `_verify_jws_signature` with its arguments: the signing input and the signature bytes are
computed outside its `try`. -/
def verifyJwsSignature (o : Oracle) (j : Jws) (key : o.Key) : Except Exn Unit := do
  let msg ← orElse .raised (signingInput o j)
  let sig ← orElse .raised (signatureBytes j)
  reject (o.verify j.alg key msg sig ≠ some true) 400 (.text "JWS signature verification failed")

/-- `verify_jws` up to the signature check. -/
def authenticate (o : Oracle) (cfg : Settings) (accounts : Table String Account)
    (req : HttpRequest) : Except Exn (Jws × o.Key × String) := do
  let j ← parseJws o req
  let (key, accountId) ← resolveKeyAndAccount o cfg accounts j.header
  verifyJwsSignature o j key
  return (j, key, accountId)

/-- The text a bound parameter is compared with a text column as; a null finds nothing, and an
integer outside 64 bits, a string with a lone surrogate, an array or an object cannot be bound. -/
def bindText (o : Oracle) : Json → Except Exn (Option String)
  | .null => .ok none
  | .str s => .ok (some s)
  | .bool b => .ok (some (if b then "1" else "0"))
  | .int n => if -2 ^ 63 ≤ n ∧ n < 2 ^ 63 then .ok (some (toString n)) else .error .raised
  | .float r => .ok (some (o.realText r))
  | .rawStr _ => .error .raised
  | .arr _ => .error .raised
  | .obj _ => .error .raised

/-- `protected.get("nonce", "")`, as the consuming `UPDATE` compares it. -/
def headerNonce (o : Oracle) (header : Json) : Except Exn (Option String) :=
  bindText o ((header.get? "nonce").getD (.str ""))

/-- `_decode_jws_payload`. -/
def decodeJwsPayload (o : Oracle) (payloadB64 : Json) : Except Exn Json :=
  if payloadB64.truthy then
    orElse (.http 400 (.text "Invalid JWS payload encoding"))
      ((payloadB64.text?.bind b64urlDecode).bind o.jsonLoads)
  else .ok (.obj [])

/-- `consume_nonce` raises when its `UPDATE` found no row. -/
def checkRowcount (rowcount : Nat) : Except Exn Unit :=
  reject (decide (rowcount = 0)) 400 (.text "Invalid, already-used, or expired nonce")

/-- `verify_jws`, with the database it leaves. -/
def verifyJws (o : Oracle) (cfg : Settings) (db : Db) (now : Int) (req : HttpRequest) :
    Except Exn (Json × String) × Db :=
  match authenticate o cfg db.accounts req with
  | .error e => (.error e, db)
  | .ok (j, _, accountId) =>
      match headerNonce o j.header with
      | .error e => (.error e, db)
      | .ok value =>
          let cutoff := nonceCutoff cfg now
          (do
            checkRowcount (consumeRowcount db.nonces value cutoff)
            let payload ← decodeJwsPayload o j.payloadB64
            return (payload, accountId),
          { db with nonces := Nonce.consume db.nonces value cutoff })

/-! ### What a request that authenticates looks like -/

/-- The key a header resolves to, and the account id that goes with it: the stored key of an
active account when the header has a `kid`, the embedded key and no account when it has a `jwk`,
and never both. -/
inductive Resolves (o : Oracle) (cfg : Settings) (accounts : Table String Account)
    (header : Json) (key : o.Key) : String → Prop where
  | kid {kid : String} {row : Account} (hjwk : nonNull (header.get? "jwk") = none)
      (hkid : header.get? "kid" = some (.str kid))
      (hurl : Text.startsWith kid (accountUrlPrefix cfg) = true)
      (hne : kidAccountId cfg kid ≠ "") (hrow : accounts.get (kidAccountId cfg kid) = some row)
      (hstatus : row.status = .valid) (hkey : storedKey o row.publicKey = some key) :
      Resolves o cfg accounts header key (kidAccountId cfg kid)
  | jwk {jwk : Json} (hjwk : nonNull (header.get? "jwk") = some jwk)
      (hkid : nonNull (header.get? "kid") = none) (hkey : o.jwkFromJson jwk = some key) :
      Resolves o cfg accounts header key ""

/-- The request carries the JWS `j`, signed under `key`, which its header resolves to. -/
structure Signed (o : Oracle) (cfg : Settings) (accounts : Table String Account)
    (req : HttpRequest) (j : Jws) (key : o.Key) (accountId : String) : Prop where
  body : ∃ b, o.jsonLoads req.body = some b ∧ b.get? "protected" = some (.str j.protectedB64) ∧
    j.payloadB64 = (b.get? "payload").getD (.str "") ∧ b.get? "signature" = some j.signatureB64
  header : ∃ bytes, b64urlDecode j.protectedB64 = some bytes ∧ o.jsonLoads bytes = some j.header
  alg : j.header.get? "alg" = some (.str j.alg) ∧ j.alg ∈ allowedAlgs
  url : j.header.get? "url" = some (.str req.url)
  resolves : Resolves o cfg accounts j.header key accountId
  signature : ∃ msg text sig, encodeAscii (j.protectedB64 ++ "." ++ o.format j.payloadB64) =
      some msg ∧ j.signatureB64 = .str text ∧ b64urlDecode text = some sig ∧
    o.verify j.alg key msg sig = some true

theorem Json.text?_eq_some {j : Json} {s : String} (h : j.text? = some s) : j = .str s := by
  cases j <;> simp [Json.text?] at h
  rw [h]

theorem nonNull_eq_some {x : Option Json} {j : Json} (h : nonNull x = some j) : x = some j := by
  rcases x with _ | j'
  · cases h
  · cases j' <;> first | exact h | cases h

theorem checkAlg_ok {o : Oracle} {refusal : String} {j : Json} {s : String}
    (h : checkAlg o refusal j = .ok s) : j = .str s ∧ s ∈ allowedAlgs := by
  cases j with
  | str t =>
      simp only [checkAlg] at h
      split at h
      · cases h
        exact ⟨rfl, by assumption⟩
      · cases h
  | arr xs => cases h
  | obj ms => cases h
  | null => cases h
  | bool b => cases h
  | int n => cases h
  | float r => cases h
  | rawStr ps => cases h

theorem checkAlg_of_allowed {o : Oracle} {hd : Json} {refusal alg : String}
    (h : hd.get? "alg" = some (.str alg)) (hmem : alg ∈ allowedAlgs) :
    checkAlg o refusal ((hd.get? "alg").getD (.str "")) = .ok alg := by
  rw [h, Option.getD_some, checkAlg, if_pos hmem]

/-- A member the code reads with the default `""`, and that turns out not to be that default, is
there. -/
theorem get?_of_getD {x : Option Json} {j d : Json} (h : x.getD d = j) (hne : j ≠ d) :
    x = some j := by
  rcases x with _ | j'
  · exact absurd h.symm hne
  · rw [← h]; rfl

theorem parseJws_ok {o : Oracle} {req : HttpRequest} {j : Jws} (h : parseJws o req = .ok j) :
    (∃ b, o.jsonLoads req.body = some b ∧ b.get? "protected" = some (.str j.protectedB64) ∧
      j.payloadB64 = (b.get? "payload").getD (.str "") ∧ b.get? "signature" = some j.signatureB64) ∧
    (∃ bytes, b64urlDecode j.protectedB64 = some bytes ∧ o.jsonLoads bytes = some j.header) ∧
    (j.header.get? "alg" = some (.str j.alg) ∧ j.alg ∈ allowedAlgs) ∧
    j.header.get? "url" = some (.str req.url) := by
  obtain ⟨_, -, h⟩ := ok_of_bind h
  obtain ⟨b, hb, h⟩ := ok_of_bind h
  obtain ⟨_, hpresent, h⟩ := ok_of_bind h
  obtain ⟨p, hp, h⟩ := ok_of_bind h
  obtain ⟨hd, hhd, h⟩ := ok_of_bind h
  obtain ⟨algName, halgName, h⟩ := ok_of_bind h
  obtain ⟨alg, halg, h⟩ := ok_of_bind h
  obtain ⟨url, hurl, h⟩ := ok_of_bind h
  obtain ⟨_, hmatch, h⟩ := ok_of_bind h
  cases h
  simp only [orElse_eq_ok, Option.filter_eq_some_iff, reject_eq_ok, Bool.or_eq_false_iff,
    Bool.not_eq_false'] at hb hpresent hp hhd hmatch
  have hpText := Json.text?_eq_some hp
  refine ⟨⟨b, hb.1, get?_of_getD hpText ?_, rfl, get?_of_getD rfl ?_⟩, ?_, ?_, ?_⟩
  · intro e
    rw [hpText, e] at hpresent
    exact absurd hpresent.1 (by decide)
  · intro e
    have e : (b.get? "signature").getD (.str "") = .str "" := e
    rw [e] at hpresent
    exact absurd hpresent.2 (by decide)
  · exact Option.bind_eq_some_iff.mp hhd
  · obtain ⟨ha, hmem⟩ := checkAlg_ok halg
    rw [dictGet_eq_ok halgName] at ha
    refine ⟨get?_of_getD ha fun e => ?_, hmem⟩
    cases e
    exact absurd hmem (by decide)
  · rw [Json.isStr_iff, dictGet_eq_ok hurl] at hmatch
    exact get?_of_getD hmatch (by simp)

theorem resolveKid_ok {o : Oracle} {cfg : Settings} {accounts : Table String Account}
    {header : Json} {kid : Json} {key : o.Key} {a : String}
    (hjwk : nonNull (header.get? "jwk") = none) (hkid : nonNull (header.get? "kid") = some kid)
    (h : resolveKid o cfg accounts kid = .ok (key, a)) :
    Resolves o cfg accounts header key a := by
  cases kid with
  | str t =>
      obtain ⟨_, hurl, h⟩ := ok_of_bind h
      obtain ⟨_, hne, h⟩ := ok_of_bind h
      obtain ⟨row, hrow, h⟩ := ok_of_bind h
      obtain ⟨_, hstatus, h⟩ := ok_of_bind h
      obtain ⟨k, hk, h⟩ := ok_of_bind h
      cases h
      simp only [orElse_eq_ok, reject_eq_ok, Bool.not_eq_false', decide_eq_false_iff_not,
        not_not] at hurl hne hrow hstatus hk
      exact .kid hjwk (nonNull_eq_some hkid) hurl hne hrow hstatus hk
  | rawStr points =>
      obtain ⟨_, -, h⟩ := ok_of_bind h
      cases h
  | _ => cases h

theorem resolveKeyAndAccount_ok {o : Oracle} {cfg : Settings} {accounts : Table String Account}
    {header : Json} {key : o.Key} {a : String}
    (h : resolveKeyAndAccount o cfg accounts header = .ok (key, a)) :
    Resolves o cfg accounts header key a := by
  unfold resolveKeyAndAccount at h
  cases hj : nonNull (header.get? "jwk") with
  | none =>
      cases hk : nonNull (header.get? "kid") with
      | none => rw [hj, hk] at h; cases h
      | some kid =>
          rw [hj, hk] at h
          exact resolveKid_ok hj hk h
  | some jwk =>
      cases hk : nonNull (header.get? "kid") with
      | some kid => rw [hj, hk] at h; cases h
      | none =>
          rw [hj, hk] at h
          obtain ⟨k, hkey, h⟩ := ok_of_bind h
          cases h
          exact .jwk hj hk (orElse_eq_ok.mp hkey)

/-- **A request that authenticates is signed**, by the key its header resolves to. -/
theorem authenticate_ok {o : Oracle} {cfg : Settings} {accounts : Table String Account}
    {req : HttpRequest} {j : Jws} {key : o.Key} {a : String}
    (h : authenticate o cfg accounts req = .ok (j, key, a)) :
    Signed o cfg accounts req j key a := by
  obtain ⟨j', hj, h⟩ := ok_of_bind h
  obtain ⟨⟨key', a'⟩, hk, h⟩ := ok_of_bind h
  obtain ⟨_, hs, h⟩ := ok_of_bind h
  cases h
  obtain ⟨hbody, hheader, halg, hurl⟩ := parseJws_ok hj
  obtain ⟨msg, hmsg, hs⟩ := ok_of_bind hs
  obtain ⟨sig, hsig, hs⟩ := ok_of_bind hs
  simp only [orElse_eq_ok, reject_eq_ok, decide_eq_false_iff_not, not_not] at hmsg hsig hs
  obtain ⟨t, ht, hsig⟩ := Option.bind_eq_some_iff.mp hsig
  exact ⟨hbody, hheader, halg, hurl, resolveKeyAndAccount_ok hk,
    ⟨msg, t, sig, hmsg, Json.text?_eq_some ht, hsig, hs⟩⟩

/-! ### Requests signed with a `kid` -/

/-- The request carries the JWS `j`, whose `kid` names the account `a`, and its signature verifies
under `key`. -/
structure KidSigned (o : Oracle) (cfg : Settings) (req : HttpRequest) (j : Jws) (key : o.Key)
    (a : String) : Prop where
  parses : parseJws o req = .ok j
  noJwk : nonNull (j.header.get? "jwk") = none
  kid : ∃ kid, j.header.get? "kid" = some (.str kid) ∧
    Text.startsWith kid (accountUrlPrefix cfg) = true ∧ kidAccountId cfg kid = a
  verifies : verifyJwsSignature o j key = .ok ()

/-- The nonce of the JWS is there to spend, and its payload decodes. -/
structure Redeems (o : Oracle) (cfg : Settings) (nonces : Table String Nonce) (now : Int) (j : Jws)
    (payload : Json) : Prop where
  nonce : ∃ value, headerNonce o j.header = .ok value ∧
    consumeRowcount nonces value (nonceCutoff cfg now) ≠ 0
  decodes : decodeJwsPayload o j.payloadB64 = .ok payload

section Kid

variable {o : Oracle} {cfg : Settings} {accounts : Table String Account} {req : HttpRequest}
  {j : Jws} {key : o.Key} {a : String}

theorem resolveKid_of_row {kid : String} {row : Account}
    (hurl : Text.startsWith kid (accountUrlPrefix cfg) = true) (hne : kidAccountId cfg kid ≠ "")
    (hrow : accounts.get (kidAccountId cfg kid) = some row) (hstatus : row.status = .valid)
    (hkey : storedKey o row.publicKey = some key) :
    resolveKid o cfg accounts (.str kid) = .ok (key, kidAccountId cfg kid) := by
  refine bind_of_not_reject (by rw [hurl]; rfl) ?_
  refine bind_of_not_reject (decide_eq_false hne) ?_
  refine bind_of_ok (orElse_eq_ok.mpr hrow) ?_
  refine bind_of_not_reject (decide_eq_false (not_not.mpr hstatus)) ?_
  exact bind_of_ok (orElse_eq_ok.mpr hkey) rfl

/-- **A request that names an account authenticates exactly under its stored key**, and only while
the account is active. -/
theorem authenticate_kid_iff (ha : a ≠ "") : authenticate o cfg accounts req = .ok (j, key, a) ↔
    KidSigned o cfg req j key a ∧
      ∃ row, accounts.get a = some row ∧ row.status = .valid ∧
        storedKey o row.publicKey = some key := by
  constructor
  · intro h
    obtain ⟨j', hj, h⟩ := ok_of_bind h
    obtain ⟨⟨key', a'⟩, hk, h⟩ := ok_of_bind h
    obtain ⟨_, hs, h⟩ := ok_of_bind h
    cases h
    cases resolveKeyAndAccount_ok hk with
    | kid hjwk hkid hurl hne hrow hstatus hkey =>
        exact ⟨⟨hj, hjwk, ⟨_, hkid, hurl, rfl⟩, hs⟩, _, hrow, hstatus, hkey⟩
    | jwk hjwk hkid hkey => exact absurd rfl ha
  · rintro ⟨h, row, hrow, hstatus, hkey⟩
    obtain ⟨kid, hkid, hurl, rfl⟩ := h.kid
    refine bind_of_ok h.parses (bind_of_ok (a := (key, kidAccountId cfg kid)) ?_ ?_)
    swap
    · exact bind_of_ok h.verifies rfl
    rw [resolveKeyAndAccount, h.noJwk, hkid]
    exact resolveKid_of_row hurl ha hrow hstatus hkey

end Kid

/-! ### What a request that does not is answered -/

section Answered

variable {P : Nat → Prop} (o : Oracle) (cfg : Settings) (accounts : Table String Account)
  (req : HttpRequest)

theorem checkAlg_statusIn (h400 : P 400) (refusal : String) (alg : Json) :
    StatusIn P (checkAlg o refusal alg) := by
  cases alg with
  | str s =>
      simp only [checkAlg]
      split
      · exact .ok _
      · exact .http h400
  | arr _ | obj _ => exact .raised
  | _ => exact .http h400

theorem parseJws_statusIn (h400 : P 400) (h415 : P 415) : StatusIn P (parseJws o req) := by
  refine .bind (.reject h415) fun _ => .bind (.orElse (.http h400)) fun _ => ?_
  refine .bind (.reject h400) fun _ => .bind (.orElse (.http h400)) fun _ => ?_
  refine .bind (.orElse (.http h400)) fun _ => .bind (.dictGet _ _) fun _ => ?_
  refine .bind (checkAlg_statusIn o h400 _ _) fun _ => .bind (.dictGet _ _) fun _ => ?_
  exact .bind (.reject h400) fun _ => .ok _

theorem resolveKid_statusIn (h400 : P 400) (h401 : P 401) (kid : Json) :
    StatusIn P (resolveKid o cfg accounts kid) := by
  cases kid with
  | str kid =>
      refine .bind (.reject h400) fun _ => .bind (.reject h400) fun _ => ?_
      refine .bind (.orElse (.http h401)) fun _ => .bind (.reject h401) fun _ => ?_
      exact .bind (.orElse .raised) fun _ => .ok _
  | rawStr points => exact .bind (.reject h400) fun _ => .raised
  | _ => exact .raised

theorem resolveKeyAndAccount_statusIn (h400 : P 400) (h401 : P 401) (header : Json) :
    StatusIn P (resolveKeyAndAccount o cfg accounts header) := by
  unfold resolveKeyAndAccount
  split
  · exact .http h400
  · exact .bind (.orElse .raised) fun _ => .ok _
  · exact resolveKid_statusIn o cfg accounts h400 h401 _
  · exact .http h400

theorem authenticate_statusIn (h400 : P 400) (h401 : P 401) (h415 : P 415) :
    StatusIn P (authenticate o cfg accounts req) := by
  refine .bind (parseJws_statusIn o req h400 h415) fun j => ?_
  refine .bind (resolveKeyAndAccount_statusIn o cfg accounts h400 h401 j.header) fun ⟨key, a⟩ => ?_
  refine .bind ?_ fun _ => .ok _
  exact .bind (.orElse .raised) fun _ => .bind (.orElse .raised) fun _ => .reject h400

theorem headerNonce_statusIn (header : Json) : StatusIn P (headerNonce o header) := by
  unfold headerNonce
  cases (header.get? "nonce").getD (.str "") with
  | int n =>
      simp only [bindText]
      split
      · exact .ok _
      · exact .raised
  | arr _ | obj _ | rawStr _ => exact .raised
  | _ => exact .ok _

theorem decodeJwsPayload_statusIn (h400 : P 400) (payload : Json) :
    StatusIn P (decodeJwsPayload o payload) := by
  unfold decodeJwsPayload
  split
  · exact .orElse (.http h400)
  · exact .ok _

theorem verifyJws_statusIn (db : Db) (now : Int) (h400 : P 400) (h401 : P 401) (h415 : P 415) :
    StatusIn P (verifyJws o cfg db now req).1 := by
  unfold verifyJws
  cases hauth : authenticate o cfg db.accounts req with
  | error e => exact (authenticate_statusIn o cfg db.accounts req h400 h401 h415).of_error hauth
  | ok x =>
      obtain ⟨j, key, a⟩ := x
      cases hn : headerNonce o j.header with
      | error e =>
          simp only [hn]
          exact (headerNonce_statusIn o j.header).of_error hn
      | ok value =>
          simp only [hn]
          refine .bind (.reject h400) fun _ => ?_
          exact .bind (decodeJwsPayload_statusIn o h400 _) fun _ => .ok _

/-- **A request that does not authenticate is answered with an error**, or not at all. -/
theorem authenticate_refuses : Refuses (authenticate o cfg accounts req) :=
  authenticate_statusIn (P := (400 ≤ ·)) o cfg accounts req (by decide) (by decide) (by decide)

theorem headerNonce_refuses (header : Json) : Refuses (headerNonce o header) :=
  headerNonce_statusIn o header

theorem decodeJwsPayload_refuses (payload : Json) : Refuses (decodeJwsPayload o payload) :=
  decodeJwsPayload_statusIn (P := (400 ≤ ·)) o (by decide) payload

theorem verifyJws_refuses (db : Db) (now : Int) : Refuses (verifyJws o cfg db now req).1 :=
  verifyJws_statusIn (P := (400 ≤ ·)) o cfg req db now (by decide) (by decide) (by decide)

end Answered

/-! ### The database afterwards -/

/-- **The footprint.**  `verify_jws` leaves the database alone, or runs the consuming `UPDATE` for
the header's nonce on a request that authenticated. -/
theorem verifyJws_db (o : Oracle) (cfg : Settings) (db : Db) (now : Int) (req : HttpRequest) :
    (verifyJws o cfg db now req).2 = db ∨
    ∃ j key a value, Signed o cfg db.accounts req j key a ∧ headerNonce o j.header = .ok value ∧
      (verifyJws o cfg db now req).2 =
        { db with nonces := Nonce.consume db.nonces value (nonceCutoff cfg now) } := by
  unfold verifyJws
  cases ha : authenticate o cfg db.accounts req with
  | error e => exact .inl rfl
  | ok r =>
      obtain ⟨j, key, a⟩ := r
      cases hn : headerNonce o j.header with
      | error e => exact .inl (by simp only [hn])
      | ok value => exact .inr ⟨j, key, a, value, authenticate_ok ha, hn, by simp only [hn]⟩

/-- Only the nonces are written. -/
theorem verifyJws_frame (o : Oracle) (cfg : Settings) (db : Db) (now : Int) (req : HttpRequest) :
    ∃ nonces, (verifyJws o cfg db now req).2 = { db with nonces := nonces } := by
  rcases verifyJws_db o cfg db now req with e | ⟨_, _, _, _, _, _, e⟩
  · exact ⟨db.nonces, e⟩
  · exact ⟨_, e⟩

theorem verifyJws_accounts (o : Oracle) (cfg : Settings) (db : Db) (now : Int) (req : HttpRequest) :
    (verifyJws o cfg db now req).2.accounts = db.accounts := by
  obtain ⟨nonces, e⟩ := verifyJws_frame o cfg db now req
  rw [e]

/-- A row the consuming `UPDATE` changes is the presented nonce's own, unused before. -/
theorem get_consume_ne {t : Table String Nonce} {value : Option String} {cutoff : Int} {v : String}
    (h : (Nonce.consume t value cutoff).get v ≠ t.get v) :
    value = some v ∧ ∃ r, t.get v = some r ∧ r.used = false ∧
      (Nonce.consume t value cutoff).get v = some { r with used := true } := by
  simp only [Nonce.consume, Table.get_updateWhere] at h ⊢
  cases hr : t.get v with
  | none => simp [hr] at h
  | some r =>
      by_cases hc : Nonce.consumable value cutoff v r = true
      · rw [hr] at h
        simp only [Nonce.consumable, Bool.and_eq_true, decide_eq_true_eq,
          Bool.not_eq_true'] at hc
        exact ⟨hc.1.1, r, rfl, hc.1.2, by simp [Nonce.consumable, hc]⟩
      · simp [hr, hc] at h

/-- What `verify_jws` accepts: a request that authenticates, with a nonce to spend. -/
theorem verifyJws_ok_iff {o : Oracle} {cfg : Settings} {req : HttpRequest} {a : String} {db : Db} {now : Int} {payload : Json} :
    (verifyJws o cfg db now req).1 = .ok (payload, a) ↔
      ∃ j key, authenticate o cfg db.accounts req = .ok (j, key, a) ∧
        Redeems o cfg db.nonces now j payload := by
  constructor
  · intro h
    unfold verifyJws at h
    cases hauth : authenticate o cfg db.accounts req with
    | error e => rw [hauth] at h; cases h
    | ok x =>
        obtain ⟨j, key, a'⟩ := x
        rw [hauth] at h
        cases hn : headerNonce o j.header with
        | error e => simp only [hn] at h; cases h
        | ok value =>
            simp only [hn] at h
            obtain ⟨_, hrow, h⟩ := ok_of_bind h
            obtain ⟨p, hp, h⟩ := ok_of_bind h
            cases h
            rw [checkRowcount, reject_eq_ok, decide_eq_false_iff_not] at hrow
            exact ⟨j, key, rfl, ⟨value, hn, hrow⟩, hp⟩
  · rintro ⟨j, key, hauth, ⟨value, hn, hrow⟩, hp⟩
    simp only [verifyJws, hauth, hn]
    exact bind_of_not_reject (decide_eq_false hrow) (bind_of_ok hp rfl)

/-- What is returned is returned for a signed request whose nonce was there to spend, and is spent. -/
theorem verifyJws_ok {o : Oracle} {cfg : Settings} {db : Db} {now : Int} {req : HttpRequest}
    {payload : Json} {a : String} (h : (verifyJws o cfg db now req).1 = .ok (payload, a)) :
    ∃ j key v r, Signed o cfg db.accounts req j key a ∧ headerNonce o j.header = .ok (some v) ∧
      db.nonces.get v = some r ∧ r.used = false ∧ now - r.createdAt ≤ seconds cfg.nonceTtl ∧
      (verifyJws o cfg db now req).2.nonces.get v = some { r with used := true } := by
  obtain ⟨j, key, hauth, ⟨value, hn, hrow⟩, -⟩ := verifyJws_ok_iff.mp h
  obtain ⟨v, r, rfl, hr, hu, hc⟩ := consumeRowcount_ne_zero.mp hrow
  refine ⟨j, key, v, r, authenticate_ok hauth, hn, hr, hu, ?_, ?_⟩
  · unfold nonceCutoff at hc
    omega
  · simp only [verifyJws, hauth, hn, Nonce.consume, Table.get_updateWhere, hr, Option.map_some]
    simp [Nonce.consumable, hu, hc]

/-- **Verification is sound and leaves a minimal footprint.**  For every request and database:
a request that is accepted is signed, under the key its header resolves to, over exactly its
protected header and payload, and its nonce was unused and unexpired, and is used now; on every
outcome the tables
are unchanged except that the row of the header's nonce may turn used, and that only for a signed
request. -/
theorem verifyJws_sound_minimal (o : Oracle) (cfg : Settings) (db : Db) (now : Int)
    (req : HttpRequest) :
    (∀ payload a, (verifyJws o cfg db now req).1 = .ok (payload, a) →
      ∃ j key, Signed o cfg db.accounts req j key a ∧
        ∃ v r, headerNonce o j.header = .ok (some v) ∧ db.nonces.get v = some r ∧
          r.used = false ∧ now - r.createdAt ≤ seconds cfg.nonceTtl ∧
          (verifyJws o cfg db now req).2.nonces.get v = some { r with used := true }) ∧
    ((verifyJws o cfg db now req).2.accounts = db.accounts ∧
      (verifyJws o cfg db now req).2.orders = db.orders ∧
      (verifyJws o cfg db now req).2.authorizations = db.authorizations ∧
      (verifyJws o cfg db now req).2.certificates = db.certificates ∧
      ∀ v, (verifyJws o cfg db now req).2.nonces.get v ≠ db.nonces.get v →
        (∃ j key a, Signed o cfg db.accounts req j key a ∧
          headerNonce o j.header = .ok (some v)) ∧
        ∃ r, db.nonces.get v = some r ∧ r.used = false ∧
          (verifyJws o cfg db now req).2.nonces.get v = some { r with used := true }) ∧
    ((∀ j key a, ¬ Signed o cfg db.accounts req j key a) →
      (verifyJws o cfg db now req).2 = db) := by
  refine ⟨fun payload a h => ?_, ?_, fun hno => ?_⟩
  · obtain ⟨j, key, v, r, hs, hn, hr, hu, ht, hspent⟩ := verifyJws_ok h
    exact ⟨j, key, hs, v, r, hn, hr, hu, ht, hspent⟩
  · rcases verifyJws_db o cfg db now req with e | ⟨j, key, a, value, hs, hn, e⟩
    · rw [e]
      exact ⟨rfl, rfl, rfl, rfl, fun v h => absurd rfl h⟩
    · rw [e]
      refine ⟨rfl, rfl, rfl, rfl, fun v h => ?_⟩
      obtain ⟨rfl, hrow⟩ := get_consume_ne h
      exact ⟨⟨j, key, a, hs, hn⟩, hrow⟩
  · rcases verifyJws_db o cfg db now req with e | ⟨j, key, a, value, hs, -, -⟩
    · exact e
    · exact absurd hs (hno j key a)

/-- A world with one request: its body is `0`, its protected header `1` and its signature `2`. -/
def Demo.oneRequest : Oracle where
  Key := Unit
  jsonLoads
    | [0] => some (.obj [("protected", .str "AQ"), ("payload", .str ""), ("signature", .str "Ag")])
    | [1] => some (.obj
        [("alg", .str "ES256"), ("url", .str "https://relay.test/acme/new-order"),
         ("nonce", .str "n"), ("kid", .str "https://relay.test/acme/account/a")])
    | _ => none
  jsonLoadsText _ := some .null
  jwkFromJson _ := some ()
  verify _ _ message signature :=
    some (decide (encodeAscii "AQ." = some message) && decide (signature = [2]))
  thumbprint _ := []
  repr _ := ""
  realText r := r
  derSerial _ := none
  leafSerial _ := none
  leafNotAfter _ := none
  derToPemCsr _ := none

/-- An account and an unused nonce. -/
def Demo.oneNonce : Db :=
  { Db.empty with
    accounts := .single "a" ⟨"null", none, .valid, 0⟩
    nonces := .single "n" ⟨false, 0⟩ }

/-- A request that is accepted: its nonce is used then. -/
theorem verifyJws_sound_minimal_run :
    ∃ payload, (verifyJws Demo.oneRequest { relayDomain := "relay.test" } Demo.oneNonce 0
        ⟨"application/jose+json", [0], "https://relay.test/acme/new-order"⟩).1 =
      .ok (payload, "a") ∧
    ∃ v r, Demo.oneNonce.nonces.get v = some r ∧ r.used = false ∧
      (verifyJws Demo.oneRequest { relayDomain := "relay.test" } Demo.oneNonce 0
        ⟨"application/jose+json", [0], "https://relay.test/acme/new-order"⟩).2.nonces.get v =
      some { r with used := true } := by
  have hrun : (match (verifyJws Demo.oneRequest { relayDomain := "relay.test" } Demo.oneNonce 0
      ⟨"application/jose+json", [0], "https://relay.test/acme/new-order"⟩).1 with
    | .ok (_, a) => decide (a = "a")
    | .error _ => false) = true := by decide +kernel
  split at hrun
  case h_2 => cases hrun
  rename_i payload a hok
  obtain rfl := of_decide_eq_true hrun
  obtain ⟨_, _, -, v, r, -, hr, hu, -, hspent⟩ :=
    (verifyJws_sound_minimal _ _ _ _ _).1 payload _ hok
  exact ⟨payload, hok, v, r, hr, hu, hspent⟩

end Jackdaw
