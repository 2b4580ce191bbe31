import Jackdaw.Routes.Account

/-!
# Routes — what escapes the validation of a JWS

`verify_jws` and `_verify_inner_jws` say of themselves which exceptions they raise.  Each decodes
what the client sent and goes on with it untyped; only some of the steps are inside a `try`.  Here
every step that lets another exception out is listed, with what the request must have passed
before it.

* `VerifyEscapes`: the requests on which `verify_jws` raises something else than its 400, 401
  and 415.
* `InnerEscapes`: the same for `_verify_inner_jws` and its 400.
* `validation_total_iff`: these are all.
-/

namespace Jackdaw

open Support

/-- The call returns, or raises an `HTTPException` with one of the statuses. -/
def Handled {α : Type} (statuses : List Nat) (x : Except Exn α) : Prop :=
  (∃ a, x = .ok a) ∨ ∃ status ∈ statuses, ∃ detail, x = .error (.http status detail)

theorem handled_iff_not_raised {α : Type} {statuses : List Nat} {x : Except Exn α}
    (h : StatusIn (· ∈ statuses) x) : Handled statuses x ↔ x ≠ .error .raised := by
  constructor
  · rintro (⟨a, rfl⟩ | ⟨status, -, detail, rfl⟩) e <;> cases e
  · intro hx
    rcases x with (⟨status, detail⟩ | _) | a
    · exact .inr ⟨status, h _ _ rfl, detail, rfl⟩
    · exact absurd rfl hx
    · exact .inl ⟨a, rfl⟩

/-! ### The fields and the header -/

/-- The fields of the object `b` are those of `j`, and the protected header decodes. -/
structure Fields (o : Oracle) (b : Json) (j : Jws) : Prop where
  protectedB64 : b.get? "protected" = some (.str j.protectedB64)
  present : j.protectedB64 ≠ ""
  payloadB64 : (b.get? "payload").getD (.str "") = j.payloadB64
  signatureB64 : (b.get? "signature").getD (.str "") = j.signatureB64
  signed : j.signatureB64.truthy = true
  header : (b64urlDecode j.protectedB64).bind o.jsonLoads = some j.header

/-- The header is not an object, or its `alg` cannot be looked up in a set. -/
inductive BadHeader (header : Json) : Prop where
  | shape (h : header.isObj = false)
  | alg {alg : Json} (halg : header.get? "alg" = some alg) (h : alg.hashable = false)

/-- The header has an algorithm of the list, and the address. -/
structure HeaderPasses (j : Jws) (url : String) : Prop where
  alg : j.header.get? "alg" = some (.str j.alg)
  allowed : j.alg ∈ allowedAlgs
  url : j.header.get? "url" = some (.str url)

/-- The end of a check of the algorithm, and what follows it. -/
theorem checkAlg_bind_iff {o : Oracle} {refusal : String} {alg : Json} {β : Type}
    {k : String → Except Exn β} {y : Except Exn β}
    (hy : ∀ detail, y ≠ .error (.http 400 detail)) :
    (checkAlg o refusal alg >>= k) = y ↔
      alg.hashable = false ∧ y = .error .raised ∨
        ∃ s, alg = .str s ∧ s ∈ allowedAlgs ∧ k s = y := by
  cases alg with
  | str s =>
      by_cases hs : s ∈ allowedAlgs
      · simp [checkAlg, hs, Json.hashable, bind, Except.bind]
      · simp [checkAlg, hs, Json.hashable, bind, Except.bind, (hy _).symm]
  | arr xs | obj ms => simp [checkAlg, Json.hashable, bind, Except.bind, eq_comm]
  | _ => simp [checkAlg, Json.hashable, bind, Except.bind, (hy _).symm]

section Fields

variable {o : Oracle} {b : Json} {β : Type} {detail detail' : Detail} {y : Except Exn β}
  (hy : ∀ detail, y ≠ .error (.http 400 detail))
include hy

/-- Nothing escapes while the fields are read and the header is decoded. -/
theorem fields_bind_iff {k : String → Json → Except Exn β} :
    (do
      reject (!((b.get? "protected").getD (.str "")).truthy ||
        !((b.get? "signature").getD (.str "")).truthy) 400 detail
      let p ← orElse (.http 400 detail') ((b.get? "protected").getD (.str "")).text?
      let header ← orElse (.http 400 detail') ((b64urlDecode p).bind o.jsonLoads)
      k p header) = y ↔
    ∃ j, Fields o b j ∧ k j.protectedB64 j.header = y := by
  simp only [reject_bind_iff (hy _), orElse_bind_iff (hy _), Bool.or_eq_false_iff,
    Bool.not_eq_false']
  constructor
  · rintro ⟨⟨hp, hs⟩, p, htext, header, hheader, h⟩
    have htext := Json.text?_eq_some htext
    rw [htext] at hp
    have hne : p ≠ "" := by simpa [Json.truthy] using hp
    refine ⟨⟨p, _, _, header, ""⟩, ⟨get?_of_getD htext (by simpa using hne), hne, rfl, rfl, hs,
      hheader⟩, h⟩
  · rintro ⟨j, hj, h⟩
    refine ⟨⟨?_, ?_⟩, j.protectedB64, ?_, j.header, hj.header, h⟩
    · simp [hj.protectedB64, Json.truthy, hj.present]
    · rw [hj.signatureB64]
      exact hj.signed
    · rw [hj.protectedB64]
      rfl

/-- Only a bad header escapes while the algorithm and the address are checked. -/
theorem header_bind_iff {header : Json} {refusal url : String} {k : String → Except Exn β} :
    (do
      let algName ← dictGet header "alg"
      let alg ← checkAlg o refusal (algName.getD (.str ""))
      let url' ← dictGet header "url"
      reject (!(url'.getD .null).isStr url) 400 detail
      k alg) = y ↔
    BadHeader header ∧ y = .error .raised ∨
      ∃ alg, header.get? "alg" = some (.str alg) ∧ alg ∈ allowedAlgs ∧
        header.get? "url" = some (.str url) ∧ k alg = y := by
  simp only [dictGet_bind_iff, checkAlg_bind_iff hy, reject_bind_iff (hy _), Bool.not_eq_false',
    Json.isStr_iff]
  constructor
  · rintro (⟨h, e⟩ | ⟨-, ⟨h, e⟩ | ⟨alg, halg, hmem, ⟨h, e⟩ | ⟨-, hurl, h⟩⟩⟩)
    · exact .inl ⟨.shape h, e⟩
    · refine .inl ⟨.alg (get?_of_getD rfl ?_) h, e⟩
      intro e
      rw [e] at h
      cases h
    · exact .inl ⟨.shape h, e⟩
    · refine .inr ⟨alg, get?_of_getD halg ?_, hmem, get?_of_getD hurl (by simp), h⟩
      rintro ⟨⟩
      exact absurd hmem (by decide)
  · rintro (⟨hbad, e⟩ | ⟨alg, halg, hmem, hurl, h⟩)
    · cases hbad with
      | shape h => exact .inl ⟨h, e⟩
      | alg halg h =>
          refine .inr ⟨isObj_of_get? halg, .inl ⟨?_, e⟩⟩
          rw [halg]
          exact h
    · have hobj := isObj_of_get? halg
      refine .inr ⟨hobj, .inr ⟨alg, by rw [halg]; rfl, hmem, .inr ⟨hobj, by rw [hurl]; rfl, h⟩⟩⟩

end Fields

/-! ### The outer JWS -/

/-- The request gets as far as its body, an object. -/
structure Arrives (o : Oracle) (req : HttpRequest) (b : Json) : Prop where
  contentType : Text.contains req.contentType "application/jose+json" = true
  body : o.jsonLoads req.body = some b
  isObj : b.isObj = true

/-- The request gets as far as the look-up of the key, with the JWS `j`. -/
structure Parsed (o : Oracle) (req : HttpRequest) (j : Jws) : Prop where
  fields : ∃ b, Arrives o req b ∧ Fields o b j
  header : HeaderPasses j req.url

theorem Fields.withAlg {o : Oracle} {b : Json} {j : Jws} (h : Fields o b j) (alg : String) :
    Fields o b { j with alg } :=
  ⟨h.protectedB64, h.present, h.payloadB64, h.signatureB64, h.signed, h.header⟩

/-- How reading the request ends, short of a refusal. -/
theorem parseJws_eq_iff {o : Oracle} {req : HttpRequest} {y : Except Exn Jws}
    (hy : ∀ status detail, y ≠ .error (.http status detail)) : parseJws o req = y ↔
      (∃ b j, Arrives o req b ∧ Fields o b j ∧ BadHeader j.header) ∧ y = .error .raised ∨
        ∃ j, Parsed o req j ∧ y = .ok j := by
  unfold parseJws
  rw [reject_bind_iff (hy _ _), orElse_bind_iff (hy _ _)]
  constructor
  · rintro ⟨hct, b, hb, h⟩
    obtain ⟨hb, hobj⟩ := Option.filter_eq_some_iff.mp hb
    have harr : Arrives o req b := ⟨by simpa using hct, hb, hobj⟩
    obtain ⟨j, hj, h⟩ := (fields_bind_iff (hy 400)).mp h
    rcases (header_bind_iff (hy 400)).mp h with ⟨hbad, e⟩ | ⟨alg, halg, hmem, hurl, rfl⟩
    · exact .inl ⟨⟨b, j, harr, hj, hbad⟩, e⟩
    · refine .inr ⟨{ j with alg }, ⟨⟨b, harr, hj.withAlg alg⟩, ⟨halg, hmem, hurl⟩⟩, ?_⟩
      rw [hj.payloadB64, hj.signatureB64]
      rfl
  · intro h
    have hfilter : ∀ {b}, Arrives o req b → (o.jsonLoads req.body).filter Json.isObj = some b :=
      fun h => Option.filter_eq_some_iff.mpr ⟨h.body, h.isObj⟩
    rcases h with ⟨⟨b, j, harr, hj, hbad⟩, e⟩ | ⟨j, ⟨⟨b, harr, hj⟩, hpass⟩, rfl⟩
    · refine ⟨by simpa using harr.contentType, b, hfilter harr, (fields_bind_iff (hy 400)).mpr ?_⟩
      exact ⟨j, hj, (header_bind_iff (hy 400)).mpr (.inl ⟨hbad, e⟩)⟩
    · refine ⟨by simpa using harr.contentType, b, hfilter harr, (fields_bind_iff (hy 400)).mpr ?_⟩
      refine ⟨j, hj, (header_bind_iff (hy 400)).mpr (.inr ⟨j.alg, hpass.alg, hpass.allowed, hpass.url, ?_⟩)⟩
      rw [hj.payloadB64, hj.signatureB64]
      rfl

/-- What `kid` may be that is not a string the prefix test refuses or a look-up can take. -/
def BadKid (cfg : Settings) : Json → Prop
  | .str _ => False
  | .rawStr points => rawStartsWith points (accountUrlPrefix cfg) = true
  | _ => True

/-- The header has no usable key: its `jwk` does not parse, its `kid` is not text, or the key
stored for the account it names does not parse. -/
inductive BadKey (o : Oracle) (cfg : Settings) (accounts : Table String Account) (header : Json) :
    Prop where
  | jwk {jwk : Json} (hjwk : nonNull (header.get? "jwk") = some jwk)
      (hkid : nonNull (header.get? "kid") = none) (h : o.jwkFromJson jwk = none)
  | kid {kid : Json} (hjwk : nonNull (header.get? "jwk") = none)
      (hkid : nonNull (header.get? "kid") = some kid) (h : BadKid cfg kid)
  | stored {kid : String} {row : Account} (hjwk : nonNull (header.get? "jwk") = none)
      (hkid : header.get? "kid" = some (.str kid))
      (hurl : Text.startsWith kid (accountUrlPrefix cfg) = true)
      (hne : kidAccountId cfg kid ≠ "") (hrow : accounts.get (kidAccountId cfg kid) = some row)
      (hstatus : row.status = .valid) (h : storedKey o row.publicKey = none)

section Key

variable {o : Oracle} {cfg : Settings} {accounts : Table String Account} {header : Json}

/-- A value whose absence raises, returned in some form. -/
theorem orElse_raised_pure_iff {α β : Type} {x : Option α} {f : α → β} :
    (orElse .raised x >>= fun a => pure (f a)) = .error .raised ↔ x = none := by
  cases x with
  | none => exact ⟨fun _ => rfl, fun _ => rfl⟩
  | some a => exact ⟨nofun, nofun⟩

theorem resolveKidText_eq_raised_iff {kid : String} :
    resolveKidText o cfg accounts kid = .error .raised ↔
      Text.startsWith kid (accountUrlPrefix cfg) = true ∧ kidAccountId cfg kid ≠ "" ∧
        ∃ row, accounts.get (kidAccountId cfg kid) = some row ∧ row.status = .valid ∧
          storedKey o row.publicKey = none := by
  unfold resolveKidText
  rw [reject_bind_iff (by simp), reject_bind_iff (by simp), orElse_bind_iff (by simp)]
  simp only [Bool.not_eq_false', decide_eq_false_iff_not]
  refine and_congr_right fun _ => and_congr_right fun _ => exists_congr fun row => ?_
  refine and_congr_right fun _ => ?_
  rw [reject_bind_iff (by simp), decide_eq_false_iff_not, not_not]
  exact and_congr_right fun _ => orElse_raised_pure_iff

theorem resolveKid_eq_raised_iff {kid : Json} (hjwk : nonNull (header.get? "jwk") = none)
    (hkid : nonNull (header.get? "kid") = some kid) :
    resolveKid o cfg accounts kid = .error .raised ↔ BadKey o cfg accounts header := by
  have hbad : (BadKid cfg kid ∨ ∃ t, kid = .str t ∧
      resolveKidText o cfg accounts t = .error .raised) ↔ BadKey o cfg accounts header := by
    constructor
    · rintro (h | ⟨t, rfl, h⟩)
      · exact .kid hjwk hkid h
      · obtain ⟨hurl, hne, row, hrow, hstatus, h⟩ := resolveKidText_eq_raised_iff.mp h
        exact .stored hjwk (nonNull_eq_some hkid) hurl hne hrow hstatus h
    · rintro (⟨hjwk', -, -⟩ | ⟨-, hkid', h⟩ | ⟨-, hkid', hurl, hne, hrow, hstatus, h⟩)
      · rw [hjwk] at hjwk'
        cases hjwk'
      · rw [hkid] at hkid'
        cases hkid'
        exact .inl h
      · rw [hkid'] at hkid
        cases hkid
        exact .inr ⟨_, rfl, resolveKidText_eq_raised_iff.mpr ⟨hurl, hne, _, hrow, hstatus, h⟩⟩
  rw [← hbad]
  cases kid with
  | str t => simp [resolveKid, BadKid]
  | rawStr points =>
      unfold resolveKid
      rw [reject_bind_iff (by simp)]
      simp [BadKid]
  | _ => simp [resolveKid, BadKid]

theorem resolveKeyAndAccount_eq_raised_iff :
    resolveKeyAndAccount o cfg accounts header = .error .raised ↔
      BadKey o cfg accounts header := by
  unfold resolveKeyAndAccount
  cases hjwk : nonNull (header.get? "jwk") with
  | some jwk =>
      cases hkid : nonNull (header.get? "kid") with
      | some kid =>
          refine ⟨nofun, ?_⟩
          rintro (⟨-, hkid', -⟩ | ⟨hjwk', -, -⟩ | ⟨hjwk', -, -, -, -, -, -⟩) <;> simp_all
      | none =>
          refine orElse_raised_pure_iff.trans ⟨fun h => .jwk hjwk hkid h, ?_⟩
          rintro (⟨hjwk', -, h⟩ | ⟨hjwk', -, -⟩ | ⟨hjwk', -, -, -, -, -, -⟩)
          · rw [hjwk] at hjwk'
            cases hjwk'
            exact h
          all_goals simp_all
  | none =>
      cases hkid : nonNull (header.get? "kid") with
      | some kid => exact resolveKid_eq_raised_iff hjwk hkid
      | none =>
          refine ⟨nofun, ?_⟩
          rintro (⟨hjwk', -, -⟩ | ⟨-, hkid', -⟩ | ⟨-, hkid', -, -, -, -, -⟩) <;>
            simp_all [nonNull]

theorem resolveKeyAndAccount_eq_ok_iff {key : o.Key} {a : String} :
    resolveKeyAndAccount o cfg accounts header = .ok (key, a) ↔
      Resolves o cfg accounts header key a := by
  refine ⟨resolveKeyAndAccount_ok, fun h => ?_⟩
  cases h with
  | kid hjwk hkid hurl hne hrow hstatus hkey =>
      rw [resolveKeyAndAccount, hjwk, hkid]
      exact resolveKid_of_row hurl hne hrow hstatus hkey
  | jwk hjwk hkid hkey =>
      rw [resolveKeyAndAccount, hjwk, hkid]
      exact bind_of_ok (orElse_eq_ok.mpr hkey) rfl

end Key

/-! ### The signature and the nonce -/

/-- The payload as it is signed is not ASCII, or the signature is not base64url text. -/
def BadSignature (o : Oracle) (j : Jws) : Prop :=
  (∃ c ∈ (o.format j.payloadB64).toList, 128 ≤ c.toNat) ∨
    ∀ text, j.signatureB64 = .str text → b64urlDecode text = none

/-- The signature verifies under the key. -/
def Verified (o : Oracle) (j : Jws) (key : o.Key) : Prop :=
  ∃ msg sig, signingInput o j = some msg ∧ signatureBytes j = some sig ∧
    o.verify j.alg key msg sig = some true

/-- What cannot be bound as a parameter. -/
def Unbindable : Json → Prop
  | .int n => ¬ (-2 ^ 63 ≤ n ∧ n < 2 ^ 63)
  | .rawStr _ => True
  | .arr _ => True
  | .obj _ => True
  | _ => False

theorem ascii_of_urlsafeB64decode {s : String} {bytes : List UInt8}
    (h : urlsafeB64decode s = some bytes) : ∀ c ∈ s.toList, c.toNat < 128 := by
  unfold urlsafeB64decode at h
  split at h
  · rename_i hall
    exact fun c hc => of_decide_eq_true (List.all_eq_true.mp hall c hc)
  · cases h

/-- What decodes is ASCII. -/
theorem ascii_of_b64urlDecode {s : String} {bytes : List UInt8} (h : b64urlDecode s = some bytes) :
    ∀ c ∈ s.toList, c.toNat < 128 := by
  intro c hc
  refine ascii_of_urlsafeB64decode h c ?_
  split
  · rw [String.toList_append]
    exact List.mem_append_left _ hc
  · exact hc

theorem signingInput_eq_none_iff {o : Oracle} {b : Json} {j : Jws} (hj : Fields o b j) :
    signingInput o j = none ↔ ∃ c ∈ (o.format j.payloadB64).toList, 128 ≤ c.toNat := by
  obtain ⟨bytes, hbytes, -⟩ := Option.bind_eq_some_iff.mp hj.header
  have hp := ascii_of_b64urlDecode hbytes
  have hall : ((j.protectedB64 ++ "." ++ o.format j.payloadB64).toList.all
      fun c => decide (c.toNat < 128)) = true ↔
      ∀ c ∈ (o.format j.payloadB64).toList, c.toNat < 128 := by
    simp only [String.toList_append, List.all_append, Bool.and_eq_true, List.all_eq_true,
      decide_eq_true_eq]
    exact ⟨fun h => h.2, fun h => ⟨⟨hp, by simp⟩, h⟩⟩
  unfold signingInput encodeAscii
  split
  · rename_i h
    have h := hall.mp h
    simp only [reduceCtorEq, false_iff]
    rintro ⟨c, hc, hge⟩
    have := h c hc
    omega
  · rename_i h
    rw [hall] at h
    push Not at h
    exact ⟨fun _ => h, fun _ => rfl⟩

theorem signatureBytes_eq_none_iff {j : Jws} :
    signatureBytes j = none ↔ ∀ text, j.signatureB64 = .str text → b64urlDecode text = none := by
  unfold signatureBytes
  cases j.signatureB64 <;> simp [Json.text?]

theorem verifyJwsSignature_eq_raised_iff {o : Oracle} {b : Json} {j : Jws} {key : o.Key}
    (hj : Fields o b j) : verifyJwsSignature o j key = .error .raised ↔ BadSignature o j := by
  unfold BadSignature
  rw [← signingInput_eq_none_iff hj, ← signatureBytes_eq_none_iff]
  unfold verifyJwsSignature
  cases hmsg : signingInput o j with
  | none => exact ⟨fun _ => .inl rfl, fun _ => rfl⟩
  | some msg =>
      cases hsig : signatureBytes j with
      | none => exact ⟨fun _ => .inr rfl, fun _ => rfl⟩
      | some sig =>
          refine ⟨fun h => ?_, by simp⟩
          have h : reject _ _ _ = .error .raised := h
          unfold reject at h
          split at h <;> cases h

theorem verifyJwsSignature_eq_ok_iff {o : Oracle} {j : Jws} {key : o.Key} :
    verifyJwsSignature o j key = .ok () ↔ Verified o j key := by
  constructor
  · intro h
    obtain ⟨msg, hmsg, h⟩ := ok_of_bind h
    obtain ⟨sig, hsig, h⟩ := ok_of_bind h
    simp only [orElse_eq_ok, reject_eq_ok, decide_eq_false_iff_not, not_not] at hmsg hsig h
    exact ⟨msg, sig, hmsg, hsig, h⟩
  · rintro ⟨msg, sig, hmsg, hsig, h⟩
    refine bind_of_ok (orElse_eq_ok.mpr hmsg) (bind_of_ok (orElse_eq_ok.mpr hsig) ?_)
    exact reject_eq_ok.mpr (decide_eq_false (not_not.mpr h))

theorem headerNonce_eq_raised_iff {o : Oracle} {header : Json} :
    headerNonce o header = .error .raised ↔
      Unbindable ((header.get? "nonce").getD (.str "")) := by
  unfold headerNonce
  cases (header.get? "nonce").getD (.str "") with
  | int n =>
      simp only [bindText, Unbindable]
      split
      · next hbound => exact iff_of_false (by simp) (not_not.mpr hbound)
      · next hbound => exact iff_of_true rfl hbound
  | _ => simp [bindText, Unbindable]

/-- The requests on which `verify_jws` raises something else than it says. -/
inductive VerifyEscapes (o : Oracle) (cfg : Settings) (accounts : Table String Account)
    (req : HttpRequest) : Prop where
  | header {b : Json} {j : Jws} (hreq : Arrives o req b) (hj : Fields o b j)
      (h : BadHeader j.header)
  | key {j : Jws} (hj : Parsed o req j) (h : BadKey o cfg accounts j.header)
  | signature {j : Jws} {key : o.Key} {a : String} (hj : Parsed o req j)
      (hkey : Resolves o cfg accounts j.header key a) (h : BadSignature o j)
  | nonce {j : Jws} {key : o.Key} {a : String} (hj : Parsed o req j)
      (hkey : Resolves o cfg accounts j.header key a) (hsig : Verified o j key)
      (h : Unbindable ((j.header.get? "nonce").getD (.str "")))

section Outer

variable {o : Oracle} {cfg : Settings} {db : Db} {now : Int} {req : HttpRequest}

theorem parseJws_eq_raised_iff : parseJws o req = .error .raised ↔
    ∃ b j, Arrives o req b ∧ Fields o b j ∧ BadHeader j.header := by
  rw [parseJws_eq_iff (by simp)]
  simp

theorem parseJws_eq_ok_iff {j : Jws} : parseJws o req = .ok j ↔ Parsed o req j := by
  rw [parseJws_eq_iff (by simp)]
  simp

theorem authenticate_eq_ok_iff {accounts : Table String Account} {j : Jws} {key : o.Key}
    {a : String} : authenticate o cfg accounts req = .ok (j, key, a) ↔
      Parsed o req j ∧ Resolves o cfg accounts j.header key a ∧ Verified o j key := by
  rw [← parseJws_eq_ok_iff, ← resolveKeyAndAccount_eq_ok_iff, ← verifyJwsSignature_eq_ok_iff]
  constructor
  · intro h
    obtain ⟨j', hj, h⟩ := ok_of_bind h
    obtain ⟨⟨key', a'⟩, hkey, h⟩ := ok_of_bind h
    obtain ⟨_, hsig, h⟩ := ok_of_bind h
    cases h
    exact ⟨hj, hkey, hsig⟩
  · rintro ⟨hj, hkey, hsig⟩
    exact bind_of_ok hj (bind_of_ok hkey (bind_of_ok hsig rfl))

/-- Nothing escapes once the nonce is bound. -/
theorem verifyJws_eq_raised_iff : (verifyJws o cfg db now req).1 = .error .raised ↔
    authenticate o cfg db.accounts req = .error .raised ∨
      ∃ j key a, authenticate o cfg db.accounts req = .ok (j, key, a) ∧
        headerNonce o j.header = .error .raised := by
  unfold verifyJws
  cases hauth : authenticate o cfg db.accounts req with
  | error e => simp
  | ok x =>
      obtain ⟨j, key, a⟩ := x
      cases hn : headerNonce o j.header with
      | error e => simp [hn]
      | ok value =>
          have hdecode : ∀ f : Json → Json × String, (decodeJwsPayload o j.payloadB64 >>= fun p => pure (f p)) ≠
              (.error .raised : Except Exn (Json × String)) := by
            intro f h
            unfold decodeJwsPayload at h
            split at h
            · obtain ⟨p, -, h⟩ := (orElse_bind_iff (by simp)).mp h
              cases h
            · cases h
          simp only [hn, checkRowcount, reduceCtorEq, false_or, Except.ok.injEq, Prod.mk.injEq]
          refine ⟨fun h => absurd ((reject_bind_iff (by simp)).mp h).2 (hdecode _), ?_⟩
          rintro ⟨_, _, _, ⟨rfl, -, -⟩, h⟩
          rw [hn] at h
          cases h

theorem authenticate_eq_raised_iff {accounts : Table String Account} :
    authenticate o cfg accounts req = .error .raised ↔
      parseJws o req = .error .raised ∨ ∃ j, Parsed o req j ∧
        (BadKey o cfg accounts j.header ∨
          ∃ key a, Resolves o cfg accounts j.header key a ∧ BadSignature o j) := by
  unfold authenticate
  rw [bind_eq_iff]
  constructor
  · rintro (⟨e, he, ⟨⟩⟩ | ⟨j, hj, h⟩)
    · exact .inl he
    have hj := parseJws_eq_ok_iff.mp hj
    refine .inr ⟨j, hj, ?_⟩
    rcases bind_eq_iff.mp h with ⟨e, he, ⟨⟩⟩ | ⟨⟨key, a⟩, hkey, h⟩
    · exact .inl (resolveKeyAndAccount_eq_raised_iff.mp he)
    rcases bind_eq_iff.mp h with ⟨e, he, ⟨⟩⟩ | ⟨_, -, h⟩
    · obtain ⟨b, -, hf⟩ := hj.fields
      exact .inr ⟨key, a, resolveKeyAndAccount_ok hkey, (verifyJwsSignature_eq_raised_iff hf).mp he⟩
    · cases h
  · rintro (h | ⟨j, hj, h⟩)
    · exact .inl ⟨_, h, rfl⟩
    refine .inr ⟨j, parseJws_eq_ok_iff.mpr hj, bind_eq_iff.mpr ?_⟩
    rcases h with h | ⟨key, a, hkey, h⟩
    · exact .inl ⟨_, resolveKeyAndAccount_eq_raised_iff.mpr h, rfl⟩
    · obtain ⟨b, -, hf⟩ := hj.fields
      refine .inr ⟨(key, a), resolveKeyAndAccount_eq_ok_iff.mpr hkey, bind_of_error ?_⟩
      exact (verifyJwsSignature_eq_raised_iff hf).mpr h

/-- **What escapes `verify_jws`.** -/
theorem verifyJws_escapes_iff : (verifyJws o cfg db now req).1 = .error .raised ↔
    VerifyEscapes o cfg db.accounts req := by
  rw [verifyJws_eq_raised_iff, authenticate_eq_raised_iff, parseJws_eq_raised_iff]
  simp only [authenticate_eq_ok_iff, headerNonce_eq_raised_iff]
  constructor
  · rintro ((⟨b, j, hreq, hj, h⟩ | ⟨j, hj, h | ⟨key, a, hkey, h⟩⟩) |
      ⟨j, key, a, ⟨hj, hkey, hsig⟩, h⟩)
    · exact .header hreq hj h
    · exact .key hj h
    · exact .signature hj hkey h
    · exact .nonce hj hkey hsig h
  · rintro (⟨hreq, hj, h⟩ | ⟨hj, h⟩ | ⟨hj, hkey, h⟩ | ⟨hj, hkey, hsig, h⟩)
    · exact .inl (.inl ⟨_, _, hreq, hj, h⟩)
    · exact .inl (.inr ⟨_, hj, .inl h⟩)
    · exact .inl (.inr ⟨_, hj, .inr ⟨_, _, hkey, h⟩⟩)
    · exact .inr ⟨_, _, _, ⟨hj, hkey, hsig⟩, h⟩

end Outer

/-! ### The inner JWS -/

/-- The inner JWSs on which `_verify_inner_jws` raises something else than its 400: the header is
bad, or the payload that was signed is not an object. -/
inductive InnerEscapes (o : Oracle) (inner : Json) (url : String) : Prop where
  | header {j : Jws} (hj : Fields o inner j) (h : BadHeader j.header)
  | payload {j : Jws} {jwk payload : Json} (hj : Fields o inner j) (hheader : HeaderPasses j url)
      (hjwk : nonNull (j.header.get? "jwk") = some jwk)
      (hkid : nonNull (j.header.get? "kid") = none) (hsig : innerSignatureValid o j jwk = true)
      (hpayload : (j.payloadB64.text?.bind b64urlDecode).bind o.jsonLoads = some payload)
      (h : payload.isObj = false)

section Inner

variable {o : Oracle} {inner : Json} {accountUrl oldPublicKey url : String}

/-- **What escapes `_verify_inner_jws`.** -/
theorem verifyInnerJws_escapes_iff :
    verifyInnerJws o inner accountUrl oldPublicKey url = .error .raised ↔
      InnerEscapes o inner url := by
  have hy : ∀ detail, (.error .raised : Except Exn Json) ≠ .error (.http 400 detail) := by simp
  unfold verifyInnerJws
  rw [fields_bind_iff hy]
  constructor
  · rintro ⟨j, hj, h⟩
    rcases (header_bind_iff hy).mp h with ⟨hbad, -⟩ | ⟨alg, halg, hmem, hurl, h⟩
    · exact .header hj hbad
    obtain ⟨jwk, hjwk, h⟩ := (orElse_bind_iff (hy _)).mp h
    obtain ⟨hkid, h⟩ := (reject_bind_iff (hy _)).mp h
    obtain ⟨hsig, h⟩ := (reject_bind_iff (hy _)).mp h
    obtain ⟨payload, hpayload, h⟩ := (orElse_bind_iff (hy _)).mp h
    rw [hj.payloadB64, hj.signatureB64] at hsig
    rw [hj.payloadB64] at hpayload
    rcases dictGet_bind_iff.mp h with ⟨hobj, -⟩ | ⟨-, h⟩
    · exact .payload (hj.withAlg alg) ⟨halg, hmem, hurl⟩ hjwk (by simpa using hkid)
        (by simpa using hsig) hpayload hobj
    · -- behind an object every refusal is a 400
      obtain ⟨-, h⟩ := (reject_bind_iff (hy _)).mp h
      obtain ⟨oldKey, -, h⟩ := (orElse_bind_iff (hy _)).mp h
      obtain ⟨-, h⟩ := (reject_bind_iff (hy _)).mp h
      cases h
  · intro h
    cases h with
    | header hj h => exact ⟨_, hj, (header_bind_iff hy).mpr (.inl ⟨h, rfl⟩)⟩
    | @payload j jwk payload hj hheader hjwk hkid hsig hpayload h =>
        refine ⟨j, hj, (header_bind_iff hy).mpr (.inr
          ⟨j.alg, hheader.alg, hheader.allowed, hheader.url, ?_⟩)⟩
        rw [hj.payloadB64, hj.signatureB64]
        refine (orElse_bind_iff (hy _)).mpr ⟨jwk, hjwk, (reject_bind_iff (hy _)).mpr ⟨?_, ?_⟩⟩
        · rw [hkid]
          rfl
        refine (reject_bind_iff (hy _)).mpr ⟨by simpa using hsig, ?_⟩
        exact (orElse_bind_iff (hy _)).mpr ⟨payload, hpayload, dictGet_bind_iff.mpr (.inl ⟨h, rfl⟩)⟩

end Inner

/-! ### Every request -/

/-- **Exactly these escape.**  `verify_jws` returns or raises one of its three statuses on every
request but those of `VerifyEscapes`, and `_verify_inner_jws` returns or raises its 400 on every
object but those of `InnerEscapes`. -/
theorem validation_total_iff (o : Oracle) (cfg : Settings) (db : Db) (now : Int)
    (req : HttpRequest) (members : List (String × Json))
    (expectedAccountUrl oldPublicKey keyChangeUrl : String) :
    (Handled [400, 401, 415] (verifyJws o cfg db now req).1 ↔
      ¬ VerifyEscapes o cfg db.accounts req) ∧
    (Handled [400] (verifyInnerJws o (.obj members) expectedAccountUrl oldPublicKey keyChangeUrl) ↔
      ¬ InnerEscapes o (.obj members) keyChangeUrl) := by
  constructor
  · rw [handled_iff_not_raised
      (verifyJws_statusIn o cfg req db now (by simp) (by simp) (by simp)), Ne,
      verifyJws_escapes_iff]
  · rw [handled_iff_not_raised (verifyInnerJws_statusIn o (by simp) _ _ _ _), Ne,
      verifyInnerJws_escapes_iff]

namespace Demo

/-- A body whose protected header is the base64url of `[]`. -/
def arrayHeader : List (String × Json) :=
  [("protected", .str "W10"), ("payload", .str ""), ("signature", .str "AA")]

/-- The bytes of that body. -/
def arrayHeaderText : String :=
  "\x7b\"protected\":\"W10\",\"payload\":\"\",\"signature\":\"AA\"\x7d"

/-- A decoder that knows the body and `[]`, next to key and signature primitives that raise. -/
def arrayOracle : Oracle where
  Key := Unit
  jsonLoads bytes :=
    if encodeAscii arrayHeaderText = some bytes then some (.obj arrayHeader)
    else if encodeAscii "[]" = some bytes then some (.arr [])
    else none
  jsonLoadsText _ := none
  jwkFromJson _ := none
  verify _ _ _ _ := none
  thumbprint _ := []
  repr _ := ""
  realText r := r
  derSerial _ := none
  leafSerial _ := none
  leafNotAfter _ := none
  derToPemCsr _ := none

end Demo

/-- A header that is an array has no `get`: the body, which is well formed, ends both functions
with an `AttributeError`. -/
theorem array_header_escapes :
    (¬ ∀ o cfg db now req, Handled [400, 401, 415] (verifyJws o cfg db now req).1) ∧
    ¬ ∀ o members url old kcUrl, Handled [400] (verifyInnerJws o (.obj members) url old kcUrl) := by
  have hfields : Fields Demo.arrayOracle (.obj Demo.arrayHeader)
      ⟨"W10", .str "", .str "AA", .arr [], ""⟩ :=
    ⟨rfl, by decide, rfl, rfl, by decide, rfl⟩
  constructor
  · intro h
    have h := h Demo.arrayOracle ⟨"relay.test", 600, 10000, "", 80, 5, 3, 2, 0, 604800, ""⟩ .empty 0
      ⟨"application/jose+json", (encodeAscii Demo.arrayHeaderText).getD [],
        "https://relay.test/acme/new-order"⟩
    rw [handled_iff_not_raised
      (verifyJws_statusIn _ _ _ _ _ (by simp) (by simp) (by simp))] at h
    refine h (verifyJws_escapes_iff.mpr (.header ⟨?_, ?_, ?_⟩ hfields (.shape rfl)))
    · decide +kernel
    · rfl
    · rfl
  · intro h
    have h := h Demo.arrayOracle Demo.arrayHeader "" "" ""
    rw [handled_iff_not_raised (verifyInnerJws_statusIn _ (by simp) _ _ _ _)] at h
    exact h (verifyInnerJws_escapes_iff.mpr (.header hfields (.shape rfl)))

end Jackdaw
