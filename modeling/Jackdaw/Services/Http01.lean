import Jackdaw.Config
import Jackdaw.Http
import Jackdaw.Support.IpAddress

/-!
# Services — HTTP-01 validation

`http01.py`: `_resolve_and_check`, one attempt, and the retries of `validate_http01`.  What the
resolver and the web server of the client answer is given, attempt by attempt (`Network`).

* `validateHttp01_proof_iff`: a validation that returns has been shown the key authorization,
  exactly where at least one attempt is configured.  The retry loop falls through into success, so
  with `challenge_retries` at zero or below nothing is asked and everything passes
  (`validated_without_proof`).
* `ssrf_guard_iff`: the address an attempt connects to is no loopback, link-local, unspecified,
  multicast or reserved one, exactly where the answer of the resolver does not lead with `::` or an
  IPv4-mapped form of such an address.  The networks are looked at one family at a time, so those
  two pass (`connects_to_itself`).
-/

namespace Jackdaw

open Support

/-! ### The guard -/

/-- `_BLOCKED_NETWORKS`. -/
def blockedNetworks : List IpNetwork :=
  [.v4 ⟨127 * 2 ^ 24, by decide⟩ 8, .v4 ⟨169 * 2 ^ 24 + 254 * 2 ^ 16, by decide⟩ 16,
    .v4 ⟨0, by decide⟩ 8, .v4 ⟨224 * 2 ^ 24, by decide⟩ 4, .v4 ⟨240 * 2 ^ 24, by decide⟩ 4,
    .v6 ⟨1, by decide⟩ 128, .v6 ⟨0xfe80 * 2 ^ 112, by decide⟩ 10,
    .v6 ⟨0xff00 * 2 ^ 112, by decide⟩ 8]

/-- `_is_blocked`. -/
def isBlocked (ip : String) : Bool :=
  match ipAddress ip with
  | none => true
  | some addr => blockedNetworks.any (·.contains addr)

/-- What `http01.py` raises: an `Http01ValidationError`, or anything else. -/
inductive Http01Exn where
  | validation (detail acmeType : String)
  | other (text : String)

inductive AddressFamily where
  | inet | inet6
deriving DecidableEq

/-- An entry of `getaddrinfo`: its family and its address; one of family `AF_INET` has an IPv4
address. -/
structure AddrInfo where
  family : AddressFamily
  ip : String
  inet : family = .inet → ∃ addr, ipAddress ip = some (.v4 addr)

/-- An entry of the other family, whatever its text. -/
def AddrInfo.ofInet6 (ip : String) : AddrInfo := ⟨.inet6, ip, by simp⟩

/-- What `getaddrinfo` does. -/
inductive Resolved where
  | addresses (results : List AddrInfo)
  | osError (text : String)
  | raised (text : String)

/-- The loop of `_resolve_and_check`, with `chosen_ipv4` and `chosen_any`. -/
def checkAddresses (o : Oracle) (hostname : String) :
    List AddrInfo → Option String → Option String → Except Http01Exn (Option String × Option String)
  | [], chosenIpv4, chosenAny => .ok (chosenIpv4, chosenAny)
  | x :: xs, chosenIpv4, chosenAny =>
      if isBlocked x.ip then
        .error (.validation ("Domain " ++ o.repr (.str hostname) ++ " resolves to blocked address " ++
          o.repr (.str x.ip)) AcmeErrors.dns)
      else
        checkAddresses o hostname xs
          (if x.family = .inet then chosenIpv4.or (some x.ip) else chosenIpv4)
          (chosenAny.or (some x.ip))

/-- `a or b`, on `str | None`. -/
def pyOr (a b : Option String) : Option String := if a = some "" then b else a.or b

/-- `_resolve_and_check`. -/
def resolveAndCheck (o : Oracle) (hostname : String) : Resolved → Except Http01Exn String
  | .osError text => .error (.validation
      ("DNS resolution failed for " ++ o.repr (.str hostname) ++ ": " ++ text) AcmeErrors.dns)
  | .raised text => .error (.other text)
  | .addresses [] => .error (.validation
      ("No DNS records found for " ++ o.repr (.str hostname)) AcmeErrors.dns)
  | .addresses results => do
      let (chosenIpv4, chosenAny) ← checkAddresses o hostname results none none
      match pyOr chosenIpv4 chosenAny with
      | some ip => .ok ip
      | none => .error (.other "")

/-! ### One attempt -/

/-- `_MAX_RESPONSE_BYTES`. -/
def maxResponseBytes : Nat := 4096

/-- What `client.get` does. -/
inductive HttpOutcome where
  | response (statusCode : Int) (content : List UInt8)
  | timeout
  | requestError (text : String)
  | raised (text : String)

/-- What the attempt meets: the resolver, and the web server behind a URL. -/
structure Network where
  resolve : Resolved
  get : String → HttpOutcome

/-- `bs.decode("ascii", errors="replace")`. -/
def decodeAscii (bs : List UInt8) : String :=
  String.ofList (bs.map fun b => if b < 128 then Char.ofNat b.toNat else Char.ofNat 0xfffd)

/-- The body `_fetch_and_compare` looks at. -/
def responseBody (content : List UInt8) : String :=
  Text.strip (decodeAscii (content.take maxResponseBytes))

/-- `hmac.compare_digest` on text, which must be ASCII. -/
def compareDigest (a b : String) : Except Http01Exn Bool :=
  if (a.toList ++ b.toList).all fun c => c.toNat < 128 then .ok (decide (a = b))
  else .error (.other "comparing strings with non-ASCII characters is not supported")

/-- `_fetch_and_compare`, behind its GET. -/
def fetchAndCompare (o : Oracle) (domain expected : String) (requestTimeout : Int) :
    HttpOutcome → Except Http01Exn Unit
  | .timeout => .error (.validation ("HTTP-01 request timed out for " ++ o.repr (.str domain) ++
      " after " ++ toString requestTimeout ++ "s") AcmeErrors.connection)
  | .requestError text => .error (.validation
      ("HTTP-01 request failed for " ++ o.repr (.str domain) ++ ": " ++ text) AcmeErrors.connection)
  | .raised text => .error (.other text)
  | .response statusCode content =>
      if statusCode ≠ 200 then
        .error (.validation ("HTTP-01 challenge URL returned status " ++ toString statusCode ++
          " for " ++ o.repr (.str domain)) AcmeErrors.unauthorized)
      else if responseBody content = "" then
        .error (.validation ("HTTP-01 response body is empty for " ++ o.repr (.str domain))
          AcmeErrors.unauthorized)
      else do
        if ← compareDigest (responseBody content) expected then .ok ()
        else .error (.validation
          ("HTTP-01 key authorization mismatch for " ++ o.repr (.str domain)) AcmeErrors.unauthorized)

/-- The URL that pins an attempt to an address. -/
def targetUrl (ip : String) (port : Int) (urlPath : String) : String :=
  let hostPort := if port = 80 then "" else ":" ++ toString port
  if Text.contains ip ":" then "http://[" ++ ip ++ "]" ++ hostPort ++ urlPath
  else "http://" ++ ip ++ hostPort ++ urlPath

/-- The `Host` header of a production attempt. -/
def hostHeader (domain : String) (port : Int) : String :=
  if port ≠ 80 then domain ++ ":" ++ toString port else domain

/-- `httpx.AsyncClient(headers={"Host": host})`, which encodes its headers as ASCII. -/
def asyncClient (host : String) : Except Http01Exn Unit :=
  match encodeAscii host with
  | some _ => .ok ()
  | none => .error (.other "'ascii' codec can't encode characters: ordinal not in range(128)")

/-- The client of an attempt: the one of the factory, or one with a `Host` header.  No `try` is
around it. -/
def attemptClient (domain : String) (port : Int) (clientFactory : Bool) : Except Http01Exn Unit :=
  if clientFactory then .ok () else asyncClient (hostHeader domain port)

/-- `_attempt_validation`, up to its client: the URL it is about to request. -/
def attemptTarget (o : Oracle) (domain : String) (port : Int) (urlPath : String)
    (clientFactory : Bool) (resolved : Resolved) : Except Http01Exn String :=
  if clientFactory then .ok ("http://" ++ domain ++ urlPath)
  else match resolveAndCheck o domain resolved with
    | .ok ip => .ok (targetUrl ip port urlPath)
    | .error (.validation detail acmeType) => .error (.validation detail acmeType)
    | .error (.other text) => .error (.validation
        ("Unexpected error resolving " ++ o.repr (.str domain) ++ ": " ++ text) AcmeErrors.dns)

/-- `_attempt_validation`. -/
def attemptValidation (o : Oracle) (domain : String) (port : Int) (urlPath expected : String)
    (requestTimeout : Int) (clientFactory : Bool) (net : Network) : Except Http01Exn Unit := do
  let url ← attemptTarget o domain port urlPath clientFactory net.resolve
  attemptClient domain port clientFactory
  fetchAndCompare o domain expected requestTimeout (net.get url)

/-! ### The retries -/

/-- The loop of `validate_http01`, from an attempt on, with the number of attempts left. -/
def validateFrom (o : Oracle) (cfg : Settings) (domain urlPath expected : String)
    (clientFactory : Bool) (nets : Nat → Network) : (attempt left : Nat) → Except Http01Exn Unit
  | _, 0 => .ok ()
  | attempt, left + 1 =>
      match attemptValidation o domain cfg.challengeHttpPort urlPath expected cfg.challengeTimeout
          clientFactory (nets attempt) with
      | .ok () => .ok ()
      | .error (.other text) => .error (.other text)
      | .error (.validation detail acmeType) =>
          if (attempt : Int) = cfg.challengeRetries then .error (.validation detail acmeType)
          else validateFrom o cfg domain urlPath expected clientFactory nets (attempt + 1) left

/-- `validate_http01`; `nets k` is what attempt `k` meets. -/
def validateHttp01 (o : Oracle) (cfg : Settings) (domain token expected : String)
    (clientFactory : Bool) (nets : Nat → Network) : Except Http01Exn Unit :=
  validateFrom o cfg domain ("/.well-known/acme-challenge/" ++ token) expected clientFactory nets
    1 cfg.challengeRetries.toNat

/-- An oracle that knows nothing. -/
def Demo.mute : Oracle where
  Key := Unit
  jsonLoads _ := none
  jsonLoadsText _ := none
  jwkFromJson _ := none
  verify _ _ _ _ := none
  thumbprint _ := []
  repr _ := ""
  realText r := r
  derSerial _ := none
  leafSerial _ := none
  leafNotAfter _ := none
  derToPemCsr _ := none

/-! ### Proof of control -/

variable {o : Oracle} {cfg : Settings} {domain urlPath expected : String} {clientFactory : Bool}

/-- The attempt got a status-200 response whose body is `expected`. -/
def ShownKeyAuth (o : Oracle) (cfg : Settings) (domain token expected : String) (clientFactory : Bool)
    (net : Network) : Prop :=
  ∃ url content, attemptTarget o domain cfg.challengeHttpPort
      ("/.well-known/acme-challenge/" ++ token) clientFactory net.resolve = .ok url ∧
    net.get url = .response 200 content ∧ responseBody content = expected ∧
    fetchAndCompare o domain expected cfg.challengeTimeout (net.get url) = .ok ()

/-- `_fetch_and_compare` returns on the expected body of a status-200 response. -/
theorem fetchAndCompare_ok {requestTimeout : Int} {out : HttpOutcome}
    (h : fetchAndCompare o domain expected requestTimeout out = .ok ()) :
    ∃ content, out = .response 200 content ∧ responseBody content = expected := by
  cases out with
  | timeout | requestError text | raised text => simp only [fetchAndCompare, reduceCtorEq] at h
  | response statusCode content =>
      simp only [fetchAndCompare] at h
      split at h
      · simp only [reduceCtorEq] at h
      · next hstatus =>
          split at h
          · simp only [reduceCtorEq] at h
          · obtain ⟨b, hb, h⟩ := ok_of_bind h
            have hb' : b = true := by
              by_contra hne
              simp only [if_neg hne, reduceCtorEq] at h
            subst hb'
            unfold compareDigest at hb
            split at hb
            · exact ⟨content, by rw [not_not.mp hstatus],
                of_decide_eq_true (Except.ok.inj hb)⟩
            · cases hb

theorem attemptValidation_ok {token : String} {net : Network}
    (h : attemptValidation o domain cfg.challengeHttpPort
      ("/.well-known/acme-challenge/" ++ token) expected cfg.challengeTimeout clientFactory net =
        .ok ()) : ShownKeyAuth o cfg domain token expected clientFactory net := by
  unfold attemptValidation at h
  obtain ⟨url, hurl, h⟩ := ok_of_bind h
  obtain ⟨-, -, hfetch⟩ := ok_of_bind h
  obtain ⟨content, hresp, hbody⟩ := fetchAndCompare_ok hfetch
  exact ⟨url, content, hurl, hresp, hbody, hfetch⟩

/-- The retries return on an attempt that succeeds, where the last of them is the last there may
be. -/
theorem validateFrom_ok {nets : Nat → Network} :
    ∀ {left attempt : Nat}, 0 < left → (attempt + left : Int) = cfg.challengeRetries + 1 →
      validateFrom o cfg domain urlPath expected clientFactory nets attempt left = .ok () →
      ∃ k, attempt ≤ k ∧ (k : Int) ≤ cfg.challengeRetries ∧
        attemptValidation o domain cfg.challengeHttpPort urlPath expected cfg.challengeTimeout
          clientFactory (nets k) = .ok ()
  | 0, _, hpos, _, _ => absurd hpos (lt_irrefl 0)
  | left + 1, attempt, _, hsum, h => by
      simp only [validateFrom] at h
      split at h
      · next hok => exact ⟨attempt, le_rfl, by omega, hok⟩
      · cases h
      · split at h
        · cases h
        · next hne =>
            obtain ⟨k, hk, hle, hok⟩ := validateFrom_ok (by omega) (by push_cast; omega) h
            exact ⟨k, by omega, hle, hok⟩

/-- **Validation is proof of control**, exactly where there is an attempt to make. -/
theorem validateHttp01_proof_iff (o : Oracle) (cfg : Settings) (domain token expected : String)
    (clientFactory : Bool) (nets : Nat → Network) :
    (validateHttp01 o cfg domain token expected clientFactory nets = .ok () →
      ∃ k : Nat, 1 ≤ k ∧ (k : Int) ≤ cfg.challengeRetries ∧
        ShownKeyAuth o cfg domain token expected clientFactory (nets k)) ↔
    1 ≤ cfg.challengeRetries := by
  constructor
  · intro h
    by_contra hlt
    have hzero : cfg.challengeRetries.toNat = 0 := by omega
    obtain ⟨k, hk, hle, -⟩ := h (by rw [validateHttp01, hzero, validateFrom])
    omega
  · intro hle h
    obtain ⟨k, hk, hk', hok⟩ := validateFrom_ok (by omega) (by omega) h
    exact ⟨k, hk, hk', attemptValidation_ok hok⟩

/-- **A validation that asks nobody**: the web server of the client answers nothing, and no attempt
is configured. -/
theorem validated_without_proof :
    ¬ ∀ (o : Oracle) (cfg : Settings) (domain token expected : String) (clientFactory : Bool)
      (nets : Nat → Network),
      validateHttp01 o cfg domain token expected clientFactory nets = .ok () →
      ∃ k, ShownKeyAuth o cfg domain token expected clientFactory (nets k) := by
  intro hall
  obtain ⟨k, url, content, -, hresp, -⟩ := hall Demo.mute
    { relayDomain := "relay.test", challengeRetries := 0 } "host.test" "tok" "tok.key" false
    (fun _ => ⟨.addresses [], fun _ => .timeout⟩) rfl
  cases hresp

/-! ### Addresses that are never to be contacted -/

/-- Loopback, link-local, unspecified, multicast or reserved, of IPv4. -/
def ForbiddenV4 (ip : Fin (2 ^ 32)) : Prop :=
  ip.val / 2 ^ 24 = 127 ∨ ip.val / 2 ^ 16 = 169 * 2 ^ 8 + 254 ∨ ip.val / 2 ^ 24 = 0 ∨
    ip.val / 2 ^ 28 = 14 ∨ ip.val / 2 ^ 28 = 15

/-- `::`, and the IPv4-mapped form of a forbidden address. -/
def Overlooked (addr : IpAddress) : Prop :=
  (∃ scopeId, addr = .v6 0 scopeId) ∨ ∃ ip, addr.ipv4Mapped = some ip ∧ ForbiddenV4 ip

/-- The endpoints that are never to be contacted. -/
def Forbidden : IpAddress → Prop
  | .v4 ip => ForbiddenV4 ip
  | .v6 ip scopeId => ip.val = 1 ∨ ip.val / 2 ^ 118 = 0x3fa ∨ ip.val / 2 ^ 120 = 0xff ∨
      Overlooked (.v6 ip scopeId)

theorem not_forbidden_iff {ip : String} {addr : IpAddress} (h : ipAddress ip = some addr) :
    ¬ Forbidden addr ↔ isBlocked ip = false ∧ ¬ Overlooked addr := by
  cases addr with
  | v4 n =>
      simp [isBlocked, h, blockedNetworks, IpNetwork.contains, Forbidden, ForbiddenV4, Overlooked,
        IpAddress.ipv4Mapped]
  | v6 n scopeId =>
      simp [isBlocked, h, blockedNetworks, IpNetwork.contains, Forbidden]
      tauto

/-- An address that is not blocked has been parsed. -/
theorem parses_of_not_blocked {ip : String} (h : isBlocked ip = false) :
    ∃ addr, ipAddress ip = some addr := by
  unfold isBlocked at h
  split at h
  · cases h
  · next addr haddr => exact ⟨addr, haddr⟩

/-- An IPv4 address is not overlooked. -/
theorem not_overlooked_v4 {n : Fin (2 ^ 32)} : ¬ Overlooked (.v4 n) := by
  simp [Overlooked, IpAddress.ipv4Mapped]

/-- The loop runs through where no address is blocked; it keeps the first IPv4 address and the
first of any family. -/
theorem checkAddresses_ok_iff {hostname : String} {chosen : Option String × Option String} :
    ∀ {results : List AddrInfo} {chosenIpv4 chosenAny : Option String},
      checkAddresses o hostname results chosenIpv4 chosenAny = .ok chosen ↔
        (∀ x ∈ results, isBlocked x.ip = false) ∧
          chosen = (chosenIpv4.or ((results.find? (·.family = .inet)).map (·.ip)),
            chosenAny.or (results.head?.map (·.ip)))
  | [], chosenIpv4, chosenAny => by
      simp only [checkAddresses, Except.ok.injEq, List.not_mem_nil, false_imp_iff, implies_true,
        true_and, List.find?_nil, List.head?_nil, Option.map_none, Option.or_none]
      exact eq_comm
  | x :: xs, chosenIpv4, chosenAny => by
      by_cases hb : isBlocked x.ip = true
      · simp [checkAddresses, hb]
      · have hb' : isBlocked x.ip = false := by simpa using hb
        by_cases hf : x.family = .inet
        · simp [checkAddresses, hb', hf, checkAddresses_ok_iff]
        · simp [checkAddresses, hb', hf, checkAddresses_ok_iff]

/-- The entry `_resolve_and_check` goes for: the first of family `AF_INET`, else the first. -/
def preferred (x : AddrInfo) (xs : List AddrInfo) : AddrInfo :=
  ((x :: xs).find? (·.family = .inet)).getD x

theorem preferred_mem (x : AddrInfo) (xs : List AddrInfo) : preferred x xs ∈ x :: xs := by
  unfold preferred
  cases h : (x :: xs).find? (·.family = .inet) with
  | none => exact List.mem_cons_self
  | some y => exact List.mem_of_find?_eq_some h

/-- `_resolve_and_check` returns the preferred address, where none of the answer is blocked. -/
theorem resolveAndCheck_ok_iff {hostname ip : String} {x : AddrInfo} {xs : List AddrInfo} :
    resolveAndCheck o hostname (.addresses (x :: xs)) = .ok ip ↔
      (∀ y ∈ x :: xs, isBlocked y.ip = false) ∧ ip = (preferred x xs).ip := by
  have hempty : ∀ {y : AddrInfo}, isBlocked y.ip = false → y.ip ≠ "" := by
    intro y hy hnil
    rw [hnil] at hy
    exact absurd hy (by decide)
  by_cases hall : ∀ y ∈ x :: xs, isBlocked y.ip = false
  · have hloop : checkAddresses o hostname (x :: xs) none none =
        .ok (((x :: xs).find? (·.family = .inet)).map (·.ip), some x.ip) :=
      checkAddresses_ok_iff.mpr ⟨hall, by simp⟩
    have hchosen : pyOr (((x :: xs).find? (·.family = .inet)).map (·.ip)) (some x.ip) =
        some (preferred x xs).ip := by
      have hne := hempty (hall _ (preferred_mem x xs))
      unfold preferred at hne ⊢
      cases hfind : (x :: xs).find? (·.family = .inet) with
      | none => simp [pyOr]
      | some y =>
          rw [hfind] at hne
          have hne : y.ip ≠ "" := hne
          simp only [pyOr, Option.map_some, Option.or_some, Option.getD_some, Option.some.injEq,
            ite_eq_right_iff]
          exact fun h => absurd h hne
    have hok : resolveAndCheck o hostname (.addresses (x :: xs)) = .ok (preferred x xs).ip := by
      simp only [resolveAndCheck, hloop, bind, Except.bind, hchosen]
    rw [hok, Except.ok.injEq]
    exact ⟨fun h => ⟨hall, h.symm⟩, fun h => h.2.symm⟩
  · refine iff_of_false ?_ (fun h => hall h.1)
    intro h
    obtain ⟨chosen, hloop, -⟩ := ok_of_bind h
    exact hall (checkAddresses_ok_iff.mp hloop).1

/-- The answers the guard is right about: all but those that pass it, hold no IPv4 entry and lead
with an address it overlooks. -/
def SafeAnswer : Resolved → Prop
  | .addresses (x :: xs) =>
      (∃ y ∈ x :: xs, isBlocked y.ip = true) ∨ (∃ y ∈ x :: xs, y.family = .inet) ∨
        ∀ addr, ipAddress x.ip = some addr → ¬ Overlooked addr
  | _ => True

/-- An endpoint the relay may connect to. -/
def Allowed (ip : String) : Prop := ∃ addr, ipAddress ip = some addr ∧ ¬ Forbidden addr

theorem allowed_preferred_iff {x : AddrInfo} {xs : List AddrInfo}
    (hall : ∀ y ∈ x :: xs, isBlocked y.ip = false) :
    Allowed (preferred x xs).ip ↔ SafeAnswer (.addresses (x :: xs)) := by
  have hno : ¬ ∃ y ∈ x :: xs, isBlocked y.ip = true := by
    rintro ⟨y, hy, hb⟩
    rw [hall y hy] at hb
    cases hb
  have hpref := hall _ (preferred_mem x xs)
  obtain ⟨addr, haddr⟩ := parses_of_not_blocked hpref
  have hiff : Allowed (preferred x xs).ip ↔ ¬ Overlooked addr := by
    constructor
    · rintro ⟨addr', haddr', hok⟩
      rw [haddr] at haddr'
      cases haddr'
      exact ((not_forbidden_iff haddr).mp hok).2
    · exact fun h => ⟨addr, haddr, (not_forbidden_iff haddr).mpr ⟨hpref, h⟩⟩
  rw [hiff, SafeAnswer, or_iff_right hno]
  unfold preferred at haddr
  cases hfind : (x :: xs).find? (·.family = .inet) with
  | none =>
      have hnone : ¬ ∃ y ∈ x :: xs, y.family = .inet := by
        rintro ⟨y, hy, hf⟩
        simpa [hf] using List.find?_eq_none.mp hfind y hy
      rw [hfind, Option.getD_none] at haddr
      rw [or_iff_right hnone]
      constructor
      · intro h addr' haddr'
        rw [haddr] at haddr'
        cases haddr'
        exact h
      · exact fun h => h addr haddr
  | some y =>
      have hinet : y.family = .inet := by simpa using List.find?_some hfind
      obtain ⟨n, hn⟩ := y.inet hinet
      rw [hfind, Option.getD_some, hn] at haddr
      cases haddr
      exact iff_of_true not_overlooked_v4 (.inl ⟨y, List.mem_of_find?_eq_some hfind, hinet⟩)

/-- **The guard keeps the relay from the endpoints that are never to be contacted**, exactly where
the answer of the resolver does not lead it to one it overlooks. -/
theorem ssrf_guard_iff (o : Oracle) (hostname urlPath : String) (port : Int) (r : Resolved) :
    ((∀ ip, resolveAndCheck o hostname r = .ok ip → Allowed ip) ∧
      ∀ url, attemptTarget o hostname port urlPath false r = .ok url →
        ∃ ip, url = targetUrl ip port urlPath ∧ Allowed ip) ↔ SafeAnswer r := by
  have hattempt : (∀ ip, resolveAndCheck o hostname r = .ok ip → Allowed ip) →
      ∀ url, attemptTarget o hostname port urlPath false r = .ok url →
        ∃ ip, url = targetUrl ip port urlPath ∧ Allowed ip := by
    intro hall url h
    simp only [attemptTarget, Bool.false_eq_true, if_false] at h
    split at h
    · next ip hip =>
        cases h
        exact ⟨ip, rfl, hall ip hip⟩
    · cases h
    · cases h
  rw [and_iff_left_of_imp hattempt]
  match r with
  | .osError text => exact iff_of_true (fun ip h => by cases h) trivial
  | .raised text => exact iff_of_true (fun ip h => by cases h) trivial
  | .addresses [] => exact iff_of_true (fun ip h => by cases h) trivial
  | .addresses (x :: xs) =>
      simp only [resolveAndCheck_ok_iff]
      by_cases hall : ∀ y ∈ x :: xs, isBlocked y.ip = false
      · rw [← allowed_preferred_iff hall]
        exact ⟨fun h => h _ ⟨hall, rfl⟩, fun h ip hip => hip.2 ▸ h⟩
      · refine iff_of_true (fun ip hip => absurd hip.1 hall) (.inl ?_)
        push Not at hall
        obtain ⟨y, hy, hb⟩ := hall
        exact ⟨y, hy, by simpa using hb⟩

/-- **A relay that connects to itself**: the resolver answers the IPv4-mapped loopback address, or
the unspecified one. -/
theorem connects_to_itself :
    ¬ (∀ (o : Oracle) (hostname : String) (r : Resolved) (ip : String),
      resolveAndCheck o hostname r = .ok ip → Allowed ip) ∧
    resolveAndCheck Demo.mute "host.test" (.addresses [⟨.inet6, "::", by simp⟩]) = .ok "::" := by
  refine ⟨fun hall => ?_, by rfl⟩
  obtain ⟨addr, haddr, hok⟩ := hall Demo.mute "host.test"
    (.addresses [⟨.inet6, "::ffff:127.0.0.1", by simp⟩]) "::ffff:127.0.0.1" (by rfl)
  have hmapped : ipAddress "::ffff:127.0.0.1" = some (.v6 ⟨0xffff7f000001, by decide⟩ none) := by
    decide
  rw [hmapped] at haddr
  cases haddr
  exact hok (.inr (.inr (.inr (.inr ⟨⟨0x7f000001, by decide⟩, by decide, .inl (by decide)⟩))))

end Jackdaw
