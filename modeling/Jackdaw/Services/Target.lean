import Jackdaw.Services.KeyAuth
import Jackdaw.Support.Url

/-!
# Services — where a validation goes

The production path of `_attempt_validation` in `http01.py`, with the calls it makes: it resolves
the domain and checks the answer, and then sends one request to the address it chose, under the name
of the domain.

* `request_to_checked_address_iff`: nothing is sent if any address of the answer is blocked; otherwise
  the one URL is read back as the first IPv4 address, or the first, with the configured port and the
  path of the challenge, and every retry resolves and checks again.  So it is for every domain that
  is ASCII; for another one the client is never made (`no_request_for_unicode`).
-/

namespace Jackdaw

open Support

/-- What a production attempt calls. -/
inductive Http01Call where
  /-- `_resolve_and_check`. -/
  | resolve (hostname : String)
  /-- `client.get(url)`, with the `Host` header of the client. -/
  | get (url host : String)
deriving DecidableEq

/-- What `_attempt_validation` raises when `_resolve_and_check` does. -/
def resolutionFailure (o : Oracle) (domain : String) : Http01Exn → Http01Exn
  | .validation detail acmeType => .validation detail acmeType
  | .other text =>
      .validation ("Unexpected error resolving " ++ o.repr (.str domain) ++ ": " ++ text)
        AcmeErrors.dns

/-- `_attempt_validation` without a client factory, with the calls it makes. -/
def attemptCalls (o : Oracle) (domain : String) (port : Int) (urlPath expected : String)
    (requestTimeout : Int) (net : Network) : Traced Http01Call Http01Exn Unit := do
  let ip ← Traced.await (.resolve domain)
    ((resolveAndCheck o domain net.resolve).mapError (resolutionFailure o domain))
  let url := targetUrl ip port urlPath
  Traced.silent (asyncClient (hostHeader domain port))
  Traced.await (.get url (hostHeader domain port))
    (fetchAndCompare o domain expected requestTimeout (net.get url))

/-- Attempt `k` of a production `validate_http01`, with its calls. -/
def attemptNumberCalls (o : Oracle) (cfg : Settings) (domain token expected : String)
    (nets : Nat → Network) (k : Nat) : Traced Http01Call Http01Exn Unit :=
  attemptCalls o domain cfg.challengeHttpPort ("/.well-known/acme-challenge/" ++ token) expected
    cfg.challengeTimeout (nets k)

/-- `validate_http01` without a client factory, with the calls it makes. -/
def validateCalls (o : Oracle) (cfg : Settings) (domain token expected : String)
    (nets : Nat → Network) : Traced Http01Call Http01Exn Unit :=
  Traced.retry (attemptNumberCalls o cfg domain token expected nets) Http01Exn.isValidation
    cfg.challengeRetries.toNat 1 cfg.challengeRetries.toNat

section Calls

variable {o : Oracle} {domain token urlPath expected : String} {port requestTimeout : Int}
  {net : Network} {cfg : Settings} {nets : Nat → Network}

/-- The calls come to what the attempt does. -/
theorem attemptCalls_result : (attemptCalls o domain port urlPath expected requestTimeout net).result =
    attemptValidation o domain port urlPath expected requestTimeout false net := by
  unfold attemptCalls attemptValidation attemptTarget
  cases resolveAndCheck o domain net.resolve with
  | ok ip =>
      have hclient : attemptClient domain port false = asyncClient (hostHeader domain port) := rfl
      rw [hclient]
      cases asyncClient (hostHeader domain port) <;> rfl
  | error e => cases e <;> rfl

theorem attemptCalls_of_ok {ip : String} (h : resolveAndCheck o domain net.resolve = .ok ip) :
    (attemptCalls o domain port urlPath expected requestTimeout net).calls =
      if (encodeAscii domain).isSome then
        [.resolve domain, .get (targetUrl ip port urlPath) (hostHeader domain port)]
      else [.resolve domain] := by
  unfold attemptCalls
  rw [h, asyncClient]
  have hiff := encodeAscii_hostHeader domain port
  cases hhost : encodeAscii (hostHeader domain port) with
  | some bytes =>
      rw [if_pos (Option.isSome_iff_ne_none.mpr fun e => by rw [hiff.mpr e] at hhost; cases hhost)]
      rfl
  | none =>
      rw [hiff.mp hhost]
      rfl

theorem attemptCalls_of_error {e : Http01Exn} (h : resolveAndCheck o domain net.resolve = .error e) :
    attemptCalls o domain port urlPath expected requestTimeout net =
      ⟨[.resolve domain], .error (resolutionFailure o domain e)⟩ := by
  unfold attemptCalls
  rw [h]
  rfl

/-- Wherever in the answer a blocked address stands, the loop gets to it. -/
theorem checkAddresses_blocked {hostname : String} {y : AddrInfo} (hb : isBlocked y.ip = true) :
    ∀ {results : List AddrInfo} {chosenIpv4 chosenAny : Option String}, y ∈ results → ∃ detail,
      checkAddresses o hostname results chosenIpv4 chosenAny =
        .error (.validation detail AcmeErrors.dns)
  | x :: xs, chosenIpv4, chosenAny, hy => by
      rw [checkAddresses]
      split
      · exact ⟨_, rfl⟩
      · next hx =>
          refine checkAddresses_blocked hb ((List.mem_cons.mp hy).resolve_left ?_)
          rintro rfl
          exact hx hb

theorem resolveAndCheck_blocked {hostname : String} {x y : AddrInfo} {xs : List AddrInfo}
    (hy : y ∈ x :: xs) (hb : isBlocked y.ip = true) : ∃ detail,
      resolveAndCheck o hostname (.addresses (x :: xs)) =
        .error (.validation detail AcmeErrors.dns) := by
  obtain ⟨detail, hdetail⟩ := checkAddresses_blocked hb hy
  exact ⟨detail, bind_of_error hdetail⟩

theorem hostHeader_natCast (domain : String) (port : Nat) : hostHeader domain port =
    if port = 80 then domain else domain ++ ":" ++ toString port := by
  unfold hostHeader
  by_cases h : port = 80
  · simp [h]
  · rw [if_pos (by exact_mod_cast h), if_neg h]
    rfl

/-- **Every retry resolves and checks again**: the calls of a validation are those of its attempts,
one after the other. -/
theorem validateCalls_eq : validateCalls o cfg domain token expected nets =
    ⟨(validationAttempts o cfg domain token expected false nets).calls.flatMap
        fun k => (attemptNumberCalls o cfg domain token expected nets k).calls,
      (validationAttempts o cfg domain token expected false nets).result⟩ := by
  have hresult : (fun k => (attemptNumberCalls o cfg domain token expected nets k).result) =
      attemptNumber o cfg domain token expected false nets := by
    funext k
    exact attemptCalls_result
  rw [validateCalls, Traced.retry_eq_numbered, hresult]
  rfl

end Calls

/-! ### Reading the URL back -/

section Url

variable {ip : String} {addr : IpAddress} {port : Nat} {token : String}

/-- What may stand between the host and the path. -/
def portSuffix (port : Nat) : List Char :=
  if port = 80 then [] else ':' :: Nat.toDigits 10 port

theorem parsePort_portSuffix (port : Nat) :
    HttpUrl.parsePort (portSuffix port) = some (if port = 80 then none else some port) := by
  unfold portSuffix
  split
  · rfl
  · exact HttpUrl.parsePort_toDigits port

/-- The URL, as authority and target. -/
theorem toList_targetUrl (ip : String) (port : Nat) (token : String) :
    (targetUrl ip port ("/.well-known/acme-challenge/" ++ token)).toList =
      "http://".toList ++ ((if ':' ∈ ip.toList then '[' :: (ip.toList ++ ']' :: portSuffix port)
        else ip.toList ++ portSuffix port) ++
          '/' :: (".well-known/acme-challenge/" ++ token).toList) := by
  have hport : (if (port : Int) = 80 then "" else ":" ++ toString (port : Int)).toList =
      portSuffix port := by
    unfold portSuffix
    by_cases h : port = 80
    · simp [h]
    · have hrepr : (toString (port : Int)).toList = Nat.toDigits 10 port := Nat.toList_repr
      rw [if_neg (by exact_mod_cast h), if_neg h, String.toList_append, hrepr]
      simp
  have hcolon : Text.contains ip ":" = true ↔ ':' ∈ ip.toList := Text.contains_singleton_iff rfl
  by_cases h : ':' ∈ ip.toList
  · simp only [targetUrl, if_pos (hcolon.mpr h), if_pos h, String.toList_append, hport]
    simp
  · simp only [targetUrl, if_neg (mt hcolon.mp h), if_neg h, String.toList_append, hport]
    simp

/-- Nothing in an address, a port or a bracket ends the authority. -/
theorem endsAuthority_false {c : Char} (h : IpAddress.addressChar c = true ∨ c.isDigit = true ∨
    c = ':' ∨ c = '[' ∨ c = ']') : HttpUrl.endsAuthority c = false ∧ c ≠ '@' := by
  have hmark : ∀ c', c = c' → IpAddress.addressChar c' = false ∧ c'.isDigit = false ∧ c' ≠ ':' ∧
      c' ≠ '[' ∧ c' ≠ ']' → False := by
    rintro c' rfl ⟨h1, h2, h3, h4, h5⟩
    rcases h with h | h | h | h | h
    · rw [h1] at h
      cases h
    · rw [h2] at h
      cases h
    · exact h3 h
    · exact h4 h
    · exact h5 h
  refine ⟨?_, fun e => hmark '@' e (by decide)⟩
  simp only [HttpUrl.endsAuthority, Bool.or_eq_false_iff, decide_eq_false_iff_not]
  exact ⟨⟨fun e => hmark '/' e (by decide), fun e => hmark '?' e (by decide)⟩,
    fun e => hmark '#' e (by decide)⟩

theorem mem_portSuffix {c : Char} (h : c ∈ portSuffix port) : c.isDigit = true ∨ c = ':' := by
  unfold portSuffix at h
  split at h
  · cases h
  · rcases List.mem_cons.mp h with rfl | h
    · exact .inr rfl
    · exact .inl (Nat.isDigit_of_mem_toDigits (by decide) (by decide) h)

/-- The parts of the URL of an attempt. -/
structure PinnedTo (u : HttpUrl) (ip : String) (addr : IpAddress) (port : Nat) (token : String) :
    Prop where
  host : u.host = ip
  bracketed : u.bracketed = true ↔ ∃ n scopeId, addr = .v6 n scopeId
  port : u.port = if port = 80 then none else some port
  target : u.path ++ u.tail = "/.well-known/acme-challenge/" ++ token
  path : (∀ c ∈ token.toList, c ≠ '?' ∧ c ≠ '#') → u.path = "/.well-known/acme-challenge/" ++ token

/-- The path and what follows it. -/
theorem pinnedTo_of_authority {bracketed : Bool}
    (hb : bracketed = true ↔ ∃ n scopeId, addr = .v6 n scopeId) (port : Nat) (token : String) :
    PinnedTo ⟨bracketed, String.ofList ip.toList, if port = 80 then none else some port,
      String.ofList (('/' :: (".well-known/acme-challenge/" ++ token).toList).takeWhile
        (!HttpUrl.endsPath ·)),
      String.ofList (('/' :: (".well-known/acme-challenge/" ++ token).toList).dropWhile
        (!HttpUrl.endsPath ·))⟩ ip addr port token := by
  have htarget : String.ofList ('/' :: (".well-known/acme-challenge/" ++ token).toList) =
      "/.well-known/acme-challenge/" ++ token := by
    apply String.toList_injective
    simp
  refine ⟨String.ofList_toList, hb, rfl, ?_, fun htoken => ?_⟩
  · rw [← String.ofList_append, List.takeWhile_append_dropWhile, htarget]
  · rw [List.takeWhile_eq_self_iff.mpr, htarget]
    intro c hc
    have hmark : c ≠ '?' ∧ c ≠ '#' := by
      rw [String.toList_append, ← List.cons_append, List.mem_append] at hc
      rcases hc with hc | hc
      · have hall : ∀ c ∈ '/' :: ".well-known/acme-challenge/".toList, c ≠ '?' ∧ c ≠ '#' := by simp
        exact hall c hc
      · exact htoken c hc
    simp [HttpUrl.endsPath, hmark.1, hmark.2]

/-- **The URL is read back** as the address, the port and the path it was made of. -/
theorem parse_targetUrl (haddr : ipAddress ip = some addr) (hzone : '%' ∉ ip.toList) (port : Nat)
    (token : String) :
    ∃ u, HttpUrl.parse (targetUrl ip port ("/.well-known/acme-challenge/" ++ token)) = some u ∧
      PinnedTo u ip addr port token := by
  have hchars : (':' ∈ ip.toList ↔ ∃ n scopeId, addr = .v6 n scopeId) ∧
      ∀ c ∈ ip.toList, IpAddress.addressChar c = true := by
    cases addr with
    | v4 n =>
        obtain ⟨hcolon, hall⟩ := ipAddress_v4_chars haddr
        exact ⟨iff_of_false hcolon (by rintro ⟨_, _, e⟩; cases e), hall⟩
    | v6 n scopeId =>
        obtain ⟨hcolon, hall⟩ := ipAddress_v6_chars haddr hzone
        exact ⟨iff_of_true hcolon ⟨n, scopeId, rfl⟩, hall⟩
  obtain ⟨hcolon, hall⟩ := hchars
  have hnot : ∀ c, IpAddress.addressChar c = false → c ∉ ip.toList := by
    intro c hc hmem
    rw [hall c hmem] at hc
    cases hc
  have hurl := toList_targetUrl ip port token
  by_cases h : ':' ∈ ip.toList
  · rw [if_pos h] at hurl
    have hauth : ∀ c ∈ '[' :: (ip.toList ++ ']' :: portSuffix port),
        HttpUrl.endsAuthority c = false ∧ c ≠ '@' := by
      intro c hc
      simp only [List.mem_cons, List.mem_append] at hc
      rcases hc with hc | hc | hc | hc
      · exact endsAuthority_false (.inr (.inr (.inr (.inl hc))))
      · exact endsAuthority_false (.inl (hall c hc))
      · exact endsAuthority_false (.inr (.inr (.inr (.inr hc))))
      · exact endsAuthority_false ((mem_portSuffix hc).elim (.inr ∘ .inl) (.inr ∘ .inr ∘ .inl))
    refine ⟨_, HttpUrl.parse_authority hurl (fun c hc => (hauth c hc).1)
      (fun hc => (hauth _ hc).2 rfl) (HttpUrl.splitHost_bracketed (hnot ']' (by decide)))
      (parsePort_portSuffix port), ?_⟩
    exact pinnedTo_of_authority (iff_of_true rfl (hcolon.mp h)) port token
  · rw [if_neg h] at hurl
    have hauth : ∀ c ∈ ip.toList ++ portSuffix port,
        HttpUrl.endsAuthority c = false ∧ c ≠ '@' := by
      intro c hc
      rcases List.mem_append.mp hc with hc | hc
      · exact endsAuthority_false (.inl (hall c hc))
      · exact endsAuthority_false ((mem_portSuffix hc).elim (.inr ∘ .inl) (.inr ∘ .inr ∘ .inl))
    have hhead : ∀ c ∈ (portSuffix port).head?, c = ':' := by
      intro c hc
      unfold portSuffix at hc
      split at hc
      · cases hc
      · cases hc
        rfl
    refine ⟨_, HttpUrl.parse_authority hurl (fun c hc => (hauth c hc).1)
      (fun hc => (hauth _ hc).2 rfl) (HttpUrl.splitHost_plain h (hnot '[' (by decide)) hhead)
      (parsePort_portSuffix port), ?_⟩
    exact pinnedTo_of_authority
      (iff_of_false (by decide) fun hv6 => h (hcolon.mpr hv6)) port token

end Url

/-- A production attempt with this answer goes where it was checked, or nowhere. -/
structure GoesToChecked (o : Oracle) (domain token expected : String) (port : Nat)
    (requestTimeout : Int) (x : AddrInfo) (xs : List AddrInfo) (get : String → HttpOutcome) :
    Prop where
  /-- It raises without connecting if any address is blocked. -/
  blocked : (∃ y ∈ x :: xs, isBlocked y.ip = true) → ∃ detail,
    attemptCalls o domain port ("/.well-known/acme-challenge/" ++ token) expected requestTimeout
      ⟨.addresses (x :: xs), get⟩ =
    ⟨[.resolve domain], .error (.validation detail AcmeErrors.dns)⟩
  /-- Otherwise it sends one request, for the address, the port and the path, under the name of the
  domain. -/
  sent : (∀ y ∈ x :: xs, isBlocked y.ip = false) → ∃ url u addr,
    (attemptCalls o domain port ("/.well-known/acme-challenge/" ++ token) expected requestTimeout
      ⟨.addresses (x :: xs), get⟩).calls =
      [.resolve domain, .get url (if port = 80 then domain else domain ++ ":" ++ toString port)] ∧
    HttpUrl.parse url = some u ∧ ipAddress (preferred x xs).ip = some addr ∧
    PinnedTo u (preferred x xs).ip addr port token
  /-- The calls of a validation are those of its attempts, each with an answer of its own. -/
  retried : ∀ (cfg : Settings) (nets : Nat → Network),
    validateCalls o cfg domain token expected nets =
      ⟨(validationAttempts o cfg domain token expected false nets).calls.flatMap fun k =>
        (attemptCalls o domain cfg.challengeHttpPort ("/.well-known/acme-challenge/" ++ token)
          expected cfg.challengeTimeout (nets k)).calls,
      validateHttp01 o cfg domain token expected false nets⟩

/-- **The validation request goes to the checked address**, for every non-empty answer of the
resolver whose addresses carry no scope, every port and token: the first IPv4 address of the answer,
or the first one, in brackets where it is an IPv6 one, with the configured port, left out only for 80,
and the path of the challenge, under a `Host` header of the domain with the same port; exactly where
the domain is ASCII, or an address is blocked and nothing is to be sent. -/
theorem request_to_checked_address_iff (o : Oracle) (domain token expected : String) (port : Nat)
    (requestTimeout : Int) (x : AddrInfo) (xs : List AddrInfo) (get : String → HttpOutcome)
    (hzone : ∀ y ∈ x :: xs, '%' ∉ y.ip.toList) :
    GoesToChecked o domain token expected port requestTimeout x xs get ↔
      (encodeAscii domain).isSome = true ∨ ∃ y ∈ x :: xs, isBlocked y.ip = true := by
  have hok : (∀ y ∈ x :: xs, isBlocked y.ip = false) →
      resolveAndCheck o domain (.addresses (x :: xs)) = .ok (preferred x xs).ip :=
    fun hall => resolveAndCheck_ok_iff.mpr ⟨hall, rfl⟩
  constructor
  · intro h
    by_cases hblocked : ∃ y ∈ x :: xs, isBlocked y.ip = true
    · exact .inr hblocked
    · push Not at hblocked
      have hall : ∀ y ∈ x :: xs, isBlocked y.ip = false := fun y hy => by simpa using hblocked y hy
      obtain ⟨url, -, -, hcalls, -⟩ := h.sent hall
      by_contra hno
      -- without a client there is one call only
      rw [attemptCalls_of_ok (hok hall), if_neg fun hascii => hno (.inl hascii)] at hcalls
      cases hcalls
  · intro hcond
    refine ⟨?_, fun hall => ?_, fun cfg nets => ?_⟩
    · rintro ⟨y, hy, hblocked⟩
      obtain ⟨detail, hdetail⟩ := resolveAndCheck_blocked hy hblocked
      refine ⟨detail, ?_⟩
      rw [attemptCalls_of_error hdetail]
      rfl
    · have hascii : (encodeAscii domain).isSome = true := by
        refine hcond.resolve_right ?_
        rintro ⟨y, hy, hblocked⟩
        rw [hall y hy] at hblocked
        cases hblocked
      have hmem := preferred_mem x xs
      obtain ⟨addr, haddr⟩ := parses_of_not_blocked (hall _ hmem)
      obtain ⟨u, hu, hpinned⟩ := parse_targetUrl haddr (hzone _ hmem) port token
      refine ⟨_, u, addr, ?_, hu, haddr, hpinned⟩
      rw [attemptCalls_of_ok (hok hall), if_pos hascii, hostHeader_natCast]
    · rw [validateCalls_eq, validationAttempts_result]
      rfl

/-- An IPv6 address, and an IPv4 one behind it. -/
def Demo.ipv6Entry : AddrInfo := .ofInet6 "2001:db8::1"

def Demo.ipv4Entry : AddrInfo :=
  ⟨.inet, "192.0.2.7", fun _ => ⟨⟨0xc0000207, by decide⟩, by decide⟩⟩

/-- The request goes to the IPv4 address, on the port that is configured. -/
theorem request_to_ipv4_first :
    (∀ y ∈ [Demo.ipv6Entry, Demo.ipv4Entry], '%' ∉ y.ip.toList) ∧
    ∃ url u addr, (attemptCalls Demo.mute "host.test" (8080 : Nat)
        ("/.well-known/acme-challenge/" ++ "tok") "tok.key" 5
        ⟨.addresses [Demo.ipv6Entry, Demo.ipv4Entry], fun _ => .timeout⟩).calls =
        [.resolve "host.test", .get url "host.test:8080"] ∧
      HttpUrl.parse url = some u ∧ ipAddress "192.0.2.7" = some addr ∧
      PinnedTo u "192.0.2.7" addr 8080 "tok" := by
  have hzone : ∀ y ∈ [Demo.ipv6Entry, Demo.ipv4Entry], '%' ∉ y.ip.toList := by decide
  refine ⟨hzone, ?_⟩
  exact ((request_to_checked_address_iff Demo.mute "host.test" "tok" "tok.key" 8080 5 _ _
    (fun _ => .timeout) hzone).mpr (.inl (by decide))).sent (by decide)

/-- **No request for a domain that is not ASCII**: its address is checked, and the client cannot be
made. -/
theorem no_request_for_unicode :
    ¬ ∀ (o : Oracle) (domain token expected : String) (port : Nat) (requestTimeout : Int)
      (x : AddrInfo) (xs : List AddrInfo) (get : String → HttpOutcome),
      (∀ y ∈ x :: xs, '%' ∉ y.ip.toList) →
      GoesToChecked o domain token expected port requestTimeout x xs get := by
  intro hall
  have hzone : ∀ y ∈ [Demo.ipv4Entry], '%' ∉ y.ip.toList := by decide
  obtain ⟨url, -, -, hcalls, -⟩ := (hall Demo.mute "münchen.test" "tok" "tok.key" 80 5 _ _
    (fun _ => .timeout) hzone).sent (by decide)
  have hok : resolveAndCheck Demo.mute "münchen.test" (.addresses [Demo.ipv4Entry]) =
      .ok "192.0.2.7" := resolveAndCheck_ok_iff.mpr ⟨by decide, rfl⟩
  rw [attemptCalls_of_ok hok, if_neg (by decide)] at hcalls
  cases hcalls

end Jackdaw
