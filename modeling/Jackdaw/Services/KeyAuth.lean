import Jackdaw.Services.Http01
import Jackdaw.Services.Jws
import Jackdaw.Support.Traced

/-!
# Services — what HTTP-01 accepts

`_fetch_and_compare` of `http01.py`, byte by byte: the body is cut at `_MAX_RESPONSE_BYTES`,
decoded with replacement characters, stripped, and compared by `hmac.compare_digest`.

* `accepts_key_authorization_iff`: it accepts the key authorization with whitespace around it and
  nothing else, except that what follows the first 4096 bytes is not looked at
  (`accepts_what_follows`).
* `failures_are_validation_errors_iff`: it returns or raises an `Http01ValidationError`, except
  where a byte that is not ASCII gets to `compare_digest`, which refuses such text; the retries of
  `validate_http01` are made in full exactly where no attempt before a success meets one, or gets as
  far as the client of a domain that is not ASCII (`retries_cut_short`).
-/

namespace Jackdaw

open Support

/-! ### Bytes and characters -/

/-- One byte under `decode("ascii", errors="replace")`. -/
def decodeByte (b : UInt8) : Char := if b < 128 then Char.ofNat b.toNat else Char.ofNat 0xfffd

/-- A byte that `str.strip` takes away, once it is decoded. -/
def isSpaceByte (b : UInt8) : Bool := b = 32 || (9 ≤ b && b ≤ 13) || (28 ≤ b && b ≤ 31)

theorem toList_decodeAscii (bs : List UInt8) : (decodeAscii bs).toList = bs.map decodeByte := by
  simp only [decodeAscii, String.toList_ofList]
  rfl

theorem isSpace_decodeByte (b : UInt8) : Text.isSpace (decodeByte b) = isSpaceByte b := by
  have hall : ∀ n < 256, Text.isSpace (decodeByte (UInt8.ofNat n)) = isSpaceByte (UInt8.ofNat n) := by
    decide +kernel
  have h := hall b.toNat b.toNat_lt
  rwa [UInt8.ofNat_toNat] at h

theorem isSpaceByte_of_le {b : UInt8} (h : 128 ≤ b) : isSpaceByte b = false := by
  rw [← isSpace_decodeByte, decodeByte, if_neg (UInt8.not_lt.mpr h)]
  decide

/-- A byte decodes to an ASCII character if it is one. -/
theorem decodeByte_lt_iff (b : UInt8) : (decodeByte b).toNat < 128 ↔ b < 128 := by
  have hall : ∀ n < 256, (decodeByte (UInt8.ofNat n)).toNat < 128 ↔ UInt8.ofNat n < 128 := by
    decide +kernel
  have h := hall b.toNat b.toNat_lt
  rwa [UInt8.ofNat_toNat] at h

theorem ofNat_toNat_decodeByte {b : UInt8} (h : b < 128) :
    UInt8.ofNat (decodeByte b).toNat = b := by
  have hall : ∀ n < 128, UInt8.ofNat (decodeByte (UInt8.ofNat n)).toNat = UInt8.ofNat n := by
    decide +kernel
  have h := hall b.toNat h
  rwa [UInt8.ofNat_toNat] at h

theorem decodeByte_ofNat {c : Char} (h : c.toNat < 128) : decodeByte (UInt8.ofNat c.toNat) = c := by
  have hall : ∀ n < 128, decodeByte (UInt8.ofNat n) = Char.ofNat n := by decide +kernel
  rw [hall c.toNat h, Char.ofNat_toNat]

theorem encodeAscii_eq_some_iff {s : String} {bytes : List UInt8} :
    encodeAscii s = some bytes ↔ (∀ c ∈ s.toList, c.toNat < 128) ∧
      bytes = s.toList.map fun c => UInt8.ofNat c.toNat := by
  unfold encodeAscii
  split
  · next h =>
      simp only [List.all_eq_true, decide_eq_true_eq] at h
      exact ⟨fun e => ⟨h, (Option.some.inj e).symm⟩, fun e => congrArg some e.2.symm⟩
  · next h =>
      simp only [List.all_eq_true, decide_eq_true_eq] at h
      exact iff_of_false (fun e => by cases e) fun e => h e.1

theorem encodeAscii_eq_none_iff {s : String} :
    encodeAscii s = none ↔ ∃ c ∈ s.toList, 128 ≤ c.toNat := by
  unfold encodeAscii
  split
  · next h =>
      simp only [List.all_eq_true, decide_eq_true_eq] at h
      exact iff_of_false (fun e => by cases e) fun ⟨c, hc, hle⟩ => absurd (h c hc) (by omega)
  · next h =>
      simp only [List.all_eq_true, decide_eq_true_eq] at h
      push Not at h
      exact iff_of_true rfl h

/-- The bytes that decode to an ASCII text are its own. -/
theorem map_decodeByte_eq_iff {s : String} {bytes bs : List UInt8}
    (h : encodeAscii s = some bytes) : bs.map decodeByte = s.toList ↔ bs = bytes := by
  obtain ⟨hascii, rfl⟩ := encodeAscii_eq_some_iff.mp h
  constructor
  · intro hmap
    have hlt : ∀ b ∈ bs, b < 128 := fun b hb =>
      (decodeByte_lt_iff b).mp (hascii _ (hmap ▸ List.mem_map_of_mem hb))
    rw [← hmap, List.map_map]
    conv_lhs => rw [← List.map_id bs]
    exact List.map_congr_left fun b hb => (ofNat_toNat_decodeByte (hlt b hb)).symm
  · rintro rfl
    rw [List.map_map]
    conv_rhs => rw [← List.map_id s.toList]
    exact List.map_congr_left fun c hc => decodeByte_ofNat (hascii c hc)

/-! ### The body that is accepted -/

/-- An ASCII key authorization without whitespace around it, and its bytes. -/
structure KeyAuthBytes (expected : String) (bytes : List UInt8) : Prop where
  shape : ∃ token thumbprint, expected = token ++ "." ++ thumbprint
  ascii : encodeAscii expected = some bytes
  trimmed : Text.strip expected = expected

/-- Optional whitespace, the bytes, and optional whitespace. -/
def Surrounded (bytes bs : List UInt8) : Prop :=
  ∃ pre post, bs = pre ++ bytes ++ post ∧ (∀ b ∈ pre, isSpaceByte b = true) ∧
    ∀ b ∈ post, isSpaceByte b = true

/-- The response shows the bytes and nothing else, and is not too long. -/
def Shows (bytes : List UInt8) (out : HttpOutcome) : Prop :=
  ∃ content, out = .response 200 content ∧ content.length ≤ maxResponseBytes ∧
    Surrounded bytes content

/-- The response is too long, and shows the bytes where it is cut. -/
def ShowsCut (bytes : List UInt8) (out : HttpOutcome) : Prop :=
  ∃ content, out = .response 200 content ∧ maxResponseBytes < content.length ∧
    Surrounded bytes (content.take maxResponseBytes)

section Accepts

variable {o : Oracle} {domain expected : String} {requestTimeout : Int} {bytes : List UInt8}
  {out : HttpOutcome}

theorem all_space_map_iff {bs : List UInt8} :
    (∀ c ∈ bs.map decodeByte, Text.isSpace c = true) ↔ ∀ b ∈ bs, isSpaceByte b = true := by
  simp only [List.mem_map, forall_exists_index, and_imp, forall_apply_eq_imp_iff₂,
    isSpace_decodeByte]

/-- The bytes that decode and strip to a key authorization. -/
theorem strip_decodeAscii_iff (h : KeyAuthBytes expected bytes) (bs : List UInt8) :
    Text.strip (decodeAscii bs) = expected ↔ Surrounded bytes bs := by
  rw [Text.strip_eq_iff h.trimmed, toList_decodeAscii]
  constructor
  · rintro ⟨pre, post, hbs, hpre, hpost⟩
    obtain ⟨front, back, rfl, hfront, rfl⟩ := List.map_eq_append_iff.mp hbs
    obtain ⟨before, middle, rfl, rfl, hmiddle⟩ := List.map_eq_append_iff.mp hfront
    obtain rfl := (map_decodeByte_eq_iff h.ascii).mp hmiddle
    exact ⟨before, back, rfl, all_space_map_iff.mp hpre, all_space_map_iff.mp hpost⟩
  · rintro ⟨pre, post, rfl, hpre, hpost⟩
    refine ⟨pre.map decodeByte, post.map decodeByte, ?_, all_space_map_iff.mpr hpre,
      all_space_map_iff.mpr hpost⟩
    rw [List.map_append, List.map_append, (map_decodeByte_eq_iff h.ascii).mpr rfl]

theorem compareDigest_of_ascii {a b : String} (ha : ∀ c ∈ a.toList, c.toNat < 128)
    (hb : ∀ c ∈ b.toList, c.toNat < 128) : compareDigest a b = .ok (decide (a = b)) := by
  rw [compareDigest, if_pos]
  simp only [List.all_eq_true, decide_eq_true_eq, List.mem_append]
  rintro c (hc | hc)
  · exact ha c hc
  · exact hb c hc

/-- **What is accepted**, for an expected text that can be compared. -/
theorem fetchAndCompare_ok_iff (hne : expected ≠ "") (hascii : encodeAscii expected = some bytes) :
    fetchAndCompare o domain expected requestTimeout out = .ok () ↔
      ∃ content, out = .response 200 content ∧ responseBody content = expected := by
  refine ⟨fetchAndCompare_ok, ?_⟩
  rintro ⟨content, rfl, hbody⟩
  have hall := (encodeAscii_eq_some_iff.mp hascii).1
  simp only [fetchAndCompare, hbody, if_neg hne, compareDigest_of_ascii hall hall, decide_true]
  rfl

theorem KeyAuthBytes.ne_empty (h : KeyAuthBytes expected bytes) : expected ≠ "" := by
  obtain ⟨token, thumbprint, rfl⟩ := h.shape
  intro e
  have hlen := congrArg (fun s => s.toList.length) e
  simp at hlen

theorem accepts_iff (h : KeyAuthBytes expected bytes) :
    fetchAndCompare o domain expected requestTimeout out = .ok () ↔
      Shows bytes out ∨ ShowsCut bytes out := by
  rw [fetchAndCompare_ok_iff h.ne_empty h.ascii]
  constructor
  · rintro ⟨content, rfl, hbody⟩
    have hcut := (strip_decodeAscii_iff h _).mp hbody
    by_cases hlen : content.length ≤ maxResponseBytes
    · rw [List.take_of_length_le hlen] at hcut
      exact .inl ⟨content, rfl, hlen, hcut⟩
    · exact .inr ⟨content, rfl, not_le.mp hlen, hcut⟩
  · rintro (⟨content, rfl, hlen, hshown⟩ | ⟨content, rfl, -, hshown⟩)
    · refine ⟨content, rfl, (strip_decodeAscii_iff h _).mpr ?_⟩
      rwa [List.take_of_length_le hlen]
    · exact ⟨content, rfl, (strip_decodeAscii_iff h _).mpr hshown⟩

/-- **HTTP-01 accepts exactly the key authorization**, with optional whitespace around it, for every
response but one that is longer than the cap and shows it before the cut. -/
theorem accepts_key_authorization_iff (o : Oracle) (domain expected : String) (bytes : List UInt8)
    (requestTimeout : Int) (h : KeyAuthBytes expected bytes) (out : HttpOutcome) :
    (fetchAndCompare o domain expected requestTimeout out = .ok () ↔ Shows bytes out) ↔
      ¬ ShowsCut bytes out := by
  rw [accepts_iff h]
  constructor
  · rintro hiff ⟨content, rfl, hlen, hcut⟩
    obtain ⟨content', e, hle, -⟩ := hiff.mp (.inr ⟨content, rfl, hlen, hcut⟩)
    cases e
    omega
  · exact fun hno => or_iff_left hno

end Accepts

/-- `tok.key`, as it is served. -/
def Demo.keyAuthBytes : List UInt8 := [116, 111, 107, 46, 107, 101, 121]

theorem Demo.keyAuthBytes_spec : KeyAuthBytes "tok.key" Demo.keyAuthBytes :=
  ⟨⟨"tok", "key", by decide⟩, by decide, by decide⟩

/-- A newline at the end does no harm. -/
theorem accepts_with_newline : KeyAuthBytes "tok.key" Demo.keyAuthBytes ∧
    fetchAndCompare Demo.mute "host.test" "tok.key" 5 (.response 200 (Demo.keyAuthBytes ++ [10])) =
      .ok () := by
  refine ⟨Demo.keyAuthBytes_spec, ?_⟩
  refine (accepts_key_authorization_iff Demo.mute "host.test" "tok.key" _ 5
    Demo.keyAuthBytes_spec _).mpr ?_ |>.mpr ?_
  · rintro ⟨content, e, hlen, -⟩
    cases e
    exact absurd hlen (by decide)
  · exact ⟨_, rfl, by decide, [], [10], rfl, List.forall_mem_nil _, by simp [isSpaceByte]⟩

/-- **What follows is not looked at**: the key authorization, spaces up to the cap, and anything. -/
theorem accepts_what_follows : ¬ ∀ (o : Oracle) (domain expected : String) (bytes : List UInt8)
    (requestTimeout : Int), KeyAuthBytes expected bytes → ∀ out,
      (fetchAndCompare o domain expected requestTimeout out = .ok () ↔ Shows bytes out) := by
  intro hall
  have hlen : (Demo.keyAuthBytes ++ List.replicate 4089 32).length = maxResponseBytes := by
    rw [List.length_append, List.length_replicate]
    rfl
  have hcut : ShowsCut Demo.keyAuthBytes
      (.response 200 (Demo.keyAuthBytes ++ List.replicate 4089 32 ++ [120])) := by
    refine ⟨_, rfl, ?_, ?_⟩
    · rw [List.length_append, hlen]
      exact Nat.lt_succ_self _
    · rw [List.take_left' hlen]
      refine ⟨[], List.replicate 4089 32, rfl, fun _ hb => absurd hb List.not_mem_nil, ?_⟩
      intro b hb
      rw [List.eq_of_mem_replicate hb]
      rfl
  obtain ⟨content, e, hle, -⟩ := (hall Demo.mute "host.test" "tok.key" Demo.keyAuthBytes 5
    Demo.keyAuthBytes_spec _).mp ((accepts_iff Demo.keyAuthBytes_spec).mpr (.inr hcut))
  cases e
  rw [List.length_append, hlen] at hle
  exact absurd hle (by decide)

/-! ### What cannot be compared -/

/-- A non-ASCII byte of a status-200 response gets to `compare_digest`, or an expected text that is
not ASCII does. -/
def Incomparable (expected : String) (out : HttpOutcome) : Prop :=
  ∃ content, out = .response 200 content ∧
    ((∃ b ∈ content.take maxResponseBytes, 128 ≤ b) ∨
      encodeAscii expected = none ∧ ∃ b ∈ content.take maxResponseBytes, isSpaceByte b = false)

/-- The response shows the expected text, which is ASCII. -/
def Matches (expected : String) (out : HttpOutcome) : Prop :=
  expected ≠ "" ∧ (encodeAscii expected).isSome ∧
    ∃ content, out = .response 200 content ∧ responseBody content = expected

section Compare

variable {o : Oracle} {domain expected : String} {requestTimeout : Int} {out : HttpOutcome}
  {content : List UInt8}

theorem responseBody_empty_iff :
    responseBody content = "" ↔ ∀ b ∈ content.take maxResponseBytes, isSpaceByte b = true := by
  rw [responseBody, Text.strip_eq_empty_iff, toList_decodeAscii, all_space_map_iff]

/-- A byte that is not ASCII is decoded to the replacement character, which is not stripped. -/
theorem responseBody_nonAscii_iff : (∃ c ∈ (responseBody content).toList, 128 ≤ c.toNat) ↔
    ∃ b ∈ content.take maxResponseBytes, 128 ≤ b := by
  constructor
  · rintro ⟨c, hc, hle⟩
    have hmem := Text.mem_of_mem_strip hc
    rw [toList_decodeAscii, List.mem_map] at hmem
    obtain ⟨b, hb, rfl⟩ := hmem
    refine ⟨b, hb, UInt8.not_lt.mp fun hlt => ?_⟩
    exact absurd ((decodeByte_lt_iff b).mpr hlt) (by omega)
  · rintro ⟨b, hb, hle⟩
    refine ⟨decodeByte b, Text.mem_strip_of_not_space ?_ ?_, not_lt.mp fun hlt => ?_⟩
    · rw [toList_decodeAscii]
      exact List.mem_map_of_mem hb
    · rw [isSpace_decodeByte, isSpaceByte_of_le hle]
    · exact UInt8.not_lt.mpr hle ((decodeByte_lt_iff b).mp hlt)

/-- `compare_digest` refuses text that is not ASCII, and nothing else. -/
theorem compareDigest_error_iff {a b : String} : (∃ text, compareDigest a b = .error (.other text)) ↔
    (∃ c ∈ a.toList, 128 ≤ c.toNat) ∨ ∃ c ∈ b.toList, 128 ≤ c.toNat := by
  by_cases h : ((a.toList ++ b.toList).all fun c => c.toNat < 128) = true
  · rw [compareDigest, if_pos h]
    simp only [List.all_eq_true, decide_eq_true_eq, List.mem_append] at h
    refine iff_of_false (fun ⟨text, e⟩ => by cases e) ?_
    rintro (⟨c, hc, hle⟩ | ⟨c, hc, hle⟩)
    · exact absurd (h c (.inl hc)) (by omega)
    · exact absurd (h c (.inr hc)) (by omega)
  · rw [compareDigest, if_neg h]
    simp only [List.all_eq_true, decide_eq_true_eq, List.mem_append] at h
    push Not at h
    obtain ⟨c, hc | hc, hle⟩ := h
    · exact iff_of_true ⟨_, rfl⟩ (.inl ⟨c, hc, hle⟩)
    · exact iff_of_true ⟨_, rfl⟩ (.inr ⟨c, hc, hle⟩)

theorem fetchAndCompare_of_body (hne : responseBody content ≠ "") :
    fetchAndCompare o domain expected requestTimeout (.response 200 content) = (do
      if ← compareDigest (responseBody content) expected then .ok ()
      else .error (.validation
        ("HTTP-01 key authorization mismatch for " ++ o.repr (.str domain))
          AcmeErrors.unauthorized)) := by
  rw [fetchAndCompare, if_neg (not_not.mpr rfl), if_neg hne]

/-- What gets to `compare_digest`, in terms of the bytes. -/
theorem incomparable_iff (hne : responseBody content ≠ "") :
    Incomparable expected (.response 200 content) ↔
      (∃ c ∈ (responseBody content).toList, 128 ≤ c.toNat) ∨ ∃ c ∈ expected.toList, 128 ≤ c.toNat := by
  rw [responseBody_nonAscii_iff, ← encodeAscii_eq_none_iff]
  rw [Ne, responseBody_empty_iff] at hne
  push Not at hne
  constructor
  · rintro ⟨content', e, h⟩
    cases e
    exact h.imp_right fun h => h.1
  · intro h
    exact ⟨content, rfl, h.imp_right fun h => ⟨h, hne.imp fun b hb => ⟨hb.1, by simpa using hb.2⟩⟩⟩

/-- Nothing gets there from a blank body. -/
theorem not_incomparable_of_empty (hempty : responseBody content = "") :
    ¬ Incomparable expected (.response 200 content) := by
  rw [responseBody_empty_iff] at hempty
  rintro ⟨content', e, ⟨b, hb, hle⟩ | ⟨-, b, hb, hno⟩⟩
  · cases e
    exact absurd (hempty b hb) (by rw [isSpaceByte_of_le hle]; decide)
  · cases e
    rw [hempty b hb] at hno
    cases hno

/-- **What escapes `_fetch_and_compare`**, where the GET itself raises nothing unexpected. -/
theorem fetchAndCompare_escapes_iff (hout : ∀ text, out ≠ .raised text) :
    (∃ text, fetchAndCompare o domain expected requestTimeout out = .error (.other text)) ↔
      Incomparable expected out := by
  cases out with
  | raised text => exact absurd rfl (hout text)
  | timeout | requestError text =>
      refine iff_of_false ?_ ?_
      · rintro ⟨_, e⟩
        cases e
      · rintro ⟨_, e, -⟩
        cases e
  | response statusCode content =>
      by_cases hstatus : statusCode = 200
      · subst hstatus
        by_cases hempty : responseBody content = ""
        · refine iff_of_false ?_ (not_incomparable_of_empty hempty)
          rw [fetchAndCompare, if_neg (not_not.mpr rfl), if_pos hempty]
          rintro ⟨_, e⟩
          cases e
        · rw [incomparable_iff hempty, ← compareDigest_error_iff, fetchAndCompare_of_body hempty]
          cases compareDigest (responseBody content) expected with
          | error e =>
              constructor
              · rintro ⟨text, h⟩
                cases h
                exact ⟨text, rfl⟩
              · rintro ⟨text, h⟩
                cases h
                exact ⟨text, rfl⟩
          | ok same =>
              refine iff_of_false ?_ ?_
              · cases same <;> rintro ⟨_, e⟩ <;> cases e
              · rintro ⟨_, e⟩
                cases e
      · refine iff_of_false ?_ ?_
        · rw [fetchAndCompare, if_pos hstatus]
          rintro ⟨_, e⟩
          cases e
        · rintro ⟨_, e, -⟩
          cases e
          exact hstatus rfl

theorem fetchAndCompare_matches (h : fetchAndCompare o domain expected requestTimeout out = .ok ()) :
    Matches expected out := by
  obtain ⟨content, rfl, hbody⟩ := fetchAndCompare_ok h
  have hne : responseBody content ≠ "" := by
    intro hempty
    rw [fetchAndCompare, if_neg (not_not.mpr rfl), if_pos hempty] at h
    cases h
  refine ⟨hbody ▸ hne, ?_, content, rfl, hbody⟩
  have hno : ¬ Incomparable expected (.response 200 content) := by
    intro hinc
    have hout : ∀ text, HttpOutcome.response 200 content ≠ .raised text := fun _ e => by cases e
    obtain ⟨text, htext⟩ := (fetchAndCompare_escapes_iff hout).mpr hinc
    rw [h] at htext
    cases htext
  rw [incomparable_iff hne, not_or] at hno
  exact Option.isSome_iff_ne_none.mpr fun e => hno.2 (encodeAscii_eq_none_iff.mp e)

/-- An outcome that is not an escape is what the caller handles. -/
theorem handled_iff {x : Except Http01Exn Unit} :
    (x = .ok () ∨ ∃ detail acmeType, x = .error (.validation detail acmeType)) ↔
      ¬ ∃ text, x = .error (.other text) := by
  rcases x with (⟨detail, acmeType⟩ | text) | ⟨⟩
  · simp
  · simp
  · simp

end Compare

/-! ### The retries -/

section Retries

variable {o : Oracle} {cfg : Settings} {domain token expected : String} {clientFactory : Bool}
  {nets : Nat → Network}

/-- `except Http01ValidationError`. -/
def Http01Exn.isValidation : Http01Exn → Bool
  | .validation _ _ => true
  | .other _ => false

/-- Attempt `k` of `validate_http01`. -/
def attemptNumber (o : Oracle) (cfg : Settings) (domain token expected : String)
    (clientFactory : Bool) (nets : Nat → Network) (k : Nat) : Except Http01Exn Unit :=
  attemptValidation o domain cfg.challengeHttpPort ("/.well-known/acme-challenge/" ++ token) expected
    cfg.challengeTimeout clientFactory (nets k)

/-- The attempts `validate_http01` makes, and what comes of them. -/
def validationAttempts (o : Oracle) (cfg : Settings) (domain token expected : String)
    (clientFactory : Bool) (nets : Nat → Network) : Traced Nat Http01Exn Unit :=
  Traced.retry (Traced.numbered (attemptNumber o cfg domain token expected clientFactory nets))
    Http01Exn.isValidation cfg.challengeRetries.toNat 1 cfg.challengeRetries.toNat

theorem retry_result {left attempt : Nat} (hretries : 0 ≤ cfg.challengeRetries) :
    (Traced.retry (Traced.numbered (attemptNumber o cfg domain token expected clientFactory nets))
      Http01Exn.isValidation cfg.challengeRetries.toNat attempt left).result =
    validateFrom o cfg domain ("/.well-known/acme-challenge/" ++ token) expected clientFactory nets
      attempt left := by
  induction left generalizing attempt with
  | zero => rfl
  | succ left ih =>
      rw [validateFrom]
      cases hrun : attemptValidation o domain cfg.challengeHttpPort
          ("/.well-known/acme-challenge/" ++ token) expected cfg.challengeTimeout clientFactory
          (nets attempt) with
      | ok u => rw [Traced.retry_of_ok hrun]
      | error e =>
          cases e with
          | other text => rw [Traced.retry_of_raised hrun fun h => by cases h.1]
          | validation detail acmeType =>
              by_cases hlast : attempt = cfg.challengeRetries.toNat
              · rw [Traced.retry_of_raised hrun fun h => h.2 hlast]
                simp only [if_pos (show (attempt : Int) = cfg.challengeRetries by omega)]
              · rw [Traced.retry_of_caught hrun ⟨rfl, hlast⟩]
                simp only [if_neg (show ¬ (attempt : Int) = cfg.challengeRetries by omega)]
                exact ih

/-- The attempts come to what `validate_http01` does. -/
theorem validationAttempts_result :
    (validationAttempts o cfg domain token expected clientFactory nets).result =
      validateHttp01 o cfg domain token expected clientFactory nets := by
  by_cases hretries : 0 ≤ cfg.challengeRetries
  · exact retry_result hretries
  · have hzero : cfg.challengeRetries.toNat = 0 := by omega
    rw [validationAttempts, validateHttp01, hzero]
    rfl

/-- The domain can be the `Host` of an attempt. -/
def HasClient (domain : String) (clientFactory : Bool) : Prop :=
  clientFactory = true ∨ (encodeAscii domain).isSome = true

/-- The GET of attempt `k`, where it comes to one. -/
def AttemptGets (o : Oracle) (cfg : Settings) (domain token : String) (clientFactory : Bool)
    (nets : Nat → Network) (k : Nat) (out : HttpOutcome) : Prop :=
  HasClient domain clientFactory ∧
    ∃ url, attemptTarget o domain cfg.challengeHttpPort ("/.well-known/acme-challenge/" ++ token)
      clientFactory (nets k).resolve = .ok url ∧ out = (nets k).get url

/-- Attempt `k` has an address to connect to, and a domain no client can be made for. -/
def AttemptUnsent (o : Oracle) (cfg : Settings) (domain token : String) (clientFactory : Bool)
    (nets : Nat → Network) (k : Nat) : Prop :=
  ¬ HasClient domain clientFactory ∧
    ∃ url, attemptTarget o domain cfg.challengeHttpPort ("/.well-known/acme-challenge/" ++ token)
      clientFactory (nets k).resolve = .ok url

/-- The digits of a port are ASCII. -/
theorem toString_int_ascii (n : Int) : ∀ c ∈ (toString n).toList, c.toNat < 128 := by
  have hdigits : ∀ (m : Nat), ∀ c ∈ (Nat.repr m).toList, c.toNat < 128 := by
    intro m c hc
    have hdigit : c.isDigit = true :=
      Nat.isDigit_of_mem_toDigits (by decide) (by decide) (Nat.toList_repr ▸ hc)
    simp only [Char.isDigit, Bool.and_eq_true, decide_eq_true_eq] at hdigit
    exact Nat.lt_of_le_of_lt (UInt32.le_iff_toNat_le.mp hdigit.2) (by decide)
  cases n with
  | ofNat m => exact hdigits m
  | negSucc m =>
      have htext : (toString (Int.negSucc m)).toList = '-' :: (Nat.repr (m + 1)).toList := by
        show ("-" ++ Nat.repr (m + 1)).toList = _
        simp
      rw [htext]
      intro c hc
      rcases List.mem_cons.mp hc with rfl | hc
      · decide
      · exact hdigits _ c hc

/-- The `Host` header is ASCII where the domain is. -/
theorem encodeAscii_hostHeader (domain : String) (port : Int) :
    encodeAscii (hostHeader domain port) = none ↔ encodeAscii domain = none := by
  rw [encodeAscii_eq_none_iff, encodeAscii_eq_none_iff, hostHeader]
  split
  · rw [String.toList_append, String.toList_append]
    constructor
    · rintro ⟨c, hc, hle⟩
      simp only [List.mem_append, or_assoc] at hc
      rcases hc with hc | hc | hc
      · exact ⟨c, hc, hle⟩
      · have hcolon : c ∈ [':'] := hc
        rw [List.mem_singleton.mp hcolon] at hle
        exact absurd hle (by decide)
      · exact absurd (toString_int_ascii port c hc) (by omega)
    · rintro ⟨c, hc, hle⟩
      exact ⟨c, List.mem_append_left _ (List.mem_append_left _ hc), hle⟩
  · rfl

/-- Making the client of an attempt returns, or raises what is no validation error. -/
theorem attemptClient_cases (domain : String) (port : Int) (clientFactory : Bool) :
    HasClient domain clientFactory ∧ attemptClient domain port clientFactory = .ok () ∨
      ¬ HasClient domain clientFactory ∧
        ∃ text, attemptClient domain port clientFactory = .error (.other text) := by
  cases clientFactory with
  | true => exact .inl ⟨.inl rfl, rfl⟩
  | false =>
      have hclient : attemptClient domain port false = asyncClient (hostHeader domain port) := rfl
      rw [hclient, asyncClient]
      cases hhost : encodeAscii (hostHeader domain port) with
      | none =>
          have hnone := (encodeAscii_hostHeader domain port).mp hhost
          exact .inr ⟨by simp [HasClient, hnone], _, rfl⟩
      | some bytes =>
          refine .inl ⟨.inr (Option.isSome_iff_ne_none.mpr fun e => ?_), rfl⟩
          rw [(encodeAscii_hostHeader domain port).mpr e] at hhost
          cases hhost

/-- Before the client everything that fails is a validation error. -/
theorem attemptTarget_error {port : Int} {urlPath : String} {r : Resolved} {e : Http01Exn}
    (h : attemptTarget o domain port urlPath clientFactory r = .error e) : e.isValidation = true := by
  unfold attemptTarget at h
  split at h
  · cases h
  · split at h
    · cases h
    · cases h
      rfl
    · cases h
      rfl

theorem attemptNumber_raises_iff (hget : ∀ k url text, (nets k).get url ≠ .raised text) (k : Nat) :
    (∃ e, attemptNumber o cfg domain token expected clientFactory nets k = .error e ∧
      e.isValidation = false) ↔
    AttemptUnsent o cfg domain token clientFactory nets k ∨
      ∃ out, AttemptGets o cfg domain token clientFactory nets k out ∧
        Incomparable expected out := by
  unfold attemptNumber attemptValidation AttemptGets AttemptUnsent
  cases htarget : attemptTarget o domain cfg.challengeHttpPort
      ("/.well-known/acme-challenge/" ++ token) clientFactory (nets k).resolve with
  | error e =>
      refine iff_of_false ?_ ?_
      · rintro ⟨e', he', hno⟩
        cases he'
        rw [attemptTarget_error htarget] at hno
        cases hno
      · rintro (⟨_, _, e⟩ | ⟨_, ⟨_, _, e, _⟩, _⟩) <;> cases e
  | ok url =>
      rw [bind_of_ok rfl rfl]
      rcases attemptClient_cases domain cfg.challengeHttpPort clientFactory with
        ⟨hclient, hok⟩ | ⟨hclient, text, herr⟩
      · rw [bind_of_ok hok rfl, or_iff_right fun h => h.1 hclient]
        constructor
        · rintro ⟨e, he, hno⟩
          cases e with
          | validation detail acmeType => cases hno
          | other text =>
              exact ⟨_, ⟨hclient, url, rfl, rfl⟩,
                (fetchAndCompare_escapes_iff (hget k url)).mp ⟨text, he⟩⟩
        · rintro ⟨out, ⟨-, url', e, rfl⟩, hinc⟩
          cases e
          obtain ⟨text, htext⟩ := (fetchAndCompare_escapes_iff (hget k url)).mpr hinc
          exact ⟨_, htext, rfl⟩
      · exact iff_of_true ⟨_, bind_of_error herr, rfl⟩ (.inl ⟨hclient, url, rfl⟩)

theorem attemptNumber_ok_iff (k : Nat) :
    attemptNumber o cfg domain token expected clientFactory nets k = .ok () ↔
    ∃ out, AttemptGets o cfg domain token clientFactory nets k out ∧ Matches expected out := by
  unfold attemptNumber attemptValidation AttemptGets
  cases htarget : attemptTarget o domain cfg.challengeHttpPort
      ("/.well-known/acme-challenge/" ++ token) clientFactory (nets k).resolve with
  | error e => exact iff_of_false (fun e => by cases e) fun ⟨_, ⟨_, _, e, _⟩, _⟩ => by cases e
  | ok url =>
      rw [bind_of_ok rfl rfl]
      rcases attemptClient_cases domain cfg.challengeHttpPort clientFactory with
        ⟨hclient, hok⟩ | ⟨hclient, text, herr⟩
      · rw [bind_of_ok hok rfl]
        constructor
        · intro h
          exact ⟨_, ⟨hclient, url, rfl, rfl⟩, fetchAndCompare_matches h⟩
        · rintro ⟨out, ⟨-, url', e, rfl⟩, hne, hascii, hbody⟩
          cases e
          obtain ⟨bytes, hbytes⟩ := Option.isSome_iff_exists.mp hascii
          exact (fetchAndCompare_ok_iff hne hbytes).mpr hbody
      · rw [bind_of_error herr]
        exact iff_of_false (fun e => by cases e) fun ⟨_, ⟨h, _⟩, _⟩ => hclient h

/-- **Every failed attempt is a validation error, and is retried.**  `_fetch_and_compare` returns or
raises an `Http01ValidationError` exactly where no text that is not ASCII gets to `compare_digest`.
The attempts of `validate_http01` are those up to the first success, or all, with what the last of
them raised, exactly where no attempt, unless one before it succeeded, meets such a response or has
an address to connect to for a domain that is not ASCII. -/
theorem failures_are_validation_errors_iff (o : Oracle) (cfg : Settings)
    (domain token expected : String) (clientFactory : Bool) (nets : Nat → Network)
    (hretries : 1 ≤ cfg.challengeRetries) (hget : ∀ k url text, (nets k).get url ≠ .raised text) :
    (∀ out, (∀ text, out ≠ .raised text) →
      ((fetchAndCompare o domain expected cfg.challengeTimeout out = .ok () ∨
        ∃ detail acmeType, fetchAndCompare o domain expected cfg.challengeTimeout out =
          .error (.validation detail acmeType)) ↔ ¬ Incomparable expected out)) ∧
    ((Traced.InFull (attemptNumber o cfg domain token expected clientFactory nets)
        Http01Exn.isValidation 1 cfg.challengeRetries.toNat
        (validationAttempts o cfg domain token expected clientFactory nets) ∧
      (validationAttempts o cfg domain token expected clientFactory nets).result =
        validateHttp01 o cfg domain token expected clientFactory nets) ↔
      ∀ j, 1 ≤ j → j ≤ cfg.challengeRetries.toNat →
        (AttemptUnsent o cfg domain token clientFactory nets j ∨
          ∃ out, AttemptGets o cfg domain token clientFactory nets j out ∧
            Incomparable expected out) →
        ∃ i, 1 ≤ i ∧ i < j ∧ ∃ out, AttemptGets o cfg domain token clientFactory nets i out ∧
          Matches expected out) := by
  constructor
  · intro out hout
    rw [handled_iff, fetchAndCompare_escapes_iff hout]
  · rw [and_iff_left validationAttempts_result]
    simp only [← attemptNumber_raises_iff hget, ← attemptNumber_ok_iff]
    exact Traced.retry_inFull_iff (by omega) (by omega)

end Retries

/-- The default settings. -/
def Demo.defaults : Settings := { relayDomain := "relay.test" }

/-- A client that times out once, and then serves the key authorization. -/
def Demo.lateServer (k : Nat) : Network :=
  ⟨.addresses [.ofInet6 "2001:db8::1"],
    fun _ => if k = 1 then .timeout else .response 200 Demo.keyAuthBytes⟩

theorem Demo.lateServer_comparable (k : Nat) (url : String) :
    ¬ Incomparable "tok.key" ((Demo.lateServer k).get url) := by
  simp only [Demo.lateServer]
  split
  · exact fun ⟨_, e, _⟩ => by cases e
  · rintro ⟨content, e, ⟨b, hb, hle⟩ | ⟨hnone, -⟩⟩
    · cases e
      have hall : ∀ b ∈ Demo.keyAuthBytes.take maxResponseBytes, ¬ 128 ≤ b := by
        simp [Demo.keyAuthBytes, maxResponseBytes]
      exact hall b hb hle
    · exact absurd hnone (by decide)

/-- The second attempt is made, and succeeds. -/
theorem retried_after_timeout : 1 ≤ Demo.defaults.challengeRetries ∧
    (∀ k url text, (Demo.lateServer k).get url ≠ .raised text) ∧
    Traced.InFull (attemptNumber Demo.mute Demo.defaults "host.test" "tok" "tok.key" false
        Demo.lateServer) Http01Exn.isValidation 1 3
      (validationAttempts Demo.mute Demo.defaults "host.test" "tok" "tok.key" false
        Demo.lateServer) := by
  have hget : ∀ k url text, (Demo.lateServer k).get url ≠ .raised text := by
    intro k url text
    simp only [Demo.lateServer]
    split <;> exact fun e => by cases e
  have hiff := (failures_are_validation_errors_iff Demo.mute Demo.defaults "host.test" "tok"
    "tok.key" false Demo.lateServer (by decide) hget).2
  refine ⟨by decide, hget, (hiff.mpr ?_).1⟩
  rintro j - - (⟨hno, -⟩ | ⟨out, ⟨-, url, -, rfl⟩, hinc⟩)
  · exact absurd (.inr (by decide)) hno
  · exact absurd hinc (Demo.lateServer_comparable j url)

/-- **Retries cut short**: the first response has a byte that is not ASCII, and nothing is asked
again. -/
theorem retries_cut_short :
    ¬ (∀ (o : Oracle) (domain expected : String) (requestTimeout : Int) (out : HttpOutcome),
      (∀ text, out ≠ .raised text) →
      fetchAndCompare o domain expected requestTimeout out = .ok () ∨
        ∃ detail acmeType, fetchAndCompare o domain expected requestTimeout out =
          .error (.validation detail acmeType)) ∧
    ¬ ∀ (o : Oracle) (cfg : Settings) (domain token expected : String) (clientFactory : Bool)
      (nets : Nat → Network), 1 ≤ cfg.challengeRetries →
      (∀ k url text, (nets k).get url ≠ .raised text) →
      Traced.InFull (attemptNumber o cfg domain token expected clientFactory nets)
        Http01Exn.isValidation 1 cfg.challengeRetries.toNat
        (validationAttempts o cfg domain token expected clientFactory nets) := by
  constructor
  · intro hall
    have h := hall Demo.mute "host.test" "tok.key" 5 (.response 200 [255]) fun _ e => by cases e
    rcases h with e | ⟨_, _, e⟩ <;> cases e
  · intro hall
    obtain ⟨k, -, -, hcalls, -, hresult, hend⟩ := hall Demo.mute Demo.defaults "host.test" "tok"
      "tok.key" false
      (fun _ => ⟨.addresses [.ofInet6 "2001:db8::1"], fun _ => .response 200 [255]⟩)
      (by decide) fun _ _ _ e => by cases e
    rw [← hresult] at hend
    rcases hend with e | ⟨-, e, he, hcaught⟩
    · cases e
    · cases he
      cases hcaught

end Jackdaw
