import Jackdaw.Worker
import Jackdaw.Services.LeClient

/-!
# Unpadded base64url

What `b64url_decode` makes of an encoding, padded or not.  Keys, signatures, payloads and CSRs come
without padding, and `key_authorization` and `_dns01_txt_value` take it off.

* `toList_unpadded`: without its padding an encoding is as many digits as there were.
* `padding_unpadded`: the padding step puts back what was taken off.
* `unpadded_base64url_round_trip`: both forms are decoded to the bytes they were made of.
-/

namespace Jackdaw

open Support

/-- `base64.urlsafe_b64encode(b).rstrip(b"=")` -/
def unpadded (bs : List UInt8) : String := Text.rstripChar (urlsafeB64encode bs) '='

/-- How many characters `b64url_decode` adds. -/
def padding (s : String) : Nat := if s.length % 4 ≠ 0 then 4 - s.length % 4 else 0

theorem b64urlDecode_eq (s : String) : b64urlDecode s =
    urlsafeB64decode (s ++ String.ofList (List.replicate (padding s) '=')) := by
  rw [b64urlDecode, padding]
  split
  · rfl
  · exact congrArg urlsafeB64decode (String.append_empty).symm

/-- `-` and `_` for `+` and `/`. -/
def urlsafe (c : Char) : Char := if c = '+' then '-' else if c = '/' then '_' else c

section Digits

variable {n : Nat} {bs : List UInt8}

/-- A digit, as it is sent. -/
theorem urlsafe_digit (h : n < 64) :
    (if urlsafe (Base64.digit n) = '-' then '+'
      else if urlsafe (Base64.digit n) = '_' then '/' else urlsafe (Base64.digit n)) =
        Base64.digit n ∧
      (urlsafe (Base64.digit n)).toNat < 128 ∧ urlsafe (Base64.digit n) ≠ '=' ∧
      urlsafe (Base64.digit n) ≠ '+' ∧ urlsafe (Base64.digit n) ≠ '/' := by
  revert h
  revert n
  decide +kernel

/-- An encoding is digits, as they are sent, and padding. -/
theorem urlsafeB64encode_padding (bs : List UInt8) : ∃ core : List Char,
    Base64.b2a bs = core ++ List.replicate ((3 - bs.length % 3) % 3) '=' ∧
    (urlsafeB64encode bs).toList =
      core.map urlsafe ++ List.replicate ((3 - bs.length % 3) % 3) '=' ∧
    ∀ c ∈ core, ∃ n < 64, c = Base64.digit n := by
  obtain ⟨core, hcore, hdigits⟩ := Base64.b2a_padding bs
  refine ⟨core, hcore, ?_, hdigits⟩
  rw [urlsafeB64encode, String.toList_ofList, hcore, List.map_append, List.map_replicate]
  rfl

/-- **What is encoded is decoded**, with its padding. -/
theorem urlsafeB64decode_encode (bs : List UInt8) :
    urlsafeB64decode (urlsafeB64encode bs) = some bs := by
  obtain ⟨core, hcore, htext, hdigits⟩ := urlsafeB64encode_padding bs
  have hascii : (urlsafeB64encode bs).toList.all (fun c => c.toNat < 128) = true := by
    rw [htext, List.all_eq_true]
    intro c hc
    rcases List.mem_append.mp hc with hc | hc
    · obtain ⟨d, hd, rfl⟩ := List.mem_map.mp hc
      obtain ⟨n, hn, rfl⟩ := hdigits d hd
      exact decide_eq_true (urlsafe_digit hn).2.1
    · rw [List.eq_of_mem_replicate hc]
      rfl
  have hback : (urlsafeB64encode bs).toList.map
      (fun c => if c = '-' then '+' else if c = '_' then '/' else c) = Base64.b2a bs := by
    rw [htext, hcore, List.map_append, List.map_map, List.map_replicate]
    refine congrArg₂ (· ++ ·) ((List.map_congr_left fun c hc => ?_).trans (List.map_id core)) rfl
    obtain ⟨n, hn, rfl⟩ := hdigits c hc
    exact (urlsafe_digit hn).1
  rw [urlsafeB64decode, if_pos hascii, hback, Base64.a2b_b2a]

/-- Without its padding an encoding is its digits. -/
theorem toList_unpadded (bs : List UInt8) : ∃ core : List Char,
    Base64.b2a bs = core ++ List.replicate ((3 - bs.length % 3) % 3) '=' ∧
    (unpadded bs).toList = core.map urlsafe ∧
    unpadded bs ++ String.ofList (List.replicate ((3 - bs.length % 3) % 3) '=') =
      urlsafeB64encode bs ∧
    ∀ c ∈ core, ∃ n < 64, c = Base64.digit n := by
  obtain ⟨core, hcore, htext, hdigits⟩ := urlsafeB64encode_padding bs
  have hstripped : (unpadded bs).toList = core.map urlsafe := by
    rw [unpadded, Text.rstripChar, String.toList_ofList, htext, Text.rdropWhile_append_of_pos,
      List.rdropWhile_eq_self_iff]
    · intro hne hlast
      obtain ⟨d, hd, hlast'⟩ := List.mem_map.mp (List.getLast_mem hne)
      obtain ⟨n, hn, rfl⟩ := hdigits d hd
      exact (urlsafe_digit hn).2.2.1 (hlast'.trans (of_decide_eq_true hlast))
    · intro c hc
      exact decide_eq_true (List.eq_of_mem_replicate hc)
  refine ⟨core, hcore, hstripped, ?_, hdigits⟩
  apply String.toList_injective
  rw [String.toList_append, hstripped, String.toList_ofList, htext]

/-- No character of an unpadded encoding is special to base64 or to a URL. -/
theorem unpadded_chars {c : Char} (h : c ∈ (unpadded bs).toList) : c ≠ '=' ∧ c ≠ '+' ∧ c ≠ '/' := by
  obtain ⟨core, -, htext, -, hdigits⟩ := toList_unpadded bs
  rw [htext] at h
  obtain ⟨d, hd, rfl⟩ := List.mem_map.mp h
  obtain ⟨n, hn, rfl⟩ := hdigits d hd
  exact (urlsafe_digit hn).2.2

theorem padding_encode (bs : List UInt8) : padding (urlsafeB64encode bs) = 0 := by
  have hlen : (urlsafeB64encode bs).length % 4 = 0 := by
    rw [← String.length_toList, urlsafeB64encode, String.toList_ofList, List.length_map,
      Base64.length_b2a]
  rw [padding, hlen]
  rfl

/-- **The padding step puts back what was taken off.** -/
theorem padding_unpadded (bs : List UInt8) : padding (unpadded bs) = (3 - bs.length % 3) % 3 := by
  obtain ⟨core, hcore, htext, -⟩ := toList_unpadded bs
  have hquads := Base64.length_b2a bs
  rw [hcore, List.length_append, List.length_replicate] at hquads
  rw [padding, ← String.length_toList, htext, List.length_map]
  split
  · omega
  · omega

/-- **What is encoded is decoded**, without its padding. -/
theorem b64urlDecode_unpadded (bs : List UInt8) : b64urlDecode (unpadded bs) = some bs := by
  obtain ⟨core, -, -, htext, -⟩ := toList_unpadded bs
  rw [b64urlDecode_eq, padding_unpadded, htext, urlsafeB64decode_encode]

theorem b64urlDecode_encode (bs : List UInt8) : b64urlDecode (urlsafeB64encode bs) = some bs := by
  rw [b64urlDecode_eq, padding_encode, List.replicate_zero]
  exact (congrArg urlsafeB64decode String.append_empty).trans (urlsafeB64decode_encode bs)

end Digits

/-- **Unpadded base64url round-trips.**  Every byte string comes back from its encoding, padded or
not; the padding step adds nothing to the one and at most two characters to the other; the unpadded
one has no character that is special; and it is the one that `_dns01_txt_value` and
`key_authorization` make. -/
theorem unpadded_base64url_round_trip :
    (∀ bs, b64urlDecode (unpadded bs) = some bs ∧ b64urlDecode (urlsafeB64encode bs) = some bs) ∧
    (∀ s, b64urlDecode s =
      urlsafeB64decode (s ++ String.ofList (List.replicate (padding s) '='))) ∧
    (∀ bs, padding (urlsafeB64encode bs) = 0 ∧
      padding (unpadded bs) = (3 - bs.length % 3) % 3 ∧ padding (unpadded bs) ≤ 2) ∧
    (∀ bs, ∀ c ∈ (unpadded bs).toList, c ≠ '=' ∧ c ≠ '+' ∧ c ≠ '/') ∧
    (∀ sha256 ka, dns01TxtValue sha256 ka = unpadded (sha256 ka)) ∧
    ∀ o token account ka, keyAuthorization o token account = some ka →
      ∃ key, storedKey o account = some key ∧ ka = token ++ "." ++ unpadded (o.thumbprint key) := by
  refine ⟨fun bs => ⟨b64urlDecode_unpadded bs, b64urlDecode_encode bs⟩, b64urlDecode_eq,
    fun bs => ⟨padding_encode bs, padding_unpadded bs, ?_⟩, fun bs c hc => unpadded_chars hc,
    fun _ _ => rfl, fun o token account ka h => ?_⟩
  · rw [padding_unpadded]
    omega
  · obtain ⟨key, hkey, rfl⟩ := Option.map_eq_some_iff.mp h
    exact ⟨key, hkey, rfl⟩

end Jackdaw
