import Jackdaw.Support.Text
import Mathlib.Algebra.GroupWithZero.Nat
import Mathlib.Data.Fin.Basic
import Mathlib.Data.List.TakeDrop
import Mathlib.Data.Option.Basic

/-!
# Support — IP addresses

Python's `ipaddress`: addresses of both families, the networks they belong to, and `ip_address`,
which reads an address from its text.

An IPv6 address may carry a scope, and may embed an IPv4 address: `::ffff:a.b.c.d` is the mapped
form of `a.b.c.d` (`IpAddress.ipv4Mapped`).  An address is never in a network of the other family.
-/

namespace Support

/-- An `IPv4Address` or an `IPv6Address`. -/
inductive IpAddress where
  | v4 (ip : Fin (2 ^ 32))
  | v6 (ip : Fin (2 ^ 128)) (scopeId : Option (List Char))
deriving DecidableEq

instance neZero_ipv6 : NeZero (2 ^ 128) := ⟨(Nat.two_pow_pos 128).ne'⟩

/-- An `IPv4Network` or an `IPv6Network`. -/
inductive IpNetwork where
  | v4 (ip : Fin (2 ^ 32)) (prefixlen : Nat)
  | v6 (ip : Fin (2 ^ 128)) (prefixlen : Nat)

/-- `addr in net`. -/
def IpNetwork.contains : IpNetwork → IpAddress → Bool
  | .v4 net p, .v4 ip => decide (ip.val / 2 ^ (32 - p) = net.val / 2 ^ (32 - p))
  | .v6 net p, .v6 ip _ => decide (ip.val / 2 ^ (128 - p) = net.val / 2 ^ (128 - p))
  | _, _ => false

namespace IpAddress

/-- `ipv4_mapped`: the IPv4 address an IPv6 address stands for. -/
def ipv4Mapped : IpAddress → Option (Fin (2 ^ 32))
  | .v4 _ => none
  | .v6 ip _ =>
      if ip.val / 2 ^ 32 = 0xffff then
        some ⟨ip.val % 2 ^ 32, Nat.mod_lt _ (Nat.two_pow_pos 32)⟩
      else none

/-! ### Reading an address -/

/-- The number a list of digits stands for. -/
def ofDigits (base : Nat) (digit : Char → Option Nat) (cs : List Char) : Option Nat :=
  cs.foldlM (fun acc c => (digit c).map (acc * base + ·)) 0

def decimalDigit (c : Char) : Option Nat :=
  if '0' ≤ c ∧ c ≤ '9' then some (c.toNat - '0'.toNat) else none

def hexDigit (c : Char) : Option Nat :=
  if '0' ≤ c ∧ c ≤ '9' then some (c.toNat - '0'.toNat)
  else if 'a' ≤ c ∧ c ≤ 'f' then some (c.toNat - 'a'.toNat + 10)
  else if 'A' ≤ c ∧ c ≤ 'F' then some (c.toNat - 'A'.toNat + 10)
  else none

/-- `_parse_octet`. -/
def parseOctet (cs : List Char) : Option Nat := do
  guard (cs ≠ [] ∧ cs.length ≤ 3)
  -- no leading zero
  guard (cs = ['0'] ∨ cs.head? ≠ some '0')
  let n ← ofDigits 10 decimalDigit cs
  guard (n ≤ 255)
  return n

/-- `_parse_hextet`. -/
def parseHextet (cs : List Char) : Option Nat := do
  guard (cs ≠ [] ∧ cs.length ≤ 4)
  ofDigits 16 hexDigit cs

/-- The number its parts make up, each `2 ^ w` times the next. -/
def joinParts (w : Nat) (parts : List Nat) : Nat := parts.foldl (fun acc n => acc * 2 ^ w + n) 0

/-- `IPv4Address(s)`. -/
def parseV4 (cs : List Char) : Option (Fin (2 ^ 32)) := do
  match Text.splitChars '.' cs with
  | [a, b, c, d] =>
      let ns ← [a, b, c, d].mapM parseOctet
      return Fin.ofNat _ (joinParts 8 ns)
  | _ => none

/-- The positions of `::`, where nothing stands between two colons, the end points apart. -/
def skips (parts : List (List Char)) : List Nat :=
  (List.range parts.length).filter fun i =>
    decide (0 < i) && decide (i + 1 < parts.length) && decide (parts[i]? = some [])

/-- The parts before and after `::`, and how many zeros it stands for. -/
def expand (parts : List (List Char)) : Option (List (List Char) × Nat × List (List Char)) :=
  match skips parts with
  | [] =>
      if parts.length = 8 then some (parts, 0, []) else none
  | [i] =>
      let hi := if parts.head? = some [] then i - 1 else i
      let lo := if parts.getLast? = some [] then parts.length - i - 2 else parts.length - i - 1
      if parts.head? = some [] ∧ hi ≠ 0 ∨ parts.getLast? = some [] ∧ lo ≠ 0 then none
      else if 8 < hi + lo + 1 then none
      else some (parts.take hi, 8 - (hi + lo), parts.drop (parts.length - lo))
  | _ => none

/-- The parts of an IPv6 address, an IPv4 suffix written as two of them. -/
def suffixParts (parts : List (List Char)) : Option (List (List Char)) := do
  let last ← parts.getLast?
  if '.' ∈ last then
    let ip ← parseV4 last
    return parts.dropLast ++ [Nat.toDigits 16 (ip.val / 2 ^ 16), Nat.toDigits 16 (ip.val % 2 ^ 16)]
  else return parts

/-- `IPv6Address(s)`, without its scope. -/
def parseV6 (cs : List Char) : Option (Fin (2 ^ 128)) := do
  let parts := Text.splitChars ':' cs
  guard (3 ≤ parts.length)
  let parts ← suffixParts parts
  guard (parts.length ≤ 9)
  let (hi, skipped, lo) ← expand parts
  let his ← hi.mapM parseHextet
  let los ← lo.mapM parseHextet
  return Fin.ofNat _ (joinParts 16 (his ++ List.replicate skipped 0 ++ los))

/-- `_split_scope_id`. -/
def splitScopeId (cs : List Char) : Option (List Char × Option (List Char)) :=
  match cs.span (· ≠ '%') with
  | (addr, []) => some (addr, none)
  | (addr, _ :: scopeId) =>
      if scopeId = [] ∨ '%' ∈ scopeId then none else some (addr, some scopeId)

end IpAddress

/-- `ip_address(s)`; `none` where it raises. -/
def ipAddress (s : String) : Option IpAddress :=
  match IpAddress.parseV4 s.toList with
  | some ip => some (.v4 ip)
  | none => do
      guard ('/' ∉ s.toList)
      let (addr, scopeId) ← IpAddress.splitScopeId s.toList
      let ip ← IpAddress.parseV6 addr
      return .v6 ip scopeId

/-! ### The text of an address -/

namespace IpAddress

/-- The characters of an address without a scope. -/
def addressChar (c : Char) : Bool := (hexDigit c).isSome || c = '.' || c = ':'

theorem isSome_of_mapM {α β : Type} {f : α → Option β} :
    ∀ {l : List α} {r : List β}, l.mapM f = some r → ∀ x ∈ l, (f x).isSome = true
  | a :: l, r, h, x, hx => by
      rw [List.mapM_cons] at h
      obtain ⟨b, hb, h⟩ := Option.bind_eq_some_iff.mp h
      obtain ⟨bs, hbs, -⟩ := Option.bind_eq_some_iff.mp h
      rcases List.mem_cons.mp hx with rfl | hx
      · rw [hb]
        rfl
      · exact isSome_of_mapM hbs x hx

/-- A number is made of its digits. -/
theorem isSome_of_ofDigits {base n : Nat} {digit : Char → Option Nat} {cs : List Char}
    (h : ofDigits base digit cs = some n) : ∀ c ∈ cs, (digit c).isSome = true := by
  suffices hfold : ∀ (cs : List Char) (acc : Nat),
      cs.foldlM (fun acc c => (digit c).map (acc * base + ·)) acc = some n →
        ∀ c ∈ cs, (digit c).isSome = true from hfold cs 0 h
  intro cs
  induction cs with
  | nil => intro acc _ c hc; cases hc
  | cons x xs ih =>
      intro acc h c hc
      rw [List.foldlM_cons] at h
      obtain ⟨acc', hx, h⟩ := Option.bind_eq_some_iff.mp h
      obtain ⟨d, hd, -⟩ := Option.map_eq_some_iff.mp hx
      rcases List.mem_cons.mp hc with rfl | hc
      · rw [hd]
        rfl
      · exact ih acc' h c hc

theorem hexDigit_of_decimalDigit {c : Char} (h : (decimalDigit c).isSome = true) :
    (hexDigit c).isSome = true := by
  unfold decimalDigit at h
  unfold hexDigit
  split at h
  · next hc => rw [if_pos hc]; rfl
  · cases h

theorem parseOctet_chars {cs : List Char} (h : (parseOctet cs).isSome = true) :
    ∀ c ∈ cs, (decimalDigit c).isSome = true := by
  obtain ⟨n, hn⟩ := Option.isSome_iff_exists.mp h
  obtain ⟨-, -, hn⟩ := Option.bind_eq_some_iff.mp hn
  obtain ⟨-, -, hn⟩ := Option.bind_eq_some_iff.mp hn
  obtain ⟨m, hm, -⟩ := Option.bind_eq_some_iff.mp hn
  exact isSome_of_ofDigits hm

theorem parseHextet_chars {cs : List Char} (h : (parseHextet cs).isSome = true) :
    ∀ c ∈ cs, (hexDigit c).isSome = true := by
  obtain ⟨n, hn⟩ := Option.isSome_iff_exists.mp h
  obtain ⟨-, -, hn⟩ := Option.bind_eq_some_iff.mp hn
  exact isSome_of_ofDigits hn

/-- An IPv4 address is written in decimal digits and dots. -/
theorem parseV4_chars {cs : List Char} {ip : Fin (2 ^ 32)} (h : parseV4 cs = some ip) :
    ∀ c ∈ cs, c ≠ '.' → (decimalDigit c).isSome = true := by
  intro c hc hne
  obtain ⟨w, hw, hcw⟩ := Text.mem_splitChars hne hc
  unfold parseV4 at h
  split at h
  · next a b c' d hsplit =>
      obtain ⟨ns, hns, -⟩ := Option.bind_eq_some_iff.mp h
      rw [hsplit] at hw
      exact parseOctet_chars (isSome_of_mapM hns w hw) c hcw
  · cases h

theorem mem_skips {parts : List (List Char)} {i : Nat} (h : i ∈ skips parts) :
    0 < i ∧ i + 1 < parts.length ∧ parts[i]? = some [] := by
  simp only [skips, List.mem_filter, List.mem_range, Bool.and_eq_true, decide_eq_true_eq] at h
  exact ⟨h.2.1.1, h.2.1.2, h.2.2⟩

/-- What `::` stands for has no characters. -/
theorem mem_of_expand {parts hi lo : List (List Char)} {n : Nat}
    (h : expand parts = some (hi, n, lo)) {w : List Char} (hw : w ∈ parts) (hne : w ≠ []) :
    w ∈ hi ∨ w ∈ lo := by
  obtain ⟨j, hj⟩ := List.mem_iff_getElem?.mp hw
  have hjlt : j < parts.length := (List.getElem?_eq_some_iff.mp hj).1
  have hfilled : ∀ k, parts[k]? = some [] → j ≠ k := by
    rintro k hk rfl
    exact hne (Option.some.inj (hj.symm.trans hk))
  unfold expand at h
  split at h
  · split at h
    · cases h
      exact .inl hw
    · cases h
  · next i hskips =>
      obtain ⟨h0, h1, hempty⟩ : 0 < i ∧ i + 1 < parts.length ∧ parts[i]? = some [] :=
        mem_skips (by rw [hskips]; exact List.mem_singleton_self i)
      have hji := hfilled i hempty
      simp only at h
      generalize ha : (if parts.head? = some [] then i - 1 else i) = a at h
      generalize hb : (if parts.getLast? = some [] then parts.length - i - 2
        else parts.length - i - 1) = b at h
      split at h
      · cases h
      next hends =>
      split at h
      · cases h
      cases h
      rw [not_or, not_and_not_right, not_and_not_right] at hends
      by_contra hno
      rw [not_or, List.mem_iff_getElem?, List.mem_iff_getElem?] at hno
      -- the part stands neither before the skip nor behind it
      have hlow : a ≤ j := not_lt.mp fun hlt => hno.1 ⟨j, by rw [List.getElem?_take_of_lt hlt, hj]⟩
      have hhigh : j < parts.length - b := by
        refine not_le.mp fun hle => hno.2 ⟨j - (parts.length - b), ?_⟩
        rw [List.getElem?_drop, Nat.add_sub_cancel' hle, hj]
      -- so it is the skip, or the empty part before or behind it
      have hfront : i ≤ j := by
        split at ha
        · next hhead =>
            have hzero := hends.1 hhead
            rw [List.head?_eq_getElem?] at hhead
            have hj0 := hfilled 0 hhead
            omega
        · omega
      split at hb
      · next hlast =>
          have hzero := hends.2 hlast
          rw [List.getLast?_eq_getElem?] at hlast
          have hjlast := hfilled _ hlast
          omega
      · omega
  · cases h

/-- An IPv6 address is written in hexadecimal digits, colons and dots. -/
theorem parseV6_chars {cs : List Char} {ip : Fin (2 ^ 128)} (h : parseV6 cs = some ip) :
    ':' ∈ cs ∧ ∀ c ∈ cs, addressChar c = true := by
  obtain ⟨_, hlen, h⟩ := Option.bind_eq_some_iff.mp h
  obtain ⟨parts, hparts, h⟩ := Option.bind_eq_some_iff.mp h
  obtain ⟨-, -, h⟩ := Option.bind_eq_some_iff.mp h
  obtain ⟨⟨hi, n, lo⟩, hexpand, h⟩ := Option.bind_eq_some_iff.mp h
  obtain ⟨his, hhis, h⟩ := Option.bind_eq_some_iff.mp h
  obtain ⟨los, hlos, -⟩ := Option.bind_eq_some_iff.mp h
  have hhex : ∀ w ∈ parts, ∀ c ∈ w, (hexDigit c).isSome = true := by
    intro w hw c hc
    rcases mem_of_expand hexpand hw (List.ne_nil_of_mem hc) with hmem | hmem
    · exact parseHextet_chars (isSome_of_mapM hhis w hmem) c hc
    · exact parseHextet_chars (isSome_of_mapM hlos w hmem) c hc
  constructor
  · by_contra hno
    rw [Text.splitChars_of_not_mem hno] at hlen
    cases hlen
  · intro c hc
    by_cases hcolon : c = ':'
    · simp [addressChar, hcolon]
    obtain ⟨w, hw, hcw⟩ := Text.mem_splitChars hcolon hc
    obtain ⟨last, hlast, hsuffix⟩ := Option.bind_eq_some_iff.mp hparts
    unfold addressChar
    split at hsuffix
    · obtain ⟨ip4, hip4, hsuffix⟩ := Option.bind_eq_some_iff.mp hsuffix
      cases hsuffix
      rw [← List.dropLast_append_getLast? last hlast] at hw
      rcases List.mem_append.mp hw with hw | hw
      · rw [hhex w (List.mem_append_left _ hw) c hcw]
        rfl
      · cases List.mem_singleton.mp hw
        by_cases hdot : c = '.'
        · simp [hdot]
        · rw [hexDigit_of_decimalDigit (parseV4_chars hip4 c hcw hdot)]
          rfl
    · cases hsuffix
      rw [hhex w hw c hcw]
      rfl

end IpAddress

section Text

variable {s : String}

/-- **The text of an IPv4 address** has no colon, and nothing that ends a host. -/
theorem ipAddress_v4_chars {ip : Fin (2 ^ 32)} (h : ipAddress s = some (.v4 ip)) :
    ':' ∉ s.toList ∧ ∀ c ∈ s.toList, IpAddress.addressChar c = true := by
  have hparse : IpAddress.parseV4 s.toList = some ip := by
    unfold ipAddress at h
    split at h
    · next hip =>
        cases h
        exact hip
    · obtain ⟨_, -, h⟩ := Option.bind_eq_some_iff.mp h
      obtain ⟨x, -, h⟩ := Option.bind_eq_some_iff.mp h
      obtain ⟨y, -, h⟩ := Option.bind_eq_some_iff.mp h
      cases h
  have hchars := IpAddress.parseV4_chars hparse
  constructor
  · intro hmem
    exact absurd (hchars ':' hmem (by decide)) (by decide)
  · intro c hc
    unfold IpAddress.addressChar
    by_cases hdot : c = '.'
    · simp [hdot]
    · rw [IpAddress.hexDigit_of_decimalDigit (hchars c hc hdot)]
      rfl

/-- **The text of an IPv6 address** without a scope has a colon, and nothing that ends a bracketed
host. -/
theorem ipAddress_v6_chars {ip : Fin (2 ^ 128)} {scopeId : Option (List Char)}
    (h : ipAddress s = some (.v6 ip scopeId)) (hscope : '%' ∉ s.toList) :
    ':' ∈ s.toList ∧ ∀ c ∈ s.toList, IpAddress.addressChar c = true := by
  have hsplit : IpAddress.splitScopeId s.toList = some (s.toList, none) := by
    have hspan : s.toList.span (· ≠ '%') = (s.toList, []) := by
      have hall : ∀ c ∈ s.toList, decide (c ≠ '%') = true := fun c hc =>
        decide_eq_true fun e => hscope (e ▸ hc)
      rw [List.span_eq_takeWhile_dropWhile, List.takeWhile_eq_self_iff.mpr hall,
        List.dropWhile_eq_nil_iff.mpr hall]
    rw [IpAddress.splitScopeId, hspan]
  unfold ipAddress at h
  split at h
  · cases h
  · obtain ⟨_, -, h⟩ := Option.bind_eq_some_iff.mp h
    rw [hsplit, Option.bind_eq_bind, Option.bind_some] at h
    obtain ⟨ip', hip', -⟩ := Option.bind_eq_some_iff.mp h
    exact IpAddress.parseV6_chars hip'

end Text

end Support
