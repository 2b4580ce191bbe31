import Mathlib.Data.List.Basic

/-!
# Support — Base64

`binascii.a2b_base64` outside strict mode, and the encoder, over lists of characters and bytes.
The decoder skips every character that is not in the alphabet, stops at a padding sequence that
completes a quad, and refuses data that ends inside one.

* `a2b_b2a`: what is encoded is decoded to the same bytes.
* `b2a_padding`: an encoding is digits, and as much padding as its last group of bytes is short.
-/

namespace Support.Base64

/-- The value of a character of the standard alphabet. -/
def value? (c : Char) : Option Nat :=
  if 'A' ≤ c ∧ c ≤ 'Z' then some (c.toNat - 'A'.toNat)
  else if 'a' ≤ c ∧ c ≤ 'z' then some (c.toNat - 'a'.toNat + 26)
  else if '0' ≤ c ∧ c ≤ '9' then some (c.toNat - '0'.toNat + 52)
  else if c = '+' then some 62
  else if c = '/' then some 63
  else none

/-- The byte a character completes, from the bits left over at this place of the quad. -/
def completed (quadPos leftchar v : Nat) : List UInt8 :=
  match quadPos with
  | 0 => []
  | 1 => [UInt8.ofNat (leftchar * 4 + v / 16)]
  | 2 => [UInt8.ofNat (leftchar * 16 + v / 4)]
  | _ => [UInt8.ofNat (leftchar * 64 + v)]

/-- The bits a character leaves over. -/
def leftover (quadPos v : Nat) : Nat :=
  match quadPos with
  | 0 => v
  | 1 => v % 16
  | 2 => v % 4
  | _ => 0

/-- The decoder's loop: the place in the quad, the padding seen there, the bits left over. -/
def decodeLoop : List Char → (quadPos pads leftchar : Nat) → Option (List UInt8)
  | [], quadPos, _, _ => if quadPos = 0 then some [] else none
  | c :: cs, quadPos, pads, leftchar =>
      if c = '=' then
        if 2 ≤ quadPos ∧ 4 ≤ quadPos + (pads + 1) then some []
        else decodeLoop cs quadPos (if 2 ≤ quadPos then pads + 1 else pads) leftchar
      else match value? c with
        | none => decodeLoop cs quadPos pads leftchar
        | some v =>
            (decodeLoop cs ((quadPos + 1) % 4) 0 (leftover quadPos v)).map
              (completed quadPos leftchar v ++ ·)

/-- `binascii.a2b_base64`; `none` where it raises. -/
def a2b (cs : List Char) : Option (List UInt8) := decodeLoop cs 0 0 0

/-- A character of the standard alphabet. -/
def digit (n : Nat) : Char :=
  "ABCDEFGHIJKLMNOPQRSTUVWXYZabcdefghijklmnopqrstuvwxyz0123456789+/".toList.getD n 'A'

/-- `binascii.b2a_base64` without the newline. -/
def b2a : List UInt8 → List Char
  | [] => []
  | [a] => [digit (a.toNat / 4), digit (a.toNat % 4 * 16), '=', '=']
  | [a, b] => [digit (a.toNat / 4), digit (a.toNat % 4 * 16 + b.toNat / 16),
      digit (b.toNat % 16 * 4), '=']
  | a :: b :: c :: rest => digit (a.toNat / 4) :: digit (a.toNat % 4 * 16 + b.toNat / 16) ::
      digit (b.toNat % 16 * 4 + c.toNat / 64) :: digit (c.toNat % 64) :: b2a rest

/-! ### Round trip -/

section RoundTrip

variable {n quadPos pads leftchar : Nat} {cs : List Char} {bs : List UInt8}

theorem value_digit (h : n < 64) : value? (digit n) = some n := by
  have hall : ∀ n < 64, value? (digit n) = some n := by decide +kernel
  exact hall n h

theorem digit_ne_pad (h : n < 64) : digit n ≠ '=' := by
  intro e
  have hvalue := value_digit h
  rw [e, show value? '=' = none by decide] at hvalue
  cases hvalue

/-- A digit is read. -/
theorem decodeLoop_digit (h : n < 64) : decodeLoop (digit n :: cs) quadPos pads leftchar =
    (decodeLoop cs ((quadPos + 1) % 4) 0 (leftover quadPos n)).map
      (completed quadPos leftchar n ++ ·) := by
  rw [decodeLoop, if_neg (digit_ne_pad h), value_digit h]

/-- The bits of a byte, put together again. -/
theorem byte_first (a b : UInt8) :
    UInt8.ofNat (a.toNat / 4 * 4 + (a.toNat % 4 * 16 + b.toNat / 16) / 16) = a := by
  have hb := b.toNat_lt
  have hbits : a.toNat / 4 * 4 + (a.toNat % 4 * 16 + b.toNat / 16) / 16 = a.toNat := by omega
  rw [hbits, UInt8.ofNat_toNat]

theorem byte_second (a b c : UInt8) :
    UInt8.ofNat ((a.toNat % 4 * 16 + b.toNat / 16) % 16 * 16 +
      (b.toNat % 16 * 4 + c.toNat / 64) / 4) = b := by
  have hb := b.toNat_lt
  have hc := c.toNat_lt
  have hbits : (a.toNat % 4 * 16 + b.toNat / 16) % 16 * 16 +
      (b.toNat % 16 * 4 + c.toNat / 64) / 4 = b.toNat := by omega
  rw [hbits, UInt8.ofNat_toNat]

theorem byte_third (b c : UInt8) :
    UInt8.ofNat ((b.toNat % 16 * 4 + c.toNat / 64) % 4 * 64 + c.toNat % 64) = c := by
  have hc := c.toNat_lt
  have hbits : (b.toNat % 16 * 4 + c.toNat / 64) % 4 * 64 + c.toNat % 64 = c.toNat := by omega
  rw [hbits, UInt8.ofNat_toNat]

/-- **What is encoded is decoded to the same bytes.** -/
theorem a2b_b2a (bs : List UInt8) : a2b (b2a bs) = some bs := by
  rw [a2b]
  induction bs using b2a.induct with
  | case1 => rfl
  | case2 a =>
      have ha := a.toNat_lt
      have hbyte : UInt8.ofNat (a.toNat / 4 * 4 + a.toNat % 4 * 16 / 16) = a := byte_first a 0
      rw [b2a, decodeLoop_digit (by omega), decodeLoop_digit (by omega)]
      simp only [completed, leftover, hbyte, decodeLoop]
      rfl
  | case3 a b =>
      have ha := a.toNat_lt
      have hb := b.toNat_lt
      have hbyte : UInt8.ofNat ((a.toNat % 4 * 16 + b.toNat / 16) % 16 * 16 +
          b.toNat % 16 * 4 / 4) = b := byte_second a b 0
      rw [b2a, decodeLoop_digit (by omega), decodeLoop_digit (by omega), decodeLoop_digit (by omega)]
      simp only [completed, leftover, byte_first, hbyte, decodeLoop]
      rfl
  | case4 a b c rest ih =>
      have ha := a.toNat_lt
      have hb := b.toNat_lt
      have hc := c.toNat_lt
      rw [b2a, decodeLoop_digit (by omega), decodeLoop_digit (by omega), decodeLoop_digit (by omega),
        decodeLoop_digit (by omega)]
      simp only [completed, leftover, byte_first, byte_second, byte_third, Nat.reduceAdd,
        Nat.reduceMod, ih]
      rfl

/-- An encoding is digits, and as much padding as its last group of bytes is short. -/
theorem b2a_padding (bs : List UInt8) : ∃ core : List Char,
    b2a bs = core ++ List.replicate ((3 - bs.length % 3) % 3) '=' ∧
      ∀ c ∈ core, ∃ n < 64, c = digit n := by
  induction bs using b2a.induct with
  | case1 => exact ⟨[], rfl, List.forall_mem_nil _⟩
  | case2 a =>
      have ha := a.toNat_lt
      refine ⟨[digit (a.toNat / 4), digit (a.toNat % 4 * 16)], rfl, ?_⟩
      rw [List.forall_mem_cons, List.forall_mem_singleton]
      exact ⟨⟨_, by omega, rfl⟩, ⟨_, by omega, rfl⟩⟩
  | case3 a b =>
      have ha := a.toNat_lt
      have hb := b.toNat_lt
      refine ⟨[digit (a.toNat / 4), digit (a.toNat % 4 * 16 + b.toNat / 16),
        digit (b.toNat % 16 * 4)], rfl, ?_⟩
      rw [List.forall_mem_cons, List.forall_mem_cons, List.forall_mem_singleton]
      exact ⟨⟨_, by omega, rfl⟩, ⟨_, by omega, rfl⟩, ⟨_, by omega, rfl⟩⟩
  | case4 a b c rest ih =>
      have ha := a.toNat_lt
      have hb := b.toNat_lt
      have hc := c.toNat_lt
      obtain ⟨core, hcore, hdigits⟩ := ih
      have hlen : (a :: b :: c :: rest).length % 3 = rest.length % 3 := by
        simp only [List.length_cons]
        omega
      refine ⟨digit (a.toNat / 4) :: digit (a.toNat % 4 * 16 + b.toNat / 16) ::
        digit (b.toNat % 16 * 4 + c.toNat / 64) :: digit (c.toNat % 64) :: core, ?_, ?_⟩
      · rw [b2a, hcore, hlen]
        rfl
      · simp only [List.forall_mem_cons]
        exact ⟨⟨_, by omega, rfl⟩, ⟨_, by omega, rfl⟩, ⟨_, by omega, rfl⟩, ⟨_, by omega, rfl⟩,
          hdigits⟩

/-- An encoding has whole quads. -/
theorem length_b2a (bs : List UInt8) : (b2a bs).length % 4 = 0 := by
  induction bs using b2a.induct with
  | case1 => rfl
  | case2 a => simp [b2a]
  | case3 a b => simp [b2a]
  | case4 a b c rest ih =>
      simp only [b2a, List.length_cons]
      omega

end RoundTrip

end Support.Base64
