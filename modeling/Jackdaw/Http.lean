import Jackdaw.Config
import Jackdaw.Db.Models

/-!
# Requests, failures, and the code outside the repository

A request as the handlers see it, the exceptions a handler may end with, and `Oracle`, the
functions the program calls that are not its own: the JSON decoder, the key and certificate
parsers, and the signature primitive.  Nothing is assumed of an oracle; each theorem holds for
all of them.

`acme_errors.py` is the table of problem types at the end.
-/

namespace Jackdaw

open Support

/-- Functions of the Python libraries the program calls; `none` is a raised exception. -/
structure Oracle where
  /-- A parsed public key, `josepy.jwk.JWK`. -/
  Key : Type
  /-- `json.loads` on bytes. -/
  jsonLoads : List UInt8 → Option Json
  /-- `json.loads` on text. -/
  jsonLoadsText : String → Option Json
  /-- `JWK.from_json`. -/
  jwkFromJson : Json → Option Key
  /-- `ALG_MAP[alg].verify(jwk.public_key().key, message, signature)`. -/
  verify : (alg : String) → Key → (message signature : List UInt8) → Option Bool
  /-- `jwk.thumbprint()`. -/
  thumbprint : Key → List UInt8
  /-- `repr` of a decoded JSON value. -/
  repr : Json → String
  /-- The text SQLite compares a bound float as. -/
  realText : String → String
  /-- The serial number of a DER certificate. -/
  derSerial : List UInt8 → Option Int
  /-- The serial number of the leaf of a PEM chain. -/
  leafSerial : String → Option Int
  /-- `not_valid_after_utc` of the leaf of a PEM chain. -/
  leafNotAfter : String → Option Int
  /-- The PEM text of a DER CSR, where `load_der_x509_csr` parses it. -/
  derToPemCsr : List UInt8 → Option String

/-- `f"{x}"`; a text with a lone surrogate is no more ASCII than the replacement character. -/
def Oracle.format (o : Oracle) : Json → String
  | .str s => s
  | .rawStr _ => "\ufffd"
  | j => o.repr j

/-- The `detail` of an `HTTPException`. -/
inductive Detail where
  | text (s : String)
  | problem (type detail : String)
  deriving DecidableEq, Repr

/-- An exception that ends a call: one the framework turns into a response, or any other. -/
inductive Exn where
  | http (status : Nat) (detail : Detail)
  | raised
  deriving DecidableEq, Repr

/-- `if bad: raise HTTPException(status, detail)`. -/
def reject (bad : Bool) (status : Nat) (detail : Detail) : Except Exn Unit :=
  if bad then .error (.http status detail) else .ok ()

/-- A value, or the exception that stands for its absence. -/
def orElse {α : Type} (e : Exn) : Option α → Except Exn α
  | some a => .ok a
  | none => .error e

/-- A sequence that succeeds went through both parts. -/
theorem ok_of_bind {ε α β : Type} {x : Except ε α} {f : α → Except ε β} {b : β}
    (h : (x >>= f) = .ok b) : ∃ a, x = .ok a ∧ f a = .ok b := by
  rcases x with e | a
  · cases h
  · exact ⟨a, rfl, h⟩

/-- A sequence whose first part succeeds ends as the second part does. -/
theorem bind_of_ok {ε α β : Type} {x : Except ε α} {f : α → Except ε β} {a : α} {y : Except ε β}
    (hx : x = .ok a) (hf : f a = y) : (x >>= f) = y := by
  rw [hx]
  exact hf

theorem bind_of_error {ε α β : Type} {x : Except ε α} {f : α → Except ε β} {e : ε}
    (hx : x = .error e) : (x >>= f) = .error e := by
  rw [hx]
  rfl

@[simp] theorem reject_eq_ok {bad : Bool} {status : Nat} {detail : Detail} {u : Unit} :
    reject bad status detail = .ok u ↔ bad = false := by
  cases bad <;> simp [reject]

@[simp] theorem orElse_eq_ok {α : Type} {e : Exn} {x : Option α} {a : α} :
    orElse e x = .ok a ↔ x = some a := by
  cases x <;> simp [orElse]

theorem bind_of_not_reject {β : Type} {bad : Bool} {status : Nat} {detail : Detail}
    {f : Unit → Except Exn β} {b : β} (hbad : bad = false) (hf : f () = .ok b) :
    (reject bad status detail >>= f) = .ok b :=
  bind_of_ok (reject_eq_ok.mpr hbad) hf

/-- A sequence ends with the failure of its first part, or as the second does on what the first
returns. -/
theorem bind_eq_iff {ε α β : Type} {x : Except ε α} {f : α → Except ε β} {y : Except ε β} :
    (x >>= f) = y ↔ (∃ e, x = .error e ∧ y = .error e) ∨ ∃ a, x = .ok a ∧ f a = y := by
  constructor
  · rintro rfl
    rcases x with e | a
    · exact .inl ⟨e, rfl, rfl⟩
    · exact .inr ⟨a, rfl, rfl⟩
  · rintro (⟨e, hx, rfl⟩ | ⟨a, hx, rfl⟩)
    · exact bind_of_error hx
    · exact bind_of_ok hx rfl

/-- A check is passed on the way to any outcome but its own refusal. -/
theorem reject_bind_iff {β : Type} {bad : Bool} {status : Nat} {detail : Detail}
    {f : Unit → Except Exn β} {y : Except Exn β} (hy : y ≠ .error (.http status detail)) :
    (reject bad status detail >>= f) = y ↔ bad = false ∧ f () = y := by
  cases bad with
  | true => exact ⟨fun h => absurd h.symm hy, fun h => by cases h.1⟩
  | false => exact ⟨fun h => ⟨rfl, h⟩, fun h => h.2⟩

/-- A value is there on the way to any outcome but what stands for its absence. -/
theorem orElse_bind_iff {α β : Type} {e : Exn} {x : Option α} {f : α → Except Exn β}
    {y : Except Exn β} (hy : y ≠ .error e) :
    (orElse e x >>= f) = y ↔ ∃ a, x = some a ∧ f a = y := by
  cases x with
  | none => exact ⟨fun h => absurd h.symm hy, fun ⟨_, h, _⟩ => by cases h⟩
  | some a => exact ⟨fun h => ⟨a, rfl, h⟩, fun ⟨_, h, h'⟩ => by cases h; exact h'⟩

/-- A computation whose `HTTPException`s all have a status that is `P`. -/
def StatusIn {α : Type} (P : Nat → Prop) (x : Except Exn α) : Prop :=
  ∀ status detail, x = .error (.http status detail) → P status

section StatusIn

variable {α β : Type} {P : Nat → Prop} {x : Except Exn α} {status : Nat} {detail : Detail}

theorem StatusIn.ok (a : α) : StatusIn P (.ok a : Except Exn α) := by
  rintro status detail ⟨⟩

theorem StatusIn.raised : StatusIn P (.error .raised : Except Exn α) := by
  rintro status detail ⟨⟩

theorem StatusIn.http (h : P status) : StatusIn P (.error (.http status detail) : Except Exn α) := by
  rintro _ _ ⟨⟩
  exact h

theorem StatusIn.of_error {e : Exn} (h : StatusIn P x) (he : x = .error e) :
    StatusIn P (.error e : Except Exn β) := by
  rintro status detail ⟨⟩
  exact h _ _ he

theorem StatusIn.bind {f : α → Except Exn β} (hx : StatusIn P x) (hf : ∀ a, StatusIn P (f a)) :
    StatusIn P (x >>= f) := by
  intro status detail h
  rcases bind_eq_iff.mp h with ⟨e, hx', ⟨⟩⟩ | ⟨a, -, h⟩
  · exact hx _ _ hx'
  · exact hf a _ _ h

theorem StatusIn.reject {bad : Bool} (h : P status) : StatusIn P (reject bad status detail) := by
  cases bad
  · exact .ok ()
  · exact .http h

theorem StatusIn.orElse {e : Exn} {x : Option α} (h : StatusIn P (.error e : Except Exn α)) :
    StatusIn P (orElse e x) := by
  cases x
  · exact h
  · exact .ok _

end StatusIn

/-- A computation that is answered, when it raises an `HTTPException`, with an error status. -/
def Refuses {α : Type} (x : Except Exn α) : Prop :=
  ∀ status detail, x = .error (.http status detail) → 400 ≤ status

theorem Refuses.ok {α : Type} (a : α) : Refuses (.ok a : Except Exn α) := StatusIn.ok a

theorem Refuses.raised {α : Type} : Refuses (.error .raised : Except Exn α) := StatusIn.raised

theorem Refuses.http {α : Type} {status : Nat} {detail : Detail} (h : 400 ≤ status) :
    Refuses (.error (.http status detail) : Except Exn α) :=
  StatusIn.http (P := (400 ≤ ·)) h

theorem Refuses.of_error {α β : Type} {x : Except Exn α} {e : Exn} (h : Refuses x)
    (he : x = .error e) : Refuses (.error e : Except Exn β) :=
  StatusIn.of_error h he

theorem Refuses.bind {α β : Type} {x : Except Exn α} {f : α → Except Exn β} (hx : Refuses x)
    (hf : ∀ a, Refuses (f a)) : Refuses (x >>= f) :=
  StatusIn.bind hx hf

theorem Refuses.reject {bad : Bool} {status : Nat} {detail : Detail} (h : 400 ≤ status) :
    Refuses (reject bad status detail) :=
  StatusIn.reject (P := (400 ≤ ·)) h

theorem Refuses.orElse {α : Type} {e : Exn} {x : Option α}
    (h : Refuses (.error e : Except Exn α)) : Refuses (orElse e x) :=
  StatusIn.orElse h

/-- `x.get(k)`: only an object has the method. -/
def dictGet (x : Json) (k : String) : Except Exn (Option Json) :=
  match x with
  | .obj ms => .ok (ms.lookup k)
  | _ => .error .raised

theorem dictGet_eq_ok {x : Json} {k : String} {v : Option Json} (h : dictGet x k = .ok v) :
    v = x.get? k := by
  cases x <;> simp [dictGet, Json.get?] at h ⊢
  exact h.symm

theorem dictGet_of_get? {x v : Json} {k : String} (h : x.get? k = some v) (k' : String) :
    dictGet x k' = .ok (x.get? k') := by
  cases x with
  | obj ms => rfl
  | _ => cases h

theorem isObj_of_get? {x v : Json} {k : String} (h : x.get? k = some v) : x.isObj = true := by
  cases x with
  | obj ms => rfl
  | _ => cases h

/-- A member that is the text the code compares it with passes. -/
theorem isStr_of_get? {x : Json} {k s : String} (h : x.get? k = some (.str s)) :
    (!((x.get? k).getD .null).isStr s) = false := by
  rw [h, Option.getD_some, Json.isStr_iff.mpr rfl, Bool.not_true]

theorem dictGet_bind_iff {β : Type} {x : Json} {k : String} {f : Option Json → Except Exn β}
    {y : Except Exn β} : (dictGet x k >>= f) = y ↔
      x.isObj = false ∧ y = .error .raised ∨ x.isObj = true ∧ f (x.get? k) = y := by
  cases x with
  | obj ms => exact ⟨fun h => .inr ⟨rfl, h⟩, fun h => h.elim (fun h => by cases h.1) And.right⟩
  | _ => exact ⟨fun h => .inl ⟨rfl, h.symm⟩, fun h => h.elim (·.2.symm) (fun h => by cases h.1)⟩

theorem StatusIn.dictGet {P : Nat → Prop} (x : Json) (k : String) : StatusIn P (dictGet x k) := by
  cases x with
  | obj ms => exact .ok _
  | _ => exact .raised

theorem Refuses.dictGet (x : Json) (k : String) : Refuses (dictGet x k) := StatusIn.dictGet x k

/-- `x.get(k)` with `None` for a JSON null. -/
def nonNull : Option Json → Option Json
  | some .null => none
  | x => x

/-- A request to one of the ACME endpoints. -/
structure HttpRequest where
  contentType : String
  body : List UInt8
  url : String

/-! ### Problem types -/

namespace AcmeErrors

def urnPrefix : String := "urn:ietf:params:acme:error:"

def connection : String := urnPrefix ++ "connection"
def dns : String := urnPrefix ++ "dns"
def malformed : String := urnPrefix ++ "malformed"
def orderNotReady : String := urnPrefix ++ "orderNotReady"
def rateLimited : String := urnPrefix ++ "rateLimited"
def rejectedIdentifier : String := urnPrefix ++ "rejectedIdentifier"
def serverInternal : String := urnPrefix ++ "serverInternal"
def unauthorized : String := urnPrefix ++ "unauthorized"
def accountDoesNotExist : String := urnPrefix ++ "accountDoesNotExist"

end AcmeErrors

end Jackdaw
