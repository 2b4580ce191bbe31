import Jackdaw.Support.Simulation
import Mathlib.Logic.Function.Basic

/-!
# Relay — the order book

What the relay is for, without its tables, tasks and statements: a book of orders, each of one
account and for one name, each at one stage.  An act moves one order by one stage, or restarts the
relay; a `look` changes nothing.  Accounts, names, certificates and problems are of any types.

* `orderBook`: the book as a specification.
* `Stage.Past`: what has been done about an order at a stage, everything and in which order.
* `orderBook_past`: that is what every run of the book has done.
-/

namespace Jackdaw

open Support

/-- The stages of an order: `κ` are certificates, `π` problems. -/
inductive Stage (κ π : Type) where
  | pending
  | validating
  | ready
  | issuing
  | valid (cert : κ)
  /-- The name was not validated. -/
  | refused (why : π)
  /-- There is no certificate, though the name was validated. -/
  | failed (why : π)
  /-- A restart came while the name was validated. -/
  | abandoned (why : π)
  deriving DecidableEq

/-- An order of the book. -/
structure Booking (α ν κ π : Type) where
  owner : α
  name : ν
  stage : Stage κ π
  deriving DecidableEq

/-- The orders by their identifiers. -/
abbrev OrderBook (ι α ν κ π : Type) := ι → Option (Booking α ν κ π)

/-- What is done to the book; an outcome `none` of a validation is success. -/
inductive Act (ι α ν κ π : Type) where
  | place (owner : α) (id : ι) (name : ν)
  | acknowledge (owner : α) (id : ι)
  | validate (id : ι) (outcome : Option π)
  | claim (owner : α) (id : ι)
  | issue (id : ι) (outcome : Except π κ)
  | restart
  | look (owner : α) (id : ι) (stage : Stage κ π)

namespace Stage

variable {κ π : Type}

def acknowledge : Stage κ π → Option (Stage κ π)
  | .pending => some .validating
  | _ => none

def validate (outcome : Option π) : Stage κ π → Option (Stage κ π)
  | .validating => some (outcome.elim .ready .refused)
  | _ => none

def claim : Stage κ π → Option (Stage κ π)
  | .ready => some .issuing
  | _ => none

def issue : Except π κ → Stage κ π → Option (Stage κ π)
  | .ok cert, .issuing => some (.valid cert)
  | .error why, .issuing => some (.failed why)
  | _, _ => none

/-- A restart loses what is under way. -/
def restart (lost : π) : Stage κ π → Stage κ π
  | .validating => .abandoned lost
  | .issuing => .failed lost
  | s => s

end Stage

section

variable {ι α ν κ π : Type} [DecidableEq ι]

/-- One order of the book moves on. -/
def OrderBook.move (b : OrderBook ι α ν κ π) (id : ι)
    (f : Booking α ν κ π → Option (Stage κ π)) : Option (OrderBook ι α ν κ π) :=
  (b id).bind fun k => (f k).map fun stage => Function.update b id (some { k with stage })

/-- The book; a restart leaves the problem `lost`. -/
def orderBook (ι α ν κ π : Type) [DecidableEq ι] [DecidableEq α] [DecidableEq κ] [DecidableEq π]
    (lost : π) : Spec (OrderBook ι α ν κ π) (Act ι α ν κ π) where
  init _ := none
  act b
    | .place owner id name =>
        if (b id).isNone then some (Function.update b id (some ⟨owner, name, .pending⟩)) else none
    | .acknowledge owner id =>
        b.move id fun k => if k.owner = owner then k.stage.acknowledge else none
    | .validate id outcome => b.move id fun k => k.stage.validate outcome
    | .claim owner id => b.move id fun k => if k.owner = owner then k.stage.claim else none
    | .issue id outcome => b.move id fun k => Stage.issue outcome k.stage
    | .restart => some fun id => (b id).map fun k => { k with stage := k.stage.restart lost }
    | .look owner id stage =>
        if (b id).any fun k => decide (k.owner = owner ∧ k.stage = stage) then some b else none

theorem OrderBook.move_eq_some {b b' : OrderBook ι α ν κ π} {id : ι}
    {f : Booking α ν κ π → Option (Stage κ π)} : b.move id f = some b' ↔
      ∃ k stage, b id = some k ∧ f k = some stage ∧
        b' = Function.update b id (some { k with stage }) := by
  simp only [OrderBook.move, Option.bind_eq_some_iff, Option.map_eq_some_iff]
  constructor
  · rintro ⟨k, hk, stage, hf, rfl⟩
    exact ⟨k, stage, hk, hf, rfl⟩
  · rintro ⟨k, stage, hk, hf, rfl⟩
    exact ⟨k, hk, stage, hf, rfl⟩

/-! ### What was done about an order -/

/-- The order an act is about. -/
def Act.about : Act ι α ν κ π → Option ι
  | .place _ id _ | .acknowledge _ id | .validate id _ | .claim _ id | .issue id _ => some id
  | .restart | .look _ _ _ => none

/-- The acts about an order. -/
def pastOf (ws : List (Act ι α ν κ π)) (id : ι) : List (Act ι α ν κ π) :=
  ws.filter fun w => decide (w.about = some id)

/-- What was done about an order whose name is validated. -/
def validatedPast (id : ι) (owner : α) (name : ν) : List (Act ι α ν κ π) :=
  [.validate id none, .acknowledge owner id, .place owner id name]

/-- **What was done about an order at a stage**: all of it, in this order. -/
def Stage.Past (id : ι) (owner : α) (name : ν) (ws : List (Act ι α ν κ π)) : Stage κ π → Prop
  | .pending => ws = [.place owner id name]
  | .validating | .abandoned _ => ws = [.acknowledge owner id, .place owner id name]
  | .refused why => ws = [.validate id (some why), .acknowledge owner id, .place owner id name]
  | .ready => ws = validatedPast id owner name
  | .issuing => ws = .claim owner id :: validatedPast id owner name
  | .valid cert => ws = .issue id (.ok cert) :: .claim owner id :: validatedPast id owner name
  | .failed why =>
      ws = .claim owner id :: validatedPast id owner name ∨
        ws = .issue id (.error why) :: .claim owner id :: validatedPast id owner name

section Past

omit [DecidableEq ι]

variable {s s' : Stage κ π} {id : ι} {owner : α} {name : ν} {ws : List (Act ι α ν κ π)}

theorem Stage.Past.acknowledge (h : s.Past id owner name ws) (hs : s.acknowledge = some s') :
    s'.Past id owner name (.acknowledge owner id :: ws) := by
  cases s <;> cases hs
  exact congrArg (List.cons _) h

theorem Stage.Past.validate {outcome : Option π} (h : s.Past id owner name ws)
    (hs : s.validate outcome = some s') : s'.Past id owner name (.validate id outcome :: ws) := by
  cases s <;> cases hs
  cases outcome with
  | none => exact congrArg (List.cons _) h
  | some why => exact congrArg (List.cons _) h

theorem Stage.Past.claim (h : s.Past id owner name ws) (hs : s.claim = some s') :
    s'.Past id owner name (.claim owner id :: ws) := by
  cases s <;> cases hs
  exact congrArg (List.cons _) h

theorem Stage.Past.issue {outcome : Except π κ} (h : s.Past id owner name ws)
    (hs : Stage.issue outcome s = some s') : s'.Past id owner name (.issue id outcome :: ws) := by
  cases outcome with
  | ok cert =>
      cases s <;> cases hs
      exact congrArg (List.cons _) h
  | error why =>
      cases s <;> cases hs
      exact .inr (congrArg (List.cons _) h)

/-- A failure leaves open whether the task ended with it, or a restart ended the task. -/
theorem Stage.Past.restart (lost : π) (h : s.Past id owner name ws) :
    (s.restart lost).Past id owner name ws := by
  cases s with
  | issuing => exact .inl h
  | _ => exact h

end Past

/-- The past of what the book has at `id`. -/
def PastAt (ws : List (Act ι α ν κ π)) (id : ι) : Option (Booking α ν κ π) → Prop
  | none => pastOf ws id = []
  | some k => k.stage.Past id k.owner k.name (pastOf ws id)

section

variable {w : Act ι α ν κ π} {ws : List (Act ι α ν κ π)} {b b' : OrderBook ι α ν κ π} {id : ι}

theorem pastOf_cons (w : Act ι α ν κ π) (ws : List (Act ι α ν κ π)) (id : ι) :
    pastOf (w :: ws) id = if w.about = some id then w :: pastOf ws id else pastOf ws id := by
  simp only [pastOf, List.filter_cons, decide_eq_true_eq]

/-- An act about something else. -/
theorem PastAt.skip {k : Option (Booking α ν κ π)} (h : PastAt ws id k) (hw : w.about ≠ some id) :
    PastAt (w :: ws) id k := by
  cases k with
  | none =>
      rw [PastAt, pastOf_cons, if_neg hw]
      exact h
  | some k =>
      rw [PastAt, pastOf_cons, if_neg hw]
      exact h

/-- An act that puts its order at a stage, if the past is then the one of that stage. -/
theorem pastAt_update (hI : ∀ j, PastAt ws j (b j)) (hw : w.about = some id)
    {k : Booking α ν κ π} (hk : k.stage.Past id k.owner k.name (w :: pastOf ws id)) (j : ι) :
    PastAt (w :: ws) j (Function.update b id (some k) j) := by
  by_cases e : j = id
  · subst e
    rw [Function.update_self, PastAt, pastOf_cons, if_pos hw]
    exact hk
  · rw [Function.update_of_ne e]
    refine (hI j).skip ?_
    rw [hw]
    exact fun h => e (Option.some.inj h).symm

theorem pastAt_move (hI : ∀ j, PastAt ws j (b j)) (hw : w.about = some id)
    {f : Booking α ν κ π → Option (Stage κ π)} (hm : b.move id f = some b')
    (hs : ∀ k stage, f k = some stage → k.stage.Past id k.owner k.name (pastOf ws id) →
      stage.Past id k.owner k.name (w :: pastOf ws id)) (j : ι) : PastAt (w :: ws) j (b' j) := by
  obtain ⟨k, stage, hk, hf, rfl⟩ := OrderBook.move_eq_some.mp hm
  have hpast := hI id
  rw [hk] at hpast
  exact pastAt_update (k := { k with stage }) hI hw (hs k stage hf hpast) j

/-- **The past of an order is the one of its stage**, in every run of the book. -/
theorem orderBook_past [DecidableEq α] [DecidableEq κ] [DecidableEq π] {lost : π}
    (h : (orderBook ι α ν κ π lost).run ws = some b) (id : ι) : PastAt ws id (b id) := by
  refine Spec.run_invariant (A := orderBook ι α ν κ π lost)
    (I := fun ws b => ∀ j, PastAt ws j (b j)) (fun _ => rfl) ?_ h id
  intro ws b w b' hI hw
  cases w with
  | place owner id name =>
      have hw : (if (b id).isNone then some (Function.update b id
        (some ⟨owner, name, .pending⟩)) else none) = some b' := hw
      split at hw
      · next hnone =>
        cases hw
        have hpast := hI id
        rw [Option.isNone_iff_eq_none.mp hnone] at hpast
        refine pastAt_update hI rfl ?_
        rw [show pastOf ws id = [] from hpast]
        rfl
      · cases hw
  | acknowledge owner id =>
      refine pastAt_move hI rfl hw fun k stage hf hpast => ?_
      split at hf
      · next e =>
        subst e
        exact hpast.acknowledge hf
      · cases hf
  | validate id outcome => exact pastAt_move hI rfl hw fun k stage hf hpast => hpast.validate hf
  | claim owner id =>
      refine pastAt_move hI rfl hw fun k stage hf hpast => ?_
      split at hf
      · next e =>
        subst e
        exact hpast.claim hf
      · cases hf
  | issue id outcome => exact pastAt_move hI rfl hw fun k stage hf hpast => hpast.issue hf
  | restart =>
      cases Option.some.inj hw
      intro j
      have hpast := (hI j).skip (w := .restart) fun e => by cases e
      show PastAt _ j ((b j).map fun k => { k with stage := k.stage.restart lost })
      cases hb : b j with
      | none =>
          rw [hb] at hpast
          exact hpast
      | some k =>
          rw [hb] at hpast
          exact Stage.Past.restart lost hpast
  | look owner id stage =>
      have hw : (if (b id).any fun k => decide (k.owner = owner ∧ k.stage = stage) then some b
        else none) = some b' := hw
      split at hw
      · cases hw
        exact fun j => (hI j).skip fun e => by cases e
      · cases hw

end

end

end Jackdaw
