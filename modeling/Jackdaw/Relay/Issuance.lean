import Jackdaw.Relay.Validation

/-!
# Relay — issuances of an order

How often is the issuing task created for one order?  `finalize_order` creates it when its
conditional `UPDATE` finds the order ready, and turns the order to processing in the same
transaction, so a second one needs the order to be turned ready again.

`run_challenge` does that: it writes the status without looking at it, from rows it read before a
network call, and a second challenge POST starts a second `run_challenge` for the same
authorization.  The first one validates, the order is finalized, the second one validates and the
order is ready again: `issued_twice` is that run.

* `issued_at_most_once`: in a run in which no `run_challenge` turns an order ready once the issuing
  task was created for it, the task is created at most once.
-/

namespace Jackdaw

open Support Support.Interleave

theorem Entry.issues_iff {e : Entry} {id : String} :
    e.issues id = true ↔ ∃ domain csrDer, e.seg.spawn = some (.processFinalize id domain csrDer) := by
  unfold Entry.issues
  split
  · rename_i id' domain csrDer hs
    rw [hs, decide_eq_true_eq]
    constructor
    · rintro rfl
      exact ⟨domain, csrDer, rfl⟩
    · rintro ⟨_, _, e⟩
      cases e
      rfl
  · rename_i hs
    constructor
    · rintro ⟨⟩
    · rintro ⟨domain, csrDer, e⟩
      exact absurd e (hs _ _ _)

theorem issuances_cons (e : Entry) (l : List Entry) (id : String) :
    issuances (e :: l) id = issuances l id + if e.issues id then 1 else 0 :=
  List.countP_cons

/-- **The step is not a late one**: no `run_challenge` commits `ready` for an order whose issuing
task was created already. -/
def NoLateReady (c c' : Relay) : Prop :=
  ∀ e, c'.shared.log = e :: c.shared.log →
    ∀ z id flush, e.pc = .runChallenge z id (.commit flush) → SetsReady id flush →
      e.seg.commit = true → issuances c.shared.log id = 0

section

variable {o : Oracle} {cfg : Settings} {c : Relay} {i : Nat} {t : Task} {seg : Seg Pc}
  {out : Outcome Shared Task}

/-- The issuing task of an order is created by the commit of a `finalize_order` that found it
ready. -/
theorem Turn.issues (h : Turn o cfg c i t seg out) (hk : t.pc.Knows i c.shared t.tx)
    {id domain : String} {csrDer : List UInt8}
    (hs : seg.spawn = some (.processFinalize id domain csrDer)) :
    ∃ a order rowcount, t.pc = .finalize a id (.commit order csrDer domain rowcount) ∧
      c.shared.db.orderStatus id = some .ready ∧
      out.shared.db.orderStatus id = some .processing := by
  have hsp := h.proper.spawn _ hs
  unfold Pc.Spawns at hsp
  split at hsp
  · rename_i a id' order csrDer' domain' rowcount hpc
    obtain ⟨hrow, e⟩ := hsp
    cases e
    have hc : seg.commit = true := by
      rcases h.runs with ⟨ch, hseg⟩ | rfl
      · rw [hpc] at hseg
        have hseg := Option.some.inj hseg
        simp only [finalizeSeg, hrow, if_false] at hseg
        rw [← hseg]
        rfl
      · cases hs
    rcases h.finalize_commit hk hpc hc with ⟨-, hready, -, hproc, -⟩ | ⟨h0, -⟩
    · exact ⟨a, order, rowcount, hpc, hready, hproc⟩
    · exact absurd h0 hrow
  · cases hsp.2
  · cases hsp
  · exact hsp.elim

/-- An order whose issuing task was created is not ready, and the task was created once. -/
def IssuedOnce (s : Shared) : Prop :=
  ∀ id, issuances s.log id ≤ 1 ∧ (issuances s.log id = 1 → s.db.orderStatus id ≠ some .ready)

theorem Turn.issuedOnce (h : Turn o cfg c i t seg out) (hk : t.pc.Knows i c.shared t.tx)
    (hp : NoLateReady c (c.after i out)) (hI : IssuedOnce c.shared) : IssuedOnce out.shared := by
  intro id
  obtain ⟨hle, hnot⟩ := hI id
  have hlog := h.log
  cases hiss : Entry.issues ⟨i, t.pc, seg, c.shared.db, out.shared.db, c.shared.now, c.next⟩ id with
  | true =>
      -- the order was ready, so the task had not been created
      obtain ⟨domain, csrDer, hs⟩ := Entry.issues_iff.mp hiss
      obtain ⟨a, order, rowcount, -, hready, hproc⟩ := h.issues hk hs
      have hzero : issuances c.shared.log id = 0 := by
        have : issuances c.shared.log id ≠ 1 := fun h1 => hnot h1 hready
        omega
      have hone : issuances out.shared.log id = 1 := by
        rw [hlog, issuances_cons, hiss, hzero]
        rfl
      refine ⟨hone.le, fun _ => ?_⟩
      rw [hproc]
      simp
  | false =>
      have hsame : issuances out.shared.log id = issuances c.shared.log id := by
        rw [hlog, issuances_cons, hiss]
        rfl
      rw [hsame]
      refine ⟨hle, fun h1 hready => ?_⟩
      -- a late `run_challenge` would have had to turn it ready
      obtain ⟨z, flush, hpc, hset⟩ := h.turns_ready hk hready (hnot h1)
      have hcommit : seg.commit = true := by
        by_contra hc
        rw [h.db_eq (Bool.eq_false_iff.mpr hc)] at hready
        exact hnot h1 hready
      have := hp _ hlog z id flush hpc hset hcommit
      omega

def issuanceSafety (o : Oracle) (cfg : Settings) : Safety o cfg NoLateReady where
  Inv _ s := IssuedOnce s
  Ok _ _ _ := True
  start := fun _ => ⟨Nat.zero_le 1, fun h => by cases h⟩
  run hr h hp hI _ := ⟨h.issuedOnce (knows hr h.task) hp hI, fun _ _ => trivial, fun _ _ => trivial⟩
  others _ _ _ _ _ _ _ _ := trivial
  request _ _ _ _ := trivial
  fresh hI := hI
  clock _ hI := ⟨hI, fun _ _ _ => trivial⟩
  restart hI := ⟨hI, trivial⟩

/-- **At most one issuance per order**, in every run without a late `run_challenge`. -/
theorem issued_at_most_once (h : Reach (relay o cfg) NoLateReady .init c) (id : String) :
    issuances c.shared.log id ≤ 1 :=
  (((issuanceSafety o cfg).reach h).1 id).1

end

/-- A test for `NoLateReady` that may be run. -/
def noLateReady (c c' : Relay) : Bool :=
  c'.shared.log.head?.all fun e =>
    match e.pc with
    | .runChallenge _ id (.commit _) => !e.seg.commit || decide (issuances c.shared.log id = 0)
    | _ => true

theorem noLateReady_sound {c c' : Relay} (h : noLateReady c c' = true) : NoLateReady c c' := by
  intro e he z id flush hpc _ hc
  simpa only [noLateReady, he, List.head?_cons, Option.all_some, hpc, hc, Bool.not_true,
    Bool.false_or, decide_eq_true_eq] using h

theorem issued_at_most_once_run :
    ∃ c, Demo.run noLateReady Demo.finalizedOrder = some c ∧
      issuances c.shared.log (Demo.uuid 3) = 1 ∧ issuances c.shared.log (Demo.uuid 3) ≤ 1 := by
  have hrun : (Demo.run noLateReady Demo.finalizedOrder).any (fun c =>
      decide (issuances c.shared.log (Demo.uuid 3) = 1)) = true := by decide +kernel
  obtain ⟨c, hc, hone⟩ := (Option.any_eq_true _ _).mp hrun
  exact ⟨c, hc, of_decide_eq_true hone,
    issued_at_most_once (Demo.reach (fun _ => noLateReady_sound) hc) (Demo.uuid 3)⟩

/-- **Two issuing tasks for one order.** -/
theorem issued_twice :
    ¬ ∀ c, Reachable Demo.oracle Demo.settings c → ∀ id, issuances c.shared.log id ≤ 1 := by
  intro hall
  obtain ⟨c, hc, -, htwo, -⟩ := Demo.acknowledgedTwice_run
  have := hall c (Demo.reach (fun _ _ => trivial) hc) (Demo.uuid 3)
  omega

end Jackdaw
