import Jackdaw.Relay.Rows

/-!
# Relay — challenge POSTs and validating tasks

`acknowledge_challenge` turns a pending authorization to processing before it creates the
validating task, which is to keep a second POST from creating another one.  But a POST that finds
the authorization processing creates one too, and the status is the one the handler loaded before
its last awaits: two POSTs for one authorization have two tasks (`acknowledged_twice`).

* `acknowledged_once`: in a run in which no POST gets past the checks of an authorization once
  another has, and is still on its way or has created the task, every authorization has at most one
  validating task, exactly one once a POST was answered 200, and never two at a time.
-/

namespace Jackdaw

open Support Support.Interleave

/-! ### Counting -/

theorem Entry.validates_iff {e : Entry} {z : String} :
    e.validates z = true ↔ ∃ id, e.seg.spawn = some (.runChallenge z id) := by
  unfold Entry.validates
  split
  · rename_i z' id hs
    rw [hs, decide_eq_true_eq]
    constructor
    · rintro rfl
      exact ⟨id, rfl⟩
    · rintro ⟨_, e⟩
      cases e
      rfl
  · rename_i hs
    constructor
    · rintro ⟨⟩
    · rintro ⟨id, e⟩
      exact absurd e (hs _ _)

theorem validations_cons (e : Entry) (l : List Entry) (z : String) :
    validations (e :: l) z = validations l z + if e.validates z then 1 else 0 :=
  List.countP_cons

/-! ### Past the checks -/

/-- The coroutine is an `acknowledge_challenge` for `z` past its checks. -/
def Pc.past : Pc → Option String
  | .challenge _ z (.flush _) => some z
  | .challenge _ z (.commit _ _) => some z
  | _ => none

/-- The entry is an `acknowledge_challenge` for `z` that gets past its checks: the requesting
account owns the order, and the authorization was loaded pending or processing. -/
def Entry.Passes (e : Entry) (z : String) : Prop :=
  ∃ a authz, e.pc = .challenge a z (.owner authz) ∧
    requireParentOwner a (e.pre.orders.get authz.orderId) = .ok () ∧
    (authz.status = .pending ∨ authz.status = .processing) ∧ e.seg.next ≠ .dbError

/-- **A POST gets past the checks of an authorization first**: no other one is past them and on its
way, and no validating task was created. -/
def FirstPost (c c' : Relay) : Prop :=
  ∀ e, c'.shared.log = e :: c.shared.log → ∀ z, e.Passes z →
    validations c.shared.log z = 0 ∧ ∀ j u, c.tasks j = some u → j ≠ e.tid → u.pc.past ≠ some z

section

variable {o : Oracle} {cfg : Settings} {c : Relay} {i : Nat} {t u : Task} {seg : Seg Pc}
  {out : Outcome Shared Task}

/-- The checks of `acknowledge_challenge`: the handler moves on past them, creates the task, or
ends without an effect. -/
theorem Turn.challenge_owner (h : Turn o cfg c i t seg out) {a z : String} {authz : Authorization}
    (hpc : t.pc = .challenge a z (.owner authz)) :
    (h.entry.Passes z ∧ (seg = .goto (.challenge a z (.flush authz)) ∨
      seg = (startChallenge cfg z authz).map (.challenge a z))) ∨
    seg.Quiet ∧ seg.Refuses := by
  rcases h.runs with ⟨ch, hseg⟩ | rfl
  · rw [hpc] at hseg
    have hseg := Option.some.inj hseg
    rcases hx : requireParentOwner a (c.shared.db.orders.get authz.orderId) with e | x
    · simp only [challengeSeg, hx] at hseg
      subst hseg
      refine .inr ⟨(Seg.fail_quiet _).map _, .map (.fail fun status detail he => ?_) _⟩
      cases he
      exact requireParentOwner_refuses _ _ _ _ hx
    · have hpass (hst : authz.status = .pending ∨ authz.status = .processing)
          (hn : seg.next ≠ .dbError) : h.entry.Passes z := ⟨a, authz, hpc, hx, hst, hn⟩
      simp only [challengeSeg, hx, Seg.attempt] at hseg
      split at hseg
      · exact .inl ⟨hpass (.inl (by assumption)) (hseg ▸ fun e => (by cases e)), .inl hseg.symm⟩
      · exact .inl ⟨hpass (.inr (by assumption)) (hseg ▸ fun e => (by cases e)), .inr hseg.symm⟩
      · subst hseg
        exact .inr ⟨(Seg.fail_quiet _).map _, .map (.fail (.http (by decide))) _⟩
  · exact .inr ⟨Seg.dbError_quiet, fun _ hr => by cases hr⟩

/-- `acknowledge_challenge` checks the row it has just loaded. -/
theorem Turn.challenge_loads (h : Turn o cfg c i t seg out) (hu : out.self = some u) {a z : String}
    {authz : Authorization} (hq : u.pc = .challenge a z (.owner authz)) :
    c.shared.db.authorizations.get z = some authz := by
  obtain ⟨ch, hseg⟩ := h.goes_on hu
  have hn := (h.self hu).1
  rcases h.stays_or_starts hu with e | hs | ⟨a, p, e⟩
  · rw [hq] at e hn
    obtain ⟨p, hpc⟩ := Pc.eq_challenge e.symm
    cases p with
    | get =>
        rw [hpc] at hseg
        have hr : seg.Reads fun q => ∀ authz, q = .challenge a z (.owner authz) →
            c.shared.db.authorizations.get z = some authz := by
          refine (Option.some.inj hseg) ▸ .map _ (.attempt fun authz' ha => .goto fun authz e => ?_)
          cases e
          exact orElse_eq_ok.mp ha
        exact hr.of_goto hn authz rfl
    | owner authz' =>
        rcases h.challenge_owner hpc with ⟨-, rfl | rfl⟩ | ⟨hquiet, -⟩
        · cases hn
        · cases hn
        · exact absurd hn (hquiet.next _)
    | flush authz' | commit authz' flush =>
        rw [hpc] at hseg
        rw [← Option.some.inj hseg] at hn
        cases hn
  · rw [hq] at hs
    cases hs
  · rw [hq] at e
    cases e

/-- A task past the checks got there just now, or was there. -/
theorem Turn.past (h : Turn o cfg c i t seg out) (hu : out.self = some u) {z : String}
    (hp : u.pc.past = some z) : h.entry.Passes z ∨ t.pc.past = some z := by
  obtain ⟨ch, hseg⟩ := h.goes_on hu
  have hn := (h.self hu).1
  have hco : ∃ a q, u.pc = .challenge a z q ∧ q ≠ .get := by
    unfold Pc.past at hp
    split at hp
    · rename_i e
      cases hp
      exact ⟨_, _, e, nofun⟩
    · rename_i e
      cases hp
      exact ⟨_, _, e, nofun⟩
    · cases hp
  obtain ⟨a, q, hq, hne⟩ := hco
  rcases h.stays_or_starts hu with e | hs | ⟨a', p', e⟩
  · rw [hq] at e
    obtain ⟨p, hpc⟩ := Pc.eq_challenge e.symm
    cases p with
    | get =>
        rw [hpc] at hseg
        have hr : seg.Reads fun p => p.past = none :=
          (Option.some.inj hseg) ▸ .map _ (.attempt fun _ _ => .goto rfl)
        rw [hr.of_goto hn] at hp
        cases hp
    | owner authz =>
        rcases h.challenge_owner hpc with ⟨hpass, -⟩ | ⟨hquiet, -⟩
        · exact .inl hpass
        · exact absurd hn (hquiet.next _)
    | flush authz | commit authz flush =>
        rw [hpc]
        exact .inr rfl
  · -- a handler that starts has checked nothing
    rw [hq] at hs
    cases q with
    | get => exact absurd rfl hne
    | _ => cases hs
  · rw [e] at hq
    cases hq

/-- A validating task is created past the checks, or by a POST that gets past them, and in the
last segment of the POST. -/
theorem Turn.validates (h : Turn o cfg c i t seg out) {z : String}
    (hv : h.entry.validates z = true) :
    (h.entry.Passes z ∨ t.pc.past = some z) ∧ ∃ r, seg.next = .respond r := by
  obtain ⟨id, hs⟩ := Entry.validates_iff.mp hv
  have hs : seg.spawn = some (.runChallenge z id) := hs
  have hsp := h.proper.spawn _ hs
  unfold Pc.Spawns at hsp
  split at hsp
  · cases hsp.2
  · rename_i a z' authz hpc
    cases hsp.2
    rcases h.challenge_owner hpc with ⟨hpass, rfl | rfl⟩ | ⟨hquiet, -⟩
    · cases hs
    · exact ⟨.inl hpass, _, rfl⟩
    · rw [hquiet.spawn] at hs
      cases hs
  · rename_i a z' authz flush hpc
    cases hsp
    refine ⟨.inr (by rw [hpc]; rfl), ?_⟩
    rcases h.runs with ⟨ch, hseg⟩ | rfl
    · rw [hpc] at hseg
      have hseg := Option.some.inj hseg
      subst hseg
      exact ⟨_, rfl⟩
    · cases hs
  · exact hsp.elim

/-- **Two POSTs are not past the checks at once.** -/
theorem past_unique (hr : Reach (relay o cfg) FirstPost .init c) {i j : Nat} {t u : Task}
    (hi : c.tasks i = some t) (hj : c.tasks j = some u) (hne : i ≠ j) {z : String}
    (ht : t.pc.past = some z) : u.pc.past ≠ some z := by
  refine Reach.pairwise (R := fun t u : Task => ∀ z, t.pc.past = some z → u.pc.past ≠ some z)
    (fun hR z hu ht => hR z ht hu) ?_ ?_ hr hi hj hne z ht
  · intro c i t a out hr ht ho hp
    obtain ⟨seg, h⟩ := turn_of_run hr ht ho
    have hchild : ∀ {v}, out.child = some v → ∀ z, v.pc.past ≠ some z := by
      intro v hv z
      rw [h.child] at hv
      obtain ⟨b, -, rfl⟩ := Option.map_eq_some_iff.mp hv
      cases b <;> exact nofun
    refine ⟨fun u v _ hv z _ => hchild hv z, fun j v hj hne hR => ⟨fun u hu z huz => ?_,
      fun u hu z huz => absurd huz (hchild hu z)⟩⟩
    rcases h.past hu huz with hpass | htz
    · exact (hp h.entry h.log z hpass).2 j v hj hne
    · exact hR z htz
  · intro s a t ha u z htz
    obtain ⟨-, -, ⟨req, e⟩ | ⟨p, e⟩ | ⟨cutoff, e⟩⟩ := arrive_cases ha <;> rw [e] at htz <;> cases htz

/-! ### The validating tasks -/

/-- The coroutine is a `run_challenge` for `z`. -/
def Pc.validating : Pc → Option String
  | .runChallenge z _ _ => some z
  | _ => none

theorem Pc.validating_eq_some {pc : Pc} {z : String} (h : pc.validating = some z) :
    ∃ id, pc.coroutine = .runChallenge z id := by
  cases pc <;> cases h
  exact ⟨_, rfl⟩

/-- What the log says of a task, by where it is suspended: a POST past its checks has seen no
validating task created, and a validating task was created in an entry. -/
def Pc.Acknowledged (i : Nat) (l : List Entry) (pc : Pc) : Prop :=
  (∀ z, pc.past = some z → validations l z = 0) ∧
  ∀ z, pc.validating = some z → ∃ e ∈ l, e.validates z = true ∧ e.child = i

/-- The entry answered a challenge POST for `z` with success. -/
def Entry.Accepts (e : Entry) (z : String) : Prop :=
  (∃ a p, e.pc = .challenge a z p) ∧ ∃ r, e.seg.next = .respond r ∧ r.status = 200

/-- A POST is accepted in the step that creates the task. -/
theorem Turn.accepts (h : Turn o cfg c i t seg out) {z : String} (ha : h.entry.Accepts z) :
    h.entry.validates z = true := by
  obtain ⟨⟨a, p, hpc⟩, r, hr, hst⟩ := ha
  have hpc : t.pc = .challenge a z p := hpc
  have hr : seg.next = .respond r := hr
  rcases h.runs with ⟨ch, hseg⟩ | rfl
  · rw [hpc] at hseg
    have hseg := Option.some.inj hseg
    cases p with
    | get =>
        have href : seg.Refuses := hseg ▸
          Seg.Refuses.map (.attempt (.orElse (.http (by decide))) fun _ _ => .goto _) _
        have := href r hr
        omega
    | owner authz =>
        rcases h.challenge_owner hpc with ⟨-, rfl | rfl⟩ | ⟨-, href⟩
        · cases hr
        · exact Entry.validates_iff.mpr ⟨authz.orderId, rfl⟩
        · have := href r hr
          omega
    | flush authz =>
        rw [← hseg] at hr
        cases hr
    | commit authz flush =>
        subst hseg
        exact Entry.validates_iff.mpr ⟨authz.orderId, rfl⟩
  · cases hr

/-- **No validating task was created before**, when a turn gets past the checks or is past them. -/
theorem Turn.unvalidated (h : Turn o cfg c i t seg out) (hp : FirstPost c (c.after i out))
    (hok : t.pc.Acknowledged i c.shared.log) {z : String}
    (hz : h.entry.Passes z ∨ t.pc.past = some z) : validations c.shared.log z = 0 := by
  rcases hz with hpass | hpast
  · exact (hp h.entry h.log z hpass).1
  · exact hok.1 z hpast

def acknowledgeSafety (o : Oracle) (cfg : Settings) : Safety o cfg FirstPost where
  Inv _ s := (∀ z, validations s.log z ≤ 1) ∧ ∀ e ∈ s.log, ∀ z, e.Accepts z → e.validates z = true
  Ok i s t := t.pc.Acknowledged i s.log
  start := ⟨fun _ => Nat.zero_le 1, List.forall_mem_nil _⟩
  run {c i t seg out} hr h hp hI hok := by
    have hlog : out.shared.log = h.entry :: c.shared.log := h.log
    refine ⟨⟨fun z => ?_, fun e he z => ?_⟩, fun u hu => ⟨fun z hz => ?_, fun z hz => ?_⟩,
      fun b hb => ⟨fun z hz => ?_, fun z hz => ?_⟩⟩
    · rw [hlog, validations_cons]
      split
      · rename_i hv
        rw [h.unvalidated hp hok (h.validates hv).1]
      · exact hI.1 z
    · rw [hlog] at he
      rcases List.mem_cons.mp he with rfl | he
      · exact h.accepts
      · exact hI.2 e he z
    · -- a task that goes on has created nothing
      rw [hlog, validations_cons, h.unvalidated hp hok (h.past hu hz), if_neg]
      intro hv
      obtain ⟨r, hresp⟩ := (h.validates hv).2
      rw [(h.self hu).1] at hresp
      cases hresp
    · obtain ⟨id, hco⟩ := Pc.validating_eq_some hz
      rcases h.coroutine hu with e | ⟨req, a, payload, rowcount, -, e⟩
      · rw [hco] at e
        obtain ⟨q, hq⟩ := Pc.eq_runChallenge e.symm
        obtain ⟨e, he, hv⟩ := hok.2 z (by rw [hq]; rfl)
        exact ⟨e, hlog ▸ List.mem_cons_of_mem _ he, hv⟩
      · rw [hco] at e
        cases hroute : req.route <;> rw [hroute] at e <;> cases e
    · cases b <;> cases hz
    · cases b with
      | runChallenge z' id =>
          cases hz
          exact ⟨h.entry, hlog ▸ List.mem_cons_self, Entry.validates_iff.mpr ⟨id, hb⟩, rfl⟩
      | processFinalize _ _ _ => cases hz
  others {c i j t u seg out} hr h hp _ hok hj hne hu := by
    have hlog : out.shared.log = h.entry :: c.shared.log := h.log
    refine ⟨fun z hz => ?_, fun z hz => ?_⟩
    · rw [hlog, validations_cons, hu.1 z hz, if_neg]
      intro hv
      rcases (h.validates hv).1 with hpass | hpast
      · exact (hp h.entry hlog z hpass).2 j u hj hne hz
      · exact past_unique hr h.task hj (Ne.symm hne) hpast hz
    · obtain ⟨e, he, hv⟩ := hu.2 z hz
      exact ⟨e, hlog ▸ List.mem_cons_of_mem _ he, hv⟩
  request {c t} _ _ _ hpc := by
    rcases hpc with ⟨req, e⟩ | ⟨p, e⟩ | ⟨cutoff, e⟩
    all_goals
      rw [e]
      exact ⟨fun _ h => (by cases h), fun _ h => by cases h⟩
  fresh hI := hI
  clock _ hI := ⟨hI, fun _ _ h => h⟩
  restart hI := ⟨hI, fun _ h => (by cases h), fun _ h => by cases h⟩

/-- One validating task was created for `z`: at most once, once when a POST was accepted, and two
that are under way are the same task. -/
def AcknowledgedOnce (c : Relay) (z : String) : Prop :=
  validations c.shared.log z ≤ 1 ∧
  (∀ e ∈ c.shared.log, e.Accepts z → validations c.shared.log z = 1) ∧
  ∀ i j t u, c.tasks i = some t → c.tasks j = some u →
    t.pc.validating = some z → u.pc.validating = some z → i = j

/-- **One validating task per authorization**, in every run in which POSTs get past the checks one
at a time, and none once the task was created. -/
theorem acknowledged_once (h : Reach (relay o cfg) FirstPost .init c) (z : String) :
    AcknowledgedOnce c z := by
  obtain ⟨⟨hle, hacc⟩, hok⟩ := (acknowledgeSafety o cfg).reach h
  refine ⟨hle z, fun e he ha => ?_, fun i j t u hi hj ht hu => ?_⟩
  · have : 0 < validations c.shared.log z := List.countP_pos_iff.mpr ⟨e, he, hacc e he z ha⟩
    have := hle z
    omega
  · obtain ⟨e, he, hv, rfl⟩ := (hok i t hi).2 z ht
    obtain ⟨e', he', hv', rfl⟩ := (hok j u hj).2 z hu
    rw [unique_of_countP (hle z) he he' hv hv']

end

/-- A test for `FirstPost` that may be run. -/
def firstPost (c c' : Relay) : Bool :=
  c'.shared.log.head?.all fun e =>
    match e.pc with
    | .challenge _ z (.owner _) =>
        decide (validations c.shared.log z = 0) && (List.range c.next).all fun j =>
          decide (j = e.tid) || (c.tasks j).all fun u => decide (u.pc.past ≠ some z)
    | _ => true

theorem firstPost_sound {o : Oracle} {cfg : Settings} {P : Relay → Relay → Prop} {c c' : Relay}
    (hr : Reach (relay o cfg) P .init c) (h : firstPost c c' = true) : FirstPost c c' := by
  rintro e he z ⟨a, authz, hpc, -⟩
  simp only [firstPost, he, List.head?_cons, Option.all_some, hpc, Bool.and_eq_true,
    decide_eq_true_eq] at h
  refine ⟨h.1, fun j u hj hne => ?_⟩
  have := List.all_eq_true.mp h.2 j (List.mem_range.mpr (hr.lt_next hj))
  simpa [hne, hj] using this

theorem acknowledged_once_run :
    ∃ c, Demo.run firstPost Demo.readyOrder = some c ∧
      validations c.shared.log (Demo.uuid 4) = 1 ∧ AcknowledgedOnce c (Demo.uuid 4) := by
  have hrun : (Demo.run firstPost Demo.readyOrder).any (fun c =>
      decide (validations c.shared.log (Demo.uuid 4) = 1)) = true := by decide +kernel
  obtain ⟨c, hc, hone⟩ := (Option.any_eq_true _ _).mp hrun
  exact ⟨c, hc, of_decide_eq_true hone, acknowledged_once (Demo.reach firstPost_sound hc) _⟩

/-- **Two validating tasks at once**: the second of two POSTs finds the authorization processing,
and creates a task beside the one that is under way. -/
theorem acknowledged_twice :
    ¬ ∀ c, Reachable Demo.oracle Demo.settings c → ∀ z, AcknowledgedOnce c z := by
  intro hall
  have hrun : (Demo.run (fun _ _ => true) Demo.postedTwice).any (fun c =>
      ((c.tasks 34).any fun t => decide (t.pc.validating = some (Demo.uuid 4))) &&
      (c.tasks 40).any fun t => decide (t.pc.validating = some (Demo.uuid 4))) = true := by
    decide +kernel
  obtain ⟨c, hc, h⟩ := (Option.any_eq_true _ _).mp hrun
  simp only [Bool.and_eq_true, Option.any_eq_true, decide_eq_true_eq] at h
  obtain ⟨⟨t, ht, hzt⟩, u, hu, hzu⟩ := h
  have := (hall c (Demo.reach (fun _ _ => trivial) hc) (Demo.uuid 4)).2.2 34 40 t u ht hu hzt hzu
  omega

end Jackdaw
