import Jackdaw.Services.Nonce
import Mathlib.Data.Fintype.EquivFin

/-!
# Services — the ceiling of the nonce store

`generate_nonce` counts the rows in one statement and stores its nonce in a later one.  Between the
two the call is *admitted*: it will store, whatever the others have stored by then.

* `rows_add_admitted_le`: if every call is admitted with room for those admitted before it, the
  table stays below the ceiling.
* `overflow_of_admitted`: a call admitted without it, the table can exceed the ceiling.
-/

namespace Jackdaw

open Support Support.Interleave

/-- How many calls are past the count and have not stored their nonce. -/
def admitted (c : Config NonceStore NonceCall) : Nat := c.count fun t => decide (t = .insert)

/-- A step that admits a call finds room for it and those admitted before. -/
def RoomForAdmitted (cfg : Settings) (c c' : Config NonceStore NonceCall) : Prop :=
  admitted c < admitted c' → (c.shared.nonces.rows.length + admitted c : Int) < cfg.nonceMax

instance (cfg : Settings) (c c' : Config NonceStore NonceCall) :
    Decidable (RoomForAdmitted cfg c c') :=
  inferInstanceAs (Decidable (_ → _))

section Ceiling

variable {cfg : Settings} {P : Config NonceStore NonceCall → Config NonceStore NonceCall → Prop}
  {c c' : Config NonceStore NonceCall} {i : Nat} {t : NonceCall} {a : NonceInput}
  {o : Outcome NonceStore NonceCall}

/-- **What a statement does to the ceiling**: it stores the nonce of an admitted call, it admits one,
or it does neither and adds no row. -/
theorem NonceCall.run_cases {s : NonceStore} (h : t.run cfg s a = some o) : o.child = none ∧
    (t = .insert ∧ o.self = none ∧ o.shared.nonces.rows.length = s.nonces.rows.length + 1 ∨
      t = .count ∧ o.self = some .insert ∧ o.shared = s ∨
      t ≠ .insert ∧ o.self = none ∧
        o.shared.nonces.rows.length ≤ s.nonces.rows.length) := by
  cases t with
  | count =>
      cases Option.some.inj h
      refine ⟨rfl, .inr ?_⟩
      by_cases hcap : nonceCapReached cfg s.nonces = true
      · exact .inr ⟨nofun, if_pos hcap, le_rfl⟩
      · exact .inl ⟨rfl, if_neg hcap, rfl⟩
  | insert =>
      cases a with
      | token v =>
          obtain ⟨t, ht, rfl⟩ := Option.map_eq_some_iff.mp h
          exact ⟨rfl, .inl ⟨rfl, rfl, Table.length_insert? ht⟩⟩
      | call k => cases h
      | clock t => cases h
  | consume v =>
      cases Option.some.inj h
      exact ⟨rfl, .inr (.inr ⟨nofun, rfl, (Table.length_updateWhere ..).le⟩)⟩
  | prune =>
      cases Option.some.inj h
      exact ⟨rfl, .inr (.inr ⟨nofun, rfl, Table.length_deleteWhere_le ..⟩)⟩

/-- Where there is a ceiling, a call that arrives has to count. -/
theorem NonceCall.arrives_ne_insert (hmax : 0 < cfg.nonceMax) (h : t.arrives cfg = true) :
    t ≠ .insert := by
  rintro rfl
  rw [NonceCall.arrives, decide_eq_true_eq] at h
  omega

/-- **A step admits a call and leaves the table alone**, or it admits none, and rows and admitted
calls together do not grow. -/
theorem step_rows_add_admitted (hmax : 0 < cfg.nonceMax) (hr : Reach (nonceMachine cfg) P .empty c)
    {b : Action NonceInput} (hs : (nonceMachine cfg).step c b = some c') :
    admitted c' = admitted c + 1 ∧ c'.shared = c.shared ∨ admitted c' ≤ admitted c ∧
      c'.shared.nonces.rows.length + admitted c' ≤ c.shared.nonces.rows.length + admitted c := by
  rcases Machine.step_cases hs with ⟨i, d, t, o, -, hi, ho, rfl⟩ | ⟨d, t, -, ht, rfl⟩ |
      ⟨d, s, -, hd, rfl⟩ | ⟨d, s, t, -, hd, rfl⟩
  · have hcount : admitted (c.after i o) + (decide (t = .insert)).toNat = admitted c +
        (o.self.any fun t => decide (t = .insert)).toNat +
        (o.child.any fun t => decide (t = .insert)).toNat :=
      Config.count_after o hi (hr.lt_next hi)
    obtain ⟨hchild, ⟨rfl, hself, hrows⟩ | ⟨rfl, hself, hshared⟩ | ⟨hne, hself, hrows⟩⟩ :=
      NonceCall.run_cases ho
    · have hadmitted : admitted (c.after i o) + 1 = admitted c := by
        simpa [hchild, hself] using hcount
      refine .inr ⟨by omega, ?_⟩
      show o.shared.nonces.rows.length + admitted (c.after i o) ≤ _
      omega
    · refine .inl ⟨?_, hshared⟩
      simpa [hchild, hself] using hcount
    · have hadmitted : admitted (c.after i o) = admitted c := by
        simpa [hchild, hself, hne] using hcount
      refine .inr ⟨by omega, ?_⟩
      show o.shared.nonces.rows.length + admitted (c.after i o) ≤ _
      omega
  · have hne : t ≠ .insert := by
      cases d with
      | call k =>
          simp only [nonceMachine] at ht
          split at ht
          · cases Option.some.inj ht
            exact NonceCall.arrives_ne_insert hmax (by assumption)
          · cases ht
      | token v => cases ht
      | clock t => cases ht
    have hadmitted : admitted ⟨c.shared, Function.update c.tasks c.next (some t), c.next + 1⟩ =
        admitted c := by
      refine (Config.count_arrive c t).trans ?_
      rw [decide_eq_false hne]
      rfl
    exact .inr ⟨hadmitted.le, (congrArg (c.shared.nonces.rows.length + ·) hadmitted).le⟩
  · refine .inr ?_
    cases d with
    | clock t =>
        simp only [nonceMachine] at hd
        split at hd
        · cases Option.some.inj hd
          exact ⟨le_rfl, le_rfl⟩
        · cases hd
    | token v => cases hd
    | call k => cases hd
  · cases hd

/-- **With room for every admitted call, the ceiling holds**, and so it does for those still to
store. -/
theorem rows_add_admitted_le (hmax : 0 < cfg.nonceMax)
    (h : Reach (nonceMachine cfg) (RoomForAdmitted cfg) .empty c) :
    (c.shared.nonces.rows.length + admitted c : Int) ≤ cfg.nonceMax := by
  induction h with
  | start => exact le_of_lt hmax
  | @step c c' b hr hs hp ih =>
      rcases step_rows_add_admitted hmax hr hs with ⟨hadmitted, hshared⟩ | ⟨-, hle⟩
      · have hroom := hp (by omega)
        rw [hshared, hadmitted]
        push_cast
        omega
      · omega

/-! ### A call admitted without room -/

/-- **Admitted calls store.**  Where rows and admitted calls together exceed the ceiling, the rows
come to exceed it. -/
theorem overflow_of_admitted {n : Nat} (h : Reach (nonceMachine cfg) DistinctTokens .empty c)
    (hn : admitted c = n) (hover : cfg.nonceMax < (c.shared.nonces.rows.length + n : Int)) :
    ∃ as c', (nonceMachine cfg).schedule
        (fun _ c' => decide (generatedValues c'.shared.log).Nodup) c as = some c' ∧
      cfg.nonceMax < (c'.shared.nonces.rows.length : Int) := by
  induction n generalizing c with
  | zero => exact ⟨[], c, rfl, by omega⟩
  | succ n ih =>
      obtain ⟨i, hi, t, ht, hp⟩ := exists_of_count_pos (lt_of_lt_of_eq (Nat.succ_pos n) hn.symm)
      obtain rfl := of_decide_eq_true hp
      -- the call stores a token that was never generated
      obtain ⟨v, hv⟩ := Infinite.exists_notMem_finset (generatedValues c.shared.log).toFinset
      rw [List.mem_toFinset] at hv
      have hfree : c.shared.nonces.get v = none := by
        rw [Option.eq_none_iff_forall_ne_some]
        exact fun r hr => hv (mem_generatedValues.mpr ⟨_, ((storeInv_of_reach h).row hr).1⟩)
      obtain ⟨t, hinsert⟩ := Table.exists_insert? hfree ⟨false, c.shared.now⟩
      let c₁ := c.after i ⟨{ c.shared with
        nonces := t, log := .generated v c.shared.now :: c.shared.log }, none, none⟩
      have hs : (nonceMachine cfg).step c (.run i (.token v)) = some c₁ := by
        simp only [Machine.step, ht, Option.bind_some, nonceMachine, NonceCall.run, hinsert,
          Option.map_some, c₁]
      have hnodup : (generatedValues c₁.shared.log).Nodup :=
        List.nodup_cons.mpr ⟨hv, (storeInv_of_reach h).distinct⟩
      have hadmitted : admitted c₁ + 1 = admitted c :=
        Config.count_after _ ht hi
      have hrows : c₁.shared.nonces.rows.length = c.shared.nonces.rows.length + 1 :=
        Table.length_insert? hinsert
      obtain ⟨as, c', hsched, hlt⟩ := ih (.step h hs hnodup) (by omega)
        (by rw [hrows]; push_cast at hover ⊢; omega)
      refine ⟨.run i (.token v) :: as, c', ?_, hlt⟩
      rw [Machine.schedule, hs, Option.bind_some, if_pos (decide_eq_true hnodup), hsched]

/-- **The ceiling holds exactly as long as every call is admitted with room.**  Where one is not,
the calls that are admitted take the table over the ceiling. -/
theorem nonce_ceiling (hmax : 0 < cfg.nonceMax) :
    (∀ c, Reach (nonceMachine cfg) (RoomForAdmitted cfg) .empty c →
      (c.shared.nonces.rows.length : Int) ≤ cfg.nonceMax) ∧
    ∀ c b c', Reach (nonceMachine cfg) DistinctTokens .empty c →
      (nonceMachine cfg).step c b = some c' → DistinctTokens c c' → ¬ RoomForAdmitted cfg c c' →
      ∃ as c'', (nonceMachine cfg).schedule
          (fun _ c' => decide (generatedValues c'.shared.log).Nodup) c' as = some c'' ∧
        cfg.nonceMax < (c''.shared.nonces.rows.length : Int) := by
  constructor
  · intro c h
    have hle := rows_add_admitted_le hmax h
    omega
  · intro c b c' h hs hd hroom
    rw [RoomForAdmitted, Classical.not_imp, not_lt] at hroom
    rcases step_rows_add_admitted hmax h hs with ⟨hadmitted, hshared⟩ | ⟨hno, -⟩
    · refine overflow_of_admitted (.step h hs hd) hadmitted ?_
      rw [hshared]
      push_cast
      omega
    · exact absurd hroom.1 (Nat.not_lt.mpr hno)

/-- A ceiling of one, and one call at a time. -/
theorem nonce_ceiling_run : ∃ c,
    (nonceMachine { relayDomain := "relay.test", nonceMax := 1 }).schedule
      (fun c c' => decide (RoomForAdmitted { relayDomain := "relay.test", nonceMax := 1 } c c'))
      (.start .empty) [.arrive (.call .count), .run 0 (.clock 0), .run 0 (.token "a"),
        .arrive (.call .count), .run 3 (.clock 0)] = some c ∧
    c.shared.log = [.generated "a" 0] ∧ (c.shared.nonces.rows.length : Int) ≤ 1 := by
  have hrun : ((nonceMachine { relayDomain := "relay.test", nonceMax := 1 }).schedule
      (fun c c' => decide (RoomForAdmitted { relayDomain := "relay.test", nonceMax := 1 } c c'))
      (.start .empty) [.arrive (.call .count), .run 0 (.clock 0), .run 0 (.token "a"),
        .arrive (.call .count), .run 3 (.clock 0)]).map (fun c => c.shared.log) =
      some [.generated "a" 0] := by decide
  obtain ⟨c, hc, hlog⟩ := Option.map_eq_some_iff.mp hrun
  exact ⟨c, hc, hlog, (nonce_ceiling (by decide)).1 c
    (.schedule (fun _ _ h => of_decide_eq_true h) _ .start hc)⟩

/-- **Two calls that count before either stores**: with a ceiling of one the table has two rows. -/
theorem two_nonces_under_ceiling_one : ∃ c,
    Reach (nonceMachine { relayDomain := "relay.test", nonceMax := 1 }) DistinctTokens .empty c ∧
    c.shared.nonces.rows.length = 2 := by
  have hrun : ((nonceMachine { relayDomain := "relay.test", nonceMax := 1 }).schedule
      (fun _ c' => decide (generatedValues c'.shared.log).Nodup) (.start .empty)
      [.arrive (.call .count), .arrive (.call .count), .run 0 (.clock 0), .run 1 (.clock 0),
        .run 0 (.token "a"), .run 1 (.token "b")]).map (fun c => c.shared.nonces.rows.length) =
      some 2 := by decide
  obtain ⟨c, hc, hlen⟩ := Option.map_eq_some_iff.mp hrun
  exact ⟨c, .schedule (fun {_ c' _} _ _ h => show (generatedValues c'.shared.log).Nodup from
    of_decide_eq_true h) _ .start hc, hlen⟩

end Ceiling

end Jackdaw
