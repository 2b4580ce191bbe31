import Jackdaw.Relay.History

/-!
# Relay — background tasks from their creation

A handler hands its background task to the event loop and looks at it no more.  What became of it
can be read off the log: the entry that created it has its number.

* `child_coroutine`: it stays the coroutine it was created as.
* `child_alive`: it is under way or has ended, or the relay was started anew since.
* `Turn.bg_ends`: it ends by returning, or by a failure.
-/

namespace Jackdaw

open Support Support.Interleave

section

variable {o : Oracle} {cfg : Settings} {c : Relay} {i : Nat} {t : Task} {seg : Seg Pc}
  {out : Outcome Shared Task} {id : String} {P : Relay → Relay → Prop}

/-! ### Whatever became of the task that was created -/

/-- While the relay is down there is no task but the reset. -/
theorem down_reset (h : Reach (relay o cfg) P .init c) (hup : c.shared.up = false) {i : Nat}
    {t : Task} (ht : c.tasks i = some t) : t.pc.coroutine = .reset := by
  induction h generalizing i t with
  | start => cases ht
  | @step c c' a hr hs _ ih =>
      rcases Machine.step_cases hs with ⟨j, b, u, out, -, hj, ho, rfl⟩ | ⟨b, u, -, hu, rfl⟩ |
          ⟨b, s, -, hs', rfl⟩ | ⟨b, s, u, -, hs', rfl⟩
      · obtain ⟨seg, hturn⟩ := turn_of_run hr hj ho
        have hup : out.shared.up = false := hup
        rw [hturn.up] at hup
        have hdown : c.shared.up = false := by
          unfold Seg.up at hup
          split at hup
          · cases hup
          · exact hup
        have hreset := ih hdown hj
        rcases update_eq_some ht with ⟨rfl, hv⟩ | ⟨-, ht⟩
        · rw [hturn.child] at hv
          obtain ⟨b, hb, rfl⟩ := Option.map_eq_some_iff.mp hv
          have := hturn.proper.spawn b hb
          obtain ⟨p, hpc⟩ := Pc.eq_reset hreset
          rw [hpc] at this
          exact this.elim
        · rcases update_eq_some ht with ⟨rfl, hv⟩ | ⟨-, ht⟩
          · rcases hturn.coroutine hv with e | ⟨req, a, payload, rowcount, e, -⟩
            · exact e.trans hreset
            · rw [e] at hreset
              cases hreset
          · exact ih hdown ht
      · rw [show c.shared.up = true from (arrive_cases hu).2.1] at hup
        cases hup
      · obtain ⟨now, rfl⟩ := tick_cases hs'
        exact ih hup ht
      · obtain ⟨-, rfl⟩ := restart_cases hs'
        rcases update_eq_some (f := fun _ => none) ht with ⟨-, hv⟩ | ⟨-, ht⟩
        · cases hv
          rfl
        · cases ht

/-- A background task that was created is what it was created as. -/
theorem child_coroutine (h : Reach (relay o cfg) P .init c) {w : Entry} (hw : w ∈ c.shared.log)
    {b : Bg} (hb : w.seg.spawn = some b) {t : Task} (ht : c.tasks w.child = some t) :
    t.pc.coroutine = b.pc.coroutine := by
  induction h generalizing t with
  | start => cases ht
  | @step c c' a hr hs _ ih =>
      rcases Machine.step_cases hs with ⟨j, a, u, out, -, hj, ho, rfl⟩ | ⟨a, u, -, hu, rfl⟩ |
          ⟨a, s, -, hs', rfl⟩ | ⟨a, s, u, -, hs', rfl⟩
      · obtain ⟨seg, hturn⟩ := turn_of_run hr hj ho
        have hw' : w ∈ out.shared.log := hw
        rw [hturn.log] at hw'
        rcases List.mem_cons.mp hw' with rfl | hmem
        · rcases update_eq_some ht with ⟨-, hv⟩ | ⟨hne, -⟩
          · rw [hturn.child, show seg.spawn = some b from hb] at hv
            cases hv
            rfl
          · exact absurd rfl hne
        · rcases update_eq_some ht with ⟨e, -⟩ | ⟨-, ht⟩
          · exact absurd e (child_lt hr hmem).ne
          · rcases update_eq_some ht with ⟨rfl, hv⟩ | ⟨-, ht⟩
            · rcases hturn.coroutine hv with e | ⟨req, a, payload, rowcount, e, -⟩
              · exact e.trans (ih hmem hj)
              · have := ih hmem hj
                rw [e] at this
                cases b <;> cases this
            · exact ih hmem ht
      · rcases update_eq_some ht with ⟨e, -⟩ | ⟨-, ht⟩
        · exact absurd e (child_lt hr hw).ne
        · exact ih hw ht
      · obtain ⟨now, rfl⟩ := tick_cases hs'
        exact ih hw ht
      · obtain ⟨rfl, rfl⟩ := restart_cases hs'
        rcases update_eq_some (f := fun _ => none) ht with ⟨e, -⟩ | ⟨-, ht⟩
        · exact absurd e (child_lt hr hw).ne
        · cases ht

/-- **A background task that was created** is under way or has ended, or the relay was started anew
since. -/
theorem child_alive (h : Reach (relay o cfg) P .init c) {m l₁ : List Entry} {w : Entry}
    (hl : c.shared.log = m ++ w :: l₁) (hb : w.seg.spawn ≠ none) :
    (∃ t, c.tasks w.child = some t) ∨ (∃ x ∈ m, x.tid = w.child ∧ ∀ p, x.seg.next ≠ .goto p) ∨
      (∃ x ∈ m, ∃ p, x.pc = .reset p ∧ x.seg.commit = true) ∨ c.shared.up = false := by
  induction h generalizing m with
  | start => exact absurd hl (by simp [Config.start, Shared.init])
  | @step c c' a hr hs _ ih =>
      have hlt : ∀ {m}, c.shared.log = m ++ w :: l₁ → w.child < c.next := fun e =>
        child_lt hr (e ▸ List.mem_append_right _ List.mem_cons_self)
      rcases Machine.step_cases hs with ⟨j, a, u, out, -, hj, ho, rfl⟩ | ⟨a, u, -, hu, rfl⟩ |
          ⟨a, s, -, hs', rfl⟩ | ⟨a, s, u, -, hs', rfl⟩
      · obtain ⟨seg, hturn⟩ := turn_of_run hr hj ho
        have hl' : out.shared.log = m ++ w :: l₁ := hl
        rw [hturn.log] at hl'
        cases m with
        | nil =>
            obtain ⟨rfl, -⟩ := List.cons.inj hl'
            obtain ⟨b, hb⟩ := Option.ne_none_iff_exists'.mp hb
            refine .inl ⟨⟨b.pc, []⟩, ?_⟩
            show Function.update _ _ _ _ = _
            rw [Function.update_self, hturn.child, show seg.spawn = some b from hb]
            rfl
        | cons x m =>
            obtain ⟨rfl, hold⟩ := List.cons.inj hl'
            rcases ih hold with ⟨t, ht⟩ | ⟨x, hx, hend⟩ | ⟨x, hx, hreset⟩ | hdown
            · by_cases hi : w.child = j
              · cases hn : seg.next with
                | goto p =>
                    obtain ⟨tx, hself⟩ := hturn.goes hn
                    refine .inl ⟨⟨p, tx⟩, ?_⟩
                    rw [hi, Config.after_self (hr.lt_next hj), hself]
                | _ =>
                    refine .inr (.inl ⟨_, List.mem_cons_self, hi.symm, fun p hp => ?_⟩)
                    rw [show seg.next = _ from hp] at hn
                    cases hn
              · exact .inl ⟨t, Config.after_of_ne hi (hlt hold) ht⟩
            · exact .inr (.inl ⟨x, List.mem_cons_of_mem _ hx, hend⟩)
            · exact .inr (.inr (.inl ⟨x, List.mem_cons_of_mem _ hx, hreset⟩))
            · -- only the reset runs while the relay is down, and its commit is the last of it
              obtain ⟨p, hpc⟩ := Pc.eq_reset (down_reset hr hdown hj)
              by_cases hc : seg.commit = true
              · exact .inr (.inr (.inl ⟨_, List.mem_cons_self, p, hpc, hc⟩))
              · refine .inr (.inr (.inr ?_))
                show out.shared.up = false
                rw [hturn.up, hdown]
                rcases hturn.runs with ⟨ch, hseg⟩ | rfl
                · rw [hpc] at hseg
                  cases p <;> cases Option.some.inj hseg
                  · rfl
                  · rfl
                  · exact absurd rfl hc
                · rfl
      · rcases ih hl with ⟨t, ht⟩ | h
        · refine .inl ⟨t, ?_⟩
          show Function.update _ _ _ _ = _
          rw [Function.update_of_ne (hlt hl).ne, ht]
        · exact .inr h
      · obtain ⟨now, rfl⟩ := tick_cases hs'
        exact ih hl
      · obtain ⟨rfl, -⟩ := restart_cases hs'
        exact .inr (.inr (.inr rfl))

/-! ### How a background task ends -/

theorem runChallengeSeg_next (o : Oracle) (z id : String) (db : Db) (ch : Choice)
    (p : RunChallengePc) :
    (∃ q, (runChallengeSeg o z id db ch p).next = .goto q) ∨
      (runChallengeSeg o z id db ch p).next = .stop ∨
        (runChallengeSeg o z id db ch p).next = .raised := by
  cases p with
  | getAuthz | validate _ _ _ | regetAuthz _ | statuses _ _ => exact .inl ⟨_, rfl⟩
  | commit flush => exact .inr (.inl rfl)
  | getOrder authz =>
      simp only [runChallengeSeg]
      split
      · split <;> exact .inl ⟨_, rfl⟩
      · exact .inr (.inl rfl)
  | regetOrder problem authz =>
      simp only [runChallengeSeg]
      split
      · split <;> exact .inl ⟨_, rfl⟩
      · exact .inr (.inl rfl)
  | getAccount authz order =>
      simp only [runChallengeSeg]
      split
      · exact .inl ⟨_, rfl⟩
      · split
        · exact .inr (.inr rfl)
        · exact .inl ⟨_, rfl⟩

theorem processFinalizeSeg_next {o : Oracle} {csrDer : List UInt8} {db : Db} {now : Int}
    {ch : Choice} {p : ProcessFinalizePc} {seg : Seg ProcessFinalizePc}
    (h : processFinalizeSeg o id csrDer db now p ch = some seg) :
    (∃ q, seg.next = .goto q) ∨ seg.next = .stop := by
  cases p with
  | commit flush =>
      cases Option.some.inj h
      exact .inr rfl
  | store order k cert =>
      cases Option.some.inj h
      exact .inl ⟨_, rfl⟩
  | getOrder | issue | failGet _ | get _ _ =>
      simp only [processFinalizeSeg] at h
      repeat' split at h
      all_goals cases h
      all_goals first
        | exact .inl ⟨_, rfl⟩
        | exact .inr rfl

/-- The ways a background task ends. -/
theorem Turn.bg_ends (h : Turn o cfg c i t seg out) {b : Bg} (hb : t.pc.coroutine = b.pc.coroutine)
    (hn : ∀ p, seg.next ≠ .goto p) :
    seg.next = .stop ∨ seg.next = .dbError ∨ seg.next = .raised := by
  rcases h.runs with ⟨ch, hseg⟩ | rfl
  case inr => exact .inr (.inl rfl)
  cases b with
  | runChallenge z id =>
      obtain ⟨p, hpc⟩ := Pc.eq_runChallenge hb
      rw [hpc] at hseg
      have hseg := Option.some.inj hseg
      subst hseg
      rw [Seg.map_next] at hn ⊢
      rcases runChallengeSeg_next o z id c.shared.db ch p with ⟨q, e⟩ | e | e
      · rw [e] at hn
        exact absurd rfl (hn _)
      · rw [e]
        exact .inl rfl
      · rw [e]
        exact .inr (.inr rfl)
  | processFinalize id domain csrDer =>
      obtain ⟨p, hpc⟩ := Pc.eq_processFinalize hb
      rw [hpc] at hseg
      obtain ⟨seg', h', rfl⟩ := Option.map_eq_some_iff.mp hseg
      rw [Seg.map_next] at hn ⊢
      rcases processFinalizeSeg_next h' with ⟨q, e⟩ | e
      · rw [e] at hn
        exact absurd rfl (hn _)
      · rw [e]
        exact .inl rfl

end

end Jackdaw
