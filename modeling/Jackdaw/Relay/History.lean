import Jackdaw.Relay.Steps

/-!
# Relay — the log

Facts about the log of every reached state, for any steps the run is made of.

* `Recorded`: the log is the whole history of the database.  It starts at the empty one, every
  entry finds what the entry before it left, and the newest left the current one.
* `tid_lt`, `child_lt`, `tid_alive`: numbers in the log are numbers handed out, and a task that is
  still suspended has only moved on so far, never ended.
* `entry_grows`: what an entry found and what it left has only grown since.
* `entry_turn`: every entry was a turn of a configuration that was reached before.
* `reset_alone`: while the startup reset is under way there is no other task.
-/

namespace Jackdaw

open Support Support.Interleave

/-- The log leads from the empty database to `db`. -/
def Recorded : Db → List Entry → Prop
  | db, [] => db = .empty
  | db, e :: l => e.post = db ∧ Recorded e.pre l

/-- A property that holds after one entry and not before a later one was lost in between. -/
theorem Recorded.lost {Q : Db → Prop} {e : Entry} {l₁ : List Entry} :
    ∀ {l₂ : List Entry} {db : Db}, Recorded db (l₂ ++ e :: l₁) → Q e.post → ¬ Q db →
      ∃ w ∈ l₂, Q w.pre ∧ ¬ Q w.post
  | [], _, h, hq, hn => absurd (h.1 ▸ hq) hn
  | w :: l₂, db, h, hq, hn => by
      obtain ⟨rfl, h⟩ := h
      by_cases hw : Q w.pre
      · exact ⟨w, List.mem_cons_self, hw, hn⟩
      · obtain ⟨w', hw', hq'⟩ := Recorded.lost h hq hw
        exact ⟨w', List.mem_cons_of_mem w hw', hq'⟩

/-- A property that holds now and not of the empty database was brought about by some entry, and has
held since. -/
theorem Recorded.turned {Q : Db → Prop} (h₀ : ¬ Q .empty) :
    ∀ {l : List Entry} {db : Db}, Recorded db l → Q db →
      ∃ m w l₁, l = m ++ w :: l₁ ∧ ¬ Q w.pre ∧ ∀ e ∈ m ++ [w], Q e.post
  | [], _, h, hq => absurd (h ▸ hq) h₀
  | w :: l, db, h, hq => by
      obtain ⟨rfl, h⟩ := h
      by_cases hw : Q w.pre
      · obtain ⟨m, v, l₁, rfl, hv, hm⟩ := Recorded.turned h₀ h hw
        refine ⟨w :: m, v, l₁, rfl, hv, fun e he => ?_⟩
        rcases List.mem_cons.mp he with rfl | he
        · exact hq
        · exact hm e he
      · exact ⟨[], w, l, rfl, hw, fun e he => by cases List.mem_singleton.mp he; exact hq⟩

theorem Recorded.tail {e : Entry} {l₁ : List Entry} :
    ∀ {l₂ : List Entry} {db : Db}, Recorded db (l₂ ++ e :: l₁) → Recorded e.pre l₁
  | [], _, h => h.2
  | _ :: _, _, h => Recorded.tail h.2

/-- Two entries that pass a test, where at most one does, are the same entry. -/
theorem unique_of_countP {p : Entry → Bool} {e e' : Entry} :
    ∀ {l : List Entry}, l.countP p ≤ 1 → e ∈ l → e' ∈ l → p e = true → p e' = true → e = e'
  | d :: l, hle, he, he', hp, hp' => by
      rw [List.countP_cons] at hle
      have hpos : ∀ {x : Entry}, x ∈ l → p x = true → 0 < l.countP p :=
        fun hx hxp => List.countP_pos_iff.mpr ⟨_, hx, hxp⟩
      rcases List.mem_cons.mp he with hd | hel
      · rcases List.mem_cons.mp he' with hd' | hel'
        · rw [hd, hd']
        · have := hpos hel' hp'
          rw [← hd, if_pos hp] at hle
          omega
      · have := hpos hel hp
        rcases List.mem_cons.mp he' with hd' | hel'
        · rw [← hd', if_pos hp'] at hle
          omega
        · exact unique_of_countP (by omega) hel hel' hp hp'

/-- The log leads up to `db` in the order of growth. -/
theorem Recorded.grows {l : List Entry} {db : Db} (h : Recorded db l)
    (hg : ∀ e ∈ l, e.pre.Grows e.post) : ∀ e ∈ l, e.pre.Grows db ∧ e.post.Grows db := by
  induction l generalizing db with
  | nil => exact List.forall_mem_nil _
  | cons w l ih =>
      obtain ⟨rfl, h⟩ := h
      have hw := hg w List.mem_cons_self
      intro e he
      rcases List.mem_cons.mp he with rfl | he
      · exact ⟨hw, .refl _⟩
      · obtain ⟨h₁, h₂⟩ := ih h (fun e he => hg e (List.mem_cons_of_mem w he)) e he
        exact ⟨h₁.trans hw, h₂.trans hw⟩

/-- The numbers of the entry are handed out, and the database grew in it. -/
structure Entry.Logged (e : Entry) (n : Nat) : Prop where
  tid : e.tid < n
  child : e.child < n
  grows : e.pre.Grows e.post

theorem Entry.Logged.succ {e : Entry} {n : Nat} (h : e.Logged n) : e.Logged (n + 1) :=
  ⟨Nat.lt_succ_of_lt h.tid, Nat.lt_succ_of_lt h.child, h.grows⟩

def historySafety (o : Oracle) (cfg : Settings) (P : Relay → Relay → Prop) : Safety o cfg P where
  Inv n s := Recorded s.db s.log ∧ ∀ e ∈ s.log, e.Logged n
  Ok i s _ := ∀ e ∈ s.log, e.tid = i → ∃ p, e.seg.next = .goto p
  start := ⟨rfl, List.forall_mem_nil _⟩
  run {c i t seg out} hr h _ hI hok := by
    obtain ⟨hrec, hlt⟩ := hI
    refine ⟨⟨?_, fun e he => ?_⟩, fun u hu e he hi => ?_, fun b _ e he hi => ?_⟩
    · rw [h.log]
      exact ⟨rfl, hrec⟩
    · rw [h.log] at he
      rcases List.mem_cons.mp he with rfl | he
      · exact ⟨Nat.lt_succ_of_lt (hr.lt_next h.task), Nat.lt_succ_self _, h.grows⟩
      · exact (hlt e he).succ
    · rw [h.log] at he
      rcases List.mem_cons.mp he with rfl | he
      · exact ⟨_, (h.self hu).1⟩
      · exact hok e he hi
    · rw [h.log] at he
      rcases List.mem_cons.mp he with rfl | he
      · exact absurd hi (hr.lt_next h.task).ne
      · exact absurd hi (hlt e he).tid.ne
  others {c i j t u seg out} _ h _ _ _ _ hne hu e he hj := by
    rw [h.log] at he
    rcases List.mem_cons.mp he with rfl | he
    · exact absurd hj.symm hne
    · exact hu e he hj
  request _ hI _ _ e he hi := absurd hi (hI.2 e he).tid.ne
  fresh hI := ⟨hI.1, fun e he => (hI.2 e he).succ⟩
  clock _ hI := ⟨hI, fun _ _ h => h⟩
  restart hI := ⟨hI, fun e he hi => absurd hi (hI.2 e he).tid.ne⟩

section

variable {o : Oracle} {cfg : Settings} {P : Relay → Relay → Prop} {c : Relay}

/-- **The log is the history of the database.** -/
theorem recorded (h : Reach (relay o cfg) P .init c) : Recorded c.shared.db c.shared.log :=
  ((historySafety o cfg P).reach h).1.1

theorem tid_lt (h : Reach (relay o cfg) P .init c) {e : Entry} (he : e ∈ c.shared.log) :
    e.tid < c.next :=
  (((historySafety o cfg P).reach h).1.2 e he).tid

theorem child_lt (h : Reach (relay o cfg) P .init c) {e : Entry} (he : e ∈ c.shared.log) :
    e.child < c.next :=
  (((historySafety o cfg P).reach h).1.2 e he).child

theorem entry_step (h : Reach (relay o cfg) P .init c) {e : Entry} (he : e ∈ c.shared.log) :
    e.pre.Grows e.post :=
  (((historySafety o cfg P).reach h).1.2 e he).grows

/-- **The database only grows.** -/
theorem entry_grows (h : Reach (relay o cfg) P .init c) {e : Entry} (he : e ∈ c.shared.log) :
    e.pre.Grows c.shared.db ∧ e.post.Grows c.shared.db :=
  (recorded h).grows (fun _ he => entry_step h he) e he

/-- **Every entry was a turn** of a configuration that was reached before, with the log behind it. -/
theorem entry_turn (h : Reach (relay o cfg) P .init c) {e : Entry} {l₂ l₁ : List Entry}
    (hl : c.shared.log = l₂ ++ e :: l₁) :
    ∃ c₀ i t seg out, ∃ hturn : Turn o cfg c₀ i t seg out, Reach (relay o cfg) P .init c₀ ∧
      c₀.shared.log = l₁ ∧ e = hturn.entry := by
  induction h generalizing l₂ with
  | start => exact absurd hl (by simp [Config.start, Shared.init])
  | @step c c' a hr hs _ ih =>
      rcases Machine.step_cases hs with ⟨i, b, t, out, -, hi, ho, rfl⟩ | ⟨b, t, -, -, rfl⟩ |
          ⟨b, s, -, hs', rfl⟩ | ⟨b, s, t, -, hs', rfl⟩
      · obtain ⟨seg, hturn⟩ := turn_of_run hr hi ho
        have hl : out.shared.log = l₂ ++ e :: l₁ := hl
        rw [hturn.log] at hl
        cases l₂ with
        | nil =>
            obtain ⟨rfl, rfl⟩ := List.cons.inj hl
            exact ⟨c, i, t, seg, out, hturn, hr, rfl, rfl⟩
        | cons x m => exact ih (List.cons.inj hl).2
      · exact ih hl
      · obtain ⟨now, rfl⟩ := tick_cases hs'
        exact ih hl
      · obtain ⟨rfl, -⟩ := restart_cases hs'
        exact ih hl

theorem tid_alive (h : Reach (relay o cfg) P .init c) {i : Nat} {t : Task}
    (ht : c.tasks i = some t) {e : Entry} (he : e ∈ c.shared.log) (hi : e.tid = i) :
    ∃ p, e.seg.next = .goto p :=
  ((historySafety o cfg P).reach h).2 i t ht e he hi

/-- The coroutine of the task a turn leaves. -/
theorem Turn.coroutine {i : Nat} {t u : Task} {seg : Seg Pc} {out : Outcome Shared Task}
    (h : Turn o cfg c i t seg out) (hu : out.self = some u) :
    u.pc.coroutine = t.pc.coroutine ∨ ∃ req a payload rowcount,
      t.pc = .jws req (.commit a payload rowcount) ∧ u.pc.coroutine = req.route.coroutine a := by
  obtain ⟨hn, -⟩ := h.self hu
  rcases h.runs with ⟨ch, hseg⟩ | rfl
  · exact Pc.seg_coroutine hseg hn
  · cases hn

/-- The task a turn leaves stays in its coroutine, or is a handler before its first statement. -/
theorem Turn.stays_or_starts {i : Nat} {t u : Task} {seg : Seg Pc} {out : Outcome Shared Task}
    (h : Turn o cfg c i t seg out) (hu : out.self = some u) :
    u.pc.coroutine = t.pc.coroutine ∨ u.pc.isStart = true ∨ ∃ a p, u.pc = .newOrder a p := by
  obtain ⟨ch, hseg⟩ := h.goes_on hu
  have hn := (h.self hu).1
  rcases h.coroutine hu with e | ⟨req, a, payload, rowcount, hpc, -⟩
  · exact .inl e
  · rw [hpc] at hseg
    have hseg : jwsSeg o cfg req c.shared.db c.shared.now ch (.commit a payload rowcount) =
      some seg := hseg
    rcases jwsSeg_goto hseg hn with ⟨p', e⟩ | ⟨hs, -⟩
    · rw [e, hpc]
      exact .inl rfl
    · exact .inr hs

/-- **The startup reset is alone.** -/
theorem reset_alone (h : Reach (relay o cfg) P .init c) {i : Nat} {t : Task}
    (hi : c.tasks i = some t) (ht : t.pc.coroutine = .reset) :
    c.shared.up = false ∧ ∀ j u, c.tasks j = some u → j = i := by
  induction h generalizing i t with
  | start => cases hi
  | @step c c' a hr hs _ ih =>
      rcases Machine.step_cases hs with ⟨k, b, v, out, -, hk, ho, rfl⟩ | ⟨b, v, -, hv, rfl⟩ |
          ⟨b, s, -, hs', rfl⟩ | ⟨b, s, v, -, hs', rfl⟩
      · obtain ⟨seg, hturn⟩ := turn_of_run hr hk ho
        have hchild : ∀ {u}, out.child = some u → u.pc.coroutine ≠ .reset := by
          intro u hu
          rw [hturn.child] at hu
          obtain ⟨b, -, rfl⟩ := Option.map_eq_some_iff.mp hu
          cases b <;> exact nofun
        rcases update_eq_some hi with ⟨rfl, hu⟩ | ⟨-, hi⟩
        · exact absurd ht (hchild hu)
        · rcases update_eq_some hi with ⟨rfl, hu⟩ | ⟨hne, hi⟩
          · -- the reset itself has moved on, and created nothing
            have hv : v.pc.coroutine = .reset := by
              rcases hturn.coroutine hu with e | ⟨req, a, payload, rowcount, -, e⟩
              · rw [← e, ht]
              · rw [ht] at e
                cases hroute : req.route <;> rw [hroute] at e <;> cases e
            obtain ⟨hup, halone⟩ := ih hk hv
            refine ⟨?_, fun j u hj => ?_⟩
            · show out.shared.up = false
              rw [hturn.up, Seg.up, (hturn.self hu).1]
              exact hup
            · rcases update_eq_some hj with ⟨rfl, hb⟩ | ⟨-, hj⟩
              · rw [hturn.child] at hb
                obtain ⟨b, hb', rfl⟩ := Option.map_eq_some_iff.mp hb
                have := hturn.proper.spawn b hb'
                cases hpc : v.pc <;> rw [hpc] at hv this <;> cases hv
                exact this.elim
              · rcases update_eq_some hj with ⟨rfl, -⟩ | ⟨-, hj⟩
                · rfl
                · exact halone j u hj
          · exact absurd ((ih hi ht).2 k v hk).symm hne
      · obtain ⟨-, hup, hpc⟩ := arrive_cases hv
        rcases update_eq_some hi with ⟨rfl, hu⟩ | ⟨-, hi⟩
        · cases Option.some.inj hu
          rcases hpc with ⟨req, e⟩ | ⟨p, e⟩ | ⟨cutoff, e⟩ <;> rw [e] at ht <;> cases ht
        · rw [(ih hi ht).1] at hup
          cases hup
      · obtain ⟨now, rfl⟩ := tick_cases hs'
        exact ih hi ht
      · obtain ⟨rfl, -⟩ := restart_cases hs'
        refine ⟨rfl, fun j u hj => ?_⟩
        rcases update_eq_some (f := fun _ => none) hi with ⟨rfl, -⟩ | ⟨-, hi⟩
        · rcases update_eq_some (f := fun _ => none) hj with ⟨rfl, -⟩ | ⟨-, hj⟩
          · rfl
          · cases hj
        · cases hi

end

end Jackdaw
