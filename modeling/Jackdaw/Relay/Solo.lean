import Jackdaw.Relay.History
import Jackdaw.Relay.World

/-!
# Relay — a task by itself

What a coroutine comes to in a world when no other one runs in between, as a relation between where
it is suspended, with its open transaction, and what it ends with (`Solo`).  The other tasks may be
suspended anywhere, as long as none of them holds the write lock.

* `Solo.leads`: the relay makes the moves of the relation, with everything else left as it is.
-/

namespace Jackdaw

open Support Support.Interleave

/-- The task, alone on the database, ends with `n`; it leaves a database, and a background task if it
creates one. -/
inductive Solo (o : Oracle) (cfg : Settings) (w : World) (now : Int) :
    Task → Db → Option Bg → Next Pc → Db → Prop where
  | goes {t : Task} {db db' : Db} {b : Option Bg} {n : Next Pc} (ch : Choice) (seg : Seg Pc) (p : Pc)
      (hw : w.Admits o cfg t.pc ch) (hseg : t.pc.seg o cfg (t.view db) now ch = some seg)
      (hn : seg.next = .goto p) (hc : seg.commit = false) (hs : seg.spawn = none)
      (h : Solo o cfg w now ⟨p, t.tx ++ seg.write⟩ db b n db') : Solo o cfg w now t db b n db'
  | commits {t : Task} {db db₁ db' : Db} {b : Option Bg} {n : Next Pc} (ch : Choice) (seg : Seg Pc)
      (p : Pc) (hw : w.Admits o cfg t.pc ch)
      (hseg : t.pc.seg o cfg (t.view db) now ch = some seg) (hn : seg.next = .goto p)
      (hc : seg.commit = true) (hs : seg.spawn = none)
      (hdb : Dml.execAll (t.tx ++ seg.write) db = some db₁)
      (h : Solo o cfg w now ⟨p, []⟩ db₁ b n db') : Solo o cfg w now t db b n db'
  | spawns {t : Task} {db db₁ db' : Db} {n : Next Pc} (ch : Choice) (seg : Seg Pc) (p : Pc)
      (hw : w.Admits o cfg t.pc ch) (hseg : t.pc.seg o cfg (t.view db) now ch = some seg)
      (hn : seg.next = .goto p) (hc : seg.commit = true)
      (hdb : Dml.execAll (t.tx ++ seg.write) db = some db₁)
      (h : Solo o cfg w now ⟨p, []⟩ db₁ none n db') : Solo o cfg w now t db seg.spawn n db'
  | ends {t : Task} {db db' : Db} (ch : Choice) (seg : Seg Pc) (hw : w.Admits o cfg t.pc ch)
      (hseg : t.pc.seg o cfg (t.view db) now ch = some seg) (hn : ∀ p, seg.next ≠ .goto p)
      (hdb : (if seg.commit then Dml.execAll (t.tx ++ seg.write) db else some db) = some db') :
      Solo o cfg w now t db seg.spawn seg.next db'

/-- What task `i` leaves when it has ended by itself: its own entries in the log, from the one it
started with to the one it ended with, and nothing of the other tasks changed. -/
structure Relay.Ended (c : Relay) (i : Nat) (pc : Pc) (db' : Db) (b : Option Bg) (n : Next Pc)
    (c' : Relay) : Prop where
  db : c'.shared.db = db'
  now : c'.shared.now = c.shared.now
  lock : c'.shared.lock = none
  up : c'.shared.up = true ∨ c'.shared.up = c.shared.up
  next : c.next ≤ c'.next
  others : ∀ j, j ≠ i → j < c.next → c'.tasks j = c.tasks j
  child : ∀ bg, b = some bg → ∃ k, c.next ≤ k ∧ k < c'.next ∧ c'.tasks k = some ⟨bg.pc, []⟩
  log : ∃ l, c'.shared.log = l ++ c.shared.log ∧ (∃ e ∈ l, e.tid = i ∧ e.pc = pc) ∧
    ∃ e ∈ l, e.tid = i ∧ e.seg.next = n

section

variable {o : Oracle} {cfg : Settings} {w : World} {c c' c₁ : Relay} {i : Nat} {t : Task}
  {seg : Seg Pc}

theorem mayWrite_solo {s : Shared} (hlock : s.lock = none ∨ s.lock = some i) (ds : List Dml) :
    s.mayWrite i ds = true := by
  rcases hlock with e | e <;> simp [Shared.mayWrite, e]

theorem release_solo {s : Shared} (hlock : s.lock = none ∨ s.lock = some i) : s.release i = none := by
  rcases hlock with e | e <;> simp [Shared.release, e]

/-- The entry of a segment that leaves the database `db`. -/
def Relay.entry (c : Relay) (i : Nat) (pc : Pc) (seg : Seg Pc) (db : Db) : Entry :=
  ⟨i, pc, seg, c.shared.db, db, c.shared.now, c.next⟩

/-- What a segment of task `i` leaves, with the lock free or with it. -/
structure Relay.Moved (c : Relay) (i : Nat) (pc : Pc) (seg : Seg Pc) (db' : Db) (u : Option Task)
    (c₁ : Relay) : Prop where
  db : c₁.shared.db = db'
  now : c₁.shared.now = c.shared.now
  lock : c₁.shared.lock = none ∨ c₁.shared.lock = some i
  up : c₁.shared.up = seg.up c.shared.up
  log : c₁.shared.log = c.entry i pc seg db' :: c.shared.log
  next : c₁.next = c.next + 1
  self : c₁.tasks i = u
  child : c₁.tasks c.next = seg.spawn.map fun b => ⟨b.pc, []⟩
  others : ∀ j, j ≠ i → j < c.next → c₁.tasks j = c.tasks j

/-- The outcome of a segment is what it leaves. -/
theorem Relay.moved (hi : i < c.next) {db : Db} {lock : Option Nat} {self : Option Task}
    (hlock : lock = none ∨ lock = some i) :
    c.Moved i t.pc seg db self (c.after i ⟨⟨db, c.shared.now, lock, seg.up c.shared.up,
      c.entry i t.pc seg db :: c.shared.log⟩, self, seg.spawn.map fun b => ⟨b.pc, []⟩⟩) where
  db := rfl
  now := rfl
  lock := hlock
  up := rfl
  log := rfl
  next := rfl
  self := Config.after_self hi
  child := Function.update_self ..
  others j hj hlt := by
    simp only [Config.after, Function.update_of_ne hlt.ne, Function.update_of_ne hj]

/-- A segment without a commit. -/
theorem moves_on (ht : c.tasks i = some t) (hi : i < c.next)
    (hlock : c.shared.lock = none ∨ c.shared.lock = some i) {ch : Choice} {p : Pc}
    (hseg : t.pc.seg o cfg (t.view c.shared.db) c.shared.now ch = some seg)
    (hn : seg.next = .goto p) (hc : seg.commit = false) :
    ∃ c₁, (relay o cfg).step c (.run i (.choose ch)) = some c₁ ∧
      c.Moved i t.pc seg c.shared.db (some ⟨p, t.tx ++ seg.write⟩) c₁ := by
  have hself : seg.self (t.tx ++ seg.write) = some ⟨p, t.tx ++ seg.write⟩ := by
    rw [Seg.self, hn]
  obtain ⟨lock, hl, hperform⟩ : ∃ lock, (lock = none ∨ lock = some i) ∧
      perform i c.next c.shared t seg = some ⟨⟨c.shared.db, c.shared.now, lock,
        seg.up c.shared.up, c.entry i t.pc seg c.shared.db :: c.shared.log⟩,
        some ⟨p, t.tx ++ seg.write⟩, seg.spawn.map fun b => ⟨b.pc, []⟩⟩ := by
    simp only [perform, mayWrite_solo hlock, hc, hself, if_true, Bool.false_eq_true, if_false,
      Option.isSome_some, Bool.true_and]
    -- the first statement of a transaction takes the lock
    by_cases hw : seg.write = []
    · exact ⟨c.shared.lock, hlock, by simp [hw, Relay.entry]⟩
    · exact ⟨some i, .inr rfl, by simp [hw, Relay.entry]⟩
  refine ⟨_, ?_, Relay.moved hi hl⟩
  simp only [Machine.step, ht, Option.bind_some, relay, hseg, hperform, Option.map_some]

/-- A commit. -/
theorem moves_commit (ht : c.tasks i = some t) (hi : i < c.next)
    (hlock : c.shared.lock = none ∨ c.shared.lock = some i) {ch : Choice} {db : Db}
    (hseg : t.pc.seg o cfg (t.view c.shared.db) c.shared.now ch = some seg)
    (hc : seg.commit = true) (hdb : Dml.execAll (t.tx ++ seg.write) c.shared.db = some db) :
    ∃ c₁, (relay o cfg).step c (.run i (.choose ch)) = some c₁ ∧
      c.Moved i t.pc seg db (seg.self []) c₁ ∧ c₁.shared.lock = none := by
  have hperform : perform i c.next c.shared t seg = some ⟨⟨db, c.shared.now, none,
      seg.up c.shared.up, c.entry i t.pc seg db :: c.shared.log⟩, seg.self [],
      seg.spawn.map fun b => ⟨b.pc, []⟩⟩ := by
    simp [perform, mayWrite_solo hlock, hc, hdb, release_solo hlock, Relay.entry]
  refine ⟨_, ?_, Relay.moved hi (.inl rfl), rfl⟩
  simp only [Machine.step, ht, Option.bind_some, relay, hseg, hperform, Option.map_some]

/-- The end of a coroutine without a commit. -/
theorem moves_off (ht : c.tasks i = some t) (hi : i < c.next)
    (hlock : c.shared.lock = none ∨ c.shared.lock = some i) {ch : Choice}
    (hseg : t.pc.seg o cfg (t.view c.shared.db) c.shared.now ch = some seg)
    (hn : ∀ p, seg.next ≠ .goto p) (hc : seg.commit = false) :
    ∃ c₁, (relay o cfg).step c (.run i (.choose ch)) = some c₁ ∧
      c.Moved i t.pc seg c.shared.db none c₁ ∧ c₁.shared.lock = none := by
  have hself : ∀ tx, seg.self tx = none := by
    intro tx
    unfold Seg.self
    split
    · next h => exact absurd h (hn _)
    · rfl
  have hperform : perform i c.next c.shared t seg = some ⟨⟨c.shared.db, c.shared.now, none,
      seg.up c.shared.up, c.entry i t.pc seg c.shared.db :: c.shared.log⟩, none,
      seg.spawn.map fun b => ⟨b.pc, []⟩⟩ := by
    simp [perform, mayWrite_solo hlock, hc, hself, release_solo hlock, Relay.entry]
  refine ⟨_, ?_, Relay.moved hi (.inl rfl), rfl⟩
  simp only [Machine.step, ht, Option.bind_some, relay, hseg, hperform, Option.map_some]

/-- What a segment that ends its task leaves. -/
theorem Relay.Moved.ended {pc : Pc} {db : Db} (h : c.Moved i pc seg db none c₁)
    (hlock : c₁.shared.lock = none) : c.Ended i pc db seg.spawn seg.next c₁ where
  db := h.db
  now := h.now
  lock := hlock
  up := by
    rw [h.up]
    unfold Seg.up
    split
    · exact .inl rfl
    · exact .inr rfl
  next := by rw [h.next]; omega
  others := h.others
  child bg hb := ⟨c.next, le_rfl, by rw [h.next]; omega, by rw [h.child, hb, Option.map_some]⟩
  log := by
    refine ⟨[c.entry i pc seg db], h.log, ?_, ?_⟩
    · exact ⟨_, List.mem_singleton_self _, rfl, rfl⟩
    · exact ⟨_, List.mem_singleton_self _, rfl, rfl⟩

/-- A segment, and what its task goes on to. -/
theorem Relay.Moved.then {pc pc₁ : Pc} {db db' : Db} {self : Option Task} {b b' : Option Bg}
    {n : Next Pc} {p : Pc} (h : c.Moved i pc seg db self c₁) (hi : i < c.next)
    (hn : seg.next = .goto p) (he : c₁.Ended i pc₁ db' b n c')
    (hb : b' = seg.spawn ∧ b = none ∨ b' = b ∧ seg.spawn = none) : c.Ended i pc db' b' n c' where
  db := he.db
  now := he.now.trans h.now
  lock := he.lock
  up := by
    have hup : c₁.shared.up = c.shared.up := by rw [h.up, Seg.up, hn]
    rw [← hup]
    exact he.up
  next := by
    have := he.next
    rw [h.next] at this
    omega
  others j hj hlt := (he.others j hj (by rw [h.next]; omega)).trans (h.others j hj hlt)
  child bg hbg := by
    have hle := he.next
    rw [h.next] at hle
    rcases hb with ⟨rfl, -⟩ | ⟨rfl, -⟩
    · refine ⟨c.next, le_rfl, by omega, ?_⟩
      rw [he.others c.next hi.ne' (by rw [h.next]; omega), h.child, hbg, Option.map_some]
    · obtain ⟨k, hk, hlt, ht⟩ := he.child bg hbg
      rw [h.next] at hk
      exact ⟨k, by omega, hlt, ht⟩
  log := by
    obtain ⟨l, hl, -, e, he, hlast⟩ := he.log
    refine ⟨l ++ [c.entry i pc seg db], by rw [hl, h.log, List.append_assoc]; rfl, ?_, ?_⟩
    · exact ⟨_, List.mem_append_right _ (List.mem_singleton_self _), rfl, rfl⟩
    · exact ⟨e, List.mem_append_left _ he, hlast⟩

/-- A segment that only moves on, with no transaction open. -/
theorem Solo.move {now : Int} {db db' : Db} {b : Option Bg} {n : Next Pc} {pc : Pc} (ch : Choice)
    (p : Pc) (hw : w.Admits o cfg pc ch) (hseg : pc.seg o cfg db now ch = some (.goto p))
    (h : Solo o cfg w now ⟨p, []⟩ db b n db') : Solo o cfg w now ⟨pc, []⟩ db b n db' :=
  .goes ch (.goto p) p hw hseg rfl rfl rfl h

/-- A choice the world admits is a move it permits. -/
theorem World.permits_choose {ch : Choice} (ht : c.tasks i = some t)
    (hw : w.Admits o cfg t.pc ch) : w.Permits o cfg c (.run i (.choose ch)) := by
  intro u hu
  rw [ht] at hu
  cases hu
  exact hw

/-- **The relay makes the moves of a task by itself**, whatever else is suspended in it. -/
theorem Solo.leads {now : Int} {db db' : Db} {b : Option Bg} {n : Next Pc}
    (h : Solo o cfg w now t db b n db') (ht : c.tasks i = some t) (hi : i < c.next)
    (hlock : c.shared.lock = none ∨ c.shared.lock = some i) (hdb : c.shared.db = db)
    (hnow : c.shared.now = now) :
    ∃ c', Leads o cfg w c c' ∧ c.Ended i t.pc db' b n c' := by
  induction h generalizing c with
  | goes ch seg p hw hseg hn hc hs h ih =>
      subst hdb hnow
      obtain ⟨c₁, hstep, hm⟩ := moves_on ht hi hlock hseg hn hc
      obtain ⟨c', hl, he⟩ := ih hm.self (by rw [hm.next]; omega) hm.lock hm.db hm.now
      exact ⟨c', .head ⟨_, hstep, World.permits_choose ht hw⟩ hl, hm.then hi hn he (.inr ⟨rfl, hs⟩)⟩
  | commits ch seg p hw hseg hn hc hs hexec h ih =>
      subst hdb hnow
      obtain ⟨c₁, hstep, hm, hfree⟩ := moves_commit ht hi hlock hseg hc hexec
      rw [Seg.self, hn] at hm
      obtain ⟨c', hl, he⟩ := ih hm.self (by rw [hm.next]; omega) hm.lock hm.db hm.now
      exact ⟨c', .head ⟨_, hstep, World.permits_choose ht hw⟩ hl, hm.then hi hn he (.inr ⟨rfl, hs⟩)⟩
  | spawns ch seg p hw hseg hn hc hexec h ih =>
      subst hdb hnow
      obtain ⟨c₁, hstep, hm, hfree⟩ := moves_commit ht hi hlock hseg hc hexec
      rw [Seg.self, hn] at hm
      obtain ⟨c', hl, he⟩ := ih hm.self (by rw [hm.next]; omega) hm.lock hm.db hm.now
      exact ⟨c', .head ⟨_, hstep, World.permits_choose ht hw⟩ hl, hm.then hi hn he (.inl ⟨rfl, rfl⟩)⟩
  | ends ch seg hw hseg hn hexec =>
      subst hdb hnow
      cases hc : seg.commit with
      | true =>
          rw [hc, if_pos rfl] at hexec
          obtain ⟨c₁, hstep, hm, hfree⟩ := moves_commit ht hi hlock hseg hc hexec
          have hself : seg.self [] = none := by
            unfold Seg.self
            split
            · next h => exact absurd h (hn _)
            · rfl
          rw [hself] at hm
          exact ⟨c₁, .single ⟨_, hstep, World.permits_choose ht hw⟩, hm.ended hfree⟩
      | false =>
          rw [hc, if_neg Bool.false_ne_true] at hexec
          cases hexec
          obtain ⟨c₁, hstep, hm, hfree⟩ := moves_off ht hi hlock hseg hn hc
          exact ⟨c₁, .single ⟨_, hstep, World.permits_choose ht hw⟩, hm.ended hfree⟩

end

end Jackdaw
