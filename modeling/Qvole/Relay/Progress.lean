import Qvole.Lib.Progress
import Qvole.Relay.CreationRace

/-!
# Completions get done

The eviction of all rooms takes the locks of the shards one at a time and has none of them when it asks for
the first; a creation or a join takes the lock of its shard and then that of an entry. So a worker that
waits for a shard has no lock at all, one that waits for an entry has that of a shard at most, and one that
has the lock of an entry waits for nothing. Every step brings a worker closer to its end: the shards and the
rooms still to be swept get fewer, and no step leads back.
-/

namespace Qvole.Relay

open Lib

variable {cfg : Config} {now : Int} {sh : Shared} {w : Worker}

/-! ### No deadlock -/

namespace Worker

inductive Waits (sh : Shared) (w : Worker) : Prop
  | finished (hpc : w.pc = .done)
  | shard (k : Nat) (htaken : k ∈ sh.shards) (hshard : w.shardLock = 0) (hentry : w.entryLock = 0)
  | entry (room : Bytes) (htaken : room ∈ sh.entries) (hentry : w.entryLock = 0)
  | room (hneeds : w.pc.needsRoom = true) (hgone : sh.relay.rooms.lookup w.room = none)

theorem waits_of_next (h : Worker.next cfg sh now w = none) : Waits sh w := by
  obtain ⟨c, pc⟩ := w
  cases pc with
  | done => exact .finished rfl
  | evictAll k =>
      simp only [next] at h
      split at h
      · split at h
        · exact .shard k ‹_› rfl rfl
        · cases h
      · cases h
  | lock =>
      simp only [next] at h
      split at h
      · exact .shard _ ‹_› rfl rfl
      · cases h
  | sweepAll k t rooms | evict t rooms =>
      cases rooms with
      | nil => cases h
      | cons room rooms =>
          simp only [next] at h
          split at h
          · exact .entry room ‹_› rfl
          · cases h
  | lockEntry =>
      simp only [next] at h
      split at h
      · exact .entry _ ‹_› rfl
      · cases h
  | sweep | join =>
      simp only [next] at h
      split at h
      · exact .room rfl ‹_›
      · repeat' split at h
        all_goals cases h
  | lookup | checkRooms | checkIP | checkJoinIP =>
      simp only [next] at h
      split at h
      · cases h
      · cases h
  | load | loadLocked | insert | count | index | unlock | unlockShard | indexJoin | unlockEntry => cases h

/-- A worker waits for a lock of a higher level than those it has. -/
def level (w : Worker) : Nat := if w.entryLock ≠ 0 then 2 else if w.shardLock ≠ 0 then 1 else 0

theorem level_le_one (hentry : w.entryLock = 0) : w.level ≤ 1 := by
  rw [level, if_neg (not_not_intro hentry)]
  split <;> omega

theorem level_of_entryLock {room : Bytes} (h : room ∈ w.entryLock) : w.level = 2 := by
  rw [level, if_pos]
  intro hnone
  rw [hnone] at h
  cases h

theorem level_of_shardLock {k : Nat} (h : k ∈ w.shardLock) : 1 ≤ w.level := by
  have hsome : w.shardLock ≠ 0 := by
    intro hnone
    rw [hnone] at h
    cases h
  rw [level, if_pos hsome]
  split <;> omega

theorem level_of_done (hpc : w.pc = .done) : w.level = 0 := by
  obtain ⟨c, pc⟩ := w
  cases hpc
  rfl

end Worker

namespace Orderly

variable {p : Pool Shared Worker}

/-- Whoever waits, waits for a worker that has not finished and has a lock of a higher level. -/
theorem exists_higher (h : Orderly p) (hw : w ∈ p.threads) (hopen : w.pc ≠ .done)
    (hblocked : Worker.next cfg p.shared now w = none) :
    ∃ v ∈ p.threads, v.pc ≠ .done ∧ w.level < v.level := by
  have hfound : ∀ v ∈ p.threads, w.level < v.level → ∃ v ∈ p.threads, v.pc ≠ .done ∧ w.level < v.level := by
    intro v hv hlt
    refine ⟨v, hv, fun hdone => ?_, hlt⟩
    rw [Worker.level_of_done hdone] at hlt
    exact Nat.not_lt_zero _ hlt
  cases Worker.waits_of_next hblocked with
  | finished hpc => exact absurd hpc hopen
  | shard k htaken hshard hentry =>
      rw [← Finset.mem_val, ← h.shards] at htaken
      obtain ⟨v, hv, hlock⟩ := Pool.mem_sum htaken
      have hzero : w.level = 0 := by simp [Worker.level, hshard, hentry]
      have hone := Worker.level_of_shardLock hlock
      exact hfound v hv (by omega)
  | entry room htaken hentry =>
      rw [← Finset.mem_val, ← h.entries] at htaken
      obtain ⟨v, hv, hlock⟩ := Pool.mem_sum htaken
      have hone := Worker.level_le_one hentry
      have htwo := Worker.level_of_entryLock hlock
      exact hfound v hv (by omega)
  | room hneeds hgone =>
      obtain ⟨i, hi⟩ := List.mem_iff_getElem?.mp hw
      obtain ⟨e, he⟩ := GoMap.lookup_of_mem (h.rooms i w hi hneeds)
      rw [hgone] at he
      cases he

theorem moves {p' : Pool Shared Worker} (h : Orderly p) (hmove : Pool.Moves (Worker.next cfg) now p p') :
    Orderly p' := by
  obtain ⟨i, w, sh, w', hw, hnext, rfl⟩ := hmove
  exact h.step hw hnext

end Orderly

/-! ### No livelock -/

/-- How far a worker is from its end: the phase, and within a sweep the rooms it still has to look at. -/
def Pc.rank : Pc → Nat ×ₗ Nat
  | .done => toLex (0, 0)
  | .unlock | .unlockEntry => toLex (1, 0)
  | .index | .indexJoin => toLex (2, 0)
  | .count | .join => toLex (3, 0)
  | .insert | .checkJoinIP => toLex (4, 0)
  | .checkIP | .sweep => toLex (5, 0)
  | .checkRooms | .unlockShard => toLex (6, 0)
  | .evict _ rooms => toLex (7, rooms.length)
  | .lockEntry => toLex (7, 0)
  | .loadLocked => toLex (8, 0)
  | .lookup => toLex (9, 0)
  | .lock => toLex (10, 0)
  | .evictAll k => toLex (11 + 2 * (numShards - k), 0)
  | .sweepAll k _ rooms => toLex (12 + 2 * (numShards - (k + 1)), rooms.length)
  | .load => toLex (12 + 2 * numShards, 0)

theorem Worker.Step.rank_lt {c : Completion} {sh' : Shared} {pc pc' : Pc}
    (h : Worker.Step cfg now c sh pc sh' pc') : pc'.rank < pc.rank := by
  rw [Prod.Lex.lt_iff]
  cases h with
  | sweepAll | evict => exact Or.inr ⟨rfl, Nat.lt_succ_self _⟩
  | lockNext hk =>
      refine Or.inl ?_
      show 12 + 2 * (numShards - (_ + 1)) < 11 + 2 * (numShards - _)
      omega
  | sweptAll | evictedAll =>
      refine Or.inl ?_
      simp only [Pc.rank, ofLex_toLex]
      omega
  | toEvict =>
      refine Or.inl ?_
      show 7 < 8
      decide
  | evicted =>
      refine Or.inl ?_
      show 6 < 7
      decide
  | _ => exact Or.inl (by decide)

/-- Completions of any rooms and sources, in any number, called at any moments and interleaved in any way:
from wherever they have come to, whichever of them moves next, some worker can move until all are done, and
they cannot move forever. -/
theorem completions_finish (cfg : Config) (init : State)
    {ok : Pool Shared Worker → Int → Turn Completion → Prop}
    {log : List (LogEntry (Turn Completion) Unit)} {p : Pool Shared Worker}
    (hrun : (completionPool cfg init).Run ok log p) :
    Pool.Finishes (Worker.next cfg) (fun w => w.pc = .done) p := by
  have horderly : Orderly p := Pool.invariant hrun (.init init) (fun _ c h => h.call c)
    fun _ _ _ _ _ _ h _ hw hnext => h.step hw hnext
  have hrank : ∀ sh now w sh' w', Worker.next cfg sh now w = some (sh', w') → w'.pc.rank < w.pc.rank :=
    fun _ _ _ _ _ hnext => (Worker.step_of_next hnext).2.rank_lt
  refine Pool.finishes_of_rank (r := (· < ·)) wellFounded_lt hrank (fun _ _ _ h hmove => h.moves hmove) ?_
    horderly
  intro p now h hopen
  exact Pool.exists_move_of_level hopen fun w hw hopen hblocked => h.exists_higher hw hopen hblocked

/-- Two completions for a full relay, the first of which sweeps a shard while the second waits for it. -/
theorem completions_finish_from_contention :
    ∃ log p, (completionPool { maxRooms := 1 } .empty).Run (fun _ _ _ => True) log p ∧
      p.threads.map (fun w => w.pc) = [.done, .sweepAll 0 0 [], .evictAll 0] ∧
      Pool.Finishes (Worker.next { maxRooms := 1 }) (fun w => w.pc = .done) p := by
  obtain ⟨log, hrun⟩ := Machine.Run.init.exec
    (show (completionPool { maxRooms := 1 } .empty).Admissible (fun _ _ _ => True) none
      ⟨⟨.empty, ∅, ∅⟩, []⟩ (oneByOne 1 20 ++ [(0, .call (lettered 1)), (0, .call (lettered 2)),
        (0, .run 1), (0, .run 2), (0, .run 1), (0, .run 2)]) by decide +kernel)
  exact ⟨log, _, hrun, by decide +kernel, completions_finish _ _ hrun⟩

end Qvole.Relay
