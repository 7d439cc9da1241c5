import Mathlib.Data.Multiset.OrderedMonoid
import Qvole.Lib.Pool
import Qvole.Relay.Moves

/-!
# Concurrent completions

A worker that completes a cookie creates the room under the lock of its shard, or joins it under the lock
of its entry. Each step of `completePending` that another worker can see is a step of its own here, behind
the deletion from the pending store: the loads of `totalRoomCount`, the eviction of one room, the lookup in
the index of the prefix, the insertion, the two updates, and the locks. What remains of a critical section
is one step.
-/

namespace Qvole.Relay

open Lib

/-- The tables, and the locks that are taken. -/
structure Shared where
  relay : State
  shards : Finset Nat
  entries : Finset Bytes

/-- What a `REG` brings along that has completed a pending registration of the store. -/
structure Completion where
  room : Bytes
  src : UDPAddr
  pend : PendingReg

/-- Where a worker is, by the step it makes next. -/
inductive Pc
  | load
  | evictAll (shard : Nat)
  | sweepAll (shard : Nat) (t : Int) (rooms : List Bytes)
  | lock
  | lookup
  | loadLocked
  | evict (t : Int) (rooms : List Bytes)
  | checkRooms
  | checkIP
  | insert
  | count
  | index
  | unlock
  | lockEntry
  | unlockShard
  | sweep
  | checkJoinIP
  | join
  | indexJoin
  | unlockEntry
  | done
  deriving DecidableEq

structure Worker extends Completion where
  pc : Pc

def Completion.start (c : Completion) : Worker := { c with pc := .load }

namespace Shared

def lockShard (k : Nat) (sh : Shared) : Shared := { sh with shards := insert k sh.shards }

def unlockShard (k : Nat) (sh : Shared) : Shared := { sh with shards := sh.shards.erase k }

def lockEntry (room : Bytes) (sh : Shared) : Shared := { sh with entries := insert room sh.entries }

def unlockEntry (room : Bytes) (sh : Shared) : Shared := { sh with entries := sh.entries.erase room }

def setCounters (c : Counters) (sh : Shared) : Shared :=
  { sh with relay := { sh.relay with counters := c } }

end Shared

def State.shardRooms (shard : Nat) (s : State) : List Bytes :=
  s.rooms.keys.filter fun room => shardIdx room numShards = shard

/-- The next step of a worker, `none` while it waits for a lock. Under the lock of the entry the room is
there (`room_of_needsRoom`). -/
def Worker.next (cfg : Config) (sh : Shared) (now : Int) (w : Worker) : Option (Shared × Worker) :=
  let srcStr := w.src.string
  let srcIP := ipKey srcStr
  let shard := shardIdx w.room numShards
  match w.pc with
  | .load =>
    some (sh, { w with pc := if cfg.maxRooms ≤ sh.relay.totalRooms then .evictAll 0 else .lock })
  | .evictAll k =>
    if k < numShards then
      if k ∈ sh.shards then none
      else some (sh.lockShard k, { w with pc := .sweepAll k now (sh.relay.shardRooms k) })
    else some (sh, { w with pc := .lock })
  | .sweepAll k _ [] => some (sh.unlockShard k, { w with pc := .evictAll (k + 1) })
  | .sweepAll k t (room :: rooms) =>
    if room ∈ sh.entries then none
    else some ({ sh with relay := sh.relay.evictStaleRoom cfg t room }, { w with pc := .sweepAll k t rooms })
  | .lock => if shard ∈ sh.shards then none else some (sh.lockShard shard, { w with pc := .lookup })
  | .lookup =>
    match sh.relay.rooms.lookup w.room with
    | none => some (sh, { w with pc := .loadLocked })
    | some _ => some (sh, { w with pc := .lockEntry })
  | .loadLocked =>
    some (sh, { w with
      pc := if cfg.maxRooms ≤ sh.relay.totalRooms then .evict now (sh.relay.shardRooms shard)
        else .checkRooms })
  | .evict _ [] => some (sh, { w with pc := .checkRooms })
  | .evict t (room :: rooms) =>
    if room ∈ sh.entries then none
    else some ({ sh with relay := sh.relay.evictStaleRoom cfg t room }, { w with pc := .evict t rooms })
  | .checkRooms =>
    if cfg.maxRooms ≤ sh.relay.totalRooms then some (sh.unlockShard shard, { w with pc := .done })
    else some (sh, { w with pc := .checkIP })
  | .checkIP =>
    if cfg.maxRoomsPerIP ≤ sh.relay.counters.countIPRooms srcIP then
      some (sh.unlockShard shard, { w with pc := .done })
    else some (sh, { w with pc := .insert })
  | .insert =>
    some ({ sh with
      relay := sh.relay.setRoom w.room (firstEntry now srcStr w.pend.resolvedAddr, sh.relay.counters) },
      { w with pc := .count })
  | .count => some (sh.setCounters (sh.relay.counters.addRooms 1), { w with pc := .index })
  | .index => some (sh.setCounters (sh.relay.counters.addIPRoom srcIP w.room), { w with pc := .unlock })
  | .unlock => some (sh.unlockShard shard, { w with pc := .done })
  | .lockEntry =>
    if w.room ∈ sh.entries then none else some (sh.lockEntry w.room, { w with pc := .unlockShard })
  | .unlockShard => some (sh.unlockShard shard, { w with pc := .sweep })
  | .sweep =>
    match sh.relay.rooms.lookup w.room with
    | none => none
    | some entry =>
      let e := RoomEntry.sweep cfg w.room now (entry, sh.relay.counters)
      let swept := { sh with relay := sh.relay.setRoom w.room e }
      if cfg.maxClientsHard ≤ e.1.udpClients.size ∧ srcStr ∉ e.1.udpClients then
        some (swept, { w with pc := .unlockEntry })
      else if srcStr ∉ e.1.udpClients ∧
          cfg.maxClientsPerPrefixPerRoom ≤ e.1.countPrefixClients srcIP then
        some (swept, { w with pc := .unlockEntry })
      else if e.1.holdsIP srcIP then
        some ({ sh with
          relay := sh.relay.setRoom w.room (e.1.letIn now srcStr w.pend.resolvedAddr, e.2) },
          { w with pc := .unlockEntry })
      else some (swept, { w with pc := .checkJoinIP })
  | .checkJoinIP =>
    if cfg.maxRoomsPerIP ≤ sh.relay.counters.countIPRooms srcIP then
      some (sh, { w with pc := .unlockEntry })
    else some (sh, { w with pc := .join })
  | .join =>
    match sh.relay.rooms.lookup w.room with
    | none => none
    | some entry =>
      some ({ sh with
        relay := sh.relay.setRoom w.room
          (entry.letIn now srcStr w.pend.resolvedAddr, sh.relay.counters) },
        { w with pc := .indexJoin })
  | .indexJoin =>
    some (sh.setCounters (sh.relay.counters.addIPRoom srcIP w.room), { w with pc := .unlockEntry })
  | .unlockEntry => some (sh.unlockEntry w.room, { w with pc := .done })
  | .done => none

/-- Any number of completions, from a state of the relay on in which no lock is taken. -/
def completionPool (cfg : Config) (init : State) : Machine (Pool Shared Worker) (Turn Completion) Unit :=
  Pool.machine Completion.start (Worker.next cfg) ⟨init, ∅, ∅⟩

variable {cfg : Config} {now : Int} {sh sh' : Shared} {w w' : Worker} {s s₁ s' : State} {c : Completion}

/-! ### A completion on its own

Without interruption, the worker does what `completePending` does in the model of one datagram at a time.
-/

theorem sweepAll_alone (k : Nat) (rooms : List Bytes) (s : State) (shards : Finset Nat) :
    Pool.Alone (Worker.next cfg) now (⟨s, shards, ∅⟩, ⟨c, .sweepAll k now rooms⟩)
      (⟨rooms.foldl (State.evictStaleRoom cfg now) s, shards, ∅⟩, ⟨c, .sweepAll k now []⟩) := by
  induction rooms generalizing s with
  | nil => exact .refl
  | cons room rooms ih => exact .head rfl (ih _)

theorem evict_alone (rooms : List Bytes) (s : State) (shards : Finset Nat) :
    Pool.Alone (Worker.next cfg) now (⟨s, shards, ∅⟩, ⟨c, .evict now rooms⟩)
      (⟨rooms.foldl (State.evictStaleRoom cfg now) s, shards, ∅⟩, ⟨c, .evict now []⟩) := by
  induction rooms generalizing s with
  | nil => exact .refl
  | cons room rooms ih => exact .head rfl (ih _)

theorem evictAll_alone (n k : Nat) (hn : k + n = numShards) (s : State) :
    Pool.Alone (Worker.next cfg) now (⟨s, ∅, ∅⟩, ⟨c, .evictAll k⟩)
      (⟨(List.range' k n).foldl (fun s shard => s.evictStaleRooms cfg now shard) s, ∅, ∅⟩,
        ⟨c, .lock⟩) := by
  induction n generalizing k s with
  | zero =>
      refine .single ?_
      have hk : ¬ k < numShards := by omega
      simp only [Worker.next, if_neg hk]
      rfl
  | succ n ih =>
      have hk : k < numShards := by omega
      have hlock : Worker.next cfg ⟨s, ∅, ∅⟩ now ⟨c, .evictAll k⟩ =
          some (⟨s, {k}, ∅⟩, ⟨c, .sweepAll k now (s.shardRooms k)⟩) := by
        simp only [Worker.next, if_pos hk]
        rfl
      have hunlock : Worker.next cfg ⟨s.evictStaleRooms cfg now k, {k}, ∅⟩ now ⟨c, .sweepAll k now []⟩ =
          some (⟨s.evictStaleRooms cfg now k, ∅, ∅⟩, ⟨c, .evictAll (k + 1)⟩) := by
        simp [Worker.next, Shared.unlockShard]
      exact .head hlock ((sweepAll_alone k _ s {k}).trans (.head hunlock (ih (k + 1) (by omega) _)))

/-- The worker is the only one and has the lock of its shard. -/
abbrev Completion.inShard (c : Completion) (s : State) : Shared := ⟨s, {shardIdx c.room numShards}, ∅⟩

theorem Completion.unlockShard_inShard (c : Completion) (s : State) :
    (c.inShard s).unlockShard (shardIdx c.room numShards) = ⟨s, ∅, ∅⟩ := by
  simp [Shared.unlockShard]

theorem create_alone (hnone : s.rooms.lookup c.room = none) :
    Pool.Alone (Worker.next cfg) now (c.inShard s, ⟨c, .lookup⟩)
      (⟨(createRoom cfg now c.room c.src c.pend s).1, ∅, ∅⟩, ⟨c, .done⟩) := by
  have hlookup : Worker.next cfg (c.inShard s) now ⟨c, .lookup⟩ =
      some (c.inShard s, ⟨c, .loadLocked⟩) := by
    simp only [Worker.next, hnone]
  refine .head hlookup ?_
  simp only [createRoom]
  generalize hs₁ : (if cfg.maxRooms ≤ s.totalRooms then
    s.evictStaleRooms cfg now (shardIdx c.room numShards) else s) = s₁
  have hload : Pool.Alone (Worker.next cfg) now (c.inShard s, ⟨c, .loadLocked⟩)
      (c.inShard s₁, ⟨c, .checkRooms⟩) := by
    rw [← hs₁]
    split
    · rename_i hfull
      have hevict : Worker.next cfg (c.inShard s) now ⟨c, .loadLocked⟩ =
          some (c.inShard s, ⟨c, .evict now (s.shardRooms (shardIdx c.room numShards))⟩) := by
        simp only [Worker.next, if_pos hfull]
      exact .head hevict ((evict_alone _ s _).trans (.single rfl))
    · rename_i hfull
      apply Relation.ReflTransGen.single
      simp only [Worker.next, if_neg hfull]
  refine hload.trans ?_
  split
  · rename_i hfull
    apply Relation.ReflTransGen.single
    simp only [Worker.next, if_pos hfull, c.unlockShard_inShard]
  rename_i hfull
  have hrooms : Worker.next cfg (c.inShard s₁) now ⟨c, .checkRooms⟩ =
      some (c.inShard s₁, ⟨c, .checkIP⟩) := by
    simp only [Worker.next, if_neg hfull]
  refine .head hrooms ?_
  split
  · rename_i hip
    apply Relation.ReflTransGen.single
    simp only [Worker.next, if_pos hip, c.unlockShard_inShard]
  rename_i hip
  have hpass : Worker.next cfg (c.inShard s₁) now ⟨c, .checkIP⟩ =
      some (c.inShard s₁, ⟨c, .insert⟩) := by
    simp only [Worker.next, if_neg hip]
  refine .head hpass (.head rfl (.head rfl (.head rfl (.single ?_))))
  simp only [Worker.next, Shared.setCounters, c.unlockShard_inShard]
  rfl

/-- The worker is the only one and has the lock of the entry. -/
abbrev Completion.inEntry (c : Completion) (s : State) : Shared := ⟨s, ∅, {c.room}⟩

theorem Completion.unlockEntry_inEntry (c : Completion) (s : State) :
    (c.inEntry s).unlockEntry c.room = ⟨s, ∅, ∅⟩ := by
  simp [Shared.unlockEntry]

theorem join_alone {entry : RoomEntry} (hroom : s.rooms.lookup c.room = some entry) :
    Pool.Alone (Worker.next cfg) now (c.inShard s, ⟨c, .lookup⟩)
      (⟨(joinRoom cfg now c.room c.src c.pend entry s).1, ∅, ∅⟩, ⟨c, .done⟩) := by
  have hlock : Pool.Alone (Worker.next cfg) now (c.inShard s, ⟨c, .lookup⟩)
      (c.inEntry s, ⟨c, .sweep⟩) := by
    have hlookup : Worker.next cfg (c.inShard s) now ⟨c, .lookup⟩ =
        some (c.inShard s, ⟨c, .lockEntry⟩) := by
      simp only [Worker.next, hroom]
    refine .head hlookup (.head rfl (.single ?_))
    simp [Worker.next, Shared.lockEntry, Shared.unlockShard]
  have hunlock : ∀ s', Pool.Alone (Worker.next cfg) now (c.inEntry s', ⟨c, .unlockEntry⟩)
      (⟨s', ∅, ∅⟩, ⟨c, .done⟩) := by
    intro s'
    apply Relation.ReflTransGen.single
    simp only [Worker.next, c.unlockEntry_inEntry]
  refine hlock.trans ?_
  simp only [joinRoom]
  generalize hsweep : RoomEntry.sweep cfg c.room now (entry, s.counters) = e
  split
  · rename_i hhard
    refine .head ?_ (hunlock _)
    simp only [Worker.next, hroom, hsweep, if_pos hhard]
  rename_i hhard
  split
  · rename_i hpre
    refine .head ?_ (hunlock _)
    simp only [Worker.next, hroom, hsweep, if_neg hhard, if_pos hpre]
  rename_i hpre
  by_cases hholds : e.1.holdsIP (ipKey c.src.string) = true
  · rw [if_neg fun h => h.1 hholds]
    refine .head ?_ (hunlock _)
    simp only [Worker.next, hroom, hsweep, if_neg hhard, if_neg hpre, if_pos hholds]
    simp only [RoomEntry.holdsIP] at hholds
    rw [if_pos hholds]
    rfl
  have hswept : Worker.next cfg (c.inEntry s) now ⟨c, .sweep⟩ =
      some (c.inEntry (s.setRoom c.room e), ⟨c, .checkJoinIP⟩) := by
    simp only [Worker.next, hroom, hsweep, if_neg hhard, if_neg hpre, if_neg hholds]
  refine .head hswept ?_
  simp only [RoomEntry.holdsIP] at hholds
  by_cases hip : cfg.maxRoomsPerIP ≤ e.2.countIPRooms (ipKey c.src.string)
  · rw [if_pos ⟨hholds, hip⟩]
    refine .head ?_ (hunlock _)
    simp only [Worker.next]
    exact if_pos hip
  · rw [if_neg fun h => hip h.2, if_neg hholds]
    have hpass : Worker.next cfg (c.inEntry (s.setRoom c.room e)) now ⟨c, .checkJoinIP⟩ =
        some (c.inEntry (s.setRoom c.room e), ⟨c, .join⟩) := by
      simp only [Worker.next]
      exact if_neg hip
    have hjoin : Worker.next cfg (c.inEntry (s.setRoom c.room e)) now ⟨c, .join⟩ =
        some (c.inEntry (s.setRoom c.room (e.1.letIn now c.src.string c.pend.resolvedAddr, e.2)),
          ⟨c, .indexJoin⟩) := by
      simp only [Worker.next, State.lookup_setRoom, State.setRoom_setRoom]
      rfl
    exact .head hpass (.head hjoin (.head rfl (hunlock _)))

theorem Completion.alone {b : Bytes} (hcookie : c.pend.cookie.val = b)
    (hfresh : now - c.pend.createdAt ≤ pendingRegTTL) (s : State) :
    Pool.Alone (Worker.next cfg) now (⟨s.deletePendingReg c.room c.src.string, ∅, ∅⟩, c.start)
      (⟨(completePending cfg now c.room b c.src c.pend s).1, ∅, ∅⟩, ⟨c, .done⟩) := by
  simp only [completePending, if_neg (not_not_intro hcookie), if_neg (Int.not_lt.mpr hfresh)]
  generalize s.deletePendingReg c.room c.src.string = s
  generalize hs₁ : (if cfg.maxRooms ≤ s.totalRooms then s.evictStaleRoomsAll cfg now else s) = s₁
  have hload : Pool.Alone (Worker.next cfg) now (⟨s, ∅, ∅⟩, c.start) (⟨s₁, ∅, ∅⟩, ⟨c, .lock⟩) := by
    rw [← hs₁]
    split
    · rename_i hfull
      have hevict : Worker.next cfg ⟨s, ∅, ∅⟩ now c.start = some (⟨s, ∅, ∅⟩, ⟨c, .evictAll 0⟩) := by
        simp only [Worker.next, Completion.start, if_pos hfull]
      refine .head hevict ?_
      rw [State.evictStaleRoomsAll, List.range_eq_range']
      exact evictAll_alone numShards 0 (Nat.zero_add _) s
    · rename_i hfull
      apply Relation.ReflTransGen.single
      simp only [Worker.next, Completion.start, if_neg hfull]
  have hlock : Worker.next cfg ⟨s₁, ∅, ∅⟩ now ⟨c, .lock⟩ = some (c.inShard s₁, ⟨c, .lookup⟩) := rfl
  refine hload.trans (.head hlock ?_)
  cases hroom : s₁.rooms.lookup c.room with
  | none => exact create_alone hroom
  | some entry => exact join_alone hroom

theorem Completion.uninterrupted {b : Bytes} (hcookie : c.pend.cookie.val = b)
    (hfresh : now - c.pend.createdAt ≤ pendingRegTTL) {init : State} {p : Pool Shared Worker} {i : Nat}
    (hshared : p.shared = ⟨s.deletePendingReg c.room c.src.string, ∅, ∅⟩)
    (hi : p.threads[i]? = some c.start) :
    ∃ log, (completionPool cfg init).Steps (fun _ _ _ => True) p log
      ⟨⟨(completePending cfg now c.room b c.src c.pend s).1, ∅, ∅⟩, p.threads.set i ⟨c, .done⟩⟩ :=
  (Completion.alone hcookie hfresh s).steps hshared hi

/-! ### What a step is -/

/-- The steps `Worker.next` takes for a completion, each with what it has found. -/
inductive Worker.Step (cfg : Config) (now : Int) (c : Completion) : Shared → Pc → Shared → Pc → Prop
  | evictAll {sh : Shared} (hfull : cfg.maxRooms ≤ sh.relay.totalRooms) :
      Step cfg now c sh .load sh (.evictAll 0)
  | toLock {sh : Shared} (hfull : ¬ cfg.maxRooms ≤ sh.relay.totalRooms) : Step cfg now c sh .load sh .lock
  | lockNext {sh : Shared} {k : Nat} (hk : k < numShards) (hfree : k ∉ sh.shards) :
      Step cfg now c sh (.evictAll k) (sh.lockShard k) (.sweepAll k now (sh.relay.shardRooms k))
  | evictedAll {sh : Shared} {k : Nat} (hk : ¬ k < numShards) : Step cfg now c sh (.evictAll k) sh .lock
  | sweptAll {sh : Shared} {k : Nat} {t : Int} :
      Step cfg now c sh (.sweepAll k t []) (sh.unlockShard k) (.evictAll (k + 1))
  | sweepAll {sh : Shared} {k : Nat} {t : Int} {room : Bytes} {rooms : List Bytes}
      (hfree : room ∉ sh.entries) : Step cfg now c sh (.sweepAll k t (room :: rooms))
        { sh with relay := sh.relay.evictStaleRoom cfg t room } (.sweepAll k t rooms)
  | lock {sh : Shared} (hfree : shardIdx c.room numShards ∉ sh.shards) :
      Step cfg now c sh .lock (sh.lockShard (shardIdx c.room numShards)) .lookup
  | missing {sh : Shared} (hroom : sh.relay.rooms.lookup c.room = none) :
      Step cfg now c sh .lookup sh .loadLocked
  | found {sh : Shared} {e : RoomEntry} (hroom : sh.relay.rooms.lookup c.room = some e) :
      Step cfg now c sh .lookup sh .lockEntry
  | toEvict {sh : Shared} (hfull : cfg.maxRooms ≤ sh.relay.totalRooms) :
      Step cfg now c sh .loadLocked sh (.evict now (sh.relay.shardRooms (shardIdx c.room numShards)))
  | toCheck {sh : Shared} (hfull : ¬ cfg.maxRooms ≤ sh.relay.totalRooms) :
      Step cfg now c sh .loadLocked sh .checkRooms
  | evicted {sh : Shared} {t : Int} : Step cfg now c sh (.evict t []) sh .checkRooms
  | evict {sh : Shared} {t : Int} {room : Bytes} {rooms : List Bytes} (hfree : room ∉ sh.entries) :
      Step cfg now c sh (.evict t (room :: rooms))
        { sh with relay := sh.relay.evictStaleRoom cfg t room } (.evict t rooms)
  | refuseRooms {sh : Shared} (hfull : cfg.maxRooms ≤ sh.relay.totalRooms) :
      Step cfg now c sh .checkRooms (sh.unlockShard (shardIdx c.room numShards)) .done
  | passRooms {sh : Shared} (hfull : ¬ cfg.maxRooms ≤ sh.relay.totalRooms) :
      Step cfg now c sh .checkRooms sh .checkIP
  | refuseIP {sh : Shared}
      (hip : cfg.maxRoomsPerIP ≤ sh.relay.counters.countIPRooms (ipKey c.src.string)) :
      Step cfg now c sh .checkIP (sh.unlockShard (shardIdx c.room numShards)) .done
  | passIP {sh : Shared}
      (hip : ¬ cfg.maxRoomsPerIP ≤ sh.relay.counters.countIPRooms (ipKey c.src.string)) :
      Step cfg now c sh .checkIP sh .insert
  | insert {sh : Shared} : Step cfg now c sh .insert
      { sh with
        relay := sh.relay.setRoom c.room
          (firstEntry now c.src.string c.pend.resolvedAddr, sh.relay.counters) } .count
  | count {sh : Shared} : Step cfg now c sh .count (sh.setCounters (sh.relay.counters.addRooms 1)) .index
  | index {sh : Shared} : Step cfg now c sh .index
      (sh.setCounters (sh.relay.counters.addIPRoom (ipKey c.src.string) c.room)) .unlock
  | unlock {sh : Shared} :
      Step cfg now c sh .unlock (sh.unlockShard (shardIdx c.room numShards)) .done
  | lockEntry {sh : Shared} (hfree : c.room ∉ sh.entries) :
      Step cfg now c sh .lockEntry (sh.lockEntry c.room) .unlockShard
  | unlockShard {sh : Shared} :
      Step cfg now c sh .unlockShard (sh.unlockShard (shardIdx c.room numShards)) .sweep
  | refuseJoin {sh : Shared} {entry : RoomEntry} {e : RoomEntry × Counters}
      (hroom : sh.relay.rooms.lookup c.room = some entry)
      (hsweep : RoomEntry.sweep cfg c.room now (entry, sh.relay.counters) = e)
      (hfull : (cfg.maxClientsHard ≤ e.1.udpClients.size ∧ c.src.string ∉ e.1.udpClients) ∨
        (c.src.string ∉ e.1.udpClients ∧
          cfg.maxClientsPerPrefixPerRoom ≤ e.1.countPrefixClients (ipKey c.src.string))) :
      Step cfg now c sh .sweep { sh with relay := sh.relay.setRoom c.room e } .unlockEntry
  | rejoin {sh : Shared} {entry : RoomEntry} {e : RoomEntry × Counters}
      (hroom : sh.relay.rooms.lookup c.room = some entry)
      (hsweep : RoomEntry.sweep cfg c.room now (entry, sh.relay.counters) = e)
      (hholds : e.1.holdsIP (ipKey c.src.string) = true) :
      Step cfg now c sh .sweep
        { sh with
          relay := sh.relay.setRoom c.room (e.1.letIn now c.src.string c.pend.resolvedAddr, e.2) }
        .unlockEntry
  | sweep {sh : Shared} {entry : RoomEntry} {e : RoomEntry × Counters}
      (hroom : sh.relay.rooms.lookup c.room = some entry)
      (hsweep : RoomEntry.sweep cfg c.room now (entry, sh.relay.counters) = e)
      (hholds : ¬ e.1.holdsIP (ipKey c.src.string) = true) :
      Step cfg now c sh .sweep { sh with relay := sh.relay.setRoom c.room e } .checkJoinIP
  | refuseJoinIP {sh : Shared}
      (hip : cfg.maxRoomsPerIP ≤ sh.relay.counters.countIPRooms (ipKey c.src.string)) :
      Step cfg now c sh .checkJoinIP sh .unlockEntry
  | passJoinIP {sh : Shared}
      (hip : ¬ cfg.maxRoomsPerIP ≤ sh.relay.counters.countIPRooms (ipKey c.src.string)) :
      Step cfg now c sh .checkJoinIP sh .join
  | join {sh : Shared} {entry : RoomEntry} (hroom : sh.relay.rooms.lookup c.room = some entry) :
      Step cfg now c sh .join
        { sh with
          relay := sh.relay.setRoom c.room
            (entry.letIn now c.src.string c.pend.resolvedAddr, sh.relay.counters) }
        .indexJoin
  | indexJoin {sh : Shared} : Step cfg now c sh .indexJoin
      (sh.setCounters (sh.relay.counters.addIPRoom (ipKey c.src.string) c.room)) .unlockEntry
  | unlockEntry {sh : Shared} : Step cfg now c sh .unlockEntry (sh.unlockEntry c.room) .done

/-- `Worker.next` is taken apart here and nowhere else. -/
theorem Worker.step_of_next {pc : Pc} (h : Worker.next cfg sh now ⟨c, pc⟩ = some (sh', w')) :
    w'.toCompletion = c ∧ Step cfg now c sh pc sh' w'.pc := by
  cases pc with
  | load =>
      cases h
      dsimp only
      split
      · exact ⟨rfl, .evictAll ‹_›⟩
      · exact ⟨rfl, .toLock ‹_›⟩
  | evictAll k =>
      simp only [next] at h
      split at h
      · split at h
        · cases h
        · cases h
          exact ⟨rfl, .lockNext ‹_› ‹_›⟩
      · cases h
        exact ⟨rfl, .evictedAll ‹_›⟩
  | sweepAll k t rooms =>
      cases rooms with
      | nil =>
          cases h
          exact ⟨rfl, .sweptAll⟩
      | cons room rooms =>
          simp only [next] at h
          split at h
          · cases h
          · cases h
            exact ⟨rfl, .sweepAll ‹_›⟩
  | lock =>
      simp only [next] at h
      split at h
      · cases h
      · cases h
        exact ⟨rfl, .lock ‹_›⟩
  | lookup =>
      simp only [next] at h
      split at h
      · cases h
        exact ⟨rfl, .missing ‹_›⟩
      · cases h
        exact ⟨rfl, .found ‹_›⟩
  | loadLocked =>
      cases h
      dsimp only
      split
      · exact ⟨rfl, .toEvict ‹_›⟩
      · exact ⟨rfl, .toCheck ‹_›⟩
  | evict t rooms =>
      cases rooms with
      | nil =>
          cases h
          exact ⟨rfl, .evicted⟩
      | cons room rooms =>
          simp only [next] at h
          split at h
          · cases h
          · cases h
            exact ⟨rfl, .evict ‹_›⟩
  | checkRooms =>
      simp only [next] at h
      split at h
      · cases h
        exact ⟨rfl, .refuseRooms ‹_›⟩
      · cases h
        exact ⟨rfl, .passRooms ‹_›⟩
  | checkIP =>
      simp only [next] at h
      split at h
      · cases h
        exact ⟨rfl, .refuseIP ‹_›⟩
      · cases h
        exact ⟨rfl, .passIP ‹_›⟩
  | insert =>
      cases h
      exact ⟨rfl, .insert⟩
  | count =>
      cases h
      exact ⟨rfl, .count⟩
  | index =>
      cases h
      exact ⟨rfl, .index⟩
  | unlock =>
      cases h
      exact ⟨rfl, .unlock⟩
  | lockEntry =>
      simp only [next] at h
      split at h
      · cases h
      · cases h
        exact ⟨rfl, .lockEntry ‹_›⟩
  | unlockShard =>
      cases h
      exact ⟨rfl, .unlockShard⟩
  | sweep =>
      simp only [next] at h
      split at h
      · cases h
      rename_i entry hroom
      generalize hsweep : RoomEntry.sweep cfg c.room now (entry, sh.relay.counters) = e at h
      split at h
      · cases h
        exact ⟨rfl, .refuseJoin hroom hsweep (Or.inl ‹_›)⟩
      split at h
      · cases h
        exact ⟨rfl, .refuseJoin hroom hsweep (Or.inr ‹_›)⟩
      split at h
      · cases h
        exact ⟨rfl, .rejoin hroom hsweep ‹_›⟩
      · cases h
        exact ⟨rfl, .sweep hroom hsweep ‹_›⟩
  | checkJoinIP =>
      simp only [next] at h
      split at h
      · cases h
        exact ⟨rfl, .refuseJoinIP ‹_›⟩
      · cases h
        exact ⟨rfl, .passJoinIP ‹_›⟩
  | join =>
      simp only [next] at h
      split at h
      · cases h
      · cases h
        exact ⟨rfl, .join ‹_›⟩
  | indexJoin =>
      cases h
      exact ⟨rfl, .indexJoin⟩
  | unlockEntry =>
      cases h
      exact ⟨rfl, .unlockEntry⟩
  | done => cases h

/-! ### The locks

The locks that are taken are those the workers have, each of them once. An eviction takes the lock of the
shard and waits for that of the entry, so it cannot take a room away from a worker that has found it under
the one and then holds the other.
-/

namespace Worker

/-- The lock of a shard the worker has. -/
def shardLock (w : Worker) : Multiset Nat :=
  match w.pc with
  | .sweepAll k _ _ => {k}
  | .lookup | .loadLocked | .evict _ _ | .checkRooms | .checkIP | .insert | .count | .index | .unlock
  | .lockEntry | .unlockShard => {shardIdx w.room numShards}
  | _ => 0

/-- The lock of an entry the worker has. -/
def entryLock (w : Worker) : Multiset Bytes :=
  match w.pc with
  | .unlockShard | .sweep | .checkJoinIP | .join | .indexJoin | .unlockEntry => {w.room}
  | _ => 0

end Worker

/-- The worker has found the room and relies on it. -/
def Pc.needsRoom : Pc → Bool
  | .lockEntry | .unlockShard | .sweep | .checkJoinIP | .join | .indexJoin | .unlockEntry => true
  | _ => false

/-- A sweep has only rooms of its shard before it. -/
def Pc.InScope (room : Bytes) : Pc → Prop
  | .sweepAll k _ rooms => ∀ R ∈ rooms, shardIdx R numShards = k
  | .evict _ rooms => ∀ R ∈ rooms, shardIdx R numShards = shardIdx room numShards
  | _ => True

theorem State.shardIdx_of_mem_shardRooms {R : Bytes} {k : Nat} (h : R ∈ s.shardRooms k) :
    shardIdx R numShards = k :=
  of_decide_eq_true (List.mem_filter.mp h).2

theorem State.mem_evictStaleRoom {R room : Bytes} (hne : R ≠ room) (hR : R ∈ s.rooms) :
    R ∈ (s.evictStaleRoom cfg now room).rooms := by
  unfold evictStaleRoom
  split
  · exact hR
  dsimp only
  split
  · exact AList.mem_erase.mpr ⟨hne, hR⟩
  · exact GoMap.mem_insert_if.mpr (Or.inr hR)

/-- What a step does to the locks, and what it may take away. -/
structure LockEffect (c : Completion) (sh : Shared) (pc : Pc) (sh' : Shared) (pc' : Pc) : Prop where
  shards : Worker.shardLock ⟨c, pc⟩ ≤ sh.shards.val →
    Worker.shardLock ⟨c, pc'⟩ + sh.shards.val = Worker.shardLock ⟨c, pc⟩ + sh'.shards.val
  entries : Worker.entryLock ⟨c, pc⟩ ≤ sh.entries.val →
    Worker.entryLock ⟨c, pc'⟩ + sh.entries.val = Worker.entryLock ⟨c, pc⟩ + sh'.entries.val
  scope : pc.InScope c.room → pc'.InScope c.room
  needs : pc'.needsRoom = true → c.room ∈ sh'.relay.rooms ∨ pc.needsRoom = true
  rooms : pc.InScope c.room → ∀ R, R ∈ sh.relay.rooms → R ∈ sh'.relay.rooms ∨
    R ∉ sh.entries ∧ Worker.shardLock ⟨c, pc⟩ = {shardIdx R numShards} ∧ pc'.needsRoom = false

namespace LockEffect

variable {pc pc' : Pc} {k : Nat}

/-- A step that leaves the locks alone and removes no room. -/
theorem keep (hshards : sh'.shards = sh.shards) (hentries : sh'.entries = sh.entries)
    (hshard : Worker.shardLock ⟨c, pc'⟩ = Worker.shardLock ⟨c, pc⟩)
    (hentry : Worker.entryLock ⟨c, pc'⟩ = Worker.entryLock ⟨c, pc⟩)
    (hscope : pc'.InScope c.room)
    (hneeds : pc'.needsRoom = true → c.room ∈ sh'.relay.rooms ∨ pc.needsRoom = true)
    (hrooms : ∀ R, R ∈ sh.relay.rooms → R ∈ sh'.relay.rooms) : LockEffect c sh pc sh' pc' where
  shards _ := by rw [hshard, hshards]
  entries _ := by rw [hentry, hentries]
  scope _ := hscope
  needs := hneeds
  rooms _ R hR := Or.inl (hrooms R hR)

theorem lockShard (hk : k ∉ sh.shards) (hbefore : Worker.shardLock ⟨c, pc⟩ = 0)
    (hafter : Worker.shardLock ⟨c, pc'⟩ = {k})
    (hentry : Worker.entryLock ⟨c, pc'⟩ = Worker.entryLock ⟨c, pc⟩)
    (hscope : pc'.InScope c.room) (hneeds : pc'.needsRoom = false) :
    LockEffect c sh pc (sh.lockShard k) pc' where
  shards _ := by
    rw [hbefore, hafter, Shared.lockShard, Finset.insert_val_of_notMem hk, zero_add,
      Multiset.singleton_add]
  entries _ := by
    rw [hentry]
    rfl
  scope _ := hscope
  needs h := absurd h (by rw [hneeds]; exact Bool.false_ne_true)
  rooms _ _ hR := Or.inl hR

theorem unlockShard (hbefore : Worker.shardLock ⟨c, pc⟩ = {k})
    (hafter : Worker.shardLock ⟨c, pc'⟩ = 0)
    (hentry : Worker.entryLock ⟨c, pc'⟩ = Worker.entryLock ⟨c, pc⟩)
    (hscope : pc'.InScope c.room) (hneeds : pc'.needsRoom = true → pc.needsRoom = true) :
    LockEffect c sh pc (sh.unlockShard k) pc' where
  shards hheld := by
    rw [hbefore, Multiset.singleton_le] at hheld
    rw [hbefore, hafter, Shared.unlockShard, Finset.erase_val, zero_add, Multiset.singleton_add,
      Multiset.cons_erase hheld]
  entries _ := by
    rw [hentry]
    rfl
  scope _ := hscope
  needs h := Or.inr (hneeds h)
  rooms _ _ hR := Or.inl hR

theorem lockEntry (hfree : c.room ∉ sh.entries) :
    LockEffect c sh .lockEntry (sh.lockEntry c.room) .unlockShard where
  shards _ := rfl
  entries _ := by
    rw [Shared.lockEntry, Finset.insert_val_of_notMem hfree]
    show {c.room} + sh.entries.val = 0 + _
    rw [zero_add, Multiset.singleton_add]
  scope _ := trivial
  needs _ := Or.inr rfl
  rooms _ _ hR := Or.inl hR

theorem unlockEntry : LockEffect c sh .unlockEntry (sh.unlockEntry c.room) .done where
  shards _ := rfl
  entries hheld := by
    change {c.room} ≤ sh.entries.val at hheld
    rw [Multiset.singleton_le] at hheld
    rw [Shared.unlockEntry, Finset.erase_val]
    show 0 + sh.entries.val = {c.room} + _
    rw [zero_add, Multiset.singleton_add, Multiset.cons_erase hheld]
  scope _ := trivial
  needs h := Or.inr (absurd h Bool.false_ne_true)
  rooms _ _ hR := Or.inl hR

/-- The eviction of one room of the shard. -/
theorem evict {room : Bytes} {t : Int} (hfree : room ∉ sh.entries)
    (hshard : Worker.shardLock ⟨c, pc'⟩ = Worker.shardLock ⟨c, pc⟩)
    (hentry : Worker.entryLock ⟨c, pc'⟩ = Worker.entryLock ⟨c, pc⟩)
    (hscope : pc.InScope c.room → pc'.InScope c.room) (hneeds : pc'.needsRoom = false)
    (hlock : pc.InScope c.room → Worker.shardLock ⟨c, pc⟩ = {shardIdx room numShards}) :
    LockEffect c sh pc { sh with relay := sh.relay.evictStaleRoom cfg t room } pc' where
  shards _ := by rw [hshard]
  entries _ := by rw [hentry]
  scope := hscope
  needs h := absurd h (by rw [hneeds]; exact Bool.false_ne_true)
  rooms hin R hR := by
    by_cases hne : R = room
    · subst hne
      exact Or.inr ⟨hfree, hlock hin, hneeds⟩
    · exact Or.inl (State.mem_evictStaleRoom hne hR)

end LockEffect

theorem Worker.Step.lockEffect {pc pc' : Pc} (h : Step cfg now c sh pc sh' pc') :
    LockEffect c sh pc sh' pc' := by
  have hnone : false = true → c.room ∈ sh'.relay.rooms ∨ pc.needsRoom = true :=
    fun hfalse => absurd hfalse Bool.false_ne_true
  -- a room that is set stays in the table, whatever is written
  have hput : ∀ (e : RoomEntry × Counters) R, R ∈ sh.relay.rooms →
      R ∈ (sh.relay.setRoom c.room e).rooms :=
    fun e R hR => GoMap.mem_insert_if.mpr (Or.inr hR)
  cases h with
  | evictAll | toLock | evictedAll | missing | toCheck | evicted | passRooms | passIP | count | index =>
      exact .keep rfl rfl rfl rfl trivial hnone fun _ => id
  | toEvict =>
      exact .keep rfl rfl rfl rfl (fun _ => State.shardIdx_of_mem_shardRooms) hnone fun _ => id
  | found hroom =>
      exact .keep rfl rfl rfl rfl trivial (fun _ => Or.inl (GoMap.mem_of_lookup hroom)) fun _ => id
  | refuseJoinIP | passJoinIP | indexJoin =>
      exact .keep rfl rfl rfl rfl trivial (fun _ => Or.inr rfl) fun _ => id
  | refuseJoin | rejoin | sweep | join =>
      exact .keep rfl rfl rfl rfl trivial (fun _ => Or.inr rfl) (hput _)
  | insert => exact .keep rfl rfl rfl rfl trivial hnone (hput _)
  | lockNext _ hfree =>
      exact .lockShard hfree rfl rfl rfl (fun _ => State.shardIdx_of_mem_shardRooms) rfl
  | lock hfree => exact .lockShard hfree rfl rfl rfl trivial rfl
  | sweptAll | refuseRooms | refuseIP | unlock | unlockShard =>
      exact .unlockShard rfl rfl rfl trivial id
  | lockEntry hfree => exact .lockEntry hfree
  | unlockEntry => exact .unlockEntry
  | sweepAll hfree | evict hfree =>
      refine .evict hfree rfl rfl (fun hin R hR => hin R (List.mem_cons_of_mem _ hR)) rfl fun hin => ?_
      rw [hin _ List.mem_cons_self]
      rfl

theorem Worker.lock_of_needsRoom (h : w.pc.needsRoom = true) :
    w.room ∈ w.entryLock ∨ shardIdx w.room numShards ∈ w.shardLock := by
  obtain ⟨c, pc⟩ := w
  cases pc with
  | lockEntry => exact Or.inr (Multiset.mem_singleton_self _)
  | unlockShard | sweep | checkJoinIP | join | indexJoin | unlockEntry =>
      exact Or.inl (Multiset.mem_singleton_self _)
  | _ => cases h

/-- The locks are those of the workers, and no worker relies on a room that is gone. -/
structure Orderly (p : Pool Shared Worker) : Prop where
  shards : p.sum Worker.shardLock = p.shared.shards.val
  entries : p.sum Worker.entryLock = p.shared.entries.val
  scope : ∀ (i : Nat) (w : Worker), p.threads[i]? = some w → w.pc.InScope w.room
  rooms : ∀ (i : Nat) (w : Worker), p.threads[i]? = some w → w.pc.needsRoom = true → w.room ∈ p.shared.relay.rooms

namespace Orderly

variable {p : Pool Shared Worker} {i j : Nat}

theorem init (s : State) : Orderly ⟨⟨s, ∅, ∅⟩, []⟩ where
  shards := rfl
  entries := rfl
  scope _ _ hw := by cases hw
  rooms _ _ hw := by cases hw

theorem call (h : Orderly p) (c : Completion) :
    Orderly { p with threads := p.threads ++ [c.start] } := by
  refine ⟨?_, ?_, fun i w hw => ?_, fun i w hw hneeds => ?_⟩
  · rw [Pool.sum_call]
    exact (add_zero _).trans h.shards
  · rw [Pool.sum_call]
    exact (add_zero _).trans h.entries
  · rcases Pool.getElem?_call_cases hw with hold | rfl
    · exact h.scope i w hold
    · trivial
  · rcases Pool.getElem?_call_cases hw with hold | rfl
    · exact h.rooms i w hold hneeds
    · exact absurd hneeds Bool.false_ne_true

/-- No shard has two workers in its critical section. -/
theorem exclusive (h : Orderly p) (hij : i ≠ j) (hw : p.threads[i]? = some w)
    (hw' : p.threads[j]? = some w') {k : Nat} (hk : k ∈ w.shardLock) : k ∉ w'.shardLock := by
  have hnodup : (p.sum Worker.shardLock).Nodup := h.shards ▸ p.shared.shards.nodup
  exact Multiset.disjoint_left.mp (Pool.disjoint_of_nodup hnodup hij hw hw') hk

/-- No entry has two workers in its critical section. -/
theorem exclusive_entry (h : Orderly p) (hij : i ≠ j) (hw : p.threads[i]? = some w)
    (hw' : p.threads[j]? = some w') {R : Bytes} (hR : R ∈ w.entryLock) : R ∉ w'.entryLock := by
  have hnodup : (p.sum Worker.entryLock).Nodup := h.entries ▸ p.shared.entries.nodup
  exact Multiset.disjoint_left.mp (Pool.disjoint_of_nodup hnodup hij hw hw') hR

theorem step (h : Orderly p) (hw : p.threads[i]? = some w)
    (hnext : Worker.next cfg p.shared now w = some (sh', w')) :
    Orderly ⟨sh', p.threads.set i w'⟩ := by
  obtain ⟨c, pc⟩ := w
  obtain ⟨c', pc'⟩ := w'
  obtain ⟨hc, hstep⟩ := Worker.step_of_next hnext
  have heffect := hstep.lockEffect
  change c' = c at hc
  subst c'
  have hscope := h.scope i _ hw
  have hshard := Pool.le_sum Worker.shardLock hw
  have hentry := Pool.le_sum Worker.entryLock hw
  rw [h.shards] at hshard
  rw [h.entries] at hentry
  refine ⟨?_, ?_, fun j v hv => ?_, fun j v hv hneeds => ?_⟩
  · have hsum := Pool.sum_run Worker.shardLock sh' ⟨c, pc'⟩ hw
    rw [h.shards, heffect.shards hshard] at hsum
    exact add_left_cancel hsum
  · have hsum := Pool.sum_run Worker.entryLock sh' ⟨c, pc'⟩ hw
    rw [h.entries, heffect.entries hentry] at hsum
    exact add_left_cancel hsum
  · rcases Pool.getElem?_set_cases hv with ⟨_, rfl⟩ | ⟨_, hold⟩
    · exact heffect.scope hscope
    · exact h.scope j v hold
  · rcases Pool.getElem?_set_cases hv with ⟨_, rfl⟩ | ⟨hij, hold⟩
    · rcases heffect.needs hneeds with hthere | hbefore
      · exact hthere
      · rcases heffect.rooms hscope c.room (h.rooms i _ hw hbefore) with hkept | ⟨_, _, hfree⟩
        · exact hkept
        · exact absurd (hfree.symm.trans hneeds) Bool.false_ne_true
    · -- What another worker relies on is under a lock that the eviction would have to take.
      rcases heffect.rooms hscope v.room (h.rooms j v hold hneeds) with hkept | ⟨hfree, hlock, _⟩
      · exact hkept
      · rcases Worker.lock_of_needsRoom hneeds with hmine | hmine
        · have hle := Pool.le_sum Worker.entryLock hold
          rw [h.entries] at hle
          exact absurd (Multiset.mem_of_le hle hmine) hfree
        · have hother : shardIdx v.room numShards ∈ Worker.shardLock ⟨c, pc⟩ := by
            rw [hlock]
            exact Multiset.mem_singleton_self _
          exact absurd hmine (h.exclusive hij hw hold hother)

end Orderly

/-- Whatever the interleaving, a worker finds the room it has the entry lock of: no client is let into a
room that has been evicted meanwhile. -/
theorem room_of_needsRoom {init : State} {ok : Pool Shared Worker → Int → Turn Completion → Prop}
    {log : List (LogEntry (Turn Completion) Unit)} {p : Pool Shared Worker}
    (hrun : (completionPool cfg init).Run ok log p) (hw : w ∈ p.threads)
    (hneeds : w.pc.needsRoom = true) : ∃ e, p.shared.relay.rooms.lookup w.room = some e := by
  have h : Orderly p := Pool.invariant hrun (.init init) (fun _ c h => h.call c) fun _ _ _ _ _ _ h _ hw hnext => h.step hw hnext
  obtain ⟨i, hi⟩ := List.mem_iff_getElem?.mp hw
  exact GoMap.lookup_of_mem (h.rooms i w hi hneeds)

end Qvole.Relay
