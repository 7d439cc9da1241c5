import Mathlib.Algebra.Order.Group.Nat
import Qvole.Relay.Caps
import Qvole.Relay.Completions

/-!
# Room creation under concurrent completions

The number of rooms and the index of the rooms of a prefix belong to all shards: a worker reads them in one
step and changes the tables in another, and workers of other shards go in between. A worker that has passed
the last check is as good as in its room. The caps hold as long as no worker passes this check when the
rooms there are and the workers behind the check fill them already (`crowds`). The condition asks no more
than it has to: where a turn crowds, the workers can go on to exceed a cap (`exceeds_of_crowds`).
-/

namespace Qvole.Relay

open Lib

variable {cfg : Config} {now : Int} {sh sh' : Shared} {w w' : Worker} {s s₁ s' : State} {c : Completion}

/-! ### What a step does to the rooms -/

namespace Pc

/-- The worker has found no room under the lock of the shard. -/
def creates : Pc → Bool
  | .loadLocked | .evict _ _ | .checkRooms | .checkIP | .insert => true
  | _ => false

/-- The worker has found no client of its prefix under the lock of the entry. -/
def enters : Pc → Bool
  | .checkJoinIP | .join => true
  | _ => false

/-- The last check is passed, and the client is not in the room. -/
def passed : Pc → Bool
  | .insert | .join => true
  | _ => false

end Pc

/-- The steps that matter to the caps; all others are `quiet`. -/
inductive Effect (cfg : Config) (c : Completion) : State → Pc → State → Pc → Prop
  | quiet {s s' : State} {pc pc' : Pc} (hfewer : Fewer s s') (hpassed : pc'.passed = false)
      (hcreates : pc'.creates = true → pc.creates = true ∨ c.room ∉ s.rooms)
      (henters : pc'.enters = true → ∀ e, s'.rooms.lookup c.room = some e →
        ¬ e.holdsIP (ipKey c.src.string) = true) : Effect cfg c s pc s' pc'
  | passIP {s : State} (hip : s.counters.countIPRooms (ipKey c.src.string) < cfg.maxRoomsPerIP) :
      Effect cfg c s .checkIP s .insert
  | insert {s : State} (now : Int) (addr : UDPAddr) :
      Effect cfg c s .insert (s.setRoom c.room (firstEntry now c.src.string addr, s.counters)) .count
  | rejoin {s s₁ : State} {e : RoomEntry} (hfewer : Fewer s s₁) (he : s₁.rooms.lookup c.room = some e)
      (hholds : e.holdsIP (ipKey c.src.string) = true) (now : Int) (addr : UDPAddr) :
      Effect cfg c s .sweep (s₁.setRoom c.room (e.letIn now c.src.string addr, s₁.counters)) .unlockEntry
  | passJoinIP {s : State} (hip : s.counters.countIPRooms (ipKey c.src.string) < cfg.maxRoomsPerIP) :
      Effect cfg c s .checkJoinIP s .join
  | join {s : State} {e : RoomEntry} (he : s.rooms.lookup c.room = some e) (now : Int) (addr : UDPAddr) :
      Effect cfg c s .join (s.setRoom c.room (e.letIn now c.src.string addr, s.counters)) .indexJoin

theorem Effect.move {pc pc' : Pc} (hrooms : s'.rooms = s.rooms) (hstore : s'.pendingRegs = s.pendingRegs)
    (hpassed : pc'.passed = false) (hcreates : pc'.creates = true → pc.creates = true ∨ c.room ∉ s.rooms)
    (henters : pc'.enters = false) : Effect cfg c s pc s' pc' := by
  have hfewer : Fewer s s' := by
    constructor
    · rw [hrooms]
      exact (Fewer.refl s).room
    · rw [hstore]
      exact fun _ => id
  exact .quiet hfewer hpassed hcreates fun h => absurd (henters.symm.trans h) Bool.false_ne_true

theorem Worker.Step.effect {pc pc' : Pc} (h : Step cfg now c sh pc sh' pc') :
    Effect cfg c sh.relay pc sh'.relay pc' := by
  have hnone : ∀ {P : Prop}, false = true → P := fun h => absurd h Bool.false_ne_true
  cases h with
  | sweepAll =>
      exact .quiet (.removals (State.evictStaleRoom_removals _)) rfl hnone hnone
  | evict => exact .quiet (.removals (State.evictStaleRoom_removals _)) rfl (fun _ => Or.inl rfl) hnone
  | missing hroom => exact .move rfl rfl rfl (fun _ => Or.inr (AList.lookup_eq_none.mp hroom)) rfl
  | toEvict | toCheck | evicted | passRooms => exact .move rfl rfl rfl (fun _ => Or.inl rfl) rfl
  | passIP hip => exact .passIP (Nat.not_le.mp hip)
  | insert => exact .insert now _
  | refuseJoin hroom hsweep =>
      subst hsweep
      exact .quiet (.removals (State.sweep_removals hroom)) rfl hnone hnone
  | sweep hroom hsweep hholds =>
      subst hsweep
      refine .quiet (.removals (State.sweep_removals hroom)) rfl hnone fun _ e he => ?_
      rw [State.lookup_setRoom] at he
      cases he
      exact hholds
  | @rejoin _ e hroom hsweep hholds =>
      subst hsweep
      have hrejoin : Effect cfg c _ _ _ _ := .rejoin (.removals (State.sweep_removals hroom))
        (State.lookup_setRoom _ _ _) hholds now c.pend.resolvedAddr
      rwa [State.setRoom_setRoom] at hrejoin
  | passJoinIP hip => exact .passJoinIP (Nat.not_le.mp hip)
  | join hroom => exact .join hroom now _
  | _ => exact .move rfl rfl rfl hnone rfl

/-! ### Places in the tables -/

theorem holdsIP_firstEntry {k ip : Bytes} {addr : UDPAddr} :
    (firstEntry now k addr).holdsIP ip = true ↔ ip = ipKey k := by
  simp [RoomEntry.holdsIP, firstEntry, eq_comm]

theorem holdsIP_letIn {e : RoomEntry} {k ip : Bytes} {addr : UDPAddr} :
    (e.letIn now k addr).holdsIP ip = true ↔ ip = ipKey k ∨ e.holdsIP ip = true :=
  holdsIP_insert e k ip (newClient now addr)

theorem holdsIP_letIn_eq {e : RoomEntry} {k ip : Bytes} (hin : ip = ipKey k → e.holdsIP ip = true) (now : Int)
    (addr : UDPAddr) : (e.letIn now k addr).holdsIP ip = e.holdsIP ip := by
  rw [Bool.eq_iff_iff, holdsIP_letIn]
  exact or_iff_right_of_imp hin

section

variable {room : Bytes} {e : RoomEntry}

theorem State.roomsForIP_create (hnone : room ∉ s.rooms) (e' : RoomEntry) (counters : Counters)
    (ip : Bytes) :
    (s.setRoom room (e', counters)).roomsForIP ip = s.roomsForIP ip + if e'.holdsIP ip then 1 else 0 := by
  rw [Nat.add_comm]
  exact GoMap.total_insert_of_notMem hnone

theorem State.roomsForIP_setRoom (he : s.rooms.lookup room = some e) (e' : RoomEntry)
    (counters : Counters) (ip : Bytes) :
    (s.setRoom room (e', counters)).roomsForIP ip + (if e.holdsIP ip then 1 else 0) =
      s.roomsForIP ip + if e'.holdsIP ip then 1 else 0 := by
  have htotal := GoMap.total_insert_of_lookup (f := fun _ e => if RoomEntry.holdsIP ip e then 1 else 0)
    (v := e') he
  simp only [State.roomsForIP, State.setRoom]
  omega

/-- A room that is written has one place at most. -/
theorem State.roomsForIP_setRoom_le (room : Bytes) (e' : RoomEntry) (counters : Counters) (ip : Bytes)
    (s : State) :
    (s.setRoom room (e', counters)).roomsForIP ip ≤ s.roomsForIP ip + if e'.holdsIP ip then 1 else 0 := by
  cases hroom : s.rooms.lookup room with
  | none => exact (roomsForIP_create (AList.lookup_eq_none.mp hroom) e' counters ip).le
  | some e => exact (Nat.le_add_right _ _).trans (roomsForIP_setRoom hroom e' counters ip).le

end

namespace Worker

/-- The worker is about to put its room into the table. -/
def inserts (w : Worker) : Nat := if w.pc = .insert then 1 else 0

/-- The worker is about to let a client of the prefix into a room that has none of it. -/
def comes (ip : Bytes) (w : Worker) : Nat := if ipKey w.src.string = ip ∧ w.pc.passed then 1 else 0

theorem inserts_eq_zero (h : w.pc.passed = false) : w.inserts = 0 := by
  refine if_neg fun hpc => ?_
  rw [hpc] at h
  cases h

theorem comes_eq_zero {ip : Bytes} (h : w.pc.passed = false) : w.comes ip = 0 :=
  if_neg fun hcomes => absurd (h.symm.trans hcomes.2) Bool.false_ne_true

theorem comes_of_ne {ip : Bytes} (h : ip ≠ ipKey w.src.string) : w.comes ip = 0 :=
  if_neg fun hcomes => h hcomes.1.symm

theorem comes_of_passed {pc : Pc} (h : pc.passed = true) : comes (ipKey c.src.string) ⟨c, pc⟩ = 1 :=
  if_pos ⟨rfl, h⟩

end Worker

namespace Effect

variable {pc pc' : Pc}

/-- The rooms and the workers about to make one become more only where the last check passes. -/
theorem size_rooms_le (h : Effect cfg c s pc s' pc') :
    s'.rooms.size + Worker.inserts ⟨c, pc'⟩ ≤ s.rooms.size + Worker.inserts ⟨c, pc⟩ ∨
      pc = .checkIP ∧ pc' = .insert ∧ s' = s ∧
        s.counters.countIPRooms (ipKey c.src.string) < cfg.maxRoomsPerIP := by
  cases h with
  | quiet hfewer hpassed =>
      rw [Worker.inserts_eq_zero hpassed]
      exact Or.inl (Nat.le_add_right_of_le hfewer.size_rooms)
  | passIP hip => exact Or.inr ⟨rfl, rfl, rfl, hip⟩
  | insert now addr => exact Or.inl (GoMap.size_insert_le c.room (firstEntry now c.src.string addr) s.rooms)
  | @rejoin s₁ e hfewer he _ now addr =>
      have hsize := GoMap.size_insert_of_mem (e.letIn now c.src.string addr) (GoMap.mem_of_lookup he)
      exact Or.inl (hsize.le.trans hfewer.size_rooms)
  | passJoinIP => exact Or.inl (le_refl _)
  | @join e he now addr =>
      have hsize := GoMap.size_insert_of_mem (e.letIn now c.src.string addr) (GoMap.mem_of_lookup he)
      exact Or.inl hsize.le

/-- So do the rooms of a prefix and the workers about to come into one more. -/
theorem roomsForIP_le (h : Effect cfg c s pc s' pc') (ip : Bytes) :
    s'.roomsForIP ip + Worker.comes ip ⟨c, pc'⟩ ≤ s.roomsForIP ip + Worker.comes ip ⟨c, pc⟩ ∨
      (pc = .checkIP ∨ pc = .checkJoinIP) ∧ s' = s ∧ ip = ipKey c.src.string ∧
        s.counters.countIPRooms (ipKey c.src.string) < cfg.maxRoomsPerIP := by
  cases h with
  | quiet hfewer hpassed =>
      rw [Worker.comes_eq_zero hpassed]
      exact Or.inl (Nat.le_add_right_of_le (hfewer.roomsForIP_le ip))
  | passIP hip =>
      by_cases heq : ip = ipKey c.src.string
      · exact Or.inr ⟨Or.inl rfl, rfl, heq, hip⟩
      · rw [Worker.comes_of_ne heq, Worker.comes_of_ne heq]
        exact Or.inl (le_refl _)
  | passJoinIP hip =>
      by_cases heq : ip = ipKey c.src.string
      · exact Or.inr ⟨Or.inr rfl, rfl, heq, hip⟩
      · rw [Worker.comes_of_ne heq, Worker.comes_of_ne heq]
        exact Or.inl (le_refl _)
  | insert now addr =>
      have hle := s.roomsForIP_setRoom_le c.room (firstEntry now c.src.string addr) s.counters ip
      have hbefore : (if (firstEntry now c.src.string addr).holdsIP ip then 1 else 0) =
          Worker.comes ip ⟨c, .insert⟩ := by
        simp only [Worker.comes, holdsIP_firstEntry, Pc.passed, and_true, eq_comm (a := ip)]
      rw [hbefore] at hle
      rw [Worker.comes_eq_zero (w := ⟨c, .count⟩) rfl]
      exact Or.inl hle
  | @rejoin s₁ e hfewer he hholds now addr =>
      have hset := State.roomsForIP_setRoom he (e.letIn now c.src.string addr) s₁.counters ip
      rw [holdsIP_letIn_eq (fun heq => heq ▸ hholds)] at hset
      rw [Nat.add_right_cancel hset, Worker.comes_eq_zero rfl]
      exact Or.inl (Nat.le_add_right_of_le (hfewer.roomsForIP_le ip))
  | @join e he now addr =>
      left
      rw [Worker.comes_eq_zero rfl]
      by_cases heq : ip = ipKey c.src.string
      · subst heq
        have hle := s.roomsForIP_setRoom_le c.room (e.letIn now c.src.string addr) s.counters
          (ipKey c.src.string)
        have hone : Worker.comes (ipKey c.src.string) ⟨c, .join⟩ = 1 := Worker.comes_of_passed rfl
        rwa [if_pos (holdsIP_letIn.mpr (Or.inl rfl)), ← hone] at hle
      · have hset := State.roomsForIP_setRoom he (e.letIn now c.src.string addr) s.counters ip
        rw [holdsIP_letIn_eq (fun h => absurd h heq)] at hset
        rw [Nat.add_right_cancel hset]
        exact Nat.le_add_right _ _

end Effect

/-! ### All interleavings -/

/-- The turn goes to a worker whose last check passes although the rooms there are and those that other
workers have passed the check for are as many as there may be. -/
def crowds (cfg : Config) (p : Pool Shared Worker) : Turn Completion → Bool
  | .run i =>
    match p.threads[i]? with
    | none => false
    | some w =>
      let s := p.shared.relay
      let srcIP := ipKey w.src.string
      match w.pc with
      | .checkIP =>
        s.counters.countIPRooms srcIP < cfg.maxRoomsPerIP ∧
          (cfg.maxRooms ≤ s.rooms.size + p.sum Worker.inserts ∨
            cfg.maxRoomsPerIP ≤ s.roomsForIP srcIP + p.sum (Worker.comes srcIP))
      | .checkJoinIP =>
        s.counters.countIPRooms srcIP < cfg.maxRoomsPerIP ∧
          cfg.maxRoomsPerIP ≤ s.roomsForIP srcIP + p.sum (Worker.comes srcIP)
      | _ => false
  | .call _ => false

/-- The rooms there are and those the workers have passed the check for keep within the caps. -/
structure Roomy (cfg : Config) (p : Pool Shared Worker) : Prop where
  rooms : p.shared.relay.rooms.size + p.sum Worker.inserts ≤ cfg.maxRooms
  ipRooms : ∀ ip, p.shared.relay.roomsForIP ip + p.sum (Worker.comes ip) ≤ cfg.maxRoomsPerIP

namespace Roomy

variable {p : Pool Shared Worker}

theorem init (hcapped : Capped cfg s) : Roomy cfg ⟨⟨s, ∅, ∅⟩, []⟩ :=
  ⟨hcapped.rooms, hcapped.ipRooms⟩

theorem call (h : Roomy cfg p) (c : Completion) :
    Roomy cfg { p with threads := p.threads ++ [c.start] } where
  rooms := by
    rw [Pool.sum_call]
    exact h.rooms
  ipRooms ip := by
    rw [Pool.sum_call, Worker.comes_eq_zero (w := c.start) rfl]
    exact h.ipRooms ip

theorem step {i : Nat} (h : Roomy cfg p) (hok : crowds cfg p (.run i) = false)
    (ht : p.threads[i]? = some w) (hnext : Worker.next cfg p.shared now w = some (sh', w')) :
    Roomy cfg ⟨sh', p.threads.set i w'⟩ := by
  obtain ⟨c, pc⟩ := w
  obtain ⟨c', pc'⟩ := w'
  obtain ⟨hc, hnext⟩ := Worker.step_of_next hnext
  have heffect := hnext.effect
  change c' = c at hc
  subst c'
  refine ⟨?_, fun ip => ?_⟩
  · have hsum := Pool.sum_run Worker.inserts sh' ⟨c, pc'⟩ ht
    have hrooms := h.rooms
    rcases heffect.size_rooms_le with hle | ⟨rfl, hpc', hsame, hpass⟩
    · dsimp only at hle ⊢
      omega
    · simp only [crowds, ht, decide_eq_false_iff_not] at hok
      dsimp only at hsame hpc' ⊢
      subst hpc'
      have hbefore : Worker.inserts ⟨c, .checkIP⟩ = 0 := rfl
      have hafter : Worker.inserts ⟨c, .insert⟩ = 1 := rfl
      have hspace : ¬ cfg.maxRooms ≤ p.shared.relay.rooms.size + p.sum Worker.inserts :=
        fun hfull => hok ⟨hpass, Or.inl hfull⟩
      rw [hsame]
      omega
  · have hsum := Pool.sum_run (Worker.comes ip) sh' ⟨c, pc'⟩ ht
    have hrooms := h.ipRooms ip
    rcases heffect.roomsForIP_le ip with hle | ⟨hpc, hsame, rfl, hpass⟩
    · dsimp only at hle ⊢
      omega
    · have hspace : ¬ cfg.maxRoomsPerIP ≤ p.shared.relay.roomsForIP (ipKey c.src.string) +
          p.sum (Worker.comes (ipKey c.src.string)) := by
        intro hfull
        rcases hpc with rfl | rfl
        · simp only [crowds, ht, decide_eq_false_iff_not] at hok
          exact hok ⟨hpass, Or.inr hfull⟩
        · simp only [crowds, ht, decide_eq_false_iff_not] at hok
          exact hok ⟨hpass, hfull⟩
      have hone : Worker.comes (ipKey c.src.string) ⟨c, pc'⟩ ≤ 1 := by
        rw [Worker.comes]
        split <;> omega
      dsimp only at hsame ⊢
      rw [hsame]
      omega

end Roomy

/-- Completions of any rooms and sources, in any number and interleaved in any way the locks allow, from
a state within the caps: if no last check passes when the places are all taken, the caps hold at every
moment. -/
theorem room_caps_of_no_crowding (cfg : Config) {init : State} (hcapped : Capped cfg init)
    {log : List (LogEntry (Turn Completion) Unit)} {p : Pool Shared Worker}
    (hrun : (completionPool cfg init).Run (fun p _ e => crowds cfg p e = false) log p) :
    p.shared.relay.rooms.size ≤ cfg.maxRooms ∧
      ∀ ip, p.shared.relay.roomsForIP ip ≤ cfg.maxRoomsPerIP := by
  have h : Roomy cfg p := Pool.invariant hrun (.init hcapped) (fun _ c h => h.call c)
    fun _ _ _ _ _ _ h hok ht hnext => h.step hok ht hnext
  exact ⟨le_of_add_le_left h.rooms, fun ip => le_of_add_le_left (h.ipRooms ip)⟩

/-- One host completes its registration for the `n`-th of the rooms `a`, `b`, `c` and so on. -/
def lettered (n : Nat) : Completion :=
  ⟨[UInt8.ofNat (97 + n)], ⟨[127, 0, 0, 1], 1, []⟩, ⟨cookieOf 1, 0, ⟨[127, 0, 0, 1], 1, []⟩⟩⟩

/-- The completions of the first `n` rooms, each with all its steps before the next is called. -/
def oneByOne (n steps : Nat) : List (Int × Turn Completion) :=
  (List.range n).flatMap fun i => (0, .call (lettered i)) :: List.replicate steps (0, .run i)

/-- The next two, step by step at the same time. -/
def sideBySide (n : Nat) : List (Int × Turn Completion) :=
  [(0, .call (lettered n)), (0, .call (lettered (n + 1)))] ++
    (List.replicate 10 [(0, .run n), (0, .run (n + 1))]).flatten

/-- There is one room to have, and the second host finds it taken. -/
theorem room_caps_one_by_one : ∃ log p, (completionPool { maxRooms := 1 } .empty).Run
      (fun p _ e => crowds { maxRooms := 1 } p e = false) log p ∧
    p.threads.map (fun w => w.pc) = [.done, .done] ∧ p.shared.relay.rooms.size = 1 ∧
    p.shared.relay.rooms.size ≤ 1 ∧ ∀ ip, p.shared.relay.roomsForIP ip ≤ 10 := by
  obtain ⟨log, hrun⟩ := Machine.Run.init.exec
    (show (completionPool { maxRooms := 1 } .empty).Admissible
      (fun p _ e => crowds { maxRooms := 1 } p e = false) none ⟨⟨.empty, ∅, ∅⟩, []⟩ (oneByOne 2 40) by
      decide +kernel)
  obtain ⟨hrooms, hips⟩ := room_caps_of_no_crowding { maxRooms := 1 } Capped.empty hrun
  exact ⟨log, _, hrun, by decide +kernel, by decide +kernel, hrooms, hips⟩

/-- Two rooms where there is one to have, and eleven rooms of a prefix that may have ten. -/
theorem room_caps_exceeded :
    (∃ log p, (completionPool { maxRooms := 1 } .empty).Run (fun _ _ _ => True) log p ∧
      1 < p.shared.relay.rooms.size) ∧
    ∃ log p, (completionPool .default .empty).Run (fun _ _ _ => True) log p ∧
      Config.default.maxRoomsPerIP < p.shared.relay.roomsForIP (ascii "127.0.0.1") := by
  obtain ⟨log, hrun⟩ := Machine.Run.init.exec
    (show (completionPool { maxRooms := 1 } .empty).Admissible (fun _ _ _ => True) none
      ⟨⟨.empty, ∅, ∅⟩, []⟩ (sideBySide 0) by decide +kernel)
  obtain ⟨log', hrun'⟩ := Machine.Run.init.exec
    (show (completionPool .default .empty).Admissible (fun _ _ _ => True) none
      ⟨⟨.empty, ∅, ∅⟩, []⟩ (oneByOne 9 10 ++ sideBySide 9) by decide +kernel)
  exact ⟨⟨log, _, hrun, by decide +kernel⟩, log', _, hrun', by decide +kernel⟩

/-! ### Where a turn crowds -/

/-- A room with a client of the prefix, after one was let in: it is the new client, or the room had one
before. -/
theorem held_of_letIn {room ip R srcStr : Bytes} {e e' : RoomEntry} {addr : UDPAddr}
    {counters : Counters} (he : s.rooms.lookup room = some e)
    (he' : (s.setRoom room (e.letIn now srcStr addr, counters)).rooms.lookup R = some e')
    (hholds : e'.holdsIP ip = true) :
    R = room ∧ ip = ipKey srcStr ∨ ∃ e₀, s.rooms.lookup R = some e₀ ∧ e₀.holdsIP ip = true := by
  rw [State.setRoom, GoMap.lookup_insert_if] at he'
  split at he'
  · rename_i hR
    cases he'
    rcases holdsIP_letIn.mp hholds with hip | hold
    · exact Or.inl ⟨hR, hip⟩
    · exact Or.inr ⟨e, hR ▸ he, hold⟩
  · exact Or.inr ⟨e', he', hholds⟩

namespace Effect

variable {pc pc' : Pc} {R : Bytes}

theorem mem_rooms (h : Effect cfg c s pc s' pc') (hR : R ∈ s'.rooms) :
    R ∈ s.rooms ∨ R = c.room ∧ pc = .insert := by
  cases h with
  | quiet hfewer => exact Or.inl (hfewer.mem_rooms hR)
  | passIP => exact Or.inl hR
  | passJoinIP => exact Or.inl hR
  | insert =>
      rcases GoMap.mem_insert_if.mp hR with heq | hold
      · exact Or.inr ⟨heq, rfl⟩
      · exact Or.inl hold
  | rejoin hfewer he =>
      rcases GoMap.mem_insert_if.mp hR with rfl | hold
      · exact Or.inl (hfewer.mem_rooms (GoMap.mem_of_lookup he))
      · exact Or.inl (hfewer.mem_rooms hold)
  | join he =>
      rcases GoMap.mem_insert_if.mp hR with rfl | hold
      · exact Or.inl (GoMap.mem_of_lookup he)
      · exact Or.inl hold

theorem held (h : Effect cfg c s pc s' pc') {ip : Bytes} {e' : RoomEntry}
    (he' : s'.rooms.lookup R = some e') (hholds : e'.holdsIP ip = true) :
    (∃ e, s.rooms.lookup R = some e ∧ e.holdsIP ip = true) ∨ R = c.room ∧ (pc = .insert ∨ pc = .join) := by
  cases h with
  | quiet hfewer => exact Or.inl (hfewer.held he' hholds)
  | passIP => exact Or.inl ⟨e', he', hholds⟩
  | passJoinIP => exact Or.inl ⟨e', he', hholds⟩
  | insert =>
      rw [State.setRoom, GoMap.lookup_insert_if] at he'
      split at he'
      · exact Or.inr ⟨‹_›, Or.inl rfl⟩
      · exact Or.inl ⟨e', he', hholds⟩
  | rejoin hfewer he hin =>
      rcases held_of_letIn he he' hholds with ⟨rfl, rfl⟩ | ⟨e₁, he₁, hholds₁⟩
      · exact Or.inl (hfewer.held he hin)
      · exact Or.inl (hfewer.held he₁ hholds₁)
  | join he =>
      rcases held_of_letIn he he' hholds with ⟨hR, _⟩ | hold
      · exact Or.inr ⟨hR, Or.inr rfl⟩
      · exact Or.inl hold

theorem notMem_of_creates (h : Effect cfg c s pc s' pc') (hpc' : pc'.creates = true)
    (hbefore : pc.creates = true → c.room ∉ s.rooms) : c.room ∉ s'.rooms := by
  cases h with
  | quiet hfewer _ hcreates =>
      intro hR
      rcases hcreates hpc' with hpc | hnone
      · exact hbefore hpc (hfewer.mem_rooms hR)
      · exact hnone (hfewer.mem_rooms hR)
  | passIP => exact hbefore rfl
  | insert => cases hpc'
  | rejoin => cases hpc'
  | passJoinIP => cases hpc'
  | join => cases hpc'

theorem not_holdsIP_of_enters (h : Effect cfg c s pc s' pc') (hpc' : pc'.enters = true)
    (hbefore : pc.enters = true → ∀ e, s.rooms.lookup c.room = some e →
      ¬ e.holdsIP (ipKey c.src.string) = true) :
    ∀ e, s'.rooms.lookup c.room = some e → ¬ e.holdsIP (ipKey c.src.string) = true := by
  cases h with
  | quiet _ _ _ henters => exact henters hpc'
  | passJoinIP => exact hbefore rfl
  | passIP => cases hpc'
  | insert => cases hpc'
  | rejoin => cases hpc'
  | join => cases hpc'

end Effect

namespace Worker

theorem shardLock_of_creates (h : w.pc.creates = true) : shardIdx w.room numShards ∈ w.shardLock := by
  obtain ⟨c, pc⟩ := w
  cases pc with
  | loadLocked | evict | checkRooms | checkIP | insert => exact Multiset.mem_singleton_self _
  | _ => cases h

theorem entryLock_of_enters (h : w.pc.enters = true) : w.room ∈ w.entryLock := by
  obtain ⟨c, pc⟩ := w
  cases pc with
  | checkJoinIP | join => exact Multiset.mem_singleton_self _
  | _ => cases h

theorem needsRoom_of_enters (h : w.pc.enters = true) : w.pc.needsRoom = true := by
  obtain ⟨c, pc⟩ := w
  cases pc with
  | checkJoinIP | join => rfl
  | _ => cases h

end Worker

/-- What a worker has found under its lock stays so until it acts on it. -/
structure Found (p : Pool Shared Worker) : Prop extends Orderly p where
  absent : ∀ (i : Nat) (w : Worker), p.threads[i]? = some w → w.pc.creates = true →
    w.room ∉ p.shared.relay.rooms
  stranger : ∀ (i : Nat) (w : Worker), p.threads[i]? = some w → w.pc.enters = true →
    ∀ e, p.shared.relay.rooms.lookup w.room = some e → ¬ e.holdsIP (ipKey w.src.string) = true

namespace Found

variable {p : Pool Shared Worker} {i : Nat}

theorem init (s : State) : Found ⟨⟨s, ∅, ∅⟩, []⟩ :=
  ⟨.init s, fun _ _ hw => (by cases hw), fun _ _ hw => by cases hw⟩

theorem call (h : Found p) (c : Completion) : Found { p with threads := p.threads ++ [c.start] } := by
  refine ⟨h.toOrderly.call c, fun i w hw hcreates => ?_, fun i w hw henters => ?_⟩
  · rcases Pool.getElem?_call_cases hw with hold | rfl
    · exact h.absent i w hold hcreates
    · cases hcreates
  · rcases Pool.getElem?_call_cases hw with hold | rfl
    · exact h.stranger i w hold henters
    · cases henters

theorem step (h : Found p) (hw : p.threads[i]? = some w)
    (hnext : Worker.next cfg p.shared now w = some (sh', w')) : Found ⟨sh', p.threads.set i w'⟩ := by
  have horderly := h.toOrderly.step hw hnext
  obtain ⟨c, pc⟩ := w
  obtain ⟨c', pc'⟩ := w'
  obtain ⟨hc, hstep⟩ := Worker.step_of_next hnext
  have heffect := hstep.effect
  change c' = c at hc
  subst c'
  refine ⟨horderly, fun j v hv hcreates => ?_, fun j v hv henters e he hholds => ?_⟩
  · rcases Pool.getElem?_set_cases hv with ⟨_, rfl⟩ | ⟨hij, hold⟩
    · exact heffect.notMem_of_creates hcreates (h.absent i _ hw)
    · intro hR
      rcases heffect.mem_rooms hR with hbefore | ⟨hroom, rfl⟩
      · exact h.absent j v hold hcreates hbefore
      · -- Only one worker at a time is about to make the room.
        refine h.exclusive hij hw hold (k := shardIdx v.room numShards) ?_
          (Worker.shardLock_of_creates hcreates)
        rw [hroom]
        exact Multiset.mem_singleton_self _
  · rcases Pool.getElem?_set_cases hv with ⟨_, rfl⟩ | ⟨hij, hold⟩
    · exact heffect.not_holdsIP_of_enters henters (h.stranger i _ hw) e he hholds
    · rcases heffect.held he hholds with ⟨e₀, he₀, hholds₀⟩ | ⟨hroom, rfl | rfl⟩
      · exact h.stranger j v hold henters e₀ he₀ hholds₀
      · have hthere := h.rooms j v hold (Worker.needsRoom_of_enters henters)
        rw [hroom] at hthere
        exact h.absent i _ hw rfl hthere
      · refine h.exclusive_entry hij hw hold (R := v.room) ?_ (Worker.entryLock_of_enters henters)
        rw [hroom]
        exact Multiset.mem_singleton_self _

theorem of_run {init : State} {ok : Pool Shared Worker → Int → Turn Completion → Prop}
    {log : List (LogEntry (Turn Completion) Unit)} (hrun : (completionPool cfg init).Run ok log p) :
    Found p :=
  Pool.invariant hrun (.init init) (fun _ c h => h.call c) fun _ _ _ _ _ _ h _ hw hnext => h.step hw hnext

/-- A worker about to make its room makes one more. -/
theorem size_rooms (h : Found p) (hw : p.threads[i]? = some w) (hinserts : w.inserts ≠ 0) :
    ∃ sh' w', Worker.next cfg p.shared now w = some (sh', w') ∧ w'.inserts = 0 ∧
      sh'.relay.rooms.size = p.shared.relay.rooms.size + w.inserts := by
  obtain ⟨c, pc⟩ := w
  obtain rfl : pc = .insert := by
    by_contra hpc
    exact hinserts (if_neg hpc)
  exact ⟨_, _, rfl, rfl, GoMap.size_insert_of_notMem _ (h.absent i _ hw rfl)⟩

/-- A worker about to bring its prefix into a room brings it into one more. -/
theorem roomsForIP {ip : Bytes} (h : Found p) (hw : p.threads[i]? = some w) (hcomes : w.comes ip ≠ 0) :
    ∃ sh' w', Worker.next cfg p.shared now w = some (sh', w') ∧ w'.comes ip = 0 ∧
      sh'.relay.roomsForIP ip = p.shared.relay.roomsForIP ip + w.comes ip := by
  obtain ⟨c, pc⟩ := w
  obtain ⟨hip, hpassed⟩ : ipKey c.src.string = ip ∧ pc.passed = true := by
    by_contra hnot
    exact hcomes (if_neg hnot)
  subst hip
  rw [Worker.comes_of_passed hpassed]
  cases pc with
  | insert =>
      refine ⟨_, _, rfl, Worker.comes_eq_zero rfl, ?_⟩
      have hcreate := State.roomsForIP_create (h.absent i _ hw rfl)
        (firstEntry now c.src.string c.pend.resolvedAddr) p.shared.relay.counters (ipKey c.src.string)
      rwa [if_pos (holdsIP_firstEntry.mpr rfl)] at hcreate
  | join =>
      obtain ⟨e, he⟩ := GoMap.lookup_of_mem (h.rooms i _ hw rfl)
      have hstranger := h.stranger i _ hw rfl e he
      have hset := State.roomsForIP_setRoom he (e.letIn now c.src.string c.pend.resolvedAddr)
        p.shared.relay.counters (ipKey c.src.string)
      rw [if_neg hstranger, if_pos (holdsIP_letIn.mpr (Or.inl rfl)), Nat.add_zero] at hset
      have hnext : Worker.next cfg p.shared now ⟨c, .join⟩ = some ({ p.shared with
          relay := p.shared.relay.setRoom c.room
            (e.letIn now c.src.string c.pend.resolvedAddr, p.shared.relay.counters) },
          ⟨c, .indexJoin⟩) := by
        simp only [Worker.next, he]
      exact ⟨_, _, hnext, Worker.comes_eq_zero rfl, hset⟩
  | _ => cases hpassed

end Found

section

variable {init : State} {log : List (LogEntry (Turn Completion) Unit)} {p : Pool Shared Worker} {i : Nat}
  (hrun : (completionPool cfg init).Run (fun _ _ _ => True) log p)
  (hclock : ∀ x ∈ log.head?, x.time ≤ now)

include hrun hclock

/-- One more worker passes a check when the places are all taken, with those the others have passed it for:
all of them can go on. -/
theorem can_exceed_of_pass {f : Worker → Nat} {g : Shared → Nat} {cap : Nat}
    (hput : ∀ (p : Pool Shared Worker) (i : Nat) (w : Worker), Found p → p.threads[i]? = some w → f w ≠ 0 →
      ∃ sh' w', Worker.next cfg p.shared now w = some (sh', w') ∧ f w' = 0 ∧ g sh' = g p.shared + f w)
    (hw : p.threads[i]? = some w) (hnext : Worker.next cfg p.shared now w = some (p.shared, w'))
    (hpass : f w < f w') (hfull : cap ≤ g p.shared + p.sum f) :
    (completionPool cfg init).Can (fun _ _ _ => True) log now fun p' => cap < g p'.shared := by
  refine (Pool.can_run hrun hclock trivial hw hnext).bind fun _ p' hrun' hclock' hp' => ?_
  have hall := Pool.can_collect (I := Found) (fun _ _ _ _ _ h hw hnext => h.step hw hnext) hput hrun'
    hclock' (.of_run hrun')
  refine hall.mono fun _ hg => ?_
  have hsum := Pool.sum_run f p.shared w' hw
  subst hp'
  dsimp only at hg
  omega

/-- From a turn that crowds on, the workers can go over a cap, without any further completion. -/
theorem exceeds_of_crowds (hcrowds : crowds cfg p (.run i) = true) :
    (completionPool cfg init).Can (fun _ _ _ => True) log now fun p' =>
      cfg.maxRooms < p'.shared.relay.rooms.size ∨
        ∃ ip, cfg.maxRoomsPerIP < p'.shared.relay.roomsForIP ip := by
  simp only [crowds] at hcrowds
  cases hw : p.threads[i]? with
  | none =>
      rw [hw] at hcrowds
      cases hcrowds
  | some w =>
      rw [hw] at hcrowds
      obtain ⟨c, pc⟩ := w
      have hcome : ∀ {pc'}, Worker.next cfg p.shared now ⟨c, pc⟩ = some (p.shared, ⟨c, pc'⟩) →
          pc.passed = false → pc'.passed = true →
          cfg.maxRoomsPerIP ≤ p.shared.relay.roomsForIP (ipKey c.src.string) +
            p.sum (Worker.comes (ipKey c.src.string)) →
          (completionPool cfg init).Can (fun _ _ _ => True) log now fun p' =>
            cfg.maxRoomsPerIP < p'.shared.relay.roomsForIP (ipKey c.src.string) := by
        intro pc' hnext hbefore hafter hfull
        refine can_exceed_of_pass hrun hclock (g := fun sh => sh.relay.roomsForIP (ipKey c.src.string))
          (fun _ _ _ h hw => h.roomsForIP hw) hw hnext ?_ hfull
        rw [Worker.comes_eq_zero hbefore, Worker.comes_of_passed hafter]
        exact Nat.one_pos
      cases pc with
      | checkIP =>
          obtain ⟨hpass, hfull⟩ := of_decide_eq_true hcrowds
          have hnext : Worker.next cfg p.shared now ⟨c, .checkIP⟩ = some (p.shared, ⟨c, .insert⟩) :=
            if_neg (Nat.not_le.mpr hpass)
          rcases hfull with hrooms | hip
          · have hmake := can_exceed_of_pass hrun hclock (g := fun sh => sh.relay.rooms.size)
              (fun _ _ _ h hw => h.size_rooms hw) hw hnext Nat.one_pos hrooms
            exact hmake.mono fun _ => Or.inl
          · exact (hcome hnext rfl rfl hip).mono fun _ h => Or.inr ⟨_, h⟩
      | checkJoinIP =>
          obtain ⟨hpass, hip⟩ := of_decide_eq_true hcrowds
          have hnext : Worker.next cfg p.shared now ⟨c, .checkJoinIP⟩ = some (p.shared, ⟨c, .join⟩) :=
            if_neg (Nat.not_le.mpr hpass)
          exact (hcome hnext rfl rfl hip).mono fun _ h => Or.inr ⟨_, h⟩
      | _ => cases hcrowds

end

end Qvole.Relay
