import Mathlib.Logic.Relation
import Qvole.Relay.Outcome

/-!
# Removals and additions

`RegOutcome` follows the tables and leaves the counters open. Here a step is taken apart into the
smallest changes the code makes, each with what it does to the counters: any number of removals, and
then at most one addition, together with the checks that stand before it. What the counters say about
the tables, and the caps that are checked on the counters, then only have to survive one change at a
time.

A removal needs no check. A room that is put back as it was counts as one, and so does a change of the
rate-limit maps.
-/

namespace Qvole.Relay

open Lib

/-- Some client of the prefix is in the room. -/
def RoomEntry.holdsIP (ip : Bytes) (e : RoomEntry) : Bool :=
  e.udpClients.keys.any fun addr => ipKey addr = ip

theorem RoomEntry.holdsIP_iff {ip : Bytes} {e : RoomEntry} :
    e.holdsIP ip = true ↔ ∃ k ∈ e.udpClients, ipKey k = ip := by
  simp [holdsIP, AList.mem_keys]

inductive Removal (now : Int) : State → State → Prop
  | touch {s : State} {room : Bytes} {e : RoomEntry} (hroom : s.rooms.lookup room = some e)
      (next : Option Int) :
      Removal now s (s.setRoom room ({ e with nextPendingSweep := next }, s.counters))
  | client {s : State} {room k : Bytes} {e : RoomEntry} (hroom : s.rooms.lookup room = some e)
      (hk : k ∈ e.udpClients) :
      Removal now s (s.setRoom room ({ e with udpClients := e.udpClients.erase k },
        if e.otherClientOf (ipKey k) k then s.counters else s.counters.removeIPRoom (ipKey k) room))
  | pending {s : State} {room : Bytes} {e : RoomEntry} (hroom : s.rooms.lookup room = some e)
      (k : Bytes) : Removal now s (s.setRoom room (RoomEntry.removePending (e, s.counters) k))
  | room {s : State} {room : Bytes} {e : RoomEntry} (hroom : s.rooms.lookup room = some e)
      (hempty : e.udpClients.size = 0) :
      Removal now s { s with
        rooms := s.rooms.erase room
        counters := (RoomEntry.removeAllPending (e, s.counters)).2.addRooms (-1) }
  | store (s : State) (room srcStr : Bytes) : Removal now s (s.deletePendingReg room srcStr)
  | shard (s : State) (n : Nat) : Removal now s (State.removeStaleShard now s n)
  | rates (s : State) (sent : GoMap Bytes Nat) (times : GoMap Bytes Int) :
      Removal now s { s with regSent := sent, regTimes := times }

abbrev Removals (now : Int) : State → State → Prop := Relation.ReflTransGen (Removal now)

variable (cfg : Config) (now : Int) (rnd : Option Cookie)

/-- The checks on the way of a new pending registration into the store. -/
@[mk_iff]
structure Storable (room cookie : Bytes) (src : UDPAddr) (s : State) : Prop where
  cookie : cookie = [] ∨ (hexDecode cookie).any (fun b => b.length = pendingCookieBytes) = true
  none : room ∉ s.rooms
  ipRooms : s.counters.countIPRooms (ipKey src.string) < cfg.maxRoomsPerIP
  ip : s.counters.countPendingForIP (ipKey src.string) < cfg.maxPendingPerIP
  rnd : rnd.isSome = true
  new : (room, src.string) ∉ s.pendingRegs
  budget : s.counters.globalPendingBudgetReached cfg = false

/-- Those on its way into the room, which has been swept. -/
@[mk_iff]
structure Pendable (cookie : Bytes) (src : UDPAddr) (p : RoomEntry × Counters) : Prop where
  cookie : cookie = []
  hard : p.1.udpClients.size < cfg.maxClientsHard
  client : src.string ∉ p.1.udpClients
  clients : p.1.countPrefixClients (ipKey src.string) < cfg.maxClientsPerPrefixPerRoom
  new : src.string ∉ p.1.pending
  ip : p.2.countPendingForIP (ipKey src.string) + p.1.pendingCountForIP (ipKey src.string) <
    cfg.maxPendingPerIP
  rnd : rnd.isSome = true
  space : p.1.pending.size < cfg.maxPendingPerRoom
  budget : p.2.inRoomPendingBudgetReached cfg = false

instance (room cookie : Bytes) (src : UDPAddr) (s : State) :
    Decidable (Storable cfg rnd room cookie src s) :=
  decidable_of_iff _ (storable_iff cfg rnd room cookie src s).symm

instance (cookie : Bytes) (src : UDPAddr) (p : RoomEntry × Counters) :
    Decidable (Pendable cfg rnd cookie src p) :=
  decidable_of_iff _ (pendable_iff cfg rnd cookie src p).symm

/-- What a `REG` of the source for the room adds to the state `s₁` its removals have led to. A pending
registration is added to a state that differs from `s` by the sweep of the room only. -/
inductive Addition (s : State) (room cookie : Bytes) (src : UDPAddr) (s₁ : State) : State → Prop
  | create (addr : UDPAddr) (hnone : s₁.rooms.lookup room = none)
      (hrooms : s₁.totalRooms < cfg.maxRooms)
      (hip : s₁.counters.countIPRooms (ipKey src.string) < cfg.maxRoomsPerIP) :
      Addition s room cookie src s₁ (s₁.setRoom room (firstEntry now src.string addr,
        (s₁.counters.addRooms 1).addIPRoom (ipKey src.string) room))
  | letIn {e : RoomEntry} (addr : UDPAddr) (he : s₁.rooms.lookup room = some e)
      (hhard : src.string ∈ e.udpClients ∨ e.udpClients.size < cfg.maxClientsHard)
      (hip : e.holdsIP (ipKey src.string) = true ∨
        s₁.counters.countIPRooms (ipKey src.string) < cfg.maxRoomsPerIP) :
      Addition s room cookie src s₁ (s₁.setRoom room (e.letIn now src.string addr,
        if e.holdsIP (ipKey src.string) then s₁.counters
        else s₁.counters.addIPRoom (ipKey src.string) room))
  | update {e : RoomEntry} {u : UdpClient} (u' : UdpClient) (he : s₁.rooms.lookup room = some e)
      (hu : e.udpClients.lookup src.string = some u) :
      Addition s room cookie src s₁ (s₁.setRoom room
        ({ e with udpClients := e.udpClients.insert src.string u' }, s₁.counters))
  | store (p : PendingReg) (hrooms : s₁.rooms = s.rooms) (hstore : s₁.pendingRegs = s.pendingRegs)
      (hcounters : s₁.counters = s.counters) (hchecks : Storable cfg rnd room cookie src s) :
      Addition s room cookie src s₁ { s₁ with
        pendingRegs := s₁.pendingRegs.insert (room, src.string) p
        counters := s₁.counters.addPendingIP (ipKey src.string) 1 }
  | restore (p : PendingReg) (hold : (room, src.string) ∈ s₁.pendingRegs) :
      Addition s room cookie src s₁ { s₁ with pendingRegs := s₁.pendingRegs.insert (room, src.string) p }
  | pend (p : PendingReg) {entry e : RoomEntry} {c : Counters}
      (hentry : s.rooms.lookup room = some entry)
      (hsweep : RoomEntry.sweep cfg room now (entry, s.counters) = (e, c))
      (hrooms : s₁.rooms = s.rooms.insert room e) (hstore : s₁.pendingRegs = s.pendingRegs)
      (hcounters : s₁.counters = c) (hchecks : Pendable cfg rnd cookie src (e, c)) :
      Addition s room cookie src s₁ (s₁.setRoom room
        ({ e with
            pending := e.pending.insert src.string p
            pendingByIP := e.pendingByIP.insert (ipKey src.string)
              (e.pendingCountForIP (ipKey src.string) + 1) },
          c.adjustInRoomPending 1))
  | repend {e : RoomEntry} (p : PendingReg) (he : s₁.rooms.lookup room = some e)
      (hold : src.string ∈ e.pending) :
      Addition s room cookie src s₁ (s₁.setRoom room
        ({ e with pending := e.pending.insert src.string p }, s₁.counters))

/-- Removals, and then at most one addition. -/
def Moves (s : State) (room cookie : Bytes) (src : UDPAddr) (s' : State) : Prop :=
  ∃ s₁, Removals now s s₁ ∧ (s' = s₁ ∨ Addition cfg now rnd s room cookie src s₁ s')

variable {cfg now rnd} {room cookie : Bytes} {src : UDPAddr} {s s₀ s' : State}

/-! ### Sweeping -/

namespace RoomEntry

variable {p : RoomEntry × Counters}

theorem removeStaleClient_removals (k : Bytes) :
    Removals now (s.setRoom room p) (s.setRoom room (removeStaleClient cfg room now p k)) := by
  unfold removeStaleClient
  cases hlook : p.1.udpClients.lookup k with
  | none => exact .refl
  | some info =>
      by_cases hstale : cfg.regTTL < now - info.lastSeen
      · simp only [if_pos hstale]
        have hremoval : Removal now _ _ := Removal.client (State.lookup_setRoom s room p)
          (GoMap.mem_of_lookup hlook)
        rw [State.setRoom_setRoom] at hremoval
        exact .single hremoval
      · simp only [if_neg hstale]
        exact .refl

theorem removeStaleClients_removals :
    Removals now (s.setRoom room p) (s.setRoom room (removeStaleClients cfg room now p)) :=
  List.foldlRecOn p.1.udpClients.keys (removeStaleClient cfg room now)
    (motive := fun p' => Removals now (s.setRoom room p) (s.setRoom room p')) .refl
    fun _ h k _ => h.trans (removeStaleClient_removals k)

theorem removePending_removals (k : Bytes) :
    Removals now (s.setRoom room p) (s.setRoom room (removePending p k)) := by
  have hremoval : Removal now _ _ := Removal.pending (State.lookup_setRoom s room p) k
  rw [State.setRoom_setRoom] at hremoval
  exact .single hremoval

theorem removePending_clients (p : RoomEntry × Counters) (k : Bytes) :
    (removePending p k).1.udpClients = p.1.udpClients ∧
      (removePending p k).2.ipCounts = p.2.ipCounts := by
  unfold removePending
  split
  · exact ⟨rfl, rfl⟩
  · exact ⟨rfl, rfl⟩

theorem removeExpiredPending_removals (k : Bytes) :
    Removals now (s.setRoom room p) (s.setRoom room (removeExpiredPending now p k)) := by
  unfold removeExpiredPending
  split
  · exact .refl
  split
  · exact removePending_removals k
  · exact .refl

theorem removeStalePending_removals :
    Removals now (s.setRoom room p) (s.setRoom room (removeStalePending now p)) := by
  have hfold : Removals now (s.setRoom room p)
      (s.setRoom room (p.1.pending.keys.foldl (removeExpiredPending now) p)) :=
    List.foldlRecOn p.1.pending.keys (removeExpiredPending now)
      (motive := fun p' => Removals now (s.setRoom room p) (s.setRoom room p')) .refl
      fun _ h k _ => h.trans (removeExpiredPending_removals k)
  have htouch : Removal now _ _ := Removal.touch (State.lookup_setRoom s room
    (p.1.pending.keys.foldl (removeExpiredPending now) p)) (some (now + pendingRegTTL))
  rw [State.setRoom_setRoom] at htouch
  exact hfold.tail htouch

theorem sweep_removals : Removals now (s.setRoom room p) (s.setRoom room (sweep cfg room now p)) := by
  unfold sweep
  dsimp only
  split
  · exact removeStaleClients_removals.trans removeStalePending_removals
  · exact removeStaleClients_removals

end RoomEntry

namespace State

theorem setRoom_removals {e : RoomEntry} (hroom : s.rooms.lookup room = some e) :
    Removals now s (s.setRoom room (e, s.counters)) :=
  .single (.touch hroom e.nextPendingSweep)

theorem sweep_removals {e : RoomEntry} (hroom : s.rooms.lookup room = some e) :
    Removals now s (s.setRoom room (RoomEntry.sweep cfg room now (e, s.counters))) :=
  (setRoom_removals hroom).trans RoomEntry.sweep_removals

theorem evictStaleRoom_removals (room : Bytes) : Removals now s (s.evictStaleRoom cfg now room) := by
  unfold evictStaleRoom
  cases hroom : s.rooms.lookup room with
  | none => exact .refl
  | some entry =>
      dsimp only
      generalize hswept : RoomEntry.removeStalePending now
        (RoomEntry.removeStaleClients cfg room now (entry, s.counters)) = p
      have hremovals : Removals now s (s.setRoom room p) := by
        rw [← hswept]
        exact (setRoom_removals hroom).trans
          (RoomEntry.removeStaleClients_removals.trans RoomEntry.removeStalePending_removals)
      split
      · rename_i hgone
        have hremoval : Removal now _ _ := Removal.room (lookup_setRoom s room p) hgone.1
        simp only [setRoom, GoMap.erase_insert] at hremoval
        exact hremovals.tail hremoval
      · exact hremovals

theorem evictStaleRooms_removals (shard : Nat) : Removals now s (s.evictStaleRooms cfg now shard) :=
  List.foldlRecOn _ (evictStaleRoom cfg now) (motive := fun s' => Removals now s s') .refl
    fun _ h room _ => h.trans (evictStaleRoom_removals room)

theorem evictStaleRoomsAll_removals : Removals now s (s.evictStaleRoomsAll cfg now) :=
  List.foldlRecOn _ (fun s shard => evictStaleRooms cfg now shard s)
    (motive := fun s' => Removals now s s') .refl
    fun _ h shard _ => h.trans (evictStaleRooms_removals shard)

theorem cleanupRooms_removals : Removals now s (s.cleanupRooms cfg now) :=
  evictStaleRoomsAll_removals.trans
    (List.foldlRecOn _ (removeStaleShard now)
      (motive := fun s' => Removals now (s.evictStaleRoomsAll cfg now) s') .refl
      fun s' h shard _ => h.tail (.shard s' shard))

end State

/-! ### The handlers -/

theorem Moves.of_removals (h : Removals now s s') : Moves cfg now rnd s room cookie src s' :=
  ⟨s', h, Or.inl rfl⟩

theorem challengeNewRoom_moves
    (hcookie : cookie = [] ∨ (hexDecode cookie).any (fun b => b.length = pendingCookieBytes) = true)
    (hnone : s.rooms.lookup room = none) :
    Moves cfg now rnd s room cookie src (challengeNewRoom cfg now rnd room src s).1 := by
  simp only [challengeNewRoom]
  split
  · exact .of_removals .refl
  rename_i hrooms
  split
  · exact .of_removals .refl
  rename_i hip
  cases rnd with
  | none => exact .of_removals .refl
  | some cb =>
      dsimp only [State.storePendingReg]
      split_ifs with hold hfull
      · exact ⟨s, .refl, Or.inr (.restore _ hold)⟩
      · exact .of_removals .refl
      · have hchecks : Storable cfg (some cb) room cookie src s :=
          ⟨hcookie, AList.lookup_eq_none.mp hnone, Nat.lt_of_not_le hrooms, Int.not_le.mp hip, rfl, hold,
            Bool.eq_false_iff.mpr hfull⟩
        exact ⟨s, .refl, Or.inr (.store _ rfl rfl rfl hchecks)⟩

theorem createRoom_moves {pend : PendingReg} (hremovals : Removals now s₀ s)
    (hnone : s.rooms.lookup room = none) :
    Moves cfg now rnd s₀ room cookie src (createRoom cfg now room src pend s).1 := by
  simp only [createRoom]
  generalize hs₁ : (if cfg.maxRooms ≤ s.totalRooms then
    s.evictStaleRooms cfg now (shardIdx room numShards) else s) = s₁
  have hevicted : Removals now s₀ s₁ := by
    rw [← hs₁]
    split
    · exact hremovals.trans (State.evictStaleRooms_removals _)
    · exact hremovals
  have hnone₁ : s₁.rooms.lookup room = none := by
    rw [← hs₁]
    split
    · cases hroom : (s.evictStaleRooms cfg now (shardIdx room numShards)).rooms.lookup room with
      | none => rfl
      | some e =>
          have hshrunk : Shrunk cfg now s _ := State.evictStaleRooms_shrunk (shardIdx room numShards) s
          obtain ⟨e₀, he₀, _⟩ := hshrunk.room hroom
          rw [hnone] at he₀
          cases he₀
    · exact hnone
  split
  · exact .of_removals hevicted
  rename_i hrooms
  split
  · exact .of_removals hevicted
  rename_i hip
  exact ⟨s₁, hevicted, Or.inr (.create _ hnone₁ (Int.not_le.mp hrooms) (Nat.lt_of_not_le hip))⟩

/-- The source comes into the room that has just been put back. -/
theorem Addition.letIn_setRoom {p : RoomEntry × Counters} (addr : UDPAddr)
    (hhard : src.string ∈ p.1.udpClients ∨ p.1.udpClients.size < cfg.maxClientsHard)
    (hip : p.1.holdsIP (ipKey src.string) = true ∨
      p.2.countIPRooms (ipKey src.string) < cfg.maxRoomsPerIP) :
    Addition cfg now rnd s₀ room cookie src (s.setRoom room p) (s.setRoom room (p.1.letIn now src.string addr,
      if p.1.holdsIP (ipKey src.string) then p.2 else p.2.addIPRoom (ipKey src.string) room)) := by
  have haddition : Addition cfg now rnd s₀ room cookie src (s.setRoom room p) _ :=
    .letIn addr (State.lookup_setRoom s room p) hhard hip
  rw [State.setRoom_setRoom] at haddition
  exact haddition

theorem joinRoom_moves {pend : PendingReg} {entry : RoomEntry} (hremovals : Removals now s₀ s)
    (hroom : s.rooms.lookup room = some entry) :
    Moves cfg now rnd s₀ room cookie src (joinRoom cfg now room src pend entry s).1 := by
  simp only [joinRoom]
  generalize hsweep : RoomEntry.sweep cfg room now (entry, s.counters) = e
  have hswept : Removals now s₀ (s.setRoom room e) := by
    rw [← hsweep]
    exact hremovals.trans (State.sweep_removals hroom)
  split
  · exact .of_removals hswept
  rename_i hhard
  split
  · exact .of_removals hswept
  split
  · exact .of_removals hswept
  rename_i hip
  refine ⟨s.setRoom room e, hswept, Or.inr (Addition.letIn_setRoom pend.resolvedAddr ?_ ?_)⟩
  · by_cases hmem : src.string ∈ e.1.udpClients
    · exact Or.inl hmem
    · exact Or.inr (Nat.lt_of_not_le fun hle => hhard ⟨hle, hmem⟩)
  · by_cases hholds : e.1.holdsIP (ipKey src.string) = true
    · exact Or.inl hholds
    · exact Or.inr (Nat.lt_of_not_le fun hle => hip ⟨hholds, hle⟩)

theorem completePending_moves {pend : PendingReg} {b : Bytes} :
    Moves cfg now rnd s room cookie src (completePending cfg now room b src pend s).1 := by
  have hdeleted : Removals now s (s.deletePendingReg room src.string) :=
    .single (.store s room src.string)
  simp only [completePending]
  split
  · exact .of_removals .refl
  split
  · exact .of_removals hdeleted
  generalize hs₁ : (if cfg.maxRooms ≤ (s.deletePendingReg room src.string).totalRooms then
    (s.deletePendingReg room src.string).evictStaleRoomsAll cfg now
    else s.deletePendingReg room src.string) = s₁
  have hremovals : Removals now s s₁ := by
    rw [← hs₁]
    split
    · exact hdeleted.trans State.evictStaleRoomsAll_removals
    · exact hdeleted
  cases hroom : s₁.rooms.lookup room with
  | none => exact createRoom_moves hremovals hroom
  | some entry => exact joinRoom_moves hremovals hroom

variable (now) in
/-- The two ways in count the room for the prefix in the same case. -/
theorem letIn_otherClientOf (e : RoomEntry) (k : Bytes) (addr : UDPAddr) :
    (k ∈ e.udpClients ∨ (e.letIn now k addr).otherClientOf (ipKey k) k = true) ↔
      e.holdsIP (ipKey k) = true := by
  rw [RoomEntry.holdsIP_iff]
  simp only [RoomEntry.otherClientOf, RoomEntry.letIn, List.any_eq_true, decide_eq_true_eq]
  constructor
  · intro h
    rcases h with hmem | ⟨k', hk', hne, hip⟩
    · exact ⟨k, hmem, rfl⟩
    · exact ⟨k', ((AList.mem_insert _).mp (AList.mem_keys.mpr hk')).resolve_left hne, hip⟩
  · intro h
    obtain ⟨k', hk', hip⟩ := h
    by_cases hk : k' = k
    · exact Or.inl (hk ▸ hk')
    · exact Or.inr ⟨k', AList.mem_keys.mp ((AList.mem_insert _).mpr (Or.inr hk')), hk, hip⟩

theorem admitInRoom_moves {entry : RoomEntry} {b : Bytes} (hroom : s.rooms.lookup room = some entry) :
    Moves cfg now rnd s room cookie src (admitInRoom cfg now room b src entry s).1 := by
  simp only [admitInRoom]
  cases entry.pending.lookup src.string with
  | none => exact .of_removals .refl
  | some pend =>
      dsimp only
      split
      · exact .of_removals .refl
      split
      · exact .of_removals ((State.setRoom_removals hroom).trans
          (RoomEntry.removePending_removals src.string))
      generalize hsweep : RoomEntry.sweep cfg room now (entry, s.counters) = e
      have hswept : Removals now s (s.setRoom room e) := by
        rw [← hsweep]
        exact State.sweep_removals hroom
      split
      · exact .of_removals hswept
      rename_i hhard
      split
      · exact .of_removals hswept
      rename_i hip
      obtain ⟨hclients, hcount⟩ := RoomEntry.removePending_clients e src.string
      refine ⟨_, hswept.trans (RoomEntry.removePending_removals src.string), Or.inr ?_⟩
      have hletIn := letIn_otherClientOf now (RoomEntry.removePending e src.string).1 src.string
        pend.resolvedAddr
      simp only [RoomEntry.letIn] at hletIn
      simp only [hletIn]
      refine Addition.letIn_setRoom pend.resolvedAddr ?_ ?_
      · rw [hclients]
        by_cases hmem : src.string ∈ e.1.udpClients
        · exact Or.inl hmem
        · exact Or.inr (Nat.lt_of_not_le fun hle => hhard ⟨hle, hmem⟩)
      · rw [RoomEntry.holdsIP, Counters.countIPRooms, hclients, hcount]
        by_cases hholds : e.1.holdsIP (ipKey src.string) = true
        · exact Or.inl hholds
        · refine Or.inr (Nat.lt_of_not_le fun hle => hip ⟨?_, hholds, hle⟩)
          intro hmem
          exact hholds (RoomEntry.holdsIP_iff.mpr ⟨src.string, hmem, rfl⟩)

theorem regInRoom_moves {entry : RoomEntry} (hcookie : cookie = [])
    (hroom : s.rooms.lookup room = some entry) :
    Moves cfg now rnd s room cookie src (regInRoom cfg now rnd room src entry s).1 := by
  simp only [regInRoom]
  generalize hsweep : RoomEntry.sweep cfg room now (entry, s.counters) = e
  have hswept : Removals now s (s.setRoom room e) := by
    rw [← hsweep]
    exact State.sweep_removals hroom
  have he := State.lookup_setRoom s room e
  split
  · exact .of_removals hswept
  rename_i hhard
  cases hclient : e.1.udpClients.lookup src.string with
  | some u =>
      refine ⟨_, hswept, Or.inr ?_⟩
      have hupdate : Addition cfg now rnd s room cookie src (s.setRoom room e) _ :=
        .update { u with lastSeen := now, resolvedAddr := src } he hclient
      rw [State.setRoom_setRoom] at hupdate
      exact hupdate
  | none =>
      dsimp only
      have hstranger : src.string ∉ e.1.udpClients := AList.lookup_eq_none.mp hclient
      split
      · exact .of_removals hswept
      rename_i hclients
      cases hpend : e.1.pending.lookup src.string with
      | some pend =>
          refine ⟨_, hswept, Or.inr ?_⟩
          have hrepend : Addition cfg now rnd s room cookie src (s.setRoom room e) _ :=
            .repend { pend with createdAt := now, resolvedAddr := src } he (GoMap.mem_of_lookup hpend)
          rw [State.setRoom_setRoom] at hrepend
          exact hrepend
      | none =>
          dsimp only
          split
          · exact .of_removals hswept
          rename_i hip
          cases rnd with
          | none => exact .of_removals hswept
          | some cb =>
              dsimp only [RoomEntry.addPending]
              have hnew : src.string ∉ e.1.pending := AList.lookup_eq_none.mp hpend
              rw [if_neg hnew]
              split_ifs with hfull
              · exact .of_removals hswept
              · rw [not_or, Bool.not_eq_true] at hfull
                have hchecks : Pendable cfg (some cb) cookie src e :=
                  ⟨hcookie, Nat.lt_of_not_le fun hle => hhard ⟨hle, hstranger⟩, hstranger,
                    Nat.lt_of_not_le hclients, hnew, Int.not_le.mp hip, rfl, Nat.lt_of_not_le hfull.1,
                    hfull.2⟩
                refine ⟨_, hswept, Or.inr ?_⟩
                have hadd : Addition cfg now (some cb) s room cookie src (s.setRoom room e) _ :=
                  .pend ⟨cb, now, src⟩ hroom hsweep rfl rfl rfl hchecks
                rw [State.setRoom_setRoom] at hadd
                exact hadd

theorem handleRegUnlimited_moves :
    Moves cfg now rnd s room cookie src (handleRegUnlimited cfg now rnd room cookie src s).1 := by
  unfold handleRegUnlimited
  split
  · split
    · exact .of_removals .refl
    rename_i hvalid
    cases hdecode : hexDecode cookie with
    | none => exact .of_removals .refl
    | some b =>
        dsimp only
        cases s.getPendingReg room src.string with
        | some pend => exact completePending_moves
        | none =>
            dsimp only
            cases hroom : s.rooms.lookup room with
            | none =>
                have hlength := length_of_hexDecode hdecode
                rw [not_or, not_not] at hvalid
                refine challengeNewRoom_moves (Or.inr ?_) hroom
                rw [hdecode, Option.any_some, decide_eq_true_eq]
                omega
            | some entry => exact admitInRoom_moves hroom
  · rename_i hempty
    have hcookie : cookie = [] := List.length_eq_zero_iff.mp (Nat.eq_zero_of_not_pos hempty)
    cases hroom : s.rooms.lookup room with
    | none => exact challengeNewRoom_moves (Or.inl hcookie) hroom
    | some entry => exact regInRoom_moves hcookie hroom

/-- Counting the `REG` is a removal before the others. -/
theorem Moves.of_counted (hrates : Removal now s s₀) (hrooms : s₀.rooms = s.rooms)
    (hstore : s₀.pendingRegs = s.pendingRegs) (hcounters : s₀.counters = s.counters)
    (h : Moves cfg now rnd s₀ room cookie src s') : Moves cfg now rnd s room cookie src s' := by
  obtain ⟨s₁, hremovals, h⟩ := h
  refine ⟨s₁, .head hrates hremovals, h.imp_right fun h => ?_⟩
  cases h with
  | create addr hnone hrooms hip => exact .create addr hnone hrooms hip
  | letIn addr he hhard hip => exact .letIn addr he hhard hip
  | update u' he hu => exact .update u' he hu
  | store p hrooms' hstore' hcounters' hchecks =>
      rw [storable_iff, hrooms, hstore, hcounters, ← storable_iff] at hchecks
      rw [hrooms] at hrooms'
      rw [hstore] at hstore'
      rw [hcounters] at hcounters'
      exact .store p hrooms' hstore' hcounters' hchecks
  | restore p hold => exact .restore p hold
  | pend p hentry hsweep hrooms' hstore' hcounters' hchecks =>
      rw [hrooms] at hrooms' hentry
      rw [hstore] at hstore'
      rw [hcounters] at hsweep
      exact .pend p hentry hsweep hrooms' hstore' hcounters' hchecks
  | repend p he hold => exact .repend p he hold

theorem State.isRegRateLimited_removal (ip : Bytes) (s : State) :
    Removal now s (s.isRegRateLimited cfg now ip).2 := by
  obtain ⟨hrooms, hstore, hcounters⟩ := State.isRegRateLimited_eq cfg now ip s
  have heq : (s.isRegRateLimited cfg now ip).2 =
      { s with
        regSent := (s.isRegRateLimited cfg now ip).2.regSent
        regTimes := (s.isRegRateLimited cfg now ip).2.regTimes } := by
    rw [← hrooms, ← hstore, ← hcounters]
  rw [heq]
  exact .rates s _ _

theorem handleReg_moves : Removals now s (handleReg cfg now rnd room cookie src s).1 ∨
    (s.isRegRateLimited cfg now (ipKey src.string)).1 = false ∧
      Moves cfg now rnd s room cookie src (handleReg cfg now rnd room cookie src s).1 := by
  obtain ⟨hrooms, hstore, hcounters⟩ := State.isRegRateLimited_eq cfg now (ipKey src.string) s
  have hrates : Removal now s (s.isRegRateLimited cfg now (ipKey src.string)).2 :=
    s.isRegRateLimited_removal (ipKey src.string)
  unfold handleReg
  generalize s.isRegRateLimited cfg now (ipKey src.string) = limit at *
  obtain ⟨limited, s₀⟩ := limit
  cases limited with
  | true => exact Or.inl (.single hrates)
  | false => exact Or.inr ⟨rfl, .of_counted hrates hrooms hstore hcounters handleRegUnlimited_moves⟩

variable (cfg now s) in
/-- One input removes, or it is a `REG` within the rate limit that may also add something, or it is a
`MSG` that counts. -/
theorem step_moves (e : Event) :
    Removals now s (step cfg now s e).1 ∨
    (∃ data src rnd room cookie, e = .packet data src rnd ∧ parseReg data = some (room, cookie) ∧
      (s.isRegRateLimited cfg now (ipKey src.string)).1 = false ∧
      Moves cfg now rnd s room cookie src (step cfg now s e).1) ∨
    ∃ room src entry u u', s.rooms.lookup room = some entry ∧
      entry.udpClients.lookup src = some u ∧
      (step cfg now s e).1 = s.setRoom room
        ({ entry with udpClients := entry.udpClients.insert src u' }, s.counters) := by
  cases e with
  | packet data src rnd =>
      rcases handlePacket_cases data with ⟨room, cookie, hparse, heq⟩ |
        ⟨room, phase, body, _, heq⟩ | ⟨why, heq⟩
      · rw [step, heq]
        rcases handleReg_moves with hremovals | ⟨hlimit, hmoves⟩
        · exact Or.inl hremovals
        · exact Or.inr (Or.inl ⟨data, src, rnd, room, cookie, rfl, hparse, hlimit, hmoves⟩)
      · rw [step, heq]
        have houtcome : MsgOutcome room phase body src s
            (forwardMsg cfg now room phase body src s).1
            (forwardMsg cfg now room phase body src s).2 := forwardMsg_outcome
        generalize forwardMsg cfg now room phase body src s = result at houtcome
        obtain ⟨s', outs⟩ := result
        cases houtcome with
        | ignored => exact Or.inl .refl
        | counted r hroom hu =>
            exact Or.inr (Or.inr ⟨room, src.string, _, _, _, hroom, hu, rfl⟩)
      · rw [step, heq]
        exact Or.inl .refl
  | rateTick =>
      obtain ⟨hrooms, hstore, hcounters⟩ := State.cleanupRateMaps_eq cfg now s
      have heq : s.cleanupRateMaps cfg now = { s with
          regSent := (s.cleanupRateMaps cfg now).regSent
          regTimes := (s.cleanupRateMaps cfg now).regTimes } := by
        rw [← hrooms, ← hstore, ← hcounters]
      rw [step, heq]
      exact Or.inl (.single (.rates s _ _))
  | roomTick => exact Or.inl State.cleanupRooms_removals

end Qvole.Relay
