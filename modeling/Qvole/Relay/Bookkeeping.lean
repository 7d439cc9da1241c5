import Mathlib.Algebra.Ring.Int.Defs
import Mathlib.Data.Finset.Lattice.Basic
import Qvole.Relay.Moves
import Qvole.Relay.PrefixCap

/-!
# The counters say what the tables hold

Room total, rooms of a prefix, pending registrations of the store and of a prefix in it, pending
registrations of a room by prefix and of all rooms together: each of them is kept by hand next to the
table it is about. `Exact` says that all of them agree with the tables. Two of the updates saturate at
zero, which is harmless exactly because nothing is ever taken from a counter that the table does not
have.

A change of a single room only has to fit that room: `Fits` collects what the counters owe to it.
-/

namespace Qvole.Relay

open Lib

/-! ### Counter updates -/

namespace Counters

variable {ip ip' room R : Bytes} {d : Int} {c : Counters}

/-- The rooms the prefix is counted for. -/
def ipSet (ip : Bytes) (c : Counters) : Finset Bytes := (c.ipCounts.lookup ip).getD ∅

theorem mem_ipSet_addIPRoom :
    R ∈ (c.addIPRoom ip room).ipSet ip' ↔ (ip' = ip ∧ R = room) ∨ R ∈ c.ipSet ip' := by
  simp only [ipSet, addIPRoom, GoMap.lookup_insert_if]
  by_cases h : ip' = ip
  · subst h
    simp
  · simp [h]

theorem mem_ipSet_removeIPRoom :
    R ∈ (c.removeIPRoom ip room).ipSet ip' ↔ ¬ (ip' = ip ∧ R = room) ∧ R ∈ c.ipSet ip' := by
  unfold removeIPRoom
  cases hlook : c.ipCounts.lookup ip with
  | none =>
      refine (and_iff_right_of_imp fun hmem heq => ?_).symm
      rw [ipSet, heq.1, hlook] at hmem
      exact absurd hmem (Finset.notMem_empty R)
  | some set =>
      dsimp only
      split
      · rename_i hcard
        have hset : set.erase room = ∅ := Finset.card_eq_zero.mp hcard
        simp only [ipSet, GoMap.lookup_erase_if]
        by_cases h : ip' = ip
        · subst h
          have hmem : R ∈ set.erase room ↔ False := by simp [hset]
          rw [Finset.mem_erase] at hmem
          simpa [hlook] using hmem
        · simp [h]
      · simp only [ipSet, GoMap.lookup_insert_if]
        by_cases h : ip' = ip
        · subst h
          simp [hlook]
        · simp [h]

theorem removeIPRoom_eq (ip room : Bytes) (c : Counters) :
    ∃ m, c.removeIPRoom ip room = { c with ipCounts := m } := by
  unfold removeIPRoom
  split
  · exact ⟨c.ipCounts, rfl⟩
  split
  · exact ⟨_, rfl⟩
  · exact ⟨_, rfl⟩

/-- No prefix is left with an empty set. -/
def NoEmptySet (c : Counters) : Prop := ∀ ip set, c.ipCounts.lookup ip = some set → set ≠ ∅

theorem NoEmptySet.addIPRoom (h : c.NoEmptySet) : (c.addIPRoom ip room).NoEmptySet := by
  intro ip' set hset
  rw [Counters.addIPRoom, GoMap.lookup_insert_if] at hset
  split at hset
  · cases hset
    exact Finset.insert_ne_empty _ _
  · exact h ip' set hset

theorem NoEmptySet.removeIPRoom (h : c.NoEmptySet) : (c.removeIPRoom ip room).NoEmptySet := by
  intro ip' set hset
  unfold Counters.removeIPRoom at hset
  split at hset
  · exact h ip' set hset
  split at hset
  · rw [GoMap.lookup_erase_if] at hset
    split at hset
    · cases hset
    · exact h ip' set hset
  · rename_i hcard
    rw [GoMap.lookup_insert_if] at hset
    split at hset
    · cases hset
      exact fun hempty => hcard (Finset.card_eq_zero.mpr hempty)
    · exact h ip' set hset

/-- The count of a prefix saturates at zero. -/
theorem countPendingForIP_addPendingIP_max :
    (c.addPendingIP ip d).countPendingForIP ip' =
      if ip' = ip then max 0 (c.countPendingForIP ip + d) else c.countPendingForIP ip' := by
  simp only [countPendingForIP, addPendingIP]
  by_cases h : ip' = ip
  · subst h
    rw [if_pos rfl]
    split
    · rw [AList.lookup_insert, Option.getD_some]
      omega
    · rw [AList.lookup_erase, Option.getD_none]
      omega
  · split
    · simp [h]
    · simp [h]

theorem countPendingForIP_addPendingIP (hcount : 0 ≤ c.countPendingForIP ip + d) :
    (c.addPendingIP ip d).countPendingForIP ip' =
      c.countPendingForIP ip' + if ip' = ip then d else 0 := by
  rw [countPendingForIP_addPendingIP_max]
  split
  · rename_i h
    rw [h, Int.max_eq_right hcount]
  · rw [Int.add_zero]

end Counters

/-! ### Exactness -/

/-- How many pending registrations of the prefix the store has. -/
def State.storedForIP (ip : Bytes) (s : State) : Nat := s.pendingRegs.count fun key => ipKey key.2 = ip

/-- How many pending registrations of the prefix the room has. -/
def RoomEntry.pendingForIP (ip : Bytes) (e : RoomEntry) : Nat := e.pending.count fun k => ipKey k = ip

/-- How many pending registrations all rooms have together. -/
def State.inRoomPending (s : State) : Nat := s.rooms.total fun _ e => e.pending.size

structure Exact (s : State) : Prop where
  rooms : s.counters.totalRoomCount = s.rooms.size
  ipRooms : ∀ ip room, room ∈ s.counters.ipSet ip ↔
    ∃ e, s.rooms.lookup room = some e ∧ e.holdsIP ip = true
  ipNonempty : s.counters.NoEmptySet
  store : s.counters.pendingTotal = s.pendingRegs.size
  storeIP : ∀ ip, s.counters.countPendingForIP ip = s.storedForIP ip
  inRoomIP : ∀ room e, s.rooms.lookup room = some e → ∀ ip, e.pendingCountForIP ip = e.pendingForIP ip
  inRoom : s.counters.inRoomPendingTotal = s.inRoomPending

theorem Exact.empty : Exact .empty := by
  refine ⟨rfl, fun ip room => ?_, fun ip set h => ?_, rfl, fun _ => rfl, fun room e h => ?_, rfl⟩
  · refine iff_of_false (Finset.notMem_empty room) fun h => ?_
    obtain ⟨e, he, _⟩ := h
    cases he
  · cases h
  · cases h

variable {cfg : Config} {now : Int} {room : Bytes} {src : UDPAddr} {s s₁ s' : State} {e : RoomEntry}
  {p : RoomEntry × Counters} {c : Counters}

theorem Exact.ipRooms_of (h : Exact s) (hroom : s.rooms.lookup room = some e) (ip : Bytes) :
    room ∈ s.counters.ipSet ip ↔ e.holdsIP ip = true := by
  rw [h.ipRooms]
  simp [hroom]

/-- What the counters owe to a room that was `e` and is put back. -/
structure Fits (s : State) (room : Bytes) (e : RoomEntry) (p : RoomEntry × Counters) : Prop where
  rooms : p.2.totalRoomCount = s.counters.totalRoomCount
  ipRooms : ∀ ip R, R ∈ p.2.ipSet ip ↔
    if R = room then p.1.holdsIP ip = true else R ∈ s.counters.ipSet ip
  ipNonempty : p.2.NoEmptySet
  store : p.2.pendingTotal = s.counters.pendingTotal
  storeIP : p.2.pendingIPCounts = s.counters.pendingIPCounts
  inRoomIP : ∀ ip, p.1.pendingCountForIP ip = p.1.pendingForIP ip
  inRoom : p.2.inRoomPendingTotal + e.pending.size = s.counters.inRoomPendingTotal + p.1.pending.size

theorem Exact.setRoom (h : Exact s) (hroom : s.rooms.lookup room = some e) (hfits : Fits s room e p) :
    Exact (s.setRoom room p) where
  rooms := by
    have hsize := GoMap.size_insert_of_mem p.1 (GoMap.mem_of_lookup hroom)
    have hrooms := h.rooms
    have hsame := hfits.rooms
    simp only [State.setRoom]
    omega
  ipRooms ip R := by
    simp only [State.setRoom]
    rw [hfits.ipRooms, GoMap.lookup_insert_if]
    split
    · simp
    · exact h.ipRooms ip R
  ipNonempty := hfits.ipNonempty
  store := hfits.store.trans h.store
  storeIP ip := by
    have hcount := h.storeIP ip
    simp only [Counters.countPendingForIP, State.setRoom, hfits.storeIP] at hcount ⊢
    exact hcount
  inRoomIP R e' he' ip := by
    rw [State.setRoom, GoMap.lookup_insert_if] at he'
    split at he'
    · cases he'
      exact hfits.inRoomIP ip
    · exact h.inRoomIP R e' he' ip
  inRoom := by
    have htotal := GoMap.total_insert_of_lookup (f := fun _ e => RoomEntry.pending e |>.size) (v := p.1) hroom
    have hinRoom := h.inRoom
    have hsame := hfits.inRoom
    simp only [State.inRoomPending, State.setRoom] at hinRoom ⊢
    omega

/-- As far as clients go, the room and the counters are as before. -/
theorem Exact.ip_same (h : Exact s) (hroom : s.rooms.lookup room = some e)
    (hclients : ∀ ip, p.1.holdsIP ip = e.holdsIP ip) (hip : p.2.ipCounts = s.counters.ipCounts) :
    (∀ ip R, R ∈ p.2.ipSet ip ↔ if R = room then p.1.holdsIP ip = true else R ∈ s.counters.ipSet ip) ∧
      p.2.NoEmptySet := by
  constructor
  · intro ip R
    rw [Counters.ipSet, hip]
    split
    · rename_i hR
      rw [hR, hclients]
      exact h.ipRooms_of hroom ip
    · rfl
  · intro ip set hset
    rw [hip] at hset
    exact h.ipNonempty ip set hset

theorem Exact.le_inRoom (h : Exact s) (hroom : s.rooms.lookup room = some e) :
    (e.pending.size : Int) ≤ s.counters.inRoomPendingTotal := by
  have hle := GoMap.le_total (f := fun _ e => RoomEntry.pending e |>.size) hroom
  have hinRoom := h.inRoom
  simp only [State.inRoomPending] at hinRoom
  omega

/-! ### Removals -/

theorem Exact.touch (h : Exact s) (hroom : s.rooms.lookup room = some e) (next : Option Int) :
    Exact (s.setRoom room ({ e with nextPendingSweep := next }, s.counters)) := by
  obtain ⟨hip, hempty⟩ := h.ip_same (p := ({ e with nextPendingSweep := next }, s.counters)) hroom
    (fun _ => rfl) rfl
  exact h.setRoom hroom ⟨rfl, hip, hempty, rfl, rfl, h.inRoomIP room e hroom, rfl⟩

theorem holdsIP_erase (e : RoomEntry) (k ip : Bytes) :
    RoomEntry.holdsIP ip { e with udpClients := e.udpClients.erase k } = true ↔
      if ip = ipKey k then e.otherClientOf (ipKey k) k = true else e.holdsIP ip = true := by
  have hother : e.otherClientOf (ipKey k) k = true ↔
      ∃ k' ∈ e.udpClients, k' ≠ k ∧ ipKey k' = ipKey k := by
    simp [RoomEntry.otherClientOf, AList.mem_keys]
  rw [RoomEntry.holdsIP_iff, RoomEntry.holdsIP_iff, hother]
  simp only [AList.mem_erase]
  split
  · rename_i hip
    subst hip
    exact exists_congr fun k' => by tauto
  · rename_i hip
    refine exists_congr fun k' => ?_
    constructor
    · exact fun hk' => ⟨hk'.1.2, hk'.2⟩
    · rintro ⟨hmem, rfl⟩
      refine ⟨⟨?_, hmem⟩, rfl⟩
      rintro rfl
      exact hip rfl

theorem Exact.dropClient (h : Exact s) (hroom : s.rooms.lookup room = some e) (k : Bytes) :
    Exact (s.setRoom room ({ e with udpClients := e.udpClients.erase k },
      if e.otherClientOf (ipKey k) k then s.counters
      else s.counters.removeIPRoom (ipKey k) room)) := by
  refine h.setRoom hroom ?_
  have hpending := h.inRoomIP room e hroom
  split
  · rename_i hother
    refine ⟨rfl, fun ip R => ?_, h.ipNonempty, rfl, rfl, hpending, rfl⟩
    split
    · rename_i hR
      rw [hR, holdsIP_erase, h.ipRooms_of hroom]
      split
      · rename_i hip
        refine iff_of_true ?_ hother
        simp only [RoomEntry.otherClientOf, List.any_eq_true, decide_eq_true_eq] at hother
        obtain ⟨k', hk', _, hip'⟩ := hother
        exact RoomEntry.holdsIP_iff.mpr ⟨k', AList.mem_keys.mpr hk', hip'.trans hip.symm⟩
      · rfl
    · rfl
  · rename_i hother
    obtain ⟨m, heq⟩ := Counters.removeIPRoom_eq (ipKey k) room s.counters
    refine ⟨?_, fun ip R => ?_, h.ipNonempty.removeIPRoom, ?_, ?_, hpending, ?_⟩
    · rw [heq]
    · rw [Counters.mem_ipSet_removeIPRoom]
      split
      · rename_i hR
        rw [hR, holdsIP_erase, h.ipRooms_of hroom]
        split
        · rename_i hip
          exact iff_of_false (fun hboth => hboth.1 ⟨hip, rfl⟩) hother
        · rename_i hip
          exact and_iff_right fun hboth => hip hboth.1
      · rename_i hR
        exact and_iff_right fun hboth => hR hboth.2
    · rw [heq]
    · rw [heq]
    · rw [heq]

/-- Taking one entry out of the mirror of a pending map. -/
theorem pendingCountForIP_removed (e : RoomEntry) (hmirror : ∀ ip, e.pendingCountForIP ip = e.pendingForIP ip)
    {k : Bytes} (hk : k ∈ e.pending) (ip : Bytes) :
    RoomEntry.pendingCountForIP ip (RoomEntry.removePending (e, c) k).1 =
      RoomEntry.pendingForIP ip (RoomEntry.removePending (e, c) k).1 := by
  have hcount := GoMap.count_erase_of_mem (fun k => ipKey k = ip) hk
  have hpos := GoMap.count_pos_of_mem (p := fun k' => ipKey k' = ipKey k) hk (by simp)
  have hip := hmirror ip
  have hkey := hmirror (ipKey k)
  simp only [RoomEntry.pendingCountForIP, RoomEntry.pendingForIP] at hip hkey ⊢
  rw [RoomEntry.removePending, if_pos hk]
  dsimp only
  by_cases heq : ip = ipKey k
  · subst heq
    simp only [decide_true, if_true] at hcount
    split
    · rw [GoMap.lookup_erase_if, if_pos rfl, Option.getD_none]
      omega
    · rw [GoMap.lookup_insert_if, if_pos rfl, Option.getD_some]
      omega
  · have hne : ¬ ipKey k = ip := fun h => heq h.symm
    simp only [hne, decide_false, Bool.false_eq_true, if_false] at hcount
    split
    · rw [GoMap.lookup_erase_if, if_neg heq]
      omega
    · rw [GoMap.lookup_insert_if, if_neg heq]
      omega

theorem Exact.dropPending (h : Exact s) (hroom : s.rooms.lookup room = some e) (k : Bytes) :
    Exact (s.setRoom room (RoomEntry.removePending (e, s.counters) k)) := by
  by_cases hk : k ∈ e.pending
  · have hmirror := pendingCountForIP_removed (c := s.counters) e (h.inRoomIP room e hroom) hk
    have hsize := GoMap.size_erase_of_mem hk
    have hle := h.le_inRoom hroom
    rw [RoomEntry.removePending, if_pos hk] at hmirror ⊢
    obtain ⟨hip, hempty⟩ := h.ip_same (p := (RoomEntry.removePending (e, s.counters) k)) hroom
      (fun ip => by rw [RoomEntry.removePending, if_pos hk]; rfl)
      (by rw [RoomEntry.removePending, if_pos hk]; rfl)
    rw [RoomEntry.removePending, if_pos hk] at hip hempty
    refine h.setRoom hroom ⟨rfl, hip, hempty, rfl, rfl, hmirror, ?_⟩
    simp only [Counters.adjustInRoomPending]
    omega
  · rw [RoomEntry.removePending, if_neg hk]
    exact h.touch hroom e.nextPendingSweep

theorem Exact.dropRoom (h : Exact s) (hroom : s.rooms.lookup room = some e)
    (hclients : e.udpClients.size = 0) :
    Exact { s with
      rooms := s.rooms.erase room
      counters := (RoomEntry.removeAllPending (e, s.counters)).2.addRooms (-1) } := by
  have hle := h.le_inRoom hroom
  have hholds : ∀ ip, e.holdsIP ip = false := by
    intro ip
    rw [RoomEntry.holdsIP, List.length_eq_zero_iff.mp hclients]
    rfl
  have hcounters : (RoomEntry.removeAllPending (e, s.counters)).2.addRooms (-1) =
      { s.counters with
        totalRoomCount := s.counters.totalRoomCount - 1
        inRoomPendingTotal := s.counters.inRoomPendingTotal - e.pending.size } := by
    simp only [RoomEntry.removeAllPending, Counters.addRooms, Counters.adjustInRoomPending]
    split
    · congr 1
      dsimp only
      omega
    · congr 1
      omega
  rw [hcounters]
  refine ⟨?_, fun ip R => ?_, h.ipNonempty, h.store, h.storeIP, fun R e' he' ip => ?_, ?_⟩
  · have hsize := GoMap.size_erase_of_mem (GoMap.mem_of_lookup hroom)
    have hrooms := h.rooms
    dsimp only
    omega
  · show R ∈ s.counters.ipSet ip ↔ _
    simp only [GoMap.lookup_erase_if]
    split
    · rename_i hR
      rw [hR, h.ipRooms_of hroom, hholds]
      simp
    · exact h.ipRooms ip R
  · simp only [GoMap.lookup_erase_if] at he'
    split at he'
    · cases he'
    · exact h.inRoomIP R e' he' ip
  · have htotal := GoMap.total_erase (f := fun _ e => RoomEntry.pending e |>.size) hroom
    have hinRoom := h.inRoom
    simp only [State.inRoomPending] at hinRoom ⊢
    omega

/-- A change of the store and its counters leaves the rest alone. -/
theorem Exact.setStore (h : Exact s) {m : GoMap (Bytes × Bytes) PendingReg} {c : Counters}
    (hrooms : c.totalRoomCount = s.counters.totalRoomCount) (hips : c.ipCounts = s.counters.ipCounts)
    (hinRoom : c.inRoomPendingTotal = s.counters.inRoomPendingTotal) (htotal : c.pendingTotal = m.size)
    (hcount : ∀ ip, c.countPendingForIP ip = m.count fun key => ipKey key.2 = ip) :
    Exact { s with pendingRegs := m, counters := c } where
  rooms := hrooms.trans h.rooms
  ipRooms ip R := by
    rw [Counters.ipSet, hips]
    exact h.ipRooms ip R
  ipNonempty ip set hset := h.ipNonempty ip set (hips ▸ hset)
  store := htotal
  storeIP := hcount
  inRoomIP := h.inRoomIP
  inRoom := hinRoom.trans h.inRoom

theorem Exact.dropStored (h : Exact s) (room srcStr : Bytes) : Exact (s.deletePendingReg room srcStr) := by
  unfold State.deletePendingReg
  split
  · rename_i hmem
    have hsize := GoMap.size_erase_of_mem hmem
    have hstore := h.store
    refine h.setStore rfl rfl rfl ?_ fun ip => ?_
    · simp only [Counters.addPendingIP]
      omega
    · have hpos := GoMap.count_pos_of_mem (p := fun key => ipKey key.2 = ipKey srcStr) hmem (by simp)
      have hcount := GoMap.count_erase_of_mem (fun key => ipKey key.2 = ip) hmem
      have hkey := h.storeIP (ipKey srcStr)
      have hip := h.storeIP ip
      simp only [State.storedForIP] at hkey hip
      rw [Counters.countPendingForIP_addPendingIP (by omega), hip]
      by_cases heq : ip = ipKey srcStr
      · simp [heq] at hcount ⊢
        omega
      · have hne : ¬ ipKey srcStr = ip := fun h => heq h.symm
        simp [heq, hne] at hcount ⊢
        omega
  · exact h

/-! ### The sweep of the store

The expired entries of a shard go one by one, and then each prefix gives back at once what it lost.
-/

/-- The expired entries of a shard. -/
def State.staleKeys (now : Int) (shard : Nat) (s : State) : List (Bytes × Bytes) :=
  s.pendingRegs.keys.filter fun key => shardIdx key.1 numShards = shard ∧ s.pendingExpired now key

/-- How often each prefix occurs. -/
def removedPerIP (keys : List (Bytes × Bytes)) : GoMap Bytes Int :=
  keys.foldl (fun m key => m.insert (ipKey key.2) ((m.lookup (ipKey key.2)).getD 0 + 1)) ∅

theorem removeStaleShard_eq (now : Int) (s : State) (n : Nat) :
    State.removeStaleShard now s n =
      { s with
        pendingRegs := (s.staleKeys now n).foldl (fun m key => m.erase key) s.pendingRegs
        counters := (removedPerIP (s.staleKeys now n)).entries.foldl
          (fun c x => c.addPendingIP x.1 (-x.2)) s.counters } := rfl

theorem State.count_stale (now : Int) (n : Nat) (s : State) (p : Bytes × Bytes → Bool) :
    GoMap.count p ((s.staleKeys now n).foldl (fun m key => m.erase key) s.pendingRegs) +
      (s.staleKeys now n).countP p = GoMap.count p s.pendingRegs := by
  refine GoMap.count_foldl_erase p (s.pendingRegs.keys_nodup.filter _) fun key hkey => ?_
  exact AList.mem_keys.mpr (List.mem_of_mem_filter hkey)

theorem State.size_stale (now : Int) (n : Nat) (s : State) :
    GoMap.size ((s.staleKeys now n).foldl (fun m key => m.erase key) s.pendingRegs) +
      (s.staleKeys now n).length = s.pendingRegs.size := by
  have htrue := s.count_stale now n fun _ => true
  rw [List.countP_true] at htrue
  rw [GoMap.size_eq_count, GoMap.size_eq_count, htrue]

theorem lookup_removedPerIP (keys : List (Bytes × Bytes)) (ip : Bytes) :
    ((removedPerIP keys).lookup ip).getD 0 = keys.countP fun key => ipKey key.2 = ip := by
  suffices h : ∀ m : GoMap Bytes Int, ((keys.foldl (fun m key =>
      m.insert (ipKey key.2) ((m.lookup (ipKey key.2)).getD 0 + 1)) m).lookup ip).getD 0 =
      (m.lookup ip).getD 0 + keys.countP fun key => ipKey key.2 = ip from (h ∅).trans (Int.zero_add _)
  induction keys with
  | nil => simp
  | cons key keys ih =>
      intro m
      rw [List.foldl_cons, ih, GoMap.lookup_insert_if, List.countP_cons]
      by_cases heq : ip = ipKey key.2
      · subst heq
        simp only [if_true, Option.getD_some, decide_true]
        omega
      · have hne : ¬ ipKey key.2 = ip := fun h => heq h.symm
        simp [heq, hne]

theorem total_removedPerIP (keys : List (Bytes × Bytes)) :
    (removedPerIP keys).total (fun _ n => n) = keys.length := by
  suffices h : ∀ m : GoMap Bytes Int, (keys.foldl (fun m key =>
      m.insert (ipKey key.2) ((m.lookup (ipKey key.2)).getD 0 + 1)) m).total (fun _ n => n) =
      m.total (fun _ n => n) + keys.length from (h ∅).trans (Int.zero_add _)
  induction keys with
  | nil => simp
  | cons key keys ih =>
      intro m
      rw [List.foldl_cons, ih, List.length_cons]
      cases hlook : m.lookup (ipKey key.2) with
      | none =>
          rw [GoMap.total_insert_of_notMem (AList.lookup_eq_none.mp hlook), Option.getD_none]
          omega
      | some n =>
          have htotal := GoMap.total_insert_of_lookup (f := fun (_ : Bytes) (n : Int) => n) (v := n + 1)
            hlook
          rw [Option.getD_some]
          omega

/-- Every prefix gives back what it lost, none more than it had. -/
theorem foldl_addPendingIP (removed : List (Sigma fun _ : Bytes => Int)) (hnodup : removed.NodupKeys)
    (c : Counters) (hhad : ∀ x ∈ removed, x.2 ≤ c.countPendingForIP x.1) :
    let c' := removed.foldl (fun c x => c.addPendingIP x.1 (-x.2)) c
    c'.totalRoomCount = c.totalRoomCount ∧ c'.ipCounts = c.ipCounts ∧
      c'.inRoomPendingTotal = c.inRoomPendingTotal ∧
      c'.pendingTotal = c.pendingTotal - (removed.map fun x => x.2).sum ∧
      ∀ ip, c'.countPendingForIP ip = c.countPendingForIP ip - (removed.dlookup ip).getD 0 := by
  induction removed generalizing c with
  | nil => simp
  | cons x removed ih =>
      obtain ⟨hnot, hnodup⟩ := List.nodupKeys_cons.mp hnodup
      have hfirst : 0 ≤ c.countPendingForIP x.1 + -x.2 := by
        have := hhad x List.mem_cons_self
        omega
      have hrest : ∀ y ∈ removed, y.2 ≤ (c.addPendingIP x.1 (-x.2)).countPendingForIP y.1 := by
        intro y hy
        have hne : y.1 ≠ x.1 := by
          intro heq
          exact hnot (heq ▸ List.mem_keys_of_mem hy)
        rw [Counters.countPendingForIP_addPendingIP hfirst, if_neg hne, Int.add_zero]
        exact hhad y (List.mem_cons_of_mem x hy)
      obtain ⟨hrooms, hips, hinRoom, htotal, hcount⟩ := ih hnodup _ hrest
      refine ⟨hrooms, hips, hinRoom, ?_, fun ip => ?_⟩
      · rw [List.foldl_cons, htotal, List.map_cons, List.sum_cons]
        simp only [Counters.addPendingIP]
        omega
      · rw [List.foldl_cons, hcount, Counters.countPendingForIP_addPendingIP hfirst]
        by_cases heq : ip = x.1
        · rw [heq, List.dlookup_cons_eq, List.dlookup_eq_none.mpr hnot, if_pos rfl, Option.getD_none,
            Option.getD_some]
          omega
        · rw [List.dlookup_cons_ne _ _ heq, if_neg heq]
          omega

theorem Exact.dropShard (h : Exact s) (n : Nat) : Exact (State.removeStaleShard now s n) := by
  rw [removeStaleShard_eq]
  generalize hstale : s.staleKeys now n = stale
  have hcounts : ∀ ip, GoMap.count (fun key => ipKey key.2 = ip)
      (stale.foldl (fun m key => m.erase key) s.pendingRegs) +
        stale.countP (fun key => ipKey key.2 = ip) = s.storedForIP ip := by
    intro ip
    rw [← hstale]
    exact s.count_stale now n _
  have hsize := s.size_stale now n
  rw [hstale] at hsize
  have hhad : ∀ x ∈ (removedPerIP stale).entries, x.2 ≤ s.counters.countPendingForIP x.1 := by
    intro x hx
    have hremoved := lookup_removedPerIP stale x.1
    have hcount := hcounts x.1
    rw [show (removedPerIP stale).lookup x.1 = some x.2 from AList.mem_lookup_iff.mpr hx,
      Option.getD_some] at hremoved
    rw [h.storeIP]
    omega
  obtain ⟨hrooms, hips, hinRoom, htotal, hcount⟩ :=
    foldl_addPendingIP (removedPerIP stale).entries (removedPerIP stale).nodupKeys s.counters hhad
  refine h.setStore hrooms hips hinRoom ?_ fun ip => ?_
  · have hstore := h.store
    have hlength := total_removedPerIP stale
    rw [htotal]
    simp only [GoMap.total] at hlength
    omega
  · have hremoved := lookup_removedPerIP stale ip
    have hcountip := hcounts ip
    have hstoreip := h.storeIP ip
    rw [hcount]
    change _ - ((removedPerIP stale).lookup ip).getD 0 = _
    omega

theorem Exact.removal (h : Exact s) (hremoval : Removal now s s') : Exact s' := by
  cases hremoval with
  | touch hroom next => exact h.touch hroom next
  | client hroom => exact h.dropClient hroom _
  | pending hroom k => exact h.dropPending hroom k
  | room hroom hempty => exact h.dropRoom hroom hempty
  | store room srcStr => exact h.dropStored room srcStr
  | shard n => exact h.dropShard n
  | rates => exact ⟨h.rooms, h.ipRooms, h.ipNonempty, h.store, h.storeIP, h.inRoomIP, h.inRoom⟩

theorem Exact.removals (h : Exact s) (hremovals : Removals now s s') : Exact s' := by
  induction hremovals with
  | refl => exact h
  | tail _ hremoval ih => exact ih.removal hremoval

/-! ### Additions -/

theorem holdsIP_insert (e : RoomEntry) (k ip : Bytes) (u : UdpClient) :
    RoomEntry.holdsIP ip { e with udpClients := e.udpClients.insert k u } = true ↔
      ip = ipKey k ∨ e.holdsIP ip = true := by
  rw [RoomEntry.holdsIP_iff, RoomEntry.holdsIP_iff]
  simp only [GoMap.mem_insert_if]
  constructor
  · rintro ⟨k', rfl | hk', hip⟩
    · exact Or.inl hip.symm
    · exact Or.inr ⟨k', hk', hip⟩
  · rintro (rfl | ⟨k', hk', hip⟩)
    · exact ⟨k, Or.inl rfl, rfl⟩
    · exact ⟨k', Or.inr hk', hip⟩

theorem Exact.create (h : Exact s) (hnone : s.rooms.lookup room = none) (k : Bytes) (addr : UDPAddr) :
    Exact (s.setRoom room (firstEntry now k addr,
      (s.counters.addRooms 1).addIPRoom (ipKey k) room)) := by
  have hnew : room ∉ s.rooms := AList.lookup_eq_none.mp hnone
  have hholds : ∀ ip, (firstEntry now k addr).holdsIP ip = true ↔ ip = ipKey k := by
    intro ip
    simp [RoomEntry.holdsIP, firstEntry, eq_comm]
  refine ⟨?_, fun ip R => ?_, ?_, h.store, h.storeIP, fun R e' he' ip => ?_, ?_⟩
  · have hsize := GoMap.size_insert_of_notMem (firstEntry now k addr) hnew
    have hrooms := h.rooms
    simp only [State.setRoom, Counters.addIPRoom, Counters.addRooms]
    omega
  · simp only [State.setRoom]
    rw [Counters.mem_ipSet_addIPRoom, GoMap.lookup_insert_if]
    have hold : R ∈ (s.counters.addRooms 1).ipSet ip ↔ _ := h.ipRooms ip R
    rw [hold]
    split
    · rename_i hR
      subst hR
      simp [hholds, hnone]
    · rename_i hR
      simp [hR]
  · exact Counters.NoEmptySet.addIPRoom h.ipNonempty
  · rw [State.setRoom, GoMap.lookup_insert_if] at he'
    split at he'
    · cases he'
      rfl
    · exact h.inRoomIP R e' he' ip
  · have htotal := GoMap.total_insert_of_notMem (f := fun _ e => RoomEntry.pending e |>.size)
      (v := firstEntry now k addr) hnew
    have hinRoom := h.inRoom
    have hfirst : (firstEntry now k addr).pending.size = 0 := rfl
    simp only [State.inRoomPending, State.setRoom, Counters.addIPRoom, Counters.addRooms] at hinRoom ⊢
    omega

theorem Exact.letIn (h : Exact s) (hroom : s.rooms.lookup room = some e) (k : Bytes) (addr : UDPAddr) :
    Exact (s.setRoom room (e.letIn now k addr,
      if e.holdsIP (ipKey k) then s.counters else s.counters.addIPRoom (ipKey k) room)) := by
  have hholds : ∀ ip, (e.letIn now k addr).holdsIP ip = true ↔ ip = ipKey k ∨ e.holdsIP ip = true :=
    fun ip => holdsIP_insert e k ip (newClient now addr)
  have hpending := h.inRoomIP room e hroom
  refine h.setRoom hroom ?_
  split
  · rename_i hin
    refine ⟨rfl, fun ip R => ?_, h.ipNonempty, rfl, rfl, hpending, rfl⟩
    split
    · rename_i hR
      rw [hR, h.ipRooms_of hroom, hholds]
      refine (or_iff_right_of_imp ?_).symm
      rintro rfl
      exact hin
    · rfl
  · refine ⟨rfl, fun ip R => ?_, h.ipNonempty.addIPRoom, rfl, rfl, hpending, rfl⟩
    rw [Counters.mem_ipSet_addIPRoom]
    split
    · rename_i hR
      rw [hR, h.ipRooms_of hroom, hholds]
      simp
    · rename_i hR
      simp [hR]

theorem Exact.update (h : Exact s) (hroom : s.rooms.lookup room = some e) {k : Bytes}
    (hk : k ∈ e.udpClients) (u : UdpClient) :
    Exact (s.setRoom room ({ e with udpClients := e.udpClients.insert k u }, s.counters)) := by
  obtain ⟨hip, hempty⟩ := h.ip_same
    (p := ({ e with udpClients := e.udpClients.insert k u }, s.counters)) hroom (fun ip => by
      rw [Bool.eq_iff_iff, holdsIP_insert]
      refine or_iff_right_of_imp fun heq => ?_
      exact RoomEntry.holdsIP_iff.mpr ⟨k, hk, heq.symm⟩) rfl
  exact h.setRoom hroom ⟨rfl, hip, hempty, rfl, rfl, h.inRoomIP room e hroom, rfl⟩

theorem Exact.restore (h : Exact s) {key : Bytes × Bytes} (hkey : key ∈ s.pendingRegs) (pend : PendingReg) :
    Exact { s with pendingRegs := s.pendingRegs.insert key pend } := by
  refine h.setStore rfl rfl rfl ?_ fun ip => ?_
  · rw [GoMap.size_insert_of_mem pend hkey]
    exact h.store
  · rw [GoMap.count_insert_of_mem _ pend hkey]
    exact h.storeIP ip

theorem Exact.store_new (h : Exact s) {room k : Bytes} (hnew : (room, k) ∉ s.pendingRegs) (pend : PendingReg) :
    Exact { s with
      pendingRegs := s.pendingRegs.insert (room, k) pend
      counters := s.counters.addPendingIP (ipKey k) 1 } := by
  refine h.setStore rfl rfl rfl ?_ fun ip => ?_
  · have hsize := GoMap.size_insert_of_notMem pend hnew
    have hstore := h.store
    simp only [Counters.addPendingIP]
    omega
  · have hcount := GoMap.count_insert_of_notMem (fun key => ipKey key.2 = ip) pend hnew
    have hkey := h.storeIP (ipKey k)
    have hip := h.storeIP ip
    simp only [State.storedForIP] at hip
    rw [Counters.countPendingForIP_addPendingIP (by omega), hip]
    by_cases heq : ip = ipKey k
    · simp [heq] at hcount ⊢
      omega
    · have hne : ¬ ipKey k = ip := fun h => heq h.symm
      simp [heq, hne] at hcount ⊢
      omega

theorem Exact.repend (h : Exact s) (hroom : s.rooms.lookup room = some e) {k : Bytes} (hk : k ∈ e.pending)
    (pend : PendingReg) :
    Exact (s.setRoom room ({ e with pending := e.pending.insert k pend }, s.counters)) := by
  obtain ⟨hip, hempty⟩ := h.ip_same (p := ({ e with pending := e.pending.insert k pend }, s.counters))
    hroom (fun _ => rfl) rfl
  refine h.setRoom hroom ⟨rfl, hip, hempty, rfl, rfl, fun ip => ?_, ?_⟩
  · rw [RoomEntry.pendingForIP, GoMap.count_insert_of_mem _ pend hk]
    exact h.inRoomIP room e hroom ip
  · rw [GoMap.size_insert_of_mem pend hk]

theorem Exact.pend_new (h : Exact s) (hroom : s.rooms.lookup room = some e) {k : Bytes}
    (hnew : k ∉ e.pending) (pend : PendingReg) :
    Exact (s.setRoom room
      ({ e with
          pending := e.pending.insert k pend
          pendingByIP := e.pendingByIP.insert (ipKey k) (e.pendingCountForIP (ipKey k) + 1) },
        s.counters.adjustInRoomPending 1)) := by
  have hmirror := h.inRoomIP room e hroom
  have hle := h.le_inRoom hroom
  have hsize := GoMap.size_insert_of_notMem pend hnew
  obtain ⟨hip, hempty⟩ := h.ip_same
    (p := ({ e with
        pending := e.pending.insert k pend
        pendingByIP := e.pendingByIP.insert (ipKey k) (e.pendingCountForIP (ipKey k) + 1) },
      s.counters.adjustInRoomPending 1)) hroom (fun _ => rfl) rfl
  refine h.setRoom hroom ⟨rfl, hip, hempty, rfl, rfl, fun ip => ?_, ?_⟩
  · have hcount := GoMap.count_insert_of_notMem (fun k => ipKey k = ip) pend hnew
    have hip := hmirror ip
    simp only [RoomEntry.pendingCountForIP, RoomEntry.pendingForIP] at hip ⊢
    rw [GoMap.lookup_insert_if]
    by_cases heq : ip = ipKey k
    · subst heq
      simp only [decide_true, if_true] at hcount
      rw [if_pos rfl, Option.getD_some]
      omega
    · have hne : ¬ ipKey k = ip := fun h => heq h.symm
      simp only [hne, decide_false, Bool.false_eq_true, if_false] at hcount
      rw [if_neg heq]
      omega
  · simp only [Counters.adjustInRoomPending]
    omega

theorem Exact.addition {rnd : Option Cookie} {cookie : Bytes} (h : Exact s₁)
    (haddition : Addition cfg now rnd s room cookie src s₁ s') : Exact s' := by
  cases haddition with
  | create addr hnone => exact h.create hnone _ addr
  | letIn addr he => exact h.letIn he _ addr
  | update u' he hu => exact h.update he (GoMap.mem_of_lookup hu) u'
  | store p _ hstore _ hchecks => exact h.store_new (hstore ▸ hchecks.new) p
  | restore p hold => exact h.restore hold p
  | pend p _ _ hrooms _ hcounters hchecks =>
      subst hcounters
      refine h.pend_new ?_ hchecks.new p
      rw [hrooms, AList.lookup_insert]
  | repend p he hold => exact h.repend he hold p

/-! ### Over whole runs -/

theorem step_exact (h : Exact s) (now : Int) (e : Event) : Exact (step cfg now s e).1 := by
  rcases step_moves cfg now s e with hremovals | ⟨_, _, _, _, _, _, _, _, s₁, hremovals, hsame | haddition⟩ |
    ⟨room, k, entry, u, u', hroom, hu, heq⟩
  · exact h.removals hremovals
  · rw [hsame]
    exact h.removals hremovals
  · exact (h.removals hremovals).addition haddition
  · rw [heq]
    exact h.update hroom (GoMap.mem_of_lookup hu) u'

theorem exact_of_run {ok : State → Int → Event → Prop} {log : List (LogEntry Event Out)}
    (hrun : (machine cfg).Run ok log s) : Exact s :=
  hrun.invariant Exact.empty fun _ now e h _ => step_exact h now e

/-- In every state of every run, each counter is what it counts: the rooms; the rooms of a prefix, and no
prefix is kept without a room; the pending registrations of the store, all and by prefix; those of each
room by prefix, and those of all rooms. -/
theorem bookkeeping_exact (cfg : Config) {log : List (LogEntry Event Out)} {s : State}
    (hrun : (machine cfg).Run (fun _ _ _ => True) log s) :
    s.counters.totalRoomCount = s.rooms.size ∧
    ((∀ ip room, room ∈ (s.counters.ipCounts.lookup ip).getD ∅ ↔
        ∃ e, s.rooms.lookup room = some e ∧ ∃ k ∈ e.udpClients, ipKey k = ip) ∧
      ∀ ip set, s.counters.ipCounts.lookup ip = some set → set ≠ ∅) ∧
    (s.counters.pendingTotal = s.pendingRegs.size ∧
      ∀ ip, s.counters.countPendingForIP ip = s.pendingRegs.count fun key => ipKey key.2 = ip) ∧
    (∀ room e, s.rooms.lookup room = some e →
      ∀ ip, e.pendingCountForIP ip = e.pending.count fun k => ipKey k = ip) ∧
    s.counters.inRoomPendingTotal = s.rooms.total fun _ e => e.pending.size := by
  have h := exact_of_run hrun
  refine ⟨h.rooms, ⟨fun ip room => ?_, h.ipNonempty⟩, ⟨h.store, h.storeIP⟩, h.inRoomIP, h.inRoom⟩
  have hrooms := h.ipRooms ip room
  simp only [RoomEntry.holdsIP_iff] at hrooms
  exact hrooms

/-- Two ports of one host are in the room, and a third has been challenged. -/
theorem bookkeeping_three_ports : ∃ log s,
    (machine .default).Run (fun _ _ _ => True) log s ∧ 0 < s.rooms.size ∧
      s.counters.totalRoomCount = s.rooms.size ∧
      s.counters.inRoomPendingTotal = s.rooms.total fun _ e => e.pending.size := by
  obtain ⟨log, hrun⟩ := Machine.Run.init.exec
    (show (machine .default).Admissible (fun _ _ _ => True) none .empty
      (hostJoins [2] ++ [(3, hostReg 3 none (some (cookieOf 3)))]) by decide +kernel)
  obtain ⟨hrooms, _, _, _, hinRoom⟩ := bookkeeping_exact .default hrun
  exact ⟨log, _, hrun, by decide +kernel, hrooms, hinRoom⟩

end Qvole.Relay
