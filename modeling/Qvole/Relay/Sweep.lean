import Qvole.Relay.Handle

/-!
# What sweeping can do

Every handler sweeps before it decides: stale clients, expired pending registrations and stale rooms
go. All of it is one relation between the state before and after, `Shrunk`: nothing is added or
altered, and a client seen within `regTTL` stays where it is. The rate-limit maps and the counters are
not part of it, so counting a `REG` is a step of the same relation.
-/

namespace Qvole.Relay

open Lib

variable (cfg : Config) (now : Int)

/-- One room after sweeping. -/
structure EntryShrunk (e e' : RoomEntry) : Prop where
  client : ∀ {k u}, e'.udpClients.lookup k = some u → e.udpClients.lookup k = some u
  pending : ∀ {k p}, e'.pending.lookup k = some p → e.pending.lookup k = some p
  freshClient : ∀ {k u}, e.udpClients.lookup k = some u → now - u.lastSeen ≤ cfg.regTTL →
    e'.udpClients.lookup k = some u
  freshPending : ∀ {k p}, e.pending.lookup k = some p → now - p.createdAt ≤ pendingRegTTL →
    e'.pending.lookup k = some p
  t : e'.t = e.t

/-- The relay after sweeping. -/
structure Shrunk (s s' : State) : Prop where
  room : ∀ {R e'}, s'.rooms.lookup R = some e' →
    ∃ e, s.rooms.lookup R = some e ∧ EntryShrunk cfg now e e'
  freshRoom : ∀ {R e k u}, s.rooms.lookup R = some e → e.udpClients.lookup k = some u →
    now - u.lastSeen ≤ cfg.regTTL → ∃ e', s'.rooms.lookup R = some e'
  store : ∀ {key p}, s'.pendingRegs.lookup key = some p → s.pendingRegs.lookup key = some p

variable {cfg now}

namespace EntryShrunk

theorem refl (e : RoomEntry) : EntryShrunk cfg now e e :=
  ⟨id, id, fun h _ => h, fun h _ => h, rfl⟩

theorem trans {e e' e'' : RoomEntry} (h : EntryShrunk cfg now e e')
    (h' : EntryShrunk cfg now e' e'') : EntryShrunk cfg now e e'' where
  client hk := h.client (h'.client hk)
  pending hk := h.pending (h'.pending hk)
  freshClient hk hfresh := h'.freshClient (h.freshClient hk hfresh) hfresh
  freshPending hk hfresh := h'.freshPending (h.freshPending hk hfresh) hfresh
  t := h'.t.trans h.t

theorem mem_client {e e' : RoomEntry} (h : EntryShrunk cfg now e e') {k : Bytes}
    (hk : k ∈ e'.udpClients) : k ∈ e.udpClients := by
  obtain ⟨u, hu⟩ := GoMap.lookup_of_mem hk
  exact GoMap.mem_of_lookup (h.client hu)

theorem countPrefixClients_le {e e' : RoomEntry} (h : EntryShrunk cfg now e e') (pre : Bytes) :
    e'.countPrefixClients pre ≤ e.countPrefixClients pre :=
  GoMap.count_mono _ fun _ hk => h.mem_client hk

end EntryShrunk

namespace RoomEntry

theorem removeStaleClient_shrunk (room : Bytes) (e : RoomEntry × Counters) (addr : Bytes) :
    EntryShrunk cfg now e.1 (removeStaleClient cfg room now e addr).1 := by
  unfold removeStaleClient
  cases hlook : e.1.udpClients.lookup addr with
  | none => exact .refl e.1
  | some info =>
      by_cases hstale : cfg.regTTL < now - info.lastSeen
      · simp only [if_pos hstale]
        refine ⟨fun {k u} hk => ?_, id, fun {k u} hk hfresh => ?_, fun h _ => h, rfl⟩
        · rw [GoMap.lookup_erase_if] at hk
          split at hk
          · cases hk
          · exact hk
        · rw [GoMap.lookup_erase_if, if_neg]
          · exact hk
          · rintro rfl
            rw [hlook] at hk
            cases hk
            omega
      · simp only [if_neg hstale]
        exact .refl e.1

theorem removeStaleClients_shrunk (room : Bytes) (e : RoomEntry × Counters) :
    EntryShrunk cfg now e.1 (removeStaleClients cfg room now e).1 :=
  List.foldlRecOn e.1.udpClients.keys (motive := fun e' => EntryShrunk cfg now e.1 e'.1)
    (removeStaleClient cfg room now) (.refl e.1)
    fun e' h addr _ => h.trans (removeStaleClient_shrunk room e' addr)

/-- Removing a pending registration touches the pending map and its mirror only. -/
theorem removePending_eq (e : RoomEntry × Counters) (srcStr : Bytes) :
    ∃ byIP c, removePending e srcStr =
      ({ e.1 with pending := e.1.pending.erase srcStr, pendingByIP := byIP }, c) := by
  unfold removePending
  split
  · exact ⟨_, _, rfl⟩
  · rename_i hmem
    refine ⟨e.1.pendingByIP, e.2, ?_⟩
    rw [GoMap.erase_of_notMem hmem]

theorem removeExpiredPending_shrunk (e : RoomEntry × Counters) (addr : Bytes) :
    EntryShrunk cfg now e.1 (removeExpiredPending now e addr).1 := by
  unfold removeExpiredPending
  cases hlook : e.1.pending.lookup addr with
  | none => exact .refl e.1
  | some pend =>
      by_cases hstale : pendingRegTTL < now - pend.createdAt
      · simp only [if_pos hstale]
        obtain ⟨byIP, c, heq⟩ := removePending_eq e addr
        rw [heq]
        refine ⟨id, fun {k p} hk => ?_, fun h _ => h, fun {k p} hk hfresh => ?_, rfl⟩
        · rw [GoMap.lookup_erase_if] at hk
          split at hk
          · cases hk
          · exact hk
        · rw [GoMap.lookup_erase_if, if_neg]
          · exact hk
          · rintro rfl
            rw [hlook] at hk
            cases hk
            omega
      · simp only [if_neg hstale]
        exact .refl e.1

theorem removeStalePending_shrunk (e : RoomEntry × Counters) :
    EntryShrunk cfg now e.1 (removeStalePending now e).1 := by
  have hfold : EntryShrunk cfg now e.1 (e.1.pending.keys.foldl (removeExpiredPending now) e).1 :=
    List.foldlRecOn e.1.pending.keys (motive := fun e' => EntryShrunk cfg now e.1 e'.1)
      (removeExpiredPending now) (.refl e.1)
      fun e' h addr _ => h.trans (removeExpiredPending_shrunk e' addr)
  exact ⟨hfold.client, hfold.pending, hfold.freshClient, hfold.freshPending, hfold.t⟩

theorem sweep_shrunk (room : Bytes) (e : RoomEntry × Counters) :
    EntryShrunk cfg now e.1 (sweep cfg room now e).1 := by
  unfold sweep
  have hclients : EntryShrunk cfg now e.1 (removeStaleClients cfg room now e).1 :=
    removeStaleClients_shrunk room e
  dsimp only
  split
  · exact hclients.trans (removeStalePending_shrunk _)
  · exact hclients

end RoomEntry

namespace Shrunk

theorem refl (s : State) : Shrunk cfg now s s :=
  ⟨fun h => ⟨_, h, .refl _⟩, fun h _ _ => ⟨_, h⟩, id⟩

theorem trans {s s' s'' : State} (h : Shrunk cfg now s s') (h' : Shrunk cfg now s' s'') :
    Shrunk cfg now s s'' where
  room hR := by
    obtain ⟨e', he', hshrunk'⟩ := h'.room hR
    obtain ⟨e, he, hshrunk⟩ := h.room he'
    exact ⟨e, he, hshrunk.trans hshrunk'⟩
  freshRoom hR hk hfresh := by
    obtain ⟨e', he'⟩ := h.freshRoom hR hk hfresh
    obtain ⟨e, he, hshrunk⟩ := h.room he'
    rw [hR] at he
    cases he
    exact h'.freshRoom he' (hshrunk.freshClient hk hfresh) hfresh
  store hkey := h.store (h'.store hkey)

theorem of_eq {s s' : State} (hrooms : s'.rooms = s.rooms) (hstore : s'.pendingRegs = s.pendingRegs) :
    Shrunk cfg now s s' :=
  ⟨fun h => ⟨_, hrooms ▸ h, .refl _⟩, fun h _ _ => ⟨_, hrooms ▸ h⟩, fun h => hstore ▸ h⟩

/-- A client seen within `regTTL` is still in its room. -/
theorem freshClient {s s' : State} (h : Shrunk cfg now s s') {R k : Bytes} {e : RoomEntry}
    {u : UdpClient} (hR : s.rooms.lookup R = some e) (hk : e.udpClients.lookup k = some u)
    (hfresh : now - u.lastSeen ≤ cfg.regTTL) :
    ∃ e', s'.rooms.lookup R = some e' ∧ EntryShrunk cfg now e e' ∧
      e'.udpClients.lookup k = some u := by
  obtain ⟨e', he'⟩ := h.freshRoom hR hk hfresh
  obtain ⟨e₀, he₀, hshrunk⟩ := h.room he'
  rw [hR] at he₀
  cases he₀
  exact ⟨e', he', hshrunk, hshrunk.freshClient hk hfresh⟩

theorem setRoom {s : State} {R : Bytes} {e : RoomEntry} (hR : s.rooms.lookup R = some e)
    {p : RoomEntry × Counters} (hshrunk : EntryShrunk cfg now e p.1) :
    Shrunk cfg now s (s.setRoom R p) where
  room {R' e'} h := by
    rw [State.setRoom, GoMap.lookup_insert_if] at h
    split at h
    · subst R'
      cases h
      exact ⟨e, hR, hshrunk⟩
    · exact ⟨e', h, .refl e'⟩
  freshRoom {R' e' _ _} h _ _ := by
    rw [State.setRoom, GoMap.lookup_insert_if]
    split
    · exact ⟨p.1, rfl⟩
    · exact ⟨e', h⟩
  store := id

end Shrunk

namespace State

theorem lookup_setRoom (s : State) (R : Bytes) (p : RoomEntry × Counters) :
    (s.setRoom R p).rooms.lookup R = some p.1 := AList.lookup_insert s.rooms

theorem lookup_setRoom_ne (s : State) {R R' : Bytes} (p : RoomEntry × Counters) (h : R' ≠ R) :
    (s.setRoom R p).rooms.lookup R' = s.rooms.lookup R' := AList.lookup_insert_ne h

theorem setRoom_setRoom (s : State) (R : Bytes) (p q : RoomEntry × Counters) :
    (s.setRoom R p).setRoom R q = s.setRoom R q := by
  simp only [State.setRoom, AList.insert_insert]

theorem evictStaleRoom_shrunk (s : State) (room : Bytes) :
    Shrunk cfg now s (s.evictStaleRoom cfg now room) := by
  unfold evictStaleRoom
  cases hlook : s.rooms.lookup room with
  | none => exact .refl s
  | some entry =>
      have hentry : EntryShrunk cfg now entry (RoomEntry.removeStalePending now
          (RoomEntry.removeStaleClients cfg room now (entry, s.counters))).1 :=
        (RoomEntry.removeStaleClients_shrunk room (entry, s.counters)).trans
          (RoomEntry.removeStalePending_shrunk _)
      dsimp only
      split
      · rename_i hgone
        refine ⟨fun {R e'} h => ?_, fun {R e k u} h hk hfresh => ?_, id⟩
        · rw [GoMap.lookup_erase_if] at h
          split at h
          · cases h
          · exact ⟨e', h, .refl e'⟩
        · rw [GoMap.lookup_erase_if, if_neg]
          · exact ⟨e, h⟩
          · -- the room holds a fresh client, so it is not empty after the sweep
            rintro rfl
            rw [hlook] at h
            cases h
            have hmem := GoMap.mem_of_lookup (hentry.freshClient hk hfresh)
            have hnil : (RoomEntry.removeStalePending now (RoomEntry.removeStaleClients cfg R now
                (entry, s.counters))).1.udpClients.keys = [] :=
              List.length_eq_zero_iff.mp hgone.1
            rw [AList.mem_keys, hnil] at hmem
            cases hmem
      · exact Shrunk.setRoom hlook hentry

theorem evictStaleRooms_shrunk (shard : Nat) (s : State) :
    Shrunk cfg now s (s.evictStaleRooms cfg now shard) :=
  List.foldlRecOn _ (motive := fun s' => Shrunk cfg now s s') (evictStaleRoom cfg now) (.refl s)
    fun s' h room _ => h.trans (evictStaleRoom_shrunk s' room)

theorem evictStaleRoomsAll_shrunk (s : State) : Shrunk cfg now s (s.evictStaleRoomsAll cfg now) :=
  List.foldlRecOn _ (motive := fun s' => Shrunk cfg now s s')
    (fun s shard => evictStaleRooms cfg now shard s) (.refl s)
    fun s' h shard _ => h.trans (evictStaleRooms_shrunk shard s')

theorem deletePendingReg_rooms (room srcStr : Bytes) (s : State) :
    (s.deletePendingReg room srcStr).rooms = s.rooms := by
  unfold deletePendingReg
  split <;> rfl

theorem deletePendingReg_shrunk (room srcStr : Bytes) (s : State) :
    Shrunk cfg now s (s.deletePendingReg room srcStr) := by
  have hrooms := deletePendingReg_rooms room srcStr s
  refine ⟨fun h => ⟨_, hrooms ▸ h, .refl _⟩, fun h _ _ => ⟨_, hrooms ▸ h⟩, fun {key p} h => ?_⟩
  unfold deletePendingReg at h
  split at h
  · rw [GoMap.lookup_erase_if] at h
    split at h
    · cases h
    · exact h
  · exact h

theorem removeStaleShard_shrunk (s : State) (shard : Nat) :
    Shrunk cfg now s (removeStaleShard now s shard) := by
  refine ⟨fun h => ⟨_, h, .refl _⟩, fun h _ _ => ⟨_, h⟩, fun {key p} h => ?_⟩
  refine List.foldlRecOn (motive := fun m : GoMap (Bytes × Bytes) PendingReg =>
    m.lookup key = some p → s.pendingRegs.lookup key = some p) _ _ id ?_ h
  intro m ih stale _ hm
  rw [GoMap.lookup_erase_if] at hm
  split at hm
  · cases hm
  · exact ih hm

theorem cleanupRooms_shrunk (s : State) : Shrunk cfg now s (s.cleanupRooms cfg now) :=
  (evictStaleRoomsAll_shrunk s).trans
    (List.foldlRecOn _ (motive := fun s' => Shrunk cfg now (s.evictStaleRoomsAll cfg now) s')
      (removeStaleShard now) (.refl _) fun s' h shard _ => h.trans (removeStaleShard_shrunk s' shard))

variable (cfg now)

theorem cleanupRateMaps_eq (s : State) :
    (s.cleanupRateMaps cfg now).rooms = s.rooms ∧
      (s.cleanupRateMaps cfg now).pendingRegs = s.pendingRegs ∧
      (s.cleanupRateMaps cfg now).counters = s.counters := by
  refine List.foldlRecOn (motive := fun s' : State =>
    s'.rooms = s.rooms ∧ s'.pendingRegs = s.pendingRegs ∧ s'.counters = s.counters) _ _
    ⟨rfl, rfl, rfl⟩ ?_
  intro s' h src _
  cases s'.regTimes.lookup src with
  | none => exact h
  | some reset =>
      dsimp only
      split
      · exact h
      · exact h

/-- Counting a `REG` changes the rate-limit maps and nothing else. -/
theorem isRegRateLimited_eq (src : Bytes) (s : State) :
    (s.isRegRateLimited cfg now src).2.rooms = s.rooms ∧
      (s.isRegRateLimited cfg now src).2.pendingRegs = s.pendingRegs ∧
      (s.isRegRateLimited cfg now src).2.counters = s.counters := by
  unfold isRegRateLimited
  cases s.regTimes.lookup src with
  | none => dsimp only; split <;> exact ⟨rfl, rfl, rfl⟩
  | some reset => dsimp only; split <;> [skip; split] <;> exact ⟨rfl, rfl, rfl⟩

theorem isRegRateLimited_limited (src : Bytes) (s : State)
    (h : (s.isRegRateLimited cfg now src).1 = true) : (s.isRegRateLimited cfg now src).2 = s := by
  unfold isRegRateLimited at h ⊢
  cases hlook : s.regTimes.lookup src with
  | none =>
      rw [hlook] at h
      dsimp only at h ⊢
      split at h
      · rename_i hfull
        rw [if_pos hfull]
      · cases h
  | some reset =>
      rw [hlook] at h
      dsimp only at h ⊢
      split at h
      · cases h
      rename_i hwindow
      split at h
      · rename_i hrate
        rw [if_neg hwindow, if_pos hrate]
      · cases h

end State

end Qvole.Relay
