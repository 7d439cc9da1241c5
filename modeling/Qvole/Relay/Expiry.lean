import Qvole.Relay.PendingCap
import Qvole.Relay.Presence

/-!
# What expired clients stand for

Two caps reject a `REG` because of rooms that exist. Before `maxRooms` does, the relay sweeps all rooms,
and the sweep leaves no room without a client that was seen within `regTTL`: a room that is empty has a
stale timestamp, since the timestamp is that of an admission, and the client that was let in then has
been seen at that time or later (`Tended`). Before `maxRoomsPerIP` does, only the room of the `REG` is
swept, so the rejection counts rooms in which the prefix has nothing but expired clients.
-/

namespace Qvole.Relay

open Lib

variable {cfg : Config} {now : Int} {rnd : Option Cookie} {room cookie : Bytes} {src : UDPAddr}
  {s s₁ s' : State} {e e' : RoomEntry}

/-! ### Timestamps of rooms -/

/-- The timestamp has passed, and some client has been seen since then, unless it is stale. -/
def RoomEntry.Tended (cfg : Config) (now : Int) (e : RoomEntry) : Prop :=
  e.t ≤ now ∧
    ((∃ k u, e.udpClients.lookup k = some u ∧ e.t ≤ u.lastSeen) ∨ cfg.regTTL < now - e.t)

def State.Tended (cfg : Config) (now : Int) (s : State) : Prop :=
  ∀ R e, s.rooms.lookup R = some e → e.Tended cfg now

theorem RoomEntry.Tended.later {now' : Int} (h : e.Tended cfg now) (hle : now ≤ now') :
    e.Tended cfg now' := by
  refine ⟨h.1.trans hle, h.2.imp_right fun hstale => ?_⟩
  omega

/-- A sweep takes the client away that vouches for the timestamp only when the timestamp is stale. -/
theorem EntryShrunk.tended (h : EntryShrunk cfg now e e') (htended : e.Tended cfg now) :
    e'.Tended cfg now := by
  obtain ⟨hpast, hvouched⟩ := htended
  unfold RoomEntry.Tended
  rw [h.t]
  refine ⟨hpast, ?_⟩
  rcases hvouched with ⟨k, u, hu, hseen⟩ | hstale
  · by_cases hfresh : now - u.lastSeen ≤ cfg.regTTL
    · exact Or.inl ⟨k, u, h.freshClient hu hfresh, hseen⟩
    · right
      omega
  · exact Or.inr hstale

theorem Shrunk.tended (h : Shrunk cfg now s s') (htended : s.Tended cfg now) : s'.Tended cfg now := by
  intro R e' he'
  obtain ⟨e, he, hentry⟩ := h.room he'
  exact hentry.tended (htended R e he)

theorem State.Tended.setRoom {p : RoomEntry × Counters} (h : s.Tended cfg now)
    (hp : p.1.Tended cfg now) : (s.setRoom room p).Tended cfg now := by
  intro R e he
  rw [State.setRoom, GoMap.lookup_insert_if] at he
  split at he
  · cases he
    exact hp
  · exact h R e he

/-- Whoever comes in vouches for the timestamp that is set with it. -/
theorem RoomEntry.tended_letIn (k : Bytes) (addr : UDPAddr)
    (hclient : e'.udpClients.lookup k = some (newClient now addr)) (ht : e'.t = now) :
    e'.Tended cfg now :=
  ⟨ht.le, Or.inl ⟨k, _, hclient, ht.le⟩⟩

/-- A client that is put back, no older than it was. -/
theorem RoomEntry.Tended.update {k : Bytes} {u : UdpClient} (h : e.Tended cfg now)
    (hu : e.udpClients.lookup k = some u) {u' : UdpClient}
    (hseen : u'.lastSeen = u.lastSeen ∨ u'.lastSeen = now) :
    RoomEntry.Tended cfg now { e with udpClients := e.udpClients.insert k u' } := by
  obtain ⟨hpast, hvouched⟩ := h
  refine ⟨hpast, hvouched.imp_left fun ⟨k₁, u₁, hu₁, hseen₁⟩ => ?_⟩
  by_cases heq : k₁ = k
  · subst heq
    rw [hu] at hu₁
    cases hu₁
    refine ⟨k₁, u', AList.lookup_insert _, ?_⟩
    show e.t ≤ u'.lastSeen
    rcases hseen with hsame | hnow
    · omega
    · omega
  · exact ⟨k₁, u₁, (AList.lookup_insert_ne heq).trans hu₁, hseen₁⟩

theorem RegOutcome.tended {outs : List Out} (h : RegOutcome cfg now rnd room cookie src s s' outs)
    (htended : s.Tended cfg now) : s'.Tended cfg now := by
  cases h with
  | dropped hshrunk => exact hshrunk.tended htended
  | created hshrunk =>
      apply (hshrunk.tended htended).setRoom
      exact RoomEntry.tended_letIn src.string _ (AList.lookup_insert ∅) rfl
  | joined hshrunk =>
      apply (hshrunk.tended htended).setRoom
      exact RoomEntry.tended_letIn src.string _ (AList.lookup_insert _) rfl
  | admitted hshrunk =>
      apply (hshrunk.tended htended).setRoom
      exact RoomEntry.tended_letIn src.string _ (AList.lookup_insert _) rfl
  | refreshed hshrunk _ he hu =>
      apply (hshrunk.tended htended).setRoom
      exact (hshrunk.tended htended room _ he).update hu (Or.inr rfl)
  | challengedStore hshrunk => exact hshrunk.tended htended
  | renewed hshrunk _ he =>
      have hroom := hshrunk.tended htended room _ he
      exact (hshrunk.tended htended).setRoom hroom
  | challengedRoom hshrunk _ _ he =>
      have hroom := hshrunk.tended htended room _ he
      exact (hshrunk.tended htended).setRoom hroom

theorem MsgOutcome.tended {phase body : Bytes} {outs : List Out}
    (h : MsgOutcome room phase body src s s' outs) (htended : s.Tended cfg now) :
    s'.Tended cfg now := by
  cases h with
  | ignored => exact htended
  | counted r hroom hu =>
      apply htended.setRoom
      exact (htended room _ hroom).update hu (Or.inl rfl)

theorem step_tended (h : s.Tended cfg now) (e : Event) : (step cfg now s e).1.Tended cfg now := by
  rcases step_cases cfg now s e with ⟨_, _, _, _, _, _, _, _, houtcome⟩ | ⟨_, _, _, _, _, _, _, _, houtcome⟩ |
    ⟨hshrunk, _⟩
  · exact houtcome.tended h
  · exact houtcome.tended h
  · exact hshrunk.tended h

theorem tended_of_run {log : List (LogEntry Event Out)}
    (hrun : (machine cfg).Run (fun _ _ _ => True) log s) (hclock : ∀ x ∈ log.head?, x.time ≤ now) :
    s.Tended cfg now := by
  refine hrun.invariant_clock (I := fun now s => s.Tended cfg now) ?_ ?_ ?_ now hclock
  · intro t R e he
    cases he
  · intro s t t' hle h R e he
    exact (h R e he).later hle
  · intro s now e h _
    exact step_tended h e

/-! ### What a sweep leaves behind -/

/-- No client has expired, and the room has a client or a recent timestamp. -/
def RoomEntry.Swept (cfg : Config) (now : Int) (e : RoomEntry) : Prop :=
  (∀ k u, e.udpClients.lookup k = some u → now - u.lastSeen ≤ cfg.regTTL) ∧
    ((∃ k, k ∈ e.udpClients) ∨ now - e.t ≤ cfg.regTTL)

def State.SweptAt (cfg : Config) (now : Int) (R : Bytes) (s : State) : Prop :=
  ∀ e, s.rooms.lookup R = some e → e.Swept cfg now

theorem RoomEntry.removeStaleClients_fresh {p : RoomEntry × Counters} {k : Bytes} {u : UdpClient}
    (hu : (removeStaleClients cfg room now p).1.udpClients.lookup k = some u) :
    now - u.lastSeen ≤ cfg.regTTL := by
  have hmem : k ∈ p.1.udpClients.keys :=
    AList.mem_keys.mp ((removeStaleClients_shrunk room p).mem_client (GoMap.mem_of_lookup hu))
  refine foldl_of_mem (P := fun p' : RoomEntry × Counters =>
    ∀ u, p'.1.udpClients.lookup k = some u → now - u.lastSeen ≤ cfg.regTTL) ?_ ?_ hmem p u hu
  · intro p' k' hp' u hu
    exact hp' u ((removeStaleClient_shrunk room p' k').client hu)
  · intro p' u hu
    have hold := (removeStaleClient_shrunk room p' k).client hu
    by_contra hstale
    rw [removeStaleClient, hold] at hu
    simp only [if_pos (Int.not_le.mp hstale), AList.lookup_erase] at hu
    cases hu

theorem RoomEntry.removeStalePending_udpClients (p : RoomEntry × Counters) :
    (removeStalePending now p).1.udpClients = p.1.udpClients := by
  refine List.foldlRecOn p.1.pending.keys (removeExpiredPending now)
    (motive := fun p' => p'.1.udpClients = p.1.udpClients) rfl ?_
  intro p' h k _
  unfold removeExpiredPending
  split
  · exact h
  split
  · exact (removePending_clients p' k).1.trans h
  · exact h

theorem State.evictStaleRoom_swept (s : State) (R : Bytes) :
    (s.evictStaleRoom cfg now R).SweptAt cfg now R := by
  intro e he
  unfold evictStaleRoom at he
  cases hroom : s.rooms.lookup R with
  | none =>
      rw [hroom] at he
      dsimp only at he
      rw [hroom] at he
      cases he
  | some entry =>
      rw [hroom] at he
      dsimp only at he
      split at he
      · rw [AList.lookup_erase] at he
        cases he
      · rename_i hkept
        rw [lookup_setRoom] at he
        cases he
        refine ⟨fun k u hu => ?_, ?_⟩
        · rw [RoomEntry.removeStalePending_udpClients] at hu
          exact RoomEntry.removeStaleClients_fresh hu
        · by_cases hrecent : now - (RoomEntry.removeStalePending now
              (RoomEntry.removeStaleClients cfg R now (entry, s.counters))).1.t ≤ cfg.regTTL
          · exact Or.inr hrecent
          · left
            apply List.exists_mem_of_length_pos
            exact Nat.pos_of_ne_zero fun hsize => hkept ⟨hsize, Int.not_le.mp hrecent⟩

theorem State.SweptAt.evictStaleRoom {R : Bytes} (h : s.SweptAt cfg now R) (room : Bytes) :
    (s.evictStaleRoom cfg now room).SweptAt cfg now R := by
  by_cases heq : R = room
  · subst heq
    exact evictStaleRoom_swept s R
  · intro e he
    apply h e
    unfold State.evictStaleRoom at he
    split at he
    · exact he
    dsimp only at he
    split at he
    · rw [← he]
      exact (AList.lookup_erase_ne heq).symm
    · rw [← he]
      exact (lookup_setRoom_ne s _ heq).symm

theorem State.SweptAt.evictStaleRooms {R : Bytes} (h : s.SweptAt cfg now R) (shard : Nat) :
    (s.evictStaleRooms cfg now shard).SweptAt cfg now R :=
  List.foldlRecOn _ (State.evictStaleRoom cfg now) (motive := fun s' => s'.SweptAt cfg now R) h
    fun _ h room _ => h.evictStaleRoom room

theorem shardIdx_lt (key : Bytes) : shardIdx key numShards < numShards :=
  Nat.mod_lt _ (by decide)

/-- The room is swept in the turn of its shard. -/
theorem State.evictStaleRoomsAll_swept (s : State) (R : Bytes) :
    (s.evictStaleRoomsAll cfg now).SweptAt cfg now R := by
  refine foldl_of_mem (P := fun s' : State => s'.SweptAt cfg now R) (fun s' shard h => ?_) ?_
    (List.mem_range.mpr (shardIdx_lt R)) s
  · exact h.evictStaleRooms shard
  · intro s'
    by_cases hR : R ∈ s'.rooms
    · refine foldl_of_mem (P := fun s' : State => s'.SweptAt cfg now R) (fun s' room h => ?_) ?_
        (List.mem_filter.mpr ⟨AList.mem_keys.mp hR, decide_eq_true rfl⟩) s'
      · exact h.evictStaleRoom room
      · intro s'
        exact evictStaleRoom_swept s' R
    · intro e he
      have hshrunk : Shrunk cfg now s' (s'.evictStaleRooms cfg now (shardIdx R numShards)) :=
        evictStaleRooms_shrunk _ s'
      obtain ⟨e₀, he₀, _⟩ := hshrunk.room he
      exact absurd (GoMap.mem_of_lookup he₀) hR

/-- Where the timestamp is vouched for, a room that is kept has a client. -/
theorem RoomEntry.Swept.live (h : e.Swept cfg now) (htended : e.Tended cfg now) :
    ∃ k u, e.udpClients.lookup k = some u ∧ now - u.lastSeen ≤ cfg.regTTL := by
  obtain ⟨hfresh, hkept⟩ := h
  have hclient : ∃ k, k ∈ e.udpClients := by
    rcases hkept with hclient | hrecent
    · exact hclient
    · rcases htended.2 with ⟨k, u, hu, _⟩ | hstale
      · exact ⟨k, GoMap.mem_of_lookup hu⟩
      · omega
  obtain ⟨k, hk⟩ := hclient
  obtain ⟨u, hu⟩ := GoMap.lookup_of_mem hk
  exact ⟨k, u, hu, hfresh k u hu⟩

/-! ### What a rejection has seen -/

/-- The state a capacity rejection looks at: all rooms have been swept, and then those of one shard. -/
def RoomsFull (cfg : Config) (now : Int) (s : State) : Prop :=
  ∃ s₁ shard, Removals now s s₁ ∧ s₁.rooms = s.rooms ∧
    cfg.maxRooms ≤ ((s₁.evictStaleRoomsAll cfg now).evictStaleRooms cfg now shard).totalRooms

/-- The state the cap of a prefix looks at. -/
def PrefixFull (cfg : Config) (now : Int) (ip : Bytes) (s : State) : Prop :=
  ∃ s₁, Removals now s s₁ ∧ cfg.maxRoomsPerIP ≤ s₁.counters.countIPRooms ip

/-- What the output of a `REG` says about the rooms. -/
structure Rejections (cfg : Config) (now : Int) (src : UDPAddr) (s : State) (outs : List Out) : Prop where
  rooms : Out.drop .maxRoomsReached ∈ outs → RoomsFull cfg now s
  pfx : Out.drop .roomLimitPerIP ∈ outs → PrefixFull cfg now (ipKey src.string) s

/-- The two rejections for want of room. -/
def Out.isLimit : Out → Bool
  | .drop .maxRoomsReached => true
  | .drop .roomLimitPerIP => true
  | _ => false

namespace Rejections

theorem other {o : Out} (h : o.isLimit = false) : Rejections cfg now src s [o] := by
  constructor
  · intro hmem
    rw [← List.mem_singleton.mp hmem] at h
    cases h
  · intro hmem
    rw [← List.mem_singleton.mp hmem] at h
    cases h

theorem roomLimit (hremovals : Removals now s s₁)
    (h : cfg.maxRoomsPerIP ≤ s₁.counters.countIPRooms (ipKey src.string)) :
    Rejections cfg now src s [.drop .roomLimitPerIP] :=
  ⟨fun hmem => absurd hmem (by decide), fun _ => ⟨s₁, hremovals, h⟩⟩

theorem challengeNewRoom : Rejections cfg now src s (challengeNewRoom cfg now rnd room src s).2 := by
  simp only [Relay.challengeNewRoom]
  split
  · exact roomLimit .refl ‹_›
  split
  · exact other rfl
  cases rnd with
  | none => exact other rfl
  | some cb =>
      dsimp only
      split
      · exact other rfl
      · exact other rfl

/-- A creation that finds the relay full has been behind the sweep of all rooms. -/
theorem createRoom {pend : PendingReg} (hremovals : Removals now s s₁) (hrooms : s₁.rooms = s.rooms)
    (hs' : s' = if cfg.maxRooms ≤ s₁.totalRooms then s₁.evictStaleRoomsAll cfg now else s₁) :
    Rejections cfg now src s (createRoom cfg now room src pend s').2 := by
  simp only [Relay.createRoom]
  generalize hs₂ : (if cfg.maxRooms ≤ s'.totalRooms then
    s'.evictStaleRooms cfg now (shardIdx room numShards) else s') = s₂
  have hremovals' : Removals now s s' := by
    rw [hs']
    split
    · exact hremovals.trans State.evictStaleRoomsAll_removals
    · exact hremovals
  have hremovals₂ : Removals now s s₂ := by
    rw [← hs₂]
    split
    · exact hremovals'.trans (State.evictStaleRooms_removals _)
    · exact hremovals'
  split
  · rename_i hfull
    refine ⟨fun _ => ⟨s₁, shardIdx room numShards, hremovals, hrooms, ?_⟩, fun h => ?_⟩
    · by_cases hfull' : cfg.maxRooms ≤ s'.totalRooms
      · rw [if_pos hfull'] at hs₂
        by_cases hfull₁ : cfg.maxRooms ≤ s₁.totalRooms
        · rw [if_pos hfull₁] at hs'
          rw [← hs', hs₂]
          exact hfull
        · rw [if_neg hfull₁] at hs'
          exact absurd (hs' ▸ hfull') hfull₁
      · rw [if_neg hfull'] at hs₂
        exact absurd (hs₂ ▸ hfull) hfull'
    · cases List.mem_singleton.mp h
  split
  · exact roomLimit hremovals₂ ‹_›
  · exact other rfl

theorem joinRoom {pend : PendingReg} {entry : RoomEntry} (hremovals : Removals now s s₁)
    (hroom : s₁.rooms.lookup room = some entry) :
    Rejections cfg now src s (joinRoom cfg now room src pend entry s₁).2 := by
  simp only [Relay.joinRoom]
  split
  · exact other rfl
  split
  · exact other rfl
  split
  · rename_i hfull
    exact roomLimit (hremovals.trans (State.sweep_removals hroom)) hfull.2
  · exact other rfl

theorem completePending {pend : PendingReg} {b : Bytes} :
    Rejections cfg now src s (completePending cfg now room b src pend s).2 := by
  have hdeleted : Removals now s (s.deletePendingReg room src.string) :=
    .single (.store s room src.string)
  simp only [Relay.completePending]
  split
  · exact other rfl
  split
  · exact other rfl
  generalize hs₁ : (if cfg.maxRooms ≤ (s.deletePendingReg room src.string).totalRooms then
    (s.deletePendingReg room src.string).evictStaleRoomsAll cfg now
    else s.deletePendingReg room src.string) = s₁
  cases hroom : s₁.rooms.lookup room with
  | none => exact createRoom hdeleted (State.deletePendingReg_rooms room src.string s) hs₁.symm
  | some entry =>
      refine joinRoom ?_ hroom
      rw [← hs₁]
      split
      · exact hdeleted.trans State.evictStaleRoomsAll_removals
      · exact hdeleted

theorem admitInRoom {entry : RoomEntry} {b : Bytes} (hroom : s.rooms.lookup room = some entry) :
    Rejections cfg now src s (admitInRoom cfg now room b src entry s).2 := by
  simp only [Relay.admitInRoom]
  split
  · exact other rfl
  split
  · exact other rfl
  split
  · exact other rfl
  split
  · exact other rfl
  split
  · rename_i hfull
    exact roomLimit (State.sweep_removals hroom) hfull.2.2
  · exact other rfl

theorem regInRoom {entry : RoomEntry} :
    Rejections cfg now src s (regInRoom cfg now rnd room src entry s).2 := by
  simp only [Relay.regInRoom]
  split
  · exact other rfl
  split
  · exact other rfl
  split
  · exact other rfl
  split
  · exact other rfl
  split
  · exact other rfl
  cases rnd with
  | none => exact other rfl
  | some cb =>
      dsimp only
      split
      · exact other rfl
      · exact other rfl

theorem handleRegUnlimited :
    Rejections cfg now src s (handleRegUnlimited cfg now rnd room cookie src s).2 := by
  unfold Relay.handleRegUnlimited
  split
  · split
    · exact other rfl
    cases hexDecode cookie with
    | none => exact other rfl
    | some b =>
        dsimp only
        cases s.getPendingReg room src.string with
        | some pend => exact completePending
        | none =>
            dsimp only
            cases hroom : s.rooms.lookup room with
            | none => exact challengeNewRoom
            | some entry => exact admitInRoom hroom
  · cases hroom : s.rooms.lookup room with
    | none => exact challengeNewRoom
    | some entry => exact regInRoom

theorem handleReg : Rejections cfg now src s (handleReg cfg now rnd room cookie src s).2 := by
  obtain ⟨hrooms, _, _⟩ := State.isRegRateLimited_eq cfg now (ipKey src.string) s
  have hrates : Removal now s (s.isRegRateLimited cfg now (ipKey src.string)).2 :=
    s.isRegRateLimited_removal (ipKey src.string)
  unfold Relay.handleReg
  generalize s.isRegRateLimited cfg now (ipKey src.string) = limit at *
  obtain ⟨limited, s₀⟩ := limit
  cases limited with
  | true => exact other rfl
  | false =>
      have hlater : Rejections cfg now src s₀ (Relay.handleRegUnlimited cfg now rnd room cookie src s₀).2 :=
        handleRegUnlimited
      refine ⟨fun h => ?_, fun h => ?_⟩
      · obtain ⟨s₁, shard, hremovals, hsame, hfull⟩ := hlater.rooms h
        exact ⟨s₁, shard, .head hrates hremovals, hsame.trans hrooms, hfull⟩
      · obtain ⟨s₁, hremovals, hfull⟩ := hlater.pfx h
        exact ⟨s₁, .head hrates hremovals, hfull⟩

end Rejections

/-! ### Capacity -/

/-- In every state of every run: the sweep of all rooms leaves no room without a client seen within
`regTTL`, and a cookie is rejected for lack of rooms only when that many rooms have such a client. -/
theorem capacity_rejections_justified (cfg : Config) {log : List (LogEntry Event Out)} {s : State}
    (hrun : (machine cfg).Run (fun _ _ _ => True) log s) (now : Int)
    (hclock : ∀ x ∈ log.head?, x.time ≤ now) :
    (∀ s₁ : State, s₁.rooms = s.rooms →
      ∀ R e, (s₁.evictStaleRoomsAll cfg now).rooms.lookup R = some e →
        ∃ k u, e.udpClients.lookup k = some u ∧ now - u.lastSeen ≤ cfg.regTTL) ∧
    ∀ rnd room cookie src,
      Out.drop .maxRoomsReached ∈ (handleReg cfg now rnd room cookie src s).2 →
        ∃ rooms : Finset Bytes, rooms.card = cfg.maxRooms ∧
          ∀ R ∈ rooms, ∃ k u, s.HasClient R k u ∧ now - u.lastSeen ≤ cfg.regTTL := by
  have htended : ∀ s₁ : State, s₁.rooms = s.rooms → s₁.Tended cfg now := by
    intro s₁ hrooms R e he
    exact tended_of_run hrun hclock R e (hrooms ▸ he)
  constructor
  · intro s₁ hrooms R e he
    exact (s₁.evictStaleRoomsAll_swept R e he).live
      (s₁.evictStaleRoomsAll_shrunk.tended (htended s₁ hrooms) R e he)
  · intro rnd room cookie src hdrop
    obtain ⟨s₁, shard, hremovals, hrooms, hfull⟩ := Rejections.handleReg.rooms hdrop
    generalize hs₂ : (s₁.evictStaleRoomsAll cfg now).evictStaleRooms cfg now shard = s₂ at hfull
    have hremovals₂ : Removals now s s₂ := by
      rw [← hs₂]
      exact (hremovals.trans State.evictStaleRoomsAll_removals).trans
        (State.evictStaleRooms_removals shard)
    have hshrunk : Shrunk cfg now s₁ s₂ := by
      rw [← hs₂]
      exact s₁.evictStaleRoomsAll_shrunk.trans (State.evictStaleRooms_shrunk shard _)
    have hsize : s₂.rooms.keys.toFinset.card = s₂.rooms.size :=
      List.toFinset_card_of_nodup s₂.rooms.keys_nodup
    have hexact := ((exact_of_run hrun).removals hremovals₂).rooms
    have hcap := ((capped_of_run hrun).fewer (.removals hremovals₂)).rooms
    refine ⟨s₂.rooms.keys.toFinset, ?_, fun R hR => ?_⟩
    · rw [State.totalRooms, hexact] at hfull
      omega
    · obtain ⟨e₂, he₂⟩ := GoMap.lookup_of_mem (AList.mem_keys.mpr (List.mem_toFinset.mp hR))
      have hswept : s₂.SweptAt cfg now R := by
        rw [← hs₂]
        exact (s₁.evictStaleRoomsAll_swept R).evictStaleRooms shard
      obtain ⟨k, u, hu, hfresh⟩ := (hswept e₂ he₂).live
        (hshrunk.tended (htended s₁ hrooms) R e₂ he₂)
      obtain ⟨e, he, hentry⟩ := hshrunk.room he₂
      exact ⟨k, u, ⟨e, hrooms ▸ he, hentry.client hu⟩, hfresh⟩

/-- The second port of the host has been challenged for another room while the relay was not full yet. -/
def lateCookie : List (Int × Event) := (0, strayReg 0) :: hostJoins []

/-- A relay for a single room, which has a client. -/
theorem capacity_rejection_single_room : ∃ log s,
    (machine { maxRooms := 1 }).Run (fun _ _ _ => True) log s ∧ (∀ x ∈ log.head?, x.time ≤ 1) ∧
    Out.drop .maxRoomsReached ∈ (handleReg { maxRooms := 1 } 1 none (ascii "x00")
      (hexEncode (cookieOf 9).val) ⟨[127, 0, 0, 1], 2, []⟩ s).2 ∧
    ∃ rooms : Finset Bytes, rooms.card = 1 ∧
      ∀ R ∈ rooms, ∃ k u, s.HasClient R k u ∧ 1 - u.lastSeen ≤ 60000000000 := by
  have hadm : (machine { maxRooms := 1 }).Admissible (fun _ _ _ => True) none .empty lateCookie := by
    decide +kernel
  have hrun := Machine.Run.init.execLog hadm
  have hclock : ∀ x ∈ ((machine { maxRooms := 1 }).execLog .empty lateCookie ++ []).head?, x.time ≤ 1 := by
    decide +kernel
  have hdrop : Out.drop .maxRoomsReached ∈ (handleReg { maxRooms := 1 } 1 none (ascii "x00")
      (hexEncode (cookieOf 9).val) ⟨[127, 0, 0, 1], 2, []⟩
      ((machine { maxRooms := 1 }).exec .empty lateCookie)).2 := by decide +kernel
  exact ⟨_, _, hrun, hclock, hdrop,
    (capacity_rejections_justified { maxRooms := 1 } hrun 1 hclock).2 _ _ _ _ hdrop⟩

/-! ### The rooms of a prefix -/

theorem holdsIP_iff_hasClient {ip R : Bytes} :
    (∃ e, s.rooms.lookup R = some e ∧ e.holdsIP ip = true) ↔
      ∃ k u, s.HasClient R k u ∧ ipKey k = ip := by
  simp only [RoomEntry.holdsIP_iff]
  constructor
  · intro h
    obtain ⟨e, he, k, hk, hip⟩ := h
    obtain ⟨u, hu⟩ := GoMap.lookup_of_mem hk
    exact ⟨k, u, ⟨e, he, hu⟩, hip⟩
  · intro h
    obtain ⟨k, u, ⟨e, he, hu⟩, hip⟩ := h
    exact ⟨e, he, k, GoMap.mem_of_lookup hu, hip⟩

/-- In every state of every run and for every `REG` that the cap of its prefix rejects: there are as many
rooms as the cap with a client of the prefix that has been seen within `regTTL`, if and only if there is no
room in which all clients of the prefix have expired. -/
theorem prefix_rejection_justified_iff (cfg : Config) {log : List (LogEntry Event Out)} {s : State}
    (hrun : (machine cfg).Run (fun _ _ _ => True) log s) (now : Int) (rnd : Option Cookie)
    (room cookie : Bytes) (src : UDPAddr)
    (hdrop : Out.drop .roomLimitPerIP ∈ (handleReg cfg now rnd room cookie src s).2) :
    (∃ rooms : Finset Bytes, cfg.maxRoomsPerIP ≤ rooms.card ∧ ∀ R ∈ rooms, ∃ k u,
      s.HasClient R k u ∧ ipKey k = ipKey src.string ∧ now - u.lastSeen ≤ cfg.regTTL) ↔
    ∀ R k u, s.HasClient R k u → ipKey k = ipKey src.string → ∃ k' u',
      s.HasClient R k' u' ∧ ipKey k' = ipKey src.string ∧ now - u'.lastSeen ≤ cfg.regTTL := by
  obtain ⟨s₁, hremovals, hfull⟩ := Rejections.handleReg.pfx hdrop
  have hexact := exact_of_run hrun
  have hcap := (capped_of_run hrun).ipRooms (ipKey src.string)
  have hheld : cfg.maxRoomsPerIP ≤ s.counters.countIPRooms (ipKey src.string) := by
    rw [(hexact.removals hremovals).countIPRooms_eq] at hfull
    rw [hexact.countIPRooms_eq]
    exact hfull.trans ((Fewer.removals hremovals).roomsForIP_le _)
  rw [← hexact.countIPRooms_eq] at hcap
  have hmem : ∀ R, R ∈ s.counters.ipSet (ipKey src.string) ↔
      ∃ k u, s.HasClient R k u ∧ ipKey k = ipKey src.string := by
    intro R
    rw [hexact.ipRooms, holdsIP_iff_hasClient]
  constructor
  · intro h R k u hclient hip
    obtain ⟨rooms, hcard, hlive⟩ := h
    -- the cap leaves no space for a room beside them
    have hsub : rooms ⊆ s.counters.ipSet (ipKey src.string) := by
      intro R hR
      obtain ⟨k, u, hclient, hip, _⟩ := hlive R hR
      exact (hmem R).mpr ⟨k, u, hclient, hip⟩
    have hall := Finset.eq_of_subset_of_card_le hsub (hcap.trans hcard)
    apply hlive R
    rw [hall]
    exact (hmem R).mpr ⟨k, u, hclient, hip⟩
  · intro h
    refine ⟨s.counters.ipSet (ipKey src.string), hheld, fun R hR => ?_⟩
    obtain ⟨k, u, hclient, hip⟩ := (hmem R).mp hR
    exact h R k u hclient hip

def State.allClients (p : UdpClient → Bool) (s : State) : Bool :=
  s.rooms.entries.all fun r => r.2.udpClients.entries.all fun c => p c.2

theorem State.HasClient.of_allClients {R k : Bytes} {u : UdpClient} {p : UdpClient → Bool}
    (hclient : s.HasClient R k u) (h : s.allClients p = true) : p u = true := by
  obtain ⟨e, he, hu⟩ := hclient
  have hroom := List.all_eq_true.mp h ⟨R, e⟩ (AList.mem_lookup_iff.mp he)
  exact List.all_eq_true.mp hroom ⟨k, u⟩ (AList.mem_lookup_iff.mp hu)

/-- The answer to the challenge of `strayReg`. -/
def strayAnswer (n : Nat) : Event :=
  .packet (ascii "REG x" ++ [UInt8.ofNat (48 + n / 10), UInt8.ofNat (48 + n % 10), 32] ++
    hexEncode (cookieOf 9).val ++ [10]) ⟨[127, 0, 0, 1], 2, []⟩ none

/-- One port makes ten rooms, one every two seconds, and then is not heard of any more. The clean-up after a
minute finds none of them stale. -/
def tenRooms : List (Int × Event) :=
  (List.range 10).flatMap (fun (i : Nat) => [((i : Int) * 2000000000 + 1, strayReg i),
    ((i : Int) * 2000000000 + 1, strayAnswer i)]) ++ [(60000000000, .roomTick)]

theorem run_tenRooms : (machine .default).Run (fun _ _ _ => True)
    ((machine .default).execLog .empty tenRooms ++ []) ((machine .default).exec .empty tenRooms) := by
  apply Machine.Run.init.execLog
  decide +kernel

/-- The host asks for one more room. -/
def eleventh (now : Int) : State × List Out :=
  handleReg .default now (some (cookieOf 9)) (ascii "x10") [] ⟨[127, 0, 0, 1], 2, []⟩
    ((machine .default).exec .empty tenRooms)

/-- Right after the minute, all ten rooms are in use. -/
theorem prefix_rejection_in_time : ∃ log s,
    (machine .default).Run (fun _ _ _ => True) log s ∧
    Out.drop .roomLimitPerIP ∈ (handleReg .default 60000000001 (some (cookieOf 9)) (ascii "x10") []
      ⟨[127, 0, 0, 1], 2, []⟩ s).2 ∧
    ∃ rooms : Finset Bytes, 10 ≤ rooms.card ∧ ∀ R ∈ rooms, ∃ k u, s.HasClient R k u ∧
      ipKey k = ascii "127.0.0.1" ∧ 60000000001 - u.lastSeen ≤ 60000000000 := by
  have hdrop : Out.drop .roomLimitPerIP ∈ (eleventh 60000000001).2 := by decide +kernel
  have hfresh : ((machine .default).exec .empty tenRooms).allClients
      (fun u => 60000000001 - u.lastSeen ≤ 60000000000) = true := by decide +kernel
  have hiff := prefix_rejection_justified_iff .default run_tenRooms 60000000001 (some (cookieOf 9))
    (ascii "x10") [] ⟨[127, 0, 0, 1], 2, []⟩ hdrop
  refine ⟨_, _, run_tenRooms, hdrop, ?_⟩
  obtain ⟨rooms, hcard, hlive⟩ := hiff.mpr fun R k u hclient hip =>
    ⟨k, u, hclient, hip, of_decide_eq_true (hclient.of_allClients hfresh)⟩
  have hkey : ipKey (UDPAddr.string ⟨[127, 0, 0, 1], 2, []⟩) = ascii "127.0.0.1" := by decide +kernel
  rw [hkey] at hlive
  exact ⟨rooms, hcard, hlive⟩

/-- Forty seconds later nobody has been seen within the minute, and the cap still rejects. -/
theorem prefix_rejection_of_expired : ∃ log s,
    (machine .default).Run (fun _ _ _ => True) log s ∧ (∀ x ∈ log.head?, x.time ≤ 100000000000) ∧
    Out.drop .roomLimitPerIP ∈ (handleReg .default 100000000000 (some (cookieOf 9)) (ascii "x10") []
      ⟨[127, 0, 0, 1], 2, []⟩ s).2 ∧
    ¬ ∃ rooms : Finset Bytes, Config.default.maxRoomsPerIP ≤ rooms.card ∧ ∀ R ∈ rooms, ∃ k u,
      s.HasClient R k u ∧ ipKey k = ipKey (UDPAddr.string ⟨[127, 0, 0, 1], 2, []⟩) ∧
        100000000000 - u.lastSeen ≤ Config.default.regTTL := by
  have hdrop : Out.drop .roomLimitPerIP ∈ (eleventh 100000000000).2 := by decide +kernel
  have hstale : ((machine .default).exec .empty tenRooms).allClients
      (fun u => Config.default.regTTL < 100000000000 - u.lastSeen) = true := by decide +kernel
  refine ⟨_, _, run_tenRooms, by decide +kernel, hdrop, fun h => ?_⟩
  obtain ⟨rooms, hcard, hlive⟩ := h
  have hroom : rooms.Nonempty := Finset.card_pos.mp (lt_of_lt_of_le (by decide) hcard)
  obtain ⟨R, hR⟩ := hroom
  obtain ⟨k, u, hclient, _, hfresh⟩ := hlive R hR
  exact absurd hfresh (Int.not_le.mpr (of_decide_eq_true (hclient.of_allClients hstale)))

end Qvole.Relay
