import Qvole.Relay.Sweep

/-!
# What a datagram can do

`RegOutcome` lists everything `handleReg` can do with a registration. A handler sweeps, which leads to
a `Shrunk` state `s₁`, and then either gives up or makes one change to it: it creates the room, lets
the source into it by way of the pending store or of the room's own pending map, refreshes a client,
or leaves a pending registration behind and challenges the source. Invariants of the relay are proved
by going through the constructors, never by unfolding the handlers again. `MsgOutcome` does the same
for `handleMsg`, where the only change is to the rate limit of the sender.
-/

namespace Qvole.Relay

open Lib

variable (cfg : Config) (now : Int)

/-- The room as its first client creates it. -/
def firstEntry (srcStr : Bytes) (addr : UDPAddr) : RoomEntry where
  udpClients := AList.singleton srcStr (newClient now addr)
  pending := ∅
  pendingByIP := ∅
  t := now
  nextPendingSweep := none

def RoomEntry.letIn (srcStr : Bytes) (addr : UDPAddr) (e : RoomEntry) : RoomEntry :=
  { e with udpClients := e.udpClients.insert srcStr (newClient now addr), t := now }

def RoomEntry.refresh (srcStr : Bytes) (addr : UDPAddr) (u : UdpClient) (e : RoomEntry) :
    RoomEntry :=
  { e with
    udpClients := e.udpClients.insert srcStr { u with lastSeen := now, resolvedAddr := addr } }

/-- A cookie text that completes a pending registration in time. -/
def Completes (cookie : Bytes) (pend : PendingReg) : Prop :=
  hexDecode cookie = some pend.cookie.val ∧ now - pend.createdAt ≤ pendingRegTTL

inductive RegOutcome (rnd : Option Cookie) (room cookie : Bytes) (src : UDPAddr) (s : State) :
    State → List Out → Prop
  | dropped {s₁ : State} {outs : List Out} (hshrunk : Shrunk cfg now s s₁)
      (hsilent : ∀ msg addr, Out.write msg addr ∉ outs) :
      RegOutcome rnd room cookie src s s₁ outs
  | created {s₁ : State} {pend : PendingReg} {c : Counters} (hshrunk : Shrunk cfg now s s₁)
      (hpend : s.getPendingReg room src.string = some pend) (hcompletes : Completes now cookie pend)
      (hnone : s₁.rooms.lookup room = none) :
      RegOutcome rnd room cookie src s
        (s₁.setRoom room (firstEntry now src.string pend.resolvedAddr, c)) (sendREGD room src)
  | joined {s₁ : State} {pend : PendingReg} {e : RoomEntry} {c : Counters}
      (hshrunk : Shrunk cfg now s s₁) (hpend : s.getPendingReg room src.string = some pend)
      (hcompletes : Completes now cookie pend) (he : s₁.rooms.lookup room = some e)
      (hpfx : src.string ∈ e.udpClients ∨
        e.countPrefixClients (ipKey src.string) < cfg.maxClientsPerPrefixPerRoom) :
      RegOutcome rnd room cookie src s
        (s₁.setRoom room (e.letIn now src.string pend.resolvedAddr, c)) (sendREGD room src)
  | admitted {s₁ : State} {entry e : RoomEntry} {pend : PendingReg} {c : Counters}
      {m : GoMap Bytes Int} (hshrunk : Shrunk cfg now s s₁)
      (hstore : s.getPendingReg room src.string = none)
      (hroom : s.rooms.lookup room = some entry)
      (hpend : entry.pending.lookup src.string = some pend)
      (hcompletes : Completes now cookie pend)
      (hswept : e = (RoomEntry.sweep cfg room now (entry, s.counters)).1)
      (he : s₁.rooms.lookup room = some e)
      (hhard : src.string ∈ e.udpClients ∨ e.udpClients.size < cfg.maxClientsHard) :
      RegOutcome rnd room cookie src s
        (s₁.setRoom room ({ e.letIn now src.string pend.resolvedAddr with
          pending := e.pending.erase src.string, pendingByIP := m }, c)) (sendREGD room src)
  | refreshed {s₁ : State} {e : RoomEntry} {u : UdpClient} {c : Counters}
      (hshrunk : Shrunk cfg now s s₁) (hcookie : cookie = [])
      (he : s₁.rooms.lookup room = some e) (hu : e.udpClients.lookup src.string = some u) :
      RegOutcome rnd room cookie src s
        (s₁.setRoom room (e.refresh now src.string src u, c)) (sendREGD room src)
  | challengedStore {s₁ : State} {cb : Cookie} {c : Counters} (hshrunk : Shrunk cfg now s s₁)
      (hrnd : rnd = some cb) (hnone : s₁.rooms.lookup room = none) :
      RegOutcome rnd room cookie src s
        { s₁ with
          pendingRegs := s₁.pendingRegs.insert (room, src.string) ⟨cb, now, src⟩
          counters := c } (sendRegChallenge room cb src)
  | renewed {s₁ : State} {e : RoomEntry} {pend : PendingReg} {c : Counters}
      (hshrunk : Shrunk cfg now s s₁) (hcookie : cookie = [])
      (he : s₁.rooms.lookup room = some e) (hpend : e.pending.lookup src.string = some pend) :
      RegOutcome rnd room cookie src s
        (s₁.setRoom room ({ e with
          pending := e.pending.insert src.string ⟨pend.cookie, now, src⟩ }, c))
        (sendRegChallenge room pend.cookie src)
  | challengedRoom {s₁ : State} {e : RoomEntry} {cb : Cookie} {c : Counters}
      {m : GoMap Bytes Int} (hshrunk : Shrunk cfg now s s₁) (hrnd : rnd = some cb) (hcookie : cookie = [])
      (he : s₁.rooms.lookup room = some e) :
      RegOutcome rnd room cookie src s
        (s₁.setRoom room ({ e with
          pending := e.pending.insert src.string ⟨cb, now, src⟩, pendingByIP := m }, c))
        (sendRegChallenge room cb src)

variable {cfg now} {rnd : Option Cookie} {room cookie : Bytes} {src : UDPAddr} {s : State}

theorem silent_drop (why : Drop) (msg : Bytes) (addr : UDPAddr) :
    Out.write msg addr ∉ [Out.drop why] := by
  simp

theorem silent_randFailed (msg : Bytes) (addr : UDPAddr) :
    Out.write msg addr ∉ [Out.randFailed] := by
  simp

theorem challengeNewRoom_outcome (hnone : s.rooms.lookup room = none) :
    RegOutcome cfg now rnd room cookie src s (challengeNewRoom cfg now rnd room src s).1
      (challengeNewRoom cfg now rnd room src s).2 := by
  unfold challengeNewRoom
  dsimp only
  split
  · exact .dropped (.refl s) (silent_drop _)
  split
  · exact .dropped (.refl s) (silent_drop _)
  cases rnd with
  | none => exact .dropped (.refl s) silent_randFailed
  | some cb =>
      dsimp only
      unfold State.storePendingReg
      split_ifs with hmem hfull
      · exact .challengedStore (c := s.counters) (.refl s) rfl hnone
      · exact .dropped (.refl s) (silent_drop _)
      · exact .challengedStore (.refl s) rfl hnone

/-- The pending store decided: whatever was swept since, the registration creates the room or joins
it. -/
theorem createRoom_outcome {pend : PendingReg} {s₁ : State} (hshrunk : Shrunk cfg now s s₁)
    (hpend : s.getPendingReg room src.string = some pend) (hcompletes : Completes now cookie pend)
    (hnone : s₁.rooms.lookup room = none) :
    RegOutcome cfg now rnd room cookie src s (createRoom cfg now room src pend s₁).1
      (createRoom cfg now room src pend s₁).2 := by
  unfold createRoom
  dsimp only
  generalize hs₂ : (if cfg.maxRooms ≤ s₁.totalRooms then
    s₁.evictStaleRooms cfg now (shardIdx room numShards) else s₁) = s₂
  have hevicted : Shrunk cfg now s₁ s₂ := by
    rw [← hs₂]
    split
    · exact State.evictStaleRooms_shrunk _ s₁
    · exact .refl s₁
  have hnone₂ : s₂.rooms.lookup room = none := by
    cases h : s₂.rooms.lookup room with
    | none => rfl
    | some e =>
        obtain ⟨e₁, he₁, _⟩ := hevicted.room h
        rw [hnone] at he₁
        cases he₁
  split
  · exact .dropped (hshrunk.trans hevicted) (silent_drop _)
  split
  · exact .dropped (hshrunk.trans hevicted) (silent_drop _)
  exact .created (hshrunk.trans hevicted) hpend hcompletes hnone₂

theorem joinRoom_outcome {pend : PendingReg} {entry : RoomEntry} {s₁ : State}
    (hshrunk : Shrunk cfg now s s₁) (hpend : s.getPendingReg room src.string = some pend)
    (hcompletes : Completes now cookie pend) (hentry : s₁.rooms.lookup room = some entry) :
    RegOutcome cfg now rnd room cookie src s (joinRoom cfg now room src pend entry s₁).1
      (joinRoom cfg now room src pend entry s₁).2 := by
  unfold joinRoom
  dsimp only
  generalize hsweep : RoomEntry.sweep cfg room now (entry, s₁.counters) = e
  have hswept : Shrunk cfg now s (s₁.setRoom room e) := by
    refine hshrunk.trans (Shrunk.setRoom hentry ?_)
    rw [← hsweep]
    exact RoomEntry.sweep_shrunk room (entry, s₁.counters)
  split
  · exact .dropped hswept (silent_drop _)
  split
  · exact .dropped hswept (silent_drop _)
  rename_i hpfx
  split
  · exact .dropped hswept (silent_drop _)
  rw [← State.setRoom_setRoom s₁ room e]
  refine .joined hswept hpend hcompletes (State.lookup_setRoom s₁ room e) ?_
  by_cases hmem : src.string ∈ e.1.udpClients
  · exact Or.inl hmem
  · exact Or.inr (Nat.lt_of_not_le fun hle => hpfx ⟨hmem, hle⟩)

theorem completePending_outcome {pend : PendingReg} {cookieBytes : Bytes}
    (hpend : s.getPendingReg room src.string = some pend)
    (hdecode : hexDecode cookie = some cookieBytes) :
    RegOutcome cfg now rnd room cookie src s (completePending cfg now room cookieBytes src pend s).1
      (completePending cfg now room cookieBytes src pend s).2 := by
  unfold completePending
  have hdeleted : Shrunk cfg now s (s.deletePendingReg room src.string) :=
    State.deletePendingReg_shrunk room src.string s
  split
  · exact .dropped (.refl s) (silent_drop _)
  rename_i hcookie
  split
  · exact .dropped hdeleted (silent_drop _)
  rename_i hfresh
  have hcompletes : Completes now cookie pend := by
    refine ⟨?_, by omega⟩
    rw [hdecode, not_not.mp hcookie]
  dsimp only
  generalize hs₁ : (if cfg.maxRooms ≤ (s.deletePendingReg room src.string).totalRooms then
    (s.deletePendingReg room src.string).evictStaleRoomsAll cfg now
    else s.deletePendingReg room src.string) = s₁
  have hshrunk : Shrunk cfg now s s₁ := by
    rw [← hs₁]
    split
    · exact hdeleted.trans (State.evictStaleRoomsAll_shrunk _)
    · exact hdeleted
  cases hlook : s₁.rooms.lookup room with
  | none => exact createRoom_outcome hshrunk hpend hcompletes hlook
  | some entry => exact joinRoom_outcome hshrunk hpend hcompletes hlook

theorem admitInRoom_outcome {entry : RoomEntry} {cookieBytes : Bytes}
    (hstore : s.getPendingReg room src.string = none) (hroom : s.rooms.lookup room = some entry)
    (hdecode : hexDecode cookie = some cookieBytes) :
    RegOutcome cfg now rnd room cookie src s (admitInRoom cfg now room cookieBytes src entry s).1
      (admitInRoom cfg now room cookieBytes src entry s).2 := by
  unfold admitInRoom
  dsimp only
  cases hpend : entry.pending.lookup src.string with
  | none => exact .dropped (.refl s) (silent_drop _)
  | some pend =>
      dsimp only
      split
      · exact .dropped (.refl s) (silent_drop _)
      rename_i hcookie
      split
      · rename_i hexpired
        refine .dropped (Shrunk.setRoom hroom ?_) (silent_drop _)
        obtain ⟨byIP, c, heq⟩ := RoomEntry.removePending_eq (entry, s.counters) src.string
        rw [heq]
        refine ⟨id, fun {k p} hk => ?_, fun h _ => h, fun {k p} hk hfresh => ?_, rfl⟩
        · rw [GoMap.lookup_erase_if] at hk
          split at hk
          · cases hk
          · exact hk
        · rw [GoMap.lookup_erase_if, if_neg]
          · exact hk
          · rintro rfl
            rw [hpend] at hk
            cases hk
            omega
      rename_i hfresh
      generalize hsweep : RoomEntry.sweep cfg room now (entry, s.counters) = e
      have hswept : Shrunk cfg now s (s.setRoom room e) := by
        refine Shrunk.setRoom hroom ?_
        rw [← hsweep]
        exact RoomEntry.sweep_shrunk room (entry, s.counters)
      split
      · exact .dropped hswept (silent_drop _)
      rename_i hhard
      split
      · exact .dropped hswept (silent_drop _)
      obtain ⟨byIP, c, heq⟩ := RoomEntry.removePending_eq e src.string
      rw [heq, ← State.setRoom_setRoom s room e]
      have hcompletes : Completes now cookie pend := by
        refine ⟨?_, by omega⟩
        rw [hdecode, not_not.mp hcookie]
      refine .admitted hswept hstore hroom hpend hcompletes (congrArg Prod.fst hsweep.symm)
        (State.lookup_setRoom s room e) ?_
      by_cases hmem : src.string ∈ e.1.udpClients
      · exact Or.inl hmem
      · exact Or.inr (Nat.lt_of_not_le fun hle => hhard ⟨hle, hmem⟩)

theorem regInRoom_outcome {entry : RoomEntry} (hcookie : cookie = [])
    (hroom : s.rooms.lookup room = some entry) :
    RegOutcome cfg now rnd room cookie src s (regInRoom cfg now rnd room src entry s).1
      (regInRoom cfg now rnd room src entry s).2 := by
  unfold regInRoom
  dsimp only
  generalize hsweep : RoomEntry.sweep cfg room now (entry, s.counters) = e
  have hswept : Shrunk cfg now s (s.setRoom room e) := by
    refine Shrunk.setRoom hroom ?_
    rw [← hsweep]
    exact RoomEntry.sweep_shrunk room (entry, s.counters)
  have he := State.lookup_setRoom s room e
  split
  · exact .dropped hswept (silent_drop _)
  cases hclient : e.1.udpClients.lookup src.string with
  | some u =>
      dsimp only
      rw [← State.setRoom_setRoom s room e]
      exact .refreshed hswept hcookie he hclient
  | none =>
      dsimp only
      split
      · exact .dropped hswept (silent_drop _)
      cases hpend : e.1.pending.lookup src.string with
      | some pend =>
          dsimp only
          rw [← State.setRoom_setRoom s room e]
          exact .renewed hswept hcookie he hpend
      | none =>
          dsimp only
          split
          · exact .dropped hswept (silent_drop _)
          cases rnd with
          | none => exact .dropped hswept silent_randFailed
          | some cb =>
              dsimp only
              unfold RoomEntry.addPending
              split_ifs with hmem hfull
              · dsimp only
                rw [← State.setRoom_setRoom s room e]
                exact .challengedRoom (m := e.1.pendingByIP) hswept rfl hcookie he
              · exact .dropped hswept (silent_drop _)
              · dsimp only
                rw [← State.setRoom_setRoom s room e]
                exact .challengedRoom hswept rfl hcookie he

theorem handleRegUnlimited_outcome :
    RegOutcome cfg now rnd room cookie src s (handleRegUnlimited cfg now rnd room cookie src s).1
      (handleRegUnlimited cfg now rnd room cookie src s).2 := by
  unfold handleRegUnlimited
  split
  · split
    · exact .dropped (.refl s) (silent_drop _)
    cases hdecode : hexDecode cookie with
    | none => exact .dropped (.refl s) (silent_drop _)
    | some cookieBytes =>
        dsimp only
        cases hpend : s.getPendingReg room src.string with
        | some pend => exact completePending_outcome hpend hdecode
        | none =>
            dsimp only
            cases hroom : s.rooms.lookup room with
            | none => exact challengeNewRoom_outcome hroom
            | some entry => exact admitInRoom_outcome hpend hroom hdecode
  · rename_i hempty
    have hcookie : cookie = [] := List.length_eq_zero_iff.mp (by omega)
    cases hroom : s.rooms.lookup room with
    | none => exact challengeNewRoom_outcome hroom
    | some entry => exact regInRoom_outcome hcookie hroom

/-- Counting the `REG` before it is handled adds nothing to what can happen. -/
theorem RegOutcome.of_limited {s₀ s' : State} {outs : List Out} (hrooms : s₀.rooms = s.rooms)
    (hstore : s₀.pendingRegs = s.pendingRegs) (hcounters : s₀.counters = s.counters)
    (h : RegOutcome cfg now rnd room cookie src s₀ s' outs) :
    RegOutcome cfg now rnd room cookie src s s' outs := by
  have hcounted : Shrunk cfg now s s₀ := .of_eq hrooms hstore
  have hget : s₀.getPendingReg room src.string = s.getPendingReg room src.string := by
    rw [State.getPendingReg, State.getPendingReg, hstore]
  cases h with
  | dropped hshrunk hsilent => exact .dropped (hcounted.trans hshrunk) hsilent
  | created hshrunk hpend hcompletes hnone =>
      exact .created (hcounted.trans hshrunk) (hget ▸ hpend) hcompletes hnone
  | joined hshrunk hpend hcompletes he hpfx =>
      exact .joined (hcounted.trans hshrunk) (hget ▸ hpend) hcompletes he hpfx
  | admitted hshrunk hnone hroom hpend hcompletes hswept he hhard =>
      exact .admitted (hcounted.trans hshrunk) (hget ▸ hnone) (hrooms ▸ hroom) hpend hcompletes
        (hcounters ▸ hswept) he hhard
  | refreshed hshrunk hcookie he hu => exact .refreshed (hcounted.trans hshrunk) hcookie he hu
  | challengedStore hshrunk hrnd hnone =>
      exact .challengedStore (hcounted.trans hshrunk) hrnd hnone
  | renewed hshrunk hcookie he hpend => exact .renewed (hcounted.trans hshrunk) hcookie he hpend
  | challengedRoom hshrunk hrnd hcookie he =>
      exact .challengedRoom (hcounted.trans hshrunk) hrnd hcookie he

variable (cfg now rnd room cookie src s) in
/-- A `REG` over the rate limit changes nothing; any other has one of the outcomes. -/
theorem handleReg_cases :
    ((s.isRegRateLimited cfg now (ipKey src.string)).1 = true ∧
      handleReg cfg now rnd room cookie src s = (s, [.drop .rateLimitedReg])) ∨
    ((s.isRegRateLimited cfg now (ipKey src.string)).1 = false ∧
      RegOutcome cfg now rnd room cookie src s (handleReg cfg now rnd room cookie src s).1
        (handleReg cfg now rnd room cookie src s).2) := by
  obtain ⟨hrooms, hstore, hcounters⟩ :=
    State.isRegRateLimited_eq cfg now (ipKey src.string) s
  have hlimited := State.isRegRateLimited_limited cfg now (ipKey src.string) s
  unfold handleReg
  generalize s.isRegRateLimited cfg now (ipKey src.string) = limit at *
  obtain ⟨limited, s₀⟩ := limit
  cases limited with
  | true => exact Or.inl ⟨rfl, by rw [show s₀ = s from hlimited rfl]⟩
  | false => exact Or.inr ⟨rfl, .of_limited hrooms hstore hcounters handleRegUnlimited_outcome⟩

/-! ### Messages -/

/-- What a `MSG` can do: nothing, or count against its sender and go to the other clients. -/
inductive MsgOutcome (room phase body : Bytes) (src : UDPAddr) (s : State) :
    State → List Out → Prop
  | ignored (why : Drop) : MsgOutcome room phase body src s s [.drop why]
  | counted {entry : RoomEntry} {u : UdpClient} {outs : List Out} (r : RateLimiter)
      (hroom : s.rooms.lookup room = some entry)
      (hu : entry.udpClients.lookup src.string = some u)
      (hwrites : ∀ msg addr, Out.write msg addr ∈ outs →
        msg = msgdLine phase body ∧ ∃ k v, k ≠ src.string ∧ entry.udpClients.lookup k = some v ∧
          addr = v.resolvedAddr) :
      MsgOutcome room phase body src s
        (s.setRoom room ({ entry with
          udpClients := entry.udpClients.insert src.string { u with rateLimiter := r } },
          s.counters)) outs

theorem forwardMsg_outcome {phase body : Bytes} :
    MsgOutcome room phase body src s (forwardMsg cfg now room phase body src s).1
      (forwardMsg cfg now room phase body src s).2 := by
  unfold forwardMsg
  dsimp only
  cases hroom : s.rooms.lookup room with
  | none => exact .ignored _
  | some entry =>
      dsimp only
      cases hu : entry.udpClients.lookup src.string with
      | none => exact .ignored _
      | some u =>
          dsimp only
          split
          · exact .counted _ hroom hu fun msg addr h => absurd h (silent_drop _ msg addr)
          · refine .counted _ hroom hu fun msg addr h => ?_
            obtain ⟨⟨k, v⟩, hmem, heq⟩ := List.mem_map.mp h
            obtain ⟨hentry, hne⟩ := List.mem_filter.mp hmem
            injection heq with hmsg haddr
            exact ⟨hmsg.symm, k, v, of_decide_eq_true hne, AList.mem_lookup_iff.mpr hentry,
              haddr.symm⟩

/-! ### Datagrams -/

/-- The room and the cookie of a datagram that reaches `handleReg`. -/
def parseReg (data : Bytes) : Option (Bytes × Bytes) :=
  let trimmed := trimSpace data
  let fields := regFields (trimmed.drop cmdPrefixLen)
  if data.length ≠ 0 ∧ data.length ≤ maxDatagramLen ∧ trimmed.take cmdPrefixLen = ascii "REG " ∧
      validRoomName fields.1 then
    some fields
  else none

/-- The room, the phase and the body of a message that reaches `forwardMsg`. -/
def msgFields (payload : Bytes) : Option (Bytes × Bytes × Bytes) :=
  match splitN 32 3 payload with
  | [room, phase, body] =>
    if (phase = ascii "spake2" ∨ phase = ascii "confirm") ∧ validRoomName room ∧
        isValidHex body ∧ body.length ≤ maxMSGBodyLen then
      some (room, phase, body)
    else none
  | _ => none

def parseMsg (data : Bytes) : Option (Bytes × Bytes × Bytes) :=
  let trimmed := trimSpace data
  if data.length ≠ 0 ∧ data.length ≤ maxDatagramLen ∧ trimmed.take cmdPrefixLen = ascii "MSG " then
    msgFields (trimmed.drop cmdPrefixLen)
  else none

theorem handleMsg_cases (payload : Bytes) :
    (∃ room phase body, msgFields payload = some (room, phase, body) ∧
      handleMsg cfg now payload src s = forwardMsg cfg now room phase body src s) ∨
    ∃ why, handleMsg cfg now payload src s = (s, [.drop why]) := by
  unfold handleMsg msgFields
  generalize splitN 32 3 payload = parts
  rcases parts with _ | ⟨room, _ | ⟨phase, _ | ⟨body, _ | ⟨extra, parts⟩⟩⟩⟩
  all_goals try exact Or.inr ⟨_, rfl⟩
  dsimp only
  by_cases hphase : phase ≠ ascii "spake2" ∧ phase ≠ ascii "confirm"
  · rw [if_pos hphase]
    exact Or.inr ⟨_, rfl⟩
  by_cases hvalid : ¬ validRoomName room
  · rw [if_neg hphase, if_pos hvalid]
    exact Or.inr ⟨_, rfl⟩
  by_cases hbody : ¬ isValidHex body ∨ maxMSGBodyLen < body.length
  · rw [if_neg hphase, if_neg hvalid, if_pos hbody]
    exact Or.inr ⟨_, rfl⟩
  refine Or.inl ⟨room, phase, body, if_pos ?_, ?_⟩
  · rw [not_and_or, not_not, not_not] at hphase
    rw [not_or, not_not, not_lt] at hbody
    exact ⟨hphase, not_not.mp hvalid, hbody⟩
  · rw [if_neg hphase, if_neg hvalid, if_neg hbody]

theorem handlePacket_of_parseReg {data : Bytes} (h : parseReg data = some (room, cookie)) :
    handlePacket cfg now rnd data src s = handleReg cfg now rnd room cookie src s := by
  unfold parseReg at h
  dsimp only at h
  split at h
  · rename_i hok
    obtain ⟨hne, hlen, hpfx, hvalid⟩ := hok
    have hnonempty : ¬ (regFields ((trimSpace data).drop cmdPrefixLen)).1.length = 0 := by
      intro hzero
      simp [validRoomName, hzero] at hvalid
    unfold handlePacket
    dsimp only
    rw [if_neg (by omega), if_pos hpfx, if_neg hnonempty, if_neg (not_not.mpr hvalid),
      Option.some.inj h]
  · cases h

theorem handlePacket_cases (data : Bytes) :
    (∃ room cookie, parseReg data = some (room, cookie) ∧
      handlePacket cfg now rnd data src s = handleReg cfg now rnd room cookie src s) ∨
    (∃ room phase body, parseMsg data = some (room, phase, body) ∧
      handlePacket cfg now rnd data src s = forwardMsg cfg now room phase body src s) ∨
    ∃ why, handlePacket cfg now rnd data src s = (s, [.drop why]) := by
  cases hreg : parseReg data with
  | some fields => exact Or.inl ⟨fields.1, fields.2, rfl, handlePacket_of_parseReg hreg⟩
  | none =>
      refine Or.inr ?_
      unfold parseReg at hreg
      dsimp only at hreg
      unfold handlePacket
      dsimp only
      split
      · exact Or.inr ⟨_, rfl⟩
      rename_i hlen
      split
      · rename_i hpfx
        split
        · exact Or.inr ⟨_, rfl⟩
        split
        · exact Or.inr ⟨_, rfl⟩
        rename_i hvalid
        rw [if_pos ⟨by omega, by omega, hpfx, not_not.mp hvalid⟩] at hreg
        cases hreg
      split
      · rename_i hpfx
        rw [parseMsg, if_pos ⟨by omega, by omega, hpfx⟩]
        exact handleMsg_cases _
      · exact Or.inr ⟨_, rfl⟩

variable (cfg now s) in
/-- All that one input can do to the relay. -/
theorem step_cases (e : Event) :
    (∃ data src rnd room cookie, e = .packet data src rnd ∧ parseReg data = some (room, cookie) ∧
      (s.isRegRateLimited cfg now (ipKey src.string)).1 = false ∧
      RegOutcome cfg now rnd room cookie src s (step cfg now s e).1 (step cfg now s e).2) ∨
    (∃ data src rnd room phase body, e = .packet data src rnd ∧
      parseMsg data = some (room, phase, body) ∧
      MsgOutcome room phase body src s (step cfg now s e).1 (step cfg now s e).2) ∨
    (Shrunk cfg now s (step cfg now s e).1 ∧ ∀ msg addr, Out.write msg addr ∉ (step cfg now s e).2) := by
  cases e with
  | packet data src rnd =>
      rcases handlePacket_cases data with ⟨room, cookie, hparse, heq⟩ |
        ⟨room, phase, body, hparse, heq⟩ | ⟨why, heq⟩
      · rw [step, heq]
        rcases handleReg_cases cfg now rnd room cookie src s with ⟨_, hlimited⟩ | ⟨hlimit, houtcome⟩
        · rw [hlimited]
          exact Or.inr (Or.inr ⟨.refl s, silent_drop _⟩)
        · exact Or.inl ⟨data, src, rnd, room, cookie, rfl, hparse, hlimit, houtcome⟩
      · rw [step, heq]
        exact Or.inr (Or.inl ⟨data, src, rnd, room, phase, body, rfl, hparse, forwardMsg_outcome⟩)
      · rw [step, heq]
        exact Or.inr (Or.inr ⟨.refl s, silent_drop _⟩)
  | rateTick =>
      obtain ⟨hrooms, hstore, _⟩ := State.cleanupRateMaps_eq cfg now s
      exact Or.inr (Or.inr ⟨.of_eq hrooms hstore, fun _ _ => List.not_mem_nil⟩)
  | roomTick => exact Or.inr (Or.inr ⟨State.cleanupRooms_shrunk s, fun _ _ => List.not_mem_nil⟩)

end Qvole.Relay
