import Qvole.Relay.Caps

/-!
# How many pending registrations one prefix has

The pending registrations of a prefix are spread over the store and the rooms. A registration that goes
into the store is checked against what the store has of the prefix, and one that goes into a room against
the store and that room. Neither check sees the other rooms, and the first one sees no room at all.
`undercounts` is the step in which that makes the difference: all checks pass, and the prefix has
everything it may have already. In every run without such a step the cap holds for the store and all rooms
together, and each such step breaks it.
-/

namespace Qvole.Relay

open Lib

/-- How many pending registrations the prefix has, in the store and in all rooms. -/
def State.pendingForIP (ip : Bytes) (s : State) : Nat :=
  s.storedForIP ip + s.rooms.total fun _ e => e.pendingForIP ip

/-- The datagram is a `REG` within the rate limit that passes all checks on the way of a new pending
registration into the store or into the swept room, and the pending registrations of the prefix, all of
them counted, have reached the cap. -/
def undercounts (cfg : Config) (s : State) (now : Int) : Event → Bool
  | .packet data src rnd =>
    match parseReg data with
    | none => false
    | some (room, cookie) =>
      let ip := ipKey src.string
      !(s.isRegRateLimited cfg now ip).1 &&
        match s.rooms.lookup room with
        | none => Storable cfg rnd room cookie src s ∧ cfg.maxPendingPerIP ≤ s.pendingForIP ip
        | some entry =>
          let e := RoomEntry.sweep cfg room now (entry, s.counters)
          Pendable cfg rnd cookie src e ∧ cfg.maxPendingPerIP ≤ (s.setRoom room e).pendingForIP ip
  | _ => false

variable {cfg : Config} {now : Int} {room : Bytes} {src : UDPAddr} {s s₁ s' : State} {e : RoomEntry}
  {p : RoomEntry × Counters}

theorem Fewer.pendingForIP_le (h : Fewer s s') (ip : Bytes) : s'.pendingForIP ip ≤ s.pendingForIP ip := by
  refine Nat.add_le_add (h.storedForIP_le ip) (GoMap.total_mono fun R e' he' => ?_)
  obtain ⟨e, he, _, hpending⟩ := h.room he'
  exact ⟨e, he, GoMap.count_mono _ hpending⟩

theorem State.pendingForIP_congr (hrooms : s'.rooms = s.rooms) (hstore : s'.pendingRegs = s.pendingRegs)
    (ip : Bytes) : s'.pendingForIP ip = s.pendingForIP ip := by
  simp only [State.pendingForIP, State.storedForIP, hrooms, hstore]

/-- A room is put back with the pending registrations of the prefix it had. -/
theorem State.pendingForIP_setRoom (hroom : s.rooms.lookup room = some e) {ip : Bytes}
    (hpending : p.1.pendingForIP ip = e.pendingForIP ip) :
    (s.setRoom room p).pendingForIP ip = s.pendingForIP ip := by
  have htotal := GoMap.total_insert_of_lookup (f := fun _ e => RoomEntry.pendingForIP ip e) (v := p.1)
    hroom
  simp only [State.pendingForIP, State.setRoom, State.storedForIP]
  omega

theorem State.pendingForIP_create (hnone : s.rooms.lookup room = none) (k : Bytes) (addr : UDPAddr)
    (c : Counters) (ip : Bytes) :
    (s.setRoom room (firstEntry now k addr, c)).pendingForIP ip = s.pendingForIP ip := by
  have htotal := GoMap.total_insert_of_notMem (f := fun _ e => RoomEntry.pendingForIP ip e)
    (v := firstEntry now k addr) (AList.lookup_eq_none.mp hnone)
  have hfirst : (firstEntry now k addr).pendingForIP ip = 0 := rfl
  simp only [State.pendingForIP, State.setRoom, State.storedForIP]
  omega

theorem State.pendingForIP_store {k : Bytes} (hnew : (room, k) ∉ s.pendingRegs) (pend : PendingReg)
    (c : Counters) (ip : Bytes) :
    State.pendingForIP ip { s with pendingRegs := s.pendingRegs.insert (room, k) pend, counters := c } =
      s.pendingForIP ip + if ipKey k = ip then 1 else 0 := by
  have hcount := GoMap.count_insert_of_notMem (fun key => ipKey key.2 = ip) pend hnew
  simp only [State.pendingForIP, State.storedForIP, decide_eq_true_eq] at hcount ⊢
  omega

theorem State.pendingForIP_pend (hroom : s.rooms.lookup room = some e) {k : Bytes} (hnew : k ∉ e.pending)
    (pend : PendingReg) (byIP : GoMap Bytes Int) (c : Counters) (ip : Bytes) :
    (s.setRoom room ({ e with pending := e.pending.insert k pend, pendingByIP := byIP }, c)).pendingForIP
      ip = s.pendingForIP ip + if ipKey k = ip then 1 else 0 := by
  have hcount := GoMap.count_insert_of_notMem (fun k => ipKey k = ip) pend hnew
  have htotal := GoMap.total_insert_of_lookup (f := fun _ e => RoomEntry.pendingForIP ip e)
    (v := { e with pending := e.pending.insert k pend, pendingByIP := byIP }) hroom
  simp only [State.pendingForIP, State.setRoom, State.storedForIP, RoomEntry.pendingForIP,
    decide_eq_true_eq] at hcount htotal ⊢
  omega

/-- An addition to a state within the cap leaves the cap, unless its check undercounts. -/
theorem Addition.pendingForIP_le {data cookie : Bytes} {rnd : Option Cookie}
    (haddition : Addition cfg now rnd s room cookie src s₁ s')
    (h : ∀ ip, s₁.pendingForIP ip ≤ cfg.maxPendingPerIP) (hparse : parseReg data = some (room, cookie))
    (hlimit : (s.isRegRateLimited cfg now (ipKey src.string)).1 = false)
    (hcounts : undercounts cfg s now (.packet data src rnd) = false) (ip : Bytes) :
    s'.pendingForIP ip ≤ cfg.maxPendingPerIP := by
  simp only [undercounts, hparse, hlimit, Bool.not_false, Bool.true_and] at hcounts
  cases haddition with
  | create addr hnone =>
      rw [State.pendingForIP_create hnone]
      exact h ip
  | letIn addr he =>
      rw [State.pendingForIP_setRoom he rfl]
      exact h ip
  | update u' he =>
      rw [State.pendingForIP_setRoom he rfl]
      exact h ip
  | store p hrooms hstore hcounters hchecks =>
      rw [AList.lookup_eq_none.mpr hchecks.none] at hcounts
      rw [State.pendingForIP_store (hstore ▸ hchecks.new)]
      split
      · rename_i heq
        rw [← heq, State.pendingForIP_congr hrooms hstore]
        exact Nat.lt_of_not_le fun hle => of_decide_eq_false hcounts ⟨hchecks, hle⟩
      · exact h ip
  | restore p hold =>
      have hcount := GoMap.count_insert_of_mem (fun key => ipKey key.2 = ip) p hold
      have hcap := h ip
      simp only [State.pendingForIP, State.storedForIP] at hcap ⊢
      omega
  | @pend p entry e c hentry hsweep hrooms hstore hcounters hchecks =>
      simp only [hentry, hsweep] at hcounts
      have hsame : s₁.pendingForIP (ipKey src.string) =
          (s.setRoom room (e, c)).pendingForIP (ipKey src.string) := by
        apply State.pendingForIP_congr
        · exact hrooms
        · exact hstore
      rw [State.pendingForIP_pend (by rw [hrooms, AList.lookup_insert]) hchecks.new]
      split
      · rename_i heq
        rw [← heq, hsame]
        exact Nat.lt_of_not_le fun hle => of_decide_eq_false hcounts ⟨hchecks, hle⟩
      · exact h ip
  | @repend e p he hold =>
      have hcount : RoomEntry.pendingForIP ip { e with pending := e.pending.insert src.string p } =
          e.pendingForIP ip := GoMap.count_insert_of_mem _ p hold
      rw [State.pendingForIP_setRoom he hcount]
      exact h ip

theorem step_pendingForIP_le (h : ∀ ip, s.pendingForIP ip ≤ cfg.maxPendingPerIP) (now : Int) (e : Event)
    (hcounts : undercounts cfg s now e = false) (ip : Bytes) :
    (step cfg now s e).1.pendingForIP ip ≤ cfg.maxPendingPerIP := by
  rcases step_moves cfg now s e with hremovals |
    ⟨data, src, rnd, room, cookie, heq, hparse, hlimit, s₁, hremovals, hsame | haddition⟩ |
    ⟨room, k, entry, u, u', hroom, hu, heq⟩
  · exact ((Fewer.removals hremovals).pendingForIP_le ip).trans (h ip)
  · rw [hsame]
    exact ((Fewer.removals hremovals).pendingForIP_le ip).trans (h ip)
  · rw [heq] at hcounts
    refine haddition.pendingForIP_le (fun ip => ?_) hparse hlimit hcounts ip
    exact ((Fewer.removals hremovals).pendingForIP_le ip).trans (h ip)
  · rw [heq, State.pendingForIP_setRoom hroom rfl]
    exact h ip

/-- In every state of a run in which no check undercounts, the pending registrations of a prefix in the
store and in all rooms together are within the cap. -/
theorem pending_cap_of_no_undercount (cfg : Config) {log : List (LogEntry Event Out)} {s : State}
    (hrun : (machine cfg).Run (fun s now e => undercounts cfg s now e = false) log s) (ip : Bytes) :
    s.pendingForIP ip ≤ cfg.maxPendingPerIP :=
  hrun.invariant (I := fun s => ∀ ip, s.pendingForIP ip ≤ cfg.maxPendingPerIP) (fun _ => Nat.zero_le _)
    (fun _ now e h hcounts => step_pendingForIP_le h now e hcounts) ip

/-! ### Where a check undercounts -/

theorem handleRegUnlimited_of_storable {rnd : Option Cookie} {cookie : Bytes}
    (h : Storable cfg rnd room cookie src s) :
    handleRegUnlimited cfg now rnd room cookie src s = challengeNewRoom cfg now rnd room src s := by
  have hroom : s.rooms.lookup room = none := AList.lookup_eq_none.mpr h.none
  have hget : s.getPendingReg room src.string = none := AList.lookup_eq_none.mpr h.new
  rcases h.cookie with rfl | hdecodes
  · rw [handleRegUnlimited_nil, hroom]
  · obtain ⟨b, hdecode, hlength⟩ := (Option.any_eq_true _ _).mp hdecodes
    rw [handleRegUnlimited_of_cookie hdecode (of_decide_eq_true hlength), hget, hroom]

theorem challengeNewRoom_of_storable {cookie : Bytes} {cb : Cookie}
    (h : Storable cfg (some cb) room cookie src s) :
    (challengeNewRoom cfg now (some cb) room src s).1 =
      { s with
        pendingRegs := s.pendingRegs.insert (room, src.string) ⟨cb, now, src⟩
        counters := s.counters.addPendingIP (ipKey src.string) 1 } := by
  simp only [challengeNewRoom, State.storePendingReg, if_neg (Nat.not_le.mpr h.ipRooms),
    if_neg (Int.not_le.mpr h.ip), if_neg h.new, h.budget, Bool.false_eq_true, if_false]

theorem regInRoom_of_pendable {cookie : Bytes} {cb : Cookie} {entry : RoomEntry}
    (hsweep : RoomEntry.sweep cfg room now (entry, s.counters) = p)
    (h : Pendable cfg (some cb) cookie src p) :
    ∃ byIP c, (regInRoom cfg now (some cb) room src entry s).1 = s.setRoom room
      ({ p.1 with
        pending := p.1.pending.insert src.string ⟨cb, now, src⟩, pendingByIP := byIP }, c) := by
  have hhard : ¬ (cfg.maxClientsHard ≤ p.1.udpClients.size ∧ src.string ∉ p.1.udpClients) :=
    fun hfull => Nat.not_le.mpr h.hard hfull.1
  have hclient : p.1.udpClients.lookup src.string = none := AList.lookup_eq_none.mpr h.client
  have hpending : p.1.pending.lookup src.string = none := AList.lookup_eq_none.mpr h.new
  have hfull : ¬ (cfg.maxPendingPerRoom ≤ p.1.pending.size ∨ p.2.inRoomPendingBudgetReached cfg = true) := by
    rw [h.budget, not_or]
    exact ⟨Nat.not_le.mpr h.space, Bool.false_ne_true⟩
  simp only [regInRoom, hsweep, if_neg hhard, hclient, if_neg (Nat.not_le.mpr h.clients), hpending,
    if_neg (Int.not_le.mpr h.ip), RoomEntry.addPending, if_neg h.new, if_neg hfull]
  exact ⟨_, _, rfl⟩

theorem pendingForIP_of_storable {rnd : Option Cookie} {cookie : Bytes}
    (h : Storable cfg rnd room cookie src s) :
    (handleRegUnlimited cfg now rnd room cookie src s).1.pendingForIP (ipKey src.string) =
      s.pendingForIP (ipKey src.string) + 1 := by
  obtain ⟨cb, rfl⟩ := Option.isSome_iff_exists.mp h.rnd
  rw [handleRegUnlimited_of_storable h, challengeNewRoom_of_storable h, State.pendingForIP_store h.new,
    if_pos rfl]

theorem pendingForIP_of_pendable {rnd : Option Cookie} {cookie : Bytes} {entry : RoomEntry}
    (hroom : s.rooms.lookup room = some entry)
    (hsweep : RoomEntry.sweep cfg room now (entry, s.counters) = p) (h : Pendable cfg rnd cookie src p) :
    (handleRegUnlimited cfg now rnd room cookie src s).1.pendingForIP (ipKey src.string) =
      (s.setRoom room p).pendingForIP (ipKey src.string) + 1 := by
  obtain rfl := h.cookie
  obtain ⟨cb, rfl⟩ := Option.isSome_iff_exists.mp h.rnd
  obtain ⟨byIP, c, hpended⟩ := regInRoom_of_pendable hsweep h
  have hadded := State.pendingForIP_pend (s.lookup_setRoom room p) h.new ⟨cb, now, src⟩ byIP c
    (ipKey src.string)
  rw [State.setRoom_setRoom, if_pos rfl] at hadded
  rw [handleRegUnlimited_nil, hroom]
  dsimp only
  rw [hpended, hadded]

/-- A step that undercounts leaves the prefix with more than the cap. -/
theorem exceeds_of_undercounts {ev : Event} (h : undercounts cfg s now ev = true) :
    ∃ ip, cfg.maxPendingPerIP < (step cfg now s ev).1.pendingForIP ip := by
  obtain ⟨data, src, rnd, rfl⟩ : ∃ data src rnd, ev = .packet data src rnd := by
    cases ev with
    | packet data src rnd => exact ⟨data, src, rnd, rfl⟩
    | rateTick => cases h
    | roomTick => cases h
  refine ⟨ipKey src.string, ?_⟩
  cases hparse : parseReg data with
  | none =>
      simp only [undercounts, hparse] at h
      cases h
  | some fields =>
      obtain ⟨room, cookie⟩ := fields
      simp only [undercounts, hparse, Bool.and_eq_true, Bool.not_eq_true'] at h
      obtain ⟨hlimit, h⟩ := h
      -- Only the record of the rate limit is new in `s₀`.
      obtain ⟨s₀, hrooms, hstore, hcounters, heq⟩ := handleReg_of_unlimited rnd room cookie hlimit
      rw [step, handlePacket_of_parseReg hparse, heq]
      cases hroom : s.rooms.lookup room with
      | none =>
          rw [hroom] at h
          obtain ⟨hchecks, hfull⟩ := of_decide_eq_true h
          rw [storable_iff, ← hrooms, ← hstore, ← hcounters, ← storable_iff] at hchecks
          rw [pendingForIP_of_storable hchecks, State.pendingForIP_congr hrooms hstore]
          exact Nat.lt_succ_of_le hfull
      | some entry =>
          rw [hroom] at h
          obtain ⟨hchecks, hfull⟩ := of_decide_eq_true h
          rw [← hrooms] at hroom
          rw [← hcounters] at hchecks hfull
          rw [pendingForIP_of_pendable hroom rfl hchecks]
          have hsame : ∀ p, (s₀.setRoom room p).pendingForIP (ipKey src.string) =
              (s.setRoom room p).pendingForIP (ipKey src.string) := by
            intro p
            apply State.pendingForIP_congr
            · exact congrArg (AList.insert room p.1) hrooms
            · exact hstore
          rw [hsame]
          exact Nat.lt_succ_of_le hfull

/-- `REG` of one of a hundred rooms from the second port of the host. -/
def strayReg (n : Nat) : Event :=
  .packet (ascii "REG x" ++ [UInt8.ofNat (48 + n / 10), UInt8.ofNat (48 + n % 10), 10])
    ⟨[127, 0, 0, 1], 2, []⟩ (some (cookieOf 9))

/-- The first port of a host has made the room `r` and the second is pending in it; then the second asks
for more rooms, ten times in a little more than a second. -/
def strayRegs (n : Nat) : List (Int × Event) :=
  hostJoins [] ++ [(1, hostReg 2 none (some (cookieOf 2)))] ++
    (List.range n).map fun (i : Nat) => (((i : Int) / 10 + 2) * 1000000001, strayReg i)

/-- Up to the cap, each of the checks sees all that matters. -/
theorem pending_cap_forty_nine : ∃ log s,
    (machine .default).Run (fun s now e => undercounts .default s now e = false) log s ∧
      s.pendingForIP (ascii "127.0.0.1") = 50 ∧
      s.pendingForIP (ascii "127.0.0.1") ≤ Config.default.maxPendingPerIP := by
  obtain ⟨log, hrun⟩ := Machine.Run.init.exec
    (show (machine .default).Admissible (fun s now e => undercounts .default s now e = false) none
      .empty (strayRegs 49) by decide +kernel)
  exact ⟨log, _, hrun, by decide +kernel, pending_cap_of_no_undercount .default hrun _⟩

/-- The fiftieth registration in the store does not count the one in the room. -/
theorem pending_cap_exceeded : ∃ log s, (machine .default).Run (fun _ _ _ => True) log s ∧
    Config.default.maxPendingPerIP < s.pendingForIP (ascii "127.0.0.1") := by
  obtain ⟨log, hrun⟩ := Machine.Run.init.exec
    (show (machine .default).Admissible (fun _ _ _ => True) none .empty (strayRegs 50) by decide +kernel)
  exact ⟨log, _, hrun, by decide +kernel⟩

end Qvole.Relay
