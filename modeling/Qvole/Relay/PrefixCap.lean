import Qvole.Relay.Accept

/-!
# How many clients of one prefix a room holds

Of the three ways into a room, the creation starts with one client and the completion from the pending
store counts the clients of the prefix again. The completion from the room's own pending map does not:
the cap was looked at when the challenge went out, and by the time the cookie comes back any number of
other sources of the prefix may have come in the same way. `overfills` is that step and no other: in
every run without it the cap holds, and each such step breaks it.
-/

namespace Qvole.Relay

open Lib

def PrefixCapped (cfg : Config) (s : State) : Prop :=
  ∀ room entry, s.rooms.lookup room = some entry → ∀ pre,
    entry.countPrefixClients pre ≤ cfg.maxClientsPerPrefixPerRoom

instance (now : Int) (cookie : Bytes) (pend : PendingReg) : Decidable (Completes now cookie pend) :=
  inferInstanceAs (Decidable (_ ∧ _))

/-- The datagram is a `REG` within the rate limit that completes the pending registration its source
has in the room's own map, the source is not in the swept room, and the room has space for a client
but its prefix already has all the clients it may have there. -/
def overfills (cfg : Config) (s : State) (now : Int) : Event → Bool
  | .packet data src _ =>
    match parseReg data with
    | none => false
    | some (room, cookie) =>
      match s.getPendingReg room src.string, s.rooms.lookup room with
      | none, some entry =>
        match entry.pending.lookup src.string with
        | none => false
        | some pend =>
          let e := (RoomEntry.sweep cfg room now (entry, s.counters)).1
          !(s.isRegRateLimited cfg now (ipKey src.string)).1 && decide (Completes now cookie pend) &&
            decide (src.string ∉ e.udpClients) && decide (e.udpClients.size < cfg.maxClientsHard) &&
            decide (cfg.maxClientsPerPrefixPerRoom ≤ e.countPrefixClients (ipKey src.string))
      | _, _ => false
  | _ => false

variable {cfg : Config} {now : Int}

theorem PrefixCapped.shrunk {s s' : State} (h : PrefixCapped cfg s) (hshrunk : Shrunk cfg now s s') :
    PrefixCapped cfg s' := by
  intro room entry hroom pre
  obtain ⟨e, he, hentry⟩ := hshrunk.room hroom
  exact (hentry.countPrefixClients_le pre).trans (h room e he pre)

theorem PrefixCapped.setRoom {s : State} {R : Bytes} {p : RoomEntry × Counters}
    (h : PrefixCapped cfg s)
    (hp : ∀ pre, p.1.countPrefixClients pre ≤ cfg.maxClientsPerPrefixPerRoom) :
    PrefixCapped cfg (s.setRoom R p) := by
  intro room entry hroom
  by_cases hR : room = R
  · subst hR
    rw [State.lookup_setRoom] at hroom
    cases hroom
    exact hp
  · rw [State.lookup_setRoom_ne s p hR] at hroom
    exact h room entry hroom

variable (now) in
/-- Letting a source in adds one client to its own prefix, unless it was in already. -/
theorem RoomEntry.countPrefixClients_letIn (e : RoomEntry) (srcStr : Bytes) (addr : UDPAddr)
    (pre : Bytes) :
    (e.letIn now srcStr addr).countPrefixClients pre =
      e.countPrefixClients pre + if srcStr ∉ e.udpClients ∧ ipKey srcStr = pre then 1 else 0 := by
  unfold countPrefixClients letIn
  by_cases hmem : srcStr ∈ e.udpClients
  · rw [GoMap.count_insert_of_mem _ _ hmem, if_neg (fun h => h.1 hmem), Nat.add_zero]
  · rw [GoMap.count_insert_of_notMem _ _ hmem]
    simp [hmem]

theorem RoomEntry.countPrefixClients_letIn_le {e : RoomEntry} {srcStr : Bytes} (addr : UDPAddr)
    (hcapped : ∀ pre, e.countPrefixClients pre ≤ cfg.maxClientsPerPrefixPerRoom)
    (hroom : srcStr ∈ e.udpClients ∨
      e.countPrefixClients (ipKey srcStr) < cfg.maxClientsPerPrefixPerRoom) (pre : Bytes) :
    (e.letIn now srcStr addr).countPrefixClients pre ≤ cfg.maxClientsPerPrefixPerRoom := by
  have hpre := hcapped pre
  rw [countPrefixClients_letIn]
  split
  · rename_i hnew
    obtain ⟨hnot, rfl⟩ := hnew
    have hlt := hroom.resolve_left hnot
    omega
  · exact hpre

theorem RegOutcome.prefixCapped {s s' : State} {rnd : Option Cookie} {room cookie data : Bytes}
    {src : UDPAddr} {outs : List Out} (h : PrefixCapped cfg s)
    (houtcome : RegOutcome cfg now rnd room cookie src s s' outs)
    (hparse : parseReg data = some (room, cookie))
    (hlimit : (s.isRegRateLimited cfg now (ipKey src.string)).1 = false)
    (hok : overfills cfg s now (.packet data src rnd) = false) : PrefixCapped cfg s' := by
  cases houtcome with
  | dropped hshrunk => exact h.shrunk hshrunk
  | @created _ pend _ hshrunk =>
      refine (h.shrunk hshrunk).setRoom fun pre => ?_
      have hone : (firstEntry now src.string pend.resolvedAddr).countPrefixClients pre ≤ 1 :=
        GoMap.count_le_size _ (AList.singleton src.string (newClient now pend.resolvedAddr))
      exact hone.trans (cfg.caps_pos _ (by simp))
  | joined hshrunk _ _ he hpfx =>
      have hcapped := h.shrunk hshrunk
      exact hcapped.setRoom
        (RoomEntry.countPrefixClients_letIn_le _ (hcapped room _ he) hpfx)
  | @admitted s₁ entry e pend _ _ hshrunk hstore hroom hpend hcompletes hswept he hhard =>
      have hcapped := h.shrunk hshrunk
      refine hcapped.setRoom
        (RoomEntry.countPrefixClients_letIn_le pend.resolvedAddr (hcapped room e he) ?_)
      by_cases hmem : src.string ∈ e.udpClients
      · exact Or.inl hmem
      · -- no check of this path counts the prefix: it is the step the hypothesis rules out
        refine Or.inr (Nat.lt_of_not_le fun hfull => ?_)
        have hspace := hhard.resolve_left hmem
        rw [hswept] at hmem hspace hfull
        simp [overfills, hparse, hstore, hroom, hpend, hlimit, hcompletes, hmem, hspace, hfull] at hok
  | @refreshed _ e u _ hshrunk _ he hu =>
      have hcapped := h.shrunk hshrunk
      refine hcapped.setRoom fun pre => ?_
      have hsame : (e.refresh now src.string src u).countPrefixClients pre =
          e.countPrefixClients pre := GoMap.count_insert_of_mem _ _ (GoMap.mem_of_lookup hu)
      rw [hsame]
      exact hcapped room e he pre
  | challengedStore hshrunk =>
      have hcapped := h.shrunk hshrunk
      exact fun R entry hR => hcapped R entry hR
  | @renewed _ e _ _ hshrunk _ he =>
      have hcapped := h.shrunk hshrunk
      exact hcapped.setRoom fun pre => hcapped room e he pre
  | @challengedRoom _ e _ _ _ hshrunk _ _ he =>
      have hcapped := h.shrunk hshrunk
      exact hcapped.setRoom fun pre => hcapped room e he pre

theorem MsgOutcome.prefixCapped {s s' : State} {room phase body : Bytes} {src : UDPAddr}
    {outs : List Out} (h : PrefixCapped cfg s)
    (houtcome : MsgOutcome room phase body src s s' outs) : PrefixCapped cfg s' := by
  cases houtcome with
  | ignored => exact h
  | @counted entry u _ r hroom hu =>
      refine h.setRoom fun pre => le_of_eq_of_le ?_ (h room entry hroom pre)
      exact GoMap.count_insert_of_mem _ _ (GoMap.mem_of_lookup hu)

theorem step_prefixCapped {s : State} {e : Event} (h : PrefixCapped cfg s)
    (hok : overfills cfg s now e = false) : PrefixCapped cfg (step cfg now s e).1 := by
  rcases step_cases cfg now s e with
    ⟨data, src, rnd, room, cookie, rfl, hparse, hlimit, houtcome⟩ |
    ⟨data, src, rnd, room, phase, body, rfl, hparse, houtcome⟩ | ⟨hshrunk, _⟩
  · exact houtcome.prefixCapped h hparse hlimit hok
  · exact houtcome.prefixCapped h
  · exact h.shrunk hshrunk

/-- A step that overfills a room leaves more clients of one prefix in it than the cap allows. -/
theorem exceeds_of_overfills {s : State} {e : Event} (h : overfills cfg s now e = true) :
    ∃ room entry pre, (step cfg now s e).1.rooms.lookup room = some entry ∧
      cfg.maxClientsPerPrefixPerRoom < entry.countPrefixClients pre := by
  obtain ⟨data, src, rnd, rfl⟩ : ∃ data src rnd, e = .packet data src rnd := by
    cases e with
    | packet data src rnd => exact ⟨data, src, rnd, rfl⟩
    | rateTick => cases h
    | roomTick => cases h
  unfold overfills at h
  dsimp only at h
  split at h
  · cases h
  rename_i room cookie hparse
  split at h
  · rename_i entry hstore hroom
    split at h
    · cases h
    rename_i pend hpend
    simp only [Bool.and_eq_true, decide_eq_true_eq, Bool.not_eq_true'] at h
    obtain ⟨⟨⟨⟨hlimit, hcookie, hfresh⟩, hnew⟩, hspace⟩, hfull⟩ := h
    obtain ⟨s₀, hrooms, hstore₀, hcounters, heq⟩ :=
      handleReg_of_unlimited rnd room cookie hlimit
    rw [← hcounters] at hnew hspace hfull
    generalize hsweep : RoomEntry.sweep cfg room now (entry, s₀.counters) = swept at *
    obtain ⟨e, c⟩ := swept
    have hknown : ∃ k ∈ e.udpClients, ipKey k = ipKey src.string := by
      have hpos : 0 < e.countPrefixClients (ipKey src.string) :=
        lt_of_lt_of_le (cfg.caps_pos cfg.maxClientsPerPrefixPerRoom (by simp)) hfull
      obtain ⟨k, hk, hpfx⟩ := List.countP_pos_iff.mp hpos
      exact ⟨k, AList.mem_keys.mpr hk, of_decide_eq_true hpfx⟩
    obtain ⟨m, c', hletIn⟩ := admitInRoom_admits hpend rfl hfresh hsweep (Or.inr hspace) hknown
    have hget : s₀.getPendingReg room src.string = none := by
      rw [State.getPendingReg, hstore₀]
      exact hstore
    rw [step, handlePacket_of_parseReg hparse, heq,
      handleRegUnlimited_of_cookie hcookie pend.cookie.property, hget, hrooms, hroom]
    dsimp only
    rw [hletIn]
    refine ⟨room, _, ipKey src.string, State.lookup_setRoom _ _ _, ?_⟩
    have hcount := e.countPrefixClients_letIn now src.string pend.resolvedAddr
      (ipKey src.string)
    rw [if_pos ⟨hnew, rfl⟩] at hcount
    dsimp only at hfull
    change _ < (e.letIn now src.string pend.resolvedAddr).countPrefixClients (ipKey src.string)
    omega
  · cases h

/-- In every run none of whose steps overfills a room, no room ever holds more clients of one prefix
than the cap allows. -/
theorem prefix_cap_of_no_overfill (cfg : Config) {log : List (LogEntry Event Out)} {s : State}
    (hrun : (machine cfg).Run (fun s now e => overfills cfg s now e = false) log s)
    {room : Bytes} {entry : RoomEntry} (hroom : s.rooms.lookup room = some entry) (pre : Bytes) :
    entry.countPrefixClients pre ≤ cfg.maxClientsPerPrefixPerRoom := by
  have hcapped : PrefixCapped cfg s := by
    refine hrun.invariant ?_ fun s now e h hok => step_prefixCapped h hok
    intro room entry hroom
    cases hroom
  exact hcapped room entry hroom pre

/-- `REG` of the room `r` from a port of one host, with a cookie unless the port has none yet. -/
def hostReg (port : Nat) (cookie : Option Cookie) (rnd : Option Cookie) : Event :=
  .packet (ascii "REG r" ++ (match cookie with | none => [] | some c => 32 :: hexEncode c.val) ++ [10])
    ⟨[127, 0, 0, 1], port, []⟩ rnd

def cookieOf (b : UInt8) : Cookie := ⟨List.replicate 16 b, rfl⟩

/-- Port 1 creates the room, the others are challenged while it is alone, and then all complete. -/
def hostJoins (ports : List Nat) : List (Int × Event) :=
  [(0, hostReg 1 none (some (cookieOf 1))), (0, hostReg 1 (some (cookieOf 1)) none)] ++
  ports.map (fun p => (1, hostReg p none (some (cookieOf (UInt8.ofNat p))))) ++
  ports.map (fun p => (2, hostReg p (some (cookieOf (UInt8.ofNat p))) none))

/-- Four ports of one host fill the room exactly up to the cap. -/
theorem prefix_cap_four_ports : ∃ log s entry,
    (machine .default).Run (fun s now e => overfills .default s now e = false) log s ∧
      s.rooms.lookup (ascii "r") = some entry ∧
      4 ≤ entry.countPrefixClients (ascii "127.0.0.1") ∧
      entry.countPrefixClients (ascii "127.0.0.1") ≤ Config.default.maxClientsPerPrefixPerRoom := by
  obtain ⟨log, hrun⟩ := Machine.Run.init.exec
    (show (machine .default).Admissible (fun s now e => overfills .default s now e = false) none
      .empty (hostJoins [2, 3, 4]) by decide +kernel)
  have hcount : (((machine .default).exec .empty (hostJoins [2, 3, 4])).rooms.lookup (ascii "r")).any
      (fun entry => 4 ≤ entry.countPrefixClients (ascii "127.0.0.1")) = true := by
    decide +kernel
  obtain ⟨entry, hroom, hentry⟩ := (Option.any_eq_true _ _).mp hcount
  exact ⟨log, _, entry, hrun, hroom, of_decide_eq_true hentry,
    prefix_cap_of_no_overfill .default hrun hroom _⟩

/-- A fifth port that was challenged in time comes in over the cap. -/
theorem prefix_cap_exceeded : ∃ log s entry,
    (machine .default).Run (fun _ _ _ => True) log s ∧ s.rooms.lookup (ascii "r") = some entry ∧
      Config.default.maxClientsPerPrefixPerRoom < entry.countPrefixClients (ascii "127.0.0.1") := by
  obtain ⟨log, hrun⟩ := Machine.Run.init.exec
    (show (machine .default).Admissible (fun _ _ _ => True) none .empty (hostJoins [2, 3, 4, 5]) by
      decide +kernel)
  have hcount :
      (((machine .default).exec .empty (hostJoins [2, 3, 4, 5])).rooms.lookup (ascii "r")).any
        (fun entry => 4 < entry.countPrefixClients (ascii "127.0.0.1")) = true := by
    decide +kernel
  obtain ⟨entry, hroom, hentry⟩ := (Option.any_eq_true _ _).mp hcount
  exact ⟨log, _, entry, hrun, hroom, of_decide_eq_true hentry⟩

end Qvole.Relay
