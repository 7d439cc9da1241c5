import Qvole.Relay.Outcome

/-!
# When a registration is answered

`RegOutcome` says what a `REG` can do at most. This module goes the other way, for the registrations
that must succeed: a cookie that completes a pending registration and is held up by no cap, and a `REG`
without a cookie from a client the room still has. Each of the three ways in has its own lemma, with
the conditions its branch of `handleReg` checks.
-/

namespace Qvole.Relay

open Lib

variable {cfg : Config} {now : Int} {rnd : Option Cookie} {room cookie cookieBytes : Bytes}
  {src : UDPAddr} {s : State} {entry e : RoomEntry} {c : Counters} {pend : PendingReg}

theorem cookie_wellFormed (hdecode : hexDecode cookie = some cookieBytes)
    (hlen : cookieBytes.length = pendingCookieBytes) :
    0 < cookie.length ∧ isValidHex cookie = true ∧ cookie.length = pendingCookieBytes * 2 := by
  have hlength : cookie.length = pendingCookieBytes * 2 := by
    rw [length_of_hexDecode hdecode, hlen, Nat.mul_comm]
  have hdigits : cookie.all fun b => (fromHexChar b).isSome := by
    rw [List.all_eq_true]
    intro b hb
    exact isSome_of_hexDecode hdecode hb
  refine ⟨?_, ?_, hlength⟩
  · rw [hlength]
    decide
  · rw [isValidHex, hdigits, hlength]
    decide

theorem handleRegUnlimited_of_cookie (hdecode : hexDecode cookie = some cookieBytes)
    (hlen : cookieBytes.length = pendingCookieBytes) :
    handleRegUnlimited cfg now rnd room cookie src s =
      match s.getPendingReg room src.string with
      | some pend => completePending cfg now room cookieBytes src pend s
      | none =>
        match s.rooms.lookup room with
        | none => challengeNewRoom cfg now rnd room src s
        | some entry => admitInRoom cfg now room cookieBytes src entry s := by
  obtain ⟨hpos, hvalid, hlength⟩ := cookie_wellFormed hdecode hlen
  rw [handleRegUnlimited, if_pos hpos, if_neg (by simp [hvalid, hlength])]
  generalize hexDecode cookie = decoded at hdecode
  subst hdecode
  rfl

theorem handleRegUnlimited_nil : handleRegUnlimited cfg now rnd room [] src s =
    match s.rooms.lookup room with
    | none => challengeNewRoom cfg now rnd room src s
    | some entry => regInRoom cfg now rnd room src entry s := rfl

variable (rnd room cookie) in
/-- Within the rate limit, a `REG` meets the rooms, the pending store and the counters as they are. -/
theorem handleReg_of_unlimited
    (hlimit : (s.isRegRateLimited cfg now (ipKey src.string)).1 = false) :
    ∃ s₀ : State, s₀.rooms = s.rooms ∧ s₀.pendingRegs = s.pendingRegs ∧ s₀.counters = s.counters ∧
      handleReg cfg now rnd room cookie src s =
        handleRegUnlimited cfg now rnd room cookie src s₀ := by
  obtain ⟨hrooms, hstore, hcounters⟩ := State.isRegRateLimited_eq cfg now (ipKey src.string) s
  unfold handleReg
  generalize s.isRegRateLimited cfg now (ipKey src.string) = limit at *
  obtain ⟨limited, s₀⟩ := limit
  subst hlimit
  exact ⟨s₀, hrooms, hstore, hcounters, rfl⟩

theorem joinRoom_admits (hsweep : RoomEntry.sweep cfg room now (entry, s.counters) = (e, c))
    (hmem : src.string ∈ e.udpClients) :
    ∃ c', joinRoom cfg now room src pend entry s =
      (s.setRoom room (e.letIn now src.string pend.resolvedAddr, c'), sendREGD room src) := by
  have hknown : (e.udpClients.keys.any fun addr => ipKey addr = ipKey src.string) = true := by
    rw [List.any_eq_true]
    exact ⟨src.string, AList.mem_keys.mp hmem, by simp⟩
  refine ⟨c, ?_⟩
  simp [joinRoom, hsweep, hmem, hknown, RoomEntry.letIn]

/-- The room's own pending map lets a completed source in when the room has space and the prefix is
known there; nothing asks how many clients of the prefix there are. -/
theorem admitInRoom_admits (hpend : entry.pending.lookup src.string = some pend)
    (hcookie : pend.cookie.val = cookieBytes) (hfresh : now - pend.createdAt ≤ pendingRegTTL)
    (hsweep : RoomEntry.sweep cfg room now (entry, s.counters) = (e, c))
    (hspace : src.string ∈ e.udpClients ∨ e.udpClients.size < cfg.maxClientsHard)
    (hknown : ∃ k ∈ e.udpClients, ipKey k = ipKey src.string) :
    ∃ m c', admitInRoom cfg now room cookieBytes src entry s =
      (s.setRoom room ({ e.letIn now src.string pend.resolvedAddr with
        pending := e.pending.erase src.string, pendingByIP := m }, c'), sendREGD room src) := by
  have hpfx : (e.udpClients.keys.any fun addr => ipKey addr = ipKey src.string) = true := by
    rw [List.any_eq_true]
    obtain ⟨k, hk, heq⟩ := hknown
    exact ⟨k, AList.mem_keys.mp hk, by simp [heq]⟩
  have hhard : ¬ (cfg.maxClientsHard ≤ e.udpClients.size ∧ src.string ∉ e.udpClients) := by
    rintro ⟨hle, hnot⟩
    have hlt := hspace.resolve_left hnot
    omega
  obtain ⟨m, c', heq⟩ := RoomEntry.removePending_eq (e, c) src.string
  unfold admitInRoom
  dsimp only
  rw [hpend]
  dsimp only
  rw [if_neg (not_not.mpr hcookie), if_neg (by omega), hsweep, if_neg hhard,
    if_neg fun h => h.2.1 hpfx, heq]
  exact ⟨_, _, rfl⟩

theorem regInRoom_refreshes {u : UdpClient}
    (hsweep : RoomEntry.sweep cfg room now (entry, s.counters) = (e, c))
    (hu : e.udpClients.lookup src.string = some u) :
    regInRoom cfg now rnd room src entry s =
      (s.setRoom room (e.refresh now src.string src u, c), sendREGD room src) := by
  unfold regInRoom
  dsimp only
  rw [hsweep, if_neg fun h => h.2 (GoMap.mem_of_lookup hu), hu]
  rfl

end Qvole.Relay
