import Qvole.Relay.Accept

/-!
# A client that is in its room

A client seen within `regTTL` is never removed, whatever the relay is given: no other datagram, sweep
or eviction touches it. What its own next `REG` does depends on the cookie in it. Without a cookie the
client is refreshed. With one, the relay looks for a pending registration first, and the client is only
refreshed when there is one and the cookie completes it.
-/

namespace Qvole.Relay

open Lib

/-- The client `k` of the room `R`. -/
def State.HasClient (s : State) (R k : Bytes) (u : UdpClient) : Prop :=
  ∃ e, s.rooms.lookup R = some e ∧ e.udpClients.lookup k = some u

variable {cfg : Config} {now : Int} {rnd : Option Cookie} {room cookie : Bytes} {src : UDPAddr}
  {s : State} {u : UdpClient}

theorem State.hasClient_of_any {R k : Bytes} {p : UdpClient → Bool}
    (h : (s.rooms.lookup R).any (fun e => (e.udpClients.lookup k).any p) = true) :
    ∃ u, s.HasClient R k u ∧ p u = true := by
  obtain ⟨e, he, hany⟩ := (Option.any_eq_true _ _).mp h
  obtain ⟨u, hu, hp⟩ := (Option.any_eq_true _ _).mp hany
  exact ⟨u, ⟨e, he, hu⟩, hp⟩

theorem State.HasClient.shrunk {s' : State} {R k : Bytes} (h : s.HasClient R k u)
    (hfresh : now - u.lastSeen ≤ cfg.regTTL) (hshrunk : Shrunk cfg now s s') :
    s'.HasClient R k u := by
  obtain ⟨e, he, hu⟩ := h
  obtain ⟨e', he', _, hu'⟩ := hshrunk.freshClient he hu hfresh
  exact ⟨e', he', hu'⟩

theorem State.HasClient.setRoom_new {R R' k : Bytes} {p : RoomEntry × Counters}
    (h : s.HasClient R k u) (hnone : s.rooms.lookup R' = none) :
    (s.setRoom R' p).HasClient R k u := by
  obtain ⟨e, he, hu⟩ := h
  have hne : R ≠ R' := by
    rintro rfl
    rw [hnone] at he
    cases he
  refine ⟨e, ?_, hu⟩
  rw [State.lookup_setRoom_ne s p hne]
  exact he

/-- Replacing a room keeps the clients of all others, and its own as far as the new entry has them. -/
theorem State.HasClient.setRoom {R R' k : Bytes} {e : RoomEntry} {p : RoomEntry × Counters}
    (h : s.HasClient R k u) (he : s.rooms.lookup R' = some e)
    (hp : e.udpClients.lookup k = some u →
      ∃ u', p.1.udpClients.lookup k = some u' ∧ (u'.lastSeen = u.lastSeen ∨ u'.lastSeen = now)) :
    ∃ u', (s.setRoom R' p).HasClient R k u' ∧ (u'.lastSeen = u.lastSeen ∨ u'.lastSeen = now) := by
  obtain ⟨e₀, he₀, hu⟩ := h
  by_cases hR : R = R'
  · subst hR
    rw [he] at he₀
    cases he₀
    obtain ⟨u', hu', hseen⟩ := hp hu
    exact ⟨u', ⟨p.1, State.lookup_setRoom s R p, hu'⟩, hseen⟩
  · refine ⟨u, ⟨e₀, ?_, hu⟩, Or.inl rfl⟩
    rw [State.lookup_setRoom_ne s p hR]
    exact he₀

/-- A map with one entry replaced by one of the moment still has the client, seen then or now. -/
theorem lookup_insert_seen {m : GoMap Bytes UdpClient} {k k' : Bytes} {v : UdpClient}
    (hu : m.lookup k = some u)
    (hv : k = k' → v.lastSeen = u.lastSeen ∨ v.lastSeen = now) :
    ∃ u', (m.insert k' v).lookup k = some u' ∧
      (u'.lastSeen = u.lastSeen ∨ u'.lastSeen = now) := by
  rw [GoMap.lookup_insert_if]
  split
  · rename_i hk
    exact ⟨v, rfl, hv hk⟩
  · exact ⟨u, hu, Or.inl rfl⟩

theorem RegOutcome.keeps {s' : State} {outs : List Out} {R k : Bytes}
    (houtcome : RegOutcome cfg now rnd room cookie src s s' outs) (h : s.HasClient R k u)
    (hfresh : now - u.lastSeen ≤ cfg.regTTL) :
    ∃ u', s'.HasClient R k u' ∧ (u'.lastSeen = u.lastSeen ∨ u'.lastSeen = now) := by
  cases houtcome with
  | dropped hshrunk => exact ⟨u, h.shrunk hfresh hshrunk, Or.inl rfl⟩
  | created hshrunk _ _ hnone =>
      exact ⟨u, (h.shrunk hfresh hshrunk).setRoom_new hnone, Or.inl rfl⟩
  | joined hshrunk _ _ he =>
      exact (h.shrunk hfresh hshrunk).setRoom he fun hu => lookup_insert_seen hu fun _ => Or.inr rfl
  | admitted hshrunk _ _ _ _ _ he =>
      exact (h.shrunk hfresh hshrunk).setRoom he fun hu => lookup_insert_seen hu fun _ => Or.inr rfl
  | refreshed hshrunk _ he =>
      exact (h.shrunk hfresh hshrunk).setRoom he fun hu => lookup_insert_seen hu fun _ => Or.inr rfl
  | challengedStore hshrunk =>
      obtain ⟨e, he, hu⟩ := h.shrunk hfresh hshrunk
      exact ⟨u, ⟨e, he, hu⟩, Or.inl rfl⟩
  | renewed hshrunk _ he =>
      exact (h.shrunk hfresh hshrunk).setRoom he fun hu => ⟨u, hu, Or.inl rfl⟩
  | challengedRoom hshrunk _ _ he =>
      exact (h.shrunk hfresh hshrunk).setRoom he fun hu => ⟨u, hu, Or.inl rfl⟩

theorem MsgOutcome.keeps {s' : State} {outs : List Out} {phase body R k : Bytes}
    (houtcome : MsgOutcome room phase body src s s' outs) (h : s.HasClient R k u) :
    ∃ u', s'.HasClient R k u' ∧ (u'.lastSeen = u.lastSeen ∨ u'.lastSeen = now) := by
  cases houtcome with
  | ignored => exact ⟨u, h, Or.inl rfl⟩
  | counted r hroom hsender =>
      refine h.setRoom hroom fun hu => lookup_insert_seen hu fun hk => Or.inl ?_
      subst hk
      rw [hsender] at hu
      cases hu
      rfl

/-- No input removes a client that was seen within `regTTL`. -/
theorem step_keeps_client (e : Event) {R k : Bytes} (h : s.HasClient R k u)
    (hfresh : now - u.lastSeen ≤ cfg.regTTL) :
    ∃ u', (step cfg now s e).1.HasClient R k u' ∧
      (u'.lastSeen = u.lastSeen ∨ u'.lastSeen = now) := by
  rcases step_cases cfg now s e with ⟨data, src, rnd, room, cookie, rfl, _, _, houtcome⟩ |
    ⟨data, src, rnd, room, phase, body, rfl, _, houtcome⟩ | ⟨hshrunk, _⟩
  · exact houtcome.keeps h hfresh
  · exact houtcome.keeps h
  · exact ⟨u, h.shrunk hfresh hshrunk, Or.inl rfl⟩

/-! ### The client's own `REG` -/

/-- The registration was renewed: the client is in the room, seen at `now`, and told so. -/
def Renewed (now : Int) (room : Bytes) (src : UDPAddr) (result : State × List Out) : Prop :=
  (∃ u, result.1.HasClient room src.string u ∧ u.lastSeen = now) ∧
    Out.write (regdOK room src) src ∈ result.2

/-- The pending registration a cookie is compared with: the store goes before the room. -/
def State.pendingOf (room srcStr : Bytes) (s : State) : Option PendingReg :=
  match s.getPendingReg room srcStr with
  | some pend => some pend
  | none => (s.rooms.lookup room).bind fun e => e.pending.lookup srcStr

/-- The `REG` carries no cookie, or one that completes a pending registration of its source. -/
def Renewable (now : Int) (room cookie : Bytes) (src : UDPAddr) (s : State) : Prop :=
  cookie = [] ∨ ∃ pend ∈ s.pendingOf room src.string, Completes now cookie pend

/-- A room that still has its fresh client has it after the sweep. -/
theorem State.HasClient.sweep (h : s.HasClient room src.string u)
    (hfresh : now - u.lastSeen ≤ cfg.regTTL) :
    ∃ entry e c, s.rooms.lookup room = some entry ∧
      RoomEntry.sweep cfg room now (entry, s.counters) = (e, c) ∧
      e.udpClients.lookup src.string = some u := by
  obtain ⟨entry, hentry, hu⟩ := h
  have hswept : EntryShrunk cfg now entry (RoomEntry.sweep cfg room now (entry, s.counters)).1 :=
    RoomEntry.sweep_shrunk room (entry, s.counters)
  exact ⟨entry, _, _, hentry, rfl, hswept.freshClient hu hfresh⟩

theorem renewed_setRoom {m : GoMap Bytes UdpClient} {v : UdpClient} {p : RoomEntry × Counters}
    (hp : p.1.udpClients = m.insert src.string v) (hv : v.lastSeen = now) :
    Renewed now room src (s.setRoom room p, sendREGD room src) := by
  refine ⟨⟨v, ⟨p.1, State.lookup_setRoom s room p, ?_⟩, hv⟩, List.mem_singleton.mpr rfl⟩
  rw [hp]
  exact AList.lookup_insert m

theorem not_renewed_of_drop {why : Drop} : ¬ Renewed now room src (s, [.drop why]) :=
  fun h => silent_drop why _ _ h.2

theorem regInRoom_renewed (h : s.HasClient room src.string u)
    (hfresh : now - u.lastSeen ≤ cfg.regTTL) {entry : RoomEntry}
    (hentry : s.rooms.lookup room = some entry) :
    Renewed now room src (regInRoom cfg now rnd room src entry s) := by
  obtain ⟨entry', e, c, hentry', hsweep, hu⟩ := h.sweep hfresh
  rw [hentry] at hentry'
  cases hentry'
  rw [regInRoom_refreshes hsweep hu]
  exact renewed_setRoom rfl rfl

theorem admitInRoom_renewed (h : s.HasClient room src.string u)
    (hfresh : now - u.lastSeen ≤ cfg.regTTL) {entry : RoomEntry} {pend : PendingReg}
    (hentry : s.rooms.lookup room = some entry)
    (hpend : entry.pending.lookup src.string = some pend)
    (htime : now - pend.createdAt ≤ pendingRegTTL) :
    Renewed now room src (admitInRoom cfg now room pend.cookie.val src entry s) := by
  obtain ⟨entry', e, c, hentry', hsweep, hu⟩ := h.sweep hfresh
  rw [hentry] at hentry'
  cases hentry'
  have hmem := GoMap.mem_of_lookup hu
  obtain ⟨m, c', heq⟩ :=
    admitInRoom_admits hpend rfl htime hsweep (Or.inl hmem) ⟨src.string, hmem, rfl⟩
  rw [heq]
  exact renewed_setRoom rfl rfl

theorem completePending_renewed (h : s.HasClient room src.string u)
    (hfresh : now - u.lastSeen ≤ cfg.regTTL) {pend : PendingReg}
    (htime : now - pend.createdAt ≤ pendingRegTTL) :
    Renewed now room src (completePending cfg now room pend.cookie.val src pend s) := by
  unfold completePending
  rw [if_neg (not_not.mpr rfl), if_neg (by omega)]
  dsimp only
  generalize hs₁ : (if cfg.maxRooms ≤ (s.deletePendingReg room src.string).totalRooms then
    (s.deletePendingReg room src.string).evictStaleRoomsAll cfg now
    else s.deletePendingReg room src.string) = s₁
  have hshrunk : Shrunk cfg now s s₁ := by
    rw [← hs₁]
    split
    · exact (State.deletePendingReg_shrunk room src.string s).trans
        (State.evictStaleRoomsAll_shrunk _)
    · exact State.deletePendingReg_shrunk room src.string s
  obtain ⟨entry, e, c, hentry, hsweep, hu⟩ := (h.shrunk hfresh hshrunk).sweep hfresh
  rw [hentry]
  dsimp only
  obtain ⟨c', heq⟩ := joinRoom_admits hsweep (GoMap.mem_of_lookup hu)
  rw [heq]
  exact renewed_setRoom rfl rfl

theorem completePending_not_renewed {pend : PendingReg} {b : Bytes}
    (h : ¬ (pend.cookie.val = b ∧ now - pend.createdAt ≤ pendingRegTTL)) :
    ¬ Renewed now room src (completePending cfg now room b src pend s) := by
  unfold completePending
  split
  · exact not_renewed_of_drop
  rename_i hcookie
  rw [if_pos (Int.not_le.mp fun hle => h ⟨not_not.mp hcookie, hle⟩)]
  exact not_renewed_of_drop

theorem admitInRoom_not_renewed {entry : RoomEntry} {pend : PendingReg} {b : Bytes}
    (hpend : entry.pending.lookup src.string = some pend)
    (h : ¬ (pend.cookie.val = b ∧ now - pend.createdAt ≤ pendingRegTTL)) :
    ¬ Renewed now room src (admitInRoom cfg now room b src entry s) := by
  unfold admitInRoom
  dsimp only
  rw [hpend]
  dsimp only
  split
  · exact not_renewed_of_drop
  rename_i hcookie
  rw [if_pos (Int.not_le.mp fun hle => h ⟨not_not.mp hcookie, hle⟩)]
  exact not_renewed_of_drop

/-- What the next `REG` of a client in its room does, exactly: it renews the registration if it
carries no cookie or one that completes a pending registration, and otherwise it is dropped. -/
theorem handleReg_renewed_iff (h : s.HasClient room src.string u)
    (hfresh : now - u.lastSeen ≤ cfg.regTTL)
    (hlimit : (s.isRegRateLimited cfg now (ipKey src.string)).1 = false)
    (hcookie : cookie = [] ∨
      ∃ b, hexDecode cookie = some b ∧ b.length = pendingCookieBytes) :
    Renewed now room src (handleReg cfg now rnd room cookie src s) ↔
      Renewable now room cookie src s := by
  obtain ⟨s₀, hrooms, hstore, _, heq⟩ := handleReg_of_unlimited rnd room cookie hlimit
  have h₀ : s₀.HasClient room src.string u := by
    obtain ⟨e, he, hu⟩ := h
    exact ⟨e, hrooms ▸ he, hu⟩
  have hpending : s.pendingOf room src.string = s₀.pendingOf room src.string := by
    rw [State.pendingOf, State.pendingOf, State.getPendingReg, State.getPendingReg, hrooms, hstore]
  obtain ⟨entry, hentry, _⟩ := id h₀
  rw [heq, Renewable, hpending]
  rcases hcookie with rfl | ⟨b, hdecode, hlen⟩
  · rw [handleRegUnlimited, if_neg (by simp), hentry]
    exact iff_of_true (regInRoom_renewed h₀ hfresh hentry) (Or.inl rfl)
  have hne : cookie ≠ [] := by
    rintro rfl
    cases hdecode
    cases hlen
  rw [handleRegUnlimited_of_cookie hdecode hlen, or_iff_right hne, State.pendingOf]
  have hcompletes : ∀ pend : PendingReg, Completes now cookie pend ↔
      pend.cookie.val = b ∧ now - pend.createdAt ≤ pendingRegTTL := by
    intro pend
    rw [Completes, hdecode, Option.some_inj, eq_comm]
  cases hget : s₀.getPendingReg room src.string with
  | some pend =>
      simp only [Option.mem_some_iff, exists_eq_left', hcompletes]
      by_cases hok : pend.cookie.val = b ∧ now - pend.createdAt ≤ pendingRegTTL
      · rw [← hok.1]
        exact iff_of_true (completePending_renewed h₀ hfresh hok.2) ⟨rfl, hok.2⟩
      · exact iff_of_false (completePending_not_renewed hok) hok
  | none =>
      simp only [hentry, Option.bind_some]
      cases hpend : entry.pending.lookup src.string with
      | none =>
          refine iff_of_false ?_ (by simp)
          rw [admitInRoom, hpend]
          exact not_renewed_of_drop
      | some pend =>
          simp only [Option.mem_some_iff, exists_eq_left', hcompletes]
          by_cases hok : pend.cookie.val = b ∧ now - pend.createdAt ≤ pendingRegTTL
          · rw [← hok.1]
            exact iff_of_true (admitInRoom_renewed h₀ hfresh hentry hpend hok.2) ⟨rfl, hok.2⟩
          · exact iff_of_false (admitInRoom_not_renewed hpend hok) hok

end Qvole.Relay
