import Qvole.Lib.Window
import Qvole.Relay.Routability

/-!
# Who changes the record of a client

A client of a room is a record: when it was seen, where it is, and how many messages it has sent in the
current window. A datagram of another source leaves the record alone, whatever the datagram makes the
relay sweep or evict. A `MSG` of the client itself counts against its limit, and a `REG` of it moves the
time it was seen. One `REG` does more: it brings the cookie of a second challenge. The admission then
puts a new record in the place of the old one, and with it an unused message budget.

A window of the limiter starts with the first message behind the end of the one before, so an interval
of one window's length meets two windows at most. `budget` is what the limiter still lets through up to
the end of the interval; every message that is forwarded takes one from it.
-/

namespace Qvole.Relay

open Lib

variable {cfg : Config} {now : Int} {rnd : Option Cookie} {room cookie phase body R k : Bytes}
  {src : UDPAddr} {s s₁ s' : State} {outs : List Out} {u u' : UdpClient}

theorem State.HasClient.unique (h : s.HasClient R k u) (h' : s.HasClient R k u') : u = u' := by
  obtain ⟨e, he, hu⟩ := h
  obtain ⟨e', he', hu'⟩ := h'
  rw [he] at he'
  cases he'
  rw [hu] at hu'
  exact Option.some.inj hu'

/-! ### Datagrams of other sources -/

theorem State.HasClient.setRoom_same {e : RoomEntry} {p : RoomEntry × Counters}
    (h : s.HasClient R k u) (he : s.rooms.lookup room = some e)
    (hp : p.1.udpClients.lookup k = e.udpClients.lookup k) : (s.setRoom room p).HasClient R k u := by
  obtain ⟨e₀, he₀, hu⟩ := h
  by_cases hR : R = room
  · subst hR
    rw [he] at he₀
    cases he₀
    exact ⟨p.1, State.lookup_setRoom s R p, hp.trans hu⟩
  · refine ⟨e₀, ?_, hu⟩
    rw [State.lookup_setRoom_ne s p hR]
    exact he₀

theorem lookup_insert_other {m : GoMap Bytes UdpClient} {k' : Bytes} {v : UdpClient} (hne : k ≠ k') :
    (m.insert k' v).lookup k = m.lookup k := AList.lookup_insert_ne hne

theorem RegOutcome.frame (houtcome : RegOutcome cfg now rnd room cookie src s s' outs)
    (h : s.HasClient R k u) (hfresh : now - u.lastSeen ≤ cfg.regTTL) (hne : k ≠ src.string) :
    s'.HasClient R k u := by
  cases houtcome with
  | dropped hshrunk => exact h.shrunk hfresh hshrunk
  | created hshrunk _ _ hnone => exact (h.shrunk hfresh hshrunk).setRoom_new hnone
  | joined hshrunk _ _ he =>
      exact (h.shrunk hfresh hshrunk).setRoom_same he (lookup_insert_other hne)
  | admitted hshrunk _ _ _ _ _ he =>
      exact (h.shrunk hfresh hshrunk).setRoom_same he (lookup_insert_other hne)
  | refreshed hshrunk _ he =>
      exact (h.shrunk hfresh hshrunk).setRoom_same he (lookup_insert_other hne)
  | challengedStore hshrunk =>
      obtain ⟨e, he, hu⟩ := h.shrunk hfresh hshrunk
      exact ⟨e, he, hu⟩
  | renewed hshrunk _ he => exact (h.shrunk hfresh hshrunk).setRoom_same he rfl
  | challengedRoom hshrunk _ _ he => exact (h.shrunk hfresh hshrunk).setRoom_same he rfl

theorem MsgOutcome.frame (houtcome : MsgOutcome room phase body src s s' outs)
    (h : s.HasClient R k u) (hne : k ≠ src.string) : s'.HasClient R k u := by
  cases houtcome with
  | ignored => exact h
  | counted r hroom => exact h.setRoom_same hroom (lookup_insert_other hne)

/-- No datagram of one source changes the record of another one that was seen within `regTTL`: it stays
in its room with the same time, address and message count. -/
theorem other_clients_undisturbed (cfg : Config) (now : Int) (s : State) (data : Bytes)
    (src : UDPAddr) (rnd : Option Cookie) {R k : Bytes} {u : UdpClient} (hclient : s.HasClient R k u)
    (hfresh : now - u.lastSeen ≤ cfg.regTTL) (hne : k ≠ src.string) :
    (step cfg now s (.packet data src rnd)).1.HasClient R k u := by
  rcases step_cases cfg now s (.packet data src rnd) with
    ⟨_, _, _, room, cookie, heq, _, _, houtcome⟩ |
    ⟨_, _, _, room, phase, body, heq, _, houtcome⟩ | ⟨hshrunk, _⟩
  · cases heq
    exact houtcome.frame hclient hfresh hne
  · cases heq
    exact houtcome.frame hclient hne
  · exact hclient.shrunk hfresh hshrunk

theorem undisturbed_second_port : ∃ s u,
    s.HasClient (ascii "r") (ascii "127.0.0.1:2") u ∧
      (step .default 3 s (hostReg 1 none none)).1.HasClient (ascii "r") (ascii "127.0.0.1:2") u := by
  obtain ⟨u, hclient, hseen⟩ := State.hasClient_of_any
    (s := (machine .default).exec .empty (hostJoins [2])) (R := ascii "r")
    (k := ascii "127.0.0.1:2") (p := fun u => u.lastSeen = 2) (by decide +kernel)
  refine ⟨_, u, hclient, other_clients_undisturbed .default 3 _ _ _ none hclient ?_ (by decide)⟩
  rw [of_decide_eq_true hseen]
  decide

/-! ### The client's own datagrams -/

/-- The `REG` is within the rate limit and its cookie completes a pending registration. -/
def readmits (cfg : Config) (R k : Bytes) (s : State) (now : Int) : Event → Bool
  | .packet data src _ =>
    match parseReg data with
    | none => false
    | some (room, cookie) =>
      decide (room = R ∧ src.string = k) && !(s.isRegRateLimited cfg now (ipKey k)).1 &&
        (s.pendingOf R k).any fun pend => decide (Completes now cookie pend)
  | _ => false

def Out.isDrop : Out → Bool
  | .drop _ => true
  | _ => false

def forwarded (R k : Bytes) (x : LogEntry Event Out) : Bool :=
  match x.event with
  | .packet data src _ =>
    decide (src.string = k) && (parseMsg data).any (fun m => decide (m.1 = R)) &&
      x.outs.all fun o => !o.isDrop
  | _ => false

theorem readmits_of_pendingOf {data : Bytes} {pend : PendingReg}
    (hparse : parseReg data = some (R, cookie)) (hk : src.string = k)
    (hlimit : (s.isRegRateLimited cfg now (ipKey k)).1 = false)
    (hpend : s.pendingOf R k = some pend) (hcompletes : Completes now cookie pend) :
    readmits cfg R k s now (.packet data src rnd) = true := by
  simp [readmits, hparse, hk, hlimit, hpend, hcompletes]

theorem Shrunk.sameClient (h : Shrunk cfg now s s₁) (hu : s.HasClient R k u)
    (hu' : s₁.HasClient R k u') : u' = u :=
  (h.hasClient hu').unique hu

/-- A room put back with one record of the source: the record of `k` is that one or as before. -/
theorem State.HasClient.of_insert {e : RoomEntry} {p : RoomEntry × Counters} {v : UdpClient}
    (h : (s.setRoom room p).HasClient R k u) (he : s.rooms.lookup room = some e)
    (hp : p.1.udpClients = e.udpClients.insert src.string v) :
    s.HasClient R k u ∨ (R = room ∧ k = src.string ∧ u = v) := by
  rcases State.hasClient_setRoom h with ⟨rfl, hu⟩ | hu
  · rw [hp, GoMap.lookup_insert_if] at hu
    split at hu
    · rename_i hk
      exact Or.inr ⟨rfl, hk, (Option.some.inj hu).symm⟩
    · exact Or.inl ⟨e, he, hu⟩
  · exact Or.inl hu

/-- A `REG` that redeems no second cookie keeps the message count of every client that stays. -/
theorem RegOutcome.limiter {data : Bytes}
    (houtcome : RegOutcome cfg now rnd room cookie src s s' outs)
    (hparse : parseReg data = some (room, cookie))
    (hlimit : (s.isRegRateLimited cfg now (ipKey src.string)).1 = false)
    (hno : readmits cfg R k s now (.packet data src rnd) = false) (h : s.HasClient R k u)
    (h' : s'.HasClient R k u') : u'.rateLimiter = u.rateLimiter := by
  -- an admission of the source itself is a step that the hypothesis rules out
  have hadmission : ∀ pend, s.pendingOf room src.string = some pend → Completes now cookie pend →
      ¬ (R = room ∧ k = src.string) := by
    rintro pend hpend hcompletes ⟨rfl, rfl⟩
    rw [readmits_of_pendingOf hparse rfl hlimit hpend hcompletes] at hno
    cases hno
  have hstore : ∀ pend, s.getPendingReg room src.string = some pend →
      s.pendingOf room src.string = some pend := by
    intro pend hpend
    rw [State.pendingOf, hpend]
  cases houtcome with
  | dropped hshrunk => rw [hshrunk.sameClient h h']
  | created hshrunk hpend hcompletes =>
      rcases State.hasClient_setRoom h' with ⟨rfl, hu⟩ | hu
      · rw [firstEntry, ← AList.insert_empty, GoMap.lookup_insert_if] at hu
        split at hu
        · rename_i hk
          exact absurd ⟨rfl, hk⟩ (hadmission _ (hstore _ hpend) hcompletes)
        · cases hu
      · rw [hshrunk.sameClient h hu]
  | joined hshrunk hpend hcompletes he =>
      rcases h'.of_insert he rfl with hu | ⟨hR, hk, _⟩
      · rw [hshrunk.sameClient h hu]
      · exact absurd ⟨hR, hk⟩ (hadmission _ (hstore _ hpend) hcompletes)
  | @admitted _ entry _ pend _ _ hshrunk hnone hroom hpend hcompletes _ he =>
      rcases h'.of_insert he rfl with hu | ⟨hR, hk, _⟩
      · rw [hshrunk.sameClient h hu]
      · refine absurd ⟨hR, hk⟩ (hadmission pend ?_ hcompletes)
        rw [State.pendingOf, hnone, hroom]
        exact hpend
  | refreshed hshrunk _ he hu₁ =>
      rcases h'.of_insert he rfl with hu | ⟨rfl, rfl, rfl⟩
      · rw [hshrunk.sameClient h hu]
      · rw [← hshrunk.sameClient h ⟨_, he, hu₁⟩]
  | challengedStore hshrunk =>
      obtain ⟨e, he, hu⟩ := h'
      rw [hshrunk.sameClient h ⟨e, he, hu⟩]
  | renewed hshrunk _ he =>
      rcases State.hasClient_setRoom h' with ⟨rfl, hu⟩ | hu
      · rw [hshrunk.sameClient h ⟨_, he, hu⟩]
      · rw [hshrunk.sameClient h hu]
  | challengedRoom hshrunk _ _ he =>
      rcases State.hasClient_setRoom h' with ⟨rfl, hu⟩ | hu
      · rw [hshrunk.sameClient h ⟨_, he, hu⟩]
      · rw [hshrunk.sameClient h hu]

theorem reg_limiter {data : Bytes} (hparse : parseReg data = some (room, cookie))
    (hno : readmits cfg R k s now (.packet data src rnd) = false) (h : s.HasClient R k u)
    (h' : (step cfg now s (.packet data src rnd)).1.HasClient R k u') :
    u'.rateLimiter = u.rateLimiter := by
  rw [step, handlePacket_of_parseReg hparse] at h'
  rcases handleReg_cases cfg now rnd room cookie src s with ⟨_, hlimited⟩ | ⟨hlimit, houtcome⟩
  · rw [hlimited] at h'
    rw [h.unique h']
  · exact houtcome.limiter hparse hlimit hno h h'

theorem MsgOutcome.limiter (houtcome : MsgOutcome room phase body src s s' outs)
    (hother : ¬ (room = R ∧ src.string = k)) (h : s.HasClient R k u) (h' : s'.HasClient R k u') :
    u'.rateLimiter = u.rateLimiter := by
  cases houtcome with
  | ignored => rw [h.unique h']
  | counted r hroom =>
      rcases h'.of_insert hroom rfl with hu | ⟨hR, hk, _⟩
      · rw [h.unique hu]
      · exact absurd ⟨hR.symm, hk.symm⟩ hother

theorem parseMsg_of_parseReg {data : Bytes} {fields : Bytes × Bytes}
    (h : parseReg data = some fields) : parseMsg data = none := by
  unfold parseReg at h
  dsimp only at h
  split at h
  · rename_i hok
    unfold parseMsg
    dsimp only
    rw [if_neg]
    intro hmsg
    rw [hok.2.2.1] at hmsg
    exact absurd hmsg.2.2 (by decide)
  · cases h

variable (cfg now phase body) in
/-- A `MSG` of the client counts, and is forwarded unless the limit is reached. -/
theorem forwardMsg_record (h : s.HasClient R src.string u) :
    (forwardMsg cfg now R phase body src s).1.HasClient R src.string
        { u with rateLimiter := (u.rateLimiter.isLimited cfg now).2 } ∧
      ((forwardMsg cfg now R phase body src s).2.all fun o => !o.isDrop) =
        !(u.rateLimiter.isLimited cfg now).1 := by
  obtain ⟨entry, hentry, hu⟩ := h
  unfold forwardMsg
  dsimp only
  rw [hentry]
  dsimp only
  rw [hu]
  dsimp only
  split
  · rename_i hlimited
    refine ⟨⟨_, State.lookup_setRoom _ _ _, AList.lookup_insert _⟩, ?_⟩
    rw [hlimited]
    rfl
  · rename_i hfree
    refine ⟨⟨_, State.lookup_setRoom _ _ _, AList.lookup_insert _⟩, ?_⟩
    rw [Bool.not_eq_true] at hfree
    rw [hfree, List.all_map]
    simp [Out.isDrop]

/-- What one input does to the message count of a client that redeems no second cookie: nothing, or it
is a message and counts. -/
theorem step_limiter (h : s.HasClient R k u) (e : Event) (hno : readmits cfg R k s now e = false) :
    (forwarded R k ⟨now, e, (step cfg now s e).2⟩ = false ∧
      ∀ u', (step cfg now s e).1.HasClient R k u' → u'.rateLimiter = u.rateLimiter) ∨
    (forwarded R k ⟨now, e, (step cfg now s e).2⟩ = !(u.rateLimiter.isLimited cfg now).1 ∧
      (step cfg now s e).1.HasClient R k
        { u with rateLimiter := (u.rateLimiter.isLimited cfg now).2 }) := by
  cases e with
  | rateTick =>
      obtain ⟨hrooms, _, _⟩ := State.cleanupRateMaps_eq cfg now s
      refine Or.inl ⟨rfl, fun u' hu' => ?_⟩
      obtain ⟨e, he, hlook⟩ := hu'
      rw [h.unique ⟨e, hrooms ▸ he, hlook⟩]
  | roomTick =>
      refine Or.inl ⟨rfl, fun u' hu' => ?_⟩
      rw [(State.cleanupRooms_shrunk s).sameClient h hu']
  | packet data src rnd =>
      rcases handlePacket_cases data with ⟨room, cookie, hparse, heq⟩ |
        ⟨room, phase, body, hparse, heq⟩ | ⟨why, heq⟩
      · refine Or.inl ⟨by simp [forwarded, parseMsg_of_parseReg hparse], fun u' hu' => ?_⟩
        exact reg_limiter hparse hno h hu'
      · rw [step, heq]
        by_cases hown : room = R ∧ src.string = k
        · obtain ⟨rfl, rfl⟩ := hown
          obtain ⟨hclient, hall⟩ := forwardMsg_record cfg now phase body h
          exact Or.inr ⟨by simp [forwarded, hparse, hall], hclient⟩
        · refine Or.inl ⟨?_, fun u' hu' => ?_⟩
          · simp only [forwarded, hparse, Option.any_some, Bool.and_eq_false_imp, Bool.and_eq_true,
              decide_eq_true_eq]
            intro hboth
            exact absurd ⟨hboth.2, hboth.1⟩ hown
          · exact (forwardMsg_outcome).limiter hown h hu'
      · refine Or.inl ⟨by simp [forwarded, step, heq, Out.isDrop], fun u' hu' => ?_⟩
        rw [step, heq] at hu'
        rw [h.unique hu']

/-! ### The window of a client -/

theorem RateLimiter.isLimited_windowStart (cfg : Config) (now : Int) (r : RateLimiter) :
    (r.isLimited cfg now).2.windowStart = now ∨ (r.isLimited cfg now).2.windowStart = r.windowStart := by
  by_cases hover : cfg.rateWindow < now - r.windowStart
  · left
    rw [isLimited, if_pos hover]
    split
    · rfl
    · rfl
  · right
    rw [isLimited, if_neg hover]
    split
    · rfl
    · rfl

theorem RegOutcome.limiter_cases (houtcome : RegOutcome cfg now rnd room cookie src s s' outs)
    (h' : s'.HasClient R k u') :
    (∃ u, s.HasClient R k u ∧ u'.rateLimiter = u.rateLimiter) ∨ u'.rateLimiter = ⟨0, now⟩ := by
  cases houtcome with
  | dropped hshrunk => exact Or.inl ⟨u', hshrunk.hasClient h', rfl⟩
  | created hshrunk =>
      rcases State.hasClient_setRoom h' with ⟨rfl, hu⟩ | hu
      · rw [firstEntry, ← AList.insert_empty, GoMap.lookup_insert_if] at hu
        split at hu
        · cases hu
          exact Or.inr rfl
        · cases hu
      · exact Or.inl ⟨u', hshrunk.hasClient hu, rfl⟩
  | joined hshrunk _ _ he =>
      rcases h'.of_insert he rfl with hu | ⟨_, _, rfl⟩
      · exact Or.inl ⟨u', hshrunk.hasClient hu, rfl⟩
      · exact Or.inr rfl
  | admitted hshrunk _ _ _ _ _ he =>
      rcases h'.of_insert he rfl with hu | ⟨_, _, rfl⟩
      · exact Or.inl ⟨u', hshrunk.hasClient hu, rfl⟩
      · exact Or.inr rfl
  | refreshed hshrunk _ he hu₁ =>
      rcases h'.of_insert he rfl with hu | ⟨rfl, rfl, rfl⟩
      · exact Or.inl ⟨u', hshrunk.hasClient hu, rfl⟩
      · exact Or.inl ⟨_, hshrunk.hasClient ⟨_, he, hu₁⟩, rfl⟩
  | challengedStore hshrunk =>
      obtain ⟨e, he, hu⟩ := h'
      exact Or.inl ⟨u', hshrunk.hasClient ⟨e, he, hu⟩, rfl⟩
  | renewed hshrunk _ he =>
      rcases State.hasClient_setRoom h' with ⟨rfl, hu⟩ | hu
      · exact Or.inl ⟨u', hshrunk.hasClient ⟨_, he, hu⟩, rfl⟩
      · exact Or.inl ⟨u', hshrunk.hasClient hu, rfl⟩
  | challengedRoom hshrunk _ _ he =>
      rcases State.hasClient_setRoom h' with ⟨rfl, hu⟩ | hu
      · exact Or.inl ⟨u', hshrunk.hasClient ⟨_, he, hu⟩, rfl⟩
      · exact Or.inl ⟨u', hshrunk.hasClient hu, rfl⟩

theorem forwardMsg_limiter_cases (h' : (forwardMsg cfg now room phase body src s).1.HasClient R k u') :
    ∃ u, s.HasClient R k u ∧
      (u'.rateLimiter = u.rateLimiter ∨ u'.rateLimiter = (u.rateLimiter.isLimited cfg now).2) := by
  have houtcome : MsgOutcome room phase body src s (forwardMsg cfg now room phase body src s).1
      (forwardMsg cfg now room phase body src s).2 := forwardMsg_outcome
  generalize hresult : forwardMsg cfg now room phase body src s = result at h' houtcome
  obtain ⟨s', outs⟩ := result
  cases houtcome with
  | ignored => exact ⟨u', h', Or.inl rfl⟩
  | @counted entry u _ r hroom hu =>
      rcases h'.of_insert hroom rfl with hold | ⟨rfl, rfl, _⟩
      · exact ⟨u', hold, Or.inl rfl⟩
      · have hclient : s.HasClient R src.string u := ⟨entry, hroom, hu⟩
        have hcounted := (forwardMsg_record cfg now phase body hclient).1
        rw [hresult] at hcounted
        rw [h'.unique hcounted]
        exact ⟨u, hclient, Or.inr rfl⟩

/-- A window starts when the relay says so, and then stays. -/
theorem step_windowStart {e : Event} (h' : (step cfg now s e).1.HasClient R k u') :
    u'.rateLimiter.windowStart = now ∨
      ∃ u, s.HasClient R k u ∧ u'.rateLimiter.windowStart = u.rateLimiter.windowStart := by
  cases e with
  | rateTick =>
      obtain ⟨hrooms, _, _⟩ := State.cleanupRateMaps_eq cfg now s
      obtain ⟨e, he, hu⟩ := h'
      exact Or.inr ⟨u', ⟨e, hrooms ▸ he, hu⟩, rfl⟩
  | roomTick => exact Or.inr ⟨u', (State.cleanupRooms_shrunk s).hasClient h', rfl⟩
  | packet data src rnd =>
      rw [step] at h'
      rcases handlePacket_cases data with ⟨room, cookie, _, heq⟩ | ⟨room, phase, body, _, heq⟩ | ⟨why, heq⟩
      · rw [heq] at h'
        rcases handleReg_cases cfg now rnd room cookie src s with ⟨_, hlimited⟩ | ⟨_, houtcome⟩
        · rw [hlimited] at h'
          exact Or.inr ⟨u', h', rfl⟩
        · rcases houtcome.limiter_cases h' with ⟨u, hu, hsame⟩ | hnew
          · exact Or.inr ⟨u, hu, by rw [hsame]⟩
          · exact Or.inl (by rw [hnew])
      · rw [heq] at h'
        obtain ⟨u, hu, hsame | hcounted⟩ := forwardMsg_limiter_cases h'
        · exact Or.inr ⟨u, hu, by rw [hsame]⟩
        · rw [hcounted]
          exact (RateLimiter.isLimited_windowStart cfg now u.rateLimiter).imp_right fun hstart => ⟨u, hu, hstart⟩
      · rw [heq] at h'
        exact Or.inr ⟨u', h', rfl⟩

/-! ### The messages of an interval -/

/-- How many messages the limiter lets through up to `b`, which is at most one window away: the rest of
the current window, and another one if the current window ends before. -/
def RateLimiter.budget (cfg : Config) (b : Int) (r : RateLimiter) : Nat :=
  (cfg.maxMsgRate - r.msgCount) +
    if b ≤ r.windowStart + cfg.rateWindow then 0 else cfg.maxMsgRate

/-- The window of the limiter. The next one starts no earlier than a nanosecond behind the end of it. -/
def RateLimiter.window (r : RateLimiter) : Option Window := some ⟨r.windowStart, r.msgCount⟩

theorem RateLimiter.budget_eq (b : Int) (r : RateLimiter) :
    r.budget cfg b = Window.budget cfg.maxMsgRate (cfg.rateWindow + 1) b r.window := by
  rw [budget, window, Window.budget, ← ite_not]
  congr 2
  apply propext
  dsimp only
  omega

theorem RateLimiter.isLimited_moves (r : RateLimiter) :
    Window.Moves cfg.maxMsgRate (cfg.rateWindow + 1) now (!(r.isLimited cfg now).1) r.window
      (r.isLimited cfg now).2.window := by
  have hpos : 0 < cfg.maxMsgRate := cfg.caps_pos _ (by simp)
  rw [isLimited]
  by_cases hover : cfg.rateWindow < now - r.windowStart
  · rw [if_pos hover, if_neg (Nat.not_le.mpr hpos)]
    refine .first hpos ?_
    intro old hold
    rw [← Option.some.inj hold]
    dsimp only
    omega
  · rw [if_neg hover]
    split
    · exact .keep _
    · exact .next _ (Nat.lt_of_not_le ‹_›)

theorem RateLimiter.budget_isLimited {a : Int} (hfrom : a ≤ now) (hto : now ≤ a + cfg.rateWindow)
    (r : RateLimiter) :
    (r.isLimited cfg now).2.budget cfg (a + cfg.rateWindow) + (!(r.isLimited cfg now).1).toNat ≤
      r.budget cfg (a + cfg.rateWindow) := by
  rw [budget_eq, budget_eq]
  exact r.isLimited_moves.budget hfrom hto (by omega)

def State.Admitted (R k : Bytes) (s : State) : Prop := ∃ u, s.HasClient R k u

instance (R k : Bytes) (s : State) : Decidable (s.Admitted R k) :=
  decidable_of_iff ((s.rooms.lookup R).any fun e => (e.udpClients.lookup k).isSome) (by
    simp only [State.Admitted, State.HasClient, Option.any_eq_true, Option.isSome_iff_exists]
    exact ⟨fun ⟨e, he, u, hu⟩ => ⟨u, e, he, hu⟩, fun ⟨u, e, he, hu⟩ => ⟨e, he, u, hu⟩⟩)

/-- The step falls into the interval of one window from `a` on, and the source is in the room. -/
def Within (cfg : Config) (R k : Bytes) (a : Int) (s : State) (now : Int) : Prop :=
  s.Admitted R k ∧ a ≤ now ∧ now ≤ a + cfg.rateWindow

instance (cfg : Config) (R k : Bytes) (a : Int) (s : State) (now : Int) :
    Decidable (Within cfg R k a s now) :=
  inferInstanceAs (Decidable (_ ∧ _ ∧ _))

theorem forwarded_within_budget {a : Int} {log : Log}
    (hsteps : (machine cfg).Steps (fun s now e => Within cfg R k a s now ∧
      readmits cfg R k s now e = false) s log s') :
    log.countP (forwarded R k) ≤ 2 * cfg.maxMsgRate ∧
      ∀ u, s'.HasClient R k u → log.countP (forwarded R k) +
        u.rateLimiter.budget cfg (a + cfg.rateWindow) ≤ 2 * cfg.maxMsgRate := by
  refine hsteps.invariant_log (I := fun log s' => log.countP (forwarded R k) ≤ 2 * cfg.maxMsgRate ∧
    ∀ u, s'.HasClient R k u → log.countP (forwarded R k) +
      u.rateLimiter.budget cfg (a + cfg.rateWindow) ≤ 2 * cfg.maxMsgRate) ?_ ?_
  · refine ⟨Nat.zero_le _, fun u _ => ?_⟩
    rw [List.countP_nil, Nat.zero_add, RateLimiter.budget_eq]
    exact Window.budget_le _
  intro log s now e ih hok
  obtain ⟨⟨⟨u, hu⟩, hfrom, hto⟩, hno⟩ := hok
  have hbudget := ih.2 u hu
  rw [List.countP_cons]
  rcases step_limiter hu e hno with ⟨hnot, hsame⟩ | ⟨hcount, hclient⟩
  · rw [show forwarded R k ⟨now, e, ((machine cfg).step s now e).2⟩ = false from hnot]
    refine ⟨ih.1, fun u' hu' => ?_⟩
    rw [hsame u' hu']
    exact hbudget
  · rw [show forwarded R k ⟨now, e, ((machine cfg).step s now e).2⟩ = _ from hcount]
    have hspent := u.rateLimiter.budget_isLimited hfrom hto
    rw [Window.ite_eq_toNat]
    have hnext : log.countP (forwarded R k) + (!(u.rateLimiter.isLimited cfg now).1).toNat +
        (u.rateLimiter.isLimited cfg now).2.budget cfg (a + cfg.rateWindow) ≤ 2 * cfg.maxMsgRate := by
      omega
    refine ⟨Nat.le_of_add_right_le hnext, fun u' hu' => ?_⟩
    rw [hu'.unique hclient]
    exact hnext

def regOf (k : Bytes) : Event → Bool
  | .packet data src _ => decide (src.string = k) && (parseReg data).isSome
  | _ => false

/-- As long as a source stays in the room and redeems no second cookie, no interval of one window sees
more than twice the message rate from it, and no sequence of its `REG`s touches its message count. -/
theorem msg_rate_of_no_readmission (cfg : Config) (R k : Bytes) :
    (∀ (a : Int) (s s' : State) (log : Log),
      (machine cfg).Steps (fun s now e => Within cfg R k a s now ∧
        readmits cfg R k s now e = false) s log s' →
      log.countP (forwarded R k) ≤ 2 * cfg.maxMsgRate) ∧
    ∀ (s s' : State) (log : Log) (u u' : UdpClient),
      (machine cfg).Steps (fun s now e => s.Admitted R k ∧ regOf k e = true ∧
        readmits cfg R k s now e = false) s log s' →
      s.HasClient R k u → s'.HasClient R k u' → u'.rateLimiter = u.rateLimiter := by
  constructor
  · intro a s s' log hsteps
    exact (forwarded_within_budget hsteps).1
  · intro s s' log u u' hsteps hu
    refine hsteps.invariant_log
      (I := fun _ s' => ∀ {u'}, s'.HasClient R k u' → u'.rateLimiter = u.rateLimiter) ?_ ?_
    · intro u' hu'
      rw [hu.unique hu']
    · intro log s now e ih hok u' hu'
      obtain ⟨⟨u₀, hu₀⟩, hreg, hno⟩ := hok
      cases e with
      | packet data src rnd =>
          obtain ⟨fields, hparse⟩ :=
            Option.isSome_iff_exists.mp (Bool.and_eq_true_iff.mp hreg).2
          rw [reg_limiter hparse hno hu₀ hu']
          exact ih hu₀
      | rateTick => cases hreg
      | roomTick => cases hreg

def ms (n : Nat) : Int := n * 1000000

def burst (t : Int) (n : Nat) : List (Int × Event) :=
  List.replicate n (t, .packet (ascii "MSG r spake2 00") ⟨[127, 0, 0, 1], 1, []⟩ none)

/-- Port 1 is challenged before the room exists and again after port 2 has created it, and comes in by
the first of the two cookies. -/
def twoCookies : List (Int × Event) :=
  [(0, hostReg 1 none (some (cookieOf 1))), (0, hostReg 2 none (some (cookieOf 2))),
    (0, hostReg 2 (some (cookieOf 2)) none), (0, hostReg 1 none (some (cookieOf 3))),
    (0, hostReg 1 (some (cookieOf 1)) none)]

/-- Twice the message rate within one window, around the start of the second window. -/
theorem msg_rate_two_windows : ∃ s s' log,
    (machine .default).Steps (fun s now e => Within .default (ascii "r") (ascii "127.0.0.1:1") (ms 500)
      s now ∧ readmits .default (ascii "r") (ascii "127.0.0.1:1") s now e = false) s log s' ∧
    20 ≤ log.countP (forwarded (ascii "r") (ascii "127.0.0.1:1")) ∧
    log.countP (forwarded (ascii "r") (ascii "127.0.0.1:1")) ≤ 2 * Config.default.maxMsgRate := by
  let s := (machine .default).exec .empty twoCookies
  have hsteps := (Machine.Steps.refl (m := machine .default) s).exec
    (show (machine .default).Admissible (fun s now e =>
      Within .default (ascii "r") (ascii "127.0.0.1:1") (ms 500) s now ∧
        readmits .default (ascii "r") (ascii "127.0.0.1:1") s now e = false) none s
      (burst (ms 500) 10 ++ burst (ms 1100) 12) by decide +kernel)
  refine ⟨s, _, _, hsteps, ?_, (msg_rate_of_no_readmission .default _ _).1 _ _ _ _ hsteps⟩
  decide +kernel

/-- With the second cookie redeemed in between, one window sees thirty messages. -/
theorem msg_rate_exceeded : ∃ older s s' log,
    (machine .default).Run (fun _ _ _ => True) older s ∧
    (machine .default).Steps (fun s now _ => Within .default (ascii "r") (ascii "127.0.0.1:1") (ms 500)
      s now) s log s' ∧
    2 * Config.default.maxMsgRate < log.countP (forwarded (ascii "r") (ascii "127.0.0.1:1")) := by
  obtain ⟨older, hrun⟩ := Machine.Run.init.exec
    (show (machine .default).Admissible (fun _ _ _ => True) none .empty twoCookies by decide +kernel)
  have hsteps := (Machine.Steps.refl (m := machine .default)
      ((machine .default).exec .empty twoCookies)).exec
    (show (machine .default).Admissible (fun s now _ =>
      Within .default (ascii "r") (ascii "127.0.0.1:1") (ms 500) s now) none _
      (burst (ms 500) 10 ++ burst (ms 1100) 10 ++
        [(ms 1200, hostReg 1 (some (cookieOf 3)) none)] ++ burst (ms 1200) 10) by decide +kernel)
  refine ⟨older, _, _, _, hrun, hsteps, ?_⟩
  decide +kernel

end Qvole.Relay
