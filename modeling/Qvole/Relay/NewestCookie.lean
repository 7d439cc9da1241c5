import Qvole.Relay.Routability

/-!
# The newest cookie

A source can have two pending registrations for one room: one in the store, from before somebody else
created the room, and one in the room, from after that. The newest challenge then is that of the room,
but a cookie that comes back is compared with the store first. So the newest cookie counts exactly when
the store has nothing else for the source.

A room never has a pending registration older than the newest challenge of its source: every challenge
replaces it, or finds no room (`inRoom_newest`).
-/

namespace Qvole.Relay

open Lib

/-- The newest challenge of the log for the room `R` to `k` has the cookie `c` and was sent at `t`. -/
def Newest (R k : Bytes) (c : Cookie) (t : Int) (log : Log) : Prop :=
  ∃ since x older, log = since ++ x :: older ∧ x.time = t ∧ Challenges R c k x ∧
    ∀ y ∈ since, ∀ c', ¬ Challenges R c' k y

/-- The rate limit of a `REG` and the caps it meets once its cookie is right. -/
def limitDrops : List Drop := [.rateLimitedReg, .maxRoomsReached, .roomLimitPerIP, .hardCap, .prefixLimit]

/-- A `REG` was answered, or held up by its rate limit or one of the caps. -/
def Honoured (room : Bytes) (src : UDPAddr) (outs : List Out) : Prop :=
  outs = [.write (ascii "REGD " ++ room ++ ascii " OK " ++ src.string ++ [10]) src] ∨
    ∃ why ∈ limitDrops, outs = [.drop why]

/-- The cookie completes what the store has for the source. If the store has nothing, the room has a
pending registration of the source; or there is no room, and the prefix may not have another one. -/
def Findable (cfg : Config) (now : Int) (room cookie : Bytes) (src : UDPAddr) (s : State) : Prop :=
  match s.getPendingReg room src.string with
  | some pend => Completes now cookie pend
  | none =>
    match s.rooms.lookup room with
    | some entry => src.string ∈ entry.pending
    | none => cfg.maxRoomsPerIP ≤ s.counters.countIPRooms (ipKey src.string)

variable {cfg : Config} {now t : Int} {rnd : Option Cookie} {room cookie b phase body R k : Bytes}
  {c c' : Cookie} {src : UDPAddr} {s s' : State} {outs : List Out} {p : PendingReg} {log : Log}

/-! ### The answers of the relay -/

theorem space_notMem_of_valid (h : validRoomName room) : (32 : UInt8) ∉ room := by
  obtain ⟨_, _, hprint⟩ := validRoomName_iff.mp h
  exact space_notMem hprint

theorem valid_of_parseReg {data : Bytes} (h : parseReg data = some (room, cookie)) :
    validRoomName room := by
  simp only [parseReg] at h
  split at h
  · rename_i hok
    rw [Option.some.inj h] at hok
    exact hok.2.2.2
  · cases h

theorem regdChallenge_inj (hroom : (32 : UInt8) ∉ room) (hR : (32 : UInt8) ∉ R)
    (h : regdChallenge room c = regdChallenge R c') : room = R ∧ c = c' := by
  have hfields : room ++ 32 :: (hexEncode c.val ++ [10]) = R ++ 32 :: (hexEncode c'.val ++ [10]) := by
    simpa [regdChallenge] using h
  obtain ⟨hrooms, hcookies⟩ := eq_of_append_cons hfields hroom hR
  refine ⟨hrooms, Subtype.ext (Option.some.inj ?_)⟩
  rw [← hexDecode_hexEncode c.val, ← hexDecode_hexEncode c'.val, List.append_cancel_right hcookies]

theorem regdOK_ne_regdChallenge (hroom : (32 : UInt8) ∉ room) (hR : (32 : UInt8) ∉ R) :
    regdOK room src ≠ regdChallenge R c := by
  intro h
  have hfields : room ++ 32 :: (ascii "OK " ++ src.string ++ [10]) =
      R ++ 32 :: (hexEncode c.val ++ [10]) := by
    have hok : ascii " OK " = 32 :: ascii "OK " := rfl
    simpa [regdOK, regdChallenge, hok] using h
  obtain ⟨_, hfirst⟩ := eq_of_append_cons hfields hroom hR
  have hletter : (79 : UInt8) ∈ hexEncode c.val ++ [10] := by
    rw [← hfirst]
    exact List.mem_cons_self
  rcases List.mem_append.mp hletter with hmem | hmem
  · exact notMem_hexEncode rfl hmem
  · exact absurd hmem (by decide)

theorem not_challenges_sendREGD (hroom : (32 : UInt8) ∉ room) (hR : (32 : UInt8) ∉ R)
    {x : LogEntry Event Out} (hx : x.outs = sendREGD room src) : ¬ Challenges R c k x := by
  rintro ⟨addr, _, hwrite⟩
  rw [hx, sendREGD, List.mem_singleton] at hwrite
  injection hwrite with hmsg
  exact regdOK_ne_regdChallenge hroom hR hmsg.symm

theorem of_challenges_sendRegChallenge (hroom : (32 : UInt8) ∉ room) (hR : (32 : UInt8) ∉ R)
    {x : LogEntry Event Out} (hx : x.outs = sendRegChallenge room c' src) (h : Challenges R c k x) :
    R = room ∧ k = src.string ∧ c = c' := by
  obtain ⟨addr, hk, hwrite⟩ := h
  rw [hx, sendRegChallenge, List.mem_singleton] at hwrite
  injection hwrite with hmsg haddr
  obtain ⟨hrooms, hcookies⟩ := regdChallenge_inj hR hroom hmsg
  exact ⟨hrooms, by rw [← hk, haddr], hcookies⟩

/-! ### The room has the newest registration -/

theorem State.PendsInRoom.of_insert {e : RoomEntry} {q : RoomEntry × Counters} {v : PendingReg}
    (h : (s.setRoom room q).PendsInRoom room k p) (hq : q.1.pending = e.pending.insert k v) :
    p = v := by
  obtain ⟨e', he', hp⟩ := h
  rw [State.lookup_setRoom] at he'
  cases he'
  rw [hq, AList.lookup_insert] at hp
  exact (Option.some.inj hp).symm

/-- What a room has pending for a source that has just been challenged is that challenge. -/
theorem RegOutcome.challenged (houtcome : RegOutcome cfg now rnd room cookie src s s' outs)
    (hroom : (32 : UInt8) ∉ room) (hR : (32 : UInt8) ∉ R) {x : LogEntry Event Out} (hx : x.outs = outs)
    (h : Challenges R c k x) (hp : s'.PendsInRoom R k p) : p.cookie = c ∧ p.createdAt = now := by
  cases houtcome with
  | dropped _ hsilent =>
      obtain ⟨addr, _, hwrite⟩ := h
      rw [hx] at hwrite
      exact absurd hwrite (hsilent _ _)
  | created => exact absurd h (not_challenges_sendREGD hroom hR hx)
  | joined => exact absurd h (not_challenges_sendREGD hroom hR hx)
  | admitted => exact absurd h (not_challenges_sendREGD hroom hR hx)
  | refreshed => exact absurd h (not_challenges_sendREGD hroom hR hx)
  | challengedStore _ _ hnone =>
      obtain ⟨rfl, _, _⟩ := of_challenges_sendRegChallenge hroom hR hx h
      obtain ⟨e, he, _⟩ := hp
      rw [hnone] at he
      cases he
  | renewed =>
      obtain ⟨rfl, rfl, rfl⟩ := of_challenges_sendRegChallenge hroom hR hx h
      rw [hp.of_insert rfl]
      exact ⟨rfl, rfl⟩
  | challengedRoom =>
      obtain ⟨rfl, rfl, rfl⟩ := of_challenges_sendRegChallenge hroom hR hx h
      rw [hp.of_insert rfl]
      exact ⟨rfl, rfl⟩

/-- A `REG` that was answered with `OK` has its source in the room. -/
theorem RegOutcome.in_of_ok (houtcome : RegOutcome cfg now rnd room cookie src s s' outs)
    (hroom : (32 : UInt8) ∉ room) (hok : outs = sendREGD room src) : Renewed now room src (s', outs) := by
  have hchallenge : ∀ c, sendRegChallenge room c src ≠ sendREGD room src := by
    intro c heq
    injection heq with hout
    injection hout with hmsg
    exact regdOK_ne_regdChallenge hroom hroom hmsg.symm
  cases houtcome with
  | dropped _ hsilent =>
      rw [hok] at hsilent
      exact absurd (List.mem_singleton.mpr rfl) (hsilent (regdOK room src) src)
  | created => exact renewed_setRoom (AList.insert_empty _ _).symm rfl
  | joined => exact renewed_setRoom rfl rfl
  | admitted => exact renewed_setRoom rfl rfl
  | refreshed => exact renewed_setRoom rfl rfl
  | challengedStore => exact absurd hok (hchallenge _)
  | renewed => exact absurd hok (hchallenge _)
  | challengedRoom => exact absurd hok (hchallenge _)

theorem State.pendingOf_insert {m : GoMap Bytes PendingReg} {q : RoomEntry × Counters} {v : PendingReg}
    (hnone : s.getPendingReg room k = none) (hq : q.1.pending = m.insert k v) :
    (s.setRoom room q).pendingOf room k = some v := by
  have hsame : (s.setRoom room q).getPendingReg room k = none := hnone
  rw [State.pendingOf, hsame, State.lookup_setRoom, Option.bind_some, hq, AList.lookup_insert]

/-- The registration a challenge leaves behind is the one its answer is compared with, unless the room
was there and the store had another one. -/
theorem RegOutcome.pendingOf_challenged (houtcome : RegOutcome cfg now rnd room cookie src s s' outs)
    (hroom : (32 : UInt8) ∉ room) (houts : outs = sendRegChallenge room c src)
    (hstore : s.getPendingReg room src.string = none ∨ s.rooms.lookup room = none) :
    s'.pendingOf room src.string = some ⟨c, now, src⟩ := by
  have hcookie : ∀ cb, sendRegChallenge room cb src = sendRegChallenge room c src → cb = c := by
    intro cb heq
    injection heq with hout
    injection hout with hmsg
    exact (regdChallenge_inj hroom hroom hmsg).2
  have hnot : sendREGD room src ≠ sendRegChallenge room c src := by
    intro heq
    injection heq with hout
    injection hout with hmsg
    exact regdOK_ne_regdChallenge hroom hroom hmsg
  -- a room that is there after the sweep was there before, so the store had nothing
  have hempty : ∀ {s₁ e}, Shrunk cfg now s s₁ → s₁.rooms.lookup room = some e →
      s₁.getPendingReg room src.string = none := by
    intro s₁ e hshrunk he
    obtain ⟨e₀, he₀, _⟩ := hshrunk.room he
    rw [he₀] at hstore
    have hnone := hstore.resolve_right (by simp)
    cases hlook : s₁.getPendingReg room src.string with
    | none => rfl
    | some pend =>
        have hsome : s.getPendingReg room src.string = some pend := hshrunk.store hlook
        rw [hnone] at hsome
        cases hsome
  cases houtcome with
  | dropped _ hsilent =>
      rw [houts] at hsilent
      exact absurd (List.mem_singleton.mpr rfl) (hsilent (regdChallenge room c) src)
  | created => exact absurd houts hnot
  | joined => exact absurd houts hnot
  | admitted => exact absurd houts hnot
  | refreshed => exact absurd houts hnot
  | challengedStore =>
      rw [hcookie _ houts, State.pendingOf, State.getPendingReg, AList.lookup_insert]
  | renewed hshrunk _ he =>
      rw [hcookie _ houts]
      exact State.pendingOf_insert (hempty hshrunk he) rfl
  | challengedRoom hshrunk _ _ he =>
      rw [hcookie _ houts]
      exact State.pendingOf_insert (hempty hshrunk he) rfl

theorem MsgOutcome.not_challenges (houtcome : MsgOutcome room phase body src s s' outs)
    {x : LogEntry Event Out} (hx : x.outs = outs) : ¬ Challenges R c k x := by
  intro h
  obtain ⟨addr, _, hwrite⟩ := h
  rw [hx] at hwrite
  cases houtcome with
  | ignored why => exact silent_drop why _ _ hwrite
  | counted r _ _ hwrites =>
      have hline := congrArg (List.take 5) (hwrites _ _ hwrite).1
      cases hline

theorem Newest.cons_cases {x : LogEntry Event Out} (h : Newest R k c t (x :: log)) :
    (x.time = t ∧ Challenges R c k x) ∨ ((∀ c', ¬ Challenges R c' k x) ∧ Newest R k c t log) := by
  obtain ⟨since, y, older, hlog, htime, hchallenge, hnone⟩ := h
  cases since with
  | nil =>
      cases hlog
      exact Or.inl ⟨htime, hchallenge⟩
  | cons z since =>
      cases hlog
      refine Or.inr ⟨hnone x List.mem_cons_self, since, y, older, rfl, htime, hchallenge, ?_⟩
      exact fun y hy => hnone y (List.mem_cons_of_mem x hy)

/-- Rooms have no pending registration but the newest of its source. -/
def InRoomNewest (log : Log) (s : State) : Prop :=
  ∀ R k c t p, (32 : UInt8) ∉ R → Newest R k c t log → s.PendsInRoom R k p →
    p.cookie = c ∧ p.createdAt = t

theorem step_inRoomNewest (h : InRoomNewest log s) (now : Int) (e : Event) :
    InRoomNewest (⟨now, e, (step cfg now s e).2⟩ :: log) (step cfg now s e).1 := by
  intro R k c t p hR hnewest hp
  rcases step_cases cfg now s e with ⟨data, src, rnd, room, cookie, rfl, hparse, _, houtcome⟩ |
    ⟨data, src, rnd, room, phase, body, rfl, _, houtcome⟩ | ⟨hshrunk, hsilent⟩
  · rcases hnewest.cons_cases with ⟨rfl, hchallenge⟩ | ⟨hnone, hnewest⟩
    · exact houtcome.challenged (space_notMem_of_valid (valid_of_parseReg hparse)) hR rfl hchallenge hp
    · rcases houtcome.pendsInRoom hp with hp | ⟨rfl, rfl, _, _, houts⟩
      · exact h R k c t p hR hnewest hp
      · refine absurd ⟨src, rfl, ?_⟩ (hnone p.cookie)
        rw [houts]
        exact List.mem_singleton.mpr rfl
  · rcases hnewest.cons_cases with ⟨_, hchallenge⟩ | ⟨_, hnewest⟩
    · exact absurd hchallenge (houtcome.not_challenges rfl)
    · exact h R k c t p hR hnewest (houtcome.pendsInRoom hp)
  · rcases hnewest.cons_cases with ⟨_, addr, _, hwrite⟩ | ⟨_, hnewest⟩
    · exact absurd hwrite (hsilent _ _)
    · exact h R k c t p hR hnewest (hshrunk.pendsInRoom hp)

theorem inRoom_newest (hrun : (machine cfg).Run (fun _ _ _ => True) log s) : InRoomNewest log s := by
  refine hrun.invariant_log ?_ fun _ _ now e h _ => step_inRoomNewest h now e
  intro R k c t p _ _ hp
  obtain ⟨e, he, _⟩ := hp
  cases he

/-! ### What becomes of a cookie -/

theorem honoured_drop {why : Drop} (h : why ∈ limitDrops) : Honoured room src [.drop why] :=
  Or.inr ⟨why, h, rfl⟩

theorem not_honoured_drop {why : Drop} (h : why ∉ limitDrops) : ¬ Honoured room src [.drop why] := by
  intro hhonoured
  rcases hhonoured with hok | ⟨why', hmem, heq⟩
  · cases hok
  · cases heq
    exact h hmem

theorem createRoom_honoured {pend : PendingReg} :
    Honoured room src (createRoom cfg now room src pend s).2 := by
  simp only [createRoom]
  split_ifs
  all_goals first | exact Or.inl rfl | exact honoured_drop (by decide)

theorem joinRoom_honoured {pend : PendingReg} {entry : RoomEntry} :
    Honoured room src (joinRoom cfg now room src pend entry s).2 := by
  simp only [joinRoom]
  split_ifs
  all_goals first | exact Or.inl rfl | exact honoured_drop (by decide)

/-- What the relay says to a cookie that it compares with a pending registration. -/
inductive Compared (now : Int) (room b : Bytes) (src : UDPAddr) (pend : PendingReg) (mismatch late : Drop) :
    List Out → Prop
  | mismatched (hcookie : pend.cookie.val ≠ b) : Compared now room b src pend mismatch late [.drop mismatch]
  | expired (hcookie : pend.cookie.val = b) (hlate : pendingRegTTL < now - pend.createdAt) :
      Compared now room b src pend mismatch late [.drop late]
  | honoured {outs : List Out} (hcookie : pend.cookie.val = b) (hfresh : now - pend.createdAt ≤ pendingRegTTL)
      (houts : Honoured room src outs) : Compared now room b src pend mismatch late outs

theorem completePending_compared {pend : PendingReg} :
    Compared now room b src pend .mismatchedCookieStore .expiredCookieStore
      (completePending cfg now room b src pend s).2 := by
  unfold completePending
  split
  · exact .mismatched ‹_›
  rename_i hcookie
  split
  · exact .expired (not_not.mp hcookie) ‹_›
  refine .honoured (not_not.mp hcookie) (by omega) ?_
  dsimp only
  split
  · exact createRoom_honoured
  · exact joinRoom_honoured

theorem admitInRoom_compared {entry : RoomEntry} {pend : PendingReg}
    (hpend : entry.pending.lookup src.string = some pend) :
    Compared now room b src pend .mismatchedCookie .expiredCookie
      (admitInRoom cfg now room b src entry s).2 := by
  unfold admitInRoom
  dsimp only
  rw [hpend]
  dsimp only
  split
  · exact .mismatched ‹_›
  rename_i hcookie
  split
  · exact .expired (not_not.mp hcookie) ‹_›
  refine .honoured (not_not.mp hcookie) (by omega) ?_
  split_ifs
  all_goals first | exact Or.inl rfl | exact honoured_drop (by decide)

section

variable {pend : PendingReg} {mismatch late : Drop} {outs : List Out}

theorem Compared.honoured_iff (h : Compared now room b src pend mismatch late outs)
    (hmismatch : mismatch ∉ limitDrops) (hlate : late ∉ limitDrops) :
    Honoured room src outs ↔ pend.cookie.val = b ∧ now - pend.createdAt ≤ pendingRegTTL := by
  cases h with
  | mismatched hcookie => exact iff_of_false (not_honoured_drop hmismatch) fun h => hcookie h.1
  | expired _ hexpired => exact iff_of_false (not_honoured_drop hlate) (by omega)
  | honoured hcookie hfresh houts => exact iff_of_true houts ⟨hcookie, hfresh⟩

/-- Of the drops that are no limits, a cookie only meets these two. -/
theorem Compared.drop_iff (h : Compared now room b src pend mismatch late outs) {why : Drop}
    (hwhy : why ∉ limitDrops) :
    outs = [.drop why] ↔ (why = mismatch ∧ pend.cookie.val ≠ b) ∨
      (why = late ∧ pend.cookie.val = b ∧ pendingRegTTL < now - pend.createdAt) := by
  cases h with
  | mismatched hcookie => simp [hcookie, eq_comm]
  | expired hcookie hexpired => simp [hcookie, hexpired, eq_comm]
  | honoured hcookie hfresh houts =>
      refine iff_of_false (fun heq => not_honoured_drop hwhy (heq ▸ houts)) ?_
      rintro (⟨_, hne⟩ | ⟨_, _, hexpired⟩)
      · exact hne hcookie
      · omega

end

theorem challengeNewRoom_honoured_iff (hroom : (32 : UInt8) ∉ room) :
    Honoured room src (challengeNewRoom cfg now rnd room src s).2 ↔
      cfg.maxRoomsPerIP ≤ s.counters.countIPRooms (ipKey src.string) := by
  have hchallenge : ∀ cb, ¬ Honoured room src (sendRegChallenge room cb src) := by
    intro cb h
    rcases h with hok | ⟨why, _, heq⟩
    · injection hok with hout
      injection hout with hmsg
      exact regdOK_ne_regdChallenge hroom hroom hmsg.symm
    · cases heq
  simp only [challengeNewRoom]
  split
  · exact iff_of_true (honoured_drop (by decide)) ‹_›
  rename_i hcap
  refine iff_of_false ?_ hcap
  split
  · exact not_honoured_drop (by decide)
  cases rnd with
  | none =>
      intro h
      rcases h with hok | ⟨why, _, heq⟩
      · cases hok
      · cases heq
  | some cb =>
      dsimp only
      split
      · exact not_honoured_drop (by decide)
      · exact hchallenge cb

/-- Within the rate limit, a `REG` with a cookie is answered or held up by a cap exactly if the cookie
completes the registration it is compared with, or the prefix may not have another room anyway. -/
theorem handleReg_honoured_iff (hroom : (32 : UInt8) ∉ room)
    (hlimit : (s.isRegRateLimited cfg now (ipKey src.string)).1 = false)
    (hdecode : hexDecode cookie = some b) (hlen : b.length = pendingCookieBytes) :
    Honoured room src (handleReg cfg now rnd room cookie src s).2 ↔
      match s.getPendingReg room src.string with
      | some pend => Completes now cookie pend
      | none =>
        match s.rooms.lookup room with
        | some entry => ∃ pend ∈ entry.pending.lookup src.string, Completes now cookie pend
        | none => cfg.maxRoomsPerIP ≤ s.counters.countIPRooms (ipKey src.string) := by
  obtain ⟨s₀, hrooms, hstore, hcounters, heq⟩ := handleReg_of_unlimited rnd room cookie hlimit
  have hcompletes : ∀ pend : PendingReg, Completes now cookie pend ↔
      pend.cookie.val = b ∧ now - pend.createdAt ≤ pendingRegTTL := by
    intro pend
    rw [Completes, hdecode, Option.some_inj, eq_comm]
  rw [heq, handleRegUnlimited_of_cookie hdecode hlen, State.getPendingReg, State.getPendingReg, hrooms,
    hstore]
  cases s.pendingRegs.lookup (room, src.string) with
  | some pend =>
      dsimp only
      rw [completePending_compared.honoured_iff (by decide) (by decide), hcompletes]
  | none =>
      dsimp only
      cases s.rooms.lookup room with
      | none =>
          dsimp only
          rw [challengeNewRoom_honoured_iff hroom, hcounters]
      | some entry =>
          dsimp only
          cases hpend : entry.pending.lookup src.string with
          | none =>
              rw [admitInRoom, hpend]
              exact iff_of_false (not_honoured_drop (by decide)) (by simp)
          | some pend =>
              rw [(admitInRoom_compared hpend).honoured_iff (by decide) (by decide)]
              simp [hcompletes]

/-- In every run: a `REG` with the newest cookie, at most `pendingRegTTL` after the challenge, is
answered or held up by a limit if and only if the relay finds the registration the cookie is for. -/
theorem newest_cookie_honoured_iff (hrun : (machine cfg).Run (fun _ _ _ => True) log s)
    (hnewest : Newest R src.string c t log) {data : Bytes} (hparse : parseReg data = some (R, cookie))
    (hcookie : hexDecode cookie = some c.val) (htime : now ≤ t + pendingRegTTL) (rnd : Option Cookie) :
    Honoured R src (step cfg now s (.packet data src rnd)).2 ↔
      (s.isRegRateLimited cfg now (ipKey src.string)).1 = true ∨ Findable cfg now R cookie src s := by
  have hspace := space_notMem_of_valid (valid_of_parseReg hparse)
  rw [step, handlePacket_of_parseReg hparse]
  by_cases hlimit : (s.isRegRateLimited cfg now (ipKey src.string)).1 = true
  · rcases handleReg_cases cfg now rnd R cookie src s with ⟨_, heq⟩ | ⟨hfree, _⟩
    · rw [heq]
      exact iff_of_true (honoured_drop (by decide)) (Or.inl hlimit)
    · rw [hlimit] at hfree
      cases hfree
  rw [or_iff_right hlimit, Findable,
    handleReg_honoured_iff hspace (Bool.eq_false_iff.mpr hlimit) hcookie c.property]
  cases s.getPendingReg R src.string with
  | some pend => exact Iff.rfl
  | none =>
      cases hroom : s.rooms.lookup R with
      | none => exact Iff.rfl
      | some entry =>
          constructor
          · intro h
            obtain ⟨pend, hlook, _⟩ := h
            exact GoMap.mem_of_lookup hlook
          · intro hmem
            obtain ⟨pend, hlook⟩ := GoMap.lookup_of_mem hmem
            obtain ⟨hsame, hcreated⟩ := inRoom_newest hrun _ _ _ _ _ hspace hnewest
              ⟨entry, hroom, hlook⟩
            exact ⟨pend, hlook, by rw [hsame, hcookie], by omega⟩

/-- The challenge is answered at once. -/
theorem newest_cookie_of_first_port : ∃ log s,
    (machine .default).Run (fun _ _ _ => True) log s ∧
      Newest (ascii "r") (ascii "127.0.0.1:1") (cookieOf 1) 0 log ∧
      Honoured (ascii "r") ⟨[127, 0, 0, 1], 1, []⟩
        (step .default 0 s (hostReg 1 (some (cookieOf 1)) none)).2 := by
  have hrun := Machine.Run.init.execLog
    (show (machine .default).Admissible (fun _ _ _ => True) none .empty
      [(0, hostReg 1 none (some (cookieOf 1)))] by decide +kernel)
  have hnewest : Newest (ascii "r") (ascii "127.0.0.1:1") (cookieOf 1) 0
      ((machine .default).execLog .empty [(0, hostReg 1 none (some (cookieOf 1)))] ++ []) :=
    ⟨[], _, [], rfl, rfl, ⟨⟨[127, 0, 0, 1], 1, []⟩, by decide +kernel, by decide +kernel⟩, by simp⟩
  have hparse : parseReg (ascii "REG r" ++ 32 :: hexEncode (cookieOf 1).val ++ [10]) =
      some (ascii "r", hexEncode (cookieOf 1).val) := by
    decide +kernel
  have hstore : ((machine .default).exec .empty [(0, hostReg 1 none (some (cookieOf 1)))]).getPendingReg
      (ascii "r") (ascii "127.0.0.1:1") = some ⟨cookieOf 1, 0, ⟨[127, 0, 0, 1], 1, []⟩⟩ := by
    decide +kernel
  have hfound : Findable .default 0 (ascii "r") (hexEncode (cookieOf 1).val) ⟨[127, 0, 0, 1], 1, []⟩
      ((machine .default).exec .empty [(0, hostReg 1 none (some (cookieOf 1)))]) := by
    rw [Findable, show UDPAddr.string ⟨[127, 0, 0, 1], 1, []⟩ = ascii "127.0.0.1:1" by decide +kernel,
      hstore]
    exact ⟨by decide +kernel, by decide⟩
  exact ⟨_, _, hrun, hnewest, (newest_cookie_honoured_iff hrun hnewest hparse (by decide +kernel)
    (by decide) none).mpr (Or.inr hfound)⟩

/-- Port 1 is challenged before port 2 has created the room, and again after that. -/
def challengedTwice : List (Int × Event) :=
  [(0, hostReg 1 none (some (cookieOf 1))), (0, hostReg 2 none (some (cookieOf 2))),
    (0, hostReg 2 (some (cookieOf 2)) none)] ++ [(0, hostReg 1 none (some (cookieOf 3)))]

/-- The room has the newest registration of port 1, and yet its cookie does not count. -/
theorem newest_cookie_dropped : ∃ log s,
    (machine .default).Run (fun _ _ _ => True) log s ∧
      Newest (ascii "r") (ascii "127.0.0.1:1") (cookieOf 3) 0 log ∧
      (∃ e p, s.rooms.lookup (ascii "r") = some e ∧
        e.pending.lookup (ascii "127.0.0.1:1") = some p ∧ p.cookie = cookieOf 3 ∧
        ascii "127.0.0.1:1" ∉ e.udpClients) ∧
      (step .default 0 s (hostReg 1 (some (cookieOf 3)) none)).2 = [.drop .mismatchedCookieStore] := by
  have hrun := Machine.Run.init.execLog
    (show (machine .default).Admissible (fun _ _ _ => True) none .empty challengedTwice by
      decide +kernel)
  have hpending : (((machine .default).exec .empty challengedTwice).rooms.lookup (ascii "r")).any
      (fun e => (e.pending.lookup (ascii "127.0.0.1:1")).any fun p =>
        decide (p.cookie = cookieOf 3 ∧ ascii "127.0.0.1:1" ∉ e.udpClients)) = true := by
    decide +kernel
  refine ⟨_, _, hrun, ?_, ?_, ?_⟩
  · rw [challengedTwice, Machine.execLog_append]
    exact ⟨[], _, _, rfl, rfl, ⟨⟨[127, 0, 0, 1], 1, []⟩, by decide +kernel, by decide +kernel⟩, by simp⟩
  · obtain ⟨e, he, hany⟩ := (Option.any_eq_true _ _).mp hpending
    obtain ⟨p, hp, hboth⟩ := (Option.any_eq_true _ _).mp hany
    exact ⟨e, p, he, hp, of_decide_eq_true hboth⟩
  · decide +kernel

end Qvole.Relay
