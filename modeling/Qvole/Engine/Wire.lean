import Qvole.Engine.Tables
import Qvole.Relay.Forwarding
import Qvole.Relay.NewestCookie

/-!
# The lines between peer and relay

Whatever one side writes the other side reads as it was meant. A `MSG` line of the peer reaches the relay
with its three fields, and the `MSGD` line the relay makes of it is read by another peer under the same phase
with the same payload. A challenge of the relay is answered by a `REG` with the cookie of the challenge, and
the relay compares what is pending with this cookie. The two kinds of `REGD` lines are not mixed up, because a
cookie is made of hex digits and `O` is none.

The room is the nameplate of the code, which is a valid room name for every code.
-/

namespace Qvole.Engine

open Lib Relay

variable {Pt : Type} [AddCommGroup Pt] [DecidableEq Pt] {x : Session Pt} {p : Pass} {s : Exchange}
  {room phase payload data : Bytes}

/-! ### The nameplate -/

/-- `^\d{4}-`. -/
def generatedCodeRe (code : Bytes) : Bool :=
  (code.take 4).length == 4 && (code.take 4).all isDigit && (code.drop 4).head? == some 45

def nameplate (code : Bytes) : Bytes :=
  if generatedCodeRe code then code.take 4
  else hexEncode ((sha256 (ascii "qvole-nameplate:" ++ code)).take 4)

theorem length_nameplate (code : Bytes) : (nameplate code).length = 4 ∨ (nameplate code).length = 8 := by
  unfold nameplate
  split
  · rename_i h
    simp only [generatedCodeRe, Bool.and_eq_true, beq_iff_eq] at h
    exact Or.inl h.1.1
  · right
    rw [length_hexEncode, List.length_take, length_sha256]
    decide

theorem isPrint_of_isDigit {b : UInt8} (h : isDigit b) : isPrint b := by
  rw [isPrint_iff]
  simp only [isDigit, Bool.and_eq_true, decide_eq_true_eq, UInt8.le_iff_toNat_le] at h
  have h48 : (48 : UInt8).toNat = 48 := rfl
  have h57 : (57 : UInt8).toNat = 57 := rfl
  omega

theorem validRoomName_nameplate (code : Bytes) : validRoomName (nameplate code) := by
  have hlen := length_nameplate code
  rw [validRoomName_iff, maxRoomNameLen]
  refine ⟨?_, by omega, ?_⟩
  · intro hnil
    rw [hnil] at hlen
    simp at hlen
  · unfold nameplate
    split
    · rename_i h
      simp only [generatedCodeRe, Bool.and_eq_true, List.all_eq_true] at h
      intro b hb
      exact isPrint_of_isDigit (h.1.2 b hb)
    · intro b hb
      exact isPrint_of_mem_hexEncode hb

/-! ### Messages -/

theorem length_msgLine (hroom : room.length ≤ 8) (hphase : phase = ascii "spake2" ∨ phase = ascii "confirm")
    (hlen : payload.length ≤ 512) : (msgLine room phase payload).length ≤ maxDatagramLen := by
  have hphaseLen := length_phase_le hphase
  simp only [msgLine, List.length_append, length_hexEncode, List.length_singleton, maxDatagramLen]
  rw [show (ascii "MSG ").length = 4 from rfl]
  omega

theorem isMsg_msgLine (hvalid : validRoomName room) (hroom : room.length ≤ 8)
    (hphase : phase = ascii "spake2" ∨ phase = ascii "confirm") (hne : payload ≠ [])
    (hlen : payload.length ≤ 512) : IsMsg (msgLine room phase payload) room phase (hexEncode payload) where
  size := length_msgLine hroom hphase hlen
  line := by
    apply trimSpace_hexLine (by simp) _ hne
    intro b hb
    cases hb
    decide
  room := hvalid
  phase := hphase
  body_ne := hexEncode_ne_nil hne
  body_even := by
    rw [length_hexEncode]
    omega
  body_len := by
    rw [length_hexEncode]
    omega
  body_hex b hb := isSome_of_hexDecode (hexDecode_hexEncode payload) hb

variable (Pt phase payload) in
/-- Whoever reads the line takes it for this payload, sent in this phase. -/
def TakenFor (line : Bytes) : Prop :=
  ∀ (y : Session Pt) (p : Pass) (s : Exchange), y.handle p line s =
    if phase = ascii "spake2" then y.onSpake2 p (hexEncode payload) s else y.onConfirm p (hexEncode payload) s

theorem takenFor_msgdLine (hphase : phase = ascii "spake2" ∨ phase = ascii "confirm") (hne : payload ≠ [])
    (hlen : payload.length ≤ 512) : TakenFor Pt phase payload (msgdLine phase (hexEncode payload)) := by
  intro y p s
  have hbody := msgdBody_msgdLine hphase hne hlen
  rcases hphase with rfl | rfl
  · rw [Session.handle_spake2 hbody, if_pos rfl]
  · rw [Session.handle_confirm hbody, if_neg (by decide)]

/-- From the datagram of one peer to the loop of another: all the relay sends on is taken for what was sent, and
a client within its rate reaches every other client of the room. -/
theorem msgLine_crosses (hvalid : validRoomName room) (hroom : room.length ≤ 8)
    (hphase : phase = ascii "spake2" ∨ phase = ascii "confirm") (hne : payload ≠ [])
    (hlen : payload.length ≤ 512) (cfg : Config) (now : Int) (rnd : Option Cookie) (src : UDPAddr)
    (relay : State) :
    (∀ line addr, Out.write line addr ∈ (handlePacket cfg now rnd (msgLine room phase payload) src relay).2 →
      TakenFor Pt phase payload line) ∧
    ∀ entry u k v, relay.rooms.lookup room = some entry → entry.udpClients.lookup src.string = some u →
      (u.rateLimiter.isLimited cfg now).1 = false → k ≠ src.string → entry.udpClients.lookup k = some v →
      ∃ line, Out.write line v.resolvedAddr ∈
        (handlePacket cfg now rnd (msgLine room phase payload) src relay).2 := by
  rw [handlePacket_of_parseMsg (parseMsg_iff.mpr (isMsg_msgLine hvalid hroom hphase hne hlen))]
  constructor
  · intro line addr hwrite
    generalize hresult : forwardMsg cfg now room phase (hexEncode payload) src relay = result at hwrite
    have hout : MsgOutcome room phase (hexEncode payload) src relay result.1 result.2 :=
      hresult ▸ forwardMsg_outcome
    obtain ⟨relay', outs⟩ := result
    cases hout with
    | ignored why => exact absurd hwrite (silent_drop why line addr)
    | counted _ _ _ hwrites =>
        rw [(hwrites line addr hwrite).1]
        exact takenFor_msgdLine hphase hne hlen
  · intro entry u k v hentry hu hrate hk hv
    rw [forwardMsg_of_client hentry hu hrate]
    refine ⟨_, List.mem_map.mpr ⟨⟨k, v⟩, List.mem_filter.mpr ⟨AList.mem_lookup_iff.mp hv, ?_⟩, rfl⟩⟩
    exact decide_eq_true hk

/-! ### Registration -/

/-- The relay takes the cookie for these bytes: its tests of the text pass, and the pending registration of the
source is compared with them. -/
structure ReadAs (cookie : Cookie) (now : Int) (room : Bytes) (src : UDPAddr) (relay : State)
    (outs : List Out) : Prop where
  valid : outs ≠ [.drop .invalidCookie] ∧ outs ≠ [.drop .invalidCookieHex]
  mismatched_iff : ∀ pend ∈ relay.pendingOf room src.string,
    outs = [.drop .mismatchedCookieStore] ∨ outs = [.drop .mismatchedCookie] ↔ pend.cookie ≠ cookie
  honoured_iff : ∀ pend ∈ relay.pendingOf room src.string,
    Honoured room src outs ↔ pend.cookie = cookie ∧ now - pend.createdAt ≤ pendingRegTTL

section

variable {cfg : Config} {now : Int} {rnd : Option Cookie} {cookie : Cookie} {src : UDPAddr} {relay : State}

theorem readAs_of_compared {pend : PendingReg} {mismatch late : Drop} {outs : List Out}
    (hpend : relay.pendingOf room src.string = some pend)
    (h : Compared now room cookie.val src pend mismatch late outs)
    (hmismatch : mismatch ∈ [Drop.mismatchedCookieStore, .mismatchedCookie])
    (hlate : late ∈ [Drop.expiredCookieStore, .expiredCookie]) : ReadAs cookie now room src relay outs := by
  have hdrop : ∀ why ∉ limitDrops, why ∉ [Drop.expiredCookieStore, .expiredCookie] →
      (outs = [.drop why] ↔ why = mismatch ∧ pend.cookie ≠ cookie) := by
    intro why hlimit hlate'
    have hne : why ≠ late := fun heq => hlate' (heq ▸ hlate)
    simp [h.drop_iff hlimit, hne, Subtype.ext_iff]
  refine ⟨⟨?_, ?_⟩, ?_, ?_⟩
  · rw [Ne, hdrop _ (by decide) (by decide)]
    rintro ⟨rfl, _⟩
    exact absurd hmismatch (by decide)
  · rw [Ne, hdrop _ (by decide) (by decide)]
    rintro ⟨rfl, _⟩
    exact absurd hmismatch (by decide)
  · rw [hpend]
    intro pend' hsome
    cases hsome
    rw [hdrop _ (by decide) (by decide), hdrop _ (by decide) (by decide), ← or_and_right]
    refine and_iff_right ?_
    simpa [eq_comm] using hmismatch
  · rw [hpend]
    intro pend' hsome
    cases hsome
    have hmismatches : ∀ why ∈ [Drop.mismatchedCookieStore, .mismatchedCookie], why ∉ limitDrops := by decide
    have hlates : ∀ why ∈ [Drop.expiredCookieStore, .expiredCookie], why ∉ limitDrops := by decide
    rw [h.honoured_iff (hmismatches _ hmismatch) (hlates _ hlate), Subtype.ext_iff]

theorem challengeNewRoom_drop {why : Drop}
    (h : (challengeNewRoom cfg now rnd room src relay).2 = [.drop why]) :
    why ∈ [Drop.roomLimitPerIP, .pendingLimitPerIP, .pendingStoreFull] := by
  revert h
  unfold challengeNewRoom
  dsimp only
  split
  · simp +contextual
  split
  · simp +contextual
  cases rnd with
  | none => simp
  | some cb =>
      dsimp only
      split <;> simp +contextual [sendRegChallenge]

theorem handleReg_readAs (hlimit : (relay.isRegRateLimited cfg now (ipKey src.string)).1 = false) :
    ReadAs cookie now room src relay (handleReg cfg now rnd room (hexEncode cookie.val) src relay).2 := by
  obtain ⟨relay₀, hrooms, hstore, _, heq⟩ := handleReg_of_unlimited rnd room (hexEncode cookie.val) hlimit
  have hpending : relay.pendingOf room src.string = relay₀.pendingOf room src.string := by
    rw [State.pendingOf, State.pendingOf, State.getPendingReg, State.getPendingReg, hrooms, hstore]
  rw [heq, handleRegUnlimited_of_cookie (hexDecode_hexEncode cookie.val) cookie.property]
  rw [State.pendingOf.eq_def room src.string relay₀] at hpending
  cases hget : relay₀.getPendingReg room src.string with
  | some pend =>
      rw [hget] at hpending
      exact readAs_of_compared hpending completePending_compared (by decide) (by decide)
  | none =>
      rw [hget] at hpending
      dsimp only at hpending ⊢
      cases hroom : relay₀.rooms.lookup room with
      | none =>
          rw [hroom, Option.bind_none] at hpending
          refine ⟨⟨?_, ?_⟩, by simp [hpending], by simp [hpending]⟩
          · intro hout
            exact absurd (challengeNewRoom_drop hout) (by decide)
          · intro hout
            exact absurd (challengeNewRoom_drop hout) (by decide)
      | some entry =>
          rw [hroom, Option.bind_some] at hpending
          dsimp only
          cases hlook : entry.pending.lookup src.string with
          | none =>
              rw [hlook] at hpending
              rw [admitInRoom, hlook]
              exact ⟨by simp, by simp [hpending], by simp [hpending]⟩
          | some pend =>
              rw [hlook] at hpending
              exact readAs_of_compared hpending (admitInRoom_compared hlook) (by decide) (by decide)

end

theorem receive_regd {rest : Bytes} (hline : trimSpace (readBytes data) = ascii "REGD " ++ rest) :
    (x.receive p data s).state = { s with
      reg := s.reg.onDatagram x.room (readBytes data)
      myAddr := (externalAddr x.room (readBytes data)).getD s.myAddr } := by
  have hmsgd : isMsgd data = false := by
    rw [isMsgd, hline]
    rfl
  have hbody : ∀ phase, msgdBody phase data = none := by
    intro phase
    apply Option.eq_none_iff_forall_ne_some.mpr
    intro body hbody
    cases hmsgd.symm.trans (isMsgd_of_msgdBody hbody)
  rw [Session.receive, hmsgd, if_neg (by decide), Session.handle, hbody, hbody]

theorem readBytes_of_le (h : data.length ≤ readBufferSize) : readBytes data = data :=
  List.take_of_length_le h

theorem readBytes_regdChallenge (hroom : room.length ≤ 8) (cookie : Cookie) :
    readBytes (regdChallenge room cookie) = regdChallenge room cookie := by
  apply readBytes_of_le
  simp only [regdChallenge, List.length_append, length_hexEncode, List.length_singleton, cookie.property,
    pendingCookieBytes, readBufferSize]
  rw [show (ascii "REGD ").length = 5 from rfl]
  omega

theorem externalAddr_regdChallenge (hvalid : validRoomName room) (cookie : Cookie) :
    externalAddr room (regdChallenge room cookie) = none := by
  obtain ⟨_, _, hprint⟩ := validRoomName_iff.mp hvalid
  have hstart : (ascii "REGD ").isPrefixOf (ascii "REGD " ++ (room ++ 32 :: hexEncode cookie.val)) = true := by
    simp
  have hdrop : (ascii "REGD " ++ (room ++ 32 :: hexEncode cookie.val)).drop 5 =
      room ++ 32 :: hexEncode cookie.val := rfl
  unfold externalAddr
  simp only [RegClient.trimSpace_regdChallenge, hstart, if_true, hdrop, cut_append _ (space_notMem hprint),
    RegClient.ok_of_hexEncode]
  simp

theorem receive_regdChallenge (hvalid : validRoomName x.room) (hroom : x.room.length ≤ 8) (cookie : Cookie)
    (p : Pass) (s : Exchange) : (x.receive p (regdChallenge x.room cookie) s).state =
      { s with reg := s.reg.onChallenge (hexEncode cookie.val) } := by
  have hread := readBytes_regdChallenge hroom cookie
  have hline := (congrArg trimSpace hread).trans (RegClient.trimSpace_regdChallenge x.room cookie)
  rw [receive_regd hline, hread, externalAddr_regdChallenge hvalid, s.reg.onDatagram_regdChallenge cookie hvalid,
    Option.getD_none]

omit [DecidableEq Pt] in
theorem sendReg_of_challenge (hvalid : validRoomName x.room) (cookie : Cookie) (s : Exchange) (now : Int) :
    ∃ msg, (x.sendReg now { s with reg := s.reg.onChallenge (hexEncode cookie.val) }).sent = [msg] ∧
      parseReg msg = some (x.room, hexEncode cookie.val) := by
  obtain ⟨hcookie, hsent, _⟩ := s.reg.onChallenge_cookie cookie
  have hdue : (s.reg.onChallenge (hexEncode cookie.val)).regDue x.regInterval now = true := by
    rw [RegClient.regDue, hsent]
  refine ⟨(s.reg.onChallenge (hexEncode cookie.val)).regMsg x.room, ?_, ?_⟩
  · rw [Session.sendReg, if_pos hdue]
  · rw [parseReg_regMsg hvalid, hcookie]

/-- An `OK` is not taken for a challenge, whatever address it names. -/
theorem receive_regdOK (hvalid : validRoomName x.room) (hroom : x.room.length ≤ 8) (addr : Bytes)
    (p : Pass) (s : Exchange) :
    (x.receive p (ascii "REGD " ++ x.room ++ ascii " OK " ++ addr ++ [10]) s).state.reg.pendingCookie =
        s.reg.pendingCookie ∧
      (x.receive p (ascii "REGD " ++ x.room ++ ascii " OK " ++ addr ++ [10]) s).state.reg.lastRegSent =
        s.reg.lastRegSent := by
  -- the read buffer cuts the address at most
  have hread : ∃ rest, readBytes (ascii "REGD " ++ x.room ++ ascii " OK " ++ addr ++ [10]) =
      ascii "REGD " ++ (x.room ++ 32 :: ascii "OK") ++ rest := by
    have hshape : ascii "REGD " ++ x.room ++ ascii " OK " ++ addr ++ [10] =
        ascii "REGD " ++ (x.room ++ 32 :: ascii "OK") ++ (32 :: addr ++ [10]) := by
      rw [show ascii " OK " = 32 :: ascii "OK" ++ [32] from rfl]
      simp only [List.append_assoc, List.cons_append, List.nil_append]
    have hlen : (ascii "REGD " ++ (x.room ++ 32 :: ascii "OK")).length ≤ readBufferSize := by
      simp only [List.length_append, List.length_cons, readBufferSize]
      rw [show (ascii "REGD ").length = 5 from rfl, show (ascii "OK").length = 2 from rfl]
      omega
    rw [hshape, readBytes, List.take_append, List.take_of_length_le hlen]
    exact ⟨_, rfl⟩
  obtain ⟨rest, hread⟩ := hread
  obtain ⟨tail, hline⟩ := RegClient.trimSpace_regdOK x.room rest
  rw [receive_regd ((congrArg trimSpace hread).trans hline), hread]
  exact s.reg.onDatagram_regdOK hvalid rest

/-- Peer and relay understand each other. What the relay writes for a message is taken for the payload and the
phase it was sent with, whoever reads it, and a client within its rate reaches all others. A challenge is
answered with its cookie, which the relay compares with what it has pending. Neither kind of `REGD` line is
taken for the other. -/
theorem wire_round_trip (x : Session Pt) (code : Bytes) (hcode : x.room = nameplate code) :
    validRoomName x.room ∧
    (∀ phase payload, phase = ascii "spake2" ∨ phase = ascii "confirm" →
      1 ≤ payload.length → payload.length ≤ 512 →
      (msgLine x.room phase payload).length ≤ maxDatagramLen ∧
      parseMsg (msgLine x.room phase payload) = some (x.room, phase, hexEncode payload) ∧
      hexDecode (hexEncode payload) = some payload ∧
      ∀ cfg now rnd src relay,
        (∀ line addr,
          Out.write line addr ∈ (handlePacket cfg now rnd (msgLine x.room phase payload) src relay).2 →
          ∀ (y : Session Pt) p s, y.handle p line s =
            if phase = ascii "spake2" then y.onSpake2 p (hexEncode payload) s
            else y.onConfirm p (hexEncode payload) s) ∧
        ∀ entry u k v, relay.rooms.lookup x.room = some entry → entry.udpClients.lookup src.string = some u →
          (u.rateLimiter.isLimited cfg now).1 = false → k ≠ src.string → entry.udpClients.lookup k = some v →
          ∃ line, Out.write line v.resolvedAddr ∈
            (handlePacket cfg now rnd (msgLine x.room phase payload) src relay).2) ∧
    (∀ (cookie : Cookie) p s now,
      (∃ msg, (x.sendReg now (x.receive p (regdChallenge x.room cookie) s).state).sent = [msg] ∧
        parseReg msg = some (x.room, hexEncode cookie.val) ∧
        ∀ cfg now rnd src relay, (relay.isRegRateLimited cfg now (ipKey src.string)).1 = false →
          ReadAs cookie now x.room src relay (handlePacket cfg now rnd msg src relay).2) ∧
      hexDecode (hexEncode cookie.val) = some cookie.val ∧
      (x.receive p (regdChallenge x.room cookie) s).state.reg.receivedREGD = s.reg.receivedREGD ∧
      (x.receive p (regdChallenge x.room cookie) s).state.myAddr = s.myAddr) ∧
    ∀ addr p s,
      (x.receive p (ascii "REGD " ++ x.room ++ ascii " OK " ++ addr ++ [10]) s).state.reg.pendingCookie =
        s.reg.pendingCookie ∧
      (x.receive p (ascii "REGD " ++ x.room ++ ascii " OK " ++ addr ++ [10]) s).state.reg.lastRegSent =
        s.reg.lastRegSent := by
  have hvalid : validRoomName x.room := hcode ▸ validRoomName_nameplate code
  have hroom : x.room.length ≤ 8 := by
    rw [hcode]
    rcases length_nameplate code with h | h <;> omega
  refine ⟨hvalid, ?_, ?_, fun addr p s => receive_regdOK hvalid hroom addr p s⟩
  · intro phase payload hphase hpos hlen
    have hne : payload ≠ [] := List.length_pos_iff.mp hpos
    have hparse := parseMsg_iff.mpr (isMsg_msgLine hvalid hroom hphase hne hlen)
    refine ⟨length_msgLine hroom hphase hlen, hparse, hexDecode_hexEncode payload, ?_⟩
    intro cfg now rnd src relay
    exact msgLine_crosses hvalid hroom hphase hne hlen cfg now rnd src relay
  · intro cookie p s now
    obtain ⟨msg, hmsg, hparse⟩ := sendReg_of_challenge hvalid cookie s now
    obtain ⟨_, _, hreceived⟩ := s.reg.onChallenge_cookie cookie
    rw [receive_regdChallenge hvalid hroom]
    refine ⟨⟨msg, hmsg, hparse, ?_⟩, hexDecode_hexEncode cookie.val, hreceived, rfl⟩
    intro cfg now rnd src relay hlimit
    rw [handlePacket_of_parseReg hparse]
    exact handleReg_readAs hlimit

/-- The room has two clients, and a third source has been challenged for it. -/
def smallRoom : RoomEntry where
  udpClients := (AList.singleton (ascii "127.0.0.1:1") (newClient 0 ⟨[127, 0, 0, 1], 1, []⟩)).insert
    (ascii "127.0.0.1:2") (newClient 0 ⟨[127, 0, 0, 1], 2, []⟩)
  pending := AList.singleton (ascii "127.0.0.1:3") ⟨cookieOf 1, 0, ⟨[127, 0, 0, 1], 3, []⟩⟩
  pendingByIP := AList.singleton (ascii "127.0.0.1") 1
  t := 0
  nextPendingSweep := none

def smallRelay : State := { State.empty with rooms := AList.singleton (ascii "1234") smallRoom }

/-- A confirm of port 2 reaches port 1, and the challenged port 3 is let in. -/
theorem small_wire_round_trip : nameplate (ascii "1234-alpha-bravo") = ascii "1234" ∧
    (∃ line, Out.write line ⟨[127, 0, 0, 1], 1, []⟩ ∈
        (handlePacket .default 1 none (msgLine smallSession.room (ascii "confirm") [0xAB])
          ⟨[127, 0, 0, 1], 2, []⟩ smallRelay).2 ∧
      ∀ p s, smallSession.handle p line s = smallSession.onConfirm p (ascii "ab") s) ∧
    ∃ msg, (smallSession.sendReg 1 (smallSession.receive (passOf [])
        (regdChallenge smallSession.room (cookieOf 1)) (.start addrA)).state).sent = [msg] ∧
      Honoured smallSession.room ⟨[127, 0, 0, 1], 3, []⟩
        (handlePacket .default 1 none msg ⟨[127, 0, 0, 1], 3, []⟩ smallRelay).2 := by
  obtain ⟨_, hmsgs, hregs, _⟩ := wire_round_trip smallSession (ascii "1234-alpha-bravo") (by decide)
  refine ⟨by decide, ?_, ?_⟩
  · obtain ⟨_, _, _, hcross⟩ := hmsgs (ascii "confirm") [0xAB] (Or.inr rfl) (by decide) (by decide)
    obtain ⟨htaken, hreached⟩ := hcross .default 1 none ⟨[127, 0, 0, 1], 2, []⟩ smallRelay
    obtain ⟨line, hline⟩ := hreached smallRoom (newClient 0 ⟨[127, 0, 0, 1], 2, []⟩) (ascii "127.0.0.1:1")
      (newClient 0 ⟨[127, 0, 0, 1], 1, []⟩) rfl (by decide +kernel) (by decide +kernel) (by decide +kernel)
      (by decide +kernel)
    exact ⟨line, hline, htaken line _ hline smallSession⟩
  · obtain ⟨⟨msg, hmsg, _, hread⟩, _⟩ := hregs (cookieOf 1) (passOf []) (.start addrA) 1
    have h := hread .default 1 none ⟨[127, 0, 0, 1], 3, []⟩ smallRelay (by decide +kernel)
    refine ⟨msg, hmsg, (h.honoured_iff ⟨cookieOf 1, 0, ⟨[127, 0, 0, 1], 3, []⟩⟩ ?_).mpr ⟨rfl, by decide⟩⟩
    decide +kernel

end Qvole.Engine
