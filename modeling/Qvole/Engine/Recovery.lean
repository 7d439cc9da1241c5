import Qvole.Engine.Keepalive
import Qvole.Relay.NewestCookie

/-!
# Registering after losses

A peer that is not in its room sends `REG`s until it is. With no cookie, or with one that the relay
knows nothing about because there is neither a room nor a pending registration, it is challenged and
comes in with its answer. With a cookie that completes the registration the relay looks at, it comes in
at once. Once the room exists, or the store has another registration of the peer, any other cookie is
dropped without a word, and the peer has no reason to send another one: it sends the cookie of its last
challenge for good.

Between two `REG`s the rest of the world is free, except that it leaves the room and the peer's own
registration alone.
-/

namespace Qvole.Engine

open Lib Relay

variable (cfg : Config) (peer : Peer)

/-- The `REG` of one pass of the loop arrives, and the peer receives what the relay answers. -/
def attempt (now : Int) (rnd : Option Cookie) (s : Joint) : Joint × List Out :=
  let r := jointStep cfg peer now s (.loop rnd true)
  ((writesTo peer.addr r.2).foldl (fun s data => (jointStep cfg peer now s (.receive data)).1) r.1, r.2)

/-- The rate limit, one of the caps or a failure to draw a cookie. -/
def hinders : Out → Bool
  | .drop why => why ∈ [Drop.rateLimitedReg, .maxRoomsReached, .roomLimitPerIP, .hardCap, .prefixLimit,
      .pendingLimitPerIP, .pendingStoreFull]
  | .randFailed => true
  | .write _ _ => false

/-- Up to `now` nothing has happened to the peer and in its room. Its registration in the store may have
gone if it had expired. -/
structure Quiet (now : Int) (s s' : Joint) : Prop where
  client : s'.client = s.client
  room : s'.relay.rooms.lookup peer.room = s.relay.rooms.lookup peer.room
  store : s'.relay.getPendingReg peer.room peer.addr.string =
      s.relay.getPendingReg peer.room peer.addr.string ∨
    (s'.relay.getPendingReg peer.room peer.addr.string = none ∧
      ∃ pend ∈ s.relay.getPendingReg peer.room peer.addr.string, pendingRegTTL < now - pend.createdAt)

/-- Of at most so many `REG`s, the first at `now`, one lets the peer in, unless one is hindered. A
challenge is answered within `pendingRegTTL`. -/
def AdmittedWithin : Nat → Int → Joint → Prop
  | 0, _, _ => False
  | n + 1, now, s => ∀ rnd, (∀ o ∈ (attempt cfg peer now rnd s).2, hinders o = false) →
      Renewed now peer.room peer.addr
        ((attempt cfg peer now rnd s).1.relay, (attempt cfg peer now rnd s).2) ∨
      ∀ now' s', Quiet peer now' (attempt cfg peer now rnd s).1 s' →
        s'.client.regDue peer.regInterval now' = true →
        (s'.client.lastRegSent = none → now' ≤ now + pendingRegTTL) →
        AdmittedWithin n now' s'

/-- The cookie of the peer completes the registration it is compared with; or there is nothing in the
store to compare it with, and it has none or there is no room; or there is no room, and it has none or
that of the store. -/
def Recoverable (now : Int) (s : Joint) : Prop :=
  (∃ pend ∈ s.relay.pendingOf peer.room peer.addr.string,
    Completes now s.client.pendingCookie pend) ∨
  (s.relay.getPendingReg peer.room peer.addr.string = none ∧
    (s.client.pendingCookie = [] ∨ s.relay.rooms.lookup peer.room = none)) ∨
  (s.relay.rooms.lookup peer.room = none ∧ (s.client.pendingCookie = [] ∨
    ∃ pend ∈ s.relay.getPendingReg peer.room peer.addr.string,
      hexDecode s.client.pendingCookie = some pend.cookie.val))

variable {cfg peer} {now : Int} {rnd : Option Cookie} {s s' : Joint}

/-! ### Receiving the answer -/

theorem onDatagram_challenge (c : RegClient) (cb : Cookie) {room : Bytes} (hroom : validRoomName room) :
    (c.onDatagram room (regdChallenge room cb)).pendingCookie = hexEncode cb.val ∧
      (c.onDatagram room (regdChallenge room cb)).lastRegSent = none := by
  rw [c.onDatagram_regdChallenge cb hroom]
  obtain ⟨hcookie, hsent, _⟩ := c.onChallenge_cookie cb
  exact ⟨hcookie, hsent⟩

theorem receive_foldl (data : List Bytes) (s : Joint) :
    data.foldl (fun s d => (jointStep cfg peer now s (.receive d)).1) s =
      { s with client := data.foldl (fun c d => c.onDatagram peer.room d) s.client } := by
  induction data generalizing s with
  | nil => rfl
  | cons d data ih =>
      rw [List.foldl_cons, ih]
      rfl

variable (cfg rnd) in
theorem attempt_relay (hdue : s.client.regDue peer.regInterval now = true) :
    ((attempt cfg peer now rnd s).1.relay, (attempt cfg peer now rnd s).2) =
      handleReg cfg now rnd peer.room s.client.pendingCookie peer.addr s.relay := by
  rw [← jointStep_loop hdue]
  simp only [attempt, receive_foldl]

variable (cfg rnd) in
theorem attempt_client (hdue : s.client.regDue peer.regInterval now = true) :
    (attempt cfg peer now rnd s).1.client =
      (writesTo peer.addr (attempt cfg peer now rnd s).2).foldl
        (fun c d => c.onDatagram peer.room d) (s.client.sentReg now) := by
  have hsent : (jointStep cfg peer now s (.loop rnd true)).1.client = s.client.sentReg now := by
    rw [jointStep, if_pos hdue, if_pos rfl]
    rfl
  simp only [attempt, receive_foldl, hsent]

/-! ### One attempt -/

theorem ok_of_honoured {room : Bytes} {src : UDPAddr} {outs : List Out} (h : Honoured room src outs)
    (hfree : ∀ o ∈ outs, hinders o = false) : outs = sendREGD room src := by
  rcases h with hok | ⟨why, hmem, rfl⟩
  · exact hok
  · have hnot := hfree _ (List.mem_singleton.mpr rfl)
    have hall : ∀ why ∈ [Drop.rateLimitedReg, .maxRoomsReached, .roomLimitPerIP, .hardCap, .prefixLimit],
        hinders (.drop why) = true := by decide
    rw [hall why hmem] at hnot
    cases hnot

theorem unlimited_of_free {room cookie : Bytes} {src : UDPAddr} {relay : State}
    (hfree : ∀ o ∈ (handleReg cfg now rnd room cookie src relay).2, hinders o = false) :
    (relay.isRegRateLimited cfg now (ipKey src.string)).1 = false ∧
      RegOutcome cfg now rnd room cookie src relay (handleReg cfg now rnd room cookie src relay).1
        (handleReg cfg now rnd room cookie src relay).2 := by
  rcases handleReg_cases cfg now rnd room cookie src relay with ⟨_, heq⟩ | houtcome
  · rw [heq] at hfree
    exact absurd (hfree _ (List.mem_singleton.mpr rfl)) (by decide)
  · exact houtcome

theorem attempt_admits (hdue : s.client.regDue peer.regInterval now = true)
    (hpend : ∃ pend ∈ s.relay.pendingOf peer.room peer.addr.string,
      Completes now s.client.pendingCookie pend)
    (hfree : ∀ o ∈ (attempt cfg peer now rnd s).2, hinders o = false) :
    Renewed now peer.room peer.addr
      ((attempt cfg peer now rnd s).1.relay, (attempt cfg peer now rnd s).2) := by
  have hroom := space_notMem_of_valid peer.room_valid
  have hrelay := attempt_relay cfg rnd hdue
  rw [congrArg Prod.snd hrelay] at hfree
  rw [hrelay]
  obtain ⟨hlimit, houtcome⟩ := unlimited_of_free hfree
  obtain ⟨pend, hlook, hcompletes⟩ := hpend
  have hhonoured : Honoured peer.room peer.addr
      (handleReg cfg now rnd peer.room s.client.pendingCookie peer.addr s.relay).2 := by
    rw [handleReg_honoured_iff hroom hlimit hcompletes.1 pend.cookie.property]
    unfold State.pendingOf at hlook
    cases hstore : s.relay.getPendingReg peer.room peer.addr.string with
    | some pend' =>
        rw [hstore] at hlook
        cases hlook
        exact hcompletes
    | none =>
        rw [hstore] at hlook
        cases hentry : s.relay.rooms.lookup peer.room with
        | none =>
            rw [hentry] at hlook
            cases hlook
        | some entry =>
            rw [hentry] at hlook
            exact ⟨pend, hlook, hcompletes⟩
  exact houtcome.in_of_ok hroom (ok_of_honoured hhonoured hfree)

/-- `OK`, a challenge, or nothing because the `REG` was hindered. -/
def Answers (room : Bytes) (src : UDPAddr) (outs : List Out) : Prop :=
  outs = sendREGD room src ∨ (∃ c, outs = sendRegChallenge room c src) ∨ ∃ o ∈ outs, hinders o = true

theorem answers_drop {why : Drop} {room : Bytes} {src : UDPAddr} (h : hinders (.drop why) = true) :
    Answers room src [.drop why] :=
  Or.inr (Or.inr ⟨_, List.mem_singleton.mpr rfl, h⟩)

theorem answers_randFailed {room : Bytes} {src : UDPAddr} : Answers room src [.randFailed] :=
  Or.inr (Or.inr ⟨_, List.mem_singleton.mpr rfl, rfl⟩)

theorem answers_challenge {room : Bytes} {src : UDPAddr} {c : Cookie} :
    Answers room src (sendRegChallenge room c src) :=
  Or.inr (Or.inl ⟨c, rfl⟩)

theorem challengeNewRoom_answers {room : Bytes} {src : UDPAddr} {relay : State} :
    Answers room src (challengeNewRoom cfg now rnd room src relay).2 := by
  simp only [challengeNewRoom]
  split
  · exact answers_drop rfl
  split
  · exact answers_drop rfl
  cases rnd with
  | none => exact answers_randFailed
  | some cb =>
      dsimp only
      split
      · exact answers_drop rfl
      · exact answers_challenge

theorem regInRoom_answers {room : Bytes} {src : UDPAddr} {relay : State} {entry : RoomEntry} :
    Answers room src (regInRoom cfg now rnd room src entry relay).2 := by
  simp only [regInRoom]
  split
  · exact answers_drop rfl
  split
  · exact Or.inl rfl
  split
  · exact answers_drop rfl
  split
  · exact answers_challenge
  split
  · exact answers_drop rfl
  cases rnd with
  | none => exact answers_randFailed
  | some cb =>
      dsimp only
      split
      · exact answers_drop rfl
      · exact answers_challenge

variable (cfg rnd) in
theorem attempt_answers (hdue : s.client.regDue peer.regInterval now = true)
    (hcookie : s.client.pendingCookie = [] ∨
      (s.relay.getPendingReg peer.room peer.addr.string = none ∧
        s.relay.rooms.lookup peer.room = none)) :
    Answers peer.room peer.addr (attempt cfg peer now rnd s).2 := by
  rw [congrArg Prod.snd (attempt_relay cfg rnd hdue)]
  rcases Bool.eq_false_or_eq_true (s.relay.isRegRateLimited cfg now (ipKey peer.addr.string)).1 with
    hlimit | hlimit
  · rcases handleReg_cases cfg now rnd peer.room s.client.pendingCookie peer.addr s.relay with
      ⟨_, heq⟩ | ⟨hfree, _⟩
    · rw [heq]
      exact answers_drop rfl
    · rw [hlimit] at hfree
      cases hfree
  obtain ⟨s₀, hrooms, hstore, _, heq⟩ :=
    handleReg_of_unlimited rnd peer.room s.client.pendingCookie hlimit
  rw [heq]
  by_cases hempty : s.client.pendingCookie = []
  · rw [hempty, handleRegUnlimited_nil, hrooms]
    cases s.relay.rooms.lookup peer.room with
    | none => exact challengeNewRoom_answers
    | some entry => exact regInRoom_answers
  · obtain ⟨hnone, hroom⟩ := hcookie.resolve_left hempty
    obtain ⟨b, hdecode, hlen⟩ := s.client.cookie_wf.resolve_left hempty
    rw [State.getPendingReg] at hnone
    rw [handleRegUnlimited_of_cookie hdecode hlen, State.getPendingReg, hstore, hnone, hrooms, hroom]
    exact challengeNewRoom_answers

theorem attempt_challenged (hdue : s.client.regDue peer.regInterval now = true) {c : Cookie}
    (houts : (attempt cfg peer now rnd s).2 = sendRegChallenge peer.room c peer.addr)
    (hstore : s.relay.getPendingReg peer.room peer.addr.string = none ∨
      s.relay.rooms.lookup peer.room = none) :
    (attempt cfg peer now rnd s).1.relay.pendingOf peer.room peer.addr.string =
        some ⟨c, now, peer.addr⟩ ∧
      (attempt cfg peer now rnd s).1.client.pendingCookie = hexEncode c.val ∧
      (attempt cfg peer now rnd s).1.client.lastRegSent = none := by
  have hrelay := attempt_relay cfg rnd hdue
  have hfree : ∀ o ∈ (handleReg cfg now rnd peer.room s.client.pendingCookie peer.addr s.relay).2,
      hinders o = false := by
    rw [← congrArg Prod.snd hrelay, houts]
    intro o ho
    rw [List.mem_singleton.mp ho]
    rfl
  obtain ⟨_, houtcome⟩ := unlimited_of_free hfree
  rw [← hrelay] at houtcome
  have hpending := houtcome.pendingOf_challenged (space_notMem_of_valid peer.room_valid) houts hstore
  have hwrites : writesTo peer.addr (attempt cfg peer now rnd s).2 = [regdChallenge peer.room c] := by
    rw [houts]
    simp [writesTo, sendRegChallenge]
  refine ⟨hpending, ?_⟩
  rw [attempt_client cfg rnd hdue, hwrites, List.foldl_cons, List.foldl_nil]
  exact onDatagram_challenge _ c peer.room_valid

theorem getPendingReg_deletePendingReg (room srcStr : Bytes) (relay : State) :
    (relay.deletePendingReg room srcStr).getPendingReg room srcStr = none := by
  unfold State.deletePendingReg
  split
  · exact AList.lookup_erase _ _
  · exact AList.lookup_eq_none.mpr ‹_›

/-- The store gives up a registration whose cookie comes too late. -/
theorem attempt_expired (hdue : s.client.regDue peer.regInterval now = true) {pend : PendingReg}
    (hlook : s.relay.getPendingReg peer.room peer.addr.string = some pend)
    (hcookie : hexDecode s.client.pendingCookie = some pend.cookie.val)
    (hexpired : pendingRegTTL < now - pend.createdAt)
    (hfree : ∀ o ∈ (attempt cfg peer now rnd s).2, hinders o = false) :
    (attempt cfg peer now rnd s).1.relay.getPendingReg peer.room peer.addr.string = none ∧
      (attempt cfg peer now rnd s).1.relay.rooms = s.relay.rooms := by
  have hrelay := attempt_relay cfg rnd hdue
  rw [congrArg Prod.snd hrelay] at hfree
  obtain ⟨hlimit, _⟩ := unlimited_of_free hfree
  obtain ⟨s₀, hrooms, hstore, _, heq⟩ :=
    handleReg_of_unlimited rnd peer.room s.client.pendingCookie hlimit
  have hlook₀ : s₀.getPendingReg peer.room peer.addr.string = some pend := by
    rw [State.getPendingReg, hstore]
    exact hlook
  have hstate : (attempt cfg peer now rnd s).1.relay = _ := congrArg Prod.fst hrelay
  rw [hstate, heq, handleRegUnlimited_of_cookie hcookie pend.cookie.property, hlook₀]
  simp only [completePending, ne_eq, not_true_eq_false, if_false, if_pos hexpired]
  rw [State.deletePendingReg_rooms, hrooms]
  exact ⟨getPendingReg_deletePendingReg _ _ s₀, rfl⟩

/-- Any other cookie is dropped: the relay and the cookie of the peer stay as they are. -/
theorem attempt_mismatched (hdue : s.client.regDue peer.regInterval now = true)
    (hlimit : (s.relay.isRegRateLimited cfg now (ipKey peer.addr.string)).1 = false)
    (hcookie : s.client.pendingCookie ≠ [])
    (hother : ∀ pend ∈ s.relay.pendingOf peer.room peer.addr.string,
      hexDecode s.client.pendingCookie ≠ some pend.cookie.val)
    (hknown : s.relay.getPendingReg peer.room peer.addr.string ≠ none ∨
      s.relay.rooms.lookup peer.room ≠ none) :
    (∃ why, (attempt cfg peer now rnd s).2 = [.drop why]) ∧
      (attempt cfg peer now rnd s).1.relay.rooms = s.relay.rooms ∧
      (attempt cfg peer now rnd s).1.relay.pendingRegs = s.relay.pendingRegs ∧
      (attempt cfg peer now rnd s).1.client.pendingCookie = s.client.pendingCookie := by
  have hrelay := attempt_relay cfg rnd hdue
  obtain ⟨b, hdecode, hlen⟩ := s.client.cookie_wf.resolve_left hcookie
  obtain ⟨s₀, hrooms, hstore, _, heq⟩ :=
    handleReg_of_unlimited rnd peer.room s.client.pendingCookie hlimit
  have hdropped : ∃ why, handleReg cfg now rnd peer.room s.client.pendingCookie peer.addr s.relay =
      (s₀, [.drop why]) := by
    rw [heq, handleRegUnlimited_of_cookie hdecode hlen, State.getPendingReg, hstore, hrooms]
    rw [State.pendingOf, State.getPendingReg] at hother
    rw [State.getPendingReg] at hknown
    cases hlook : s.relay.pendingRegs.lookup (peer.room, peer.addr.string) with
    | some pend =>
        rw [hlook] at hother
        have hne : pend.cookie.val ≠ b := by
          intro hsame
          exact hother pend rfl (by rw [hdecode, hsame])
        exact ⟨.mismatchedCookieStore, by simp only [completePending, if_pos hne]⟩
    | none =>
        rw [hlook] at hother hknown
        cases hentry : s.relay.rooms.lookup peer.room with
        | none => exact absurd hentry (hknown.resolve_left (by simp))
        | some entry =>
            rw [hentry] at hother
            simp only [admitInRoom]
            cases hpend : entry.pending.lookup peer.addr.string with
            | none => exact ⟨_, rfl⟩
            | some pend =>
                have hne : pend.cookie.val ≠ b := by
                  intro hsame
                  exact hother pend hpend (by rw [hdecode, hsame])
                exact ⟨.mismatchedCookie, by simp only [if_pos hne]⟩
  obtain ⟨why, hdropped⟩ := hdropped
  rw [hdropped] at hrelay
  obtain ⟨hstate, houts⟩ := Prod.mk.inj hrelay
  refine ⟨⟨why, houts⟩, by rw [hstate, hrooms], by rw [hstate, hstore], ?_⟩
  rw [attempt_client cfg rnd hdue, houts]
  rfl

/-! ### Up to three attempts -/

variable (cfg) in
theorem admittedWithin_of_completes (n : Nat) (hdue : s.client.regDue peer.regInterval now = true)
    (hpend : ∃ pend ∈ s.relay.pendingOf peer.room peer.addr.string,
      Completes now s.client.pendingCookie pend) : AdmittedWithin cfg peer (n + 1) now s := by
  intro rnd hfree
  exact Or.inl (attempt_admits hdue hpend hfree)

theorem Quiet.pendingOf {pend : PendingReg} (h : Quiet peer now s s')
    (hpend : s.relay.pendingOf peer.room peer.addr.string = some pend)
    (hfresh : now - pend.createdAt ≤ pendingRegTTL) :
    s'.relay.pendingOf peer.room peer.addr.string = some pend := by
  rcases h.store with hsame | ⟨_, pend', hlook, hexpired⟩
  · rw [State.pendingOf, hsame, h.room]
    exact hpend
  · rw [State.pendingOf, show _ = some pend' from hlook] at hpend
    cases hpend
    omega

variable (cfg) in
theorem admittedWithin_of_challenge (n : Nat) (hdue : s.client.regDue peer.regInterval now = true)
    (hcookie : s.client.pendingCookie = [] ∨
      (s.relay.getPendingReg peer.room peer.addr.string = none ∧
        s.relay.rooms.lookup peer.room = none))
    (hstore : s.relay.getPendingReg peer.room peer.addr.string = none ∨
      s.relay.rooms.lookup peer.room = none) : AdmittedWithin cfg peer (n + 2) now s := by
  intro rnd hfree
  rcases attempt_answers cfg rnd hdue hcookie with hok | ⟨c, houts⟩ | ⟨o, ho, hhinders⟩
  · left
    have hrelay := attempt_relay cfg rnd hdue
    rw [congrArg Prod.snd hrelay] at hfree hok
    rw [hrelay]
    obtain ⟨_, houtcome⟩ := unlimited_of_free hfree
    exact houtcome.in_of_ok (space_notMem_of_valid peer.room_valid) hok
  · right
    intro now' s' hquiet hdue' hprompt
    obtain ⟨hpend, htext, hlast⟩ := attempt_challenged hdue houts hstore
    rw [← hquiet.client] at htext hlast
    have htime := hprompt hlast
    refine admittedWithin_of_completes cfg n hdue' ⟨_, hquiet.pendingOf hpend (by dsimp only; omega), ?_⟩
    refine ⟨?_, by dsimp only; omega⟩
    rw [htext, hexDecode_hexEncode]
  · rw [hfree o ho] at hhinders
    cases hhinders

/-- From a state of this kind, with its `REG` due, the peer is in its room after at most three `REG`s,
whatever happens outside of the room in between. -/
theorem recovers_of_recoverable (cfg : Config) (hdue : s.client.regDue peer.regInterval now = true)
    (h : Recoverable peer now s) : AdmittedWithin cfg peer 3 now s := by
  rcases h with hpend | ⟨hnone, hcookie⟩ | ⟨hroom, hcookie | ⟨pend, hlook, hcookie⟩⟩
  · exact admittedWithin_of_completes cfg 2 hdue hpend
  · exact admittedWithin_of_challenge cfg 1 hdue (hcookie.imp_right fun hroom => ⟨hnone, hroom⟩)
      (Or.inl hnone)
  · exact admittedWithin_of_challenge cfg 1 hdue (Or.inl hcookie) (Or.inr hroom)
  by_cases hfresh : now - pend.createdAt ≤ pendingRegTTL
  · refine admittedWithin_of_completes cfg 2 hdue ⟨pend, ?_, hcookie, hfresh⟩
    rw [State.pendingOf, show _ = some pend from hlook]
    rfl
  · -- the store gives up the registration, and the next `REG` is challenged
    intro rnd hfree
    right
    intro now' s' hquiet hdue' _
    obtain ⟨hgone, hrooms⟩ := attempt_expired hdue hlook hcookie (Int.not_le.mp hfresh) hfree
    have hnone : s'.relay.getPendingReg peer.room peer.addr.string = none := by
      rcases hquiet.store with hsame | ⟨hnone, _⟩
      · rw [hsame, hgone]
      · exact hnone
    have hroom' : s'.relay.rooms.lookup peer.room = none := by
      rw [hquiet.room, hrooms, hroom]
    exact admittedWithin_of_challenge cfg 0 hdue' (Or.inr ⟨hnone, hroom'⟩) (Or.inl hnone)

/-- The peer was challenged, its answer was lost, and the relay has forgotten about it. -/
def forgotten : List (Int × JointEvent) :=
  [(0, .loop (some homeCookie) true), (0, .receive (regdChallenge homePeer.room homeCookie)),
    (0, .loop none false), (10 * second, .other .roomTick)]

def nextCookie : Cookie := ⟨List.replicate 16 9, rfl⟩

theorem recovers_forgotten : ∃ s, s.client.pendingCookie ≠ [] ∧
    AdmittedWithin .default homePeer 3 (31 * second) s ∧
    (attempt .default homePeer (31 * second) (some nextCookie) s).2 =
      sendRegChallenge homePeer.room nextCookie homePeer.addr ∧
    (attempt .default homePeer (32 * second) none
      (attempt .default homePeer (31 * second) (some nextCookie) s).1).2 =
        sendREGD homePeer.room homePeer.addr := by
  refine ⟨(jointMachine .default homePeer).exec (jointMachine .default homePeer).init forgotten,
    by decide +kernel, ?_, by decide +kernel, by decide +kernel⟩
  refine recovers_of_recoverable .default (by decide +kernel) (Or.inr (Or.inl ⟨?_, Or.inr ?_⟩))
  · decide +kernel
  · decide +kernel

def neighbour : UDPAddr := ⟨[192, 0, 2, 8], 40000, []⟩

/-- The same, but meanwhile a neighbour has created the room. -/
def stranded : List (Int × JointEvent) :=
  [(0, .loop (some homeCookie) true), (0, .receive (regdChallenge homePeer.room homeCookie)),
    (0, .loop none false),
    (second, .other (.packet (ascii "REG 9908") neighbour (some nextCookie))),
    (second, .other (.packet (ascii "REG 9908 09090909090909090909090909090909") neighbour none)),
    (10 * second, .other .roomTick)]

variable (rnd) in
theorem not_admittedWithin_succ {n : Nat} (now' : Int) (why : Drop)
    (houts : (attempt cfg peer now rnd s).2 = [.drop why]) (hwhy : hinders (.drop why) = false)
    (hdue : (attempt cfg peer now rnd s).1.client.regDue peer.regInterval now' = true)
    (hsent : (attempt cfg peer now rnd s).1.client.lastRegSent ≠ none)
    (h : ¬ AdmittedWithin cfg peer n now' (attempt cfg peer now rnd s).1) :
    ¬ AdmittedWithin cfg peer (n + 1) now s := by
  intro hwithin
  have hfree : ∀ o ∈ (attempt cfg peer now rnd s).2, hinders o = false := by
    rw [houts]
    intro o ho
    rw [List.mem_singleton.mp ho]
    exact hwhy
  rcases hwithin rnd hfree with hrenewed | hnext
  · rw [houts] at hrenewed
    exact not_renewed_of_drop hrenewed
  · exact h (hnext now' _ ⟨rfl, rfl, Or.inl rfl⟩ hdue fun hnone => absurd hnone hsent)

/-- Three `REG`s in a row are dropped, although nothing limits the peer. -/
theorem recovery_stranded : ∃ log s,
    (jointMachine .default homePeer).Run (fun s _ e => Possible s e) log s ∧
    (∀ u, ¬ s.relay.HasClient homePeer.room homePeer.addr.string u) ∧
    s.client.regDue homePeer.regInterval (31 * second) = true ∧
    (s.relay.isRegRateLimited .default (31 * second) (ipKey homePeer.addr.string)).1 = false ∧
    ¬ AdmittedWithin .default homePeer 3 (31 * second) s := by
  obtain ⟨log, hrun⟩ := Machine.Run.init.exec
    (show (jointMachine .default homePeer).Admissible (fun s _ e => Possible s e) none
      (jointMachine .default homePeer).init stranded by decide +kernel)
  refine ⟨log, _, hrun, ?_, by decide +kernel, by decide +kernel, ?_⟩
  · intro u hclient
    obtain ⟨e, he, hu⟩ := hclient
    have hnone : (((jointMachine .default homePeer).exec (jointMachine .default homePeer).init
        stranded).relay.rooms.lookup homePeer.room).all
          (fun e => (e.udpClients.lookup homePeer.addr.string).isNone) = true := by
      decide +kernel
    rw [he, Option.all_some, hu] at hnone
    cases hnone
  · refine not_admittedWithin_succ none (62 * second) .mismatchedCookie (by decide +kernel) rfl
      (by decide +kernel) (by decide +kernel) ?_
    refine not_admittedWithin_succ none (93 * second) .mismatchedCookie (by decide +kernel) rfl
      (by decide +kernel) (by decide +kernel) ?_
    exact not_admittedWithin_succ none (124 * second) .mismatchedCookie (by decide +kernel) rfl
      (by decide +kernel) (by decide +kernel) id

end Qvole.Engine
