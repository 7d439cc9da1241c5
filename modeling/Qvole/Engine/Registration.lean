import Qvole.Relay.Presence

/-!
# How a peer registers

`registerAndExchange` sends a `REG` whenever the last one is older than the interval, and reads the
answers of the relay. Of its local variables the registration uses three: the cookie it was last
challenged with, the time of its last `REG` and whether a `REGD OK` has come. A challenge clears the
time, so that the next pass of the loop answers at once.

The relay takes a `REG` of a peer apart into the room and the cookie it was made of.
-/

namespace Qvole.Engine

open Lib Relay

def RegInterval : Int := 30000000000

/-- The cookie is empty before the first challenge. The zero time is `none`. -/
structure RegClient where
  pendingCookie : Bytes
  lastRegSent : Option Int
  receivedREGD : Bool
  cookie_wf : pendingCookie = [] ∨
    ∃ b, hexDecode pendingCookie = some b ∧ b.length = pendingCookieBytes

def RegClient.start : RegClient := ⟨[], none, false, Or.inl rfl⟩

namespace RegClient

/-- `time.Since(lastRegSent) > regInterval`. -/
def regDue (regInterval now : Int) (c : RegClient) : Bool :=
  match c.lastRegSent with
  | none => true
  | some t => regInterval < now - t

def regMsg (room : Bytes) (c : RegClient) : Bytes :=
  if c.pendingCookie ≠ [] then ascii "REG " ++ room ++ [32] ++ c.pendingCookie ++ [10]
  else ascii "REG " ++ room ++ [10]

def sentReg (now : Int) (c : RegClient) : RegClient := { c with lastRegSent := some now }

/-- A challenge: the payload of a `REGD` that is no `OK`. -/
def onChallenge (payload : Bytes) (c : RegClient) : RegClient :=
  if h : payload.length = 32 ∧ (hexDecode payload).isSome then
    { c with
      pendingCookie := payload
      lastRegSent := none
      cookie_wf := by
        obtain ⟨b, hb⟩ := Option.isSome_iff_exists.mp h.2
        refine Or.inr ⟨b, hb, ?_⟩
        have hlen := length_of_hexDecode hb
        rw [pendingCookieBytes]
        omega }
  else c

/-- What a datagram from the relay means for the registration. -/
def onDatagram (room data : Bytes) (c : RegClient) : RegClient :=
  let line := trimSpace data
  if (ascii "REGD ").isPrefixOf line then
    match cut 32 (line.drop 5) with
    | (_, none) => c
    | (relayRoom, some relayPayload) =>
      let payload := trimSpace relayPayload
      if relayRoom ≠ room then c
      else if (ascii "OK ").isPrefixOf payload then { c with receivedREGD := true }
      else c.onChallenge payload
  else c

end RegClient

/-! ### The relay reads what the peer wrote -/

variable {room : Bytes}

/-- The fields of a line made of visible bytes, as `handlePacket` finds them. -/
theorem regFields_join {cookie : Bytes} (hne : room ≠ []) (hroom : ∀ b ∈ room, isPrint b)
    (hcookie : ∀ b ∈ cookie, isPrint b) (hlen : cookie ≠ []) :
    regFields (room ++ 32 :: cookie) = (room, cookie) := by
  have hself : trimSpace (room ++ 32 :: cookie) = room ++ 32 :: cookie := by
    apply trimSpace_eq_self
    · intro b hb
      rw [List.head?_append_of_ne_nil _ hne] at hb
      exact hroom b (List.mem_of_head? hb)
    · intro b hb
      rw [List.getLast?_append_of_ne_nil _ (by simp), List.getLast?_cons_of_ne_nil hlen] at hb
      exact hcookie b (List.mem_of_getLast? hb)
  have htrim : trimSpace cookie = cookie :=
    trimSpace_eq_self (fun b hb => hcookie b (List.mem_of_head? hb))
      (fun b hb => hcookie b (List.mem_of_getLast? hb))
  rw [regFields, hself, splitN_append 0 cookie (space_notMem hroom)]
  simp only [splitN]
  rw [htrim]

theorem regFields_room (hroom : ∀ b ∈ room, isPrint b) : regFields room = (room, []) := by
  have hself : trimSpace room = room :=
    trimSpace_eq_self (fun b hb => hroom b (List.mem_of_head? hb))
      (fun b hb => hroom b (List.mem_of_getLast? hb))
  rw [regFields, hself, splitN_of_notMem 1 (space_notMem hroom)]
  rfl

/-- A line that starts with the command and ends in a visible byte loses its newline only. -/
theorem parseReg_line {rest : Bytes} {fields : Bytes × Bytes} (hne : rest ≠ [])
    (hlast : ∀ b, rest.getLast? = some b → isPrint b) (hlen : rest.length ≤ 1000)
    (hfields : regFields rest = fields) (hvalid : validRoomName fields.1) :
    parseReg (ascii "REG " ++ rest ++ [10]) = some fields := by
  have hcmd : (ascii "REG ").length = 4 := rfl
  have htrim : trimSpace (ascii "REG " ++ rest ++ [10]) = ascii "REG " ++ rest := by
    apply trimSpace_append_newline
    · simp [hne]
    · intro b hb
      rw [List.head?_append_of_ne_nil _ (by decide)] at hb
      cases hb
      decide
    · intro b hb
      rw [List.getLast?_append_of_ne_nil _ hne] at hb
      exact hlast b hb
  have hdrop : (ascii "REG " ++ rest).drop cmdPrefixLen = rest := List.drop_left' hcmd
  have htake : (ascii "REG " ++ rest).take cmdPrefixLen = ascii "REG " := List.take_left' hcmd
  unfold parseReg
  dsimp only
  rw [htrim, hdrop, htake, hfields, if_pos]
  refine ⟨by simp, ?_, rfl, hvalid⟩
  rw [List.length_append, List.length_append, hcmd, maxDatagramLen, List.length_singleton]
  omega

theorem RegClient.isPrint_cookie (c : RegClient) {b : UInt8} (hb : b ∈ c.pendingCookie) :
    isPrint b := by
  rcases c.cookie_wf with hempty | ⟨d, hdecode, _⟩
  · rw [hempty] at hb
    cases hb
  · exact isPrint_of_isSome_fromHexChar (isSome_of_hexDecode hdecode hb)

/-- The relay reads a `REG` of the peer as the room and the cookie the peer put in. -/
theorem parseReg_regMsg (hvalid : validRoomName room) (c : RegClient) :
    parseReg (c.regMsg room) = some (room, c.pendingCookie) := by
  obtain ⟨hne, hlen, hroom⟩ := validRoomName_iff.mp hvalid
  rw [maxRoomNameLen] at hlen
  have hcookie : ∀ b ∈ c.pendingCookie, isPrint b := fun b hb => c.isPrint_cookie hb
  unfold RegClient.regMsg
  by_cases hempty : c.pendingCookie = []
  · rw [if_neg (not_not.mpr hempty), hempty]
    exact parseReg_line hne (fun b hb => hroom b (List.mem_of_getLast? hb)) (by omega)
      (regFields_room hroom) hvalid
  · rw [if_pos hempty, List.append_assoc (ascii "REG ") room, List.append_assoc (ascii "REG ")]
    have hlength : c.pendingCookie.length = 32 := by
      rcases c.cookie_wf with h | ⟨d, hdecode, hd⟩
      · exact absurd h hempty
      · rw [length_of_hexDecode hdecode, hd]
        rfl
    refine parseReg_line (by simp) ?_ ?_ ?_ hvalid
    · intro b hb
      rw [List.getLast?_append_of_ne_nil _ hempty] at hb
      exact hcookie b (List.mem_of_getLast? hb)
    · simp only [List.length_append, List.length_singleton, hlength]
      omega
    · rw [List.append_assoc]
      exact regFields_join hne hroom hcookie hempty

/-! ### The peer reads what the relay wrote -/

namespace RegClient

/-- A `REGD` line of the room. -/
theorem onDatagram_regd {data payload : Bytes} (c : RegClient) (hroom : validRoomName room)
    (hline : trimSpace data = ascii "REGD " ++ (room ++ 32 :: payload)) :
    c.onDatagram room data =
      if (ascii "OK ").isPrefixOf (trimSpace payload) then { c with receivedREGD := true }
      else c.onChallenge (trimSpace payload) := by
  obtain ⟨_, _, hprint⟩ := validRoomName_iff.mp hroom
  have hstart : (ascii "REGD ").isPrefixOf (ascii "REGD " ++ (room ++ 32 :: payload)) = true := by
    simp
  have hdrop : (ascii "REGD " ++ (room ++ 32 :: payload)).drop 5 = room ++ 32 :: payload := rfl
  unfold onDatagram
  simp only [hline, hstart, if_true, hdrop, cut_append _ (space_notMem hprint), ne_eq, not_true_eq_false,
    if_false]

theorem cookie_ne_nil (cb : Cookie) : cb.val ≠ [] := by
  intro hnil
  have hlen := cb.property
  rw [hnil] at hlen
  cases hlen

theorem trimSpace_regdChallenge (room : Bytes) (cb : Cookie) :
    trimSpace (regdChallenge room cb) = ascii "REGD " ++ (room ++ 32 :: hexEncode cb.val) := by
  have hhead : ∀ b, (ascii "REGD " ++ room ++ [32]).head? = some b → isPrint b := by
    intro b hb
    cases hb
    decide
  rw [regdChallenge, trimSpace_hexLine (by simp) hhead (cookie_ne_nil cb)]
  simp only [List.append_assoc, List.cons_append, List.nil_append]

/-- A cookie is no `OK`. -/
theorem ok_of_hexEncode (payload : Bytes) :
    (ascii "OK ").isPrefixOf (trimSpace (hexEncode payload)) = false := by
  rw [trimSpace_hexEncode, Bool.eq_false_iff, ne_eq, List.isPrefixOf_iff_prefix]
  intro hok
  exact notMem_hexEncode rfl (hok.subset List.mem_cons_self)

/-- A challenge of the relay is taken for one. -/
theorem onDatagram_regdChallenge (c : RegClient) (cb : Cookie) (hroom : validRoomName room) :
    c.onDatagram room (regdChallenge room cb) = c.onChallenge (hexEncode cb.val) := by
  rw [c.onDatagram_regd hroom (trimSpace_regdChallenge room cb), ok_of_hexEncode, if_neg (by decide),
    trimSpace_hexEncode]

theorem onChallenge_cookie (c : RegClient) (cb : Cookie) :
    (c.onChallenge (hexEncode cb.val)).pendingCookie = hexEncode cb.val ∧
      (c.onChallenge (hexEncode cb.val)).lastRegSent = none ∧
      (c.onChallenge (hexEncode cb.val)).receivedREGD = c.receivedREGD := by
  have hlen : (hexEncode cb.val).length = 32 := by
    rw [length_hexEncode, cb.property]
    rfl
  rw [onChallenge, dif_pos ⟨hlen, by rw [hexDecode_hexEncode]; rfl⟩]
  exact ⟨rfl, rfl, rfl⟩

theorem isPrint_last_ok (b : UInt8) (hb : (ascii "OK").getLast? = some b) : isPrint b := by
  cases hb
  decide

theorem trimSpace_regdOK (room rest : Bytes) :
    ∃ tail, trimSpace (ascii "REGD " ++ (room ++ 32 :: ascii "OK") ++ rest) =
      ascii "REGD " ++ (room ++ 32 :: (ascii "OK" ++ tail)) := by
  have hlast : ∀ b, (ascii "REGD " ++ (room ++ 32 :: ascii "OK")).getLast? = some b → isPrint b := by
    intro b hb
    rw [List.getLast?_append_of_ne_nil _ (by simp), List.getLast?_append_of_ne_nil _ (by simp),
      List.getLast?_cons_of_ne_nil (by decide)] at hb
    exact isPrint_last_ok b hb
  obtain ⟨tail, hline⟩ := trimSpace_append rest (by simp) (fun b hb => by cases hb; decide) hlast
  refine ⟨tail, ?_⟩
  rw [hline, List.append_assoc, List.append_assoc, List.cons_append]

/-- A line that says `OK` is not taken for a challenge, whatever follows: `O` is no hex digit. -/
theorem onDatagram_regdOK (c : RegClient) (hroom : validRoomName room) (rest : Bytes) :
    (c.onDatagram room (ascii "REGD " ++ (room ++ 32 :: ascii "OK") ++ rest)).pendingCookie =
        c.pendingCookie ∧
      (c.onDatagram room (ascii "REGD " ++ (room ++ 32 :: ascii "OK") ++ rest)).lastRegSent =
        c.lastRegSent := by
  obtain ⟨tail, hline⟩ := trimSpace_regdOK room rest
  obtain ⟨rest', hpayload⟩ := trimSpace_append tail (by decide) (fun b hb => by cases hb; decide) isPrint_last_ok
  have hnothex : hexDecode (ascii "OK" ++ rest') = none := by
    apply Option.eq_none_iff_forall_ne_some.mpr
    intro d hd
    cases isSome_of_hexDecode hd (c := 79) (List.mem_append_left rest' (by decide))
  rw [c.onDatagram_regd hroom hline, hpayload]
  split
  · exact ⟨rfl, rfl⟩
  · rw [onChallenge, dif_neg]
    · exact ⟨rfl, rfl⟩
    · rw [hnothex]
      intro h
      cases h.2

end RegClient

end Qvole.Engine
