import Qvole.Engine.Wire
import Qvole.Lib.NetText

/-!
# The address the relay names

With `REGD <room> OK <addr>` the relay names the address under which it sees the peer, and the peer
adopts it if it is a literal address with a port, in printable bytes. The confirmation has room for
`MaxMetadataSize` bytes of address, which is not part of that test: an IPv6 address that is written out
with an embedded IPv4 address is longer, and a zone may have any length. With such an address no
confirmation can be built, and every payload of the peer is dropped.
-/

namespace Qvole.Engine

open Lib Relay Spake2

variable {Pt : Type} [AddCommGroup Pt] [DecidableEq Pt] {x : Session Pt} {p : Pass} {s : Exchange}
  {k : Candidate} {room data addr hexBody : Bytes} {src : UDPAddr}

/-! ### Adopting it -/

theorem regd_of_externalAddr (h : externalAddr room data = some addr) :
    ∃ rest, trimSpace data = ascii "REGD " ++ rest := by
  rw [externalAddr] at h
  dsimp only at h
  split at h
  · rename_i hfront
    obtain ⟨rest, hrest⟩ := List.isPrefixOf_iff_prefix.mp hfront
    exact ⟨rest, hrest.symm⟩
  · cases h

theorem receive_adopts (h : externalAddr x.room (readBytes data) = some addr) :
    (x.receive p data s).state.myAddr = addr := by
  obtain ⟨rest, hline⟩ := regd_of_externalAddr h
  rw [receive_regd hline, h]
  rfl

/-! ### Confirming with it -/

/-- Draws of random bytes that succeed. -/
def ConfirmDraws.Succeed (draws : ConfirmDraws) : Prop :=
  ∃ nonce gcmNonce, ∃ pad : (n : Nat) → { b : Bytes // b.length = n },
    draws = ⟨some nonce, some gcmNonce, fun n => some (pad n)⟩

/-- What a payload that was processed leaves for its confirmation. -/
theorem Session.confirmable (hk : x.process hexBody = .ok k) :
    x.myFingerprint.length = 32 ∧ k.peerFingerprint.length = 32 ∧ x.myFingerprint ≠ k.peerFingerprint ∧
      newGCM k.encKey = .ok () := by
  obtain ⟨shared, _, _, hkeys⟩ := processSpakeMsg_inv hk
  obtain ⟨hmine, hpeers, hne, _⟩ := deriveSessionKey_inv hkeys
  refine ⟨hmine, hpeers, hne, ?_⟩
  rw [deriveSessionKey_eq_ok hmine hpeers hne rfl] at hkeys
  have henc : k.encKey.length = 32 := by
    rw [← (Prod.mk.inj (Except.ok.inj hkeys)).2, length_hmacSha256]
  rw [newGCM, if_pos (Or.inr (Or.inr henc))]

theorem Session.confirm_fits (hk : x.process hexBody = .ok k) {draws : ConfirmDraws} (hdraws : draws.Succeed)
    (haddr : addr.length ≤ MaxMetadataSize) : ∃ cp, x.confirm k addr draws = .ok cp := by
  obtain ⟨nonce, gcmNonce, pad, rfl⟩ := hdraws
  obtain ⟨hmine, hpeers, hne, hgcm⟩ := Session.confirmable hk
  exact ⟨_, buildConfirmPayload_eq_ok x.gcm nonce gcmNonce pad
    (computeConfirm_eq_ok nonce.property hmine hpeers hne) haddr hgcm⟩

/-- The length is what a longer address fails for. -/
theorem Session.confirm_tooLong (hk : x.process hexBody = .ok k) {draws : ConfirmDraws} (hdraws : draws.Succeed)
    (haddr : MaxMetadataSize < addr.length) : x.confirm k addr draws = .error .addressTooLong := by
  obtain ⟨nonce, gcmNonce, pad, rfl⟩ := hdraws
  obtain ⟨hmine, hpeers, hne, _⟩ := Session.confirmable hk
  rw [Session.confirm, buildConfirmPayload]
  dsimp only
  rw [computeConfirm_eq_ok nonce.property hmine hpeers hne]
  exact if_pos haddr

theorem source_string_fits {src : UDPAddr} (hip : src.ip.length = 4 ∨ src.ip.length = 16) (hport : src.port < 65536)
    (hzone : src.zone = []) : src.string.length ≤ MaxMetadataSize := by
  have hne : src.ip ≠ [] := by
    intro hnil
    simp [hnil] at hip
  have hstring : src.ip.string.length ≤ 39 := by
    cases h4 : src.ip.to4 with
    | some ip4 => exact (IP.length_string_v4_le h4).trans (by decide)
    | none =>
        apply IP.length_string_v6_le _ h4
        apply hip.resolve_left
        intro hlen
        rw [IP.to4, if_pos hlen] at h4
        cases h4
  have hdigits : (itoa src.port).length ≤ 5 := length_itoa_le (by decide) (hport.trans (by decide))
  have hjoined := length_joinHostPort_le src.ip.string (itoa src.port)
  rw [UDPAddr.string, if_neg hne, if_pos hzone]
  exact hjoined.trans (show _ ≤ 52 by omega)

/-- A relay that names the source it has seen, which has no zone, blocks nothing. -/
theorem Session.confirm_source {src : UDPAddr} (hip : src.ip.length = 4 ∨ src.ip.length = 16)
    (hport : src.port < 65536) (hzone : src.zone = []) (hk : x.process hexBody = .ok k)
    {draws : ConfirmDraws} (hdraws : draws.Succeed) : ∃ cp, x.confirm k src.string draws = .ok cp :=
  Session.confirm_fits hk hdraws (source_string_fits hip hport hzone)

/-! ### The text of an address -/

theorem getLast?_joinHostPort (host port : Bytes) : (joinHostPort host port).getLast? = (58 :: port).getLast? := by
  unfold joinHostPort
  split
  · rw [List.getLast?_append_of_ne_nil _ (List.cons_ne_nil _ _), List.getLast?_cons_of_ne_nil (List.cons_ne_nil _ _)]
  · rw [List.getLast?_append_of_ne_nil _ (List.cons_ne_nil _ _)]

theorem getLast?_detectOutboundAddr (a : UDPAddr) : (detectOutboundAddr a).getLast? = a.string.getLast? := by
  unfold detectOutboundAddr
  dsimp only
  split
  · rfl
  rename_i host port hsplit
  split
  · rfl
  split
  · rw [getLast?_joinHostPort]
    obtain ⟨_, _, hs | ⟨_, hs⟩⟩ := splitHostPort_inv hsplit
    · rw [hs, ← List.cons_append, List.getLast?_append_of_ne_nil _ (List.cons_ne_nil _ _),
        List.getLast?_cons_of_ne_nil (List.cons_ne_nil _ _)]
    · rw [hs, List.getLast?_append_of_ne_nil _ (List.cons_ne_nil _ _)]
  · rfl

theorem trimRightNul_of_last {a : UDPAddr} (h : addr.getLast? = a.string.getLast?) : trimRightNul addr = addr := by
  apply trimRightNul_eq_self
  intro hzero
  rw [h, UDPAddr.string, getLast?_joinHostPort] at hzero
  rcases List.mem_cons.mp (List.mem_of_getLast? hzero) with hzero | hzero
  · cases hzero
  · exact notMem_itoa (by decide) hzero

theorem isPrint_source_string (hip : src.ip.length = 4 ∨ src.ip.length = 16) (hzone : src.zone = []) {b : UInt8}
    (hb : b ∈ src.string) : isPrint b := by
  have hne : src.ip ≠ [] := by
    intro hnil
    simp [hnil] at hip
  have hhost : ∀ c ∈ src.ip.string, isPrint c := by
    intro c hc
    cases h4 : src.ip.to4 with
    | some ip4 =>
        rcases IP.string_chars_v4 h4 hc with rfl | hdigit
        · decide
        · exact isPrint_of_isDigit hdigit
    | none =>
        have hlen : src.ip.length = 16 := by
          apply hip.resolve_left
          intro hlen
          rw [IP.to4, if_pos hlen] at h4
          cases h4
        rcases (IP.string_chars_v6 hlen h4).2 c hc with rfl | hhex
        · decide
        · exact isPrint_of_isSome_fromHexChar hhex
  have hport : ∀ c ∈ itoa src.port, isPrint c := fun c hc => isPrint_of_isDigit (isDigit_of_mem_itoa hc)
  rw [UDPAddr.string, if_neg hne, if_pos hzone, joinHostPort] at hb
  have h58 : isPrint 58 := by decide
  have h91 : isPrint 91 := by decide
  have h93 : isPrint 93 := by decide
  split at hb
  · simp only [List.cons_append, List.mem_cons, List.mem_append] at hb
    grind
  · simp only [List.mem_cons, List.mem_append] at hb
    grind

theorem source_string_ne_nil (src : UDPAddr) : src.string ≠ [] := by
  intro hnil
  have hlast : src.string.getLast? = _ := getLast?_joinHostPort _ (itoa src.port)
  rw [hnil] at hlast
  exact absurd hlast.symm (by simp)

theorem isPrint_last_source (hip : src.ip.length = 4 ∨ src.ip.length = 16) (hzone : src.zone = []) {front : Bytes}
    (b : UInt8) (hb : (front ++ src.string).getLast? = some b) : isPrint b := by
  rw [List.getLast?_append_of_ne_nil _ (source_string_ne_nil src)] at hb
  exact isPrint_source_string hip hzone (List.mem_of_getLast? hb)

theorem line_regdOK (hroom : room.length ≤ 8) (hip : src.ip.length = 4 ∨ src.ip.length = 16)
    (hport : src.port < 65536) (hzone : src.zone = []) :
    trimSpace (readBytes (regdOK room src)) = ascii "REGD " ++ (room ++ 32 :: (ascii "OK " ++ src.string)) := by
  have hfits : src.string.length ≤ 52 := source_string_fits hip hport hzone
  have hread : readBytes (regdOK room src) = regdOK room src := by
    apply readBytes_of_le
    simp only [regdOK, List.length_append, List.length_singleton, readBufferSize]
    rw [show (ascii "REGD ").length = 5 from rfl, show (ascii " OK ").length = 4 from rfl]
    omega
  have htrim : trimSpace (regdOK room src) = ascii "REGD " ++ room ++ ascii " OK " ++ src.string := by
    apply trimSpace_append_newline
    · exact List.append_ne_nil_of_right_ne_nil _ (source_string_ne_nil src)
    · intro b hb
      cases hb
      decide
    · exact isPrint_last_source hip hzone
  rw [hread, htrim, show ascii " OK " = 32 :: ascii "OK " from rfl]
  simp only [List.append_assoc, List.cons_append]

/-- A confirmed registration names the source, and the peer reads nothing else. -/
theorem externalAddr_regdOK (hvalid : validRoomName room) (hroom : room.length ≤ 8)
    (hip : src.ip.length = 4 ∨ src.ip.length = 16) (hport : src.port < 65536) (hzone : src.zone = [])
    (h : externalAddr room (readBytes (regdOK room src)) = some addr) : addr = src.string := by
  have hline := line_regdOK hroom hip hport hzone
  have hpayload : trimSpace (ascii "OK " ++ src.string) = ascii "OK " ++ src.string := by
    apply trimSpace_eq_self
    · intro b hb
      cases hb
      decide
    · exact isPrint_last_source hip hzone
  have htext : trimSpace src.string = src.string := by
    apply trimSpace_eq_self
    · exact fun b hb => isPrint_source_string hip hzone (List.mem_of_head? hb)
    · exact fun b hb => isPrint_source_string hip hzone (List.mem_of_getLast? hb)
  have hdrop : (ascii "REGD " ++ (room ++ 32 :: (ascii "OK " ++ src.string))).drop 5 =
      room ++ 32 :: (ascii "OK " ++ src.string) := rfl
  have hrest : (ascii "OK " ++ src.string).drop 3 = src.string := rfl
  obtain ⟨_, _, hvisible⟩ := validRoomName_iff.mp hvalid
  rw [externalAddr, hline] at h
  simp only [hdrop, cut_append _ (space_notMem hvisible), hpayload, hrest, htext] at h
  grind

/-! ### The table -/

theorem Session.onSpake2_dropped {e : ExchangeError} (hk : x.process hexBody = .ok k)
    (he : x.confirm k s.myAddr p.draws = .error e) :
    (x.onSpake2 p hexBody s).state.candidates = s.candidates := by
  rw [Session.onSpake2]
  split
  · rfl
  · split
    · rfl
    · rw [hk]
      dsimp only
      rw [he]
      rfl

/-- The peer adopts every address that passes its test. From then on, for a valid payload of the other
side, the confirmation does not fail for length and the payload becomes a candidate exactly when the
address has room in the confirmation. -/
theorem external_address_fits (x : Session Pt) (p : Pass) (s : Exchange) (data addr : Bytes)
    (hadopted : externalAddr x.room (readBytes data) = some addr) :
    (x.receive p data s).state.myAddr = addr ∧
    ∀ (s' : Exchange) (q : Pass) (line hexBody key : Bytes) (k : Candidate), s'.myAddr = addr →
      q.draws.Succeed → msgdBody (ascii "spake2") line = some hexBody → payloadHex hexBody = some key →
      key ∉ s'.candidates → x.process hexBody = .ok k →
      (x.confirm k addr q.draws ≠ .error .addressTooLong ↔ addr.length ≤ MaxMetadataSize) ∧
      (key ∈ (x.handle q line s').state.candidates ↔ addr.length ≤ MaxMetadataSize) := by
  refine ⟨receive_adopts hadopted, ?_⟩
  intro s' q line hexBody key k hmine hdraws hbody hkey hnew hk
  rw [Session.handle_spake2 hbody]
  by_cases haddr : addr.length ≤ MaxMetadataSize
  · obtain ⟨cp, hcp⟩ := Session.confirm_fits hk hdraws haddr
    rw [Session.onSpake2_added hkey hnew hk (hmine ▸ hcp), hcp]
    refine ⟨iff_of_true (fun h => nomatch h) haddr, iff_of_true ?_ haddr⟩
    exact GoMap.mem_insert_if.mpr (Or.inl rfl)
  · have hlong := Session.confirm_tooLong hk hdraws (Nat.lt_of_not_le haddr)
    rw [Session.onSpake2_dropped hk (hmine ▸ hlong)]
    exact ⟨iff_of_false (fun h => h hlong) haddr, iff_of_false hnew haddr⟩

/-! ### A line of the relay -/

/-- An address of the documented kind. -/
def shortRegd : Bytes := ascii "REGD 1234 OK 198.51.100.2:5000" ++ [10]

theorem small_draws (data : Bytes) : (passOf data).draws.Succeed := ⟨_, _, _, rfl⟩

theorem external_address_fits_short :
    (smallSession.receive (passOf shortRegd) shortRegd (.start addrA)).state.myAddr = ascii "198.51.100.2:5000" ∧
    viewA.body ∈ (smallSession.handle (passOf spake2B) spake2B
      (smallSession.receive (passOf shortRegd) shortRegd (.start addrA)).state).state.candidates := by
  have hadopted : externalAddr smallSession.room (readBytes shortRegd) = some (ascii "198.51.100.2:5000") := by
    decide +kernel
  obtain ⟨hmine, hcandidate⟩ := external_address_fits smallSession (passOf shortRegd) (.start addrA) _ _ hadopted
  obtain ⟨rest, hline⟩ := regd_of_externalAddr hadopted
  have hnew : viewA.body ∉
      (smallSession.receive (passOf shortRegd) shortRegd (.start addrA)).state.candidates := by
    rw [receive_regd hline]
    exact AList.notMem_empty _
  exact ⟨hmine, (hcandidate _ (passOf spake2B) spake2B _ _ _ hmine (small_draws _) small_body small_key hnew
    viewA.processed).2.mpr (by decide +kernel)⟩

/-- An address of 53 bytes. -/
def longAddr : Bytes := ascii "[ffff:ffff:ffff:ffff:ffff:ffff:255.255.255.255]:65535"

def longRegd : Bytes := ascii "REGD 1234 OK " ++ longAddr ++ [10]

/-- The address is adopted, and the valid payload of the other side is dropped because the confirmation
fails for its length. -/
theorem external_address_blocks :
    externalAddr smallSession.room (readBytes longRegd) = some longAddr ∧
    (smallSession.receive (passOf longRegd) longRegd (.start addrA)).state.myAddr = longAddr ∧
    msgdBody (ascii "spake2") spake2B = some viewA.body ∧
    smallSession.process viewA.body = .ok viewA.cand ∧
    smallSession.confirm viewA.cand longAddr (passOf spake2B).draws = .error .addressTooLong ∧
    (smallSession.handle (passOf spake2B) spake2B
      (smallSession.receive (passOf longRegd) longRegd (.start addrA)).state).state.candidates = ∅ := by
  have hadopted : externalAddr smallSession.room (readBytes longRegd) = some longAddr := by decide +kernel
  have hmine : (smallSession.receive (passOf longRegd) longRegd (.start addrA)).state.myAddr = longAddr :=
    receive_adopts hadopted
  have hk : smallSession.process viewA.body = .ok viewA.cand := viewA.processed
  have hlength : MaxMetadataSize < longAddr.length := by decide +kernel
  have hlong := Session.confirm_tooLong hk (small_draws spake2B) hlength
  refine ⟨hadopted, hmine, small_body, hk, hlong, ?_⟩
  obtain ⟨rest, hline⟩ := regd_of_externalAddr hadopted
  rw [Session.handle_spake2 small_body, Session.onSpake2_dropped hk (hmine ▸ hlong),
    receive_regd hline]
  rfl

end Qvole.Engine
