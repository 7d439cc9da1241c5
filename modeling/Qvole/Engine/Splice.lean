import Qvole.Engine.Binding

/-!
# Which address an accepted confirmation carries

A confirmation that is handed on as it was made carries the address of its sender. But its two halves
are authenticated one by one. Nonce and tag name sender and receiver, so `A` takes them from a message
of `B` only. The sealed address is under a key and an associated text that both directions share, so
nothing says which message, or even which side, it comes from.

Against ideal primitives the relay is left with one move: the front of a message of `B` followed by
the sealed address of any message of the session, `A`'s own ones included. What `A` then takes for the
address of `B` is the address of that second message.
-/

namespace Qvole.Engine

open Lib Spake2

variable {Pt : Type} [AddCommGroup Pt] {c : Curve Pt} {gcm : Gcm}

/-! ### A message as it was made -/

theorem buildConfirmPayload_addressTooLong {ck ek p q mine peers addr : Bytes}
    (h : MaxMetadataSize < addr.length) (draws : ConfirmDraws) :
    ∃ e, buildConfirmPayload c gcm ck ek p q mine peers addr draws = .error e := by
  unfold buildConfirmPayload
  dsimp only
  cases draws.nonce with
  | none => exact ⟨_, rfl⟩
  | some nonce =>
      dsimp only
      cases computeConfirm c ck p q nonce.val mine peers with
      | error e => exact ⟨_, rfl⟩
      | ok tag => exact ⟨.addressTooLong, if_pos h⟩

/-- What follows a confirm message does not reach its fields. -/
theorem IsConfirm.fields_append {ck ek p q mine peers addr cp : Bytes}
    (h : IsConfirm c gcm ck ek p q mine peers addr cp) (more : Bytes) :
    (cp ++ more).take (confirmNonceSize + confirmHMACSize) = cp.take (confirmNonceSize + confirmHMACSize) ∧
      encAddrField (cp ++ more) = encAddrField cp := by
  have hfront : confirmNonceSize + confirmHMACSize ≤ cp.length := by
    rw [h.length]
    decide
  have hfield : EncryptedAddrSize ≤ (cp.drop (confirmNonceSize + confirmHMACSize)).length := by
    rw [List.length_drop, h.length]
    decide
  refine ⟨List.take_append_of_le_length hfront, ?_⟩
  rw [encAddrField, List.drop_append_of_le_length hfront, List.take_append_of_le_length hfield,
    encAddrField]

/-- An address of at most `MaxMetadataSize` bytes that does not end in a NUL arrives as it was sent, also
when more bytes follow the message; a longer one is not sent. -/
theorem confirm_round_trip (c : Curve Pt) (gcm : Gcm) (ck ek p q mine peers addr : Bytes) :
    (newGCM ek = .ok () → mine.length = 32 → peers.length = 32 → mine ≠ peers →
      addr.length ≤ MaxMetadataSize → addr.getLast? ≠ some 0 →
      ∀ (nonce : { b : Bytes // b.length = confirmNonceSize })
        (gcmNonce : { b : Bytes // b.length = gcmNonceSize }) (pad : (n : Nat) → { b : Bytes // b.length = n }),
        ∃ cp, buildConfirmPayload c gcm ck ek p q mine peers addr
            ⟨some nonce, some gcmNonce, fun n => some (pad n)⟩ = .ok cp ∧
          cp.length = ConfirmPayloadSize ∧ ∀ more,
            processConfirmMsg c gcm (hexEncode (cp ++ more)) ck ek q p peers mine = .ok addr) ∧
    (MaxMetadataSize < addr.length → ∀ draws, ∃ e,
      buildConfirmPayload c gcm ck ek p q mine peers addr draws = .error e) := by
  refine ⟨?_, buildConfirmPayload_addressTooLong⟩
  intro hkey hmine hpeers hne haddr hlast nonce gcmNonce pad
  have htag : computeConfirm c ck p q nonce.val mine peers = _ :=
    computeConfirm_eq_ok nonce.property hmine hpeers hne
  have hbuilt := buildConfirmPayload_eq_ok gcm nonce gcmNonce pad htag haddr hkey
  have hconfirm := isConfirm_of_built hbuilt
  refine ⟨_, hbuilt, hconfirm.length, ?_⟩
  intro more
  obtain ⟨hfront, hfield⟩ := hconfirm.fields_append more
  have hlen := (List.length_append ..).trans_ge (hconfirm.length.ge.trans (Nat.le_add_right _ more.length))
  rw [processConfirmMsg_splice hconfirm hconfirm rfl hlen hfront hfield, trimRightNul_padAddr,
    trimRightNul_eq_self hlast]

theorem small_confirm_round_trip : ∃ cp,
    buildConfirmPayload smallCurve smallGcm smallConfirmKey smallEncKey smallRoleB.effectiveMyPoint
        smallRoleB.effectivePeerPoint fingerprintB fingerprintA addrB (drawsOf 2) = .ok cp ∧
      processConfirmMsg smallCurve smallGcm (hexEncode cp) smallConfirmKey smallEncKey
        smallRoleA.effectiveMyPoint smallRoleA.effectivePeerPoint fingerprintA fingerprintB = .ok addrB := by
  obtain ⟨cp, hbuilt, _, haccepted⟩ := (confirm_round_trip smallCurve smallGcm smallConfirmKey smallEncKey
    smallRoleB.effectiveMyPoint smallRoleB.effectivePeerPoint fingerprintB fingerprintA addrB).1
    (by decide +kernel) rfl rfl (by decide) (by decide) (by decide) (nonceOf 2) (gcmNonceOf 2) (padOf 2)
  have haccepted := haccepted []
  rw [List.append_nil] at haccepted
  exact ⟨cp, hbuilt, haccepted⟩

/-! ### Who made the halves -/

variable [DecidableEq Pt]

/-- A confirm message a peer has made. -/
structure Sent (c : Curve Pt) (gcm : Gcm) where
  view : View c
  addr : Bytes
  draws : ConfirmDraws
  payload : Bytes
  built : view.confirm gcm addr draws = .ok payload

/-- Ideal primitives, at one payload: if its tag verifies at `A`, one of the messages has this tag on
this text, and if its sealed address opens, one of the messages has it. -/
structure Unforged (A : View c) (sent : List (Sent c gcm)) (payload : Bytes) : Prop where
  hmac : hmacSha256 A.cand.confirmKey (A.checkInput (payload.take confirmNonceSize)) =
      (payload.drop confirmNonceSize).take confirmHMACSize →
    ∃ m ∈ sent, m.view.sendInput (m.payload.take confirmNonceSize) =
        A.checkInput (payload.take confirmNonceSize) ∧
      (m.payload.drop confirmNonceSize).take confirmHMACSize =
        (payload.drop confirmNonceSize).take confirmHMACSize
  aead : ∀ data, decryptMetadata gcm A.cand.encKey
      (sessionAAD A.cand.effectiveMyPoint A.cand.effectivePeerPoint) (encAddrField payload) =
        .ok data →
    ∃ m ∈ sent, encAddrField m.payload = encAddrField payload

/-- The two peers hold the same keys for the same two points. -/
structure SameSession (A B : View c) : Prop where
  confirmKey : B.cand.confirmKey = A.cand.confirmKey
  encKey : B.cand.encKey = A.cand.encKey
  points : s(B.cand.effectiveMyPoint, B.cand.effectivePeerPoint) =
    s(A.cand.effectiveMyPoint, A.cand.effectivePeerPoint)

theorem SameSession.aad {A B : View c} (h : SameSession A B) :
    sessionAAD B.cand.effectiveMyPoint B.cand.effectivePeerPoint =
      sessionAAD A.cand.effectiveMyPoint A.cand.effectivePeerPoint := by
  rcases Sym2.eq_iff.mp h.points with ⟨hmine, hpeers⟩ | ⟨hmine, hpeers⟩
  · rw [hmine, hpeers]
  · rw [hmine, hpeers, sessionAAD_comm]

/-- The front of an accepted payload is the front of a message of the other side. -/
theorem front_of_accepted {A B : View c} {sent : List (Sent c gcm)}
    (hfrom : ∀ m ∈ sent, m.view = A ∨ m.view = B) {hexBody payload addr : Bytes}
    (hdecode : hexDecode hexBody = some payload) (hideal : Unforged A sent payload)
    (haccepted : A.receive gcm hexBody = .ok addr) :
    ∃ m ∈ sent, m.view = B ∧ payload.take (confirmNonceSize + confirmHMACSize) =
      m.payload.take (confirmNonceSize + confirmHMACSize) := by
  obtain ⟨hcheck, _⟩ := View.receive_inv hdecode haccepted
  obtain ⟨m, hm, hinput, htag⟩ := hideal.hmac ((computeConfirm_inv hcheck).2.2.2).symm
  obtain ⟨hfpA, hpeersA, hneA⟩ := A.fingerprints
  obtain ⟨hfpM, hpeersM, _⟩ := m.view.fingerprints
  obtain ⟨_, hsender, _, hnonce⟩ := confirmInput_inj m.view.length_points.1 m.view.length_points.2
    A.length_points.1 A.length_points.2 hfpM hpeersA hpeersM hfpA hinput
  refine ⟨m, hm, ?_, ?_⟩
  · rcases hfrom m hm with hA | hB
    · rw [hA] at hsender
      exact absurd hsender hneA
    · exact hB
  · rw [List.take_add, List.take_add, hnonce, htag]

/-- The accepted address is that of the message the sealed field was taken from. -/
theorem addr_of_sealed {A : View c} {m : Sent c gcm} (hsession : SameSession A m.view)
    {hexBody payload addr : Bytes} (hdecode : hexDecode hexBody = some payload)
    (haccepted : A.receive gcm hexBody = .ok addr)
    (hfield : encAddrField payload = encAddrField m.payload) : addr = trimRightNul m.addr := by
  obtain ⟨_, data, hdata, haddr⟩ := View.receive_inv hdecode haccepted
  have hconfirm := isConfirm_of_built m.built
  obtain ⟨gcmNonce, hsealed⟩ := hconfirm.encAddr
  rw [hfield, hsealed, ← hsession.encKey, ← hsession.aad,
    decryptMetadata_sealed hconfirm.encKey] at hdata
  rw [haddr, ← Except.ok.inj hdata, trimRightNul_padAddr]

/-- Whatever `A` accepts starts with the nonce and the tag of a message of `B` and seals the address of
some message of the session; it returns the address of the first if and only if the second one, without
trailing NULs, has that address. -/
theorem confirmed_address_iff {A B : View c} (hsession : SameSession A B)
    (sent : List (Sent c gcm)) (hfrom : ∀ m ∈ sent, m.view = A ∨ m.view = B)
    {hexBody payload addr : Bytes} (hdecode : hexDecode hexBody = some payload)
    (hideal : Unforged A sent payload) (haccepted : A.receive gcm hexBody = .ok addr) :
    (∃ m ∈ sent, m.view = B ∧ payload.take (confirmNonceSize + confirmHMACSize) =
      m.payload.take (confirmNonceSize + confirmHMACSize)) ∧
    (∃ m' ∈ sent, encAddrField payload = encAddrField m'.payload) ∧
    ∀ m ∈ sent, m.view = B → payload.take (confirmNonceSize + confirmHMACSize) =
        m.payload.take (confirmNonceSize + confirmHMACSize) →
      ∀ m' ∈ sent, encAddrField payload = encAddrField m'.payload →
        (addr = m.addr ↔ trimRightNul m'.addr = m.addr) := by
  refine ⟨front_of_accepted hfrom hdecode hideal haccepted, ?_, ?_⟩
  · obtain ⟨_, data, hdata, _⟩ := View.receive_inv hdecode haccepted
    obtain ⟨m', hm', hfield⟩ := hideal.aead data hdata
    exact ⟨m', hm', hfield.symm⟩
  · intro m _ _ _ m' hm' hfield
    have hsession' : SameSession A m'.view := by
      rcases hfrom m' hm' with hA | hB
      · rw [hA]
        exact ⟨rfl, rfl, rfl⟩
      · rw [hB]
        exact hsession
    rw [addr_of_sealed hsession' hdecode haccepted hfield]

/-! ### A message of the small exchange, and its splice with one of the other direction -/

def addrA : Bytes := ascii "192.0.2.1:4000"

def tagA : Bytes := hexBytes "bd9b2bbbdbe0aa92cd1f36c8d7913c7d78560f8c8191d6d39f058dd6e4be8b4e"

theorem small_tagA : computeConfirm smallCurve smallConfirmKey smallRoleA.effectiveMyPoint
    smallRoleA.effectivePeerPoint (nonceOf 1).val fingerprintA fingerprintB = .ok tagA := by
  decide +kernel

theorem small_confirmA : viewA.confirm smallGcm addrA (drawsOf 1) = .ok (confirmOf 1 tagA addrA) :=
  buildConfirmPayload_eq_ok smallGcm (nonceOf 1) (gcmNonceOf 1) (padOf 1) small_tagA
    (show addrA.length ≤ MaxMetadataSize by decide) (show newGCM smallEncKey = .ok () by decide +kernel)

def sentA : Sent smallCurve smallGcm :=
  ⟨viewA, addrA, drawsOf 1, confirmOf 1 tagA addrA, small_confirmA⟩

def sentB : Sent smallCurve smallGcm :=
  ⟨viewB, addrB, drawsOf 2, confirmOf 2 tagB addrB, small_confirmB⟩

theorem small_session : SameSession viewA viewB := ⟨rfl, rfl, Sym2.eq_swap⟩

theorem small_from : ∀ m ∈ [sentA, sentB], m.view = viewA ∨ m.view = viewB := by
  simp [sentA, sentB]

/-- A payload that starts like the message of `B` and seals one of the two addresses is no forgery. -/
theorem small_unforged {payload : Bytes}
    (hcarries : payload.take (confirmNonceSize + confirmHMACSize) =
      sentB.payload.take (confirmNonceSize + confirmHMACSize))
    {m : Sent smallCurve smallGcm} (hm : m ∈ [sentA, sentB])
    (hfield : encAddrField payload = encAddrField m.payload) :
    Unforged viewA [sentA, sentB] payload := by
  obtain ⟨hnonce, htag⟩ := fields_of_carries hcarries
  refine ⟨fun _ => ⟨sentB, by simp, ?_, htag.symm⟩, fun _ _ => ⟨m, hm, hfield.symm⟩⟩
  rw [hnonce]
  exact confirmInput_comm ..

theorem small_confirmed_address :
    viewA.receive smallGcm (hexEncode sentB.payload) = .ok addrB ∧
      (addrB = sentB.addr ↔ trimRightNul sentB.addr = sentB.addr) :=
  ⟨small_receiveB, (confirmed_address_iff small_session [sentA, sentB] small_from
    (hexDecode_hexEncode sentB.payload) (small_unforged rfl (by simp) rfl) small_receiveB).2.2
    sentB (by simp) rfl rfl sentB (by simp) rfl⟩

/-- Nonce and tag from `B`, all the rest from the message `A` has sent. -/
def splicedPayload : Bytes :=
  sentB.payload.take (confirmNonceSize + confirmHMACSize) ++
    sentA.payload.drop (confirmNonceSize + confirmHMACSize)

theorem spliced_own_address :
    SameSession viewA viewB ∧ Unforged viewA [sentA, sentB] splicedPayload ∧
      viewA.receive smallGcm (hexEncode splicedPayload) = .ok sentA.addr ∧
      sentA.addr ≠ sentB.addr := by
  have hA := isConfirm_of_built sentA.built
  have hB := isConfirm_of_built sentB.built
  have hfront : (sentB.payload.take (confirmNonceSize + confirmHMACSize)).length =
      confirmNonceSize + confirmHMACSize := by
    rw [List.length_take, hB.length]
    rfl
  have hcarries : splicedPayload.take (confirmNonceSize + confirmHMACSize) =
      sentB.payload.take (confirmNonceSize + confirmHMACSize) := List.take_left' hfront
  have hfield : encAddrField splicedPayload = encAddrField sentA.payload := by
    rw [encAddrField, splicedPayload, List.drop_left' hfront, encAddrField]
  have hlength : splicedPayload.length = ConfirmPayloadSize := by
    rw [splicedPayload, List.length_append, hfront, List.length_drop, hA.length]
    rfl
  refine ⟨small_session, small_unforged hcarries (by simp) hfield, ?_, by decide⟩
  refine (processConfirmMsg_splice hB hA (sessionAAD_comm _ _) hlength.ge hcarries hfield).trans ?_
  rw [trimRightNul_padAddr]
  exact congrArg Except.ok (by decide)

end Qvole.Engine
