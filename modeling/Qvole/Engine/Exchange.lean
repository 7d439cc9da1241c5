import Qvole.Lib.Fallible
import Qvole.Spake2.Protocol

/-!
# The messages of the exchange

A `spake2` message carries both blinded points of a peer and its certificate fingerprint. The larger
`M`-point makes the server, which uses its `N`-point against the client's `M`-point. A `confirm`
message carries a nonce, an HMAC over the transcript in the direction of the message, and the sender's
address sealed under the session key; the sealing knows nothing of the direction.

`selectRole` is the part of `processSpakeMsg` before the secret is computed.
-/

namespace Qvole.Engine

open Lib Spake2

def pointLen : Nat := 65
def fingerprintSize : Nat := 32
def spake2PayloadLen : Nat := pointLen * 2 + fingerprintSize
def MaxMetadataSize : Nat := 52
def confirmNonceSize : Nat := 16
def confirmHMACSize : Nat := 32
def EncryptedAddrSize : Nat := 12 + MaxMetadataSize + 16
def ConfirmMinSize : Nat := confirmNonceSize + confirmHMACSize + EncryptedAddrSize
def confirmRandPad : Nat := 32
def ConfirmPayloadSize : Nat := ConfirmMinSize + confirmRandPad

inductive ExchangeError
  | badHex
  | payloadTooShort
  | reflectedFingerprint
  | reflectedPoint
  | randFailed
  | addressTooLong
  | confirmTooShort
  | confirmMismatch
  | spake2 (e : Spake2.Error)
  deriving DecidableEq

structure Role where
  effectiveMyPoint : Bytes
  effectivePeerPoint : Bytes
  peerFingerprint : Bytes
  isServer : Bool
  deriving DecidableEq

structure Candidate extends Role where
  confirmKey : Bytes
  encKey : Bytes
  deriving DecidableEq

def decodeBody (body : Bytes) : Except ExchangeError Bytes :=
  match hexDecode body with
  | some payload => .ok payload
  | none => .error .badHex

def selectRole (body myPointM myPointN myFingerprint : Bytes) : Except ExchangeError Role := do
  let peerPayload ← decodeBody body
  if peerPayload.length < spake2PayloadLen then .error .payloadTooShort
  else
    let peerPointM := peerPayload.take pointLen
    let peerPointN := (peerPayload.drop pointLen).take pointLen
    let peerFingerprint := (peerPayload.drop (pointLen * 2)).take fingerprintSize
    if myFingerprint = peerFingerprint then .error .reflectedFingerprint
    else if myPointM = peerPointM then .error .reflectedPoint
    else if peerPointM < myPointM then .ok ⟨myPointN, peerPointM, peerFingerprint, true⟩
    else .ok ⟨myPointM, peerPointN, peerFingerprint, false⟩

section

variable {Pt : Type} [AddCommGroup Pt] (c : Curve Pt) (gcm : Gcm)

def processSpakeMsg [DecidableEq Pt] (body : Bytes) (state : State Pt)
    (myPointM myPointN myFingerprint : Bytes) : Except ExchangeError Candidate := do
  let role ← selectRole body myPointM myPointN myFingerprint
  let shared ← (computeShared c state role.effectivePeerPoint role.isServer).mapError .spake2
  let keys ← (deriveSessionKey c shared role.effectiveMyPoint role.effectivePeerPoint myFingerprint
    role.peerFingerprint).mapError .spake2
  .ok { role with confirmKey := keys.1, encKey := keys.2 }

/-- The random bytes of one confirm message; the length of the padding depends on the rest. -/
structure ConfirmDraws where
  nonce : Option { b : Bytes // b.length = confirmNonceSize }
  gcmNonce : Option { b : Bytes // b.length = gcmNonceSize }
  pad : (n : Nat) → Option { b : Bytes // b.length = n }

def padAddr (addr : Bytes) : Bytes := addr ++ List.replicate (MaxMetadataSize - addr.length) 0

def buildConfirmPayload (confirmKey encKey myPoint peerPoint myFingerprint peerFingerprint
    myAddr : Bytes) (draws : ConfirmDraws) : Except ExchangeError Bytes := do
  let aad := sessionAAD myPoint peerPoint
  match draws.nonce with
  | none => .error .randFailed
  | some nonce =>
    let confirm ← (computeConfirm c confirmKey myPoint peerPoint nonce.val myFingerprint
      peerFingerprint).mapError .spake2
    if MaxMetadataSize < myAddr.length then .error .addressTooLong
    else
      let encAddr ← (encryptMetadata gcm encKey aad (padAddr myAddr) draws.gcmNonce).mapError .spake2
      let cp := nonce.val ++ confirm ++ encAddr
      if cp.length < ConfirmPayloadSize then
        match draws.pad (ConfirmPayloadSize - cp.length) with
        | none => .error .randFailed
        | some pad => .ok (cp ++ pad.val)
      else .ok cp

/-- `strings.TrimRight(s, "\x00")`. -/
def trimRightNul (s : Bytes) : Bytes := (s.reverse.dropWhile (· = 0)).reverse

/-- The bytes of a confirm payload that hold the sealed address. -/
def encAddrField (payload : Bytes) : Bytes :=
  (payload.drop (confirmNonceSize + confirmHMACSize)).take EncryptedAddrSize

def processConfirmMsg (hexBody confirmKey encKey myPoint peerPoint myFingerprint
    peerFingerprint : Bytes) : Except ExchangeError Bytes := do
  let payload ← decodeBody hexBody
  if payload.length < ConfirmPayloadSize then .error .confirmTooShort
  else
    let peerNonce := payload.take confirmNonceSize
    let peerConfirm := (payload.drop confirmNonceSize).take confirmHMACSize
    if ¬ verifyConfirm c confirmKey myPoint peerPoint peerNonce myFingerprint peerFingerprint
        peerConfirm then
      .error .confirmMismatch
    else
      let aad := sessionAAD myPoint peerPoint
      let addr ← (decryptMetadata gcm encKey aad (encAddrField payload)).mapError .spake2
      .ok (trimRightNul addr)

/-! ### What an accepted message looks like -/

variable {c gcm}

theorem decodeBody_eq_ok {body payload : Bytes} :
    decodeBody body = .ok payload ↔ hexDecode body = some payload := by
  unfold decodeBody
  cases hexDecode body with
  | none => simp
  | some b => simp

theorem selectRole_inv {body mineM mineN mine : Bytes} {role : Role}
    (h : selectRole body mineM mineN mine = .ok role) :
    mine ≠ role.peerFingerprint ∧ role.effectivePeerPoint.length = pointLen ∧
      (role.effectiveMyPoint = mineM ∨ role.effectiveMyPoint = mineN) := by
  obtain ⟨payload, _, h⟩ := bind_eq_ok.mp h
  split at h
  · cases h
  rename_i hlen
  have hsize : 162 ≤ payload.length := Nat.le_of_not_lt hlen
  dsimp only at h
  split at h
  · cases h
  rename_i hne
  split at h
  · cases h
  split at h
  · cases h
    refine ⟨hne, ?_, Or.inr rfl⟩
    rw [List.length_take, pointLen]
    omega
  · cases h
    refine ⟨hne, ?_, Or.inl rfl⟩
    rw [List.length_take, List.length_drop, pointLen]
    omega

theorem processSpakeMsg_inv [DecidableEq Pt] {body mineM mineN mine : Bytes} {state : State Pt}
    {cand : Candidate} (h : processSpakeMsg c body state mineM mineN mine = .ok cand) :
    ∃ shared, selectRole body mineM mineN mine = .ok cand.toRole ∧
      computeShared c state cand.effectivePeerPoint cand.isServer = .ok shared ∧
      deriveSessionKey c shared cand.effectiveMyPoint cand.effectivePeerPoint mine
        cand.peerFingerprint = .ok (cand.confirmKey, cand.encKey) := by
  obtain ⟨role, hrole, h⟩ := bind_eq_ok.mp h
  obtain ⟨shared, hshared, h⟩ := bind_eq_ok.mp h
  obtain ⟨keys, hkeys, h⟩ := bind_eq_ok.mp h
  cases h
  exact ⟨shared, hrole, mapError_eq_ok.mp hshared, mapError_eq_ok.mp hkeys⟩

theorem processSpakeMsg_eq_ok [DecidableEq Pt] {body mineM mineN mine shared : Bytes}
    {state : State Pt} {role : Role} {keys : Bytes × Bytes}
    (hrole : selectRole body mineM mineN mine = .ok role)
    (hshared : computeShared c state role.effectivePeerPoint role.isServer = .ok shared)
    (hkeys : deriveSessionKey c shared role.effectiveMyPoint role.effectivePeerPoint mine
      role.peerFingerprint = .ok keys) :
    processSpakeMsg c body state mineM mineN mine = .ok ⟨role, keys.1, keys.2⟩ := by
  unfold processSpakeMsg
  exact bind_eq_ok.mpr ⟨role, hrole, bind_eq_ok.mpr ⟨shared, mapError_eq_ok.mpr hshared,
    bind_eq_ok.mpr ⟨keys, mapError_eq_ok.mpr hkeys, rfl⟩⟩⟩

theorem processConfirmMsg_inv {hexBody ck ek p q mine peers addr : Bytes}
    (h : processConfirmMsg c gcm hexBody ck ek p q mine peers = .ok addr) :
    ∃ payload data, hexDecode hexBody = some payload ∧ ConfirmPayloadSize ≤ payload.length ∧
      computeConfirm c ck p q (payload.take confirmNonceSize) peers mine =
        .ok ((payload.drop confirmNonceSize).take confirmHMACSize) ∧
      decryptMetadata gcm ek (sessionAAD p q) (encAddrField payload) = .ok data ∧
      addr = trimRightNul data := by
  obtain ⟨payload, hpayload, h⟩ := bind_eq_ok.mp h
  split at h
  · cases h
  rename_i hlen
  dsimp only at h
  split at h
  · cases h
  rename_i hverify
  obtain ⟨data, hdata, h⟩ := bind_eq_ok.mp h
  exact ⟨payload, data, decodeBody_eq_ok.mp hpayload, Nat.le_of_not_lt hlen,
    verifyConfirm_iff.mp (not_not.mp hverify), mapError_eq_ok.mp hdata, (Except.ok.inj h).symm⟩

theorem encryptMetadata_eq_ok {key aad data sealed : Bytes}
    {draw : Option { b : Bytes // b.length = gcmNonceSize }}
    (h : encryptMetadata gcm key aad data draw = .ok sealed) :
    newGCM key = .ok () ∧ ∃ nonce, draw = some nonce ∧
      sealed = nonce.val ++ gcm.sealData key nonce.val data aad := by
  obtain ⟨_, hkey, h⟩ := bind_eq_ok.mp h
  cases draw with
  | none => cases h
  | some nonce => exact ⟨hkey, nonce, rfl, (Except.ok.inj h).symm⟩

theorem decryptMetadata_sealed {key aad data : Bytes} (hkey : newGCM key = .ok ())
    (nonce : { b : Bytes // b.length = gcmNonceSize }) :
    decryptMetadata gcm key aad (nonce.val ++ gcm.sealData key nonce.val data aad) = .ok data := by
  refine bind_eq_ok.mpr ⟨(), hkey, ?_⟩
  rw [if_neg (by rw [List.length_append, nonce.property]; omega), List.take_left' nonce.property,
    List.drop_left' nonce.property, gcm.openData_sealData]

theorem length_padAddr {addr : Bytes} (h : addr.length ≤ MaxMetadataSize) :
    (padAddr addr).length = MaxMetadataSize := by
  rw [padAddr, List.length_append, List.length_replicate]
  omega

theorem trimRightNul_padAddr (addr : Bytes) : trimRightNul (padAddr addr) = trimRightNul addr := by
  have hzeros : ∀ n, ∀ b ∈ List.replicate n (0 : UInt8), decide (b = 0) = true :=
    fun n b hb => decide_eq_true (List.eq_of_mem_replicate hb)
  rw [trimRightNul, padAddr, List.reverse_append, List.reverse_replicate,
    List.dropWhile_append_of_pos (hzeros _), trimRightNul]

theorem trimRightNul_eq_self {addr : Bytes} (h : addr.getLast? ≠ some 0) : trimRightNul addr = addr := by
  have hdrop : addr.reverse.dropWhile (· = 0) = addr.reverse := by
    cases hrev : addr.reverse with
    | nil => rfl
    | cons b s =>
        rw [List.getLast?_eq_head?_reverse, hrev, List.head?_cons] at h
        exact List.dropWhile_cons_of_neg (by simpa using h)
  rw [trimRightNul, hdrop, List.reverse_reverse]

variable (c gcm) in
/-- The fields of a confirm payload: nonce and tag go together, and the address is sealed under the
session key and the two points. -/
structure IsConfirm (ck ek p q mine peers addr cp : Bytes) : Prop where
  length : cp.length = ConfirmPayloadSize
  confirm : computeConfirm c ck p q (cp.take confirmNonceSize) mine peers =
    .ok ((cp.drop confirmNonceSize).take confirmHMACSize)
  encKey : newGCM ek = .ok ()
  encAddr : ∃ gcmNonce : { b : Bytes // b.length = gcmNonceSize }, encAddrField cp =
    gcmNonce.val ++ gcm.sealData ek gcmNonce.val (padAddr addr) (sessionAAD p q)

theorem isConfirm_of_built {ck ek p q mine peers addr cp : Bytes} {draws : ConfirmDraws}
    (h : buildConfirmPayload c gcm ck ek p q mine peers addr draws = .ok cp) :
    IsConfirm c gcm ck ek p q mine peers addr cp := by
  unfold buildConfirmPayload at h
  dsimp only at h
  cases hdraw : draws.nonce with
  | none =>
      rw [hdraw] at h
      cases h
  | some nonce =>
      rw [hdraw] at h
      obtain ⟨tag, htag, h⟩ := bind_eq_ok.mp h
      have htag := mapError_eq_ok.mp htag
      have htagLen : tag.length = confirmHMACSize := by
        rw [(computeConfirm_inv htag).2.2.2, length_hmacSha256]
        rfl
      split at h
      · cases h
      rename_i haddr
      obtain ⟨encAddr, henc, h⟩ := bind_eq_ok.mp h
      obtain ⟨hkey, gcmNonce, _, henc⟩ := encryptMetadata_eq_ok (mapError_eq_ok.mp henc)
      have hencLen : encAddr.length = EncryptedAddrSize := by
        rw [henc, List.length_append, gcm.length_sealData, length_padAddr (Nat.le_of_not_lt haddr),
          gcmNonce.property]
        rfl
      have hlength : (nonce.val ++ tag ++ encAddr).length = ConfirmMinSize := by
        rw [List.length_append, List.length_append, nonce.property, htagLen, hencLen]
        rfl
      rw [if_pos (by rw [hlength]; decide)] at h
      split at h
      · cases h
      rename_i pad _
      have hcp : cp = nonce.val ++ (tag ++ (encAddr ++ pad.val)) := by
        rw [← Except.ok.inj h, List.append_assoc, List.append_assoc]
      subst hcp
      have hrest : (nonce.val ++ (tag ++ (encAddr ++ pad.val))).drop confirmNonceSize =
          tag ++ (encAddr ++ pad.val) := List.drop_left' nonce.property
      refine ⟨?_, ?_, hkey, gcmNonce, ?_⟩
      · rw [← List.append_assoc, ← List.append_assoc, List.length_append, pad.property, hlength]
        rfl
      · rw [hrest, List.take_left' nonce.property, List.take_left' htagLen]
        exact htag
      · rw [encAddrField, ← List.drop_drop, hrest, List.drop_left' htagLen, List.take_left' hencLen]
        exact henc

variable (gcm) in
/-- The confirm message of draws that succeed and an address that fits. -/
theorem buildConfirmPayload_eq_ok {ck ek p q mine peers addr tag : Bytes}
    (nonce : { b : Bytes // b.length = confirmNonceSize })
    (gcmNonce : { b : Bytes // b.length = gcmNonceSize })
    (pad : (n : Nat) → { b : Bytes // b.length = n })
    (htag : computeConfirm c ck p q nonce.val mine peers = .ok tag)
    (haddr : addr.length ≤ MaxMetadataSize) (hkey : newGCM ek = .ok ()) :
    buildConfirmPayload c gcm ck ek p q mine peers addr
        ⟨some nonce, some gcmNonce, fun n => some (pad n)⟩ =
      .ok (nonce.val ++ tag ++
        (gcmNonce.val ++ gcm.sealData ek gcmNonce.val (padAddr addr) (sessionAAD p q)) ++
        (pad confirmRandPad).val) := by
  have htagLen : tag.length = 32 := by
    rw [(computeConfirm_inv htag).2.2.2, length_hmacSha256]
  have henc : encryptMetadata gcm ek (sessionAAD p q) (padAddr addr) (some gcmNonce) =
      .ok (gcmNonce.val ++ gcm.sealData ek gcmNonce.val (padAddr addr) (sessionAAD p q)) := by
    rw [encryptMetadata, hkey]
    rfl
  have hlength : (nonce.val ++ tag ++ (gcmNonce.val ++
      gcm.sealData ek gcmNonce.val (padAddr addr) (sessionAAD p q))).length = ConfirmMinSize := by
    simp only [List.length_append, gcm.length_sealData, length_padAddr haddr, nonce.property,
      gcmNonce.property, htagLen]
    rfl
  unfold buildConfirmPayload
  dsimp only
  refine bind_eq_ok.mpr ⟨tag, mapError_eq_ok.mpr htag, ?_⟩
  rw [if_neg (Nat.not_lt.mpr haddr)]
  refine bind_eq_ok.mpr ⟨_, mapError_eq_ok.mpr henc, ?_⟩
  rw [if_pos (by rw [hlength]; decide), hlength]
  rfl

theorem fields_of_carries {payload cp : Bytes}
    (h : payload.take (confirmNonceSize + confirmHMACSize) =
      cp.take (confirmNonceSize + confirmHMACSize)) :
    payload.take confirmNonceSize = cp.take confirmNonceSize ∧
      (payload.drop confirmNonceSize).take confirmHMACSize =
        (cp.drop confirmNonceSize).take confirmHMACSize := by
  have hnonce := congrArg (List.take confirmNonceSize) h
  have htag := congrArg (List.drop confirmNonceSize) h
  exact ⟨by simpa [List.take_take] using hnonce, by simpa [List.drop_take] using htag⟩

/-- A confirm message whose tag is the expected one and whose address opens. -/
theorem processConfirmMsg_eq_ok {hexBody ck ek p q mine peers payload data : Bytes}
    (hdecode : hexDecode hexBody = some payload) (hlen : ConfirmPayloadSize ≤ payload.length)
    (htag : computeConfirm c ck p q (payload.take confirmNonceSize) peers mine =
      .ok ((payload.drop confirmNonceSize).take confirmHMACSize))
    (hdata : decryptMetadata gcm ek (sessionAAD p q) (encAddrField payload) = .ok data) :
    processConfirmMsg c gcm hexBody ck ek p q mine peers = .ok (trimRightNul data) := by
  unfold processConfirmMsg
  refine bind_eq_ok.mpr ⟨payload, decodeBody_eq_ok.mpr hdecode, ?_⟩
  rw [if_neg (Nat.not_lt.mpr hlen)]
  dsimp only
  rw [if_neg (not_not.mpr (verifyConfirm_iff.mpr htag))]
  exact bind_eq_ok.mpr ⟨data, mapError_eq_ok.mpr hdata, rfl⟩

/-- The front of one confirm message and the sealed address of another, under the same keys and
points: the receiver takes the address of the second. -/
theorem processConfirmMsg_splice {ck ek p q mine peers addr cp : Bytes}
    {p' q' mine' peers' addr' cp' payload : Bytes}
    (hfront : IsConfirm c gcm ck ek p q mine peers addr cp)
    (hsealed : IsConfirm c gcm ck ek p' q' mine' peers' addr' cp')
    (hpoints : sessionAAD p' q' = sessionAAD p q) (hlen : ConfirmPayloadSize ≤ payload.length)
    (hcarries : payload.take (confirmNonceSize + confirmHMACSize) =
      cp.take (confirmNonceSize + confirmHMACSize))
    (henc : encAddrField payload = encAddrField cp') :
    processConfirmMsg c gcm (hexEncode payload) ck ek q p peers mine =
      .ok (trimRightNul (padAddr addr')) := by
  obtain ⟨hnonce, htag⟩ := fields_of_carries hcarries
  obtain ⟨gcmNonce, hfield⟩ := hsealed.encAddr
  refine processConfirmMsg_eq_ok (hexDecode_hexEncode payload) hlen ?_ ?_
  · rw [hnonce, htag, computeConfirm_comm]
    exact hfront.confirm
  · rw [henc, hfield, sessionAAD_comm q p, hpoints]
    exact decryptMetadata_sealed hsealed.encKey gcmNonce

theorem computeConfirm_eq_ok {ck p q nonce sender receiver : Bytes} (hnonce : nonce.length = confirmNonceSize)
    (hsender : sender.length = 32) (hreceiver : receiver.length = 32) (hne : sender ≠ receiver) :
    computeConfirm c ck p q nonce sender receiver =
      .ok (hmacSha256 ck (confirmInput c p q nonce sender receiver)) := by
  rw [computeConfirm, if_neg (by rw [hnonce]; decide), if_neg (by simp [hsender, hreceiver]), if_neg hne]

end

end Qvole.Engine
