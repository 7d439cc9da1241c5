import Mathlib.Algebra.Group.Basic
import Mathlib.Data.Nat.Prime.Defs
import Mathlib.Data.Sym.Sym2
import Mathlib.Data.ZMod.Basic
import Qvole.Lib.Gcm
import Qvole.Lib.Hash

/-!
# The SPAKE2 package

Each peer blinds two ephemeral points, one with the generator `M` and one with `N`, and unblinds the
one of the other side that its role selects. The shared point gives the secret, and secret, points and
certificate fingerprints give the two session keys.

The curve is an abelian group of prime order with a marshalling of its points; that the coordinates of
P-256 form one is taken from the package `elliptic`, in which the identity is `(0, 0)` and the negative
of a point has the negated `y`. A point that was unmarshalled is on the curve, so the second check of
`ComputeShared` is none. Hashing is SHA-256 itself. AES-GCM is counter mode with a tag.
-/

namespace Qvole.Spake2

open Lib

structure Curve (Pt : Type) [AddCommGroup Pt] where
  order : Nat
  order_prime : order.Prime
  order_nsmul : ∀ P : Pt, order • P = 0
  G : Pt
  M : Pt
  N : Pt
  generates : ∀ P : Pt, ∃ k : Nat, P = k • G
  M_ne_zero : M ≠ 0
  N_ne_zero : N ≠ 0
  x : Pt → Nat
  x_zero : x 0 = 0
  x_lt : ∀ P, x P < 256 ^ 32
  marshal : Pt → Bytes
  unmarshal : Bytes → Option Pt
  length_marshal : ∀ P, P ≠ 0 → (marshal P).length = 65
  unmarshal_marshal : ∀ P, P ≠ 0 → unmarshal (marshal P) = some P

inductive Error
  | invalidPoint
  | unblindedIdentity
  | zeroShared
  | fingerprintLength
  | reflectedFingerprint
  | emptyNonce
  | keySize
  | randFailed
  | ciphertextTooShort
  | openFailed
  deriving DecidableEq

/-! ### The shared secret -/

/-- Left padding to 32 bytes. -/
def pad32 (b : Bytes) : Bytes := if b.length < 32 then List.replicate (32 - b.length) 0 ++ b else b

def scalarBytes32 (s : Nat) : Bytes := pad32 (bigBytes s)

structure State (Pt : Type) where
  pwScalar : Nat
  scalarM : Nat
  scalarN : Nat
  blindedM : Pt
  blindedN : Pt

section

variable {Pt : Type} [AddCommGroup Pt] (c : Curve Pt)

/-- `ScalarMult` reads its scalar as a big-endian number. -/
def scalarMult (P : Pt) (k : Bytes) : Pt := beNat k • P

/-- The state two draws of 32 random bytes lead to. -/
def blind (pwScalar : Nat) (privM privN : Bytes) : State Pt where
  pwScalar := pwScalar
  scalarM := beNat privM % c.order
  scalarN := beNat privN % c.order
  blindedM := scalarMult c.G privM + scalarMult c.M (scalarBytes32 pwScalar)
  blindedN := scalarMult c.G privN + scalarMult c.N (scalarBytes32 pwScalar)

/-- What `PasswordToScalar` returns. -/
abbrev PwScalar := { w : Nat // 0 < w ∧ w < c.order }

/-- `NewState` on a password that was mapped to a scalar; a draw is `none` when `rand.Read` fails. -/
def newState (pwScalar : PwScalar c) (privM privN : Option { b : Bytes // b.length = 32 }) :
    Except Error (State Pt) :=
  match privM, privN with
  | some privM, some privN => .ok (blind c pwScalar.val privM.val privN.val)
  | _, _ => .error .randFailed

def State.blindedBytesM (st : State Pt) : Bytes := c.marshal st.blindedM

def State.blindedBytesN (st : State Pt) : Bytes := c.marshal st.blindedN

def computeShared [DecidableEq Pt] (st : State Pt) (peerBlindedBytes : Bytes) (peerUsedM : Bool) :
    Except Error Bytes :=
  match c.unmarshal peerBlindedBytes with
  | none => .error .invalidPoint
  | some peerBlinded =>
    let pw := scalarMult (if peerUsedM then c.M else c.N) (scalarBytes32 st.pwScalar)
    let unblinded := peerBlinded + -pw
    if unblinded = 0 then .error .unblindedIdentity
    else
      let myScalar := if peerUsedM then st.scalarN else st.scalarM
      let sharedX := c.x (scalarMult unblinded (scalarBytes32 myScalar))
      if sharedX = 0 then .error .zeroShared else .ok (pad32 (bigBytes sharedX))

/-! ### The session keys -/

/-- Two byte strings in lexicographic order. -/
def sortPair (a b : Bytes) : Bytes × Bytes := if b < a then (b, a) else (a, b)

def sessionAAD (myPoint peerPoint : Bytes) : Bytes :=
  (sortPair myPoint peerPoint).1 ++ (sortPair myPoint peerPoint).2

def aadWithGenerators (myPoint peerPoint : Bytes) : Bytes :=
  sessionAAD myPoint peerPoint ++ c.marshal c.N

def sessionSalt (myPoint peerPoint myFingerprint peerFingerprint : Bytes) : Bytes :=
  let fps := sortPair myFingerprint peerFingerprint
  sha256 (aadWithGenerators c myPoint peerPoint ++ ascii "qvole-spake2-fingerprints" ++ fps.1 ++ fps.2)

def deriveSessionKey (sharedSecret myPoint peerPoint myFingerprint peerFingerprint : Bytes) :
    Except Error (Bytes × Bytes) :=
  if myFingerprint.length ≠ 32 ∨ peerFingerprint.length ≠ 32 then .error .fingerprintLength
  else if myFingerprint = peerFingerprint then .error .reflectedFingerprint
  else
    let salt := sessionSalt c myPoint peerPoint myFingerprint peerFingerprint
    let key := hkdf sharedSecret salt (ascii "qvole-spake2-session") 64
    .ok (key.take 32, key.drop 32)

/-! ### The confirmation -/

/-- What the confirmation authenticates, in the order it is written into the HMAC. -/
def confirmInput (myPoint peerPoint nonce senderFingerprint receiverFingerprint : Bytes) : Bytes :=
  aadWithGenerators c myPoint peerPoint ++ ascii "qvole-spake2-confirm-sender" ++
    senderFingerprint ++ ascii "qvole-spake2-confirm-receiver" ++ receiverFingerprint ++ nonce ++
    ascii "qvole-spake2-confirm"

def computeConfirm (sessionKey myPoint peerPoint nonce senderFingerprint receiverFingerprint : Bytes) :
    Except Error Bytes :=
  if nonce.length < 1 then .error .emptyNonce
  else if senderFingerprint.length ≠ 32 ∨ receiverFingerprint.length ≠ 32 then
    .error .fingerprintLength
  else if senderFingerprint = receiverFingerprint then .error .reflectedFingerprint
  else
    .ok (hmacSha256 sessionKey
      (confirmInput c myPoint peerPoint nonce senderFingerprint receiverFingerprint))

/-- The peer's confirmation goes the other way: the peer is the sender. -/
def verifyConfirm (sessionKey myPoint peerPoint nonce myFingerprint peerFingerprint
    peerConfirm : Bytes) : Bool :=
  match computeConfirm c sessionKey myPoint peerPoint nonce peerFingerprint myFingerprint with
  | .ok expected => expected = peerConfirm
  | .error _ => false

end

/-! ### The encrypted address -/

/-- `aes.NewCipher` takes keys of three sizes. -/
def newGCM (key : Bytes) : Except Error Unit :=
  if key.length = 16 ∨ key.length = 24 ∨ key.length = 32 then .ok () else .error .keySize

def gcmNonceSize : Nat := 12

def encryptMetadata (gcm : Gcm) (key aad data : Bytes)
    (draw : Option { b : Bytes // b.length = gcmNonceSize }) : Except Error Bytes := do
  newGCM key
  match draw with
  | none => .error .randFailed
  | some nonce => .ok (nonce.val ++ gcm.sealData key nonce.val data aad)

def decryptMetadata (gcm : Gcm) (key aad ciphertext : Bytes) : Except Error Bytes := do
  newGCM key
  if ciphertext.length < gcmNonceSize then .error .ciphertextTooShort
  else
    match gcm.openData key (ciphertext.take gcmNonceSize) (ciphertext.drop gcmNonceSize) aad with
    | some data => .ok data
    | none => .error .openFailed

/-! ### What the functions do, for their callers -/

theorem sortPair_comm (a b : Bytes) : sortPair a b = sortPair b a := by
  unfold sortPair
  split
  · rename_i hlt
    rw [if_neg (List.lt_asymm hlt)]
  · rename_i hnot
    split
    · rfl
    · rename_i hnot'
      rw [List.le_antisymm hnot hnot']

theorem sortPair_eq (a b : Bytes) : sortPair a b = (a, b) ∨ sortPair a b = (b, a) := by
  unfold sortPair
  split
  · exact Or.inr rfl
  · exact Or.inl rfl

theorem sessionAAD_comm (a b : Bytes) : sessionAAD a b = sessionAAD b a := by
  rw [sessionAAD, sessionAAD, sortPair_comm]

/-- Points of one length can be read off their sorted concatenation, up to the order. -/
theorem sessionAAD_inj {a b a' b' : Bytes} {n : Nat} (ha : a.length = n) (hb : b.length = n)
    (ha' : a'.length = n) (hb' : b'.length = n) (h : sessionAAD a b = sessionAAD a' b') :
    s(a, b) = s(a', b') := by
  unfold sessionAAD at h
  rcases sortPair_eq a b with heq | heq <;> rcases sortPair_eq a' b' with heq' | heq' <;>
    rw [heq, heq'] at h
  · obtain ⟨rfl, rfl⟩ := List.append_inj h (ha.trans ha'.symm)
    rfl
  · obtain ⟨rfl, rfl⟩ := List.append_inj h (ha.trans hb'.symm)
    exact Sym2.eq_swap
  · obtain ⟨rfl, rfl⟩ := List.append_inj h (hb.trans ha'.symm)
    exact Sym2.eq_swap
  · obtain ⟨rfl, rfl⟩ := List.append_inj h (hb.trans hb'.symm)
    rfl

theorem length_sessionAAD (a b : Bytes) : (sessionAAD a b).length = a.length + b.length := by
  unfold sessionAAD
  rcases sortPair_eq a b with heq | heq
  · rw [heq, List.length_append]
  · rw [heq, List.length_append, Nat.add_comm]

section

variable {Pt : Type} [AddCommGroup Pt] {c : Curve Pt}

theorem computeConfirm_inv {key p q nonce sender receiver tag : Bytes}
    (h : computeConfirm c key p q nonce sender receiver = .ok tag) :
    sender.length = 32 ∧ receiver.length = 32 ∧ sender ≠ receiver ∧
      tag = hmacSha256 key (confirmInput c p q nonce sender receiver) := by
  unfold computeConfirm at h
  split at h
  · cases h
  split at h
  · cases h
  rename_i hlengths
  split at h
  · cases h
  rename_i hne
  rw [not_or, not_not, not_not] at hlengths
  exact ⟨hlengths.1, hlengths.2, hne, (Except.ok.inj h).symm⟩

theorem verifyConfirm_iff {key p q nonce mine peers tag : Bytes} :
    verifyConfirm c key p q nonce mine peers tag = true ↔
      computeConfirm c key p q nonce peers mine = .ok tag := by
  unfold verifyConfirm
  cases computeConfirm c key p q nonce peers mine with
  | error e => simp
  | ok expected => simp

theorem deriveSessionKey_eq_ok {shared p q mine peers prk : Bytes} (hmine : mine.length = 32)
    (hpeers : peers.length = 32) (hne : mine ≠ peers)
    (hprk : hmacSha256 (sessionSalt c p q mine peers) shared = prk) :
    deriveSessionKey c shared p q mine peers =
      .ok (hmacSha256 prk (ascii "qvole-spake2-session" ++ [1]),
        hmacSha256 prk (hmacSha256 prk (ascii "qvole-spake2-session" ++ [1]) ++
          ascii "qvole-spake2-session" ++ [2])) := by
  rw [deriveSessionKey, if_neg (by simp [hmine, hpeers]), if_neg hne]
  dsimp only
  rw [hkdf_sixtyFour, hprk, List.take_left' (length_hmacSha256 _ _),
    List.drop_left' (length_hmacSha256 _ _)]

theorem deriveSessionKey_inv {shared p q mine peers : Bytes} {keys : Bytes × Bytes}
    (h : deriveSessionKey c shared p q mine peers = .ok keys) :
    mine.length = 32 ∧ peers.length = 32 ∧ mine ≠ peers ∧
      keys.1 = hmacSha256 (hmacSha256 (sessionSalt c p q mine peers) shared)
        (ascii "qvole-spake2-session" ++ [1]) := by
  unfold deriveSessionKey at h
  split at h
  · cases h
  rename_i hlengths
  split at h
  · cases h
  rename_i hne
  rw [not_or, not_not, not_not] at hlengths
  refine ⟨hlengths.1, hlengths.2, hne, ?_⟩
  rw [← Except.ok.inj h, hkdf_sixtyFour]
  exact List.take_left' (length_hmacSha256 _ _)

theorem sessionSalt_comm (p q mine peers : Bytes) :
    sessionSalt c p q mine peers = sessionSalt c q p peers mine := by
  rw [sessionSalt, sessionSalt, aadWithGenerators, aadWithGenerators, sessionAAD_comm, sortPair_comm]

theorem deriveSessionKey_comm (shared p q mine peers : Bytes) :
    deriveSessionKey c shared p q mine peers = deriveSessionKey c shared q p peers mine := by
  unfold deriveSessionKey
  rw [sessionSalt_comm]
  simp only [or_comm, eq_comm]

theorem confirmInput_comm (p q nonce sender receiver : Bytes) :
    confirmInput c p q nonce sender receiver = confirmInput c q p nonce sender receiver := by
  rw [confirmInput, confirmInput, aadWithGenerators, aadWithGenerators, sessionAAD_comm]

theorem computeConfirm_comm (key p q nonce sender receiver : Bytes) :
    computeConfirm c key p q nonce sender receiver = computeConfirm c key q p nonce sender receiver := by
  rw [computeConfirm, computeConfirm, confirmInput_comm]

/-- The fields of the authenticated text can be told apart: all but the nonce have fixed lengths. -/
theorem confirmInput_inj {p q p' q' nonce nonce' sender sender' receiver receiver' : Bytes}
    (hp : p.length = 65) (hq : q.length = 65) (hp' : p'.length = 65) (hq' : q'.length = 65)
    (hsender : sender.length = 32) (hsender' : sender'.length = 32)
    (hreceiver : receiver.length = 32) (hreceiver' : receiver'.length = 32)
    (h : confirmInput c p q nonce sender receiver = confirmInput c p' q' nonce' sender' receiver') :
    s(p, q) = s(p', q') ∧ sender = sender' ∧ receiver = receiver' ∧ nonce = nonce' := by
  unfold confirmInput aadWithGenerators at h
  have hfields := List.append_cancel_right h
  simp only [List.append_assoc] at hfields
  have haad : (sessionAAD p q).length = (sessionAAD p' q').length := by
    rw [length_sessionAAD, length_sessionAAD, hp, hq, hp', hq']
  obtain ⟨hpoints, hrest⟩ := List.append_inj hfields haad
  have hfrom := List.append_cancel_left (List.append_cancel_left hrest)
  obtain ⟨heq, hto⟩ := List.append_inj hfrom (hsender.trans hsender'.symm)
  obtain ⟨heq', hnonce⟩ :=
    List.append_inj (List.append_cancel_left hto) (hreceiver.trans hreceiver'.symm)
  exact ⟨sessionAAD_inj hp hq hp' hq' hpoints, heq, heq', hnonce⟩

end

theorem beNat_scalarBytes32 (s : Nat) : beNat (scalarBytes32 s) = s := by
  unfold scalarBytes32 pad32
  split
  · rw [beNat_zeros_append, beNat_bigBytes]
  · exact beNat_bigBytes s

theorem length_pad32 {b : Bytes} (h : b.length ≤ 32) : (pad32 b).length = 32 := by
  unfold pad32
  split
  · rw [List.length_append, List.length_replicate]
    omega
  · omega

end Qvole.Spake2
