import Qvole.Engine.Agreement

/-!
# What an accepted confirmation proves

The relay may hand each peer any payload: points and fingerprint of its own choice. Each peer builds a
candidate from what it got, and the two candidates need have nothing to do with each other. But if one
peer accepts the nonce and the tag the other one made, and the HMAC did not collide on the few inputs
the two have fed it, then the candidates belong together: same secret, same two points, and each has
pinned the fingerprint the other one really has.

The HMAC is only ever assumed to be free of collisions on the listed queries. HKDF is made of it, so
the same assumption covers the session keys; the hash of the salt is not needed at all.
-/

namespace Qvole.Engine

open Lib Spake2

variable {Pt : Type} [AddCommGroup Pt] [DecidableEq Pt]

/-- A peer that has made a candidate from a payload the relay handed to it. It has marshalled its own
points, and marshalling the identity panics. -/
structure View (c : Curve Pt) where
  state : State Pt
  fingerprint : Bytes
  body : Bytes
  cand : Candidate
  points : state.blindedM ≠ 0 ∧ state.blindedN ≠ 0
  processed : processSpakeMsg c body state (state.blindedBytesM c) (state.blindedBytesN c)
    fingerprint = .ok cand

namespace View

variable {c : Curve Pt} (v : View c)

def shared : Bytes :=
  (computeShared c v.state v.cand.effectivePeerPoint v.cand.isServer).toOption.getD []

def salt : Bytes :=
  sessionSalt c v.cand.effectiveMyPoint v.cand.effectivePeerPoint v.fingerprint
    v.cand.peerFingerprint

/-- The HMAC evaluations behind the confirm key and a confirmation of the text `input`. -/
def queries (input : Bytes) : List (Bytes × Bytes) :=
  [(v.salt, v.shared), (hmacSha256 v.salt v.shared, ascii "qvole-spake2-session" ++ [1]),
    (v.cand.confirmKey, input)]

/-- The text under the tag the peer sends, and the text it checks a received tag against. -/
def sendInput (nonce : Bytes) : Bytes :=
  confirmInput c v.cand.effectiveMyPoint v.cand.effectivePeerPoint nonce v.fingerprint
    v.cand.peerFingerprint

def checkInput (nonce : Bytes) : Bytes :=
  confirmInput c v.cand.effectiveMyPoint v.cand.effectivePeerPoint nonce v.cand.peerFingerprint
    v.fingerprint

/-- The confirm message of the candidate. -/
def confirm (gcm : Gcm) (addr : Bytes) (draws : ConfirmDraws) : Except ExchangeError Bytes :=
  buildConfirmPayload c gcm v.cand.confirmKey v.cand.encKey v.cand.effectiveMyPoint
    v.cand.effectivePeerPoint v.fingerprint v.cand.peerFingerprint addr draws

/-- What the peer makes of a confirm message for the candidate. -/
def receive (gcm : Gcm) (hexBody : Bytes) : Except ExchangeError Bytes :=
  processConfirmMsg c gcm hexBody v.cand.confirmKey v.cand.encKey v.cand.effectiveMyPoint
    v.cand.effectivePeerPoint v.fingerprint v.cand.peerFingerprint

/-- What an accepted message has gone through: its tag is the one of its nonce, and its sealed field
opens to the address. -/
theorem receive_inv {v : View c} {gcm : Gcm} {hexBody payload addr : Bytes}
    (hdecode : hexDecode hexBody = some payload) (haccepted : v.receive gcm hexBody = .ok addr) :
    computeConfirm c v.cand.confirmKey v.cand.effectiveMyPoint v.cand.effectivePeerPoint
        (payload.take confirmNonceSize) v.cand.peerFingerprint v.fingerprint =
      .ok ((payload.drop confirmNonceSize).take confirmHMACSize) ∧
    ∃ data, decryptMetadata gcm v.cand.encKey
        (sessionAAD v.cand.effectiveMyPoint v.cand.effectivePeerPoint) (encAddrField payload) =
          .ok data ∧
      addr = trimRightNul data := by
  obtain ⟨payload', data, hdecode', _, hcheck, hdata, haddr⟩ := processConfirmMsg_inv haccepted
  rw [hdecode] at hdecode'
  cases hdecode'
  exact ⟨hcheck, data, hdata, haddr⟩

theorem computeShared_eq :
    computeShared c v.state v.cand.effectivePeerPoint v.cand.isServer = .ok v.shared := by
  obtain ⟨shared, _, hshared, _⟩ := processSpakeMsg_inv v.processed
  rw [View.shared, hshared]
  rfl

theorem confirmKey_eq :
    v.cand.confirmKey =
      hmacSha256 (hmacSha256 v.salt v.shared) (ascii "qvole-spake2-session" ++ [1]) := by
  obtain ⟨shared, _, hshared, hkeys⟩ := processSpakeMsg_inv v.processed
  have heq : shared = v.shared := Except.ok.inj (hshared.symm.trans v.computeShared_eq)
  rw [← heq]
  exact (deriveSessionKey_inv hkeys).2.2.2

theorem fingerprints :
    v.fingerprint.length = 32 ∧ v.cand.peerFingerprint.length = 32 ∧
      v.fingerprint ≠ v.cand.peerFingerprint := by
  obtain ⟨_, _, _, hkeys⟩ := processSpakeMsg_inv v.processed
  obtain ⟨hmine, hpeers, hne, _⟩ := deriveSessionKey_inv hkeys
  exact ⟨hmine, hpeers, hne⟩

theorem length_points :
    v.cand.effectiveMyPoint.length = 65 ∧ v.cand.effectivePeerPoint.length = 65 := by
  obtain ⟨_, hrole, _, _⟩ := processSpakeMsg_inv v.processed
  obtain ⟨_, hpeer, hmine⟩ := selectRole_inv hrole
  refine ⟨?_, hpeer⟩
  rcases hmine with h | h
  · rw [h]
    exact c.length_marshal _ v.points.1
  · rw [h]
    exact c.length_marshal _ v.points.2

end View

/-- No two of the listed HMAC evaluations collide. -/
def CollisionFree (queries : List (Bytes × Bytes)) : Prop :=
  ∀ q ∈ queries, ∀ q' ∈ queries, hmacSha256 q.1 q.2 = hmacSha256 q'.1 q'.2 → q = q'

theorem collisionFree_of_nodup {queries : List (Bytes × Bytes)}
    (h : (queries.map fun q => hmacSha256 q.1 q.2).Nodup) : CollisionFree queries :=
  fun _ hq _ hq' heq => List.inj_on_of_nodup_map h hq hq' heq

variable {c : Curve Pt} {gcm : Gcm}

/-- A message that starts with the nonce and the tag of another one and is accepted: the sender's and
the receiver's HMAC agree. -/
theorem tags_eq_of_accepted {A B : View c} {addrB cp hexBody payload addr : Bytes}
    {draws : ConfirmDraws} (hbuilt : B.confirm gcm addrB draws = .ok cp)
    (hdecode : hexDecode hexBody = some payload)
    (hcarries : payload.take (confirmNonceSize + confirmHMACSize) =
      cp.take (confirmNonceSize + confirmHMACSize))
    (haccepted : A.receive gcm hexBody = .ok addr) :
    hmacSha256 A.cand.confirmKey (A.checkInput (cp.take confirmNonceSize)) =
      hmacSha256 B.cand.confirmKey (B.sendInput (cp.take confirmNonceSize)) := by
  obtain ⟨hcheck, _⟩ := View.receive_inv hdecode haccepted
  obtain ⟨hnonce, htag⟩ := fields_of_carries hcarries
  rw [hnonce, htag] at hcheck
  rw [View.checkInput, View.sendInput, ← (computeConfirm_inv hcheck).2.2.2]
  exact (computeConfirm_inv (isConfirm_of_built hbuilt).confirm).2.2.2

/-- The candidates of the two peers belong together. -/
theorem confirm_binds {A B : View c} {nonce : Bytes}
    (hfree : CollisionFree (A.queries (A.checkInput nonce) ++ B.queries (B.sendInput nonce)))
    (htags : hmacSha256 A.cand.confirmKey (A.checkInput nonce) =
      hmacSha256 B.cand.confirmKey (B.sendInput nonce)) :
    A.shared = B.shared ∧
      s(A.cand.effectiveMyPoint, A.cand.effectivePeerPoint) =
        s(B.cand.effectiveMyPoint, B.cand.effectivePeerPoint) ∧
      A.cand.peerFingerprint = B.fingerprint ∧ B.cand.peerFingerprint = A.fingerprint := by
  have hconfirm := hfree (A.cand.confirmKey, A.checkInput nonce) (by simp [View.queries])
    (B.cand.confirmKey, B.sendInput nonce) (by simp [View.queries]) htags
  obtain ⟨hkey, hinput⟩ := Prod.mk.inj hconfirm
  obtain ⟨hfpA, hpeersA, _⟩ := A.fingerprints
  obtain ⟨hfpB, hpeersB, _⟩ := B.fingerprints
  obtain ⟨hpoints, hsender, hreceiver, _⟩ := confirmInput_inj A.length_points.1 A.length_points.2
    B.length_points.1 B.length_points.2 hpeersA hfpB hfpA hpeersB hinput
  -- back through the key derivation: first its second step, then the extraction
  rw [A.confirmKey_eq, B.confirmKey_eq] at hkey
  have hexpand := hfree (hmacSha256 A.salt A.shared, ascii "qvole-spake2-session" ++ [1])
    (by simp [View.queries]) (hmacSha256 B.salt B.shared, ascii "qvole-spake2-session" ++ [1])
    (by simp [View.queries]) hkey
  have hextract := hfree (A.salt, A.shared) (by simp [View.queries]) (B.salt, B.shared)
    (by simp [View.queries]) (Prod.mk.inj hexpand).1
  exact ⟨(Prod.mk.inj hextract).2, hpoints, hsender, hreceiver.symm⟩

/-- A peer cannot be made to accept what it sent itself, for whichever candidates: the two directions
would have to name the same fingerprints. -/
theorem reflection_rejected {A A' : View c} (hself : A'.fingerprint = A.fingerprint) {nonce : Bytes}
    (hfree : CollisionFree
      (A.queries (A.checkInput nonce) ++ A'.queries (A'.sendInput nonce))) :
    hmacSha256 A.cand.confirmKey (A.checkInput nonce) ≠
      hmacSha256 A'.cand.confirmKey (A'.sendInput nonce) := by
  intro htags
  obtain ⟨_, _, hpinned, _⟩ := confirm_binds hfree htags
  exact A.fingerprints.2.2 (hpinned.trans hself).symm

/-- For any payloads the relay hands to two peers: if `A` accepts a message that carries the nonce and
the tag of a confirm message of `B`, both have computed the same secret from the same two points and
each has pinned the other's fingerprint; and `A` accepts no nonce and tag of its own. -/
theorem confirmation_binds_fingerprints (c : Curve Pt) (gcm : Gcm) (A : View c) :
    (∀ (B : View c) (addrB cp hexBody payload addr : Bytes) (draws : ConfirmDraws),
      B.confirm gcm addrB draws = .ok cp → hexDecode hexBody = some payload →
      payload.take (confirmNonceSize + confirmHMACSize) =
        cp.take (confirmNonceSize + confirmHMACSize) →
      A.receive gcm hexBody = .ok addr →
      CollisionFree (A.queries (A.checkInput (cp.take confirmNonceSize)) ++
        B.queries (B.sendInput (cp.take confirmNonceSize))) →
      (∃ shared, computeShared c A.state A.cand.effectivePeerPoint A.cand.isServer = .ok shared ∧
        computeShared c B.state B.cand.effectivePeerPoint B.cand.isServer = .ok shared) ∧
      s(A.cand.effectiveMyPoint, A.cand.effectivePeerPoint) =
        s(B.cand.effectiveMyPoint, B.cand.effectivePeerPoint) ∧
      A.cand.peerFingerprint = B.fingerprint ∧ B.cand.peerFingerprint = A.fingerprint) ∧
    ∀ (A' : View c) (addrA cp hexBody payload addr : Bytes) (draws : ConfirmDraws),
      A'.fingerprint = A.fingerprint → A'.confirm gcm addrA draws = .ok cp →
      hexDecode hexBody = some payload →
      payload.take (confirmNonceSize + confirmHMACSize) =
        cp.take (confirmNonceSize + confirmHMACSize) →
      CollisionFree (A.queries (A.checkInput (cp.take confirmNonceSize)) ++
        A'.queries (A'.sendInput (cp.take confirmNonceSize))) →
      A.receive gcm hexBody ≠ .ok addr := by
  refine ⟨?_, ?_⟩
  · intro B addrB cp hexBody payload addr draws hbuilt hdecode hcarries haccepted hfree
    obtain ⟨hshared, hrest⟩ :=
      confirm_binds hfree (tags_eq_of_accepted hbuilt hdecode hcarries haccepted)
    refine ⟨⟨A.shared, A.computeShared_eq, ?_⟩, hrest⟩
    rw [hshared]
    exact B.computeShared_eq
  · intro A' addrA cp hexBody payload addr draws hself hbuilt hdecode hcarries hfree haccepted
    exact reflection_rejected hself hfree
      (tags_eq_of_accepted hbuilt hdecode hcarries haccepted)

/-! ### An exchange on the small curve -/

def hexBytes (s : String) : Bytes := (hexDecode (ascii s)).getD []

def smallPrk : Bytes := hexBytes "89ab5cd40bcc1d792cb8fb6020efad220d0b79cc835070bbdae9dfbd135a902f"

def smallConfirmKey : Bytes :=
  hexBytes "fb50fdc761ddee3cc1ac5e99f1a3d759caea2c50e4df70c4dc42a9f5aff159c3"

def smallEncKey : Bytes :=
  hexBytes "31c69513834fef57a2f50f2564a4058f167edcdc480479517441cc147b61f0f4"

-- The key derivation is evaluated one HMAC at a time, each from the value of the one before.
theorem small_prk : hmacSha256 (sessionSalt smallCurve (smallA.blindedBytesM smallCurve)
    (smallB.blindedBytesN smallCurve) fingerprintA fingerprintB) (beBytes 32 8) = smallPrk := by
  decide +kernel

theorem small_confirmKey :
    hmacSha256 smallPrk (ascii "qvole-spake2-session" ++ [1]) = smallConfirmKey := by
  decide +kernel

theorem small_keys : deriveSessionKey smallCurve (beBytes 32 8) (smallA.blindedBytesM smallCurve)
    (smallB.blindedBytesN smallCurve) fingerprintA fingerprintB =
      .ok (smallConfirmKey, smallEncKey) := by
  have henc : hmacSha256 smallPrk (smallConfirmKey ++ ascii "qvole-spake2-session" ++ [2]) =
      smallEncKey := by decide +kernel
  rw [deriveSessionKey_eq_ok (by decide) (by decide) (by decide) small_prk, small_confirmKey, henc]

def smallRoleA : Role :=
  ⟨smallA.blindedBytesM smallCurve, smallB.blindedBytesN smallCurve, fingerprintB, false⟩

def smallRoleB : Role :=
  ⟨smallB.blindedBytesN smallCurve, smallA.blindedBytesM smallCurve, fingerprintA, true⟩

theorem small_selectA : selectRole (spake2Body smallCurve smallB fingerprintB)
    (smallA.blindedBytesM smallCurve) (smallA.blindedBytesN smallCurve) fingerprintA =
      .ok smallRoleA := by
  decide +kernel

theorem small_selectB : selectRole (spake2Body smallCurve smallA fingerprintA)
    (smallB.blindedBytesM smallCurve) (smallB.blindedBytesN smallCurve) fingerprintB =
      .ok smallRoleB := by
  decide +kernel

def viewA : View smallCurve where
  state := smallA
  fingerprint := fingerprintA
  body := spake2Body smallCurve smallB fingerprintB
  cand := ⟨smallRoleA, smallConfirmKey, smallEncKey⟩
  points := by decide +kernel
  processed := processSpakeMsg_eq_ok small_selectA (by decide +kernel) small_keys

def viewB : View smallCurve where
  state := smallB
  fingerprint := fingerprintB
  body := spake2Body smallCurve smallA fingerprintA
  cand := ⟨smallRoleB, smallConfirmKey, smallEncKey⟩
  points := by decide +kernel
  processed := processSpakeMsg_eq_ok small_selectB (by decide +kernel)
    ((deriveSessionKey_comm _ _ _ _ _).trans small_keys)

def smallAAD : Bytes := sessionAAD (smallA.blindedBytesM smallCurve) (smallB.blindedBytesN smallCurve)

/-- What AES-256-GCM computes for two messages of the exchange: key stream, masked data, tag. -/
def smallSealings : List (Bytes × Bytes × Bytes × Bytes) := [
  (List.replicate 12 0x21,
    hexBytes "f7595f530604ca7bd50655e83200002cabecb74f656e38039af6e0ddbb177b5d5949a3cad245b938973199f3f8e02547c705599e",
    hexBytes "c6606d7d362af855e43c61d80230002cabecb74f656e38039af6e0ddbb177b5d5949a3cad245b938973199f3f8e02547c705599e",
    hexBytes "a70b0fab3f1ed84a3ec7befc1cd77c5b"),
  (List.replicate 12 0x22,
    hexBytes "915c25c33a2f0b5c95304ad619b3356900639e55b01476e871ae775ee1807e2bf238d43b30f339b69916ac9aa49daed356a18c1f",
    hexBytes "a0651ded0f1e256da50064e42386055930639e55b01476e871ae775ee1807e2bf238d43b30f339b69916ac9aa49daed356a18c1f",
    hexBytes "f65812e7f996c5e6c33728645360b3a5")]

def smallGcm : Gcm where
  keystream key nonce n :=
    let known := smallSealings.find? fun s => key = smallEncKey ∧ s.1 = nonce
    (known.elim [] (·.2.1) ++ List.replicate n 0).take n
  tag key nonce data aad :=
    let known := smallSealings.find? fun s =>
      key = smallEncKey ∧ s.1 = nonce ∧ s.2.2.1 = data ∧ aad = smallAAD
    (known.elim [] (·.2.2.2) ++ List.replicate 16 0).take 16
  length_keystream _ _ _ := by simp
  length_tag _ _ _ _ := by simp

def nonceOf (n : UInt8) : { b : Bytes // b.length = confirmNonceSize } :=
  ⟨List.replicate 16 (0x10 + n), rfl⟩

def gcmNonceOf (n : UInt8) : { b : Bytes // b.length = gcmNonceSize } :=
  ⟨List.replicate 12 (0x20 + n), rfl⟩

def padOf (n : UInt8) (k : Nat) : { b : Bytes // b.length = k } :=
  ⟨List.replicate k (0x30 + n), List.length_replicate⟩

def drawsOf (n : UInt8) : ConfirmDraws :=
  ⟨some (nonceOf n), some (gcmNonceOf n), fun k => some (padOf n k)⟩

/-- A confirm message with these draws. -/
def confirmOf (n : UInt8) (tag addr : Bytes) : Bytes :=
  (nonceOf n).val ++ tag ++ ((gcmNonceOf n).val ++
    smallGcm.sealData smallEncKey (gcmNonceOf n).val (padAddr addr) smallAAD) ++ (padOf n 32).val

def addrB : Bytes := ascii "198.51.100.2:5000"

def tagB : Bytes := hexBytes "302bbed9cd1c228384a4a45740a68e2e43e19f2394bc157626ca635d86d0c595"

theorem small_tagB : computeConfirm smallCurve smallConfirmKey smallRoleB.effectiveMyPoint
    smallRoleB.effectivePeerPoint (nonceOf 2).val fingerprintB fingerprintA = .ok tagB := by
  decide +kernel

theorem small_confirmB : viewB.confirm smallGcm addrB (drawsOf 2) = .ok (confirmOf 2 tagB addrB) := by
  have hbuilt := buildConfirmPayload_eq_ok smallGcm (nonceOf 2) (gcmNonceOf 2) (padOf 2) small_tagB
    (show addrB.length ≤ MaxMetadataSize by decide) (show newGCM smallEncKey = .ok () by decide +kernel)
  rw [show sessionAAD smallRoleB.effectiveMyPoint smallRoleB.effectivePeerPoint = smallAAD from
    sessionAAD_comm _ _] at hbuilt
  exact hbuilt

theorem small_receiveB : viewA.receive smallGcm (hexEncode (confirmOf 2 tagB addrB)) = .ok addrB := by
  have hconfirm := isConfirm_of_built small_confirmB
  refine (processConfirmMsg_splice hconfirm hconfirm rfl hconfirm.length.ge rfl rfl).trans ?_
  exact congrArg Except.ok (by decide +kernel)

theorem small_extract : hmacSha256 viewA.salt viewA.shared = smallPrk := by
  have hshared : viewA.shared = beBytes 32 8 := by decide +kernel
  rw [hshared]
  exact small_prk

theorem small_queries : viewB.queries (viewB.sendInput (nonceOf 2).val) =
    viewA.queries (viewA.checkInput (nonceOf 2).val) := by
  have hsalt : viewB.salt = viewA.salt := sessionSalt_comm ..
  have hshared : viewB.shared = viewA.shared := by decide +kernel
  have hinput : viewB.sendInput (nonceOf 2).val = viewA.checkInput (nonceOf 2).val :=
    confirmInput_comm ..
  rw [View.queries, View.queries, hsalt, hshared, hinput]
  rfl

theorem small_collisionFree : CollisionFree (viewA.queries (viewA.checkInput (nonceOf 2).val) ++
    viewB.queries (viewB.sendInput (nonceOf 2).val)) := by
  have htag : hmacSha256 smallConfirmKey (viewA.checkInput (nonceOf 2).val) = tagB := by
    have hconfirm := (computeConfirm_comm _ _ _ _ _ _).trans small_tagB
    exact ((computeConfirm_inv hconfirm).2.2.2).symm
  have houtputs : (viewA.queries (viewA.checkInput (nonceOf 2).val)).map
      (fun q => hmacSha256 q.1 q.2) = [smallPrk, smallConfirmKey, tagB] := by
    rw [View.queries, small_extract]
    simp only [List.map_cons, List.map_nil, small_extract, small_confirmKey]
    rw [← htag]
    rfl
  have hfree := collisionFree_of_nodup (houtputs ▸ (by decide +kernel :
    [smallPrk, smallConfirmKey, tagB].Nodup))
  rw [small_queries]
  intro q hq q' hq'
  rw [List.mem_append, or_self] at hq hq'
  exact hfree q hq q' hq'

theorem small_confirmation_binds :
    (∃ shared, computeShared smallCurve smallA smallRoleA.effectivePeerPoint false = .ok shared ∧
      computeShared smallCurve smallB smallRoleB.effectivePeerPoint true = .ok shared) ∧
    s(smallRoleA.effectiveMyPoint, smallRoleA.effectivePeerPoint) =
      s(smallRoleB.effectiveMyPoint, smallRoleB.effectivePeerPoint) ∧
    smallRoleA.peerFingerprint = fingerprintB ∧ smallRoleB.peerFingerprint = fingerprintA := by
  have hnonce : (confirmOf 2 tagB addrB).take confirmNonceSize = (nonceOf 2).val := rfl
  exact (confirmation_binds_fingerprints smallCurve smallGcm viewA).1 viewB addrB
    (confirmOf 2 tagB addrB) (hexEncode (confirmOf 2 tagB addrB)) (confirmOf 2 tagB addrB) addrB
    (drawsOf 2) small_confirmB (hexDecode_hexEncode _) rfl small_receiveB
    (hnonce ▸ small_collisionFree)

end Qvole.Engine
