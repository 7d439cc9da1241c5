import Qvole.Engine.Exchange

/-!
# Two honest peers agree

Both peers know the password scalar, and each gets the other's payload as it was sent. The comparison
of the `M`-points makes one of them the server. The server unblinds the client's `M`-point and
multiplies with its own `N`-scalar, the client unblinds the server's `N`-point and multiplies with its
own `M`-scalar: both arrive at the product of the two scalars times the generator, or fail.
-/

namespace Qvole.Engine

open Lib Spake2

variable {Pt : Type} [AddCommGroup Pt] [DecidableEq Pt] {c : Curve Pt}

/-- The payload of a `spake2` message, as it stands in the line. -/
def spake2Body (c : Curve Pt) (state : State Pt) (fingerprint : Bytes) : Bytes :=
  hexEncode (state.blindedBytesM c ++ state.blindedBytesN c ++ fingerprint)

/-- What two peers have in common once each has the payload of the other. -/
structure Agreement (c : Curve Pt) (stA stB : State Pt) (fpA fpB : Bytes) (roleA roleB : Role) :
    Prop where
  selectA : selectRole (spake2Body c stB fpB) (stA.blindedBytesM c) (stA.blindedBytesN c) fpA =
    .ok roleA
  selectB : selectRole (spake2Body c stA fpA) (stB.blindedBytesM c) (stB.blindedBytesN c) fpB =
    .ok roleB
  oneServer : roleA.isServer = !roleB.isServer
  pointA : roleA.effectiveMyPoint = roleB.effectivePeerPoint
  pointB : roleB.effectiveMyPoint = roleA.effectivePeerPoint
  failure : (∃ e, computeShared c stA roleA.effectivePeerPoint roleA.isServer = .error e) ↔
    ∃ e, computeShared c stB roleB.effectivePeerPoint roleB.isServer = .error e
  success : ∀ shared, computeShared c stA roleA.effectivePeerPoint roleA.isServer = .ok shared →
    computeShared c stB roleB.effectivePeerPoint roleB.isServer = .ok shared ∧ shared.length = 32 ∧
      ∃ confirmKey encKey,
        processSpakeMsg c (spake2Body c stB fpB) stA (stA.blindedBytesM c) (stA.blindedBytesN c) fpA =
          .ok ⟨roleA, confirmKey, encKey⟩ ∧
        processSpakeMsg c (spake2Body c stA fpA) stB (stB.blindedBytesM c) (stB.blindedBytesN c) fpB =
          .ok ⟨roleB, confirmKey, encKey⟩

/-! ### Roles -/

theorem selectRole_honest {mineM mine peerM peerN peers : Bytes} (mineN : Bytes) (hM : peerM.length = 65)
    (hN : peerN.length = 65) (hfp : peers.length = 32) (hne : mine ≠ peers)
    (hpoint : mineM ≠ peerM) :
    selectRole (hexEncode (peerM ++ peerN ++ peers)) mineM mineN mine =
      if peerM < mineM then .ok ⟨mineN, peerM, peers, true⟩ else .ok ⟨mineM, peerN, peers, false⟩ := by
  have hpayload : (peerM ++ peerN ++ peers).length = 162 := by
    rw [List.length_append, List.length_append, hM, hN, hfp]
  have hfieldM : (peerM ++ peerN ++ peers).take pointLen = peerM := by
    rw [List.append_assoc]
    exact List.take_left' hM
  have hfieldN : ((peerM ++ peerN ++ peers).drop pointLen).take pointLen = peerN := by
    rw [List.append_assoc, List.drop_left' (show peerM.length = pointLen from hM)]
    exact List.take_left' hN
  have hfieldFp : ((peerM ++ peerN ++ peers).drop (pointLen * 2)).take fingerprintSize = peers := by
    rw [List.drop_left' (by rw [List.length_append, hM, hN]; rfl)]
    exact List.take_of_length_le hfp.le
  unfold selectRole decodeBody
  rw [hexDecode_hexEncode]
  change (if _ then _ else _) = _
  rw [if_neg (by rw [hpayload]; decide), hfieldM, hfieldN, hfieldFp, if_neg hne, if_neg hpoint]

/-! ### The shared point -/

omit [DecidableEq Pt] in
theorem mod_order_nsmul (k : Nat) (P : Pt) : (k % c.order) • P = k • P := by
  conv_rhs => rw [← Nat.div_add_mod k c.order, add_nsmul, mul_nsmul, c.order_nsmul, nsmul_zero,
    zero_add]

/-- The end of `computeShared`, from the unblinded point and its multiple. -/
def sharedFrom (c : Curve Pt) (unblinded product : Pt) : Except Spake2.Error Bytes :=
  if unblinded = 0 then .error .unblindedIdentity
  else if c.x product = 0 then .error .zeroShared
  else .ok (pad32 (bigBytes (c.x product)))

theorem computeShared_server {w : Nat} {privM privN peerM peerN : Bytes}
    (hne : (blind c w peerM peerN).blindedM ≠ 0) :
    computeShared c (blind c w privM privN) (c.marshal (blind c w peerM peerN).blindedM) true =
      sharedFrom c (beNat peerM • c.G) ((beNat privN * beNat peerM) • c.G) := by
  have hunblind : (blind c w peerM peerN).blindedM + -scalarMult c.M (scalarBytes32 w) =
      beNat peerM • c.G := add_neg_cancel_right _ _
  unfold computeShared
  rw [c.unmarshal_marshal _ hne]
  dsimp only [blind] at hunblind ⊢
  simp only [↓reduceIte]
  rw [hunblind, sharedFrom, scalarMult, beNat_scalarBytes32, mod_order_nsmul, Nat.mul_comm, mul_nsmul]

theorem computeShared_client {w : Nat} {privM privN peerM peerN : Bytes}
    (hne : (blind c w peerM peerN).blindedN ≠ 0) :
    computeShared c (blind c w privM privN) (c.marshal (blind c w peerM peerN).blindedN) false =
      sharedFrom c (beNat peerN • c.G) ((beNat privM * beNat peerN) • c.G) := by
  have hunblind : (blind c w peerM peerN).blindedN + -scalarMult c.N (scalarBytes32 w) =
      beNat peerN • c.G := add_neg_cancel_right _ _
  unfold computeShared
  rw [c.unmarshal_marshal _ hne]
  dsimp only [blind] at hunblind ⊢
  simp only [Bool.false_eq_true, ↓reduceIte]
  rw [hunblind, sharedFrom, scalarMult, beNat_scalarBytes32, mod_order_nsmul, Nat.mul_comm, mul_nsmul]

theorem sharedFrom_eq_ok {k n : Nat} {shared : Bytes} :
    sharedFrom c (n • c.G) ((k * n) • c.G) = .ok shared ↔
      c.x ((k * n) • c.G) ≠ 0 ∧ shared = pad32 (bigBytes (c.x ((k * n) • c.G))) := by
  unfold sharedFrom
  split
  · rename_i hzero
    -- the identity stays the identity, so the other side sees the coordinate zero
    have hproduct : c.x ((k * n) • c.G) = 0 := by
      rw [Nat.mul_comm, mul_nsmul, hzero, nsmul_zero, c.x_zero]
    simp [hproduct]
  · split
    · rename_i hx
      simp [hx]
    · rename_i hx
      simp [hx, eq_comm]

omit [DecidableEq Pt] in
theorem length_shared (P : Pt) : (pad32 (bigBytes (c.x P))).length = 32 :=
  length_pad32 (length_bigBytes_le (c.x_lt P))

theorem Agreement.symm {stA stB : State Pt} {fpA fpB : Bytes} {roleA roleB : Role}
    (h : Agreement c stA stB fpA fpB roleA roleB) : Agreement c stB stA fpB fpA roleB roleA where
  selectA := h.selectB
  selectB := h.selectA
  oneServer := by rw [h.oneServer, Bool.not_not]
  pointA := h.pointB
  pointB := h.pointA
  failure := h.failure.symm
  success := by
    intro shared hshared
    cases hA : computeShared c stA roleA.effectivePeerPoint roleA.isServer with
    | error e =>
        obtain ⟨e', he'⟩ := h.failure.mp ⟨e, hA⟩
        rw [hshared] at he'
        cases he'
    | ok shared' =>
        obtain ⟨hB, hlength, ck, ek, hckA, hckB⟩ := h.success shared' hA
        rw [hshared] at hB
        cases hB
        exact ⟨rfl, hlength, ck, ek, hckB, hckA⟩

theorem agreement_of_server {w : Nat} {aM aN bM bN fpA fpB : Bytes} (hfpA : fpA.length = 32)
    (hfpB : fpB.length = 32) (hfps : fpA ≠ fpB) (haM : (blind c w aM aN).blindedM ≠ 0)
    (haN : (blind c w aM aN).blindedN ≠ 0) (hbM : (blind c w bM bN).blindedM ≠ 0)
    (hbN : (blind c w bM bN).blindedN ≠ 0)
    (hlt : (blind c w bM bN).blindedBytesM c < (blind c w aM aN).blindedBytesM c) :
    Agreement c (blind c w aM aN) (blind c w bM bN) fpA fpB
      ⟨(blind c w aM aN).blindedBytesN c, (blind c w bM bN).blindedBytesM c, fpB, true⟩
      ⟨(blind c w bM bN).blindedBytesM c, (blind c w aM aN).blindedBytesN c, fpA, false⟩ := by
  have hne : (blind c w bM bN).blindedBytesM c ≠ (blind c w aM aN).blindedBytesM c := by
    intro heq
    rw [heq] at hlt
    exact List.lt_irrefl _ hlt
  have hselectA : selectRole (spake2Body c (blind c w bM bN) fpB) ((blind c w aM aN).blindedBytesM c)
      ((blind c w aM aN).blindedBytesN c) fpA = .ok ⟨(blind c w aM aN).blindedBytesN c,
        (blind c w bM bN).blindedBytesM c, fpB, true⟩ :=
    (selectRole_honest _ (c.length_marshal _ hbM) (c.length_marshal _ hbN) hfpB hfps hne.symm).trans
      (if_pos hlt)
  have hselectB : selectRole (spake2Body c (blind c w aM aN) fpA) ((blind c w bM bN).blindedBytesM c)
      ((blind c w bM bN).blindedBytesN c) fpB = .ok ⟨(blind c w bM bN).blindedBytesM c,
        (blind c w aM aN).blindedBytesN c, fpA, false⟩ :=
    (selectRole_honest _ (c.length_marshal _ haM) (c.length_marshal _ haN) hfpA hfps.symm hne).trans
      (if_neg (List.lt_asymm hlt))
  have hserver : computeShared c (blind c w aM aN) ((blind c w bM bN).blindedBytesM c) true =
      sharedFrom c (beNat bM • c.G) ((beNat aN * beNat bM) • c.G) := computeShared_server hbM
  have hclient : computeShared c (blind c w bM bN) ((blind c w aM aN).blindedBytesN c) false =
      sharedFrom c (beNat aN • c.G) ((beNat bM * beNat aN) • c.G) := computeShared_client haN
  have hsame : ∀ shared,
      computeShared c (blind c w aM aN) ((blind c w bM bN).blindedBytesM c) true = .ok shared ↔
        computeShared c (blind c w bM bN) ((blind c w aM aN).blindedBytesN c) false = .ok shared := by
    intro shared
    rw [hserver, hclient, sharedFrom_eq_ok, sharedFrom_eq_ok, Nat.mul_comm (beNat bM)]
  refine ⟨hselectA, hselectB, rfl, rfl, rfl, ?_, ?_⟩
  · rw [error_iff_not_ok, error_iff_not_ok]
    exact forall_congr' fun shared => not_congr (hsame shared)
  · intro shared hshared
    have hlength : shared.length = 32 := by
      rw [hserver, sharedFrom_eq_ok] at hshared
      rw [hshared.2]
      exact length_shared _
    obtain ⟨keys, hkeys⟩ : ∃ keys, deriveSessionKey c shared ((blind c w aM aN).blindedBytesN c)
        ((blind c w bM bN).blindedBytesM c) fpA fpB = .ok keys := by
      unfold deriveSessionKey
      rw [if_neg (by simp [hfpA, hfpB]), if_neg hfps]
      exact ⟨_, rfl⟩
    have hkeysB := hkeys
    rw [deriveSessionKey_comm] at hkeysB
    exact ⟨(hsame shared).mp hshared, hlength, keys.1, keys.2,
      processSpakeMsg_eq_ok hselectA hshared hkeys,
      processSpakeMsg_eq_ok hselectB ((hsame shared).mp hshared) hkeysB⟩

/-- Two peers with the same password scalar, distinct fingerprints, any ephemeral scalars that blind
no point to the identity and different `M`-points: one is the server, each uses the point the other
expects, and both fail or both derive the same secret and the same keys. -/
theorem honest_peers_agree (c : Curve Pt) (w : PwScalar c)
    (aM aN bM bN : { b : Bytes // b.length = 32 }) {stA stB : State Pt} {fpA fpB : Bytes}
    (hA : newState c w (some aM) (some aN) = .ok stA)
    (hB : newState c w (some bM) (some bN) = .ok stB) (hfpA : fpA.length = 32)
    (hfpB : fpB.length = 32) (hfps : fpA ≠ fpB)
    (hpointsA : stA.blindedM ≠ 0 ∧ stA.blindedN ≠ 0)
    (hpointsB : stB.blindedM ≠ 0 ∧ stB.blindedN ≠ 0)
    (hdiffer : stA.blindedBytesM c ≠ stB.blindedBytesM c) :
    ∃ roleA roleB, Agreement c stA stB fpA fpB roleA roleB := by
  cases hA
  cases hB
  obtain ⟨haM, haN⟩ := hpointsA
  obtain ⟨hbM, hbN⟩ := hpointsB
  by_cases hlt : (blind c w.val bM.val bN.val).blindedBytesM c <
      (blind c w.val aM.val aN.val).blindedBytesM c
  · exact ⟨_, _, agreement_of_server hfpA hfpB hfps haM haN hbM hbN hlt⟩
  · have hgt : (blind c w.val aM.val aN.val).blindedBytesM c <
        (blind c w.val bM.val bN.val).blindedBytesM c := by
      by_contra hnot
      exact hdiffer (List.le_antisymm hlt hnot)
    exact ⟨_, _, (agreement_of_server hfpB hfpA hfps.symm hbM hbN haM haN hgt).symm⟩

/-- The curve `y² = x³ - 3x + 10` over the field of eleven elements. Its points are the multiples of
`(2, 1)`, seven with the identity. -/
def smallCoordinates (P : ZMod 7) : Nat × Nat :=
  [(0, 0), (2, 1), (8, 5), (10, 1), (10, 10), (8, 6), (2, 10)].getD P.val (0, 0)

def smallMarshal (P : ZMod 7) : Bytes :=
  4 :: beBytes 32 (smallCoordinates P).1 ++ beBytes 32 (smallCoordinates P).2

def smallCurve : Curve (ZMod 7) where
  order := 7
  order_prime := by decide
  order_nsmul := by decide
  G := 1
  M := 2
  N := 3
  generates P := ⟨P.val, by revert P; decide⟩
  M_ne_zero := by decide
  N_ne_zero := by decide
  x P := (smallCoordinates P).1
  x_zero := rfl
  x_lt := by decide
  marshal := smallMarshal
  unmarshal b := [1, 2, 3, 4, 5, 6].find? fun P => smallMarshal P = b
  length_marshal P _ := by simp [smallMarshal]
  unmarshal_marshal := by decide +kernel

/-- A draw of thirty-two bytes. -/
def drawOf (n : Nat) : { b : Bytes // b.length = 32 } := ⟨beBytes 32 n, length_beBytes 32 n⟩

def smallA : State (ZMod 7) := blind smallCurve 3 (drawOf 2).val (drawOf 4).val

def smallB : State (ZMod 7) := blind smallCurve 3 (drawOf 3).val (drawOf 1).val

def fingerprintA : Bytes := List.replicate 32 0xA

def fingerprintB : Bytes := List.replicate 32 0xB

theorem small_peers_agree :
    (∃ roleA roleB, Agreement smallCurve smallA smallB fingerprintA fingerprintB roleA roleB) ∧
      computeShared smallCurve smallA (smallB.blindedBytesN smallCurve) false =
        .ok (beBytes 32 8) :=
  ⟨honest_peers_agree smallCurve ⟨3, by decide⟩ (drawOf 2) (drawOf 4) (drawOf 3) (drawOf 1) rfl rfl
    rfl rfl (by decide) (by decide +kernel) (by decide +kernel) (by decide +kernel),
    by decide +kernel⟩

end Qvole.Engine
