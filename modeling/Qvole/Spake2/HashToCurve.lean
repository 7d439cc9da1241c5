import Qvole.Lib.Hash
import Qvole.Lib.ModRoot

/-!
# Hashing to the curve

The generators `M` and `N` are hashed to the curve: the seed is hashed with a counter until the hash,
reduced modulo the prime, is the `x` of a point. The `y` is one power of the right-hand side, which is a
root of it exactly when there is one, since the prime is three modulo four. So the loop stops at the first
counter that has a point, and every build has the same generators.
-/

namespace Qvole.Spake2

open Lib

/-- The parameters of `y² = x³ - 3x + B` modulo `P`. -/
structure CurveParams where
  P : Nat
  B : Int

namespace CurveParams

variable (c : CurveParams)

def polynomial (x : Int) : Int := x ^ 3 - 3 * x + c.B

def rhs (x : Int) : Int :=
  let x3 := x * x % c.P
  let x3 := x3 * x % c.P
  let threeX := x * 3 % c.P
  let rhs := (x3 - threeX) % c.P
  (rhs + c.B) % c.P

def computeWeierstrassY (x : Int) : Option Int :=
  let rhs := c.rhs x
  if rhs = 0 then some 0
  else
    let y := expMod rhs ((c.P + 1) / 4) c.P
    if y * y % c.P = rhs then some y else none

/-- `IsOnCurve` of the package `elliptic`. -/
def isOnCurve (x y : Int) : Bool :=
  0 ≤ x && x < c.P && 0 ≤ y && y < c.P && y * y % c.P == (x * x * x - 3 * x + c.B) % c.P

/-! ### The loop -/

variable (hash : Bytes → Bytes)

def candidateX (h : Bytes) (counter : UInt64) : Int :=
  (beNat (hash (h ++ beBytes 8 counter.toNat)) : Int) % c.P

def tryCounter (h : Bytes) (counter : UInt64) : Option (Int × Int) :=
  let x := c.candidateX hash h counter
  if x = 0 then none
  else
    match c.computeWeierstrassY x with
    | none => none
    | some y => if c.isOnCurve x y then some (x, y) else none

/-- At most `fuel` passes of the loop. The counter starts again behind its last value. -/
def hashToCurveLoop (h : Bytes) : Nat → UInt64 → Option (Int × Int)
  | 0, _ => none
  | fuel + 1, counter =>
    match c.tryCounter hash h counter with
    | some point => some point
    | none => hashToCurveLoop h fuel (counter + 1)

def hashToCurve (seed : Bytes) (fuel : Nat) : Option (Int × Int) :=
  c.hashToCurveLoop hash (hash seed) fuel 0

/-! ### The root -/

def HasRoot (x : Int) : Prop := ∃ z : Int, z ^ 2 ≡ c.polynomial x [ZMOD c.P]

variable {c}

theorem rhs_modEq (x : Int) : c.rhs x ≡ c.polynomial x [ZMOD c.P] := by
  have hsquare : x * x % c.P * x ≡ x ^ 3 [ZMOD c.P] := by
    rw [show x ^ 3 = x * x * x by ring]
    exact (Int.mod_modEq _ _).mul_right x
  have hcube : x * x % c.P * x % c.P ≡ x ^ 3 [ZMOD c.P] := (Int.mod_modEq _ _).trans hsquare
  have hthree : x * 3 % c.P ≡ 3 * x [ZMOD c.P] := by
    rw [mul_comm]
    exact Int.mod_modEq _ _
  have hdiff : (x * x % c.P * x % c.P - x * 3 % c.P) % c.P ≡ x ^ 3 - 3 * x [ZMOD c.P] :=
    (Int.mod_modEq _ _).trans (hcube.sub hthree)
  exact (Int.mod_modEq _ _).trans (hdiff.add_right c.B)

theorem rhs_nonneg (hP : 0 < c.P) (x : Int) : 0 ≤ c.rhs x :=
  Int.emod_nonneg _ (by omega)

theorem rhs_lt (hP : 0 < c.P) (x : Int) : c.rhs x < c.P :=
  Int.emod_lt_of_pos _ (by omega)

theorem expMod_bounds (hP : 0 < c.P) (a : Int) (e : Nat) : 0 ≤ expMod a e c.P ∧ expMod a e c.P < c.P := by
  rw [expMod_eq]
  exact ⟨Int.emod_nonneg _ (by omega), Int.emod_lt_of_pos _ (by omega)⟩

theorem computeWeierstrassY_sound (hP : 0 < c.P) {x y : Int} (h : c.computeWeierstrassY x = some y) :
    y ^ 2 ≡ c.polynomial x [ZMOD c.P] ∧ 0 ≤ y ∧ y < c.P := by
  have hrhs := rhs_modEq (c := c) x
  rw [computeWeierstrassY] at h
  dsimp only at h
  split at h
  · rename_i hzero
    obtain rfl := Option.some.inj h
    rw [hzero] at hrhs
    exact ⟨hrhs, le_refl 0, by omega⟩
  · split at h
    · rename_i hsquare
      obtain rfl := Option.some.inj h
      refine ⟨?_, expMod_bounds hP _ _⟩
      have hroot := Int.mod_modEq (expMod (c.rhs x) ((c.P + 1) / 4) c.P *
        expMod (c.rhs x) ((c.P + 1) / 4) c.P) c.P
      rw [hsquare, ← pow_two] at hroot
      exact hroot.symm.trans hrhs
    · cases h

/-- For a prime that is three modulo four a root is returned whenever there is one. -/
theorem computeWeierstrassY_isSome (hp : c.P.Prime) (h3 : c.P % 4 = 3) (x : Int) :
    (c.computeWeierstrassY x).isSome ↔ c.HasRoot x := by
  have hrhs := rhs_modEq (c := c) x
  have hroot : (∃ z : Int, z ^ 2 ≡ c.rhs x [ZMOD c.P]) ↔ c.HasRoot x :=
    ⟨fun ⟨z, hz⟩ => ⟨z, hz.trans hrhs⟩, fun ⟨z, hz⟩ => ⟨z, hz.trans hrhs.symm⟩⟩
  rw [← hroot, computeWeierstrassY]
  dsimp only
  split
  · rename_i hzero
    rw [hzero]
    exact ⟨fun _ => ⟨0, rfl⟩, fun _ => rfl⟩
  · rw [← expMod_root_iff hp h3 (rhs_nonneg hp.pos x) (rhs_lt hp.pos x)]
    split
    · rename_i hsquare
      exact ⟨fun _ => hsquare, fun _ => rfl⟩
    · rename_i hsquare
      exact ⟨fun h => absurd h Bool.false_ne_true, fun h => absurd h hsquare⟩

/-! ### The point -/

theorem isOnCurve_iff {x y : Int} : c.isOnCurve x y ↔
    0 ≤ x ∧ x < c.P ∧ 0 ≤ y ∧ y < c.P ∧ y ^ 2 ≡ c.polynomial x [ZMOD c.P] := by
  simp only [isOnCurve, polynomial, Int.ModEq, Bool.and_eq_true, decide_eq_true_eq, beq_iff_eq, and_assoc]
  rw [pow_two, show x ^ 3 = x * x * x by ring]

variable {hash} {h : Bytes} {counter : UInt64}

variable (c hash) in
/-- A counter with a point: its candidate is not zero and has a root. -/
def Suits (h : Bytes) (counter : UInt64) : Prop :=
  c.candidateX hash h counter ≠ 0 ∧ c.HasRoot (c.candidateX hash h counter)

theorem candidateX_bounds (hP : 0 < c.P) :
    0 ≤ c.candidateX hash h counter ∧ c.candidateX hash h counter < c.P :=
  ⟨Int.emod_nonneg _ (by omega), Int.emod_lt_of_pos _ (by omega)⟩

/-- The check for being on the curve never fails behind a root. -/
theorem tryCounter_eq (hP : 0 < c.P) {x y : Int} : c.tryCounter hash h counter = some (x, y) ↔
    x = c.candidateX hash h counter ∧ x ≠ 0 ∧ c.computeWeierstrassY x = some y := by
  rw [tryCounter]
  by_cases hzero : c.candidateX hash h counter = 0
  · rw [if_pos hzero]
    refine ⟨fun h => (by cases h), ?_⟩
    rintro ⟨rfl, hne, _⟩
    exact absurd hzero hne
  · rw [if_neg hzero]
    cases hy : c.computeWeierstrassY (c.candidateX hash h counter) with
    | none =>
        refine ⟨fun h => (by cases h), ?_⟩
        rintro ⟨rfl, _, hsome⟩
        rw [hy] at hsome
        cases hsome
    | some y' =>
        have hsound := computeWeierstrassY_sound hP hy
        have hcurve : c.isOnCurve (c.candidateX hash h counter) y' :=
          isOnCurve_iff.mpr ⟨(candidateX_bounds hP).1, (candidateX_bounds hP).2, hsound.2.1, hsound.2.2,
            hsound.1⟩
        dsimp only
        rw [if_pos hcurve]
        constructor
        · intro heq
          obtain ⟨rfl, rfl⟩ := Prod.mk.inj (Option.some.inj heq)
          exact ⟨rfl, hzero, hy⟩
        · rintro ⟨rfl, _, hsome⟩
          rw [hy] at hsome
          rw [Option.some.inj hsome]

theorem tryCounter_isSome (hp : c.P.Prime) (h3 : c.P % 4 = 3) :
    (c.tryCounter hash h counter).isSome ↔ c.Suits hash h counter := by
  rw [Suits, ← computeWeierstrassY_isSome hp h3, Option.isSome_iff_exists, Option.isSome_iff_exists]
  constructor
  · rintro ⟨⟨x, y⟩, hpoint⟩
    obtain ⟨rfl, hne, hy⟩ := (tryCounter_eq hp.pos).mp hpoint
    exact ⟨hne, y, hy⟩
  · rintro ⟨hne, y, hy⟩
    exact ⟨(_, y), (tryCounter_eq hp.pos).mpr ⟨rfl, hne, hy⟩⟩

/-! ### The first counter -/

theorem ofNat_succ (n : Nat) : UInt64.ofNat n + 1 = UInt64.ofNat (n + 1) := by
  rw [UInt64.ofNat_add]
  rfl

/-- The loop returns at the first counter that has a point, counting on without a bound. -/
theorem hashToCurveLoop_first {fuel n : Nat} {point : Int × Int}
    (hloop : c.hashToCurveLoop hash h fuel (UInt64.ofNat n) = some point) :
    ∃ i, n ≤ i ∧ c.tryCounter hash h (UInt64.ofNat i) = some point ∧
      ∀ j, n ≤ j → j < i → c.tryCounter hash h (UInt64.ofNat j) = none := by
  induction fuel generalizing n with
  | zero => cases hloop
  | succ fuel ih =>
      rw [hashToCurveLoop] at hloop
      cases htry : c.tryCounter hash h (UInt64.ofNat n) with
      | some point' =>
          rw [htry] at hloop
          refine ⟨n, le_refl n, htry.trans hloop, fun j hj hlt => ?_⟩
          exact absurd hlt (Nat.not_lt.mpr hj)
      | none =>
          rw [htry] at hloop
          dsimp only at hloop
          rw [ofNat_succ] at hloop
          obtain ⟨i, hi, hpoint, hbefore⟩ := ih hloop
          refine ⟨i, Nat.le_of_succ_le hi, hpoint, fun j hj hlt => ?_⟩
          rcases Nat.eq_or_lt_of_le hj with rfl | hlater
          · exact htry
          · exact hbefore j hlater hlt

theorem hashToCurveLoop_isSome {fuel n i : Nat} (hi : n ≤ i) (hfuel : i < n + fuel)
    (htry : (c.tryCounter hash h (UInt64.ofNat i)).isSome) :
    (c.hashToCurveLoop hash h fuel (UInt64.ofNat n)).isSome := by
  induction fuel generalizing n with
  | zero => omega
  | succ fuel ih =>
      rw [hashToCurveLoop]
      cases hn : c.tryCounter hash h (UInt64.ofNat n) with
      | some point => rfl
      | none =>
          have hne : n ≠ i := by
            rintro rfl
            rw [hn] at htry
            cases htry
          dsimp only
          rw [ofNat_succ]
          exact ih (by omega) (by omega)

variable (hash) in
theorem hashToCurve_least (hp : c.P.Prime) (h3 : c.P % 4 = 3) {seed : Bytes} {fuel : Nat} {x y : Int}
    (hret : c.hashToCurve hash seed fuel = some (x, y)) :
    ∃ counter, x = c.candidateX hash (hash seed) counter ∧ c.computeWeierstrassY x = some y ∧
      c.Suits hash (hash seed) counter ∧ ∀ counter' < counter, ¬ c.Suits hash (hash seed) counter' := by
  obtain ⟨i, _, hpoint, hbefore⟩ := hashToCurveLoop_first (show c.hashToCurveLoop hash (hash seed) fuel
    (UInt64.ofNat 0) = some (x, y) from hret)
  obtain ⟨hx, _, hy⟩ := (tryCounter_eq hp.pos).mp hpoint
  refine ⟨UInt64.ofNat i, hx, hy, (tryCounter_isSome hp h3).mp (by rw [hpoint]; rfl), ?_⟩
  intro counter' hlt hsuits
  have hi : counter'.toNat < i :=
    Nat.lt_of_lt_of_le (UInt64.lt_iff_toNat_lt.mp hlt) (UInt64.toNat_ofNat ▸ Nat.mod_le _ _)
  have hnone := hbefore counter'.toNat (Nat.zero_le _) hi
  rw [UInt64.ofNat_toNat] at hnone
  have hsome := (tryCounter_isSome hp h3).mpr hsuits
  rw [hnone] at hsome
  cases hsome

variable (hash) in
theorem hashToCurve_returns (hp : c.P.Prime) (h3 : c.P % 4 = 3) {seed : Bytes} {fuel : Nat}
    (hsuits : c.Suits hash (hash seed) counter) (hfuel : counter.toNat < fuel) :
    (c.hashToCurve hash seed fuel).isSome := by
  apply hashToCurveLoop_isSome (n := 0) (Nat.zero_le counter.toNat) (by omega)
  rw [UInt64.ofNat_toNat]
  exact (tryCounter_isSome hp h3).mpr hsuits

end CurveParams

open CurveParams

/-- `ComputeWeierstrassY` returns a reduced root of the right-hand side exactly when there is one. With
any hash function, what `HashToCurve` returns is the point of the least counter that has one, and it
returns if some counter does. -/
theorem hashToCurve_sound (c : CurveParams) (hp : c.P.Prime) (h3 : c.P % 4 = 3) :
    (∀ x, (∀ y, c.computeWeierstrassY x = some y → y ^ 2 ≡ x ^ 3 - 3 * x + c.B [ZMOD c.P] ∧ 0 ≤ y ∧ y < c.P) ∧
      ((c.computeWeierstrassY x).isSome ↔ ∃ z : Int, z ^ 2 ≡ x ^ 3 - 3 * x + c.B [ZMOD c.P])) ∧
    ∀ (hash : Bytes → Bytes) (seed : Bytes),
      (∀ fuel x y, c.hashToCurve hash seed fuel = some (x, y) →
        y ^ 2 ≡ x ^ 3 - 3 * x + c.B [ZMOD c.P] ∧ 0 ≤ y ∧ y < c.P ∧ 0 < x ∧ x < c.P ∧
        ∃ counter, x = c.candidateX hash (hash seed) counter ∧ c.Suits hash (hash seed) counter ∧
          ∀ counter' < counter, ¬ c.Suits hash (hash seed) counter') ∧
      ∀ counter fuel, c.Suits hash (hash seed) counter → counter.toNat < fuel →
        (c.hashToCurve hash seed fuel).isSome := by
  refine ⟨fun x => ⟨fun y hy => computeWeierstrassY_sound hp.pos hy, computeWeierstrassY_isSome hp h3 x⟩,
    fun hash seed => ⟨fun fuel x y hret => ?_, fun counter fuel => hashToCurve_returns hash hp h3⟩⟩
  obtain ⟨counter, hx, hy, hsuits, hleast⟩ := hashToCurve_least hash hp h3 hret
  obtain ⟨hcurve, hy0, hyP⟩ := computeWeierstrassY_sound hp.pos hy
  have hbounds : 0 ≤ c.candidateX hash (hash seed) counter ∧ c.candidateX hash (hash seed) counter < c.P :=
    candidateX_bounds hp.pos
  rw [← hx] at hbounds
  have hne : x ≠ 0 := hx ▸ hsuits.1
  exact ⟨hcurve, hy0, hyP, by omega, hbounds.2, counter, hx, hsuits, hleast⟩

theorem hashToCurve_sound_small :
    (CurveParams.mk 23 7).hashToCurve sha256 (ascii "qvole-spake2-M-v1") 1 = some (19, 1) ∧
    (1 : Int) ^ 2 ≡ 19 ^ 3 - 3 * 19 + 7 [ZMOD 23] := by
  have hret : (CurveParams.mk 23 7).hashToCurve sha256 (ascii "qvole-spake2-M-v1") 1 = some (19, 1) := by
    decide +kernel
  exact ⟨hret, (((hashToCurve_sound ⟨23, 7⟩ (by decide) (by decide)).2 sha256 _).1 1 19 1 hret).1⟩

/-- P-256. -/
def p256 : CurveParams where
  P := 2 ^ 256 - 2 ^ 224 + 2 ^ 192 + 2 ^ 96 - 1
  B := 0x5ac635d8aa3a93e7b3ebbd55769886bc651d06b0cc53b0f63bce3c3e27d2604b

-- Both seeds have a point at the second counter, so `init` returns, with two generators.
example : (p256.hashToCurve sha256 (ascii "qvole-spake2-M-v1") 2).isSome ∧
    (p256.hashToCurve sha256 (ascii "qvole-spake2-N-v1") 2).isSome ∧
    p256.hashToCurve sha256 (ascii "qvole-spake2-M-v1") 2 ≠
      p256.hashToCurve sha256 (ascii "qvole-spake2-N-v1") 2 := by
  decide +kernel

end Qvole.Spake2
