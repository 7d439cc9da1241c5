import Mathlib.NumberTheory.LegendreSymbol.Basic

/-!
# Powers and square roots modulo a prime

Exponentiation by repeated squaring, and the square root modulo a prime that is three modulo four: one
power, which is a root of every number that has one.
-/

namespace Lib

/-! ### Powers -/

/-- Square and multiply, with `fuel` bits of the exponent. -/
def expModLoop (m : Int) : Nat → Int → Nat → Int
  | 0, _, _ => 1 % m
  | fuel + 1, a, e =>
    let half := expModLoop m fuel (a * a % m) (e / 2)
    if e % 2 = 1 then half * a % m else half

/-- `big.Int.Exp` with a modulus. -/
def expMod (a : Int) (e : Nat) (m : Int) : Int := expModLoop m (Nat.log2 e + 1) a e

theorem expModLoop_eq (m : Int) (fuel : Nat) (a : Int) (e : Nat) (he : e < 2 ^ fuel) :
    expModLoop m fuel a e = a ^ e % m := by
  induction fuel generalizing a e with
  | zero =>
      obtain rfl : e = 0 := Nat.lt_one_iff.mp he
      rw [expModLoop, pow_zero]
  | succ fuel ih =>
      have hhalf : expModLoop m fuel (a * a % m) (e / 2) = a ^ (2 * (e / 2)) % m := by
        rw [ih _ _ (by omega), pow_mul, pow_two]
        exact (Int.mod_modEq (a * a) m).pow (e / 2)
      rw [expModLoop, hhalf]
      split
      · rename_i hodd
        have hstep : a ^ (2 * (e / 2)) % m * a ≡ a ^ (2 * (e / 2)) * a [ZMOD m] :=
          (Int.mod_modEq _ m).mul_right a
        rw [← pow_succ, show 2 * (e / 2) + 1 = e by omega] at hstep
        exact hstep
      · rw [show 2 * (e / 2) = e by omega]

theorem expMod_eq (a : Int) (e : Nat) (m : Int) : expMod a e m = a ^ e % m :=
  expModLoop_eq m _ a e Nat.lt_log2_self

/-! ### Roots -/

variable {p : Nat}

theorem sq_pow_eq_iff [Fact p.Prime] (h3 : p % 4 = 3) (a : ZMod p) :
    (a ^ ((p + 1) / 4)) ^ 2 = a ↔ IsSquare a := by
  constructor
  · intro h
    rw [← h]
    exact IsSquare.sq _
  · intro h
    rw [← pow_mul, show (p + 1) / 4 * 2 = p / 2 + 1 by omega]
    by_cases ha : a = 0
    · rw [ha, zero_pow (Nat.succ_ne_zero _)]
    · rw [pow_succ, (ZMod.euler_criterion p ha).mp h, one_mul]

theorem isSquare_iff_modEq [NeZero p] (a : Int) : IsSquare (a : ZMod p) ↔ ∃ z : Int, z ^ 2 ≡ a [ZMOD p] := by
  constructor
  · rintro ⟨z, hz⟩
    refine ⟨z.val, (ZMod.intCast_eq_intCast_iff _ _ p).mp ?_⟩
    rw [hz]
    push_cast
    rw [ZMod.natCast_zmod_val, pow_two]
  · rintro ⟨z, hz⟩
    rw [← (ZMod.intCast_eq_intCast_iff _ _ p).mpr hz]
    push_cast
    exact IsSquare.sq _

/-- The power is a root of a reduced number exactly when the number has one. -/
theorem expMod_root_iff (hp : p.Prime) (h3 : p % 4 = 3) {a : Int} (h0 : 0 ≤ a) (hlt : a < p) :
    expMod a ((p + 1) / 4) p * expMod a ((p + 1) / 4) p % p = a ↔ ∃ z : Int, z ^ 2 ≡ a [ZMOD p] := by
  have : Fact p.Prime := ⟨hp⟩
  rw [← isSquare_iff_modEq, ← sq_pow_eq_iff h3, expMod_eq]
  have hcast : (((a ^ ((p + 1) / 4) % p * (a ^ ((p + 1) / 4) % p) : Int)) : ZMod p) =
      ((a : ZMod p) ^ ((p + 1) / 4)) ^ 2 := by
    rw [pow_two]
    push_cast
    simp
  rw [← hcast, ZMod.intCast_eq_intCast_iff', Int.emod_eq_of_lt h0 hlt]

end Lib
