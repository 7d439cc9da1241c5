import Mathlib.Data.Nat.Log
import Mathlib.Tactic.Ring
import Qvole.Lib.Bytes

/-!
# Big-endian numbers and SHA-256

The byte form of a natural number, of fixed width and as short as possible, and on top of it the hash
function of FIPS 180-4 with HMAC (RFC 2104) and HKDF (RFC 5869). The words of the hash are naturals
below `2 ^ 32`. Nothing here says that the hash is hard to invert; what the proofs use are the lengths.
-/

namespace Lib

/-! ### Numbers -/

/-- The low `k` bytes of a number, the highest first. -/
def beBytes : Nat → Nat → Bytes
  | 0, _ => []
  | k + 1, n => UInt8.ofNat (n / 256 ^ k) :: beBytes k n

def beNat (s : Bytes) : Nat := s.foldl (fun n b => n * 256 + b.toNat) 0

/-- `big.Int.Bytes`: no leading zeros, and nothing at all for zero. -/
def bigBytes (n : Nat) : Bytes := if n = 0 then [] else beBytes (Nat.log 256 n + 1) n

@[simp] theorem length_beBytes (k n : Nat) : (beBytes k n).length = k := by
  induction k with
  | zero => rfl
  | succ k ih => rw [beBytes, List.length_cons, ih]

theorem beNat_cons (b : UInt8) (s : Bytes) : beNat (b :: s) = b.toNat * 256 ^ s.length + beNat s := by
  have hfold : ∀ (s : Bytes) (n : Nat), s.foldl (fun n b => n * 256 + b.toNat) n =
      n * 256 ^ s.length + s.foldl (fun n b => n * 256 + b.toNat) 0 := by
    intro s
    induction s with
    | nil => simp
    | cons c s ih =>
        intro n
        rw [List.foldl_cons, ih, List.foldl_cons, ih (0 * 256 + c.toNat), List.length_cons]
        ring
  rw [beNat, List.foldl_cons, hfold]
  simp [beNat]

theorem beNat_beBytes (k n : Nat) : beNat (beBytes k n) = n % 256 ^ k := by
  induction k with
  | zero => simp [beBytes, beNat, Nat.mod_one]
  | succ k ih =>
      have hbyte : (UInt8.ofNat (n / 256 ^ k)).toNat = n / 256 ^ k % 256 := UInt8.toNat_ofNat
      rw [beBytes, beNat_cons, ih, length_beBytes, hbyte, Nat.pow_succ, Nat.mod_mul]
      ring

theorem beNat_bigBytes (n : Nat) : beNat (bigBytes n) = n := by
  unfold bigBytes
  split
  · rename_i hzero
    rw [hzero]
    rfl
  · rw [beNat_beBytes, Nat.mod_eq_of_lt (Nat.lt_pow_succ_log_self (by decide) n)]

theorem beNat_zeros_append (k : Nat) (s : Bytes) : beNat (List.replicate k 0 ++ s) = beNat s := by
  induction k with
  | zero => rfl
  | succ k ih =>
      rw [List.replicate_succ, List.cons_append, beNat_cons, ih]
      simp

theorem length_bigBytes_le {n k : Nat} (h : n < 256 ^ k) : (bigBytes n).length ≤ k := by
  unfold bigBytes
  split
  · exact Nat.zero_le k
  · rename_i hpos
    rw [length_beBytes]
    exact Nat.log_lt_of_lt_pow hpos h

/-! ### SHA-256 -/

namespace Sha256

def rotr (n x : Nat) : Nat := (x >>> n ||| x <<< (32 - n)) % 2 ^ 32

structure Words where
  a : Nat
  b : Nat
  c : Nat
  d : Nat
  e : Nat
  f : Nat
  g : Nat
  h : Nat

def roundConstants : List Nat := [
  0x428a2f98, 0x71374491, 0xb5c0fbcf, 0xe9b5dba5, 0x3956c25b, 0x59f111f1, 0x923f82a4, 0xab1c5ed5,
  0xd807aa98, 0x12835b01, 0x243185be, 0x550c7dc3, 0x72be5d74, 0x80deb1fe, 0x9bdc06a7, 0xc19bf174,
  0xe49b69c1, 0xefbe4786, 0x0fc19dc6, 0x240ca1cc, 0x2de92c6f, 0x4a7484aa, 0x5cb0a9dc, 0x76f988da,
  0x983e5152, 0xa831c66d, 0xb00327c8, 0xbf597fc7, 0xc6e00bf3, 0xd5a79147, 0x06ca6351, 0x14292967,
  0x27b70a85, 0x2e1b2138, 0x4d2c6dfc, 0x53380d13, 0x650a7354, 0x766a0abb, 0x81c2c92e, 0x92722c85,
  0xa2bfe8a1, 0xa81a664b, 0xc24b8b70, 0xc76c51a3, 0xd192e819, 0xd6990624, 0xf40e3585, 0x106aa070,
  0x19a4c116, 0x1e376c08, 0x2748774c, 0x34b0bcb5, 0x391c0cb3, 0x4ed8aa4a, 0x5b9cca4f, 0x682e6ff3,
  0x748f82ee, 0x78a5636f, 0x84c87814, 0x8cc70208, 0x90befffa, 0xa4506ceb, 0xbef9a3f7, 0xc67178f2]

def Words.init : Words where
  a := 0x6a09e667
  b := 0xbb67ae85
  c := 0x3c6ef372
  d := 0xa54ff53a
  e := 0x510e527f
  f := 0x9b05688c
  g := 0x1f83d9ab
  h := 0x5be0cd19

/-- The word sixteen places on, from a window of sixteen words. -/
def nextWord (w : List Nat) : Nat :=
  let w1 := w.getD 1 0
  let w14 := w.getD 14 0
  let s0 := rotr 7 w1 ^^^ rotr 18 w1 ^^^ (w1 >>> 3)
  let s1 := rotr 17 w14 ^^^ rotr 19 w14 ^^^ (w14 >>> 10)
  (w.getD 0 0 + s0 + w.getD 9 0 + s1) % 2 ^ 32

def round (k w : Nat) (s : Words) : Words :=
  let sum1 := rotr 6 s.e ^^^ rotr 11 s.e ^^^ rotr 25 s.e
  let ch := (s.e &&& s.f) ^^^ ((s.e ^^^ (2 ^ 32 - 1)) &&& s.g)
  let t1 := s.h + sum1 + ch + k + w
  let sum0 := rotr 2 s.a ^^^ rotr 13 s.a ^^^ rotr 22 s.a
  let maj := (s.a &&& s.b) ^^^ (s.a &&& s.c) ^^^ (s.b &&& s.c)
  ⟨(t1 + sum0 + maj) % 2 ^ 32, s.a, s.b, s.c, (s.d + t1) % 2 ^ 32, s.e, s.f, s.g⟩

/-- One round for each constant; the window of the schedule moves on by a word. -/
def rounds : List Nat → List Nat → Words → Words
  | [], _, s => s
  | k :: ks, w, s => rounds ks (w.tail ++ [nextWord w]) (round k (w.headD 0) s)

def Words.add (s t : Words) : Words :=
  ⟨(s.a + t.a) % 2 ^ 32, (s.b + t.b) % 2 ^ 32, (s.c + t.c) % 2 ^ 32, (s.d + t.d) % 2 ^ 32,
    (s.e + t.e) % 2 ^ 32, (s.f + t.f) % 2 ^ 32, (s.g + t.g) % 2 ^ 32, (s.h + t.h) % 2 ^ 32⟩

def Words.bytes (s : Words) : Bytes := [s.a, s.b, s.c, s.d, s.e, s.f, s.g, s.h].flatMap (beBytes 4)

def chunks (n : Nat) : Nat → Bytes → List Bytes
  | 0, _ => []
  | k + 1, s => s.take n :: chunks n k (s.drop n)

def compress (s : Words) (block : Bytes) : Words :=
  s.add (rounds roundConstants ((chunks 4 16 block).map beNat) s)

def pad (s : Bytes) : Bytes :=
  s ++ 0x80 :: List.replicate ((119 - s.length % 64) % 64) 0 ++ beBytes 8 (8 * s.length)

end Sha256

def sha256 (s : Bytes) : Bytes :=
  let padded := Sha256.pad s
  ((Sha256.chunks 64 (padded.length / 64) padded).foldl Sha256.compress .init).bytes

def hmacSha256 (key msg : Bytes) : Bytes :=
  let key := if 64 < key.length then sha256 key else key
  let block := key ++ List.replicate (64 - key.length) 0
  sha256 (block.map (· ^^^ 0x5c) ++ sha256 (block.map (· ^^^ 0x36) ++ msg))

/-- The blocks of the expansion from the `i`-th on, each made from the one before. -/
def hkdfBlocks (prk info : Bytes) : Nat → Nat → Bytes → Bytes
  | 0, _, _ => []
  | k + 1, i, prev =>
    let block := hmacSha256 prk (prev ++ info ++ [UInt8.ofNat i])
    block ++ hkdfBlocks prk info k (i + 1) block

/-- The first `n` bytes that `hkdf.New` delivers. -/
def hkdf (secret salt info : Bytes) (n : Nat) : Bytes :=
  (hkdfBlocks (hmacSha256 salt secret) info ((n + 31) / 32) 1 []).take n

@[simp] theorem length_sha256 (s : Bytes) : (sha256 s).length = 32 := by
  simp [sha256, Sha256.Words.bytes]

@[simp] theorem length_hmacSha256 (key msg : Bytes) : (hmacSha256 key msg).length = 32 :=
  length_sha256 _

/-- Sixty-four bytes are two blocks. -/
theorem hkdf_sixtyFour (secret salt info : Bytes) :
    hkdf secret salt info 64 =
      hmacSha256 (hmacSha256 salt secret) (info ++ [1]) ++
        hmacSha256 (hmacSha256 salt secret)
          (hmacSha256 (hmacSha256 salt secret) (info ++ [1]) ++ info ++ [2]) := by
  have htake : ∀ x y : Bytes, x.length = 32 → y.length = 32 →
      (x ++ (y ++ [])).take 64 = x ++ y := by
    intro x y hx hy
    rw [List.append_nil, List.take_of_length_le]
    rw [List.length_append]
    omega
  exact htake _ _ (length_hmacSha256 _ _) (length_hmacSha256 _ _)

example : sha256 (ascii "abc") = [
    0xba, 0x78, 0x16, 0xbf, 0x8f, 0x01, 0xcf, 0xea, 0x41, 0x41, 0x40, 0xde, 0x5d, 0xae, 0x22, 0x23,
    0xb0, 0x03, 0x61, 0xa3, 0x96, 0x17, 0x7a, 0x9c, 0xb4, 0x10, 0xff, 0x61, 0xf2, 0x00, 0x15, 0xad] := by
  decide +kernel

end Lib
