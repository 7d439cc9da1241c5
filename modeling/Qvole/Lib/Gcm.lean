import Mathlib.Data.List.Basic
import Qvole.Lib.Bytes

/-!
# Counter mode with a tag

An authenticated cipher that masks the data with a key stream and appends a tag over what came out.
The key stream and the tag are left open; AES-GCM is one such cipher, with a sixteen-byte tag. Opening
undoes sealing whatever they are.
-/

namespace Lib

def xorBytes (a b : Bytes) : Bytes := List.zipWith (· ^^^ ·) a b

theorem xorBytes_xorBytes {a b : Bytes} (h : a.length = b.length) :
    xorBytes (xorBytes a b) b = a := by
  induction a generalizing b with
  | nil => simp [xorBytes]
  | cons x a ih =>
      cases b with
      | nil => cases h
      | cons y b =>
          have hrest := ih (Nat.succ.inj h)
          simp only [xorBytes, List.zipWith_cons_cons] at hrest ⊢
          rw [hrest, UInt8.xor_assoc, UInt8.xor_self, UInt8.xor_zero]

structure Gcm where
  keystream : (key nonce : Bytes) → Nat → Bytes
  tag : (key nonce data aad : Bytes) → Bytes
  length_keystream : ∀ key nonce n, (keystream key nonce n).length = n
  length_tag : ∀ key nonce data aad, (tag key nonce data aad).length = 16

namespace Gcm

variable (gcm : Gcm) (key nonce : Bytes)

def sealData (data aad : Bytes) : Bytes :=
  let masked := xorBytes data (gcm.keystream key nonce data.length)
  masked ++ gcm.tag key nonce masked aad

def openData (sealed aad : Bytes) : Option Bytes :=
  let masked := sealed.take (sealed.length - 16)
  if 16 ≤ sealed.length ∧ sealed.drop (sealed.length - 16) = gcm.tag key nonce masked aad then
    some (xorBytes masked (gcm.keystream key nonce masked.length))
  else none

variable (data aad : Bytes)

theorem length_sealData : (gcm.sealData key nonce data aad).length = data.length + 16 := by
  simp [sealData, xorBytes, gcm.length_keystream, gcm.length_tag]

theorem openData_sealData : gcm.openData key nonce (gcm.sealData key nonce data aad) aad = some data := by
  have hlen : (xorBytes data (gcm.keystream key nonce data.length)).length = data.length := by
    simp [xorBytes, gcm.length_keystream]
  have htake : (gcm.sealData key nonce data aad).take ((gcm.sealData key nonce data aad).length - 16) =
      xorBytes data (gcm.keystream key nonce data.length) := by
    rw [length_sealData, Nat.add_sub_cancel]
    exact List.take_left' hlen
  have hdrop : (gcm.sealData key nonce data aad).drop ((gcm.sealData key nonce data aad).length - 16) =
      gcm.tag key nonce (xorBytes data (gcm.keystream key nonce data.length)) aad := by
    rw [length_sealData, Nat.add_sub_cancel]
    exact List.drop_left' hlen
  have hlength := gcm.length_sealData key nonce data aad
  unfold openData
  dsimp only
  rw [htake, hdrop, if_pos ⟨by omega, rfl⟩, hlen,
    xorBytes_xorBytes (gcm.length_keystream key nonce data.length).symm]

end Gcm

end Lib
