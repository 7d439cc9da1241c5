import Qvole.Lib.GoMap
import Qvole.Lib.Bytes

/-!
# Byte buffers that are overwritten

A `[]byte` that holds a secret is overwritten with zeros when it is no longer needed, through any of the
slices that refer to it. Buffers are kept in the order in which they were made, and a slice is the index
of its buffer.
-/

namespace Lib

abbrev Buffers := List Bytes

namespace Buffers

def read (bufs : Buffers) (r : Nat) : Bytes := bufs.getD r []

/-- The loop that overwrites a buffer. -/
def zeroBytes (bufs : Buffers) (r : Nat) : Buffers := bufs.modify r fun b => List.replicate b.length 0

def zeroAll (bufs : Buffers) (rs : List Nat) : Buffers := rs.foldl zeroBytes bufs

def IsZero (b : Bytes) : Prop := ∀ x ∈ b, x = 0

variable {bufs : Buffers} {r r' : Nat}

@[simp] theorem length_zeroBytes : (bufs.zeroBytes r).length = bufs.length :=
  List.length_modify ..

theorem read_zeroBytes_ne (h : r ≠ r') : (bufs.zeroBytes r').read r = bufs.read r := by
  simp [read, zeroBytes, h.symm]

theorem read_zeroBytes_self : IsZero ((bufs.zeroBytes r).read r) := by
  intro x hx
  cases hget : bufs[r]? with
  | none => simp [read, zeroBytes, hget] at hx
  | some b =>
      simp [read, zeroBytes, hget] at hx
      exact hx.2

theorem IsZero.zeroBytes (h : IsZero (bufs.read r)) : IsZero ((bufs.zeroBytes r').read r) := by
  by_cases heq : r = r'
  · rw [heq]
    exact read_zeroBytes_self
  · rw [read_zeroBytes_ne heq]
    exact h

theorem read_append (more : Buffers) (h : r < bufs.length) : Buffers.read (bufs ++ more) r = bufs.read r := by
  simp [read, List.getElem?_append_left h]

theorem read_of_length_le (h : bufs.length ≤ r) : bufs.read r = [] := by
  simp [read, List.getElem?_eq_none h]

theorem IsZero.append {more : Buffers} (h : IsZero (bufs.read r))
    (hout : r < bufs.length ∨ (bufs ++ more).length ≤ r) : IsZero (Buffers.read (bufs ++ more) r) := by
  rcases hout with hlt | hle
  · rw [read_append more hlt]
    exact h
  · rw [read_of_length_le hle]
    intro x hx
    cases hx

/-- What the list of slices refers to is zero after it was worked through, and what was zero stays so. -/
theorem isZero_zeroAll {rs : List Nat} (h : r ∈ rs ∨ IsZero (bufs.read r)) :
    IsZero ((bufs.zeroAll rs).read r) := by
  rcases h with h | h
  · exact foldl_of_mem (f := zeroBytes) (P := fun bufs => IsZero (bufs.read r)) (fun _ _ => IsZero.zeroBytes)
      (fun _ => read_zeroBytes_self) h bufs
  · exact List.foldlRecOn (motive := fun bufs : Buffers => IsZero (bufs.read r)) rs Buffers.zeroBytes h
      fun _ hzero _ _ => hzero.zeroBytes

end Buffers

end Lib
