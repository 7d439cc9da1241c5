import Mathlib.Algebra.Order.Group.Multiset
import Qvole.Lib.Buffers

/-!
# Pooled buffers

A `sync.Pool` of byte buffers of one size. `Get` hands out some buffer that was put back, or a new one;
which of them is up to the pool, and so is it to forget a buffer it has. A buffer that is out belongs to
whoever got it, until it is put back.

Nobody checks this. It holds as long as everybody puts back only what is theirs, and only once: then no
buffer is out twice, and what one holder writes no other reads (`Owned`).
-/

namespace Lib

structure BufferPool where
  bufs : Buffers
  free : List Nat

namespace BufferPool

/-- `pick` is the choice of the pool. -/
def get (size : Nat) (pick : Option Nat) (p : BufferPool) : Nat × BufferPool :=
  match pick.bind fun i => p.free[i]? with
  | some b => (b, { p with free := p.free.erase b })
  | none => (p.bufs.length, { p with bufs := p.bufs ++ [List.replicate size 0] })

def put (b : Nat) (p : BufferPool) : BufferPool := { p with free := b :: p.free }

/-- The garbage collector takes a buffer out of the pool. -/
def collect (i : Nat) (p : BufferPool) : BufferPool := { p with free := p.free.eraseIdx i }

/-- `copy` to the front of a buffer. -/
def write (b : Nat) (data : Bytes) (p : BufferPool) : BufferPool :=
  { p with bufs := p.bufs.modify b fun old => data ++ old.drop data.length }

/-- The buffers that are out are different ones, and none of them is in the pool. -/
structure Owned (size : Nat) (p : BufferPool) (held : Multiset Nat) : Prop where
  nodup : (held + ↑p.free).Nodup
  bound : ∀ b ∈ held + ↑p.free, b < p.bufs.length
  sized : ∀ x ∈ p.bufs, x.length = size

variable {size : Nat} {p : BufferPool} {held : Multiset Nat} {b b' : Nat} {data : Bytes}

theorem Owned.empty : Owned size ⟨[], []⟩ 0 :=
  ⟨Multiset.nodup_zero, fun _ hb => absurd hb (Multiset.notMem_zero _), fun _ hx => absurd hx List.not_mem_nil⟩

theorem Owned.lt (h : p.Owned size held) (hb : b ∈ held) : b < p.bufs.length :=
  h.bound b (Multiset.mem_add.mpr (Or.inl hb))

/-- A buffer that is out has the full size, so every slice up to it is within bounds. -/
theorem Owned.length_read (h : p.Owned size held) (hb : b ∈ held) : (p.bufs.read b).length = size := by
  have hlt := h.lt hb
  rw [Buffers.read, List.getD_eq_getElem?_getD, List.getElem?_eq_getElem hlt, Option.getD_some]
  exact h.sized _ (List.getElem_mem hlt)

/-- A buffer that is got belongs to nobody else. -/
theorem Owned.get (h : p.Owned size held) (pick : Option Nat) :
    (p.get size pick).2.Owned size ((p.get size pick).1 ::ₘ held) ∧
      ∀ b ∈ held, (p.get size pick).2.bufs.read b = p.bufs.read b := by
  rw [BufferPool.get]
  cases hpick : pick.bind fun i => p.free[i]? with
  | some b =>
      obtain ⟨i, _, hi⟩ := Option.bind_eq_some_iff.mp hpick
      have hmem : b ∈ (p.free : Multiset Nat) := Multiset.mem_coe.mpr (List.mem_of_getElem? hi)
      have hsame : b ::ₘ held + ↑(p.free.erase b) = held + ↑p.free := by
        rw [← Multiset.coe_erase, Multiset.cons_add, ← Multiset.add_cons, Multiset.cons_erase hmem]
      refine ⟨⟨?_, ?_, h.sized⟩, fun _ _ => rfl⟩
      · rw [hsame]
        exact h.nodup
      · rw [hsame]
        exact h.bound
  | none =>
      refine ⟨⟨?_, ?_, ?_⟩, fun b hb => Buffers.read_append _ (h.lt hb)⟩
      · rw [Multiset.cons_add, Multiset.nodup_cons]
        exact ⟨fun hmem => absurd (h.bound _ hmem) (Nat.lt_irrefl _), h.nodup⟩
      · intro b hb
        rw [Multiset.cons_add, Multiset.mem_cons] at hb
        rw [List.length_append, List.length_singleton]
        rcases hb with rfl | hb
        · exact Nat.lt_succ_self _
        · exact (h.bound b hb).trans (Nat.lt_succ_self _)
      · intro x hx
        rcases List.mem_append.mp hx with hx | hx
        · exact h.sized x hx
        · rw [List.mem_singleton.mp hx, List.length_replicate]

theorem Owned.notMem (h : p.Owned size (b ::ₘ held)) : b ∉ held := by
  have hnodup := Multiset.nodup_of_le (Multiset.le_add_right _ _) h.nodup
  exact (Multiset.nodup_cons.mp hnodup).1

theorem Owned.put (h : p.Owned size (b ::ₘ held)) : (p.put b).Owned size held := by
  have hsame : held + ↑(b :: p.free) = b ::ₘ held + ↑p.free := by
    rw [← Multiset.cons_coe, Multiset.add_cons, Multiset.cons_add]
  refine ⟨?_, ?_, h.sized⟩
  · rw [BufferPool.put, hsame]
    exact h.nodup
  · rw [BufferPool.put, hsame]
    exact h.bound

theorem Owned.collect (h : p.Owned size held) (i : Nat) : (p.collect i).Owned size held := by
  have hle : held + ↑(p.free.eraseIdx i) ≤ held + ↑p.free :=
    Multiset.add_le_add_iff_left.mpr (Multiset.coe_le.mpr (List.eraseIdx_sublist p.free i).subperm)
  refine ⟨Multiset.nodup_of_le hle h.nodup, fun b hb => h.bound b (Multiset.mem_of_le hle hb), h.sized⟩

theorem Owned.write (h : p.Owned size held) (b : Nat) (hdata : data.length ≤ size) :
    (p.write b data).Owned size held := by
  refine ⟨h.nodup, fun b' hb' => ?_, fun x hx => ?_⟩
  · rw [BufferPool.write, List.length_modify]
    exact h.bound b' hb'
  · obtain ⟨i, hi, hx⟩ := List.getElem_of_mem hx
    rw [BufferPool.write, List.length_modify] at hi
    have hlen := h.sized _ (List.getElem_mem hi)
    rw [← hx]
    simp only [BufferPool.write, List.getElem_modify]
    split
    · rw [List.length_append, List.length_drop, hlen]
      omega
    · exact hlen

theorem read_write_ne (hne : b' ≠ b) : (p.write b data).bufs.read b' = p.bufs.read b' := by
  simp [BufferPool.write, Buffers.read, hne.symm]

theorem take_read_write (hb : b < p.bufs.length) :
    ((p.write b data).bufs.read b).take data.length = data := by
  simp [BufferPool.write, Buffers.read, hb]

end BufferPool

end Lib
