import Mathlib.Algebra.Order.BigOperators.Group.List
import Mathlib.Data.Multiset.OrderedMonoid
import Mathlib.Logic.Relation
import Qvole.Lib.Machine

/-!
# Threads over a shared state

Any number of threads run over one shared state. A thread is what it has still to do; `next` is its next
atomic step, which reads and changes the shared state, and is `none` while the thread is blocked or when
it has nothing left to do. Who moves is up to the scheduler. Its turns are the inputs of a machine, so a
run of the machine is an interleaving, and what holds in all runs holds for all interleavings.
-/

namespace Lib

structure Pool (σ τ : Type) where
  shared : σ
  threads : List τ

/-- A new call is made, or one of the threads makes its next step. -/
inductive Turn (κ : Type)
  | call (c : κ)
  | run (i : Nat)

namespace Pool

variable {σ τ κ : Type} (start : κ → τ) (next : σ → Int → τ → Option (σ × τ))

def turn (p : Pool σ τ) (now : Int) : Turn κ → Pool σ τ
  | .call c => { p with threads := p.threads ++ [start c] }
  | .run i =>
    match p.threads[i]? with
    | none => p
    | some t =>
      match next p.shared now t with
      | none => p
      | some (s, t') => ⟨s, p.threads.set i t'⟩

def machine (init : σ) : Machine (Pool σ τ) (Turn κ) Unit where
  init := ⟨init, []⟩
  step p now e := (turn start next p now e, [])

variable {start next} {init : σ} {p : Pool σ τ} {i : Nat} {t t' : τ} {s s' : σ} {now : Int}

/-- A thread of the pool after a step is the one that moved or another one. -/
theorem getElem?_set_cases {j : Nat} {l : List τ} (h : (l.set i t')[j]? = some t) :
    (i = j ∧ t = t') ∨ (i ≠ j ∧ l[j]? = some t) := by
  rw [List.getElem?_set] at h
  split at h
  · rename_i hij
    split at h
    · cases h
      exact Or.inl ⟨hij, rfl⟩
    · cases h
  · rename_i hij
    exact Or.inr ⟨hij, h⟩

/-- A thread of the pool after a call is the new one or an old one. -/
theorem getElem?_call_cases {l : List τ} (h : (l ++ [t'])[i]? = some t) : l[i]? = some t ∨ t = t' := by
  rw [List.getElem?_append] at h
  split at h
  · exact Or.inl h
  · exact Or.inr (List.mem_singleton.mp (List.mem_of_getElem? h))

theorem turn_run (ht : p.threads[i]? = some t) (hnext : next p.shared now t = some (s, t')) :
    turn start next p now (.run i) = ⟨s, p.threads.set i t'⟩ := by
  simp only [turn, ht, hnext]

theorem can_run {log : List (LogEntry (Turn κ) Unit)} {ok : Pool σ τ → Int → Turn κ → Prop}
    (hrun : (machine start next init).Run ok log p) (hclock : ∀ x ∈ log.head?, x.time ≤ now)
    (hok : ok p now (.run i)) (ht : p.threads[i]? = some t) (hnext : next p.shared now t = some (s, t')) :
    (machine start next init).Can ok log now (· = ⟨s, p.threads.set i t'⟩) := by
  refine hrun.can_step (.run i) hclock hok ?_
  show turn start next p now (.run i) = _
  exact turn_run ht hnext

/-- What holds before any call, is kept by calls and by every step of a thread that meets the condition,
holds under every interleaving of such steps. -/
theorem invariant {I : Pool σ τ → Prop} {ok : Pool σ τ → Int → Turn κ → Prop}
    {log : List (LogEntry (Turn κ) Unit)} (hrun : (machine start next init).Run ok log p)
    (hinit : I ⟨init, []⟩)
    (hcall : ∀ p c, I p → I { p with threads := p.threads ++ [start c] })
    (hstep : ∀ p now i t s t', I p → ok p now (.run i) → p.threads[i]? = some t →
      next p.shared now t = some (s, t') → I ⟨s, p.threads.set i t'⟩) : I p := by
  refine hrun.invariant hinit fun p now e h hok => ?_
  show I (turn start next p now e)
  cases e with
  | call c => exact hcall p c h
  | run i =>
      rw [turn]
      cases ht : p.threads[i]? with
      | none => exact h
      | some t =>
          dsimp only
          cases hnext : next p.shared now t with
          | none => exact h
          | some r => exact hstep p now i t r.1 r.2 h hok ht hnext

/-! ### A quantity of all threads together -/

section

variable {M : Type} [AddCommMonoid M] (f : τ → M)

def sum (p : Pool σ τ) : M := (p.threads.map f).sum

theorem sum_call (p : Pool σ τ) (t : τ) :
    sum f { p with threads := p.threads ++ [t] } = sum f p + f t := by
  simp [sum]

/-- One thread trades its share. -/
theorem sum_run (s : σ) (t' : τ) (ht : p.threads[i]? = some t) :
    f t + sum f ⟨s, p.threads.set i t'⟩ = f t' + sum f p := by
  have hset : ∀ (l : List τ) (i : Nat), l[i]? = some t →
      f t + ((l.set i t').map f).sum = f t' + (l.map f).sum := by
    intro l
    induction l with
    | nil =>
        intro i hi
        cases hi
    | cons x l ih =>
        intro i hi
        cases i with
        | zero =>
            cases hi
            simp only [List.set_cons_zero, List.map_cons, List.sum_cons]
            exact add_left_comm _ _ _
        | succ i =>
            simp only [List.set_cons_succ, List.map_cons, List.sum_cons]
            rw [add_left_comm, ih i hi, add_left_comm]
  exact hset p.threads i ht

variable {f} in
/-- One thread trades with the outside. -/
theorem add_sum_run [IsLeftCancelAdd M] {a b : M} (s : σ) (ht : p.threads[i]? = some t)
    (htrade : a + f t' = b + f t) : a + sum f ⟨s, p.threads.set i t'⟩ = b + sum f p := by
  apply add_left_cancel (a := f t)
  calc
    f t + (a + sum f ⟨s, p.threads.set i t'⟩) = a + (f t' + sum f p) := by
      rw [add_left_comm, sum_run f s t' ht]
    _ = f t + (b + sum f p) := by
      rw [← add_assoc, htrade, add_comm b, add_assoc]

theorem le_sum [Preorder M] [CanonicallyOrderedAdd M] (ht : p.threads[i]? = some t) :
    f t ≤ sum f p := by
  apply List.le_sum_of_mem
  exact List.mem_map_of_mem (List.mem_of_getElem? ht)

/-- Two threads have no more than all of them. -/
theorem add_le_sum [Preorder M] [CanonicallyOrderedAdd M] [AddLeftMono M] {j : Nat} (hij : i ≠ j)
    (ht : p.threads[i]? = some t) (ht' : p.threads[j]? = some t') : f t + f t' ≤ sum f p := by
  have hlist : ∀ (l : List τ) (i j : Nat), i ≠ j → l[i]? = some t → l[j]? = some t' →
      f t + f t' ≤ (l.map f).sum := by
    intro l
    induction l with
    | nil =>
        intro i j _ hi
        cases hi
    | cons x l ih =>
        intro i j hij hi hj
        rw [List.map_cons, List.sum_cons]
        cases i with
        | zero =>
            cases j with
            | zero => exact absurd rfl hij
            | succ j =>
                cases hi
                have hle : f t' ≤ (l.map f).sum :=
                  List.le_sum_of_mem (List.mem_map_of_mem (List.mem_of_getElem? hj))
                gcongr
        | succ i =>
            cases j with
            | zero =>
                cases hj
                have hle : f t ≤ (l.map f).sum :=
                  List.le_sum_of_mem (List.mem_map_of_mem (List.mem_of_getElem? hi))
                rw [add_comm]
                gcongr
            | succ j =>
                have hle := ih i j (by omega) hi hj
                exact hle.trans (le_add_self)
  exact hlist p.threads i j hij ht ht'

end

/-- What all threads have together without repetition, no two of them share. -/
theorem disjoint_of_nodup {κ : Type} {f : τ → Multiset κ} (hnodup : (p.sum f).Nodup) {j : Nat} (hij : i ≠ j)
    (ht : p.threads[i]? = some t) (ht' : p.threads[j]? = some t') : Disjoint (f t) (f t') :=
  (Multiset.nodup_add.mp (Multiset.nodup_of_le (add_le_sum f hij ht ht') hnodup)).2.2

theorem exists_ne_zero {f : τ → Nat} (h : p.sum f ≠ 0) : ∃ (i : Nat) (t : τ), p.threads[i]? = some t ∧ f t ≠ 0 := by
  by_contra hnone
  push Not at hnone
  refine h (List.sum_eq_zero fun n hn => ?_)
  obtain ⟨t, ht, rfl⟩ := List.mem_map.mp hn
  obtain ⟨i, hi⟩ := List.mem_iff_getElem?.mp ht
  exact hnone i t hi

/-- Where every thread with something in its hands can put it down in one step, all of them can, one after
the other. -/
theorem can_collect {I : Pool σ τ → Prop} {f : τ → Nat} {g : σ → Nat}
    {log : List (LogEntry (Turn κ) Unit)}
    (hkeep : ∀ p (i : Nat) t s t', I p → p.threads[i]? = some t → next p.shared now t = some (s, t') →
      I ⟨s, p.threads.set i t'⟩)
    (hput : ∀ p (i : Nat) t, I p → p.threads[i]? = some t → f t ≠ 0 →
      ∃ s t', next p.shared now t = some (s, t') ∧ f t' = 0 ∧ g s = g p.shared + f t)
    (hrun : (machine start next init).Run (fun _ _ _ => True) log p)
    (hclock : ∀ x ∈ log.head?, x.time ≤ now) (h : I p) :
    (machine start next init).Can (fun _ _ _ => True) log now
      fun p' => g p'.shared = g p.shared + p.sum f := by
  induction hn : p.sum f using Nat.strong_induction_on generalizing p log with
  | _ n ih =>
      by_cases hzero : p.sum f = 0
      · refine hrun.can hclock ?_
        omega
      obtain ⟨i, t, ht, hf⟩ := exists_ne_zero hzero
      obtain ⟨s, t', hnext, hf', hg⟩ := hput p i t h ht hf
      have hsum := sum_run f s t' ht
      refine (can_run hrun hclock trivial ht hnext).bind fun log' p' hrun' hclock' hp' => ?_
      subst hp'
      have hrest := ih _ (by omega) hrun' hclock' (hkeep p i t s t' h ht hnext) rfl
      refine hrest.mono fun p' hp' => ?_
      dsimp only at hp'
      omega

/-! ### A thread that nobody interrupts -/

variable (next now) in
/-- The thread makes any number of steps on its own. -/
abbrev Alone : σ × τ → σ × τ → Prop := Relation.ReflTransGen fun a b => next a.1 now a.2 = some b

/-- In the pool it can do the same, when the others wait. -/
theorem Alone.steps {a b : σ × τ} (halone : Alone next now a b) (hs : p.shared = a.1)
    (ht : p.threads[i]? = some a.2) : ∃ log, (machine start next init).Steps (fun _ _ _ => True) p log
      ⟨b.1, p.threads.set i b.2⟩ := by
  induction halone with
  | refl =>
      have hsame : p.threads.set i a.2 = p.threads := by
        obtain ⟨hi, heq⟩ := List.getElem?_eq_some_iff.mp ht
        rw [← heq, List.set_getElem_self]
      rw [hsame, ← hs]
      exact ⟨[], .refl p⟩
  | @tail b c _ hnext ih =>
      obtain ⟨log, hsteps⟩ := ih
      have hi : i < p.threads.length := (List.getElem?_eq_some_iff.mp ht).1
      have hstep := hsteps.step now (.run i) trivial
      have hturn : ((machine start next init).step ⟨b.1, p.threads.set i b.2⟩ now (.run i)).1 =
          ⟨c.1, p.threads.set i c.2⟩ := by
        have hrun : turn start next ⟨b.1, p.threads.set i b.2⟩ now (.run i) =
            ⟨c.1, (p.threads.set i b.2).set i c.2⟩ := turn_run (List.getElem?_set_self hi) hnext
        rw [List.set_set] at hrun
        exact hrun
      rw [hturn] at hstep
      exact ⟨_, hstep⟩

end Pool

end Lib
