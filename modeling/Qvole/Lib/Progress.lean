import Mathlib.Data.Prod.Lex
import Mathlib.Logic.Hydra
import Mathlib.Logic.Relation
import Qvole.Lib.Pool

/-!
# Threads that get finished

A run of a pool says what its threads may do, not that their work gets done. Two facts say that. If every
thread that waits, waits for one of a higher level, then one of the highest level does not wait, so there is
no deadlock. If every step of a thread lowers its rank in a well-founded order, then the ranks of all
threads together cannot fall forever, whoever moves, so there is no livelock.

Some steps are not meant to get anywhere, such as those of a clock. They may come in any number as long as they
do not undo what the others have done.
-/

namespace Lib

section

variable {α : Type} {idles advances : α → α → Prop} {I : α → Prop} (rank : α → Nat)

/-- If steps that advance lower a rank that idle steps do not raise, then only finitely many steps advance,
however many idle ones come in between. -/
theorem acc_advances_of_rank (hidles : ∀ a b, I a → idles a b → I b ∧ rank b ≤ rank a)
    (hadvances : ∀ a b, I a → advances a b → I b ∧ rank b < rank a) {a : α} (hI : I a) :
    Acc (fun c a => ∃ b, Relation.ReflTransGen idles a b ∧ advances b c) a := by
  have hidle : ∀ {a b}, I a → Relation.ReflTransGen idles a b → I b ∧ rank b ≤ rank a := by
    intro a b hI hsteps
    induction hsteps with
    | refl => exact ⟨hI, le_refl _⟩
    | tail _ hstep ih =>
        obtain ⟨hI', hle⟩ := hidles _ _ ih.1 hstep
        exact ⟨hI', hle.trans ih.2⟩
  induction hrank : rank a using Nat.strong_induction_on generalizing a with
  | _ n ih =>
      refine .intro a fun c hstep => ?_
      obtain ⟨b, hsteps, hadvance⟩ := hstep
      obtain ⟨hIb, hle⟩ := hidle hI hsteps
      obtain ⟨hIc, hlt⟩ := hadvances b c hIb hadvance
      exact ih (rank c) (by omega) hIc rfl

end

namespace Pool

variable {σ τ : Type} (next : σ → Int → τ → Option (σ × τ)) (finished : τ → Prop)

def Moves (now : Int) (p p' : Pool σ τ) : Prop :=
  ∃ i t s t', p.threads[i]? = some t ∧ next p.shared now t = some (s, t') ∧ p' = ⟨s, p.threads.set i t'⟩

/-- Whoever moves, at whatever times, some thread can move until all are finished, and they come to that. -/
inductive Finishes : Pool σ τ → Prop
  | intro {p : Pool σ τ} (hmove : (∃ t ∈ p.threads, ¬ finished t) → ∀ now, ∃ p', Moves next now p p')
      (hnext : ∀ now p', Moves next now p p' → Finishes p') : Finishes p

variable {next finished} {p p' : Pool σ τ} {now : Int}

theorem exists_move_of_level {level : τ → Nat} (hex : ∃ t ∈ p.threads, ¬ finished t)
    (hwait : ∀ t ∈ p.threads, ¬ finished t → next p.shared now t = none →
      ∃ t' ∈ p.threads, ¬ finished t' ∧ level t < level t') : ∃ p', Moves next now p p' := by
  obtain ⟨t, ⟨ht, hopen⟩, hhighest⟩ := Set.exists_max_image {t | t ∈ p.threads ∧ ¬ finished t} level
    ((List.finite_toSet p.threads).subset fun t ht => ht.1) hex
  cases hnext : next p.shared now t with
  | none =>
      obtain ⟨t', ht', hopen', hlt⟩ := hwait t ht hopen hnext
      exact absurd (hhighest t' ⟨ht', hopen'⟩) (Nat.not_le_of_lt hlt)
  | some r =>
      obtain ⟨i, hi⟩ := List.mem_iff_getElem?.mp ht
      exact ⟨_, i, t, r.1, r.2, hi, hnext, rfl⟩

section

variable {α : Type} {r : α → α → Prop} {rank : τ → α}

/-- A step takes the rank of the thread that moves out of all ranks and puts a lower one in its place. -/
theorem Moves.cutExpand (hmove : Moves next now p p')
    (hrank : ∀ s t s' t', next s now t = some (s', t') → r (rank t') (rank t)) :
    Relation.CutExpand r (sum (fun t => {rank t}) p') (sum (fun t => {rank t}) p) := by
  obtain ⟨i, t, s, t', ht, hnext, rfl⟩ := hmove
  refine ⟨{rank t'}, rank t, ?_, ?_⟩
  · intro a ha
    rw [Multiset.mem_singleton.mp ha]
    exact hrank _ _ _ _ hnext
  · rw [add_comm, add_comm (sum _ p)]
    exact sum_run (fun t => ({rank t} : Multiset α)) s t' ht

theorem finishes_of_rank {I : Pool σ τ → Prop} (hwf : WellFounded r)
    (hrank : ∀ s now t s' t', next s now t = some (s', t') → r (rank t') (rank t))
    (hkeep : ∀ p now p', I p → Moves next now p p' → I p')
    (hprogress : ∀ p now, I p → (∃ t ∈ p.threads, ¬ finished t) → ∃ p', Moves next now p p')
    (hI : I p) : Finishes next finished p := by
  induction hm : sum (fun t => ({rank t} : Multiset α)) p using hwf.cutExpand.induction generalizing p with
  | _ m ih =>
      refine .intro (fun hopen now => hprogress p now hI hopen) fun now p' hmove => ?_
      apply ih _ _ (hkeep p now p' hI hmove) rfl
      rw [← hm]
      exact hmove.cutExpand fun s t s' t' => hrank s now t s' t'

end

theorem mem_sum {α : Type} {f : τ → Multiset α} {a : α} (ha : a ∈ sum f p) : ∃ t ∈ p.threads, a ∈ f t := by
  have hlist : ∀ l : List τ, a ∈ (l.map f).sum → ∃ t ∈ l, a ∈ f t := by
    intro l
    induction l with
    | nil =>
        intro ha
        cases ha
    | cons t l ih =>
        intro ha
        rw [List.map_cons, List.sum_cons, Multiset.mem_add] at ha
        rcases ha with ha | ha
        · exact ⟨t, List.mem_cons_self, ha⟩
        · obtain ⟨t', ht', ha'⟩ := ih ha
          exact ⟨t', List.mem_cons_of_mem t ht', ha'⟩
  exact hlist p.threads ha

end Pool

end Lib
