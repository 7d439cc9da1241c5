import Mathlib.Data.List.AList
import Mathlib.Data.List.Perm.Subperm
import Mathlib.Algebra.BigOperators.Group.List.Basic
import Mathlib.Data.Finset.Card

/-!
# Finite maps

A Go `map` is an association list without repeated keys, Mathlib's `AList` at a constant family. The
lemmas here are the ones a program that counts the entries of a map by a property of their key needs:
how one insertion or deletion moves the count, and that a map with fewer keys counts less. `total` adds
up a quantity over all entries and moves with them in the same way.
-/

namespace Lib

abbrev GoMap (κ α : Type) := AList fun _ : κ => α

/-- What one turn of a loop makes true and the others keep is true behind it. -/
theorem foldl_of_mem {α β : Type} {f : β → α → β} {P : β → Prop} (hkeep : ∀ b a, P b → P (f b a))
    {a : α} (hmake : ∀ b, P (f b a)) {l : List α} (ha : a ∈ l) (b : β) : P (l.foldl f b) := by
  obtain ⟨front, back, rfl⟩ := List.append_of_mem ha
  rw [List.foldl_append, List.foldl_cons]
  exact List.foldlRecOn back f (hmake _) fun b h a _ => hkeep b a h

/-- A loop each turn of which changes what belongs to its own key only, as told by what was there. -/
theorem foldl_own {σ κ β : Type} [DecidableEq κ] {f : σ → κ → σ} (get : κ → σ → β) (g : κ → β → β)
    (hown : ∀ s k, get k (f s k) = g k (get k s))
    (hother : ∀ s k k', k' ≠ k → get k' (f s k) = get k' s) {ks : List κ} (hnodup : ks.Nodup) (s : σ) (k : κ) :
    get k (ks.foldl f s) = if k ∈ ks then g k (get k s) else get k s := by
  induction ks generalizing s with
  | nil => rfl
  | cons k' ks ih =>
      obtain ⟨hnot, hnodup⟩ := List.nodup_cons.mp hnodup
      rw [List.foldl_cons, ih hnodup]
      by_cases hk : k = k'
      · subst hk
        rw [if_neg hnot, if_pos List.mem_cons_self, hown]
      · rw [hother s k' k hk]
        simp only [List.mem_cons, hk, false_or]

/-- The order in which a `range` loop visits the keys of a map: any order. -/
structure RangeOrder (κ : Type) where
  visit : List κ → List κ
  perm : ∀ keys, (visit keys).Perm keys

/-- The order the keys are kept in. -/
def RangeOrder.asKept (κ : Type) : RangeOrder κ := ⟨id, fun _ => .rfl⟩

namespace GoMap

variable {κ α : Type}

/-- `len(m)`. -/
def size (m : GoMap κ α) : Nat := m.keys.length

/-- How many keys of the map have the property `p`. -/
def count (p : κ → Bool) (m : GoMap κ α) : Nat := m.keys.countP p

theorem count_le_size (p : κ → Bool) (m : GoMap κ α) : count p m ≤ size m :=
  List.countP_le_length

theorem count_mono {m m' : GoMap κ α} (p : κ → Bool) (hsub : ∀ k, k ∈ m' → k ∈ m) :
    count p m' ≤ count p m :=
  (List.Nodup.subperm m'.keys_nodup fun k hk => hsub k hk).countP_le p

theorem size_eq_count (m : GoMap κ α) : size m = count (fun _ => true) m := by
  rw [size, count, List.countP_true]

theorem size_mono {β : Type} {m : GoMap κ α} {m' : GoMap κ β} (hsub : ∀ k, k ∈ m' → k ∈ m) :
    size m' ≤ size m :=
  (List.Nodup.subperm m'.keys_nodup fun k hk => hsub k hk).length_le

theorem count_pos_of_mem {m : GoMap κ α} {k : κ} {p : κ → Bool} (h : k ∈ m) (hk : p k = true) :
    0 < count p m :=
  List.countP_pos_iff.mpr ⟨k, AList.mem_keys.mp h, hk⟩

/-- The sum of a quantity over all entries. -/
def total {M : Type} [AddCommMonoid M] (f : κ → α → M) (m : GoMap κ α) : M := (m.entries.map fun x => f x.1 x.2).sum

/-- Entries of a bounded quantity. -/
theorem total_le_mul {f : κ → α → Nat} {m : GoMap κ α} {c : Nat} (h : ∀ x ∈ m.entries, f x.1 x.2 ≤ c) :
    total f m ≤ size m * c := by
  have hlist : ∀ l : List (Sigma fun _ : κ => α), (∀ x ∈ l, f x.1 x.2 ≤ c) →
      (l.map fun x => f x.1 x.2).sum ≤ l.length * c := by
    intro l
    induction l with
    | nil =>
        intro _
        exact Nat.zero_le _
    | cons x l ih =>
        intro h
        have hx := h x List.mem_cons_self
        have hl := ih fun y hy => h y (List.mem_cons_of_mem x hy)
        rw [List.map_cons, List.sum_cons, List.length_cons, Nat.succ_mul]
        omega
  have hlen : size m = m.entries.length := List.length_map _
  rw [hlen]
  exact hlist m.entries h

/-- Keys that fall into `n` classes of bounded size. -/
theorem size_le_mul {m : GoMap κ α} {f : κ → Nat} {n c : Nat} (hf : ∀ k, f k < n)
    (hcount : ∀ i, count (fun k => f k = i) m ≤ c) : size m ≤ n * c := by
  have hbelow : ∀ n, m.keys.countP (fun k => f k < n) ≤ n * c := by
    intro n
    induction n with
    | zero => simp
    | succ n ih =>
        have hsplit : ∀ keys : List κ, keys.countP (fun k => f k < n + 1) =
            keys.countP (fun k => f k < n) + keys.countP fun k => f k = n := by
          intro keys
          induction keys with
          | nil => rfl
          | cons k keys ih =>
              simp only [List.countP_cons, ih, decide_eq_true_eq]
              split_ifs <;> omega
        have hclass := hcount n
        rw [count] at hclass
        rw [hsplit, Nat.succ_mul]
        omega
  have hall : size m = m.keys.countP fun k => f k < n := by
    rw [size, List.countP_eq_length.mpr fun k _ => decide_eq_true (hf k)]
  rw [hall]
  exact hbelow n

theorem total_empty {M : Type} [AddCommMonoid M] {f : κ → α → M} : total f ∅ = 0 := rfl

variable [DecidableEq κ]

theorem lookup_insert_if (k k' : κ) (v : α) (m : GoMap κ α) :
    (m.insert k v).lookup k' = if k' = k then some v else m.lookup k' := by
  split
  · subst k'
    exact AList.lookup_insert m
  · exact AList.lookup_insert_ne ‹_›

theorem lookup_erase_if (k k' : κ) (m : GoMap κ α) :
    (m.erase k).lookup k' = if k' = k then none else m.lookup k' := by
  split
  · subst k'
    exact AList.lookup_erase _ m
  · exact AList.lookup_erase_ne ‹_›

theorem mem_of_lookup {m : GoMap κ α} {k : κ} {v : α} (h : m.lookup k = some v) : k ∈ m :=
  AList.lookup_isSome.mp (by rw [h]; rfl)

theorem lookup_of_mem {m : GoMap κ α} {k : κ} (h : k ∈ m) : ∃ v, m.lookup k = some v :=
  Option.isSome_iff_exists.mp (AList.lookup_isSome.mpr h)

theorem count_insert_of_mem {m : GoMap κ α} {k : κ} (p : κ → Bool) (v : α) (h : k ∈ m) :
    count p (m.insert k v) = count p m := by
  rw [count, count, AList.keys_insert]
  exact (List.perm_cons_erase (AList.mem_keys.mp h)).symm.countP_eq p

theorem count_insert_of_notMem {m : GoMap κ α} {k : κ} (p : κ → Bool) (v : α) (h : k ∉ m) :
    count p (m.insert k v) = count p m + if p k then 1 else 0 := by
  rw [count, count, AList.keys_insert, List.erase_of_not_mem fun hk => h (AList.mem_keys.mpr hk),
    List.countP_cons]

theorem mem_insert_if {m : GoMap κ α} {k k' : κ} {v : α} : k' ∈ m.insert k v ↔ k' = k ∨ k' ∈ m :=
  AList.mem_insert m

theorem count_erase_of_mem {m : GoMap κ α} {k : κ} (p : κ → Bool) (h : k ∈ m) :
    count p (m.erase k) + (if p k then 1 else 0) = count p m := by
  rw [count, count, AList.keys_erase, (List.perm_cons_erase (AList.mem_keys.mp h)).countP_eq p,
    List.countP_cons]

theorem erase_of_notMem {m : GoMap κ α} {k : κ} (h : k ∉ m) : m.erase k = m := by
  apply AList.ext
  exact List.kerase_of_notMem_keys h

theorem erase_insert (k : κ) (v : α) (m : GoMap κ α) : (m.insert k v).erase k = m.erase k := by
  apply AList.ext
  show List.kerase k (List.kinsert k v m.entries) = List.kerase k m.entries
  rw [List.kinsert_def]
  exact List.kerase_cons_eq rfl

theorem size_insert_of_mem {m : GoMap κ α} {k : κ} (v : α) (h : k ∈ m) :
    size (m.insert k v) = size m := by
  rw [size_eq_count, size_eq_count, count_insert_of_mem _ _ h]

theorem size_insert_of_notMem {m : GoMap κ α} {k : κ} (v : α) (h : k ∉ m) :
    size (m.insert k v) = size m + 1 := by
  rw [size_eq_count, size_eq_count, count_insert_of_notMem _ _ h, if_pos rfl]

theorem size_insert_le (k : κ) (v : α) (m : GoMap κ α) : size (m.insert k v) ≤ size m + 1 := by
  by_cases h : k ∈ m
  · rw [size_insert_of_mem v h]
    exact Nat.le_succ _
  · rw [size_insert_of_notMem v h]

theorem size_erase_of_mem {m : GoMap κ α} {k : κ} (h : k ∈ m) : size (m.erase k) + 1 = size m := by
  rw [size_eq_count, size_eq_count, ← count_erase_of_mem _ h, if_pos rfl]

/-- A map whose keys are from a set, and that lacks one of them, has fewer keys than the set. -/
theorem size_lt_card {m : GoMap κ α} {k : κ} {S : Finset κ} (hsub : ∀ k' ∈ m, k' ∈ S) (hk : k ∈ S)
    (hnew : k ∉ m) : size m < S.card := by
  have hnodup : (k :: m.keys).Nodup := List.nodup_cons.mpr ⟨hnew, m.keys_nodup⟩
  have hcard : (k :: m.keys).toFinset.card ≤ S.card := by
    apply Finset.card_le_card
    intro k' hk'
    rcases List.mem_cons.mp (List.mem_toFinset.mp hk') with rfl | hk'
    · exact hk
    · exact hsub k' hk'
  rw [List.toFinset_card_of_nodup hnodup] at hcard
  exact hcard

/-- Deleting a list of keys of the map. -/
theorem count_foldl_erase (p : κ → Bool) {ks : List κ} (hnodup : ks.Nodup) {m : GoMap κ α}
    (hmem : ∀ k ∈ ks, k ∈ m) :
    count p (ks.foldl (fun m k => m.erase k) m) + ks.countP p = count p m := by
  induction ks generalizing m with
  | nil => rfl
  | cons k ks ih =>
      obtain ⟨hnot, hnodup⟩ := List.nodup_cons.mp hnodup
      have hrest : ∀ k' ∈ ks, k' ∈ m.erase k := by
        intro k' hk'
        refine AList.mem_erase.mpr ⟨?_, hmem k' (List.mem_cons_of_mem k hk')⟩
        rintro rfl
        exact hnot hk'
      rw [List.foldl_cons, List.countP_cons, ← Nat.add_assoc, ih hnodup hrest,
        count_erase_of_mem p (hmem k List.mem_cons_self)]

/-! ### Totals -/

section

variable {M : Type} [AddCommMonoid M] {f : κ → α → M} {m : GoMap κ α} {k : κ} {v w : α}

theorem total_erase (h : m.lookup k = some v) : f k v + total f (m.erase k) = total f m := by
  obtain ⟨w, front, back, hfront, hentries, herase⟩ :=
    List.exists_of_kerase (AList.mem_keys.mp (mem_of_lookup h))
  have hvw : w = v := by
    have hlook : m.lookup k = some w := AList.mem_lookup_iff.mpr (by rw [hentries]; simp)
    rw [h] at hlook
    exact (Option.some.inj hlook).symm
  have hsplit : (m.erase k).entries = front ++ back := herase
  rw [total, total, hsplit, hentries, hvw]
  simp only [List.map_append, List.map_cons, List.sum_append, List.sum_cons]
  exact add_left_comm _ _ _

theorem total_insert_erase : total f (m.insert k v) = f k v + total f (m.erase k) := by
  rw [total, AList.entries_insert, List.map_cons, List.sum_cons]
  rfl

theorem total_insert_of_notMem (h : k ∉ m) : total f (m.insert k v) = f k v + total f m := by
  rw [total_insert_erase, erase_of_notMem h]

theorem total_insert_of_lookup (h : m.lookup k = some w) :
    f k w + total f (m.insert k v) = f k v + total f m := by
  rw [total_insert_erase, add_left_comm, total_erase h]

theorem le_total {f : κ → α → Nat} (h : m.lookup k = some v) : f k v ≤ total f m := by
  rw [← total_erase h]
  exact Nat.le_add_right _ _

/-- A map with fewer keys and smaller quantities has the smaller total. -/
theorem total_mono {f : κ → α → Nat} {m m' : GoMap κ α}
    (h : ∀ k v', m'.lookup k = some v' → ∃ v, m.lookup k = some v ∧ f k v' ≤ f k v) :
    total f m' ≤ total f m := by
  induction m' using AList.insertRec generalizing m with
  | H0 => exact Nat.zero_le _
  | IH k v' m' hk ih =>
      obtain ⟨v, hv, hle⟩ := h k v' (AList.lookup_insert m')
      have hrest : total f m' ≤ total f (m.erase k) := by
        apply ih
        intro k₁ v₁ hv₁
        have hne : k₁ ≠ k := by
          rintro rfl
          exact hk (mem_of_lookup hv₁)
        rw [AList.lookup_erase_ne hne]
        exact h k₁ v₁ (by rw [AList.lookup_insert_ne hne, hv₁])
      rw [total_insert_of_notMem hk, ← total_erase hv]
      exact Nat.add_le_add hle hrest

/-- The keys with a property, as a set and as a total. -/
theorem card_eq_total {p : κ → α → Bool} {m : GoMap κ α} {S : Finset κ}
    (h : ∀ k, k ∈ S ↔ ∃ v, m.lookup k = some v ∧ p k v = true) :
    S.card = total (fun k v => if p k v then 1 else 0) m := by
  induction m using AList.insertRec generalizing S with
  | H0 =>
      rw [total_empty, Finset.card_eq_zero]
      ext k
      simp [h]
  | IH k v m hk ih =>
      have hnone : m.lookup k = none := AList.lookup_eq_none.mpr hk
      have hrest : (S.erase k).card = total (fun k v => if p k v then 1 else 0) m := by
        apply ih
        intro k₁
        rw [Finset.mem_erase, h]
        by_cases heq : k₁ = k
        · subst heq
          simp [hnone]
        · simp [heq]
      rw [total_insert_of_notMem hk, ← hrest]
      by_cases hp : p k v = true
      · have hmem : k ∈ S := (h k).mpr ⟨v, AList.lookup_insert m, hp⟩
        rw [if_pos hp, ← Finset.card_erase_add_one hmem, Nat.add_comm]
      · have hnot : k ∉ S := by
          rw [h]
          rintro ⟨w, hw, hpw⟩
          rw [AList.lookup_insert] at hw
          cases hw
          exact hp hpw
        rw [if_neg hp, Nat.zero_add, Finset.erase_eq_of_notMem hnot]

end

end GoMap

end Lib
