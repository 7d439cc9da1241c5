import Qvole.App.Request
import Qvole.Lib.NetText

/-!
# Splitting a specification

`SplitTunnelRequest` cuts a specification at the colons outside of brackets. It loses nothing: the
pieces joined with colons are the specification, each of them is free of colons to cut at, and there is
one more of them than such colons. It refuses exactly the texts whose brackets do not match.

The loop in the source keeps the offset a piece starts at and slices the text; `splitLoop` keeps the
piece. The source ranges over runes, of which the three it looks at are bytes that are part of no other.
-/

namespace Qvole.App

open Lib

variable {s spec cur : Bytes} {c : UInt8} {d : Int} {depth : Nat} {parts : List Bytes}

/-! ### The loop on offsets -/

/-- `spec[start:i]`. -/
def slice (spec : Bytes) (start i : Nat) : Bytes := (spec.take i).drop start

/-- The loop of `SplitTunnelRequest` as it is written: `i` is the offset of the byte at hand, which is
the first of `s`. -/
def sliceLoop (spec : Bytes) : Nat → Nat → Nat → List Bytes → Bytes → Option (List Bytes)
  | _, depth, start, parts, [] => if depth ≠ 0 then none else some (parts ++ [spec.drop start])
  | i, depth, start, parts, c :: s =>
    if c = 91 then sliceLoop spec (i + 1) (depth + 1) start parts s
    else if c = 93 then
      if depth = 0 then none else sliceLoop spec (i + 1) (depth - 1) start parts s
    else if c = 58 ∧ depth = 0 then sliceLoop spec (i + 1) depth (i + 1) (parts ++ [slice spec start i]) s
    else sliceLoop spec (i + 1) depth start parts s

/-- What is left of the text behind the start of the piece is the piece so far and what was not read
yet. -/
theorem sliceLoop_eq_splitLoop {start i : Nat} (hrest : spec.drop start = cur.reverse ++ s)
    (hi : i = start + cur.length) :
    sliceLoop spec i depth start parts s = (splitLoop depth cur s).map (parts ++ ·) := by
  induction s generalizing start i cur depth parts with
  | nil =>
      rw [sliceLoop, splitLoop, hrest, List.append_nil]
      by_cases hdepth : depth = 0
      · rw [if_neg (not_not.mpr hdepth), if_pos hdepth, Option.map_some]
      · rw [if_pos hdepth, if_neg hdepth, Option.map_none]
  | cons c s ih =>
      have hlonger : spec.drop start = (c :: cur).reverse ++ s := by rw [hrest, List.reverse_cons, List.append_cons]
      have hnext : i + 1 = start + (c :: cur).length := by rw [hi, List.length_cons, Nat.add_assoc]
      rw [sliceLoop, splitLoop]
      split
      · exact ih hlonger hnext
      split
      · split
        · rfl
        · exact ih hlonger hnext
      split
      · rename_i hcolon
        have hpiece : slice spec start i = cur.reverse := by
          rw [slice, List.drop_take, hrest, hi, Nat.add_sub_cancel_left, ← List.length_reverse, List.take_left]
        have hbehind : spec.drop (i + 1) = [].reverse ++ s := by
          rw [hnext, ← List.drop_drop, hlonger, ← List.length_reverse, List.drop_left]
          rfl
        rw [hpiece, hcolon.2, ih hbehind (Nat.add_zero _).symm, Option.map_map]
        congr 1
        funext rest
        exact (List.append_cons parts cur.reverse rest).symm
      · exact ih hlonger hnext

theorem splitTunnelRequest_eq_sliceLoop (spec : Bytes) :
    splitTunnelRequest spec = sliceLoop spec 0 0 0 [] spec := by
  have h : sliceLoop spec 0 0 0 [] spec = (splitLoop 0 [] spec).map ([] ++ ·) :=
    sliceLoop_eq_splitLoop rfl rfl
  rw [h]
  exact Option.map_id'.symm

/-! ### Brackets and colons -/

/-- How many more brackets a text opens than it closes. -/
def bracketDepth (s : Bytes) : Int := s.count 91 - s.count 93

/-- No part from the start on closes more brackets than it opens, and the whole opens as many as it
closes. -/
def Balanced (s : Bytes) : Prop := (∀ t, t <+: s → t.count 93 ≤ t.count 91) ∧ s.count 91 = s.count 93

/-- The colons of a text that stand outside of brackets. -/
def outerColons (s : Bytes) : Nat :=
  (List.range s.length).countP fun i => s[i]? = some 58 ∧ bracketDepth (s.take i) = 0

/-- The same for a text in front of which `d` brackets are open. -/
def BalancedAt (d : Int) (s : Bytes) : Prop :=
  (∀ t, t <+: s → 0 ≤ d + bracketDepth t) ∧ d + bracketDepth s = 0

def colonsAt (d : Int) (s : Bytes) : Nat :=
  (List.range s.length).countP fun i => s[i]? = some 58 ∧ d + bracketDepth (s.take i) = 0

theorem balanced_iff : Balanced s ↔ BalancedAt 0 s := by
  unfold Balanced BalancedAt bracketDepth
  constructor
  · intro h
    refine ⟨fun t ht => ?_, ?_⟩
    · have := h.1 t ht
      omega
    · have := h.2
      omega
  · intro h
    refine ⟨fun t ht => ?_, ?_⟩
    · have := h.1 t ht
      omega
    · have := h.2
      omega

theorem outerColons_eq (s : Bytes) : outerColons s = colonsAt 0 s := by
  simp only [outerColons, colonsAt, Int.zero_add]

@[simp] theorem bracketDepth_nil : bracketDepth [] = 0 := rfl

theorem bracketDepth_append (s t : Bytes) : bracketDepth (s ++ t) = bracketDepth s + bracketDepth t := by
  simp only [bracketDepth, List.count_append]
  omega

theorem bracketDepth_cons (c : UInt8) (s : Bytes) : bracketDepth (c :: s) = bracketDepth [c] + bracketDepth s :=
  bracketDepth_append [c] s

theorem bracketDepth_open : bracketDepth [91] = 1 := rfl

theorem bracketDepth_close : bracketDepth [93] = -1 := rfl

theorem bracketDepth_other (hopen : c ≠ 91) (hclose : c ≠ 93) : bracketDepth [c] = 0 := by
  simp [bracketDepth, hopen, hclose]

theorem balancedAt_nil : BalancedAt d [] ↔ d = 0 := by
  constructor
  · intro h
    simpa using h.2
  · rintro rfl
    refine ⟨fun t ht => ?_, rfl⟩
    rw [List.prefix_nil.mp ht, bracketDepth_nil]
    decide

theorem balancedAt_cons (hd : 0 ≤ d) : BalancedAt d (c :: s) ↔ BalancedAt (d + bracketDepth [c]) s := by
  unfold BalancedAt
  rw [bracketDepth_cons c s, Int.add_assoc]
  refine and_congr_left fun _ => ⟨fun h t ht => ?_, fun h t ht => ?_⟩
  · have := h (c :: t) (List.cons_prefix_cons.mpr ⟨rfl, ht⟩)
    rwa [bracketDepth_cons, ← Int.add_assoc] at this
  · rcases List.prefix_cons_iff.mp ht with rfl | ⟨t', rfl, ht'⟩
    · simpa using hd
    · rw [bracketDepth_cons, ← Int.add_assoc]
      exact h t' ht'

theorem not_balancedAt_neg (hd : d < 0) : ¬ BalancedAt d s := by
  intro h
  have := h.1 [] List.nil_prefix
  rw [bracketDepth_nil] at this
  omega

theorem colonsAt_cons (d : Int) (c : UInt8) (s : Bytes) :
    colonsAt d (c :: s) = (if c = 58 ∧ d = 0 then 1 else 0) + colonsAt (d + bracketDepth [c]) s := by
  rw [colonsAt, List.length_cons, List.range_succ_eq_map, List.countP_cons, List.countP_map, Nat.add_comm]
  congr 1
  · simp
  · apply List.countP_congr
    intro i _
    simp [bracketDepth_cons c (s.take i), Int.add_assoc]

theorem colonsAt_append (d : Int) (s t : Bytes) :
    colonsAt d (s ++ t) = colonsAt d s + colonsAt (d + bracketDepth s) t := by
  induction s generalizing d with
  | nil => simp [colonsAt]
  | cons c s ih =>
      rw [List.cons_append, colonsAt_cons, colonsAt_cons, ih, bracketDepth_cons c s, Int.add_assoc,
        Nat.add_assoc]

/-! ### What the loop returns -/

theorem splitLoop_isSome (depth : Nat) (cur s : Bytes) :
    (splitLoop depth cur s).isSome ↔ BalancedAt depth s := by
  fun_induction splitLoop depth cur s with
  | case1 cur => simp [balancedAt_nil]
  | case2 depth cur hdepth => simp [balancedAt_nil, hdepth]
  | case3 depth cur s ih =>
      rw [ih, balancedAt_cons (Int.natCast_nonneg _), bracketDepth_open]
      rfl
  | case4 cur s hne =>
      have hneg : ¬ BalancedAt (-1) s := not_balancedAt_neg (by decide)
      rw [balancedAt_cons (Int.natCast_nonneg _), bracketDepth_close]
      simpa using hneg
  | case5 depth cur s hne hpos ih =>
      rw [ih, balancedAt_cons (Int.natCast_nonneg _), bracketDepth_close, Int.natCast_sub (by omega)]
      rfl
  | case6 depth cur c s hopen hclose hsplit ih =>
      rw [Option.isSome_map, ih, balancedAt_cons (Int.natCast_nonneg _), bracketDepth_other hopen hclose,
        hsplit.2]
      rfl
  | case7 depth cur c s hopen hclose hsplit ih =>
      rw [ih, balancedAt_cons (Int.natCast_nonneg _), bracketDepth_other hopen hclose, Int.add_zero]

theorem splitLoop_ne_nil (h : splitLoop depth cur s = some parts) : parts ≠ [] := by
  fun_induction splitLoop depth cur s generalizing parts with
  | case1 => simp [← Option.some.inj h]
  | case2 => cases h
  | case3 depth cur s ih => exact ih h
  | case4 => cases h
  | case5 depth cur s hne hpos ih => exact ih h
  | case6 depth cur c s hopen hclose hsplit ih =>
      obtain ⟨rest, _, rfl⟩ := Option.map_eq_some_iff.mp h
      exact List.cons_ne_nil _ _
  | case7 depth cur c s hopen hclose hsplit ih => exact ih h

theorem joinWith_splitLoop (h : splitLoop depth cur s = some parts) : joinWith 58 parts = cur.reverse ++ s := by
  fun_induction splitLoop depth cur s generalizing parts with
  | case1 => rw [← Option.some.inj h, joinWith_singleton, List.append_nil]
  | case2 => cases h
  | case3 depth cur s ih => simpa using ih h
  | case4 => cases h
  | case5 depth cur s hne hpos ih => simpa using ih h
  | case6 depth cur c s hopen hclose hsplit ih =>
      obtain ⟨rest, hrest, rfl⟩ := Option.map_eq_some_iff.mp h
      obtain ⟨p, ps, rfl⟩ := List.exists_cons_of_ne_nil (splitLoop_ne_nil hrest)
      rw [joinWith_cons_cons, ih hrest, hsplit.1]
      rfl
  | case7 depth cur c s hopen hclose hsplit ih => simpa using ih h

theorem length_splitLoop (h : splitLoop depth cur s = some parts) : parts.length = colonsAt depth s + 1 := by
  fun_induction splitLoop depth cur s generalizing parts with
  | case1 => rw [← Option.some.inj h]; rfl
  | case2 => cases h
  | case3 depth cur s ih =>
      rw [ih h, colonsAt_cons, bracketDepth_open, if_neg (by simp), Nat.zero_add]
      rfl
  | case4 => cases h
  | case5 depth cur s hne hpos ih =>
      rw [ih h, colonsAt_cons, bracketDepth_close, if_neg (by simp), Nat.zero_add,
        Int.natCast_sub (by omega)]
      rfl
  | case6 depth cur c s hopen hclose hsplit ih =>
      obtain ⟨rest, hrest, rfl⟩ := Option.map_eq_some_iff.mp h
      rw [List.length_cons, ih hrest, colonsAt_cons, bracketDepth_other hopen hclose, hsplit.2,
        if_pos ⟨hsplit.1, rfl⟩, Nat.add_comm 1]
      rfl
  | case7 depth cur c s hopen hclose hsplit ih =>
      rw [ih h, colonsAt_cons, bracketDepth_other hopen hclose, if_neg (by simpa using hsplit),
        Nat.zero_add, Int.add_zero]

/-- The byte that joins the piece so far is no colon to cut at. -/
theorem colonsAt_reverse_cons (hcur : colonsAt 0 cur.reverse = 0) (hc : ¬ (c = 58 ∧ bracketDepth cur.reverse = 0)) :
    colonsAt 0 (c :: cur).reverse = 0 := by
  rw [List.reverse_cons, colonsAt_append, hcur, colonsAt_cons, if_neg (by simpa using hc)]
  rfl

theorem bracketDepth_reverse_cons (c : UInt8) (cur : Bytes) :
    bracketDepth (c :: cur).reverse = bracketDepth cur.reverse + bracketDepth [c] := by
  rw [List.reverse_cons, bracketDepth_append]

/-- The pieces hold no colon to cut at. The piece so far has `depth` brackets open. -/
theorem colonsAt_of_splitLoop (h : splitLoop depth cur s = some parts) (hdepth : bracketDepth cur.reverse = depth)
    (hcur : colonsAt 0 cur.reverse = 0) : ∀ p ∈ parts, colonsAt 0 p = 0 := by
  fun_induction splitLoop depth cur s generalizing parts with
  | case1 =>
      intro p hp
      rw [← Option.some.inj h, List.mem_singleton] at hp
      rw [hp]
      exact hcur
  | case2 => cases h
  | case3 depth cur s ih =>
      apply ih h
      · rw [bracketDepth_reverse_cons, hdepth, bracketDepth_open]
        rfl
      · exact colonsAt_reverse_cons hcur fun h => absurd h.1 (by decide)
  | case4 => cases h
  | case5 depth cur s hne hpos ih =>
      apply ih h
      · rw [bracketDepth_reverse_cons, hdepth, bracketDepth_close, Int.natCast_sub (by omega)]
        rfl
      · exact colonsAt_reverse_cons hcur fun h => absurd h.1 (by decide)
  | case6 depth cur c s hopen hclose hsplit ih =>
      obtain ⟨rest, hrest, rfl⟩ := Option.map_eq_some_iff.mp h
      intro p hp
      rcases List.mem_cons.mp hp with rfl | hp
      · exact hcur
      · exact ih hrest rfl rfl p hp
  | case7 depth cur c s hopen hclose hsplit ih =>
      apply ih h
      · rw [bracketDepth_reverse_cons, hdepth, bracketDepth_other hopen hclose, Int.add_zero]
      · apply colonsAt_reverse_cons hcur
        rw [hdepth]
        simpa using hsplit

/-- `SplitTunnelRequest` returns nil exactly on unbalanced brackets. Otherwise the pieces joined with
colons are the text, none of them holds a colon outside of brackets, and the text holds one such colon
fewer than there are pieces. -/
theorem splitTunnelRequest_lossless (spec : Bytes) :
    (splitTunnelRequest spec = none ↔ ¬ Balanced spec) ∧
    ∀ parts, splitTunnelRequest spec = some parts →
      parts ≠ [] ∧ joinWith 58 parts = spec ∧ (∀ p ∈ parts, outerColons p = 0) ∧
        parts.length = outerColons spec + 1 := by
  constructor
  · rw [← Option.not_isSome_iff_eq_none, not_iff_not, balanced_iff]
    exact splitLoop_isSome 0 [] spec
  · intro parts h
    refine ⟨splitLoop_ne_nil h, joinWith_splitLoop h, fun p hp => ?_, ?_⟩
    · rw [outerColons_eq]
      exact colonsAt_of_splitLoop h rfl rfl p hp
    · rw [outerColons_eq]
      exact length_splitLoop h

theorem splitTunnelRequest_lossless_ipv6 :
    splitTunnelRequest (ascii "8080:[::1]:80") = some [ascii "8080", ascii "[::1]", ascii "80"] ∧
    joinWith 58 [ascii "8080", ascii "[::1]", ascii "80"] = ascii "8080:[::1]:80" ∧
    outerColons (ascii "8080:[::1]:80") = 2 := by
  have hsplit : splitTunnelRequest (ascii "8080:[::1]:80") =
      some [ascii "8080", ascii "[::1]", ascii "80"] := by decide
  obtain ⟨_, hjoin, _, hlen⟩ := (splitTunnelRequest_lossless (ascii "8080:[::1]:80")).2 _ hsplit
  exact ⟨hsplit, hjoin, (Nat.succ.inj hlen).symm⟩

end Qvole.App
