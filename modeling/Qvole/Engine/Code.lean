import Mathlib.Data.Fintype.Fin
import Mathlib.Data.Int.CardIntervalMod
import Qvole.Engine.Wire
import Qvole.Lib.NetText

/-!
# Generated codes

`GenerateCode` draws a number below ten thousand and three words. Each is a 16-bit draw reduced modulo
the number of choices; draws from the last incomplete block are rejected, so every choice is hit equally
often. From the text of a code the number and the words can be read off again, so no two choices share a
code: every code is as likely as every other.
-/

namespace Qvole.Engine

open Lib

/-! ### Drawing -/

/-- What `rand.Read` leaves in the two bytes, as the big-endian number they are. -/
abbrev Draw := Fin 65536

inductive RandError
  | outOfRange (max : Nat)
  | readFailed
  deriving DecidableEq

/-- The largest multiple of `max` that fits. -/
def drawLimit (max : Nat) : Nat := 65536 / max * max

/-- What a draw is mapped to, unless it is rejected. -/
def mapDraw (max : Nat) (v : Draw) : Option Nat :=
  if v.val < drawLimit max then some (v.val % max) else none

/-- The loop of `randInt`, with the draws that are left behind it. A draw is `none` when `rand.Read`
fails; without a result the loop is still waiting for its next draw. -/
def randIntLoop (max : Nat) : List (Option Draw) → Option (Except RandError Nat × List (Option Draw))
  | [] => none
  | none :: draws => some (.error .readFailed, draws)
  | some v :: draws =>
    match mapDraw max v with
    | some r => some (.ok r, draws)
    | none => randIntLoop max draws

def randInt (max : Nat) (draws : List (Option Draw)) :
    Option (Except RandError Nat × List (Option Draw)) :=
  if max = 0 ∨ 65536 < max then some (.error (.outOfRange max), draws) else randIntLoop max draws

/-- The loop of `GenerateCode` over the numbers of choices. -/
def drawVals : List Nat → List (Option Draw) → Option (Except RandError (List Nat))
  | [], _ => some (.ok [])
  | max :: maxes, draws =>
    match randInt max draws with
    | none => none
    | some (.error e, _) => some (.error e)
    | some (.ok v, draws) => (drawVals maxes draws).map fun vals => vals.map (v :: ·)

/-- `%04d`. -/
def sprintf04d (n : Nat) : Bytes := List.replicate (4 - (itoa n).length) 48 ++ itoa n

/-- `%04d-%s-%s-%s` of a number and three words. -/
def codeText (words : List Bytes) (number i j k : Nat) : Bytes :=
  sprintf04d number ++ 45 :: (words.getD i [] ++ 45 :: (words.getD j [] ++ 45 :: words.getD k []))

/-- `generate code: %w`. -/
inductive CodeError
  | generate (e : RandError)
  deriving DecidableEq

def generateCode (codeWords : List Bytes) (draws : List (Option Draw)) : Option (Except CodeError Bytes) :=
  let n := codeWords.length
  (drawVals [10000, n, n, n] draws).map fun vals =>
    match vals with
    | .error e => .error (.generate e)
    | .ok vals => .ok (codeText codeWords (vals.getD 0 0) (vals.getD 1 0) (vals.getD 2 0) (vals.getD 3 0))

/-! ### One draw -/

variable {max r : Nat} {v : Draw} {draws rest : List (Option Draw)}

theorem drawLimit_le (max : Nat) : drawLimit max ≤ 65536 := Nat.div_mul_le_self 65536 max

theorem mapDraw_eq_some : mapDraw max v = some r ↔ v.val < drawLimit max ∧ v.val % max = r := by
  unfold mapDraw
  split <;> simp_all

theorem mapDraw_eq_none : mapDraw max v = none ↔ ¬ v.val < drawLimit max := by
  unfold mapDraw
  split <;> simp_all

/-- A number of choices that is out of range has no draws. -/
theorem in_range_of_mapDraw (h : mapDraw max v = some r) : ¬ (max = 0 ∨ 65536 < max) := by
  obtain ⟨hlt, _⟩ := mapDraw_eq_some.mp h
  rintro (rfl | hmax)
  · simp [drawLimit] at hlt
  · rw [drawLimit, Nat.div_eq_of_lt hmax, Nat.zero_mul] at hlt
    exact absurd hlt (Nat.not_lt_zero _)

theorem lt_of_mapDraw (h : mapDraw max v = some r) : r < max := by
  rw [← (mapDraw_eq_some.mp h).2]
  apply Nat.mod_lt
  have := in_range_of_mapDraw h
  omega

theorem card_lt_and_mod (hr : r < max) :
    ((Finset.univ : Finset Draw).filter fun v => v.val < drawLimit max ∧ v.val % max = r).card =
      65536 / max := by
  have hpos : 0 < max := Nat.zero_lt_of_lt hr
  -- below the limit each residue is met once in every block
  have hcount : Nat.count (· ≡ r [MOD max]) (drawLimit max) = 65536 / max := by
    rw [Nat.count_modEq_card _ hpos, drawLimit, Nat.mul_div_cancel _ hpos, Nat.mul_mod_left,
      if_neg (Nat.not_lt_zero _), Nat.add_zero]
  rw [← hcount, Nat.count_eq_card_filter_range]
  refine Finset.card_bij (fun v _ => v.val) ?_ ?_ ?_
  · intro v hv
    obtain ⟨hlt, hmod⟩ := (Finset.mem_filter.mp hv).2
    rw [Finset.mem_filter, Finset.mem_range, Nat.ModEq, Nat.mod_eq_of_lt hr]
    exact ⟨hlt, hmod⟩
  · intro v _ v' _ heq
    exact Fin.ext heq
  · intro v hv
    rw [Finset.mem_filter, Finset.mem_range, Nat.ModEq, Nat.mod_eq_of_lt hr] at hv
    refine ⟨⟨v, lt_of_lt_of_le hv.1 (drawLimit_le max)⟩, ?_, rfl⟩
    exact Finset.mem_filter.mpr ⟨Finset.mem_univ _, hv⟩

/-- Every choice is hit by the same number of draws. -/
theorem card_mapDraw (hr : r < max) :
    ((Finset.univ : Finset Draw).filter fun v => mapDraw max v = some r).card = 65536 / max := by
  simp only [mapDraw_eq_some]
  exact card_lt_and_mod hr

theorem card_rejected (max : Nat) :
    ((Finset.univ : Finset Draw).filter fun v => mapDraw max v = none).card = 65536 - 65536 / max * max := by
  simp only [mapDraw_eq_none]
  rw [Finset.filter_not, Finset.card_sdiff_of_subset (Finset.filter_subset _ _), Fin.card_filter_val_lt,
    Finset.card_univ, Fintype.card_fin, Nat.min_eq_right (drawLimit_le max), drawLimit]

/-! ### Several draws -/

theorem randInt_cons (hmax : ¬ (max = 0 ∨ 65536 < max)) (v : Draw) (draws : List (Option Draw)) :
    randInt max (some v :: draws) =
      match mapDraw max v with
      | some r => some (.ok r, draws)
      | none => randInt max draws := by
  rw [randInt, randInt, if_neg hmax, if_neg hmax, randIntLoop]

theorem length_randIntLoop (h : randIntLoop max draws = some (.ok r, rest)) : rest.length < draws.length := by
  fun_induction randIntLoop max draws with
  | case1 => cases h
  | case2 draws => cases h
  | case3 v draws r' hv =>
      cases h
      exact Nat.lt_succ_self _
  | case4 v draws hv ih => exact Nat.lt_succ_of_lt (ih h)

theorem length_randInt (h : randInt max draws = some (.ok r, rest)) : rest.length < draws.length := by
  rw [randInt] at h
  split at h
  · cases h
  · exact length_randIntLoop h

/-- Every value takes a draw. -/
theorem length_drawVals {maxes vals : List Nat} (h : drawVals maxes draws = some (.ok vals)) :
    maxes.length ≤ draws.length := by
  fun_induction drawVals maxes draws generalizing vals with
  | case1 => exact Nat.zero_le _
  | case2 => cases h
  | case3 => cases h
  | case4 draws max maxes v rest hv ih =>
      obtain ⟨vals', hvals', heq⟩ := Option.map_eq_some_iff.mp h
      cases vals' with
      | error e => cases heq
      | ok vals' => exact Nat.lt_of_le_of_lt (ih hvals') (length_randInt hv)

/-- With one draw for each value, none of them may be rejected. -/
theorem drawVals_exact {maxes vals : List Nat} (hlen : draws.length = maxes.length) :
    drawVals (max :: maxes) (some v :: draws) = some (.ok vals) ↔
      ∃ r vals', mapDraw max v = some r ∧ drawVals maxes draws = some (.ok vals') ∧ vals = r :: vals' := by
  constructor
  · intro h
    rw [drawVals] at h
    split at h
    · cases h
    · cases h
    · rename_i r rest hrand
      obtain ⟨vals', hvals', heq⟩ := Option.map_eq_some_iff.mp h
      cases vals' with
      | error e => cases heq
      | ok vals' =>
          cases heq
          have hmax : ¬ (max = 0 ∨ 65536 < max) := by
            intro hmax
            rw [randInt, if_pos hmax] at hrand
            cases hrand
          rw [randInt_cons hmax] at hrand
          cases hmap : mapDraw max v with
          | some r' =>
              rw [hmap] at hrand
              cases hrand
              exact ⟨r, vals', rfl, hvals', rfl⟩
          | none =>
              -- a second draw was taken for this value, so the last one finds none
              rw [hmap] at hrand
              have hfew := length_randInt hrand
              have hneed := length_drawVals hvals'
              omega
  · rintro ⟨r, vals', hmap, hvals', rfl⟩
    rw [drawVals, randInt_cons (in_range_of_mapDraw hmap), hmap]
    dsimp only
    rw [hvals']
    rfl

theorem drawVals_iff {maxes vals : List Nat} {vs : List Draw} (hlen : vs.length = maxes.length) :
    drawVals maxes (vs.map some) = some (.ok vals) ↔
      List.Forall₂ (fun x r => mapDraw x.1 x.2 = some r) (maxes.zip vs) vals := by
  induction maxes generalizing vs vals with
  | nil =>
      rw [List.zip_nil_left, List.forall₂_nil_left_iff, drawVals]
      exact ⟨fun h => (Except.ok.inj (Option.some.inj h)).symm, fun h => by rw [h]⟩
  | cons max maxes ih =>
      obtain ⟨v, vs, rfl⟩ := List.exists_cons_of_length_eq_add_one hlen
      have hrest : vs.length = maxes.length := Nat.succ.inj hlen
      rw [List.map_cons, drawVals_exact (by rw [List.length_map, hrest]), List.zip_cons_cons,
        List.forall₂_cons_left_iff]
      simp only [ih hrest]

theorem generateCode_exact (words : List Bytes) (a b c d : Draw) (code : Bytes) :
    generateCode words [some a, some b, some c, some d] = some (.ok code) ↔
      ∃ number i j k, mapDraw 10000 a = some number ∧ mapDraw words.length b = some i ∧
        mapDraw words.length c = some j ∧ mapDraw words.length d = some k ∧
        code = codeText words number i j k := by
  let n := words.length
  have hvals (vals : List Nat) : drawVals [10000, n, n, n] [some a, some b, some c, some d] = some (.ok vals) ↔ _ :=
    drawVals_iff (show [a, b, c, d].length = [10000, n, n, n].length from rfl)
  rw [generateCode, Option.map_eq_some_iff]
  constructor
  · rintro ⟨vals, hdraws, heq⟩
    cases vals with
    | error e => cases heq
    | ok vals =>
        have hall := (hvals vals).mp hdraws
        simp only [List.zip_cons_cons, List.zip_nil_left, List.forall₂_cons_left_iff,
          List.forall₂_nil_left_iff] at hall
        obtain ⟨number, _, ha, ⟨i, _, hb, ⟨j, _, hc, ⟨k, _, hd, rfl, rfl⟩, rfl⟩, rfl⟩, rfl⟩ := hall
        cases heq
        exact ⟨number, i, j, k, ha, hb, hc, hd, rfl⟩
  · rintro ⟨number, i, j, k, ha, hb, hc, hd, rfl⟩
    refine ⟨.ok [number, i, j, k], (hvals _).mpr ?_, rfl⟩
    exact .cons ha (.cons hb (.cons hc (.cons hd .nil)))

/-! ### The text of a code -/

theorem length_sprintf04d {n : Nat} (h : n < 10000) : (sprintf04d n).length = 4 := by
  have hlen : (itoa n).length ≤ 4 := length_itoa_le (by decide) h
  rw [sprintf04d, List.length_append, List.length_replicate]
  omega

theorem decimal_sprintf04d (n : Nat) : decimal (sprintf04d n) = n := by
  rw [sprintf04d, decimal_zeros, decimal_itoa]

theorem isDigit_of_mem_sprintf04d {n : Nat} {c : UInt8} (h : c ∈ sprintf04d n) : isDigit c := by
  rcases List.mem_append.mp h with h | h
  · rw [List.eq_of_mem_replicate h]
    decide
  · exact isDigit_of_mem_itoa h

/-- A number and the places of three words. -/
abbrev CodeChoice (words : List Bytes) := Fin 10000 × Fin words.length × Fin words.length × Fin words.length

def codeOf (words : List Bytes) (x : CodeChoice words) : Bytes :=
  codeText words x.1 x.2.1 x.2.2.1 x.2.2.2

theorem nameplate_codeText {number : Nat} (h : number < 10000) (words : List Bytes) (i j k : Nat) :
    nameplate (codeText words number i j k) = sprintf04d number := by
  have htake : (codeText words number i j k).take 4 = sprintf04d number := by
    rw [codeText, List.take_append_of_le_length (length_sprintf04d h).ge, ← length_sprintf04d h,
      List.take_length]
  have hdrop : ((codeText words number i j k).drop 4).head? = some 45 := by
    rw [codeText, ← length_sprintf04d h, List.drop_left]
    rfl
  have hgen : generatedCodeRe (codeText words number i j k) := by
    simp only [generatedCodeRe, Bool.and_eq_true, beq_iff_eq, List.all_eq_true]
    rw [htake]
    exact ⟨⟨length_sprintf04d h, fun c hc => isDigit_of_mem_sprintf04d hc⟩, hdrop⟩
  rw [nameplate, if_pos hgen, htake]

theorem getD_inj {words : List Bytes} (hdistinct : words.Nodup) {i j : Fin words.length}
    (h : words.getD i [] = words.getD j []) : i = j := by
  simp only [List.getD_eq_getElem?_getD, List.getElem?_eq_getElem i.isLt, List.getElem?_eq_getElem j.isLt,
    Option.getD_some] at h
  exact Fin.ext ((hdistinct.getElem_inj_iff).mp h)

theorem codeOf_injective {words : List Bytes} (hdistinct : words.Nodup)
    (hhyphen : ∀ w ∈ words, (45 : UInt8) ∉ w) : Function.Injective (codeOf words) := by
  have hword (i : Fin words.length) : (45 : UInt8) ∉ words.getD i [] := by
    rw [List.getD_eq_getElem?_getD, List.getElem?_eq_getElem i.isLt]
    exact hhyphen _ (List.getElem_mem _)
  rintro ⟨number, i, j, k⟩ ⟨number', i', j', k'⟩ heq
  have hnumber := List.append_inj heq
    ((length_sprintf04d number.isLt).trans (length_sprintf04d number'.isLt).symm)
  obtain ⟨hi, hrest⟩ := eq_of_append_cons (List.cons.inj hnumber.2).2 (hword i) (hword i')
  obtain ⟨hj, hk⟩ := eq_of_append_cons hrest (hword j) (hword j')
  have hvalue : number.val = number'.val := by
    rw [← decimal_sprintf04d number, ← decimal_sprintf04d number', hnumber.1]
  exact Prod.ext (Fin.ext hvalue) (Prod.ext (getD_inj hdistinct hi)
    (Prod.ext (getD_inj hdistinct hj) (getD_inj hdistinct hk)))

/-! ### Every code is as likely as every other -/

/-- The draws that lead to a code are those that lead to each of its parts. -/
theorem generateCode_iff {words : List Bytes} (hdistinct : words.Nodup)
    (hhyphen : ∀ w ∈ words, (45 : UInt8) ∉ w) (x : CodeChoice words) (a b c d : Draw) :
    generateCode words [some a, some b, some c, some d] = some (.ok (codeOf words x)) ↔
      mapDraw 10000 a = some x.1.val ∧ mapDraw words.length b = some x.2.1.val ∧
        mapDraw words.length c = some x.2.2.1.val ∧ mapDraw words.length d = some x.2.2.2.val := by
  rw [generateCode_exact]
  constructor
  · rintro ⟨number, i, j, k, ha, hb, hc, hd, heq⟩
    have hx : x = (⟨number, lt_of_mapDraw ha⟩, ⟨i, lt_of_mapDraw hb⟩, ⟨j, lt_of_mapDraw hc⟩,
        ⟨k, lt_of_mapDraw hd⟩) := codeOf_injective hdistinct hhyphen heq
    rw [hx]
    exact ⟨ha, hb, hc, hd⟩
  · rintro ⟨ha, hb, hc, hd⟩
    exact ⟨_, _, _, _, ha, hb, hc, hd, rfl⟩

theorem card_draws {words : List Bytes} (hdistinct : words.Nodup)
    (hhyphen : ∀ w ∈ words, (45 : UInt8) ∉ w) (x : CodeChoice words) :
    Nat.card { v : Draw × Draw × Draw × Draw //
      generateCode words [some v.1, some v.2.1, some v.2.2.1, some v.2.2.2] = some (.ok (codeOf words x)) } =
      65536 / 10000 * (65536 / words.length) ^ 3 := by
  classical
  let hits (max r : Nat) := (Finset.univ : Finset Draw).filter fun v => mapDraw max v = some r
  have hset (v : Draw × Draw × Draw × Draw) :
      v ∈ hits 10000 x.1 ×ˢ (hits words.length x.2.1 ×ˢ (hits words.length x.2.2.1 ×ˢ hits words.length x.2.2.2)) ↔
        generateCode words [some v.1, some v.2.1, some v.2.2.1, some v.2.2.2] = some (.ok (codeOf words x)) := by
    rw [generateCode_iff hdistinct hhyphen]
    simp [hits]
  rw [Nat.subtype_card _ hset, Finset.card_product, Finset.card_product, Finset.card_product,
    card_mapDraw x.1.isLt, card_mapDraw x.2.1.isLt, card_mapDraw x.2.2.1.isLt, card_mapDraw x.2.2.2.isLt]
  ring

/-- Generated codes are uniform. Every choice of `randInt` is hit by equally many draws and the others
are drawn again; different choices have different codes; so every code has equally many tuples of draws
that lead to it. Empty words would do no harm. -/
theorem generateCode_uniform (words : List Bytes) (hdistinct : words.Nodup)
    (hhyphen : ∀ w ∈ words, (45 : UInt8) ∉ w) :
    (∀ max, 1 ≤ max → max ≤ 65536 →
      (∀ v draws, randInt max (some v :: draws) =
        match mapDraw max v with
        | some r => some (.ok r, draws)
        | none => randInt max draws) ∧
      (∀ r < max, ((Finset.univ : Finset Draw).filter fun v => mapDraw max v = some r).card = 65536 / max) ∧
      ((Finset.univ : Finset Draw).filter fun v => mapDraw max v = none).card = 65536 - 65536 / max * max) ∧
    Function.Injective (codeOf words) ∧
    (∀ x : CodeChoice words, nameplate (codeOf words x) = sprintf04d x.1 ∧
      (sprintf04d x.1).length = 4 ∧ decimal (sprintf04d x.1) = x.1) ∧
    ∀ x : CodeChoice words, Nat.card { v : Draw × Draw × Draw × Draw //
      generateCode words [some v.1, some v.2.1, some v.2.2.1, some v.2.2.2] = some (.ok (codeOf words x)) } =
        65536 / 10000 * (65536 / words.length) ^ 3 := by
  refine ⟨fun max hpos hmax => ⟨randInt_cons (by omega), fun r hr => card_mapDraw hr, card_rejected max⟩,
    codeOf_injective hdistinct hhyphen, fun x => ?_, card_draws hdistinct hhyphen⟩
  exact ⟨nameplate_codeText x.1.isLt words _ _ _, length_sprintf04d x.1.isLt, decimal_sprintf04d x.1⟩

theorem generateCode_uniform_two_words :
    [ascii "abacus", ascii "zoom"].Nodup ∧ (∀ w ∈ [ascii "abacus", ascii "zoom"], (45 : UInt8) ∉ w) ∧
    Function.Injective (codeOf [ascii "abacus", ascii "zoom"]) ∧
    nameplate (codeOf [ascii "abacus", ascii "zoom"] (7, 0, 1, 1)) = ascii "0007" := by
  have hdistinct : [ascii "abacus", ascii "zoom"].Nodup := by decide
  have hhyphen : ∀ w ∈ [ascii "abacus", ascii "zoom"], (45 : UInt8) ∉ w := by decide
  obtain ⟨_, hinj, hname, _⟩ := generateCode_uniform _ hdistinct hhyphen
  refine ⟨hdistinct, hhyphen, hinj, ?_⟩
  rw [(hname (7, 0, 1, 1)).1]
  decide

end Qvole.Engine
