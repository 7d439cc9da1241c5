import Mathlib.Data.List.Basic

/-!
# Byte strings

A Go `string` and a Go `[]byte` are both lists of bytes here. The module holds the functions of
the packages `bytes`, `strings` and `encoding/hex` that line-based protocols are written with, and
the laws by which a line that was put together from its fields is taken apart again.
-/

namespace Lib

abbrev Bytes := List UInt8

/-- The bytes of an ASCII literal. -/
def ascii (s : String) : Bytes := s.toList.map fun c => UInt8.ofNat c.toNat

/-- Visible ASCII: everything above the space and below `DEL`. -/
def isPrint (b : UInt8) : Bool := 33 ≤ b && b ≤ 126

/-! ### Cutting at a separator -/

/-- `bytes.Cut` at a one-byte separator: the text before its first occurrence and, when there is
one, the text behind it. -/
def cut (sep : UInt8) : Bytes → Bytes × Option Bytes
  | [] => ([], none)
  | b :: s =>
    if b = sep then ([], some s)
    else ((b :: (cut sep s).1), (cut sep s).2)

theorem cut_append {sep : UInt8} {a : Bytes} (b : Bytes) (ha : sep ∉ a) :
    cut sep (a ++ sep :: b) = (a, some b) := by
  induction a with
  | nil => simp [cut]
  | cons c a ih =>
      have hc : c ≠ sep := fun h => ha (h ▸ List.mem_cons_self)
      have hrest : sep ∉ a := fun h => ha (List.mem_cons_of_mem _ h)
      rw [List.cons_append, cut, if_neg hc, ih hrest]

theorem eq_of_append_cons {sep : UInt8} {a a' b b' : Bytes} (h : a ++ sep :: b = a' ++ sep :: b')
    (ha : sep ∉ a) (ha' : sep ∉ a') : a = a' ∧ b = b' := by
  have hcut := cut_append b ha
  rw [h, cut_append b' ha'] at hcut
  obtain ⟨hfront, hrest⟩ := Prod.mk.inj hcut
  exact ⟨hfront.symm, (Option.some.inj hrest).symm⟩

theorem cut_of_notMem {sep : UInt8} {a : Bytes} (ha : sep ∉ a) : cut sep a = (a, none) := by
  induction a with
  | nil => rfl
  | cons c a ih =>
      have hc : c ≠ sep := fun h => ha (h ▸ List.mem_cons_self)
      have hrest : sep ∉ a := fun h => ha (List.mem_cons_of_mem _ h)
      rw [cut, if_neg hc, ih hrest]

theorem eq_of_cut_some {sep : UInt8} {s a b : Bytes} (h : cut sep s = (a, some b)) :
    s = a ++ sep :: b ∧ sep ∉ a := by
  induction s generalizing a with
  | nil => simp [cut] at h
  | cons c s ih =>
      by_cases hc : c = sep
      · rw [cut, if_pos hc] at h
        obtain ⟨rfl, hb⟩ := Prod.mk.inj h
        rw [hc, Option.some.inj hb]
        simp
      · rw [cut, if_neg hc] at h
        obtain ⟨rfl, hb⟩ := Prod.mk.inj h
        obtain ⟨hs, hnot⟩ := ih (Prod.ext rfl hb)
        refine ⟨congrArg (c :: ·) hs, ?_⟩
        simpa [Ne.symm hc] using hnot

theorem length_cut_le (sep : UInt8) (s : Bytes) : (cut sep s).1.length ≤ s.length := by
  induction s with
  | nil => exact Nat.le_refl _
  | cons c s ih =>
      rw [cut]
      split
      · exact Nat.zero_le _
      · exact Nat.succ_le_succ ih

/-- `bytes.SplitN` at a one-byte separator: at most `n` pieces, the last one unsplit. -/
def splitN (sep : UInt8) : Nat → Bytes → List Bytes
  | 0, _ => []
  | 1, s => [s]
  | n + 2, s =>
    match cut sep s with
    | (a, none) => [a]
    | (a, some b) => a :: splitN sep (n + 1) b

theorem splitN_append {sep : UInt8} {a : Bytes} (n : Nat) (b : Bytes) (ha : sep ∉ a) :
    splitN sep (n + 2) (a ++ sep :: b) = a :: splitN sep (n + 1) b := by
  rw [splitN, cut_append b ha]

theorem splitN_of_notMem {sep : UInt8} {a : Bytes} (n : Nat) (ha : sep ∉ a) :
    splitN sep (n + 1) a = [a] := by
  cases n with
  | zero => rfl
  | succ n => rw [splitN, cut_of_notMem ha]

theorem splitN_three_iff {sep : UInt8} {t a b c : Bytes} :
    splitN sep 3 t = [a, b, c] ↔ t = a ++ sep :: (b ++ sep :: c) ∧ sep ∉ a ∧ sep ∉ b := by
  constructor
  · intro h
    rw [splitN] at h
    split at h
    · cases h
    rename_i a' rest hcut
    rw [splitN] at h
    split at h
    · cases h
    rename_i b' c' hcut'
    cases h
    obtain ⟨ht, ha⟩ := eq_of_cut_some hcut
    obtain ⟨hrest, hb⟩ := eq_of_cut_some hcut'
    exact ⟨by rw [ht, hrest], ha, hb⟩
  · intro h
    obtain ⟨rfl, ha, hb⟩ := h
    rw [splitN_append _ _ ha, splitN_append _ _ hb, splitN]

theorem length_splitN (sep : UInt8) (n : Nat) (s : Bytes) :
    (splitN sep (n + 1) s).length = min (n + 1) (s.count sep + 1) := by
  induction n generalizing s with
  | zero => simp [splitN]
  | succ n ih =>
      by_cases hmem : sep ∈ s
      · obtain ⟨a, b, rfl, ha⟩ := List.eq_append_cons_of_mem hmem
        rw [splitN_append n b ha, List.length_cons, ih, List.count_append, List.count_cons_self,
          List.count_eq_zero_of_not_mem ha]
        omega
      · rw [splitN_of_notMem (n + 1) hmem, List.count_eq_zero_of_not_mem hmem]
        simp

/-! ### Lines -/

/-- The complete lines of a text, without their newlines, and what stands behind the last one. -/
def cutLines : Bytes → List Bytes × Bytes
  | [] => ([], [])
  | c :: s =>
    if c = 10 then ([] :: (cutLines s).1, (cutLines s).2)
    else
      match cutLines s with
      | ([], rest) => ([], c :: rest)
      | (line :: lines, rest) => ((c :: line) :: lines, rest)

theorem cutLines_of_notMem {s : Bytes} (h : (10 : UInt8) ∉ s) : cutLines s = ([], s) := by
  induction s with
  | nil => rfl
  | cons c s ih =>
      have hc : c ≠ 10 := fun heq => h (heq ▸ List.mem_cons_self)
      have hs : (10 : UInt8) ∉ s := fun hmem => h (List.mem_cons_of_mem c hmem)
      rw [cutLines, if_neg hc, ih hs]

theorem cutLines_append {line : Bytes} (s : Bytes) (h : (10 : UInt8) ∉ line) :
    cutLines (line ++ 10 :: s) = (line :: (cutLines s).1, (cutLines s).2) := by
  induction line with
  | nil => rw [List.nil_append, cutLines, if_pos rfl]
  | cons c line ih =>
      have hc : c ≠ 10 := fun heq => h (heq ▸ List.mem_cons_self)
      have hline : (10 : UInt8) ∉ line := fun hmem => h (List.mem_cons_of_mem c hmem)
      rw [List.cons_append, cutLines, if_neg hc, ih hline]

/-! ### White space -/

/-- The ASCII bytes for which `unicode.IsSpace` holds. -/
def asciiSpace (b : UInt8) : Bool := b == 32 || (9 ≤ b && b ≤ 13)

/-- The two-byte encodings of white space: `U+0085` and `U+00A0`. -/
def space2 (a b : UInt8) : Bool := a == 0xC2 && (b == 0x85 || b == 0xA0)

/-- The three-byte encodings of white space: `U+1680`, `U+2000` to `U+200A`, `U+2028`, `U+2029`,
`U+202F`, `U+205F` and `U+3000`. -/
def space3 (a b c : UInt8) : Bool :=
  (a == 0xE1 && b == 0x9A && c == 0x80) ||
  (a == 0xE2 && b == 0x80 && ((0x80 ≤ c && c ≤ 0x8A) || c == 0xA8 || c == 0xA9 || c == 0xAF)) ||
  (a == 0xE2 && b == 0x81 && c == 0x9F) ||
  (a == 0xE3 && b == 0x80 && c == 0x80)

/-- The width of the white-space rune a text starts with, zero when it starts with none. -/
def spaceWidth : Bytes → Nat
  | [] => 0
  | [a] => if asciiSpace a then 1 else 0
  | [a, b] => if asciiSpace a then 1 else if space2 a b then 2 else 0
  | a :: b :: c :: _ =>
    if asciiSpace a then 1 else if space2 a b then 2 else if space3 a b c then 3 else 0

/-- `spaceWidth` of the rune a text ends with, the text being given back to front. -/
def spaceWidthEnd : Bytes → Nat
  | [] => 0
  | [a] => if asciiSpace a then 1 else 0
  | [a, b] => if asciiSpace a then 1 else if space2 b a then 2 else 0
  | a :: b :: c :: _ =>
    if asciiSpace a then 1 else if space2 b a then 2 else if space3 c b a then 3 else 0

/-- Drop leading runes for as long as `width` finds one; a text has at most `fuel` of them. -/
def trimWith (width : Bytes → Nat) : Nat → Bytes → Bytes
  | 0, s => s
  | fuel + 1, s => if width s = 0 then s else trimWith width fuel (s.drop (width s))

/-- `bytes.TrimSpace`: white space is cut off both ends, Unicode white space included. -/
def trimSpace (s : Bytes) : Bytes :=
  let t := trimWith spaceWidth s.length s
  (trimWith spaceWidthEnd t.length t.reverse).reverse

theorem trimWith_of_width_zero {width : Bytes → Nat} {s : Bytes} (fuel : Nat) (h : width s = 0) :
    trimWith width fuel s = s := by
  cases fuel with
  | zero => rfl
  | succ fuel => rw [trimWith, if_pos h]

theorem length_trimWith_le (width : Bytes → Nat) (fuel : Nat) (s : Bytes) :
    (trimWith width fuel s).length ≤ s.length := by
  induction fuel generalizing s with
  | zero => exact Nat.le_refl _
  | succ fuel ih =>
      rw [trimWith]
      split
      · exact Nat.le_refl _
      · refine Nat.le_trans (ih _) ?_
        rw [List.length_drop]
        exact Nat.sub_le _ _

theorem length_trimSpace_le (s : Bytes) : (trimSpace s).length ≤ s.length := by
  rw [trimSpace, List.length_reverse]
  refine Nat.le_trans (length_trimWith_le _ _ _) ?_
  rw [List.length_reverse]
  exact length_trimWith_le _ _ s

theorem isPrint_iff {b : UInt8} : isPrint b ↔ 33 ≤ b.toNat ∧ b.toNat ≤ 126 := by
  simp [isPrint, UInt8.le_iff_toNat_le]

theorem not_asciiSpace_of_isPrint {b : UInt8} (h : isPrint b) : asciiSpace b = false := by
  rw [isPrint_iff] at h
  simp only [asciiSpace, Bool.or_eq_false_iff, beq_eq_false_iff_ne, Bool.and_eq_false_iff,
    decide_eq_false_iff_not, UInt8.le_iff_toNat_le]
  refine ⟨fun hb => ?_, Or.inr ?_⟩
  · rw [hb] at h
    exact absurd h (by decide)
  · change ¬ b.toNat ≤ 13
    omega

/-- Every byte of an encoded non-ASCII rune lies above the visible ASCII bytes. -/
private theorem beq_false_of_isPrint {b c : UInt8} (h : isPrint b) (hc : 126 < c.toNat) :
    (b == c) = false := by
  rw [isPrint_iff] at h
  rw [beq_eq_false_iff_ne]
  rintro rfl
  omega

theorem spaceWidth_of_isPrint {b : UInt8} (s : Bytes) (h : isPrint b) :
    spaceWidth (b :: s) = 0 := by
  have hascii := not_asciiSpace_of_isPrint h
  have hC2 := beq_false_of_isPrint (c := 0xC2) h (by decide)
  have hE1 := beq_false_of_isPrint (c := 0xE1) h (by decide)
  have hE2 := beq_false_of_isPrint (c := 0xE2) h (by decide)
  have hE3 := beq_false_of_isPrint (c := 0xE3) h (by decide)
  rcases s with _ | ⟨c, _ | ⟨d, s⟩⟩ <;>
    simp [spaceWidth, hascii, space2, space3, hC2, hE1, hE2, hE3]

theorem spaceWidthEnd_of_isPrint {b : UInt8} (s : Bytes) (h : isPrint b) :
    spaceWidthEnd (b :: s) = 0 := by
  have hascii := not_asciiSpace_of_isPrint h
  have hne := fun (c : UInt8) (hc : 126 < c.toNat) => beq_false_of_isPrint (c := c) h hc
  have hle : ¬ (0x80 : UInt8) ≤ b := by
    rw [isPrint_iff] at h
    rw [UInt8.le_iff_toNat_le]
    change ¬ 128 ≤ b.toNat
    omega
  rcases s with _ | ⟨c, _ | ⟨d, s⟩⟩ <;>
    simp [spaceWidthEnd, hascii, space2, space3, hle, hne 0x85 (by decide), hne 0xA0 (by decide),
      hne 0x80 (by decide), hne 0xA8 (by decide), hne 0xA9 (by decide), hne 0xAF (by decide),
      hne 0x9F (by decide)]

/-- A text between two visible bytes is not trimmed. -/
theorem trimSpace_eq_self {s : Bytes} (hhead : ∀ b, s.head? = some b → isPrint b)
    (hlast : ∀ b, s.getLast? = some b → isPrint b) : trimSpace s = s := by
  have hleft : trimWith spaceWidth s.length s = s := by
    apply trimWith_of_width_zero
    rcases s with _ | ⟨b, s⟩
    · rfl
    · exact spaceWidth_of_isPrint s (hhead b rfl)
  have hright : spaceWidthEnd s.reverse = 0 := by
    rcases hrev : s.reverse with _ | ⟨b, t⟩
    · rfl
    · refine spaceWidthEnd_of_isPrint t (hlast b ?_)
      rw [List.getLast?_eq_head?_reverse, hrev, List.head?_cons]
  rw [trimSpace, hleft, trimWith_of_width_zero _ hright, List.reverse_reverse]

/-- The line feed behind a text that ends in a visible byte is what trimming removes. -/
theorem trimSpace_append_newline {s : Bytes} (hne : s ≠ []) (hhead : ∀ b, s.head? = some b → isPrint b)
    (hlast : ∀ b, s.getLast? = some b → isPrint b) : trimSpace (s ++ [10]) = s := by
  have hleft : trimWith spaceWidth (s ++ [10]).length (s ++ [10]) = s ++ [10] := by
    apply trimWith_of_width_zero
    rcases s with _ | ⟨b, s⟩
    · exact absurd rfl hne
    · exact spaceWidth_of_isPrint _ (hhead b rfl)
  have hrev : (s ++ [10]).reverse = 10 :: s.reverse := by simp
  have hlf : spaceWidthEnd (10 :: s.reverse) = 1 := by
    rcases s.reverse with _ | ⟨c, _ | ⟨d, t⟩⟩ <;> rfl
  have hright : spaceWidthEnd s.reverse = 0 := by
    rcases hr : s.reverse with _ | ⟨b, t⟩
    · rfl
    · refine spaceWidthEnd_of_isPrint t (hlast b ?_)
      rw [List.getLast?_eq_head?_reverse, hr, List.head?_cons]
  rw [trimSpace, hleft, hrev, show (s ++ [(10 : UInt8)]).length = s.length + 1 by simp, trimWith,
    if_neg (by rw [hlf]; exact Nat.one_ne_zero), hlf, List.drop_one, List.tail_cons,
    trimWith_of_width_zero _ hright, List.reverse_reverse]

/-- White space at the end does not reach over a visible byte. -/
theorem spaceWidthEnd_append_le {b : UInt8} (s t : Bytes) (h : isPrint b) :
    spaceWidthEnd (s ++ b :: t) ≤ s.length := by
  have hne := fun (c : UInt8) (hc : 126 < c.toNat) => beq_false_of_isPrint (c := c) h hc
  have hC2 := hne 0xC2 (by decide)
  have hE := And.intro (hne 0xE1 (by decide)) (And.intro (hne 0xE2 (by decide)) (hne 0xE3 (by decide)))
  have h9A := And.intro (hne 0x9A (by decide)) (And.intro (hne 0x80 (by decide)) (hne 0x81 (by decide)))
  rcases s with _ | ⟨c, _ | ⟨d, _ | ⟨e, s⟩⟩⟩
  · exact Nat.le_of_eq (spaceWidthEnd_of_isPrint t h)
  · rcases t with _ | ⟨d, t⟩
    · simp only [List.cons_append, List.nil_append, spaceWidthEnd, space2, hC2]
      split <;> simp
    · simp only [List.cons_append, List.nil_append, spaceWidthEnd, space2, space3, hC2, h9A]
      split <;> simp
  · simp only [List.cons_append, List.nil_append, spaceWidthEnd, space3, hE]
    split
    · simp
    · split <;> simp
  · simp only [List.cons_append, spaceWidthEnd, List.length_cons]
    split
    · omega
    · split
      · omega
      · split <;> omega

theorem trimWith_append {b : UInt8} (fuel : Nat) (s t : Bytes) (h : isPrint b) :
    ∃ s', trimWith spaceWidthEnd fuel (s ++ b :: t) = s' ++ b :: t := by
  induction fuel generalizing s with
  | zero => exact ⟨s, rfl⟩
  | succ fuel ih =>
      rw [trimWith]
      split
      · exact ⟨s, rfl⟩
      · rw [List.drop_append_of_le_length (spaceWidthEnd_append_le s t h)]
        exact ih _

/-- Trimming leaves what stands between two visible bytes, whatever follows. -/
theorem trimSpace_append {s : Bytes} (rest : Bytes) (hne : s ≠ []) (hhead : ∀ b, s.head? = some b → isPrint b)
    (hlast : ∀ b, s.getLast? = some b → isPrint b) : ∃ rest', trimSpace (s ++ rest) = s ++ rest' := by
  have hleft : trimWith spaceWidth (s ++ rest).length (s ++ rest) = s ++ rest := by
    apply trimWith_of_width_zero
    rcases s with _ | ⟨b, s⟩
    · exact absurd rfl hne
    · exact spaceWidth_of_isPrint _ (hhead b rfl)
  rcases hrev : s.reverse with _ | ⟨b, t⟩
  · exact absurd (List.reverse_eq_nil_iff.mp hrev) hne
  · have hb : isPrint b := by
      apply hlast
      rw [List.getLast?_eq_head?_reverse, hrev, List.head?_cons]
    obtain ⟨rest', htrim⟩ := trimWith_append (s ++ rest).length rest.reverse t hb
    refine ⟨rest'.reverse, ?_⟩
    rw [trimSpace, hleft, List.reverse_append, hrev, htrim, List.reverse_append, ← hrev,
      List.reverse_reverse]

/-! ### Hexadecimal -/

/-- The lower-case digit of a value below sixteen. -/
def hexDigit (n : Nat) : UInt8 := if n < 10 then UInt8.ofNat (48 + n) else UInt8.ofNat (87 + n)

/-- The value of a digit in either case. -/
def fromHexChar (c : UInt8) : Option Nat :=
  if 48 ≤ c && c ≤ 57 then some (c.toNat - 48)
  else if 97 ≤ c && c ≤ 102 then some (c.toNat - 87)
  else if 65 ≤ c && c ≤ 70 then some (c.toNat - 55)
  else none

/-- `hex.EncodeToString`, and the verb `%x`. -/
def hexEncode : Bytes → Bytes
  | [] => []
  | b :: s => hexDigit (b.toNat / 16) :: hexDigit (b.toNat % 16) :: hexEncode s

/-- `hex.DecodeString`: `none` for a byte that is no digit and for an odd length. -/
def hexDecode : Bytes → Option Bytes
  | [] => some []
  | [_] => none
  | a :: b :: s =>
    match fromHexChar a, fromHexChar b, hexDecode s with
    | some hi, some lo, some rest => some (UInt8.ofNat (hi * 16 + lo) :: rest)
    | _, _, _ => none

theorem fromHexChar_hexDigit {n : Nat} (h : n < 16) : fromHexChar (hexDigit n) = some n := by
  have hall : ∀ k ∈ List.range 16, fromHexChar (hexDigit k) = some k := by decide
  exact hall n (List.mem_range.mpr h)

@[simp] theorem hexDecode_hexEncode (s : Bytes) : hexDecode (hexEncode s) = some s := by
  induction s with
  | nil => rfl
  | cons b s ih =>
      have hb : b.toNat < 256 := b.toNat_lt
      have hsplit : b.toNat / 16 * 16 + b.toNat % 16 = b.toNat := by omega
      simp only [hexEncode, hexDecode, fromHexChar_hexDigit (show b.toNat / 16 < 16 by omega),
        fromHexChar_hexDigit (show b.toNat % 16 < 16 by omega), ih, hsplit, UInt8.ofNat_toNat]

@[simp] theorem length_hexEncode (s : Bytes) : (hexEncode s).length = 2 * s.length := by
  induction s with
  | nil => rfl
  | cons b s ih =>
      simp only [hexEncode, List.length_cons, ih]
      omega

theorem length_of_hexDecode {s d : Bytes} (h : hexDecode s = some d) : s.length = 2 * d.length := by
  fun_induction hexDecode s generalizing d with
  | case1 => simp_all
  | case2 => simp at h
  | case3 a b s hi lo rest _ _ _ ih =>
      rw [← Option.some.inj h, List.length_cons, List.length_cons, List.length_cons, ih (by assumption)]
      omega
  | case4 => cases h

theorem isSome_of_hexDecode {s d : Bytes} (h : hexDecode s = some d) {c : UInt8} (hc : c ∈ s) :
    (fromHexChar c).isSome := by
  fun_induction hexDecode s generalizing d with
  | case1 => simp at hc
  | case2 => cases h
  | case3 a b s hi lo rest _ hlo hhi ih =>
      rcases List.mem_cons.mp hc with rfl | hc
      · rw [hhi, Option.isSome_some]
      rcases List.mem_cons.mp hc with rfl | hc
      · rw [hlo, Option.isSome_some]
      · exact ih (by assumption) hc
  | case4 => cases h

theorem notMem_hexEncode {s : Bytes} {c : UInt8} (hc : fromHexChar c = none) : c ∉ hexEncode s := by
  intro hmem
  have hsome := isSome_of_hexDecode (hexDecode_hexEncode s) hmem
  rw [hc] at hsome
  cases hsome

theorem isPrint_of_isSome_fromHexChar {c : UInt8} (h : (fromHexChar c).isSome) : isPrint c := by
  have hall : ∀ n ∈ List.range 256, (fromHexChar (UInt8.ofNat n)).isSome →
      isPrint (UInt8.ofNat n) := by
    decide +kernel
  have hc := hall c.toNat (List.mem_range.mpr c.toNat_lt)
  rw [UInt8.ofNat_toNat] at hc
  exact hc h

theorem isPrint_of_mem_hexEncode {s : Bytes} {c : UInt8} (h : c ∈ hexEncode s) : isPrint c :=
  isPrint_of_isSome_fromHexChar (isSome_of_hexDecode (hexDecode_hexEncode s) h)

theorem trimSpace_hexEncode (s : Bytes) : trimSpace (hexEncode s) = hexEncode s :=
  trimSpace_eq_self (fun _ hb => isPrint_of_mem_hexEncode (List.mem_of_head? hb))
    (fun _ hb => isPrint_of_mem_hexEncode (List.mem_of_getLast? hb))

theorem hexEncode_ne_nil {s : Bytes} (h : s ≠ []) : hexEncode s ≠ [] := by
  cases s with
  | nil => exact absurd rfl h
  | cons b s => exact List.cons_ne_nil _ _

/-- A line that ends in the hex form of something loses its line feed only. -/
theorem trimSpace_hexLine {front payload : Bytes} (hfront : front ≠ [])
    (hhead : ∀ b, front.head? = some b → isPrint b) (hne : payload ≠ []) :
    trimSpace (front ++ hexEncode payload ++ [10]) = front ++ hexEncode payload := by
  apply trimSpace_append_newline
  · simp [hfront]
  · intro b hb
    rw [List.head?_append_of_ne_nil _ hfront] at hb
    exact hhead b hb
  · intro b hb
    rw [List.getLast?_append_of_ne_nil _ (hexEncode_ne_nil hne)] at hb
    exact isPrint_of_mem_hexEncode (List.mem_of_getLast? hb)

theorem space_notMem {s : Bytes} (h : ∀ b ∈ s, isPrint b) : (32 : UInt8) ∉ s := by
  intro hmem
  exact absurd (h 32 hmem) (by decide)

end Lib
