import Mathlib.Data.List.TakeWhile
import Qvole.Lib.Net

/-!
# Addresses as text, and back

Printing an address and parsing the text gives the address again: `parseIP` undoes `IP.string`, up to
the IPv4-mapped form of an IPv4 address, and `splitHostPort` undoes `joinHostPort` on hosts without
brackets. An IPv6 text is read from the front, one group at a time; the groups that `::` stands for are
zero because `zeroRun` found them so.
-/

namespace Lib

/-! ### Digits -/

def digitByte (k : Nat) : UInt8 := UInt8.ofNat k.digitChar.toNat

variable {b n : Nat} {c : UInt8}

theorem digits_of_lt (h : n < b) : digits b n = [digitByte n] := by
  rw [digits, Nat.toDigits_of_lt_base h]
  rfl

theorem digits_of_le (hb : 1 < b) (h : b ≤ n) :
    digits b n = digits b (n / b) ++ [digitByte (n % b)] := by
  rw [digits, Nat.toDigits_of_base_le hb h, List.map_append]
  rfl

theorem digits_ne_nil : digits b n ≠ [] := by
  intro h
  exact Nat.toDigits_ne_nil (List.map_eq_nil_iff.mp h)

theorem exists_of_mem_digits (hb : 1 < b) (h : c ∈ digits b n) : ∃ k < b, c = digitByte k := by
  induction n using Nat.strongRecOn with
  | _ n ih =>
      by_cases hn : n < b
      · rw [digits_of_lt hn] at h
        exact ⟨n, hn, List.mem_singleton.mp h⟩
      · have hle := Nat.le_of_not_lt hn
        rw [digits_of_le hb hle, List.mem_append] at h
        rcases h with h | h
        · exact ih (n / b) (Nat.div_lt_self (by omega) hb) h
        · exact ⟨n % b, Nat.mod_lt n (by omega), List.mem_singleton.mp h⟩

theorem fromHexChar_digitByte {k : Nat} (h : k < 16) : fromHexChar (digitByte k) = some k := by
  have hall : ∀ k ∈ List.range 16, fromHexChar (digitByte k) = some k := by decide
  exact hall k (List.mem_range.mpr h)

theorem isDigit_of_mem_itoa (h : c ∈ itoa n) : isDigit c := by
  obtain ⟨k, hk, rfl⟩ := exists_of_mem_digits (by decide) h
  have hall : ∀ k ∈ List.range 10, isDigit (digitByte k) := by decide
  exact hall k (List.mem_range.mpr hk)

theorem notMem_itoa (h : isDigit c = false) : c ∉ itoa n := by
  intro hmem
  rw [isDigit_of_mem_itoa hmem] at h
  cases h

theorem decimal_concat (s : Bytes) (c : UInt8) : decimal (s ++ [c]) = decimal s * 10 + (c.toNat - 48) := by
  rw [decimal, List.foldl_append]
  rfl

theorem decimal_itoa (n : Nat) : decimal (itoa n) = n := by
  have hdigit : ∀ k ∈ List.range 10, (digitByte k).toNat - 48 = k := by decide
  induction n using Nat.strongRecOn with
  | _ n ih =>
      by_cases hn : n < 10
      · rw [itoa, digits_of_lt hn]
        exact (Nat.zero_add _).trans (hdigit n (List.mem_range.mpr hn))
      · have hle := Nat.le_of_not_lt hn
        have hmod : n % 10 < 10 := Nat.mod_lt n (by decide)
        have hstep := ih (n / 10) (by omega)
        rw [itoa] at hstep
        rw [itoa, digits_of_le (by decide) hle, decimal_concat, hstep, hdigit _ (List.mem_range.mpr hmod)]
        omega

theorem decimal_zeros (k : Nat) (s : Bytes) : decimal (List.replicate k 48 ++ s) = decimal s := by
  induction k with
  | zero => rfl
  | succ k ih => exact ih

theorem length_itoa_le {k : Nat} (hk : 0 < k) (h : n < 10 ^ k) : (itoa n).length ≤ k := by
  rw [itoa, digits, List.length_map]
  exact (Nat.length_toDigits_le_iff (by decide) hk).mpr h

theorem isSome_of_mem_digits (h : c ∈ digits 16 n) : (fromHexChar c).isSome := by
  obtain ⟨k, hk, rfl⟩ := exists_of_mem_digits (by decide) h
  rw [fromHexChar_digitByte hk, Option.isSome_some]

theorem hexValue_digits (n : Nat) :
    (digits 16 n).foldl (fun v c => v * 16 + (fromHexChar c).getD 0) 0 = n := by
  induction n using Nat.strongRecOn with
  | _ n ih =>
      by_cases hn : n < 16
      · rw [digits_of_lt hn, List.foldl_cons, fromHexChar_digitByte hn]
        simp
      · have hle := Nat.le_of_not_lt hn
        have hmod : n % 16 < 16 := Nat.mod_lt n (by decide)
        rw [digits_of_le (by decide) hle, List.foldl_append, ih (n / 16) (by omega), List.foldl_cons,
          fromHexChar_digitByte hmod, Option.getD_some, List.foldl_nil]
        omega

theorem length_digits_le (h : n < 65536) : (digits 16 n).length ≤ 4 := by
  rw [digits, List.length_map]
  exact (Nat.length_toDigits_le_iff (by decide) (by decide)).mpr h

/-! ### Joined texts -/

theorem joinWith_singleton (sep : UInt8) (x : Bytes) : joinWith sep [x] = x := by
  simp [joinWith]

theorem joinWith_cons_cons (sep : UInt8) (x y : Bytes) (parts : List Bytes) :
    joinWith sep (x :: y :: parts) = x ++ sep :: joinWith sep (y :: parts) := by
  simp [joinWith, List.intercalate]

theorem length_joinWith_le (sep : UInt8) {k : Nat} {parts : List Bytes} (h : ∀ x ∈ parts, x.length ≤ k) :
    (joinWith sep parts).length ≤ (k + 1) * parts.length - 1 := by
  induction parts with
  | nil => simp [joinWith, List.intercalate]
  | cons x parts ih =>
      have hx := h x List.mem_cons_self
      cases parts with
      | nil =>
          rw [joinWith_singleton, List.length_singleton, Nat.mul_one]
          exact hx
      | cons y parts =>
          have hrest := ih fun z hz => h z (List.mem_cons_of_mem _ hz)
          rw [joinWith_cons_cons, List.length_append, List.length_cons]
          rw [List.length_cons, Nat.mul_succ] at hrest ⊢
          rw [List.length_cons, Nat.mul_succ]
          omega

theorem mem_joinWith {sep : UInt8} {parts : List Bytes} (h : c ∈ joinWith sep parts) :
    c = sep ∨ ∃ x ∈ parts, c ∈ x := by
  induction parts with
  | nil => simp [joinWith, List.intercalate] at h
  | cons x parts ih =>
      cases parts with
      | nil =>
          rw [joinWith_singleton] at h
          exact Or.inr ⟨x, List.mem_cons_self, h⟩
      | cons y parts =>
          rw [joinWith_cons_cons, List.mem_append, List.mem_cons] at h
          rcases h with h | h | h
          · exact Or.inr ⟨x, List.mem_cons_self, h⟩
          · exact Or.inl h
          · refine (ih h).imp_right ?_
            rintro ⟨z, hz, hc⟩
            exact ⟨z, List.mem_cons_of_mem x hz, hc⟩

/-! ### Dotted addresses -/

theorem parseOctet_itoa (b : UInt8) : parseOctet (itoa b.toNat) = some b := by
  have hall : ∀ n ∈ List.range 256, parseOctet (itoa n) = some (UInt8.ofNat n) := by decide +kernel
  have hb := hall b.toNat (List.mem_range.mpr b.toNat_lt)
  rwa [UInt8.ofNat_toNat] at hb

theorem dot_notMem_itoa : (46 : UInt8) ∉ itoa n := notMem_itoa (by decide)

theorem parseIPv4_dotted {ip : Bytes} (h : ip.length = 4) :
    parseIPv4 (joinWith 46 (ip.map fun b => itoa b.toNat)) = some ip := by
  obtain ⟨a, b, c, d, rfl⟩ : ∃ a b c d, ip = [a, b, c, d] := by
    match ip, h with
    | [a, b, c, d], _ => exact ⟨a, b, c, d, rfl⟩
  simp only [List.map_cons, List.map_nil, joinWith_cons_cons, joinWith_singleton]
  rw [parseIPv4, splitN_append _ _ dot_notMem_itoa, splitN_append _ _ dot_notMem_itoa,
    splitN_append _ _ dot_notMem_itoa, splitN_of_notMem _ dot_notMem_itoa]
  simp [parseOctet_itoa]

/-! ### Groups -/

/-- The bytes of a list of 16-bit groups. -/
def groupBytes (gs : List Nat) : Bytes := gs.flatMap fun g => [UInt8.ofNat (g / 256), UInt8.ofNat (g % 256)]

theorem groupBytes_append (gs gs' : List Nat) : groupBytes (gs ++ gs') = groupBytes gs ++ groupBytes gs' :=
  List.flatMap_append

theorem length_groupBytes (gs : List Nat) : (groupBytes gs).length = 2 * gs.length := by
  induction gs with
  | nil => rfl
  | cons g gs ih =>
      rw [groupBytes, List.flatMap_cons, List.length_append, List.length_cons]
      rw [groupBytes] at ih
      simp only [ih, List.length_cons, List.length_nil]
      omega

theorem groupBytes_zeros (n : Nat) : groupBytes (List.replicate n 0) = List.replicate (2 * n) 0 := by
  induction n with
  | zero => rfl
  | succ n ih =>
      rw [List.replicate_succ, ← List.singleton_append, groupBytes_append, ih]
      exact (List.replicate_add 2 (2 * n) 0).symm.trans (congrArg (List.replicate · 0) (by omega))

theorem groupBytes_groups {s : Bytes} (h : s.length % 2 = 0) : groupBytes (groups s) = s := by
  fun_induction groups s with
  | case1 a b s ih =>
      have hrest : s.length % 2 = 0 := by
        simp only [List.length_cons] at h
        omega
      have ha : (a.toNat * 256 + b.toNat) / 256 = a.toNat := by
        have := b.toNat_lt
        omega
      have hb : (a.toNat * 256 + b.toNat) % 256 = b.toNat := by
        have := b.toNat_lt
        omega
      rw [← List.singleton_append, groupBytes_append, ih hrest]
      simp [groupBytes, ha, hb]
  | case2 s hshort =>
      match s, hshort with
      | [], _ => rfl
      | [_], _ => cases h
      | a :: b :: s, hshort => exact absurd rfl (hshort a b s)

theorem groups_lt {s : Bytes} {g : Nat} (h : g ∈ groups s) : g < 65536 := by
  fun_induction groups s with
  | case1 a b s ih =>
      rcases List.mem_cons.mp h with rfl | h
      · have := a.toNat_lt
        have := b.toNat_lt
        omega
      · exact ih h
  | case2 => cases h

theorem length_groups {s : Bytes} (h : s.length % 2 = 0) : 2 * (groups s).length = s.length := by
  rw [← length_groupBytes, groupBytes_groups h]

/-- The digits at the front of a text end at the colon behind them. -/
theorem takeWhile_digits (n : Nat) (rest : Bytes) (hrest : ∀ c ∈ rest.head?, c = 58) :
    (digits 16 n ++ rest).takeWhile (fun c => (fromHexChar c).isSome) = digits 16 n ∧
      (digits 16 n ++ rest).dropWhile (fun c => (fromHexChar c).isSome) = rest := by
  rw [List.takeWhile_append_of_pos fun c hc => isSome_of_mem_digits hc,
    List.dropWhile_append_of_pos fun c hc => isSome_of_mem_digits hc]
  cases rest with
  | nil => simp
  | cons c rest =>
      rw [hrest c rfl]
      exact ⟨List.append_nil _, rfl⟩

section

variable {g : Nat} (fuel : Nat) (acc : Bytes) (ellipsis : Option Nat) (hg : g < 65536)
include hg

theorem digits_fit : ¬ (digits 16 g = [] ∨ 4 < (digits 16 g).length) := by
  have hlen := length_digits_le hg
  rintro (h | h)
  · exact digits_ne_nil h
  · omega

theorem parseGroups_last :
    parseGroups (fuel + 1) (digits 16 g) acc ellipsis = some (acc ++ groupBytes [g], ellipsis) := by
  obtain ⟨htake, hdrop⟩ := takeWhile_digits g [] (by simp)
  rw [List.append_nil] at htake hdrop
  rw [parseGroups]
  dsimp only
  rw [htake, hdrop, if_neg (digits_fit hg), hexValue_digits]
  rfl

theorem parseGroups_colon {c : UInt8} (more : Bytes) (hc : c ≠ 58) :
    parseGroups (fuel + 1) (digits 16 g ++ 58 :: c :: more) acc ellipsis =
      parseGroups fuel (c :: more) (acc ++ groupBytes [g]) ellipsis := by
  obtain ⟨htake, hdrop⟩ := takeWhile_digits g (58 :: c :: more) (by simp)
  rw [parseGroups]
  dsimp only
  rw [htake, hdrop, if_neg (digits_fit hg), hexValue_digits, if_neg (by simp)]
  dsimp only
  rw [if_neg (by simp), if_pos hc]
  rfl

theorem parseGroups_ellipsis (more : Bytes) :
    parseGroups (fuel + 1) (digits 16 g ++ 58 :: 58 :: more) acc none =
      if more = [] then some (acc ++ groupBytes [g], some (acc ++ groupBytes [g]).length)
      else parseGroups fuel more (acc ++ groupBytes [g]) (some (acc ++ groupBytes [g]).length) := by
  obtain ⟨htake, hdrop⟩ := takeWhile_digits g (58 :: 58 :: more) (by simp)
  rw [parseGroups]
  dsimp only
  rw [htake, hdrop, if_neg (digits_fit hg), hexValue_digits, if_neg (by simp)]
  dsimp only
  rw [if_neg (by simp), if_neg (by simp), if_neg (by simp)]
  rfl

end

/-- The text of a list of groups, all of them written out. -/
def groupsText (gs : List Nat) : Bytes := joinWith 58 (gs.map (digits 16))

theorem groupsText_nil : groupsText [] = [] := rfl

theorem groupsText_cons {gs : List Nat} (g : Nat) (h : gs ≠ []) :
    groupsText (g :: gs) = digits 16 g ++ 58 :: groupsText gs := by
  obtain ⟨x, gs, rfl⟩ := List.exists_cons_of_ne_nil h
  exact joinWith_cons_cons 58 _ _ _

theorem groupsText_eq_cons {gs : List Nat} (h : gs ≠ []) :
    ∃ c more, groupsText gs = c :: more ∧ c ≠ 58 := by
  obtain ⟨g, gs, rfl⟩ := List.exists_cons_of_ne_nil h
  obtain ⟨c, more, hdigits⟩ := List.exists_cons_of_ne_nil (digits_ne_nil (b := 16) (n := g))
  have hc : c ≠ 58 := by
    rintro rfl
    have hsome : (fromHexChar 58).isSome := isSome_of_mem_digits (n := g) (by rw [hdigits]; simp)
    exact absurd hsome (by decide)
  cases gs with
  | nil => exact ⟨c, more, (joinWith_singleton 58 _).trans hdigits, hc⟩
  | cons x gs =>
      rw [groupsText_cons g (List.cons_ne_nil x gs), hdigits, List.cons_append]
      exact ⟨c, _, rfl, hc⟩

/-- All groups but the last are read before it. -/
theorem parseGroups_front {gs : List Nat} {g : Nat} (hgs : ∀ x ∈ gs, x < 65536) (fuel : Nat) (acc : Bytes)
    (ellipsis : Option Nat) (rest : Bytes) :
    parseGroups (gs.length + fuel + 1) (groupsText (gs ++ [g]) ++ rest) acc ellipsis =
      parseGroups (fuel + 1) (digits 16 g ++ rest) (acc ++ groupBytes gs) ellipsis := by
  induction gs generalizing acc with
  | nil =>
      rw [List.length_nil, Nat.zero_add]
      simp [groupsText, joinWith_singleton, groupBytes]
  | cons x gs ih =>
      have hne : gs ++ [g] ≠ [] := by simp
      obtain ⟨c, more, htext, hc⟩ := groupsText_eq_cons hne
      have ih := ih (fun y hy => hgs y (List.mem_cons_of_mem x hy)) (acc ++ groupBytes [x])
      rw [htext, List.cons_append] at ih
      rw [List.cons_append, groupsText_cons x hne, htext, List.append_assoc, List.cons_append,
        List.cons_append, List.length_cons, Nat.add_right_comm gs.length 1 fuel,
        parseGroups_colon _ _ _ (hgs x List.mem_cons_self) _ hc, ih, List.append_assoc,
        ← groupBytes_append, List.singleton_append]

theorem parseGroups_groupsText {gs : List Nat} {fuel : Nat} (hne : gs ≠ []) (hgs : ∀ x ∈ gs, x < 65536)
    (hfuel : gs.length ≤ fuel) (acc : Bytes) (ellipsis : Option Nat) :
    parseGroups fuel (groupsText gs) acc ellipsis = some (acc ++ groupBytes gs, ellipsis) := by
  rcases List.eq_nil_or_concat gs with rfl | ⟨front, g, rfl⟩
  · exact absurd rfl hne
  rw [List.concat_eq_append] at *
  have hfront : ∀ x ∈ front, x < 65536 := fun x hx => hgs x (List.mem_append_left _ hx)
  obtain ⟨more, rfl⟩ := Nat.exists_eq_add_of_le hfuel
  rw [List.length_append, List.length_singleton, Nat.add_right_comm,
    ← List.append_nil (groupsText _), parseGroups_front hfront, List.append_nil,
    parseGroups_last _ _ _ (hgs g (by simp)), List.append_assoc, ← groupBytes_append]

theorem expandEllipsis_append {front back : Bytes} {n : Nat} (h : front.length + n + back.length = 16)
    (hn : 0 < n) :
    expandEllipsis (front ++ back, some front.length) = some (front ++ List.replicate n 0 ++ back) := by
  have hlen : (front ++ back).length = 16 - n := by
    rw [List.length_append]
    omega
  rw [expandEllipsis, if_pos (by omega), List.take_left' rfl, List.drop_left' rfl, hlen,
    show 16 - (16 - n) = n by omega]

theorem parseIPv6_groupsText {gs : List Nat} (hlen : gs.length = 8) (hgs : ∀ x ∈ gs, x < 65536) :
    parseIPv6 (groupsText gs) = some (groupBytes gs) := by
  have hne : gs ≠ [] := by
    rintro rfl
    cases hlen
  obtain ⟨c, more, htext, hc⟩ := groupsText_eq_cons hne
  have hstart : ¬ (groupsText gs).take 2 = [58, 58] := by
    rw [htext]
    intro h
    exact hc (List.cons.inj h).1
  rw [parseIPv6, if_neg hstart, parseGroups_groupsText hne hgs (Nat.le_of_eq hlen)]
  simp [expandEllipsis, length_groupBytes, hlen]

/-- The groups that `::` leaves out are zero. -/
theorem parseIPv6_compressed {front back : List Nat} {n : Nat} (hlen : front.length + n + back.length = 8)
    (hn : 0 < n) (hfront : ∀ x ∈ front, x < 65536) (hback : ∀ x ∈ back, x < 65536) :
    parseIPv6 (groupsText front ++ [58, 58] ++ groupsText back) =
      some (groupBytes (front ++ List.replicate n 0 ++ back)) := by
  have hbytes : (groupBytes front).length + 2 * n + (groupBytes back).length = 16 := by
    rw [length_groupBytes, length_groupBytes]
    omega
  have hexpand := expandEllipsis_append hbytes (by omega)
  rw [groupBytes_append, groupBytes_append, groupBytes_zeros, ← hexpand]
  rcases List.eq_nil_or_concat front with rfl | ⟨front, g, rfl⟩
  · rw [groupsText_nil, List.nil_append, parseIPv6, if_pos (by simp)]
    by_cases hempty : back = []
    · subst hempty
      rfl
    · obtain ⟨c, more, htext, _⟩ := groupsText_eq_cons hempty
      rw [if_neg (by rw [htext]; simp), show List.drop 2 ([58, 58] ++ groupsText back) = groupsText back from rfl,
        parseGroups_groupsText hempty hback (by omega)]
      rfl
  · rw [List.concat_eq_append] at *
    obtain ⟨c, more, htext, hc⟩ := groupsText_eq_cons (show front ++ [g] ≠ [] by simp)
    have hstart : ¬ (groupsText (front ++ [g]) ++ [58, 58] ++ groupsText back).take 2 = [58, 58] := by
      rw [htext]
      intro h
      exact hc (List.cons.inj h).1
    have hfuel : 8 = front.length + (7 - front.length) + 1 := by
      rw [List.length_append] at hlen
      omega
    have hread : parseGroups 8 (groupsText (front ++ [g]) ++ [58, 58] ++ groupsText back) [] none =
        some (groupBytes (front ++ [g]) ++ groupBytes back, some (groupBytes (front ++ [g])).length) := by
      rw [hfuel, List.append_assoc, parseGroups_front fun x hx => hfront x (List.mem_append_left _ hx),
        List.cons_append, List.cons_append, List.nil_append,
        parseGroups_ellipsis _ _ (hfront g (by simp)), List.nil_append, ← groupBytes_append]
      by_cases hempty : back = []
      · subst hempty
        rw [if_pos groupsText_nil]
        simp [groupBytes]
      · obtain ⟨c, more, htext, _⟩ := groupsText_eq_cons hempty
        rw [List.length_append, List.length_singleton] at hlen
        rw [if_neg (by rw [htext]; simp), parseGroups_groupsText hempty hback (by omega)]
    rw [parseIPv6, if_neg hstart, hread]
    rfl

/-! ### The run of zeros -/

theorem zeroRun_cases {gs : List Nat} {i lo hi : Nat} {best : Option (Nat × Nat)}
    (h : zeroRun i best gs = some (lo, hi)) : best = some (lo, hi) ∨ ∃ j, lo = i + j ∧
      hi = lo + ((gs.drop j).takeWhile (· = 0)).length ∧ 2 ≤ ((gs.drop j).takeWhile (· = 0)).length := by
  induction gs generalizing i best with
  | nil => exact Or.inl h
  | cons g gs ih =>
      rcases ih h with hbest | ⟨j, hlo, hrest⟩
      · split_ifs at hbest with hrun
        · obtain ⟨rfl, rfl⟩ := Prod.mk.inj (Option.some.inj hbest)
          exact Or.inr ⟨0, rfl, rfl, hrun.1⟩
        · exact Or.inl hbest
      · exact Or.inr ⟨j + 1, by omega, hrest⟩

/-- What `zeroRun` finds can be put back as zeros. -/
theorem zeroRun_spec {gs : List Nat} {lo hi : Nat} (h : zeroRun 0 none gs = some (lo, hi)) :
    ∃ n, 0 < n ∧ gs = gs.take lo ++ List.replicate n 0 ++ gs.drop hi := by
  rcases zeroRun_cases h with h | ⟨j, hlo, hhi, hlen⟩
  · cases h
  obtain rfl : lo = j := by omega
  generalize hrun : (gs.drop lo).takeWhile (· = 0) = run at hhi hlen
  have hzeros : run = List.replicate run.length 0 := by
    apply List.eq_replicate_of_mem
    intro x hx
    rw [← hrun] at hx
    have hzero := List.mem_takeWhile_imp hx
    exact of_decide_eq_true hzero
  have hsplit : gs.drop lo = run ++ (gs.drop lo).dropWhile (· = 0) := by
    rw [← hrun, List.takeWhile_append_dropWhile]
  have hrest : gs.drop hi = (gs.drop lo).dropWhile (· = 0) := by
    rw [hhi, ← List.drop_drop, hsplit, List.drop_left' rfl]
    rw [← hsplit]
  refine ⟨run.length, by omega, ?_⟩
  rw [← hzeros, hrest, List.append_assoc, ← hsplit, List.take_append_drop]

/-! ### Printing and parsing an address -/

theorem mem_groupsText {gs : List Nat} (h : c ∈ groupsText gs) : c = 58 ∨ (fromHexChar c).isSome := by
  rcases mem_joinWith h with h | ⟨x, hx, hc⟩
  · exact Or.inl h
  · obtain ⟨g, _, rfl⟩ := List.mem_map.mp hx
    exact Or.inr (isSome_of_mem_digits hc)

/-- The two ways an IPv6 address is written. -/
theorem IP.string_of_v6 {ip : IP} (hlen : ip.length = 16) (hv6 : ip.to4 = none) :
    ip.string = groupsText (groups ip) ∨ ∃ front n back, 0 < n ∧
      groups ip = front ++ List.replicate n 0 ++ back ∧
      ip.string = groupsText front ++ [58, 58] ++ groupsText back := by
  have hne : ip ≠ [] := by
    rintro rfl
    cases hlen
  rw [IP.string, hv6]
  dsimp only
  rw [if_neg hne, if_neg (not_not.mpr hlen)]
  cases hrun : zeroRun 0 none (groups ip) with
  | none => exact Or.inl rfl
  | some run =>
      obtain ⟨n, hn, hgroups⟩ := zeroRun_spec hrun
      exact Or.inr ⟨_, n, _, hn, hgroups, rfl⟩

theorem IP.string_chars_v6 {ip : IP} (hlen : ip.length = 16) (hv6 : ip.to4 = none) :
    58 ∈ ip.string ∧ ∀ c ∈ ip.string, c = 58 ∨ (fromHexChar c).isSome := by
  rcases IP.string_of_v6 hlen hv6 with h | ⟨front, n, back, _, _, h⟩
  · rw [h]
    refine ⟨?_, fun c => mem_groupsText⟩
    have hlength := length_groups (s := ip) (by rw [hlen])
    match hgs : groups ip with
    | [] =>
        rw [hgs, hlen] at hlength
        cases hlength
    | [_] =>
        rw [hgs, hlen] at hlength
        cases hlength
    | g :: x :: gs =>
        rw [groupsText_cons g (List.cons_ne_nil x gs)]
        simp
  · rw [h]
    refine ⟨by simp, ?_⟩
    intro c hc
    rw [List.mem_append, List.mem_append] at hc
    rcases hc with (hc | hc) | hc
    · exact mem_groupsText hc
    · left
      simpa using hc
    · exact mem_groupsText hc

theorem length_groupsText_le {gs : List Nat} (hgs : ∀ x ∈ gs, x < 65536) :
    (groupsText gs).length ≤ 5 * gs.length - 1 := by
  have hparts : ∀ x ∈ gs.map (digits 16), x.length ≤ 4 := by
    intro x hx
    obtain ⟨g, hg, rfl⟩ := List.mem_map.mp hx
    exact length_digits_le (hgs g hg)
  have hjoined := length_joinWith_le 58 hparts
  rwa [List.length_map] at hjoined

theorem IP.length_string_v6_le {ip : IP} (hlen : ip.length = 16) (hv6 : ip.to4 = none) :
    ip.string.length ≤ 39 := by
  have hlength := length_groups (s := ip) (by rw [hlen])
  have hgs : ∀ x ∈ groups ip, x < 65536 := fun x hx => groups_lt hx
  rcases IP.string_of_v6 hlen hv6 with h | ⟨front, n, back, hn, hgroups, h⟩
  · have htext := length_groupsText_le hgs
    rw [h]
    omega
  · rw [hgroups] at hgs hlength
    have hfront : (groupsText front).length ≤ _ := length_groupsText_le fun x hx => hgs x (by simp [hx])
    have hback : (groupsText back).length ≤ _ := length_groupsText_le fun x hx => hgs x (by simp [hx])
    simp only [List.length_append, List.length_replicate] at hlength
    rw [h, List.length_append, List.length_append, List.length_cons, List.length_singleton]
    omega

theorem find?_eq_some_of_unique {p : UInt8 → Bool} {s : Bytes} (hmem : c ∈ s) (hc : p c)
    (hunique : ∀ d ∈ s, p d → d = c) : s.find? p = some c := by
  cases hfind : s.find? p with
  | none => exact absurd hc (List.find?_eq_none.mp hfind c hmem)
  | some d =>
      rw [hunique d (List.mem_of_find?_eq_some hfind) (List.find?_some hfind)]

theorem parseIP_of_colon {s : Bytes} (hcolon : 58 ∈ s) (hchars : ∀ c ∈ s, c = 58 ∨ (fromHexChar c).isSome) :
    parseIP s = parseIPv6 s := by
  have hother : ∀ c : UInt8, fromHexChar c = none → c ∈ s → c = 58 := by
    intro c hhex hmem
    rcases hchars c hmem with h | h
    · exact h
    · rw [hhex] at h
      cases h
  have hfirst : (s.find? fun c => c == 46 || c == 58 || c == 37) = some 58 := by
    refine find?_eq_some_of_unique hcolon (by decide) ?_
    intro c hmem hsep
    simp only [Bool.or_eq_true, beq_iff_eq] at hsep
    rcases hsep with (rfl | rfl) | rfl
    · exact hother 46 (by decide) hmem
    · rfl
    · exact hother 37 (by decide) hmem
  have hpercent : 37 ∉ s := fun hmem => absurd (hother 37 (by decide) hmem) (by decide)
  rw [parseIP, hfirst]
  dsimp only
  rw [if_neg (by decide), if_pos ⟨rfl, hpercent⟩]

theorem parseIP_string_v6 {ip : IP} (hlen : ip.length = 16) (hv6 : ip.to4 = none) :
    parseIP ip.string = some ip := by
  obtain ⟨hcolon, hchars⟩ := IP.string_chars_v6 hlen hv6
  have hlength := length_groups (s := ip) (by rw [hlen])
  have hbytes := groupBytes_groups (s := ip) (by rw [hlen])
  have hgs : ∀ x ∈ groups ip, x < 65536 := fun x hx => groups_lt hx
  rw [parseIP_of_colon hcolon hchars]
  rcases IP.string_of_v6 hlen hv6 with h | ⟨front, n, back, hn, hgroups, h⟩
  · rw [h, parseIPv6_groupsText (by omega) hgs, hbytes]
  · rw [hgroups] at hgs hbytes hlength
    simp only [List.length_append, List.length_replicate] at hlength
    rw [h, parseIPv6_compressed (n := n) (by omega) hn, hbytes]
    · intro x hx
      exact hgs x (by simp [hx])
    · intro x hx
      exact hgs x (by simp [hx])

theorem IP.length_of_to4 {ip : IP} {ip4 : Bytes} (h : ip.to4 = some ip4) : ip4.length = 4 := by
  unfold IP.to4 at h
  split_ifs at h with hshort hmapped
  · rw [← Option.some.inj h, hshort]
  · rw [← Option.some.inj h, List.length_drop, hmapped.1]

theorem IP.to4_mapped {ip4 : Bytes} (h : ip4.length = 4) : IP.to4 (v4InV6Prefix ++ ip4) = some ip4 := by
  have hlen : (v4InV6Prefix ++ ip4).length = 16 := by rw [List.length_append, h]; rfl
  rw [IP.to4, if_neg (by rw [hlen]; decide), if_pos ⟨hlen, List.take_left' rfl⟩]
  exact congrArg some (List.drop_left' rfl)

theorem IP.string_of_to4 {ip : IP} {ip4 : Bytes} (h : ip.to4 = some ip4) :
    ip.string = joinWith 46 (ip4.map fun b => itoa b.toNat) := by
  rw [IP.string, h]

theorem IP.length_string_v4_le {ip : IP} {ip4 : Bytes} (h : ip.to4 = some ip4) : ip.string.length ≤ 15 := by
  have hparts : ∀ x ∈ ip4.map (fun b => itoa b.toNat), x.length ≤ 3 := by
    intro x hx
    obtain ⟨b, _, rfl⟩ := List.mem_map.mp hx
    exact length_itoa_le (by decide) (b.toNat_lt.trans (by decide))
  have hjoined := length_joinWith_le 46 hparts
  rwa [List.length_map, IP.length_of_to4 h, ← IP.string_of_to4 h] at hjoined

theorem IP.string_chars_v4 {ip : IP} {ip4 : Bytes} (h : ip.to4 = some ip4) (hc : c ∈ ip.string) :
    c = 46 ∨ isDigit c := by
  rw [IP.string_of_to4 h] at hc
  rcases mem_joinWith hc with hc | ⟨x, hx, hc⟩
  · exact Or.inl hc
  · obtain ⟨b, _, rfl⟩ := List.mem_map.mp hx
    exact Or.inr (isDigit_of_mem_itoa hc)

theorem parseIP_string_v4 {ip : IP} {ip4 : Bytes} (h : ip.to4 = some ip4) :
    parseIP ip.string = some (v4InV6Prefix ++ ip4) := by
  have hfirst : (ip.string.find? fun c => c == 46 || c == 58 || c == 37) = some 46 := by
    apply find?_eq_some_of_unique
    · rw [IP.string_of_to4 h]
      match ip4, IP.length_of_to4 h with
      | [a, b, c, d], _ =>
          rw [List.map_cons, List.map_cons, joinWith_cons_cons]
          simp
    · decide
    · intro c hmem hsep
      simp only [Bool.or_eq_true, beq_iff_eq] at hsep
      rcases IP.string_chars_v4 h hmem with hdot | hdigit
      · exact hdot
      · rcases hsep with (rfl | rfl) | rfl
        · rfl
        · cases hdigit
        · cases hdigit
  rw [parseIP, hfirst]
  dsimp only
  rw [if_pos rfl, IP.string_of_to4 h, parseIPv4_dotted (IP.length_of_to4 h), Option.map_some]

theorem mem_splitN (sep : UInt8) (n : Nat) {s : Bytes} (h : c ∈ s) :
    c = sep ∨ ∃ x ∈ splitN sep (n + 1) s, c ∈ x := by
  induction n generalizing s with
  | zero => exact Or.inr ⟨s, List.mem_singleton.mpr rfl, h⟩
  | succ n ih =>
      by_cases hsep : sep ∈ s
      · obtain ⟨front, back, rfl, hfront⟩ := List.eq_append_cons_of_mem hsep
        rw [splitN_append n back hfront]
        rw [List.mem_append, List.mem_cons] at h
        rcases h with h | h | h
        · exact Or.inr ⟨front, List.mem_cons_self, h⟩
        · exact Or.inl h
        · refine (ih h).imp_right ?_
          rintro ⟨x, hx, hc⟩
          exact ⟨x, List.mem_cons_of_mem front hx, hc⟩
      · rw [splitN_of_notMem (n + 1) hsep]
        exact Or.inr ⟨s, List.mem_singleton.mpr rfl, h⟩

theorem parseOctet_eq_none {s : Bytes} (hmem : c ∈ s) (hc : isDigit c = false) : parseOctet s = none := by
  apply if_neg
  rintro ⟨_, hdigits, _⟩
  rw [List.all_eq_true.mp hdigits c hmem] at hc
  cases hc

/-- An address with a zone is no address to `parseIP`. -/
theorem parseIP_of_percent {s : Bytes} (h : 37 ∈ s) : parseIP s = none := by
  have hv4 : parseIPv4 s = none := by
    unfold parseIPv4
    split
    · rename_i a b c d hsplit
      rcases mem_splitN 46 4 h with h | ⟨x, hx, hmem⟩
      · exact absurd h (by decide)
      · have hnone := parseOctet_eq_none hmem (by decide)
        rw [hsplit] at hx
        simp only [List.mem_cons, List.not_mem_nil, or_false] at hx
        rcases hx with rfl | rfl | rfl | rfl <;> simp [hnone]
    · rfl
  unfold parseIP
  split
  · split
    · rw [hv4]
      rfl
    · exact if_neg fun hv6 => hv6.2 h
  · rfl

/-! ### Host and port -/

theorem cutLast_append {sep : UInt8} (front : Bytes) {back : Bytes} (h : sep ∉ back) :
    cutLast sep (front ++ sep :: back) = some (front, back) := by
  have hrev : (front ++ sep :: back).reverse = back.reverse ++ sep :: front.reverse := by simp
  rw [cutLast, hrev, cut_append front.reverse (by simpa using h)]
  simp

theorem eq_of_cutLast_some {sep : UInt8} {s front back : Bytes} (h : cutLast sep s = some (front, back)) :
    s = front ++ sep :: back ∧ sep ∉ back := by
  unfold cutLast at h
  split at h
  · cases h
  · rename_i back' front' hcut
    obtain ⟨hs, hnot⟩ := eq_of_cut_some hcut
    cases h
    rw [List.mem_reverse]
    refine ⟨?_, hnot⟩
    rw [← s.reverse_reverse, hs]
    simp

/-- The text that `splitHostPort` takes apart, with the host in brackets or without a colon. -/
theorem splitHostPort_inv {s host port : Bytes} (h : splitHostPort s = some (host, port)) :
    (∀ c ∈ host ++ port, c ≠ 91 ∧ c ≠ 93) ∧ 58 ∉ port ∧
      (s = 91 :: (host ++ 93 :: 58 :: port) ∨ 58 ∉ host ∧ s = host ++ 58 :: port) := by
  have hplain : ∀ t : Bytes, 91 ∉ t → 93 ∉ t → ∀ c ∈ t, c ≠ 91 ∧ c ≠ 93 := by
    intro t hopen hclose c hc
    exact ⟨fun heq => hopen (heq ▸ hc), fun heq => hclose (heq ▸ hc)⟩
  unfold splitHostPort at h
  split at h
  · cases h
  rename_i front back hlast
  obtain ⟨hs, hport⟩ := eq_of_cutLast_some hlast
  split at h
  · rename_i hhead
    split at h
    · cases h
    rename_i inner after hcut
    obtain ⟨htail, hinner⟩ := eq_of_cut_some hcut
    split at h
    · rename_i hok
      obtain ⟨rfl, hopen, hclose⟩ := hok
      cases h
      rw [htail] at hopen
      refine ⟨hplain _ ?_ ?_, hport, Or.inl ?_⟩
      · simp at hopen
        simp [hopen]
      · simp at hclose
        simp [hinner, hclose]
      · rw [← List.cons_head?_tail hhead, htail]
    · cases h
  · split at h
    · cases h
    · rename_i hok
      cases h
      simp only [not_or] at hok
      rw [hs] at hok
      simp at hok
      refine ⟨hplain _ ?_ ?_, hport, Or.inr ⟨hok.1, hs⟩⟩
      · simp [hok]
      · simp [hok]

/-- What is read back from a joined text: the host itself, or the inside of a host in brackets. -/
theorem splitHostPort_join_inv {host port host' port' : Bytes} (hbalanced : host.count 91 = host.count 93)
    (h : splitHostPort (joinHostPort host port) = some (host', port')) :
    port' = port ∧ (host = host' ∧ 91 ∉ host ∨ host = 91 :: (host' ++ [93])) := by
  obtain ⟨hplain, _, hs⟩ := splitHostPort_inv h
  have hopen : 91 ∉ host' ∧ 91 ∉ port' :=
    ⟨fun hmem => (hplain 91 (List.mem_append_left _ hmem)).1 rfl,
      fun hmem => (hplain 91 (List.mem_append_right _ hmem)).1 rfl⟩
  have hclose : 93 ∉ host' ∧ 93 ∉ port' :=
    ⟨fun hmem => (hplain 93 (List.mem_append_left _ hmem)).2 rfl,
      fun hmem => (hplain 93 (List.mem_append_right _ hmem)).2 rfl⟩
  unfold joinHostPort at hs
  split at hs
  · rcases hs with hs | ⟨_, hs⟩
    · -- the only closing bracket of the right side ends the host on both
      rw [List.cons_append] at hs
      have htail := (List.cons.inj hs).2
      have hcount := congrArg (List.count 93) htail
      simp only [List.count_append, List.count_cons, List.count_eq_zero_of_not_mem hclose.1,
        List.count_eq_zero_of_not_mem hclose.2] at hcount
      have hnot : 93 ∉ host := by
        rw [← List.count_eq_zero]
        simp at hcount
        omega
      obtain ⟨hhost, hport⟩ := eq_of_append_cons htail hnot hclose.1
      exact ⟨(List.cons.inj hport).2.symm, Or.inl ⟨hhost, hhost ▸ hopen.1⟩⟩
    · have hmem : (91 : UInt8) ∈ host' ++ 58 :: port' := by
        rw [← hs]
        simp
      simp [hopen] at hmem
  · rename_i hcolon
    rcases hs with hs | ⟨hcolon', hs⟩
    · by_cases hinner : 58 ∈ host'
      · -- the host would end at that colon, with its bracket still open
        obtain ⟨u, v, hsplit, hu⟩ := List.eq_append_cons_of_mem hinner
        have hs' : host ++ 58 :: port = (91 :: u) ++ 58 :: (v ++ 93 :: 58 :: port') := by
          rw [hs, hsplit]
          simp
        have hhost := (eq_of_append_cons hs' hcolon (by simp [hu])).1
        rw [hsplit] at hopen hclose
        simp at hopen hclose
        rw [hhost] at hbalanced
        simp [List.count_eq_zero_of_not_mem hopen.1.1, List.count_eq_zero_of_not_mem hclose.1.1] at hbalanced
      · have hs' : host ++ 58 :: port = (91 :: (host' ++ [93])) ++ 58 :: port' := by
          rw [hs]
          simp
        obtain ⟨hhost, hport⟩ := eq_of_append_cons hs' hcolon (by simp [hinner])
        exact ⟨hport.symm, Or.inr hhost⟩
    · obtain ⟨hhost, hport⟩ := eq_of_append_cons hs hcolon hcolon'
      exact ⟨hport.symm, Or.inl ⟨hhost, hhost ▸ hopen.1⟩⟩

theorem splitHostPort_joinHostPort {host port : Bytes} (hopen : 91 ∉ host) (hclose : 93 ∉ host)
    (hport : ∀ c ∈ port, c ≠ 58 ∧ c ≠ 91 ∧ c ≠ 93) :
    splitHostPort (joinHostPort host port) = some (host, port) := by
  have hcolon : (58 : UInt8) ∉ port := fun h => (hport 58 h).1 rfl
  have hopen' : (91 : UInt8) ∉ port := fun h => (hport 91 h).2.1 rfl
  have hclose' : (93 : UInt8) ∉ port := fun h => (hport 93 h).2.2 rfl
  unfold joinHostPort
  split
  · have hlast : cutLast 58 (91 :: host ++ 93 :: 58 :: port) = some (91 :: host ++ [93], port) := by
      rw [← cutLast_append (91 :: host ++ [93]) hcolon]
      simp
    rw [splitHostPort, hlast]
    dsimp only
    rw [List.cons_append, List.head?_cons, if_pos rfl, List.tail_cons, cut_append _ hclose]
    dsimp only
    rw [if_pos ⟨rfl, by simp [hopen, hopen'], by simp [hclose']⟩]
  · rename_i hplain
    have hhead : ¬ (host ++ 58 :: port).head? = some 91 := by
      intro h
      have hmem := List.mem_of_head? h
      simp [hopen, hopen'] at hmem
    rw [splitHostPort, cutLast_append host hcolon]
    dsimp only
    rw [if_neg hhead, if_neg (by simp [hplain, hopen, hopen', hclose, hclose'])]

theorem length_joinHostPort_le (host port : Bytes) :
    (joinHostPort host port).length ≤ host.length + port.length + 3 := by
  rw [joinHostPort]
  split <;> simp only [List.length_append, List.length_cons] <;> omega

theorem IP.equal_self (ip : IP) : ip.equal ip = true := by
  simp [IP.equal]

/-! ### Addresses that `Equal` does not tell apart -/

/-- The short form of an address. -/
def IP.short (ip : IP) : IP := ip.to4.getD ip

theorem IP.equal_iff (ip x : IP) : ip.equal x = true ↔ ip.short = x.short := by
  have hjoin : ip.take 12 = x.take 12 → ip.drop 12 = x.drop 12 → ip = x := by
    intro htake hdrop
    rw [← List.take_append_drop 12 ip, htake, hdrop, List.take_append_drop]
  have hlength : ∀ y : IP, y.length = 16 → (y.drop 12).length = 4 := by
    intro y hy
    rw [List.length_drop, hy]
  unfold IP.equal IP.short IP.to4
  split_ifs <;> grind

theorem IP.to4_eq (ip : IP) : ip.to4 = if ip.short.length = 4 then some ip.short else none := by
  unfold IP.short IP.to4
  grind

variable {ip x : IP}

theorem IP.equal_congr (h : ip.equal x = true) (y : IP) : ip.equal y = x.equal y := by
  rw [Bool.eq_iff_iff, IP.equal_iff, IP.equal_iff, (IP.equal_iff ip x).mp h]

theorem IP.isUnspecified_congr (h : ip.equal x = true) : ip.isUnspecified = x.isUnspecified := by
  rw [IP.isUnspecified, IP.equal_congr h, IP.equal_congr h, IP.isUnspecified]

theorem IP.isMulticast_congr (h : ip.equal x = true) : ip.isMulticast = x.isMulticast := by
  have hshort := (IP.equal_iff ip x).mp h
  have hto4 : ip.to4 = x.to4 := by
    rw [IP.to4_eq, IP.to4_eq, hshort]
  rw [IP.isMulticast, IP.isMulticast, hto4]
  cases hx : x.to4 with
  | some ip4 => rfl
  | none =>
      have hsame : ip = x := by
        rw [IP.short, hto4, hx, IP.short, hx] at hshort
        exact hshort
      rw [hsame]

end Lib
