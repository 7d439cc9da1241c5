import Qvole.Lib.Machine

/-!
# Counting in fixed windows

A limiter that counts in fixed windows grants up to `n` requests from the start of a window on and opens
the next window no earlier than `gap` later. Where the windows fall is up to the requests, so an interval
shorter than `gap` may meet two of them and sees at most `2 * n` grants. What is still to be granted in
the interval is the potential that shows it: every way the window may move pays for what it grants.

To forget a window that is over changes nothing: the next request opens a new one either way.
-/

namespace Lib

structure Window where
  start : Int
  count : Nat
  deriving DecidableEq

namespace Window

variable {n : Nat} {gap now t a b : Int} {w w' : Option Window} {granted : Bool}

/-- The next window may be opened. -/
def Over (gap now : Int) (w : Option Window) : Prop := ∀ old ∈ w, old.start + gap ≤ now

theorem Over.mono (h : Over gap now w) (hlater : now ≤ t) : Over gap t w :=
  fun old hold => le_trans (h old hold) hlater

/-- What one step of a limiter may do to its window, and whether it grants a request. -/
inductive Moves (n : Nat) (gap now : Int) : Bool → Option Window → Option Window → Prop
  | keep (w : Option Window) : Moves n gap now false w w
  | restart {w : Option Window} (h : Over gap now w) : Moves n gap now false w (some ⟨now, 0⟩)
  | first {w : Option Window} (hn : 0 < n) (h : Over gap now w) : Moves n gap now true w (some ⟨now, 1⟩)
  | next (start : Int) {count : Nat} (hn : count < n) :
      Moves n gap now true (some ⟨start, count⟩) (some ⟨start, count + 1⟩)
  | forget {w : Option Window} (h : Over gap now w) : Moves n gap now false w none

/-- How much may be granted up to `b`: what is left of this window, and all of the next one if it may
be opened before. -/
def budget (n : Nat) (gap b : Int) : Option Window → Nat
  | none => n
  | some w => (n - w.count) + if w.start + gap ≤ b then n else 0

theorem budget_le (w : Option Window) : budget n gap b w ≤ 2 * n := by
  cases w with
  | none =>
      rw [budget]
      omega
  | some w =>
      rw [budget]
      split <;> omega

theorem Over.le_budget (h : Over gap now w) (hb : now ≤ b) : n ≤ budget n gap b w := by
  cases w with
  | none => exact le_refl n
  | some w =>
      rw [budget, if_pos (le_trans (h w rfl) hb)]
      omega

/-- Within an interval shorter than `gap` a step pays for what it grants. -/
theorem Moves.budget (h : Moves n gap now granted w w') (ha : a ≤ now) (hb : now ≤ b) (hab : b < a + gap) :
    Window.budget n gap b w' + granted.toNat ≤ Window.budget n gap b w := by
  have hnew (count : Nat) : Window.budget n gap b (some ⟨now, count⟩) = n - count := by
    rw [Window.budget, if_neg (by dsimp only; omega), Nat.add_zero]
  cases h with
  | keep => exact le_refl _
  | restart hover =>
      rw [hnew]
      exact hover.le_budget hb
  | first hn hover =>
      have hle := hover.le_budget (n := n) hb
      rw [hnew, Bool.toNat_true]
      omega
  | next start hn =>
      rw [Window.budget, Window.budget, Bool.toNat_true]
      dsimp only
      omega
  | forget hover => exact hover.le_budget hb

/-! ### Requests -/

/-- One request of a limiter that forgets nothing. -/
def hit (n : Nat) (gap now : Int) : Option Window → Bool × Option Window
  | none => (true, some ⟨now, 1⟩)
  | some w =>
    if w.start + gap ≤ now then (true, some ⟨now, 1⟩)
    else if n ≤ w.count then (false, some w)
    else (true, some ⟨w.start, w.count + 1⟩)

theorem hit_of_over (h : Over gap now w) : hit n gap now w = (true, some ⟨now, 1⟩) := by
  cases w with
  | none => rfl
  | some w => rw [hit, if_pos (h w rfl)]

theorem hit_moves (hn : 0 < n) (w : Option Window) :
    Moves n gap now (hit n gap now w).1 w (hit n gap now w).2 := by
  by_cases hover : Over gap now w
  · rw [hit_of_over hover]
    exact .first hn hover
  · cases w with
    | none => exact absurd (fun old hold => nomatch hold) hover
    | some w =>
        have hnot : ¬ w.start + gap ≤ now := by
          intro hle
          apply hover
          intro old hold
          obtain rfl := Option.some.inj hold
          exact hle
        rw [hit, if_neg hnot]
        split
        · exact .keep _
        · exact .next w.start (Nat.lt_of_not_le ‹_›)

/-- `w` is what is left of `w'`: all of it, or nothing because it is over. -/
def Remains (gap now : Int) (w w' : Option Window) : Prop := w = w' ∨ w = none ∧ Over gap now w'

theorem Remains.later (h : Remains gap now w w') (hlater : now ≤ t) : Remains gap t w w' :=
  h.imp_right fun hover => ⟨hover.1, hover.2.mono hlater⟩

theorem Remains.hit (h : Remains gap now w w') : Window.hit n gap now w = Window.hit n gap now w' := by
  rcases h with rfl | ⟨rfl, hover⟩
  · rfl
  · rw [hit_of_over hover]
    rfl

/-! ### Runs -/

theorem ite_eq_toNat (granted : Bool) : (if granted = true then 1 else 0) = granted.toNat := by
  cases granted <;> rfl

section

variable {σ ε ω : Type} {m : Machine σ ε ω} {ok : σ → Int → ε → Prop} {log : List (LogEntry ε ω)} {s : σ}

/-- The entry falls into the interval and is a grant. -/
def grantIn (grants : LogEntry ε ω → Bool) (a b : Int) (x : LogEntry ε ω) : Bool :=
  grants x && decide (a ≤ x.time ∧ x.time ≤ b)

/-- What was granted in the interval and what may still be granted: before the interval nothing was,
within it the budget bounds both. -/
structure Spent (n : Nat) (gap a b now : Int) (w : Option Window) (spent : Nat) : Prop where
  before : now < a → spent = 0
  within : now ≤ b → spent + budget n gap b w ≤ 2 * n
  total : spent ≤ 2 * n

theorem Spent.later {spent : Nat} (h : Spent n gap a b now w spent) (hlater : now ≤ t) :
    Spent n gap a b t w spent where
  before hlt := h.before (lt_of_le_of_lt hlater hlt)
  within hle := h.within (le_trans hlater hle)
  total := h.total

theorem Spent.moves {spent : Nat} (h : Spent n gap a b now w spent) (hmoves : Moves n gap now granted w w')
    (hab : b < a + gap) :
    Spent n gap a b now w' (spent + if granted && decide (a ≤ now ∧ now ≤ b) then 1 else 0) := by
  by_cases hin : a ≤ now ∧ now ≤ b
  · have hbudget := hmoves.budget hin.1 hin.2 hab
    have hwithin := h.within hin.2
    rw [decide_eq_true hin, Bool.and_true, ite_eq_toNat]
    exact ⟨fun hlt => by omega, fun _ => by omega, by omega⟩
  · rw [decide_eq_false hin, Bool.and_false, if_neg Bool.false_ne_true, Nat.add_zero]
    refine ⟨h.before, fun hle => ?_, h.total⟩
    -- the interval is still to come
    rw [h.before (by omega), Nat.zero_add]
    exact budget_le w'

theorem Spent.mono {spent spent' : Nat} (h : Spent n gap a b now w spent) (hle : spent' ≤ spent) :
    Spent n gap a b now w spent' where
  before hlt := Nat.le_zero.mp (hle.trans_eq (h.before hlt))
  within hb := (Nat.add_le_add_right hle _).trans (h.within hb)
  total := hle.trans h.total

/-- If every step of a machine moves a window that is part of its state, no interval shorter than `gap`
sees more than `2 * n` of what only a granted request may do. -/
theorem run_bound_of_granted (hrun : m.Run ok log s) (window : σ → Option Window)
    (does : LogEntry ε ω → Bool)
    (hstep : ∀ s now e, ok s now e → ∃ granted,
      (does ⟨now, e, (m.step s now e).2⟩ = true → granted = true) ∧
        Moves n gap now granted (window s) (window (m.step s now e).1)) (hab : b < a + gap) :
    log.countP (grantIn does a b) ≤ 2 * n := by
  obtain ⟨now, hnow⟩ := Machine.exists_clock log
  have hspent : Spent n gap a b now (window s) (log.countP (grantIn does a b)) := by
    refine hrun.invariant_log_clock
      (I := fun now log s => Spent n gap a b now (window s) (log.countP (grantIn does a b)))
      ?_ (fun _ _ _ _ hle h => h.later hle) ?_ now hnow
    · exact fun _ => ⟨fun _ => rfl, fun _ => (Nat.zero_add _).trans_le (budget_le _), Nat.zero_le _⟩
    · intro log s now e h hok
      obtain ⟨granted, himp, hmoves⟩ := hstep s now e hok
      refine (h.moves hmoves hab).mono ?_
      rw [List.countP_cons]
      apply Nat.add_le_add_left
      rw [grantIn, ite_eq_toNat, ite_eq_toNat]
      refine Bool.toNat_le_toNat ?_
      cases hdoes : does ⟨now, e, (m.step s now e).2⟩ with
      | false => exact Bool.false_le _
      | true =>
          rw [himp hdoes]
  exact hspent.total

/-- The same for the grants themselves. -/
theorem run_bound (hrun : m.Run ok log s) (window : σ → Option Window) (grants : LogEntry ε ω → Bool)
    (hstep : ∀ s now e, ok s now e → Moves n gap now (grants ⟨now, e, (m.step s now e).2⟩) (window s)
      (window (m.step s now e).1)) (hab : b < a + gap) :
    log.countP (grantIn grants a b) ≤ 2 * n :=
  run_bound_of_granted hrun window grants (fun s now e hok => ⟨_, id, hstep s now e hok⟩) hab

end

end Window

end Lib
