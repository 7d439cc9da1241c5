import Mathlib.Data.List.Basic
import Mathlib.Data.Set.Finite.Lemmas

/-!
# Timed machines and their runs

A machine takes one input at a time, each at a moment no earlier than the one before, changes its
state and emits outputs. A run keeps the log of what went in and what came out, newest entry first.
Times are integers, in nanoseconds. `ok` is a condition on a step, read off the state before it, that
every step of the run meets; for arbitrary runs it is `fun _ _ _ => True`.
-/

namespace Lib

structure Machine (σ ε ω : Type) where
  init : σ
  step : σ → Int → ε → σ × List ω

structure LogEntry (ε ω : Type) where
  time : Int
  event : ε
  outs : List ω

namespace Machine

variable {σ ε ω : Type} (m : Machine σ ε ω) (ok : σ → Int → ε → Prop)

inductive Run : List (LogEntry ε ω) → σ → Prop
  | init : Run [] m.init
  | step {log : List (LogEntry ε ω)} {s : σ} (now : Int) (e : ε) (hrun : Run log s)
      (hclock : ∀ x ∈ log.head?, x.time ≤ now) (hok : ok s now e) :
      Run (⟨now, e, (m.step s now e).2⟩ :: log) (m.step s now e).1

variable {m ok} {log : List (LogEntry ε ω)} {s : σ}

/-- What holds initially and is kept by every step that meets the condition holds in every state
such steps reach. -/
theorem Run.invariant {I : σ → Prop} (hrun : m.Run ok log s) (hinit : I m.init)
    (hstep : ∀ s now e, I s → ok s now e → I (m.step s now e).1) : I s := by
  induction hrun with
  | init => exact hinit
  | step now e _ _ hok ih => exact hstep _ now e ih hok

theorem Run.strengthen {I : σ → Prop} (hrun : m.Run ok log s) (hinit : I m.init)
    (hstep : ∀ s now e, I s → ok s now e → I (m.step s now e).1) :
    m.Run (fun s now e => ok s now e ∧ I s) log s := by
  induction hrun with
  | init => exact .init
  | step now e hrun hclock hok ih => exact .step now e ih hclock ⟨hok, hrun.invariant hinit hstep⟩

/-- The same for what relates the state to the log behind it. -/
theorem Run.invariant_log {I : List (LogEntry ε ω) → σ → Prop} (hrun : m.Run ok log s)
    (hinit : I [] m.init)
    (hstep : ∀ log s now e, I log s → ok s now e →
      I (⟨now, e, (m.step s now e).2⟩ :: log) (m.step s now e).1) : I log s := by
  induction hrun with
  | init => exact hinit
  | step now e _ _ hok ih => exact hstep _ _ now e ih hok

/-- The same for what relates both to the time. It may only get easier as time passes. -/
theorem Run.invariant_log_clock {I : Int → List (LogEntry ε ω) → σ → Prop} (hrun : m.Run ok log s)
    (hinit : ∀ t, I t [] m.init) (hlater : ∀ log s t t', t ≤ t' → I t log s → I t' log s)
    (hstep : ∀ log s now e, I now log s → ok s now e →
      I now (⟨now, e, (m.step s now e).2⟩ :: log) (m.step s now e).1) (now : Int)
    (hclock : ∀ x ∈ log.head?, x.time ≤ now) : I now log s := by
  induction hrun generalizing now with
  | init => exact hinit now
  | step before e _ hbefore hok ih =>
      exact hlater _ _ before now (hclock _ rfl) (hstep _ _ before e (ih before hbefore) hok)

theorem Run.invariant_clock {I : Int → σ → Prop} (hrun : m.Run ok log s) (hinit : ∀ t, I t m.init)
    (hlater : ∀ s t t', t ≤ t' → I t s → I t' s)
    (hstep : ∀ s now e, I now s → ok s now e → I now (m.step s now e).1) (now : Int)
    (hclock : ∀ x ∈ log.head?, x.time ≤ now) : I now s :=
  hrun.invariant_log_clock (I := fun now _ s => I now s) hinit (fun _ => hlater) (fun _ => hstep) now hclock

theorem exists_clock (log : List (LogEntry ε ω)) : ∃ now, ∀ x ∈ log.head?, x.time ≤ now := by
  cases log with
  | nil => exact ⟨0, fun x hx => nomatch hx⟩
  | cons x log =>
      refine ⟨x.time, fun y hy => ?_⟩
      obtain rfl := Option.some.inj hy
      exact le_refl _

theorem Run.pairwise_time (hrun : m.Run ok log s) : log.Pairwise fun x y => y.time ≤ x.time := by
  obtain ⟨now, hnow⟩ := exists_clock log
  have hsorted : (∀ x ∈ log, x.time ≤ now) ∧ log.Pairwise fun x y => y.time ≤ x.time :=
    hrun.invariant_log_clock (I := fun now log _ =>
      (∀ x ∈ log, x.time ≤ now) ∧ log.Pairwise fun x y => y.time ≤ x.time)
      (fun _ => ⟨fun x hx => absurd hx List.not_mem_nil, .nil⟩)
      (fun _ _ _ _ hle h => ⟨fun x hx => (h.1 x hx).trans hle, h.2⟩)
      (fun _ _ _ _ h _ => ⟨List.forall_mem_cons.mpr ⟨le_refl _, h.1⟩, .cons h.1 h.2⟩) now hnow
  exact hsorted.2

theorem Run.of_suffix {x : LogEntry ε ω} {older : List (LogEntry ε ω)} (hrun : m.Run ok log s)
    (hsuffix : x :: older <:+ log) :
    ∃ s', m.Run ok older s' ∧ x.outs = (m.step s' x.time x.event).2 := by
  induction hrun with
  | init => exact absurd (List.suffix_nil.mp hsuffix) (List.cons_ne_nil x older)
  | step now e hrun _ _ ih =>
      rcases List.suffix_cons_iff.mp hsuffix with heq | hsuffix
      · cases heq
        exact ⟨_, hrun, rfl⟩
      · exact ih hsuffix

theorem exists_latest {log : List (LogEntry ε ω)} {P : LogEntry ε ω → Prop} {x : LogEntry ε ω}
    (hx : x ∈ log) (hP : P x) : ∃ y ∈ log, P y ∧ ∀ z ∈ log, P z → z.time ≤ y.time := by
  obtain ⟨y, ⟨hy, hPy⟩, hlatest⟩ := Set.exists_max_image {z | z ∈ log ∧ P z} LogEntry.time
    ((List.finite_toSet log).subset fun z hz => hz.1) ⟨x, hx, hP⟩
  exact ⟨y, hy, hPy, fun z hz hPz => hlatest z ⟨hz, hPz⟩⟩

/-! ### From a state on -/

variable (m ok) in
/-- A stretch of a run, from any state on; the log is that of the stretch. -/
inductive Steps : σ → List (LogEntry ε ω) → σ → Prop
  | refl (s : σ) : Steps s [] s
  | step {s s' : σ} {log : List (LogEntry ε ω)} (now : Int) (e : ε) (hsteps : Steps s log s')
      (hok : ok s' now e) : Steps s (⟨now, e, (m.step s' now e).2⟩ :: log) (m.step s' now e).1

theorem Steps.invariant_log {I : List (LogEntry ε ω) → σ → Prop} {s' : σ}
    (hsteps : m.Steps ok s log s') (hinit : I [] s)
    (hstep : ∀ log s now e, I log s → ok s now e →
      I (⟨now, e, (m.step s now e).2⟩ :: log) (m.step s now e).1) : I log s' := by
  induction hsteps with
  | refl => exact hinit
  | step now e _ hok ih => exact hstep _ _ now e ih hok

/-! ### Running a list of inputs -/

variable (m ok) in
def exec : σ → List (Int × ε) → σ
  | s, [] => s
  | s, (now, e) :: rest => exec (m.step s now e).1 rest

variable (m ok) in
/-- The inputs come in the order of their times, from `clock` on, and each meets the condition. -/
def Admissible : Option Int → σ → List (Int × ε) → Prop
  | _, _, [] => True
  | clock, s, (now, e) :: rest =>
    (∀ t ∈ clock, t ≤ now) ∧ ok s now e ∧ Admissible (some now) (m.step s now e).1 rest

instance instDecidableAdmissible [∀ s now e, Decidable (ok s now e)] :
    ∀ (clock : Option Int) (s : σ) (inputs : List (Int × ε)),
      Decidable (m.Admissible ok clock s inputs)
  | _, _, [] => inferInstanceAs (Decidable True)
  | none, s, (now, e) :: rest =>
    have := instDecidableAdmissible (some now) (m.step s now e).1 rest
    decidable_of_iff (ok s now e ∧ m.Admissible ok (some now) (m.step s now e).1 rest)
      (by simp [Admissible])
  | some t, s, (now, e) :: rest =>
    have := instDecidableAdmissible (some now) (m.step s now e).1 rest
    decidable_of_iff (t ≤ now ∧ ok s now e ∧ m.Admissible ok (some now) (m.step s now e).1 rest)
      (by simp [Admissible])

variable (m) in
def execLog : σ → List (Int × ε) → List (LogEntry ε ω)
  | _, [] => []
  | s, (now, e) :: rest => execLog (m.step s now e).1 rest ++ [⟨now, e, (m.step s now e).2⟩]

theorem Steps.exec {s' : σ} (hsteps : m.Steps ok s log s') {clock : Option Int}
    {inputs : List (Int × ε)} (hadm : m.Admissible ok clock s' inputs) :
    m.Steps ok s (m.execLog s' inputs ++ log) (m.exec s' inputs) := by
  induction inputs generalizing log s' clock with
  | nil => exact hsteps
  | cons input rest ih =>
      obtain ⟨now, e⟩ := input
      obtain ⟨_, hok, hrest⟩ := hadm
      rw [execLog, List.append_assoc]
      exact ih (hsteps.step now e hok) hrest

/-- What one of the inputs brings about and all of them keep holds in the end. -/
theorem exec_of_mem {J P : σ → Prop} {x : Int × ε} {inputs : List (Int × ε)} (hx : x ∈ inputs)
    (hJ : ∀ s, ∀ y ∈ inputs, J s → J (m.step s y.1 y.2).1)
    (hkeep : ∀ s, ∀ y ∈ inputs, P s → P (m.step s y.1 y.2).1)
    (hmake : ∀ s, J s → P (m.step s x.1 x.2).1) (h : J s) : P (m.exec s inputs) := by
  have hrest : ∀ (inputs : List (Int × ε)) (s : σ), (∀ s, ∀ y ∈ inputs, P s → P (m.step s y.1 y.2).1) →
      P s → P (m.exec s inputs) := by
    intro inputs
    induction inputs with
    | nil => exact fun s _ h => h
    | cons y inputs ih =>
        intro s hkeep h
        exact ih _ (fun s z hz => hkeep s z (List.mem_cons_of_mem y hz)) (hkeep s y List.mem_cons_self h)
  induction inputs generalizing s with
  | nil => cases hx
  | cons y inputs ih =>
      have hkeep' : ∀ s, ∀ z ∈ inputs, P s → P (m.step s z.1 z.2).1 :=
        fun s z hz => hkeep s z (List.mem_cons_of_mem y hz)
      rcases List.mem_cons.mp hx with rfl | hx
      · exact hrest inputs _ hkeep' (hmake s h)
      · exact ih hx (fun s z hz => hJ s z (List.mem_cons_of_mem y hz)) hkeep' (hJ s y List.mem_cons_self h)

theorem execLog_append (s : σ) (inputs inputs' : List (Int × ε)) :
    m.execLog s (inputs ++ inputs') = m.execLog (m.exec s inputs) inputs' ++ m.execLog s inputs := by
  induction inputs generalizing s with
  | nil => simp [execLog, Machine.exec]
  | cons input rest ih =>
      rw [List.cons_append, execLog, execLog, ih, Machine.exec, List.append_assoc]

theorem Run.execLog (hrun : m.Run ok log s) {inputs : List (Int × ε)}
    (hadm : m.Admissible ok (log.head?.map LogEntry.time) s inputs) :
    m.Run ok (m.execLog s inputs ++ log) (m.exec s inputs) := by
  induction inputs generalizing log s with
  | nil => exact hrun
  | cons input rest ih =>
      obtain ⟨now, e⟩ := input
      obtain ⟨hclock, hok, hrest⟩ := hadm
      have hstep := Run.step now e hrun
        (fun x hx => hclock x.time (by simpa using ⟨x, hx, rfl⟩)) hok
      rw [Machine.execLog, List.append_assoc]
      exact ih hstep hrest

theorem Run.exec (hrun : m.Run ok log s) {inputs : List (Int × ε)}
    (hadm : m.Admissible ok (log.head?.map LogEntry.time) s inputs) :
    ∃ log', m.Run ok log' (m.exec s inputs) :=
  ⟨_, hrun.execLog hadm⟩

/-! ### What a run can still come to -/

variable (m ok) in
/-- The run with this log can be continued, up to a time, to a state with the property. -/
def Can (log : List (LogEntry ε ω)) (t : Int) (P : σ → Prop) : Prop :=
  ∃ newer s, m.Run ok (newer ++ log) s ∧ (∀ x ∈ (newer ++ log).head?, x.time ≤ t) ∧ P s

variable {P Q : σ → Prop} {t t' : Int}

theorem Run.can (hrun : m.Run ok log s) (hclock : ∀ x ∈ log.head?, x.time ≤ t) (h : P s) : m.Can ok log t P :=
  ⟨[], s, hrun, hclock, h⟩

theorem Run.can_step (hrun : m.Run ok log s) (e : ε) (hclock : ∀ x ∈ log.head?, x.time ≤ t) (hok : ok s t e)
    (h : P (m.step s t e).1) : m.Can ok log t P := by
  refine ⟨[_], _, hrun.step t e hclock hok, fun x hx => ?_, h⟩
  obtain rfl := Option.some.inj hx
  exact le_refl t

theorem Can.bind (h : m.Can ok log t P)
    (hnext : ∀ log s, m.Run ok log s → (∀ x ∈ log.head?, x.time ≤ t) → P s → m.Can ok log t' Q) :
    m.Can ok log t' Q := by
  obtain ⟨newer, s, hrun, hclock, hP⟩ := h
  obtain ⟨newest, s', hrun', hclock', hQ⟩ := hnext _ s hrun hclock hP
  rw [← List.append_assoc] at hrun' hclock'
  exact ⟨_, s', hrun', hclock', hQ⟩

theorem Can.mono (h : m.Can ok log t P) (himp : ∀ s, P s → Q s) : m.Can ok log t Q :=
  h.bind fun _ _ hrun hclock hP => hrun.can hclock (himp _ hP)

/-! ### Simulation -/

section

variable {τ : Type} {m' : Machine τ ε ω} {R : Int → σ → τ → Prop} {p : ε → Bool}

/-- Two machines on the same inputs, where one step keeps them related and gives the same outputs to the
inputs in question: the logs agree on these. -/
theorem execLog_filter_of_sim
    (hstep : ∀ now s t e, R now s t → ok s now e → R now (m.step s now e).1 (m'.step t now e).1 ∧
      (p e = true → (m.step s now e).2 = (m'.step t now e).2))
    (hlater : ∀ s t now now', now ≤ now' → R now s t → R now' s t) {clock : Option Int} {s : σ} {t : τ}
    {inputs : List (Int × ε)} (hadm : m.Admissible ok clock s inputs)
    (hrel : ∀ now, (∀ before ∈ clock, before ≤ now) → R now s t) :
    (m.execLog s inputs).filter (fun x => p x.event) = (m'.execLog t inputs).filter fun x => p x.event := by
  induction inputs generalizing clock s t with
  | nil => rfl
  | cons input rest ih =>
      obtain ⟨now, e⟩ := input
      obtain ⟨hclock, hok, hrest⟩ := hadm
      obtain ⟨hnext, houts⟩ := hstep now s t e (hrel now hclock) hok
      rw [execLog, execLog, List.filter_append, List.filter_append,
        ih hrest fun now' hnow' => hlater _ _ now now' (hnow' now rfl) hnext]
      congr 1
      by_cases hp : p e = true
      · rw [houts hp]
      · simp [hp]

theorem execLog_filter_of_idle (hidle : ∀ s now e, p e = false → (m.step s now e).1 = s) (s : σ)
    (inputs : List (Int × ε)) :
    (m.execLog s inputs).filter (fun x => p x.event) = m.execLog s (inputs.filter fun x => p x.2) := by
  induction inputs generalizing s with
  | nil => rfl
  | cons input rest ih =>
      obtain ⟨now, e⟩ := input
      rw [execLog, List.filter_append, ih]
      cases hp : p e with
      | true => simp [hp, execLog]
      | false => simp [hp, hidle s now e hp]

end

end Machine

end Lib
