import Qvole.Lib.Machine

/-!
# Specifications and refinement

A specification says which steps are allowed: at a time, on an input and with certain outputs, from one
state to another. Unlike a machine it need not say which of them is taken. A machine refines it when
every step of a run, seen through an abstraction of its states and of its log, is an allowed one; what is
proved of all traces of the specification then holds of the logs of the machine.
-/

namespace Lib

structure Spec (σ ε ω : Type) where
  init : σ
  step : Int → ε → List ω → σ → σ → Prop

namespace Spec

variable {σ ε ω : Type} (spec : Spec σ ε ω)

/-- A stretch of allowed steps. The newest entry of the log comes first. -/
inductive Path : σ → List (LogEntry ε ω) → σ → Prop
  | refl (a : σ) : Path a [] a
  | step {a b c : σ} {log : List (LogEntry ε ω)} {x : LogEntry ε ω} (hpath : Path a log b)
      (hstep : spec.step x.time x.event x.outs b c) : Path a (x :: log) c

def Trace (log : List (LogEntry ε ω)) (a : σ) : Prop := spec.Path spec.init log a

variable {spec} {a b c : σ} {older newer log : List (LogEntry ε ω)} {x : LogEntry ε ω}

theorem path_cons : spec.Path a (x :: log) c ↔
    ∃ b, spec.Path a log b ∧ spec.step x.time x.event x.outs b c := by
  constructor
  · intro h
    cases h with
    | step hpath hstep => exact ⟨_, hpath, hstep⟩
  · intro ⟨b, hpath, hstep⟩
    exact .step hpath hstep

theorem path_append : spec.Path a (newer ++ older) c ↔
    ∃ b, spec.Path a older b ∧ spec.Path b newer c := by
  induction newer generalizing c with
  | nil =>
      constructor
      · intro h
        exact ⟨c, h, .refl c⟩
      · intro ⟨b, hpath, hrefl⟩
        cases hrefl
        exact hpath
  | cons x newer ih =>
      rw [List.cons_append, path_cons]
      constructor
      · intro ⟨d, hpath, hstep⟩
        obtain ⟨b, hold, hnew⟩ := ih.mp hpath
        exact ⟨b, hold, .step hnew hstep⟩
      · intro ⟨b, hold, hnew⟩
        obtain ⟨d, hnew, hstep⟩ := path_cons.mp hnew
        exact ⟨d, ih.mpr ⟨b, hold, hnew⟩, hstep⟩

theorem Path.invariant {I : σ → Prop} (hpath : spec.Path a log b) (hinit : I a)
    (hstep : ∀ x ∈ log, ∀ b c, I b → spec.step x.time x.event x.outs b c → I c) : I b := by
  induction hpath with
  | refl => exact hinit
  | step _ hlast ih =>
      have hbefore := ih fun x hx => hstep x (List.mem_cons_of_mem _ hx)
      exact hstep _ List.mem_cons_self _ _ hbefore hlast

end Spec

/-- A machine whose steps from every reachable state are allowed ones has only logs that are allowed. -/
theorem Machine.Run.refines {σ τ ε ω ε' ω' : Type} {m : Machine σ ε ω} {ok : σ → Int → ε → Prop}
    {spec : Spec τ ε' ω'} {abs : σ → τ} {obs : LogEntry ε ω → LogEntry ε' ω'}
    {log : List (LogEntry ε ω)} {s : σ} (hrun : m.Run ok log s) (hinit : abs m.init = spec.init)
    (hstep : ∀ log s now e, m.Run ok log s → ok s now e →
      let x := obs ⟨now, e, (m.step s now e).2⟩
      spec.step x.time x.event x.outs (abs s) (abs (m.step s now e).1)) :
    spec.Trace (log.map obs) (abs s) := by
  induction hrun with
  | init =>
      rw [hinit]
      exact .refl _
  | step now e hrun _ hok ih => exact .step ih (hstep _ _ now e hrun hok)

end Lib
