import Qvole.Engine.Punch
import Qvole.Lib.Progress

/-!
# The end of hole punching

`ConnectPeerWithConfig` waits for the puncher to close its channel, the puncher waits for the listener, and the
listener looks at the context once in a while. None of them waits for one that waits for it, and once the context
is over each step takes one of the three nearer to its end. Only the ticker may go on firing, as often as the
`select` of the puncher takes it, which takes nothing back.
-/

namespace Qvole.Engine

open Lib Punch

variable {peerAddr : UDPAddr} {s : Punch} {now : Int}

namespace Punch

def AllDone (s : Punch) : Prop := s.listener = .done ∧ s.puncher = .done ∧ s.main = .quic

/-- A firing of the ticker. -/
def Ticks (peerAddr : UDPAddr) (s s' : Punch) : Prop :=
  ∃ attempt intervalIdx, s.puncher = .loop attempt intervalIdx ∧
    s' = (punchStep peerAddr s 0 (.puncher .tick)).1

/-- Any other step that changes something. -/
def Advances (peerAddr : UDPAddr) (s s' : Punch) : Prop :=
  ∃ now e, s' = (punchStep peerAddr s now e).1 ∧ s' ≠ s ∧ ¬ s.Ticks peerAddr s'

end Punch

def ListenerPc.rank : ListenerPc → Nat
  | .unborn => 0
  | .poll => 2
  | .arm => 4
  | .read => 3
  | .offer _ => 2
  | .leave => 1
  | .done => 0

def PuncherPc.rank : PuncherPc → Nat
  | .start => 8
  | .payloads => 5
  | .loop _ _ => 4
  | .deliver _ => 3
  | .join => 2
  | .close => 1
  | .done => 0

def MainPc.rank : MainPc → Nat
  | .wait => 4
  | .cancel => 3
  | .drain => 2
  | .clear => 1
  | .quic => 0

def Punch.rank (s : Punch) : Nat := s.listener.rank + s.puncher.rank + s.main.rank

theorem ListenerMove.rank {r : PunchRead} {s' : Punch} (h : ListenerMove peerAddr now s r s')
    (hctx : s.ctxDone = true) : s' = s ∨ s'.rank < s.rank := by
  cases h with
  | idle => exact Or.inl rfl
  | polls _ _ hctx' => cases hctx.symm.trans hctx'
  | stops _ hpc | arms _ hpc | ignores _ hpc | hears hpc | offers _ hpc | ends _ hpc =>
      right
      simp [Punch.rank, hpc, ListenerPc.rank]

theorem PuncherMove.rank {choice : PuncherCase} {s' : Punch} (h : PuncherMove s choice s')
    (hborn : s.puncher = .start → s.listener = .unborn) :
    s' = s ∨ s.Ticks peerAddr s' ∨ s'.rank < s.rank := by
  cases h with
  | idle => exact Or.inl rfl
  | starts _ hpc =>
      -- the listener's part goes up, which the puncher's makes good
      refine Or.inr (Or.inr ?_)
      simp [Punch.rank, hpc, hborn hpc, ListenerPc.rank, PuncherPc.rank]
  | ticks hpc =>
      refine Or.inr (Or.inl ⟨_, _, hpc, ?_⟩)
      simp only [punchStep, puncherStep, hpc]
  | fails hpc | prepares _ hpc | stops hpc | takes hpc | delivers _ hpc | joins _ hpc | closes _ hpc =>
      refine Or.inr (Or.inr ?_)
      simp [Punch.rank, hpc, PuncherPc.rank]

theorem MainMove.rank {s' : Punch} (h : MainMove s s') : s' = s ∨ s'.rank < s.rank := by
  cases h with
  | idle => exact Or.inl rfl
  | receives hpc | givesUp hpc | cancels hpc | drains hpc | clears hpc =>
      right
      simp [Punch.rank, hpc, MainPc.rank]

/-- The ticker changes nothing but the puncher's counters. -/
theorem Punch.Ticks.eq {s' : Punch} (h : s.Ticks peerAddr s') : ∃ attempt intervalIdx attempt' intervalIdx',
    s.puncher = .loop attempt intervalIdx ∧ s' = { s with puncher := .loop attempt' intervalIdx' } := by
  obtain ⟨attempt, intervalIdx, hpc, rfl⟩ := h
  have hstep : (punchStep peerAddr s 0 (.puncher .tick)).1 = { s with puncher := punch attempt intervalIdx } := by
    simp only [punchStep, puncherStep, hpc]
  exact ⟨attempt, intervalIdx, _, _, hpc, hstep⟩

theorem Punch.Ticks.rank {s' : Punch} (h : s.Ticks peerAddr s') : s'.rank ≤ s.rank := by
  obtain ⟨_, _, _, _, hpc, rfl⟩ := h.eq
  simp [Punch.rank, hpc, PuncherPc.rank]

/-- What the goroutines can tell of each other. -/
structure Punch.Linked (s : Punch) : Prop where
  born : s.puncher = .start ↔ s.listener = .unborn
  closed : s.puncher = .done → s.successClosed = true
  done : s.listener = .done → s.punchDone = true

theorem ListenerMove.linked {r : PunchRead} {s' : Punch} (h : ListenerMove peerAddr now s r s')
    (hlinked : s.Linked) : s'.Linked := by
  obtain ⟨hborn, hclosed, hdone⟩ := hlinked
  cases h with
  | idle => exact ⟨hborn, hclosed, hdone⟩
  | stops _ hpc | polls _ hpc | arms _ hpc | ignores _ hpc | hears hpc | offers _ hpc =>
      have hstarted : s.puncher ≠ .start := by simp [hborn, hpc]
      exact ⟨by simp [hstarted], hclosed, by simp⟩
  | ends _ hpc =>
      have hstarted : s.puncher ≠ .start := by simp [hborn, hpc]
      exact ⟨by simp [hstarted], hclosed, fun _ => rfl⟩

theorem PuncherMove.linked {choice : PuncherCase} {s' : Punch} (h : PuncherMove s choice s')
    (hlinked : s.Linked) : s'.Linked := by
  obtain ⟨hborn, hclosed, hdone⟩ := hlinked
  cases h with
  | idle => exact ⟨hborn, hclosed, hdone⟩
  | starts => exact ⟨by simp, by simp, by simp⟩
  | closes _ hpc =>
      rw [hpc] at hborn
      exact ⟨by simpa using hborn, fun _ => rfl, hdone⟩
  | ticks hpc =>
      rw [hpc] at hborn
      exact ⟨by simpa [punch] using hborn, by simp [punch], hdone⟩
  | fails hpc | prepares _ hpc | stops hpc | takes hpc | delivers _ hpc | joins _ hpc =>
      rw [hpc] at hborn
      exact ⟨by simpa using hborn, by simp, hdone⟩

theorem MainMove.linked {s' : Punch} (h : MainMove s s') (hlinked : s.Linked) : s'.Linked := by
  obtain ⟨hborn, hclosed, hdone⟩ := hlinked
  cases h <;> exact ⟨hborn, hclosed, hdone⟩

theorem punchStep_linked (e : PunchTurn) (h : s.Linked) : (punchStep peerAddr s now e).1.Linked := by
  cases e with
  | expire => exact ⟨h.born, h.closed, h.done⟩
  | main received => exact (mainStep_move received).linked h
  | puncher choice => exact (puncherStep_move choice).linked h
  | listener r => exact (listenerStep_move r).linked h

theorem ListenerMove.ctxDone {r : PunchRead} {s' : Punch} (h : ListenerMove peerAddr now s r s') :
    s'.ctxDone = s.ctxDone := by
  cases h <;> rfl

theorem PuncherMove.ctxDone {choice : PuncherCase} {s' : Punch} (h : PuncherMove s choice s') :
    s'.ctxDone = s.ctxDone := by
  cases h <;> rfl

theorem MainMove.ctxDone {s' : Punch} (h : MainMove s s') (hctx : s.ctxDone = true) : s'.ctxDone = true := by
  cases h with
  | cancels => rfl
  | idle | receives | givesUp | drains | clears => exact hctx

/-- The context does not begin anew. -/
theorem punchStep_ctxDone (e : PunchTurn) (hctx : s.ctxDone = true) :
    (punchStep peerAddr s now e).1.ctxDone = true := by
  cases e with
  | expire => rfl
  | main received => exact (mainStep_move received).ctxDone hctx
  | puncher choice => exact (puncherStep_move choice).ctxDone.trans hctx
  | listener r => exact (listenerStep_move r).ctxDone.trans hctx

/-- Once the context is over, every step that gets somewhere gets nearer to the end. -/
theorem Punch.Advances.rank_lt {s' : Punch} (h : s.Advances peerAddr s') (hctx : s.ctxDone = true)
    (hlinked : s.Linked) : s'.rank < s.rank := by
  obtain ⟨now, e, rfl, hne, htick⟩ := h
  cases e with
  | expire =>
      refine absurd ?_ hne
      show { s with ctxDone := true } = s
      rw [← hctx]
  | main received => exact (mainStep_move received).rank.resolve_left hne
  | puncher choice =>
      exact ((puncherStep_move choice).rank hlinked.born.mp).resolve_left hne |>.resolve_left htick
  | listener r => exact ((listenerStep_move r).rank hctx).resolve_left hne

theorem listenerStep_moves (hborn : s.listener ≠ .unborn) (hdone : s.listener ≠ .done) :
    (listenerStep peerAddr now .error s).listener ≠ s.listener := by
  unfold listenerStep
  cases hpc : s.listener with
  | unborn => exact absurd hpc hborn
  | done => exact absurd hpc hdone
  | poll =>
      dsimp only
      split <;> simp
  | arm | read | offer | leave => simp

/-- With the context over, the puncher only waits for the listener. -/
theorem puncherStep_moves (hctx : s.ctxDone = true) (hdone : s.puncher ≠ .done)
    (hjoin : s.puncher = .join → s.punchDone = true) :
    (puncherStep peerAddr .ctx s).1.puncher.rank < s.puncher.rank := by
  unfold puncherStep
  cases hpc : s.puncher with
  | done => exact absurd hpc hdone
  | join => simp [hjoin hpc, PuncherPc.rank]
  | loop => simp [hctx, PuncherPc.rank]
  | start | payloads | deliver | close => simp [PuncherPc.rank]

theorem mainStep_moves (hquic : s.main ≠ .quic) (hclosed : s.successClosed = true) :
    (mainStep true s).main ≠ s.main := by
  unfold mainStep
  cases hpc : s.main with
  | quic => exact absurd hpc hquic
  | wait => cases s.successCh <;> simp [hclosed]
  | drain => cases s.successCh <;> simp [hclosed]
  | cancel | clear => simp

/-- As long as somebody is not done, somebody can move. -/
theorem Punch.Linked.exists_advance (h : s.Linked) (hctx : s.ctxDone = true) (hopen : ¬ s.AllDone) :
    ∃ s', s.Advances peerAddr s' := by
  have hlistener : s.listener ≠ .unborn → s.listener ≠ .done → ∃ s', s.Advances peerAddr s' := by
    intro hborn hdone
    have hmoves : (listenerStep peerAddr 0 .error s).listener ≠ s.listener := listenerStep_moves hborn hdone
    refine ⟨_, 0, .listener .error, rfl, fun heq => hmoves (congrArg Punch.listener heq), fun hticks => ?_⟩
    obtain ⟨_, _, _, _, _, heq⟩ := hticks.eq
    have hsame := congrArg Punch.listener heq
    exact hmoves hsame
  have hpuncher : s.puncher ≠ .done → (s.puncher = .join → s.punchDone = true) →
      ∃ s', s.Advances peerAddr s' := by
    intro hdone hjoin
    have hmoves : (puncherStep peerAddr .ctx s).1.puncher.rank < s.puncher.rank :=
      puncherStep_moves hctx hdone hjoin
    refine ⟨_, 0, .puncher .ctx, rfl, fun heq => ?_, fun hticks => ?_⟩
    · exact absurd (congrArg (·.puncher.rank) heq) hmoves.ne
    · obtain ⟨_, _, _, _, hpc, heq⟩ := hticks.eq
      have hrank := congrArg (·.puncher.rank) heq
      rw [hpc] at hmoves
      exact absurd hrank hmoves.ne
  have hmain : s.main ≠ .quic → s.successClosed = true → ∃ s', s.Advances peerAddr s' := by
    intro hquic hclosed
    have hmoves := mainStep_moves hquic hclosed
    refine ⟨_, 0, .main true, rfl, fun heq => hmoves (congrArg Punch.main heq), fun hticks => ?_⟩
    obtain ⟨_, _, _, _, _, heq⟩ := hticks.eq
    have hsame := congrArg Punch.main heq
    exact hmoves hsame
  have hborn : s.puncher ≠ .start → s.listener ≠ .unborn :=
    fun hstart hunborn => hstart (h.born.mpr hunborn)
  by_cases hlast : s.puncher = .done
  · by_cases hdone : s.listener = .done
    · exact hmain (fun hquic => hopen ⟨hdone, hlast, hquic⟩) (h.closed hlast)
    · exact hlistener (hborn (by simp [hlast])) hdone
  · by_cases hjoin : s.puncher = .join → s.punchDone = true
    · exact hpuncher hlast hjoin
    · obtain ⟨hjoin, hwaits⟩ := Classical.not_imp.mp hjoin
      exact hlistener (hborn (by simp [hjoin])) fun hdone => hwaits (h.done hdone)

/-- In every interleaving: once the punch context is over, or `ConnectPeerWithConfig` has ended it, only
finitely many steps are left besides firings of the ticker, however often it fires in between and whoever makes
them. Whatever happens, when none of these is left both goroutines have ended and QUIC has the socket. -/
theorem punching_ends (peerAddr : UDPAddr) {log : List (LogEntry PunchTurn Probe)} {s : Punch}
    (hrun : (punchMachine peerAddr).Run (fun _ _ _ => True) log s) (hctx : s.ctxDone = true) :
    Acc (fun s'' s => ∃ s', Relation.ReflTransGen (Punch.Ticks peerAddr) s s' ∧ s'.Advances peerAddr s'') s ∧
      ∀ s', Relation.ReflTransGen (fun s s' => ∃ now e, s' = (punchStep peerAddr s now e).1) s s' →
        (∀ s'', ¬ s'.Advances peerAddr s'') →
        s'.listener = .done ∧ s'.puncher = .done ∧ s'.main = .quic := by
  have hlinked : s.Linked := by
    refine hrun.invariant ?_ fun s now e h _ => punchStep_linked e h
    exact ⟨by simp [punchMachine], by simp [punchMachine], by simp [punchMachine]⟩
  constructor
  · refine acc_advances_of_rank Punch.rank (I := fun s => s.Linked ∧ s.ctxDone = true) ?_ ?_ ⟨hlinked, hctx⟩
    · intro s s' h hticks
      refine ⟨?_, hticks.rank⟩
      obtain ⟨_, _, _, rfl⟩ := hticks
      exact ⟨punchStep_linked _ h.1, punchStep_ctxDone _ h.2⟩
    · intro s s' h hadvances
      refine ⟨?_, hadvances.rank_lt h.2 h.1⟩
      obtain ⟨now, e, rfl, _⟩ := hadvances
      exact ⟨punchStep_linked e h.1, punchStep_ctxDone e h.2⟩
  · intro s' hsteps
    have hend : s'.Linked ∧ s'.ctxDone = true := by
      induction hsteps with
      | refl => exact ⟨hlinked, hctx⟩
      | tail _ hstep ih =>
          obtain ⟨now, e, rfl⟩ := hstep
          exact ⟨punchStep_linked e ih.1, punchStep_ctxDone e ih.2⟩
    intro hstuck
    by_contra hopen
    obtain ⟨s'', hadvances⟩ := hend.1.exists_advance hend.2 hopen
    exact hstuck s'' hadvances

/-- The context ends while the listener is in its read. -/
theorem punching_ends_in_read : ∃ log s,
    (punchMachine ⟨[10, 0, 0, 2], 9, []⟩).Run (fun _ _ _ => True) log s ∧ s.listener = .read ∧
    s.ctxDone = true ∧ Acc (fun s'' s => ∃ s', Relation.ReflTransGen (Punch.Ticks ⟨[10, 0, 0, 2], 9, []⟩) s s' ∧
      s'.Advances ⟨[10, 0, 0, 2], 9, []⟩ s'') s := by
  obtain ⟨log, hrun⟩ := Machine.Run.init.exec
    (show (punchMachine ⟨[10, 0, 0, 2], 9, []⟩).Admissible (fun _ _ _ => True) none _
      (punchedThrough.take 4 ++ [(1, .expire)]) by decide +kernel)
  exact ⟨log, _, hrun, by decide +kernel, by decide +kernel, (punching_ends _ hrun (by decide +kernel)).1⟩

end Qvole.Engine
