import Qvole.Lib.Machine
import Qvole.Lib.NetText

/-!
# Hole punching

Both peers send datagrams to the address they take for the other's until one comes through. One goroutine
sends, another one listens on the same socket, and `ConnectPeer` waits for either an address from them or
the end of the punch context. Afterwards the socket goes to QUIC, which must have it for itself: a listener
that still runs would take datagrams away, and its read deadline would cut QUIC's reads off.

The three run concurrently, so a turn is one step of one of them up to its next channel operation or system
call. Which case of a `select` is taken and what is read from the socket are part of the turn. A turn of a
goroutine that is blocked changes nothing.
-/

namespace Qvole.Engine

open Lib

def punchReadDeadline : Int := 100 * 1000000

def punchIntervals : List Nat := [50, 100, 200]

def punchPayloadSizes : List Nat := [5, 50, 100, 200]

def punchIntervalChange : Nat := 5

/-- `listenForPunch`: at the head of the loop, before `SetReadDeadline`, in the read, with an address to hand
over, and behind the loop. `unborn` is before the goroutine is started. -/
inductive ListenerPc
  | unborn
  | poll
  | arm
  | read
  | offer (addr : UDPAddr)
  | leave
  | done
  deriving DecidableEq

/-- The goroutine of `startHolePunching`. The ticker's interval is the one with the index `intervalIdx`. -/
inductive PuncherPc
  | start
  | payloads
  | loop (attempt intervalIdx : Nat)
  | deliver (addr : UDPAddr)
  | join
  | close
  | done
  deriving DecidableEq

/-- `ConnectPeerWithConfig` from the `select` on. -/
inductive MainPc
  | wait
  | cancel
  | drain
  | clear
  | quic
  deriving DecidableEq

structure Punch where
  listener : ListenerPc
  puncher : PuncherPc
  main : MainPc
  ctxDone : Bool
  recvCh : Option UDPAddr
  successCh : Option UDPAddr
  successClosed : Bool
  punchDone : Bool
  readDeadline : Option Int
  peerUDPAddr : UDPAddr
  deriving DecidableEq

inductive PunchRead
  | error
  | packet (n : Nat) (addr : UDPAddr)
  deriving DecidableEq

/-- The case the puncher's `select` takes; before that, whether `rand.Read` fails. -/
inductive PuncherCase
  | ctx
  | recv
  | tick
  | randFails
  deriving DecidableEq

/-- The punch context ends, or one of the three makes a step. `received` is the case of the first `select` of
`ConnectPeerWithConfig`. -/
inductive PunchTurn
  | expire
  | main (received : Bool)
  | puncher (choice : PuncherCase)
  | listener (result : PunchRead)
  deriving DecidableEq

/-- A datagram of so many random bytes to the peer. -/
structure Probe where
  size : Nat
  addr : UDPAddr

variable (peerAddr : UDPAddr)

def listenerStep (now : Int) (r : PunchRead) (s : Punch) : Punch :=
  match s.listener with
  | .unborn => s
  | .poll => { s with listener := if s.ctxDone then .leave else .arm }
  | .arm => { s with listener := .read, readDeadline := some (now + punchReadDeadline) }
  | .read =>
    match r with
    | .error => { s with listener := .poll }
    | .packet n addr =>
      { s with listener := if n = 0 ∨ addr.ip.equal peerAddr.ip = false then .poll else .offer addr }
  | .offer addr => { s with listener := .leave, recvCh := s.recvCh.or (some addr) }
  | .leave => { s with listener := .done, punchDone := true }
  | .done => s

/-- One firing of the ticker. -/
def punch (attempt intervalIdx : Nat) : PuncherPc :=
  let attempt := attempt + 1
  .loop attempt (if attempt % punchIntervalChange = 0 ∧ intervalIdx < punchIntervals.length - 1 then
    intervalIdx + 1 else intervalIdx)

def puncherStep (choice : PuncherCase) (s : Punch) : Punch × List Probe :=
  match s.puncher with
  | .start => ({ s with puncher := .payloads, listener := .poll }, [])
  | .payloads =>
    match choice with
    | .randFails => ({ s with puncher := .close }, [])
    | _ => ({ s with puncher := .loop 0 0 }, [])
  | .loop attempt intervalIdx =>
    match choice with
    | .ctx => (if s.ctxDone then { s with puncher := .join } else s, [])
    | .recv =>
      match s.recvCh with
      | some addr => ({ s with puncher := .deliver addr, recvCh := none }, [])
      | none => (s, [])
    | .tick =>
      ({ s with puncher := punch attempt intervalIdx },
        [⟨punchPayloadSizes.getD (attempt % punchPayloadSizes.length) 0, peerAddr⟩])
    | .randFails => (s, [])
  | .deliver addr => ({ s with puncher := .join, successCh := s.successCh.or (some addr) }, [])
  | .join => (if s.punchDone then { s with puncher := .close } else s, [])
  | .close => ({ s with puncher := .done, successClosed := true }, [])
  | .done => (s, [])

/-- The address to dial once a probe came from `observedAddr`. -/
def correctPort (observedAddr peerUDPAddr : UDPAddr) : UDPAddr :=
  if observedAddr.ip.equal peerUDPAddr.ip ∧ observedAddr.port ≠ peerUDPAddr.port then observedAddr
  else peerUDPAddr

def mainStep (received : Bool) (s : Punch) : Punch :=
  match s.main with
  | .wait =>
    if received then
      match s.successCh with
      | some addr =>
        { s with main := .cancel, successCh := none, peerUDPAddr := correctPort addr s.peerUDPAddr }
      | none => if s.successClosed then { s with main := .cancel } else s
    else if s.ctxDone then { s with main := .cancel } else s
  | .cancel => { s with main := .drain, ctxDone := true }
  | .drain =>
    match s.successCh with
    | some _ => { s with main := .clear, successCh := none }
    | none => if s.successClosed then { s with main := .clear } else s
  | .clear => { s with main := .quic, readDeadline := none }
  | .quic => s

def punchStep (s : Punch) (now : Int) : PunchTurn → Punch × List Probe
  | .expire => ({ s with ctxDone := true }, [])
  | .main received => (mainStep received s, [])
  | .puncher choice => puncherStep peerAddr choice s
  | .listener r => (listenerStep peerAddr now r s, [])

def punchMachine : Machine Punch PunchTurn Probe where
  init := ⟨.unborn, .start, .wait, false, none, none, false, false, none, peerAddr⟩
  step := punchStep peerAddr

/-- What `ConnectPeerWithConfig` asks of the address before it punches. -/
def validPeer (a : UDPAddr) : Bool :=
  !(a.ip == [] || a.port == 0 || a.ip.isUnspecified || a.ip.isMulticast || a.ip.equal ipv4bcast)

/-! ### What a turn can do -/

section

variable (now : Int) (s : Punch)

inductive ListenerMove : PunchRead → Punch → Prop
  | idle (r : PunchRead) : ListenerMove r s
  | stops (r : PunchRead) (hpc : s.listener = .poll) (hctx : s.ctxDone = true) :
      ListenerMove r { s with listener := .leave }
  | polls (r : PunchRead) (hpc : s.listener = .poll) (hctx : s.ctxDone = false) :
      ListenerMove r { s with listener := .arm }
  | arms (r : PunchRead) (hpc : s.listener = .arm) :
      ListenerMove r { s with listener := .read, readDeadline := some (now + punchReadDeadline) }
  | ignores (r : PunchRead) (hpc : s.listener = .read) : ListenerMove r { s with listener := .poll }
  | hears {n : Nat} {addr : UDPAddr} (hpc : s.listener = .read) (hn : n ≠ 0)
      (hip : addr.ip.equal peerAddr.ip = true) : ListenerMove (.packet n addr) { s with listener := .offer addr }
  | offers (r : PunchRead) {addr : UDPAddr} (hpc : s.listener = .offer addr) :
      ListenerMove r { s with listener := .leave, recvCh := s.recvCh.or (some addr) }
  | ends (r : PunchRead) (hpc : s.listener = .leave) :
      ListenerMove r { s with listener := .done, punchDone := true }

inductive PuncherMove : PuncherCase → Punch → Prop
  | idle (choice : PuncherCase) : PuncherMove choice s
  | starts (choice : PuncherCase) (hpc : s.puncher = .start) :
      PuncherMove choice { s with puncher := .payloads, listener := .poll }
  | fails (hpc : s.puncher = .payloads) : PuncherMove .randFails { s with puncher := .close }
  | prepares (choice : PuncherCase) (hpc : s.puncher = .payloads) :
      PuncherMove choice { s with puncher := .loop 0 0 }
  | ticks {attempt intervalIdx : Nat} (hpc : s.puncher = .loop attempt intervalIdx) :
      PuncherMove .tick { s with puncher := punch attempt intervalIdx }
  | stops {attempt intervalIdx : Nat} (hpc : s.puncher = .loop attempt intervalIdx) (hctx : s.ctxDone = true) :
      PuncherMove .ctx { s with puncher := .join }
  | takes {attempt intervalIdx : Nat} {addr : UDPAddr} (hpc : s.puncher = .loop attempt intervalIdx)
      (hrecv : s.recvCh = some addr) : PuncherMove .recv { s with puncher := .deliver addr, recvCh := none }
  | delivers (choice : PuncherCase) {addr : UDPAddr} (hpc : s.puncher = .deliver addr) :
      PuncherMove choice { s with puncher := .join, successCh := s.successCh.or (some addr) }
  | joins (choice : PuncherCase) (hpc : s.puncher = .join) (hdone : s.punchDone = true) :
      PuncherMove choice { s with puncher := .close }
  | closes (choice : PuncherCase) (hpc : s.puncher = .close) :
      PuncherMove choice { s with puncher := .done, successClosed := true }

inductive MainMove : Punch → Prop
  | idle : MainMove s
  | receives {addr : UDPAddr} (hpc : s.main = .wait) (hsuccess : s.successCh = some addr) :
      MainMove { s with main := .cancel, successCh := none, peerUDPAddr := correctPort addr s.peerUDPAddr }
  | givesUp (hpc : s.main = .wait) (hover : s.successClosed = true ∨ s.ctxDone = true) :
      MainMove { s with main := .cancel }
  | cancels (hpc : s.main = .cancel) : MainMove { s with main := .drain, ctxDone := true }
  | drains (hpc : s.main = .drain) (hready : s.successCh ≠ none ∨ s.successClosed = true) :
      MainMove { s with main := .clear, successCh := none }
  | clears (hpc : s.main = .clear) : MainMove { s with main := .quic, readDeadline := none }

end

section

variable {peerAddr} {now : Int} {s : Punch}

theorem listenerStep_move (r : PunchRead) : ListenerMove peerAddr now s r (listenerStep peerAddr now r s) := by
  unfold listenerStep
  cases hpc : s.listener with
  | unborn => exact .idle r
  | poll =>
      dsimp only
      split
      · exact .stops r hpc ‹_›
      · exact .polls r hpc (Bool.eq_false_iff.mpr ‹_›)
  | arm => exact .arms r hpc
  | read =>
      cases r with
      | error => exact .ignores _ hpc
      | packet n addr =>
          dsimp only
          split
          · exact .ignores _ hpc
          · rename_i hheard
            obtain ⟨hn, hip⟩ := not_or.mp hheard
            exact .hears hpc hn (Bool.not_eq_false _ ▸ hip)
  | offer addr => exact .offers r hpc
  | leave => exact .ends r hpc
  | done => exact .idle r

theorem puncherStep_move (choice : PuncherCase) : PuncherMove s choice (puncherStep peerAddr choice s).1 := by
  unfold puncherStep
  cases hpc : s.puncher with
  | start => exact .starts choice hpc
  | payloads =>
      cases choice with
      | randFails => exact .fails hpc
      | ctx | recv | tick => exact .prepares _ hpc
  | loop attempt intervalIdx =>
      cases choice with
      | ctx =>
          dsimp only
          split
          · exact .stops hpc ‹_›
          · exact .idle _
      | recv =>
          cases hrecv : s.recvCh with
          | some addr => exact .takes hpc hrecv
          | none => exact .idle _
      | tick => exact .ticks hpc
      | randFails => exact .idle _
  | deliver addr => exact .delivers choice hpc
  | join =>
      dsimp only
      split
      · exact .joins choice hpc ‹_›
      · exact .idle choice
  | close => exact .closes choice hpc
  | done => exact .idle choice

theorem mainStep_move (received : Bool) : MainMove s (mainStep received s) := by
  unfold mainStep
  cases hpc : s.main with
  | wait =>
      cases received with
      | true =>
          cases hsuccess : s.successCh with
          | some addr => exact .receives hpc hsuccess
          | none =>
              simp only [if_true]
              rw [← hsuccess]
              split
              · exact .givesUp hpc (Or.inl ‹_›)
              · exact .idle
      | false =>
          simp only [Bool.false_eq_true, if_false]
          split
          · exact .givesUp hpc (Or.inr ‹_›)
          · exact .idle
  | cancel => exact .cancels hpc
  | drain =>
      cases hsuccess : s.successCh with
      | some addr => exact .drains hpc (Or.inl (by simp [hsuccess]))
      | none =>
          dsimp only
          split
          · exact .drains hpc (Or.inr ‹_›)
          · exact .idle
  | clear => exact .clears hpc
  | quic => exact .idle

end

/-! ### Who has the socket -/

namespace Punch

/-- The listener is done with the socket. -/
def Over (s : Punch) : Prop := s.listener = .leave ∨ s.listener = .done

/-- The puncher is. -/
def Retired (s : Punch) : Prop := s.puncher = .join ∨ s.puncher = .close ∨ s.puncher = .done

/-- An address or the end of a goroutine is in sight, or the socket is about to be handed over. -/
def Signalled (s : Punch) : Prop :=
  s.recvCh ≠ none ∨ (∃ addr, s.puncher = .deliver addr) ∨ s.successCh ≠ none ∨ s.successClosed = true ∨
    s.punchDone = true ∨ s.puncher = .close ∨ s.puncher = .done ∨ s.main = .clear ∨ s.main = .quic

structure Orderly (s : Punch) : Prop where
  born : s.puncher = .start → s.listener = .unborn
  ended : s.Signalled → s.Over
  retired : s.successCh ≠ none ∨ s.successClosed = true ∨ s.main = .clear ∨ s.main = .quic → s.Retired
  deadline : s.main = .quic → s.readDeadline = none

end Punch

variable {peerAddr} {s : Punch} {now : Int}

open Punch

namespace Punch

/-- The listener has the socket as long as nobody has signalled. -/
theorem Orderly.works (h : s.Orderly) (hborn : s.listener ≠ .unborn) (hover : ¬ s.Over) (pc : ListenerPc)
    (deadline : Option Int) : ({ s with listener := pc, readDeadline := deadline } : Punch).Orderly := by
  have hquiet : ¬ s.Signalled := fun hsignalled => hover (h.ended hsignalled)
  refine ⟨fun hstart => absurd (h.born hstart) hborn, fun hsignalled => absurd hsignalled hquiet, h.retired, ?_⟩
  intro hquic
  exact absurd (by simp_all [Signalled]) hquiet

/-- It may signal once it is over. -/
theorem Orderly.leaves (h : s.Orderly) (hborn : s.listener ≠ .unborn) {pc : ListenerPc}
    (hpc : pc = .leave ∨ pc = .done) (recvCh : Option UDPAddr) (punchDone : Bool) :
    ({ s with listener := pc, recvCh := recvCh, punchDone := punchDone } : Punch).Orderly :=
  ⟨fun hstart => absurd (h.born hstart) hborn, fun _ => hpc, h.retired, h.deadline⟩

/-- A step of the others signals only what was signalled before. -/
theorem Orderly.moved (h : s.Orderly) {s' : Punch} (hlistener : s'.listener = s.listener)
    (hstart : s'.puncher = .start → s.puncher = .start) (hsignalled : s'.Signalled → s.Signalled)
    (hretired : s'.successCh ≠ none ∨ s'.successClosed = true ∨ s'.main = .clear ∨ s'.main = .quic → s'.Retired)
    (hdeadline : s'.main = .quic → s'.readDeadline = none) : s'.Orderly where
  born hs := hlistener.trans (h.born (hstart hs))
  ended hs := by
    rw [Over, hlistener]
    exact h.ended (hsignalled hs)
  retired := hretired
  deadline := hdeadline

end Punch

theorem ListenerMove.orderly {r : PunchRead} {s' : Punch} (h : ListenerMove peerAddr now s r s')
    (horderly : s.Orderly) : s'.Orderly := by
  cases h with
  | idle => exact horderly
  | stops _ hpc _ => exact horderly.leaves (by simp [hpc]) (Or.inl rfl) _ _
  | polls _ hpc _ => exact horderly.works (by simp [hpc]) (by simp [Over, hpc]) _ _
  | arms _ hpc => exact horderly.works (by simp [hpc]) (by simp [Over, hpc]) _ _
  | ignores _ hpc => exact horderly.works (by simp [hpc]) (by simp [Over, hpc]) _ _
  | hears hpc _ _ => exact horderly.works (by simp [hpc]) (by simp [Over, hpc]) _ _
  | offers _ hpc => exact horderly.leaves (by simp [hpc]) (Or.inl rfl) _ _
  | ends _ hpc => exact horderly.leaves (by simp [hpc]) (Or.inr rfl) _ _

theorem PuncherMove.orderly {choice : PuncherCase} {s' : Punch} (h : PuncherMove s choice s')
    (hrand : choice ≠ .randFails) (horderly : s.Orderly) : s'.Orderly := by
  have hretired := horderly.retired
  have hdeadline := horderly.deadline
  cases h with
  | idle => exact horderly
  | starts _ hpc =>
      -- the listener is not there yet, so nobody has signalled
      have hquiet : ¬ s.Signalled := by
        intro hsignalled
        have hover := horderly.ended hsignalled
        simp [Over, horderly.born hpc] at hover
      constructor
      all_goals grind [Signalled, Retired]
  | fails _ => exact absurd rfl hrand
  | prepares _ hpc => apply horderly.moved <;> grind [Signalled, Retired]
  | ticks hpc => apply horderly.moved <;> grind [Signalled, Retired, punch]
  | stops hpc _ => apply horderly.moved <;> grind [Signalled, Retired]
  | takes hpc hrecv => apply horderly.moved <;> grind [Signalled, Retired]
  | delivers _ hpc => apply horderly.moved <;> grind [Signalled, Retired]
  | joins _ hpc hdone => apply horderly.moved <;> grind [Signalled, Retired]
  | closes _ hpc => apply horderly.moved <;> grind [Signalled, Retired]

theorem MainMove.orderly {s' : Punch} (h : MainMove s s') (horderly : s.Orderly) : s'.Orderly := by
  have hretired := horderly.retired
  cases h with
  | idle => exact horderly
  | receives hpc hsuccess => apply horderly.moved <;> grind [Signalled, Retired]
  | givesUp hpc _ => apply horderly.moved <;> grind [Signalled, Retired]
  | cancels hpc => apply horderly.moved <;> grind [Signalled, Retired]
  | drains hpc hready =>
      -- the puncher has given an address or closed the channel: it has retired
      apply horderly.moved <;> grind [Signalled, Retired]
  | clears hpc => apply horderly.moved <;> grind [Signalled, Retired]

theorem Punch.Orderly.init : (punchMachine peerAddr).init.Orderly := by
  constructor
  all_goals simp [punchMachine, Signalled]

/-- If `rand.Read` does not fail, then in every interleaving QUIC gets the socket without a read deadline, and
from then on neither the listener nor the puncher reads from it, writes to it or sets a deadline. -/
theorem socket_handed_over (peerAddr : UDPAddr) {log : List (LogEntry PunchTurn Probe)} {s : Punch}
    (hrun : (punchMachine peerAddr).Run (fun _ _ e => e ≠ .puncher .randFails) log s)
    (hquic : s.main = .quic) :
    s.readDeadline = none ∧ (s.listener = .leave ∨ s.listener = .done) ∧
      (s.puncher = .join ∨ s.puncher = .close ∨ s.puncher = .done) := by
  have horderly : s.Orderly := by
    refine hrun.invariant .init fun s now e h hrand => ?_
    cases e with
    | expire => exact ⟨h.born, h.ended, h.retired, h.deadline⟩
    | main received => exact (mainStep_move received).orderly h
    | puncher choice => exact (puncherStep_move choice).orderly (fun heq => hrand (heq ▸ rfl)) h
    | listener r => exact (listenerStep_move r).orderly h
  have hsignalled : s.Signalled := by
    simp [Signalled, hquic]
  exact ⟨horderly.deadline hquic, horderly.ended hsignalled,
    horderly.retired (Or.inr (Or.inr (Or.inr hquic)))⟩

/-- The listener hears the peer on another port, and its address reaches `ConnectPeerWithConfig` while the
listener has not come to its end. -/
def punchedThrough : List (Int × PunchTurn) :=
  [(0, .puncher .tick), (0, .puncher .tick), (0, .listener .error), (0, .listener .error),
    (1, .puncher .tick), (1, .listener (.packet 5 ⟨[10, 0, 0, 2], 7, []⟩)), (1, .listener .error),
    (2, .puncher .recv), (2, .puncher .recv), (2, .main true), (2, .main true), (3, .listener .error),
    (3, .puncher .ctx), (3, .puncher .ctx), (3, .main true), (3, .main true)]

theorem socket_handed_over_punched : ∃ log s,
    (punchMachine ⟨[10, 0, 0, 2], 9, []⟩).Run (fun _ _ e => e ≠ .puncher .randFails) log s ∧
    s.main = .quic ∧ s.peerUDPAddr.port = 7 ∧ s.readDeadline = none := by
  obtain ⟨log, hrun⟩ := Machine.Run.init.exec
    (show (punchMachine ⟨[10, 0, 0, 2], 9, []⟩).Admissible (fun _ _ e => e ≠ .puncher .randFails) none _
      punchedThrough by decide +kernel)
  exact ⟨log, _, hrun, by decide +kernel, by decide +kernel, (socket_handed_over _ hrun (by decide +kernel)).1⟩

/-- `rand.Read` fails, and the puncher leaves the listener behind. -/
def leftListening : List (Int × PunchTurn) :=
  [(0, .puncher .tick), (0, .puncher .randFails), (0, .puncher .tick), (0, .main true), (0, .listener .error),
    (0, .main true), (0, .main true), (0, .main true), (0, .listener .error)]

-- Without the condition the listener may still hold the socket.
example : let m := punchMachine ⟨[10, 0, 0, 2], 9, []⟩
    (m.exec m.init leftListening).main = .quic ∧ (m.exec m.init leftListening).listener = .read ∧
      (m.exec m.init leftListening).readDeadline ≠ none := by
  decide +kernel

/-! ### Which address is dialed -/

namespace Punch

/-- The address is on its way from the socket to `ConnectPeerWithConfig`. -/
def Carries (addr : UDPAddr) (s : Punch) : Prop :=
  s.listener = .offer addr ∨ s.recvCh = some addr ∨ s.puncher = .deliver addr ∨ s.successCh = some addr

end Punch

/-- A datagram with something in it has come from the address. -/
def Heard (addr : UDPAddr) (log : List (LogEntry PunchTurn Probe)) : Prop :=
  ∃ x ∈ log, ∃ n, n ≠ 0 ∧ x.event = .listener (.packet n addr)

theorem ListenerMove.carries {r : PunchRead} {s' : Punch} {addr : UDPAddr}
    (h : ListenerMove peerAddr now s r s') (hcarries : s'.Carries addr) :
    s.Carries addr ∨ ∃ n, n ≠ 0 ∧ r = .packet n addr := by
  cases h with
  | hears _ hn _ =>
      -- the one place where an address comes in
      rcases hcarries with hoffer | hcarries
      · cases hoffer
        exact Or.inr ⟨_, hn, rfl⟩
      · exact Or.inl (Or.inr hcarries)
  | offers _ hpc =>
      left
      grind [Carries, Option.or_eq_some_iff]
  | idle | stops | polls | arms | ignores | ends =>
      left
      grind [Carries]

theorem PuncherMove.carries {choice : PuncherCase} {s' : Punch} {addr : UDPAddr} (h : PuncherMove s choice s')
    (hcarries : s'.Carries addr) : s.Carries addr := by
  cases h with
  | idle => exact hcarries
  | takes _ hrecv => grind [Carries]
  | delivers _ hpc => grind [Carries, Option.or_eq_some_iff]
  | ticks hpc => grind [Carries, punch]
  | starts | fails | prepares | stops | joins | closes => grind [Carries]

theorem MainMove.carries {s' : Punch} {addr : UDPAddr} (h : MainMove s s') (hcarries : s'.Carries addr) :
    s.Carries addr := by
  cases h with
  | idle => exact hcarries
  | receives | givesUp | cancels | drains | clears => grind [Carries]

/-- What is carried was heard. The address to dial is that of the peer until one arrives, and then at most that
one. -/
structure Punch.Traced (peerAddr : UDPAddr) (log : List (LogEntry PunchTurn Probe)) (s : Punch) : Prop where
  heard : ∀ addr, s.Carries addr → Heard addr log
  waits : s.main = .wait → s.peerUDPAddr = peerAddr
  dials : s.peerUDPAddr = peerAddr ∨
    Heard s.peerUDPAddr log ∧ s.peerUDPAddr.ip.equal peerAddr.ip = true ∧ s.peerUDPAddr.port ≠ peerAddr.port

theorem Heard.cons {addr : UDPAddr} {log : List (LogEntry PunchTurn Probe)} (h : Heard addr log)
    (x : LogEntry PunchTurn Probe) : Heard addr (x :: log) := by
  obtain ⟨y, hy, hheard⟩ := h
  exact ⟨y, List.mem_cons_of_mem x hy, hheard⟩

/-- A step that leaves the address alone, and brings none in. -/
theorem Punch.Traced.kept {log : List (LogEntry PunchTurn Probe)} {s' : Punch} (h : s.Traced peerAddr log)
    (x : LogEntry PunchTurn Probe) (hcarries : ∀ addr, s'.Carries addr → Heard addr (x :: log))
    (haddr : s'.peerUDPAddr = s.peerUDPAddr) (hwait : s'.main = .wait → s.main = .wait) :
    s'.Traced peerAddr (x :: log) where
  heard := hcarries
  waits hs := haddr.trans (h.waits (hwait hs))
  dials := by
    rw [haddr]
    exact h.dials.imp_right fun hdials => ⟨hdials.1.cons x, hdials.2⟩

theorem punchStep_traced {log : List (LogEntry PunchTurn Probe)} (e : PunchTurn) (h : s.Traced peerAddr log) :
    (punchStep peerAddr s now e).1.Traced peerAddr (⟨now, e, (punchStep peerAddr s now e).2⟩ :: log) := by
  generalize hx : LogEntry.mk now e (punchStep peerAddr s now e).2 = x
  cases e with
  | expire => exact h.kept x (fun addr hcarries => (h.heard addr hcarries).cons x) rfl id
  | main received =>
      have hmove := mainStep_move (s := s) received
      have hheard : ∀ addr, (mainStep received s).Carries addr → Heard addr (x :: log) :=
        fun addr hcarries => (h.heard addr (hmove.carries hcarries)).cons x
      simp only [punchStep]
      generalize mainStep received s = s' at hmove hheard
      cases hmove with
      | receives hpc hsuccess =>
          -- the address that arrived is taken for another port of the peer
          refine ⟨hheard, MainPc.noConfusion, ?_⟩
          have harrived := (h.heard _ (Or.inr (Or.inr (Or.inr hsuccess)))).cons x
          dsimp only
          rw [h.waits hpc, correctPort]
          split
          · exact Or.inr ⟨harrived, ‹_›⟩
          · exact Or.inl rfl
      | idle | givesUp | cancels | drains | clears => exact h.kept x hheard rfl (by simp_all)
  | puncher choice =>
      have hmove : PuncherMove s choice (puncherStep peerAddr choice s).1 := puncherStep_move choice
      have hheard : ∀ addr, (puncherStep peerAddr choice s).1.Carries addr → Heard addr (x :: log) :=
        fun addr hcarries => (h.heard addr (hmove.carries hcarries)).cons x
      simp only [punchStep]
      generalize (puncherStep peerAddr choice s).1 = s' at hmove hheard
      cases hmove <;> exact h.kept x hheard rfl id
  | listener r =>
      have hmove : ListenerMove peerAddr now s r (listenerStep peerAddr now r s) := listenerStep_move r
      have hheard : ∀ addr, (listenerStep peerAddr now r s).Carries addr → Heard addr (x :: log) := by
        intro addr hcarries
        rcases hmove.carries hcarries with hbefore | ⟨n, hn, rfl⟩
        · exact (h.heard addr hbefore).cons x
        · exact ⟨x, List.mem_cons_self, n, hn, by rw [← hx]⟩
      simp only [punchStep]
      generalize listenerStep peerAddr now r s = s' at hmove hheard
      cases hmove <;> exact h.kept x hheard rfl id

/-- In every interleaving the address to dial is the peer's address that was checked, or the source of a datagram
that was received, with another port. It has the IP that was checked, so it is neither unspecified nor a
multicast or broadcast address, whatever was received on the socket. -/
theorem dialed_address (peerAddr : UDPAddr) (hvalid : validPeer peerAddr = true)
    {log : List (LogEntry PunchTurn Probe)} {s : Punch}
    (hrun : (punchMachine peerAddr).Run (fun _ _ _ => True) log s) :
    (s.peerUDPAddr = peerAddr ∨ s.peerUDPAddr.port ≠ peerAddr.port ∧
      ∃ x ∈ log, ∃ n, n ≠ 0 ∧ x.event = .listener (.packet n s.peerUDPAddr)) ∧
    s.peerUDPAddr.ip.equal peerAddr.ip = true ∧ s.peerUDPAddr.ip.isUnspecified = false ∧
      s.peerUDPAddr.ip.isMulticast = false ∧ s.peerUDPAddr.ip.equal ipv4bcast = false := by
  have htraced : s.Traced peerAddr log := by
    refine hrun.invariant_log ?_ fun log s now e h _ => punchStep_traced e h
    exact ⟨by simp [punchMachine, Carries], fun _ => rfl, Or.inl rfl⟩
  have hequal : s.peerUDPAddr.ip.equal peerAddr.ip = true := by
    rcases htraced.dials with hsame | ⟨_, hequal, _⟩
    · rw [hsame]
      exact IP.equal_self _
    · exact hequal
  simp only [validPeer, Bool.not_eq_true', Bool.or_eq_false_iff] at hvalid
  obtain ⟨⟨⟨_, hunspecified⟩, hmulticast⟩, hbcast⟩ := hvalid
  refine ⟨htraced.dials.imp_right fun hdials => ⟨hdials.2.2, hdials.1⟩, hequal, ?_, ?_, ?_⟩
  · rw [IP.isUnspecified_congr hequal]
    exact hunspecified
  · rw [IP.isMulticast_congr hequal]
    exact hmulticast
  · rw [IP.equal_congr hequal]
    exact hbcast

theorem dialed_address_punched : ∃ log s,
    (punchMachine ⟨[10, 0, 0, 2], 9, []⟩).Run (fun _ _ _ => True) log s ∧ s.peerUDPAddr.port = 7 ∧
    validPeer ⟨[10, 0, 0, 2], 9, []⟩ = true ∧ s.peerUDPAddr.ip.equal [10, 0, 0, 2] = true ∧
    ∃ x ∈ log, ∃ n, n ≠ 0 ∧ x.event = .listener (.packet n s.peerUDPAddr) := by
  obtain ⟨log, hrun⟩ := Machine.Run.init.exec
    (show (punchMachine ⟨[10, 0, 0, 2], 9, []⟩).Admissible (fun _ _ _ => True) none _ punchedThrough by
      decide +kernel)
  obtain ⟨hdials, hequal, _⟩ := dialed_address _ (by decide) hrun
  have hother := hdials.resolve_left (by decide +kernel)
  exact ⟨log, _, hrun, by decide +kernel, by decide, hequal, hother.2⟩

end Qvole.Engine
