import Qvole.Engine.Rendezvous
import Qvole.Engine.Resending

/-!
# A network that loses datagrams

The meeting once more, with a network that forgets. A datagram is under way until it is read, and then it is
gone; it may get lost and it may be doubled, whichever and whenever. The peers have clocks that agree with the clock of the relay, and who
has ended reads and sends nothing any more.

Such a network does nothing that the one that keeps everything could not do, so that what holds in a meeting
goes on to hold. What is new is time: no time that a peer or the relay remembers is ahead of the clock, so
that everything that waits for a window or an interval to be over gets its turn.
-/

namespace Qvole.Engine

open Lib Relay Spake2

/-- `up` is on its way to the relay and `down` from it; the lists of `world` hold all that was ever sent.
`clock` is when a peer has ended its last pass. -/
structure Network where
  world : World
  up : List (Side × Bytes)
  down : List (Bytes × UDPAddr)
  clock : Side → Option Int

/-- The meeting with what is under way in the place of what was ever sent. -/
def Network.underWay (n : Network) : World := { n.world with toRelay := n.up, toPeers := n.down }

inductive Link
  | up
  | down

inductive Transit
  | happens (e : Happening)
  | lose (link : Link) (k : Nat)
  | double (link : Link) (k : Nat)

/-- The datagram is the one that was read at the address. -/
def ReadResult.takes (addr : UDPAddr) (x : Bytes × UDPAddr) : ReadResult → Bool
  | .datagram data => x.1 = data ∧ x.2.string = addr.string
  | .timeout => false
  | .failed => false

namespace Meeting

variable {Pt : Type} [AddCommGroup Pt] (m : Meeting Pt)

/-- The datagram is the one that the relay has read. -/
def takes (x : Side × Bytes) : Event → Bool
  | .packet data src _ => x.2 = data ∧ m.addr x.1 = src
  | .rateTick => false
  | .roomTick => false

def quiet : Network := ⟨m.start, [], [], fun _ => none⟩

variable [DecidableEq Pt]

def transit (n : Network) (now : Int) : Transit → Network × List (Side × Exit)
  | .happens (.pass i p) =>
    let t := m.step n.world now (.pass i p)
    ({ world := t.1
       up := n.up ++ ((m.session i).pass p (n.world.exchange i)).sent.map fun line => (i, line)
       down := n.down.eraseP fun x => p.read.takes (m.addr i) x
       clock := Function.update n.clock i (some p.received) }, t.2)
  | .happens (.relay e) =>
    let t := m.step n.world now (.relay e)
    ({ n with
       world := t.1
       up := n.up.eraseP fun x => m.takes x e
       down := n.down ++ (Relay.step m.cfg now n.world.relay e).2.filterMap Out.datagram }, t.2)
  | .lose .up k => ({ n with up := n.up.eraseIdx k }, [])
  | .lose .down k => ({ n with down := n.down.eraseIdx k }, [])
  | .double .up k => ({ n with up := n.up ++ n.up[k]?.toList }, [])
  | .double .down k => ({ n with down := n.down ++ n.down[k]?.toList }, [])

def network : Machine Network Transit (Side × Exit) := ⟨m.quiet, m.transit⟩

omit [DecidableEq Pt] in
/-- Only what is under way is read. A pass begins behind the one before, and its end is when it happens. -/
def Possible (n : Network) (now : Int) : Transit → Prop
  | .happens (.pass i p) => m.May n.underWay now (.pass i p) ∧ (∀ t ∈ n.clock i, t ≤ p.now) ∧
      p.now ≤ p.received ∧ p.received = now
  | .happens (.relay e) => m.May n.underWay now (.relay e)
  | .lose _ _ => True
  | .double _ _ => True

instance instDecidablePossible (n : Network) (now : Int) : (e : Transit) → Decidable (m.Possible n now e)
  | .happens (.pass i p) =>
    have : Decidable (m.May n.underWay now (.pass i p)) := m.instDecidableMay _ _ _
    inferInstanceAs (Decidable (_ ∧ _))
  | .happens (.relay e) => m.instDecidableMay n.underWay now (.relay e)
  | .lose _ _ => inferInstanceAs (Decidable True)
  | .double _ _ => inferInstanceAs (Decidable True)

/-! ### It does no more than the one that keeps everything -/

variable {m} {n : Network} {now : Int} {i : Side} {p : Pass} {e : Event}

theorem mem_down_of_pass {x : Bytes × UDPAddr} (hx : x ∈ (m.transit n now (.happens (.pass i p))).1.down) :
    x ∈ n.down :=
  List.mem_of_mem_eraseP hx

theorem mem_up_of_relay {x : Side × Bytes} (hx : x ∈ (m.transit n now (.happens (.relay e))).1.up) :
    x ∈ n.up :=
  List.mem_of_mem_eraseP hx

omit [DecidableEq Pt] in
/-- What may happen with what is under way may happen with all that was ever sent. -/
theorem May.of_underWay (hup : n.up ⊆ n.world.toRelay) (hdown : n.down ⊆ n.world.toPeers) {e : Happening}
    (h : m.May n.underWay now e) : m.May n.world now e := by
  cases e with
  | pass i p =>
      obtain ⟨hrunning, hoffers⟩ := h
      refine ⟨hrunning, ?_⟩
      cases hread : p.read with
      | timeout => rfl
      | failed => rfl
      | datagram data =>
          rw [hread] at hoffers
          obtain ⟨x, hx, htakes⟩ := List.any_eq_true.mp hoffers
          exact List.any_eq_true.mpr ⟨x, hdown hx, htakes⟩
  | relay e =>
      cases e with
      | packet data src rnd =>
          rcases h with ⟨i, hsrc, hsaid⟩ | hforeign
          · exact Or.inl ⟨i, hsrc, hup hsaid⟩
          · exact Or.inr hforeign
      | rateTick => trivial
      | roomTick => trivial

variable (m) in
/-- A network at a time: what it has done is a meeting, what is under way was sent, and no time that is
remembered is ahead. -/
structure InTime (now : Int) (n : Network) : Prop where
  meeting : ∃ log, m.machine.Run m.May log n.world ∧ ∀ x ∈ log.head?, x.time ≤ now
  up : n.up ⊆ n.world.toRelay
  down : n.down ⊆ n.world.toPeers
  clock : ∀ i, ∀ t ∈ n.clock i, t ≤ now
  past : ∀ i, (n.world.exchange i).Past now
  windows : ∀ R k u, n.world.relay.HasClient R k u → u.rateLimiter.windowStart ≤ now

namespace InTime

theorem inv (h : m.InTime now n) : m.Inv n.world := by
  obtain ⟨log, hrun, _⟩ := h.meeting
  exact inv_of_run hrun

theorem start (m : Meeting Pt) (now : Int) : m.InTime now m.quiet where
  meeting := ⟨[], .init, fun x hx => by cases hx⟩
  up := List.Subset.refl _
  down := List.Subset.refl _
  clock i t h := by cases h
  past i := .start now _
  windows R k u h := by
    obtain ⟨e, he, _⟩ := h
    cases he

theorem mono {now' : Int} (h : m.InTime now n) (hle : now ≤ now') : m.InTime now' n where
  meeting := by
    obtain ⟨log, hrun, hclock⟩ := h.meeting
    exact ⟨log, hrun, fun x hx => (hclock x hx).trans hle⟩
  up := h.up
  down := h.down
  clock i t ht := (h.clock i t ht).trans hle
  past i := (h.past i).mono hle
  windows R k u hu := (h.windows R k u hu).trans hle

/-- The meeting goes on with what happens. -/
theorem happens (h : m.InTime now n) {e : Happening} (hmay : m.May n.underWay now e) :
    ∃ log, m.machine.Run m.May log (m.step n.world now e).1 ∧ ∀ x ∈ log.head?, x.time ≤ now := by
  obtain ⟨log, hrun, hclock⟩ := h.meeting
  refine ⟨_, hrun.step now e hclock (hmay.of_underWay h.up h.down), fun x hx => ?_⟩
  obtain rfl := Option.some.inj hx
  exact le_refl now

theorem pass (h : m.InTime now n) (hpossible : m.Possible n now (.happens (.pass i p))) :
    m.InTime now (m.transit n now (.happens (.pass i p))).1 := by
  obtain ⟨hmay, _, hnow, hreceived⟩ := hpossible
  refine ⟨h.happens hmay, ?_, ?_, ?_, ?_, h.windows⟩
  · intro x hx
    exact List.mem_append.mpr ((List.mem_append.mp hx).imp_left fun hx => h.up hx)
  · intro x hx
    exact h.down (mem_down_of_pass hx)
  · intro j t ht
    by_cases hj : j = i
    · subst hj
      rw [show (m.transit n now (.happens (.pass j p))).1.clock j = some p.received from
        Function.update_self ..] at ht
      cases ht
      exact hreceived.le
    · rw [show (m.transit n now (.happens (.pass i p))).1.clock j = n.clock j from
        Function.update_of_ne hj ..] at ht
      exact h.clock j t ht
  · intro j
    by_cases hj : j = i
    · subst hj
      rw [show (m.transit n now (.happens (.pass j p))).1.world.exchange j = _ from World.exchange_after]
      exact (h.past j).pass (hnow.trans hreceived.le) hreceived.le
    · rw [show (m.transit n now (.happens (.pass i p))).1.world.exchange j = _ from
        World.exchange_after_of_ne hj]
      exact h.past j

theorem relay (h : m.InTime now n) (hmay : m.May n.underWay now (.relay e)) :
    m.InTime now (m.transit n now (.happens (.relay e))).1 where
  meeting := h.happens hmay
  up x hx := h.up (mem_up_of_relay hx)
  down x hx := List.mem_append.mpr ((List.mem_append.mp hx).imp_left fun hx => h.down hx)
  clock := h.clock
  past := h.past
  windows R k u hu := by
    rcases step_windowStart hu with hstart | ⟨u', hu', hstart⟩
    · exact hstart.le
    · rw [hstart]
      exact h.windows R k u' hu'

theorem step (h : m.InTime now n) {e : Transit} (hpossible : m.Possible n now e) :
    m.InTime now (m.transit n now e).1 := by
  have hdouble : ∀ {α : Type} {l : List α} {x : α} (k : Nat), x ∈ l ++ l[k]?.toList → x ∈ l := by
    intro α l x k hx
    rcases List.mem_append.mp hx with hx | hx
    · exact hx
    · exact List.mem_of_getElem? (Option.mem_toList.mp hx)
  cases e with
  | happens e =>
      cases e with
      | pass i p => exact h.pass hpossible
      | relay e => exact h.relay hpossible
  | lose link k =>
      cases link with
      | up => exact { h with up := fun x hx => h.up (List.mem_of_mem_eraseIdx hx) }
      | down => exact { h with down := fun x hx => h.down (List.mem_of_mem_eraseIdx hx) }
  | double link k =>
      cases link with
      | up => exact { h with up := fun x hx => h.up (hdouble k hx) }
      | down => exact { h with down := fun x hx => h.down (hdouble k hx) }

end InTime

theorem inTime_of_run {log : List (LogEntry Transit (Side × Exit))} (hrun : m.network.Run m.Possible log n)
    (hclock : ∀ x ∈ log.head?, x.time ≤ now) : m.InTime now n :=
  hrun.invariant_clock (I := m.InTime) (.start m) (fun _ _ _ hle h => h.mono hle)
    (fun _ _ _ h hpossible => h.step hpossible) now hclock

end Meeting

end Qvole.Engine
