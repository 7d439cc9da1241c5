import Qvole.Engine.Registration

/-!
# A peer and the relay together

The relay and one registering peer make up a joint machine. Everything else that reaches the relay,
from any source and at any moment, is an event of its own; so is what the network repeats, delays or
forges. A `REG` of the peer is handled when it is sent, or lost. The peer receives what the relay sent
to its address, in any order, repeatedly or never.

An admitted peer should stay in its room by sending `REG` more often than `regTTL`. Its `REG` does
renew the registration as long as it carries no cookie, or a cookie that completes a pending
registration. But a peer that was admitted by answering a challenge keeps sending the cookie it
answered with, and the admission has used it up.
-/

namespace Qvole.Engine

open Lib Relay

structure Peer where
  room : Bytes
  addr : UDPAddr
  regInterval : Int
  room_valid : validRoomName room

/-- The datagrams in `inbox` are those the relay has sent to the peer so far. -/
structure Joint where
  relay : State
  client : RegClient
  inbox : List Bytes

inductive JointEvent
  | other (e : Event)
  | loop (rnd : Option Cookie) (reaches : Bool)
  | receive (data : Bytes)

def writesTo (addr : UDPAddr) (outs : List Out) : List Bytes :=
  outs.filterMap fun
    | .write msg a => if a.string = addr.string then some msg else none
    | _ => none

variable (cfg : Config) (peer : Peer)

def relayStep (now : Int) (s : Joint) (e : Event) : Joint × List Out :=
  let r := step cfg now s.relay e
  ({ s with relay := r.1, inbox := writesTo peer.addr r.2 ++ s.inbox }, r.2)

def jointStep (now : Int) (s : Joint) : JointEvent → Joint × List Out
  | .other e => relayStep cfg peer now s e
  | .loop rnd reaches =>
    if s.client.regDue peer.regInterval now then
      let sent := { s with client := s.client.sentReg now }
      if reaches then relayStep cfg peer now sent (.packet (s.client.regMsg peer.room) peer.addr rnd)
      else (sent, [])
    else (s, [])
  | .receive data => ({ s with client := s.client.onDatagram peer.room data }, [])

def jointMachine : Machine Joint JointEvent Out where
  init := ⟨.empty, .start, []⟩
  step s now e := jointStep cfg peer now s e

/-- The peer receives nothing the relay did not send to it. -/
def Possible (s : Joint) : JointEvent → Prop
  | .receive data => data ∈ s.inbox
  | _ => True

instance (s : Joint) : (e : JointEvent) → Decidable (Possible s e)
  | .other _ => inferInstanceAs (Decidable True)
  | .loop _ _ => inferInstanceAs (Decidable True)
  | .receive data => inferInstanceAs (Decidable (data ∈ s.inbox))

/-- This pass of the loop sends a `REG`. -/
def sends (now : Int) (s : Joint) : JointEvent → Bool
  | .loop _ _ => s.client.regDue peer.regInterval now
  | _ => false

/-- If the pass sends a `REG`, it arrives, is within the rate limit and is one that renews. -/
def Served (now : Int) (s : Joint) : JointEvent → Prop
  | .loop _ reaches => s.client.regDue peer.regInterval now →
      reaches = true ∧ (s.relay.isRegRateLimited cfg now (ipKey peer.addr.string)).1 = false ∧
        Renewable now peer.room s.client.pendingCookie peer.addr s.relay
  | _ => True

/-- A continuation in which nothing happens later than `regTTL` after the last `REG` of the peer, or
after `last` before there is one, and every such `REG` is served. -/
def Kept : Int → Joint → List (Int × JointEvent) → Prop
  | _, _, [] => True
  | last, s, (now, e) :: rest =>
    last ≤ now ∧ now - last ≤ cfg.regTTL ∧ Served cfg peer now s e ∧
      Kept (if sends peer now s e then now else last) (jointStep cfg peer now s e).1 rest

variable {cfg peer} {s : Joint} {u : UdpClient}

/-- The `REG` that is due, when it arrives, meets the relay as `handleReg` does. -/
theorem jointStep_loop {now : Int} {rnd : Option Cookie}
    (hdue : s.client.regDue peer.regInterval now = true) :
    ((jointStep cfg peer now s (.loop rnd true)).1.relay,
        (jointStep cfg peer now s (.loop rnd true)).2) =
      handleReg cfg now rnd peer.room s.client.pendingCookie peer.addr s.relay := by
  unfold jointStep
  dsimp only
  rw [if_pos hdue, if_pos rfl, relayStep]
  dsimp only
  rw [step, handlePacket_of_parseReg (parseReg_regMsg peer.room_valid s.client)]

theorem loop_renewed_iff {now : Int} (rnd : Option Cookie)
    (hclient : s.relay.HasClient peer.room peer.addr.string u)
    (hdue : s.client.regDue peer.regInterval now = true)
    (hfresh : now - u.lastSeen ≤ cfg.regTTL)
    (hlimit : (s.relay.isRegRateLimited cfg now (ipKey peer.addr.string)).1 = false) :
    Renewed now peer.room peer.addr ((jointStep cfg peer now s (.loop rnd true)).1.relay,
        (jointStep cfg peer now s (.loop rnd true)).2) ↔
      Renewable now peer.room s.client.pendingCookie peer.addr s.relay := by
  rw [jointStep_loop hdue]
  exact handleReg_renewed_iff hclient hfresh hlimit s.client.cookie_wf

/-- One step of a continuation keeps the peer in its room, seen no earlier than its last `REG`. -/
theorem jointStep_keeps {now last : Int} {e : JointEvent}
    (hclient : s.relay.HasClient peer.room peer.addr.string u) (hlast : last ≤ u.lastSeen)
    (hclock : last ≤ now) (hgap : now - last ≤ cfg.regTTL) (hserved : Served cfg peer now s e) :
    ∃ u', (jointStep cfg peer now s e).1.relay.HasClient peer.room peer.addr.string u' ∧
      (if sends peer now s e then now else last) ≤ u'.lastSeen := by
  have hfresh : now - u.lastSeen ≤ cfg.regTTL := by omega
  cases e with
  | other e =>
      obtain ⟨u', hu', hseen⟩ := step_keeps_client e hclient hfresh
      refine ⟨u', hu', ?_⟩
      change last ≤ u'.lastSeen
      omega
  | receive data => exact ⟨u, hclient, hlast⟩
  | loop rnd reaches =>
      cases hdue : s.client.regDue peer.regInterval now with
      | false =>
          refine ⟨u, ?_, ?_⟩
          · rw [jointStep, if_neg (by simp [hdue])]
            exact hclient
          · simpa [sends, hdue] using hlast
      | true =>
          obtain ⟨rfl, hlimit, hrenewable⟩ := hserved hdue
          obtain ⟨⟨u', hu', hnow⟩, _⟩ :=
            (loop_renewed_iff rnd hclient hdue hfresh hlimit).mpr hrenewable
          exact ⟨u', hu', by simp [sends, hdue, hnow]⟩

theorem exec_keeps {last : Int} {inputs : List (Int × JointEvent)}
    (hclient : s.relay.HasClient peer.room peer.addr.string u) (hlast : last ≤ u.lastSeen)
    (hkept : Kept cfg peer last s inputs) :
    ∃ u', ((jointMachine cfg peer).exec s inputs).relay.HasClient peer.room peer.addr.string u' := by
  induction inputs generalizing s u last with
  | nil => exact ⟨u, hclient⟩
  | cons input rest ih =>
      obtain ⟨now, e⟩ := input
      obtain ⟨hclock, hgap, hserved, hrest⟩ := hkept
      obtain ⟨u', hu', hseen⟩ := jointStep_keeps hclient hlast hclock hgap hserved
      exact ih hu' hseen hrest

/-- Of a peer in its room, in any joint state: the next `REG` it sends renews the registration and is
acknowledged exactly if it carries no cookie or one that completes a pending registration; and as long
as its `REG`s are of that kind and come at intervals of at most `regTTL`, it stays in its room. -/
theorem keepalive_of_renewable (cfg : Config) (peer : Peer) (s : Joint) (u : UdpClient)
    (hclient : s.relay.HasClient peer.room peer.addr.string u) :
    (∀ now rnd, s.client.regDue peer.regInterval now = true → now - u.lastSeen ≤ cfg.regTTL →
      (s.relay.isRegRateLimited cfg now (ipKey peer.addr.string)).1 = false →
      (Renewed now peer.room peer.addr ((jointStep cfg peer now s (.loop rnd true)).1.relay,
          (jointStep cfg peer now s (.loop rnd true)).2) ↔
        Renewable now peer.room s.client.pendingCookie peer.addr s.relay)) ∧
    ∀ inputs, Kept cfg peer u.lastSeen s inputs →
      ∃ u', ((jointMachine cfg peer).exec s inputs).relay.HasClient peer.room peer.addr.string u' :=
  ⟨fun _ rnd hdue hfresh hlimit => loop_renewed_iff rnd hclient hdue hfresh hlimit,
    fun _ hkept => exec_keeps hclient le_rfl hkept⟩

def homePeer : Peer := ⟨ascii "9908", ⟨[192, 0, 2, 7], 40000, []⟩, RegInterval, by decide⟩

def homeCookie : Cookie := ⟨List.replicate 16 7, rfl⟩

def second : Int := 1000000000

/-- An earlier process registered from the same port; the peer itself was never challenged. -/
def takenOver : List (Int × JointEvent) :=
  [(0, .other (.packet (RegClient.start.regMsg homePeer.room) homePeer.addr (some homeCookie))),
    (0, .other (.packet (ascii "REG 9908 07070707070707070707070707070707") homePeer.addr none))]

/-- With no cookie to send, the peer is renewed after 31 and after 62 seconds. -/
theorem keepalive_without_cookie : ∃ s u,
    s.relay.HasClient homePeer.room homePeer.addr.string u ∧
    Renewed (31 * second) homePeer.room homePeer.addr
      ((jointStep .default homePeer (31 * second) s (.loop none true)).1.relay,
        (jointStep .default homePeer (31 * second) s (.loop none true)).2) ∧
    ∃ u', ((jointMachine .default homePeer).exec s [(31 * second, .loop none true),
      (62 * second, .loop none true), (92 * second, .other .roomTick)]).relay.HasClient
        homePeer.room homePeer.addr.string u' := by
  let s := (jointMachine .default homePeer).exec (jointMachine .default homePeer).init takenOver
  obtain ⟨u, hclient, hseen⟩ := State.hasClient_of_any (s := s.relay) (R := homePeer.room)
    (k := homePeer.addr.string) (p := fun u => u.lastSeen = 0) (by decide +kernel)
  have hzero : u.lastSeen = 0 := of_decide_eq_true hseen
  obtain ⟨hrenewed, hkept⟩ := keepalive_of_renewable .default homePeer s u hclient
  refine ⟨s, u, hclient, ?_, hkept _ ?_⟩
  · refine (hrenewed (31 * second) none (by decide +kernel) ?_ (by decide +kernel)).mpr (Or.inl ?_)
    · rw [hzero]
      decide
    · decide +kernel
  · rw [hzero]
    refine ⟨by decide, by decide, fun _ => ⟨rfl, by decide +kernel, Or.inl (by decide +kernel)⟩, ?_⟩
    refine ⟨by decide +kernel, by decide +kernel,
      fun _ => ⟨rfl, by decide +kernel, Or.inl (by decide +kernel)⟩, ?_⟩
    exact ⟨by decide +kernel, by decide +kernel, trivial, trivial⟩

/-- The peer registers as it should: it is challenged, answers, and is told that it is in. -/
def registered : List (Int × JointEvent) :=
  [(0, .loop (some homeCookie) true), (0, .receive (regdChallenge homePeer.room homeCookie)),
    (0, .loop none true), (0, .receive (regdOK homePeer.room homePeer.addr))]

/-- The `REG` it then sends after 31 seconds is dropped, and half a minute later it is evicted. -/
theorem keepalive_dropped : ∃ log s u,
    (jointMachine .default homePeer).Run (fun s _ e => Possible s e) log s ∧
    s.relay.HasClient homePeer.room homePeer.addr.string u ∧
    s.client.regDue homePeer.regInterval (31 * second) = true ∧
    31 * second - u.lastSeen ≤ Config.default.regTTL ∧
    (s.relay.isRegRateLimited .default (31 * second) (ipKey homePeer.addr.string)).1 = false ∧
    (jointStep .default homePeer (31 * second) s (.loop none true)).2 = [.drop .mismatchedCookie] ∧
    ((jointMachine .default homePeer).exec s [(31 * second, .loop none true),
      (61 * second, .other .roomTick)]).relay.rooms.lookup homePeer.room = none := by
  obtain ⟨log, hrun⟩ := Machine.Run.init.exec
    (show (jointMachine .default homePeer).Admissible (fun s _ e => Possible s e) none
      (jointMachine .default homePeer).init registered by decide +kernel)
  obtain ⟨u, hclient, hseen⟩ := State.hasClient_of_any
    (s := ((jointMachine .default homePeer).exec (jointMachine .default homePeer).init
      registered).relay)
    (R := homePeer.room) (k := homePeer.addr.string) (p := fun u => u.lastSeen = 0)
    (by decide +kernel)
  refine ⟨log, _, u, hrun, hclient, by decide +kernel, ?_, by decide +kernel, by decide +kernel,
    by decide +kernel⟩
  rw [of_decide_eq_true hseen]
  decide

end Qvole.Engine
