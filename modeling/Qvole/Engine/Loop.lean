import Qvole.Engine.Exchange
import Qvole.Engine.Registration
import Qvole.Lib.Buffers

/-!
# The loop of the exchange

`registerAndExchange` registers with the relay, sends its `spake2` payload and reads what the relay hands
on. A valid payload of a peer becomes a candidate and is answered by a `confirm` message; a `confirm`
message that a candidate accepts ends the loop. One that none accepts is kept, because the payload it
belongs to may still be on its way. The relay may deliver anything, so both tables are bounded: a new
candidate takes the place of the one whose confirmation was sent longest ago, and further confirmations
are dropped.

One pass of the loop is one step. What comes from outside is its input: the clock before and behind the
read, what was read, the random draws, and the order in which `range` visits a map. The keys of the
candidates are byte buffers, so that it can be said which of them have been overwritten; every pair of keys
ever derived has its two buffers. Log lines and what only they depend on are left out.
-/

namespace Qvole.Engine

open Lib Spake2

def maxCandidates : Nat := 50
def maxBufferedConfirms : Nat := 200
def readBufferSize : Nat := 1500
def maxInboundMSGDPerSecond : Nat := 500

/-- `confirmKey` and `encKey` are slices of the keys' buffers. -/
structure PeerCandidate where
  point : Bytes
  fingerprint : Bytes
  confirmKey : Nat
  encKey : Nat
  confirmPayload : Bytes
  isServer : Bool
  effectiveMyPoint : Bytes
  deriving DecidableEq

/-- The local variables of the loop; the zero time is `none`. `keys` holds all keys ever derived. -/
structure Exchange where
  reg : RegClient
  myAddr : Bytes
  candidates : GoMap Bytes PeerCandidate
  confirmLastSent : GoMap Bytes Int
  bufferedConfirms : List Bytes
  keys : Buffers
  allKeys : List Nat
  lastSpake2Sent : Option Int
  inboundWindow : Option Int
  inboundCount : Nat

inductive Exit
  | cancelled
  | timeout
  | readFailed
  | authenticated (peerAddr peerFingerprint : Bytes) (isServer : Bool)
  deriving DecidableEq

/-- What one pass leaves: the variables, the datagrams written, and whether the loop has ended. -/
structure Turn where
  state : Exchange
  sent : List Bytes := []
  exit : Option Exit := none

inductive ReadResult
  | datagram (data : Bytes)
  | timeout
  | failed

/-- The inputs of one pass: `now` is the clock before the read and `received` the clock behind it. -/
structure Pass where
  cancelled : Bool
  now : Int
  sendOrder : RangeOrder Bytes
  read : ReadResult
  received : Int
  draws : ConfirmDraws
  order : RangeOrder Bytes

/-! ### The own address -/

def detectOutboundAddr (localAddr : UDPAddr) : Bytes :=
  let myAddr := localAddr.string
  match splitHostPort myAddr with
  | none => myAddr
  | some (host, port) =>
    match parseIP host with
    | none => myAddr
    | some ip => if ip.isUnspecified then joinHostPort (ascii "localhost") port else myAddr

def printableASCII (s : Bytes) : Bool := s != [] && s.all isPrint

/-- The address behind a `REGD OK` that names a literal address and port. -/
def externalAddr (room data : Bytes) : Option Bytes :=
  let line := trimSpace data
  if (ascii "REGD ").isPrefixOf line then
    match cut 32 (line.drop 5) with
    | (_, none) => none
    | (relayRoom, some relayPayload) =>
      let payload := trimSpace relayPayload
      if relayRoom ≠ room ∨ ¬ (ascii "OK ").isPrefixOf payload then none
      else
        let extAddr := trimSpace (payload.drop 3)
        match parseAddrPort extAddr with
        | some (_, port) => if port ≠ 0 ∧ printableASCII extAddr then some extAddr else none
        | none => none
  else none

/-! ### The lines -/

def msgLine (room phase payload : Bytes) : Bytes :=
  ascii "MSG " ++ room ++ [32] ++ phase ++ [32] ++ hexEncode payload ++ [10]

/-- What a datagram fills the read buffer with. -/
def readBytes (data : Bytes) : Bytes := data.take readBufferSize

/-- The body of a `MSGD` line of the phase. -/
def msgdBody (phase data : Bytes) : Option Bytes :=
  let line := trimSpace (readBytes data)
  if (ascii "MSGD " ++ phase ++ [32]).isPrefixOf line then some (line.drop (phase.length + 6)) else none

def isMsgd (data : Bytes) : Bool := (ascii "MSGD ").isPrefixOf (trimSpace (readBytes data))

theorem length_phase_le {phase : Bytes} (hphase : phase = ascii "spake2" ∨ phase = ascii "confirm") :
    phase.length ≤ 7 := by
  rcases hphase with rfl | rfl
  · decide
  · decide

/-- What the relay makes of a payload is read back under the phase it was sent in. -/
theorem msgdBody_msgdLine {phase payload : Bytes} (hphase : phase = ascii "spake2" ∨ phase = ascii "confirm")
    (hne : payload ≠ []) (hlen : payload.length ≤ 512) :
    msgdBody phase (Relay.msgdLine phase (hexEncode payload)) = some (hexEncode payload) := by
  have hphaseLen := length_phase_le hphase
  have hcommand : (ascii "MSGD " ++ phase ++ [32]).length = phase.length + 6 := by
    simp only [List.length_append, List.length_singleton]
    rw [show (ascii "MSGD ").length = 5 from rfl]
    omega
  have hhead : ∀ b, (ascii "MSGD " ++ phase ++ [32]).head? = some b → isPrint b := by
    intro b hb
    cases hb
    decide
  have hread : readBytes (Relay.msgdLine phase (hexEncode payload)) =
      Relay.msgdLine phase (hexEncode payload) := by
    apply List.take_of_length_le
    rw [Relay.msgdLine, List.length_append, List.length_append, hcommand, length_hexEncode, readBufferSize,
      List.length_singleton]
    omega
  unfold msgdBody
  rw [hread, Relay.msgdLine, trimSpace_hexLine (by simp) hhead hne]
  dsimp only
  rw [if_pos (by simp), List.drop_left' hcommand]

theorem isMsgd_of_msgdBody {phase data body : Bytes} (h : msgdBody phase data = some body) :
    isMsgd data = true := by
  unfold msgdBody at h
  dsimp only at h
  split at h
  · rename_i hprefix
    apply List.isPrefixOf_iff_prefix.mpr
    rw [List.append_assoc] at hprefix
    exact (List.prefix_append _ _).trans (List.isPrefixOf_iff_prefix.mp hprefix)
  · cases h

/-- The canonical form of a payload that is long enough: `M`-point, `N`-point and fingerprint. -/
def payloadHex (body : Bytes) : Option Bytes :=
  match hexDecode body with
  | none => none
  | some peerPayload =>
    if peerPayload.length < spake2PayloadLen then none
    else some (hexEncode (peerPayload.take spake2PayloadLen))

namespace Exchange

def start (myAddr : Bytes) : Exchange := ⟨.start, myAddr, ∅, ∅, [], [], [], none, none, 0⟩

/-- The deferred function. -/
def cleanup (s : Exchange) : Buffers := s.keys.zeroAll s.allKeys

/-- The window of the inbound limit; the flag says that the datagram is dropped. -/
def limitInbound (now : Int) (s : Exchange) : Bool × Exchange :=
  let s := if s.inboundWindow.all fun t => 1000000000 ≤ now - t then
      { s with inboundWindow := some now, inboundCount := 0 }
    else s
  let s := { s with inboundCount := s.inboundCount + 1 }
  (maxInboundMSGDPerSecond < s.inboundCount, s)

/-- `t.Before(u)`. -/
def before : Option Int → Option Int → Bool
  | none, some _ => true
  | some t, some u => t < u
  | _, none => false

/-- One turn of the loop that looks for the candidate to evict. -/
def oldestSoFar (confirmLastSent : GoMap Bytes Int) (evict : Bytes × Option Int) (k : Bytes) :
    Bytes × Option Int :=
  let t := confirmLastSent.lookup k
  if evict.1 = [] ∨ before t evict.2 then (k, t) else evict

def evictKey (order : RangeOrder Bytes) (s : Exchange) : Bytes :=
  ((order.visit s.candidates.keys).foldl (oldestSoFar s.confirmLastSent) ([], none)).1

def evictOldest (order : RangeOrder Bytes) (s : Exchange) : Exchange :=
  let evictKey := s.evictKey order
  { s with
    keys := match s.candidates.lookup evictKey with
      | some c => (s.keys.zeroBytes c.confirmKey).zeroBytes c.encKey
      | none => s.keys
    candidates := s.candidates.erase evictKey
    confirmLastSent := s.confirmLastSent.erase evictKey }

/-- What is done before a candidate enters the table. -/
def makeRoom (order : RangeOrder Bytes) (s : Exchange) : Exchange :=
  if maxCandidates ≤ s.candidates.size then s.evictOldest order else s

end Exchange

/-! ### One pass -/

/-- What is fixed before the loop starts. -/
structure Session (Pt : Type) [AddCommGroup Pt] where
  curve : Curve Pt
  gcm : Gcm
  state : State Pt
  myFingerprint : Bytes
  room : Bytes
  deadline : Int
  regInterval : Int
  spake2Resend : Int
  confirmResend : Int

variable {Pt : Type} [AddCommGroup Pt]

namespace Session

variable (x : Session Pt)

def spake2Payload : Bytes :=
  x.state.blindedBytesM x.curve ++ x.state.blindedBytesN x.curve ++ x.myFingerprint

def process [DecidableEq Pt] (body : Bytes) : Except ExchangeError Candidate :=
  processSpakeMsg x.curve body x.state (x.state.blindedBytesM x.curve) (x.state.blindedBytesN x.curve)
    x.myFingerprint

/-- The confirm message for a candidate. -/
def confirm (k : Candidate) (myAddr : Bytes) (draws : ConfirmDraws) : Except ExchangeError Bytes :=
  buildConfirmPayload x.curve x.gcm k.confirmKey k.encKey k.effectiveMyPoint k.effectivePeerPoint
    x.myFingerprint k.peerFingerprint myAddr draws

/-- What a candidate, with the keys its slices refer to, makes of a confirm message. -/
def accept (keys : Buffers) (cand : PeerCandidate) (hexBody : Bytes) : Except ExchangeError Bytes :=
  processConfirmMsg x.curve x.gcm hexBody (keys.read cand.confirmKey) (keys.read cand.encKey)
    cand.effectiveMyPoint cand.point x.myFingerprint cand.fingerprint

/-! What is sent before the read. -/

def sendReg (now : Int) (s : Exchange) : Turn :=
  if s.reg.regDue x.regInterval now then
    { state := { s with reg := s.reg.sentReg now }, sent := [s.reg.regMsg x.room] }
  else { state := s }

def sendSpake2 (now : Int) (s : Exchange) : Turn :=
  if s.reg.receivedREGD ∧ s.lastSpake2Sent.all fun t => x.spake2Resend < now - t then
    { state := { s with lastSpake2Sent := some now }
      sent := [msgLine x.room (ascii "spake2") x.spake2Payload] }
  else { state := s }

/-- One turn of the loop that sends confirmations again. -/
def resendConfirm (now : Int) (t : Turn) (k : Bytes) : Turn :=
  match t.state.candidates.lookup k with
  | none => t
  | some cand =>
    if (t.state.confirmLastSent.lookup k).all fun ls => x.confirmResend < now - ls then
      { state := { t.state with confirmLastSent := t.state.confirmLastSent.insert k now }
        sent := t.sent ++ [msgLine x.room (ascii "confirm") cand.confirmPayload] }
    else t

def send (p : Pass) (s : Exchange) : Turn :=
  let reg := x.sendReg p.now s
  let spake2 := x.sendSpake2 p.now reg.state
  (p.sendOrder.visit spake2.state.candidates.keys).foldl (x.resendConfirm p.now)
    { spake2 with sent := reg.sent ++ spake2.sent }

/-! What is done with what was read. -/

variable [DecidableEq Pt]

/-- A payload that has passed all checks enters the table. -/
def addCandidate (p : Pass) (key : Bytes) (k : Candidate) (cp : Bytes) (s : Exchange) : Turn :=
  let ck := s.keys.length
  let s := { s with keys := s.keys ++ [k.confirmKey, k.encKey] }
  let s := s.makeRoom p.order
  let cand : PeerCandidate := ⟨k.effectivePeerPoint, k.peerFingerprint, ck, ck + 1, cp, k.isServer,
    k.effectiveMyPoint⟩
  let s := { s with
    candidates := s.candidates.insert key cand
    allKeys := s.allKeys ++ [ck, ck + 1]
    confirmLastSent := s.confirmLastSent.insert key p.received }
  { state := s
    sent := [msgLine x.room (ascii "confirm") cp]
    exit := (s.bufferedConfirms.findSome? fun body => (x.accept s.keys cand body).toOption).map fun pa =>
      .authenticated pa k.peerFingerprint k.isServer }

/-- The keys of a payload that got no further are overwritten at once. -/
def discardKeys (k : Candidate) (s : Exchange) : Exchange :=
  let ck := s.keys.length
  { s with keys := ((s.keys ++ [k.confirmKey, k.encKey]).zeroBytes ck).zeroBytes (ck + 1) }

def onSpake2 (p : Pass) (hexBody : Bytes) (s : Exchange) : Turn :=
  match payloadHex hexBody with
  | none => { state := s }
  | some key =>
    if key ∈ s.candidates then { state := s }
    else
      match x.process hexBody with
      | .error _ => { state := s }
      | .ok k =>
        match x.confirm k s.myAddr p.draws with
        | .error _ => { state := discardKeys k s }
        | .ok cp => x.addCandidate p key k cp s

/-- The candidate under the key accepts the message. -/
def tryCandidate (hexBody : Bytes) (s : Exchange) (key : Bytes) : Option Exit :=
  match s.candidates.lookup key with
  | none => none
  | some cand => (x.accept s.keys cand hexBody).toOption.map fun pa =>
      .authenticated pa cand.fingerprint cand.isServer

def onConfirm (p : Pass) (hexBody : Bytes) (s : Exchange) : Turn :=
  match (p.order.visit s.candidates.keys).findSome? (x.tryCandidate hexBody s) with
  | some exit => { state := s, exit := some exit }
  | none =>
    if s.bufferedConfirms.length < maxBufferedConfirms then
      { state := { s with bufferedConfirms := s.bufferedConfirms ++ [hexBody] } }
    else { state := s }

/-- The datagram behind the inbound limit. -/
def handle (p : Pass) (data : Bytes) (s : Exchange) : Turn :=
  match msgdBody (ascii "spake2") data with
  | some hexBody => x.onSpake2 p hexBody s
  | none =>
    match msgdBody (ascii "confirm") data with
    | some hexBody => x.onConfirm p hexBody s
    | none =>
      { state := { s with
          reg := s.reg.onDatagram x.room (readBytes data)
          myAddr := (externalAddr x.room (readBytes data)).getD s.myAddr } }

def receive (p : Pass) (data : Bytes) (s : Exchange) : Turn :=
  if isMsgd data then
    let limit := s.limitInbound p.received
    if limit.1 then { state := limit.2 } else x.handle p data limit.2
  else x.handle p data s

def pass (p : Pass) (s : Exchange) : Turn :=
  if p.cancelled then { state := s, exit := some .cancelled }
  else if x.deadline < p.now then { state := s, exit := some .timeout }
  else
    let before := x.send p s
    match p.read with
    | .timeout => before
    | .failed => { before with exit := some .readFailed }
    | .datagram data =>
      let behind := x.receive p data before.state
      { behind with sent := before.sent ++ behind.sent }

/-- The passes of the loop, until one ends it. -/
def loop : List Pass → Exchange → Exchange × Option Exit
  | [], s => (s, none)
  | p :: ps, s =>
    match (x.pass p s).exit with
    | none => loop ps (x.pass p s).state
    | some exit => ((x.pass p s).state, some exit)

/-- A loop that has not ended was not ended before. -/
theorem loop_append_none {front back : List Pass} {s : Exchange} (h : (x.loop (front ++ back) s).2 = none) :
    (x.loop front s).2 = none := by
  induction front generalizing s with
  | nil => rfl
  | cons p front ih =>
      rw [List.cons_append, loop] at h
      rw [loop]
      cases hexit : (x.pass p s).exit with
      | none =>
          rw [hexit] at h
          exact ih h
      | some exit =>
          rw [hexit] at h
          cases h

end Session

end Qvole.Engine
