import Qvole.Engine.ExternalAddress
import Qvole.Engine.Turns
import Qvole.Relay.Service

/-!
# Two peers and their relay

The whole rendezvous. Two peers that were given the same code run `registerAndExchange`, each by its own
clock, and the relay serves them and others. The network keeps every datagram that was ever sent and may
hand over any of them at any time: so it loses, delays, doubles and reorders datagrams, but makes none up.
Other sources send the relay what they like, from other addresses; only, they do not register in the room of
the two. Against those that do, there is the confirmation, which is the subject of `Binding`.

What holds in such a meeting is the meeting of two parts. The relay is a rendezvous service, so what reaches
a peer was said by the other one. And each peer makes one candidate at most, which is the mirror image of the
candidate the other one makes.
-/

namespace Qvole.Engine

open Lib Relay Spake2

inductive Side
  | a
  | b
  deriving DecidableEq

namespace Side

instance : Fintype Side where
  elems := {a, b}
  complete i := by
    cases i with
    | a => decide
    | b => decide

def other : Side → Side
  | a => b
  | b => a

def pick {α : Type} (x y : α) : Side → α
  | a => x
  | b => y

@[simp]
theorem other_other (i : Side) : i.other.other = i := by
  cases i with
  | a => rfl
  | b => rfl

theorem eq_other_of_ne {i j : Side} (h : j ≠ i) : j = i.other := by
  cases i with
  | a => exact (by cases j with | a => exact absurd rfl h | b => rfl)
  | b => exact (by cases j with | a => rfl | b => exact absurd rfl h)

theorem other_ne (i : Side) : i.other ≠ i := by
  cases i with
  | a => decide
  | b => decide

end Side

/-- What the two bring along: the code with its scalar, their random scalars, their certificates, their
settings, and the addresses under which they know themselves and under which the relay sees them. Nobody has
the points of the other, no point is the identity, and the relay sees them under two addresses. -/
structure Meeting (Pt : Type) [AddCommGroup Pt] where
  cfg : Config
  curve : Curve Pt
  gcm : Gcm
  code : Bytes
  pwScalar : PwScalar curve
  privM : Side → { b : Bytes // b.length = 32 }
  privN : Side → { b : Bytes // b.length = 32 }
  fingerprint : Side → Bytes
  deadline : Side → Int
  regInterval : Side → Int
  spake2Resend : Side → Int
  confirmResend : Side → Int
  localAddr : Side → UDPAddr
  addr : Side → UDPAddr
  length_fingerprint : ∀ i, (fingerprint i).length = 32
  fingerprint_ne : fingerprint .a ≠ fingerprint .b
  points : ∀ i, (blind curve pwScalar.val (privM i).val (privN i).val).blindedM ≠ 0 ∧
    (blind curve pwScalar.val (privM i).val (privN i).val).blindedN ≠ 0
  points_ne : (blind curve pwScalar.val (privM .a).val (privN .a).val).blindedBytesM curve ≠
    (blind curve pwScalar.val (privM .b).val (privN .b).val).blindedBytesM curve
  addr_ne : (addr .a).string ≠ (addr .b).string
  source : ∀ i, ((addr i).ip.length = 4 ∨ (addr i).ip.length = 16) ∧ (addr i).port < 65536 ∧
    (addr i).zone = []

/-- `toRelay` holds what the peers have sent, `toPeers` what the relay has sent and to which address. -/
structure World where
  relay : Relay.State
  exchange : Side → Exchange
  exit : Side → Option Exit
  toRelay : List (Side × Bytes)
  toPeers : List (Bytes × UDPAddr)

/-- The peer has made a pass. -/
def World.after (w : World) (i : Side) (t : Turn) : World :=
  { w with
    exchange := Function.update w.exchange i t.state
    exit := Function.update w.exit i t.exit
    toRelay := w.toRelay ++ t.sent.map fun line => (i, line) }

namespace World

variable {w : World} {i j : Side} {t : Turn}

theorem exchange_after : (w.after i t).exchange i = t.state := Function.update_self ..

theorem exchange_after_of_ne (hj : j ≠ i) : (w.after i t).exchange j = w.exchange j := Function.update_of_ne hj ..

theorem exit_after : (w.after i t).exit i = t.exit := Function.update_self ..

theorem exit_after_of_ne (hj : j ≠ i) : (w.after i t).exit j = w.exit j := Function.update_of_ne hj ..

end World

/-- What the read at this address can yield. -/
def World.offers (w : World) (addr : UDPAddr) : ReadResult → Bool
  | .datagram data => w.toPeers.any fun x => x.1 = data ∧ x.2.string = addr.string
  | .timeout => true
  | .failed => true

/-- One of the peers makes a pass of its loop, or something happens at the relay. -/
inductive Happening
  | pass (i : Side) (p : Pass)
  | relay (e : Event)

namespace Meeting

variable {Pt : Type} [AddCommGroup Pt] (m : Meeting Pt)

def state (i : Side) : Spake2.State Pt := blind m.curve m.pwScalar.val (m.privM i).val (m.privN i).val

def room : Bytes := nameplate m.code

def session (i : Side) : Session Pt where
  curve := m.curve
  gcm := m.gcm
  state := m.state i
  myFingerprint := m.fingerprint i
  room := m.room
  deadline := m.deadline i
  regInterval := m.regInterval i
  spake2Resend := m.spake2Resend i
  confirmResend := m.confirmResend i

def start : World where
  relay := .empty
  exchange i := .start (detectOutboundAddr (m.localAddr i))
  exit _ := none
  toRelay := []
  toPeers := []

variable [DecidableEq Pt]

def step (w : World) (now : Int) : Happening → World × List (Side × Exit)
  | .pass i p =>
    let t := (m.session i).pass p (w.exchange i)
    (w.after i t, (t.exit.map fun exit => (i, exit)).toList)
  | .relay e =>
    let t := Relay.step m.cfg now w.relay e
    ({ w with relay := t.1, toPeers := w.toPeers ++ t.2.filterMap Out.datagram }, [])

def machine : Machine World Happening (Side × Exit) := ⟨m.start, m.step⟩

omit [DecidableEq Pt] in
/-- A peer that has not ended reads what was sent to its address. The relay reads what a peer has sent, or a
datagram from elsewhere that is no registration in the room of the two. -/
def May (w : World) (_now : Int) : Happening → Prop
  | .pass i p => w.exit i = none ∧ w.offers (m.addr i) p.read = true
  | .relay (.packet data src _) => (∃ i, src = m.addr i ∧ (i, data) ∈ w.toRelay) ∨
      (∀ i, src.string ≠ (m.addr i).string) ∧ (parseReg data).map Prod.fst ≠ some m.room
  | .relay .rateTick => True
  | .relay .roomTick => True

instance instDecidableMay (w : World) (now : Int) : (e : Happening) → Decidable (m.May w now e)
  | .pass _ _ => inferInstanceAs (Decidable (_ ∧ _))
  | .relay (.packet _ _ _) => inferInstanceAs (Decidable (_ ∨ _))
  | .relay .rateTick => inferInstanceAs (Decidable True)
  | .relay .roomTick => inferInstanceAs (Decidable True)

end Meeting

/-! ### The two candidates -/

/-- The candidate the one peer makes of the other and the one the other makes of it. -/
structure Candidate.Mirrors (k k' : Candidate) : Prop where
  confirmKey : k'.confirmKey = k.confirmKey
  encKey : k'.encKey = k.encKey
  mine : k'.effectiveMyPoint = k.effectivePeerPoint
  peers : k'.effectivePeerPoint = k.effectiveMyPoint
  isServer : k'.isServer = !k.isServer

namespace Meeting

variable {Pt : Type} [AddCommGroup Pt] {m : Meeting Pt} {i : Side} {k k' : Candidate}
  {addr cp line body data : Bytes} {draws : ConfirmDraws} {w w' : World} {xs xs' : Side → Exchange}

/-- The payload of a peer in hex, under which the other one files it. -/
def key (m : Meeting Pt) (i : Side) : Bytes := hexEncode (m.session i).spake2Payload

/-- The larger `M`-point makes the server. -/
def isServer (m : Meeting Pt) (i : Side) : Bool :=
  (m.state i.other).blindedBytesM m.curve < (m.state i).blindedBytesM m.curve

theorem fingerprint_other_ne (m : Meeting Pt) (i : Side) : m.fingerprint i ≠ m.fingerprint i.other := by
  cases i with
  | a => exact m.fingerprint_ne
  | b => exact m.fingerprint_ne.symm

theorem points_other_ne (m : Meeting Pt) (i : Side) :
    (m.state i).blindedBytesM m.curve ≠ (m.state i.other).blindedBytesM m.curve := by
  cases i with
  | a => exact m.points_ne
  | b => exact m.points_ne.symm

variable [DecidableEq Pt]

theorem agreement (m : Meeting Pt) (i : Side) : ∃ role role', role.isServer = m.isServer i ∧
    role.peerFingerprint = m.fingerprint i.other ∧
    Agreement m.curve (m.state i) (m.state i.other) (m.fingerprint i) (m.fingerprint i.other) role role' := by
  obtain ⟨hM, hN⟩ := m.points i
  obtain ⟨hM', hN'⟩ := m.points i.other
  have hfp := m.length_fingerprint i
  have hfp' := m.length_fingerprint i.other
  have hfps := m.fingerprint_other_ne i
  by_cases hlt : (m.state i.other).blindedBytesM m.curve < (m.state i).blindedBytesM m.curve
  · exact ⟨_, _, (decide_eq_true hlt).symm, rfl, agreement_of_server hfp hfp' hfps hM hN hM' hN' hlt⟩
  · have hgt : (m.state i).blindedBytesM m.curve < (m.state i.other).blindedBytesM m.curve := by
      by_contra hnot
      exact m.points_other_ne i (List.le_antisymm hlt hnot)
    exact ⟨_, _, (decide_eq_false hlt).symm, rfl,
      (agreement_of_server hfp' hfp hfps.symm hM' hN' hM hN hgt).symm⟩

theorem process_inv (h : (m.session i).process (m.key i.other) = .ok k) :
    k.peerFingerprint = m.fingerprint i.other ∧ k.isServer = m.isServer i ∧
      ∃ k', (m.session i.other).process (m.key i) = .ok k' ∧ k.Mirrors k' := by
  obtain ⟨role, role', hserver, hfp, hagree⟩ := m.agreement i
  obtain ⟨shared, hselect, hshared, _⟩ := processSpakeMsg_inv h
  have hrole : k.toRole = role := Except.ok.inj (hselect.symm.trans hagree.selectA)
  rw [show k.effectivePeerPoint = role.effectivePeerPoint from congrArg Role.effectivePeerPoint hrole,
    show k.isServer = role.isServer from congrArg Role.isServer hrole] at hshared
  obtain ⟨_, _, ck, ek, hmine, hpeers⟩ := hagree.success shared hshared
  have hk : k = ⟨role, ck, ek⟩ := Except.ok.inj (h.symm.trans hmine)
  rw [hk]
  refine ⟨hfp, hserver, _, hpeers, rfl, rfl, hagree.pointB, hagree.pointA.symm, ?_⟩
  rw [hagree.oneServer, Bool.not_not]

/-- The confirmation of the one is accepted by the candidate of the other, which gets the address. -/
theorem confirm_accepted (hk : (m.session i).process (m.key i.other) = .ok k)
    (hk' : (m.session i.other).process (m.key i) = .ok k')
    (hcp : (m.session i.other).confirm k' addr draws = .ok cp) :
    processConfirmMsg m.curve m.gcm (hexEncode cp) k.confirmKey k.encKey k.effectiveMyPoint
      k.effectivePeerPoint (m.fingerprint i) k.peerFingerprint = .ok (trimRightNul addr) := by
  obtain ⟨hfp, _, k₁, hk₁, hmirror⟩ := process_inv hk
  obtain rfl : k₁ = k' := Except.ok.inj (hk₁.symm.trans hk')
  have hfp' : k₁.peerFingerprint = m.fingerprint i := by
    have hinv := (process_inv (i := i.other) (by rw [Side.other_other]; exact hk₁)).1
    rw [Side.other_other] at hinv
    exact hinv
  have hconfirm := isConfirm_of_built hcp
  have haccepted := processConfirmMsg_splice hconfirm hconfirm rfl hconfirm.length.ge rfl rfl
  rw [trimRightNul_padAddr, hmirror.confirmKey, hmirror.encKey, hmirror.mine, hmirror.peers, hfp'] at haccepted
  rw [hfp]
  exact haccepted

/-! ### What is on the wire -/

variable (m) in
/-- The confirmation the peer has for the other one. -/
def Confirms (xs : Side → Exchange) (i : Side) (cp : Bytes) : Prop :=
  ∃ cand, (xs i).candidates.lookup (m.key i.other) = some cand ∧ cand.confirmPayload = cp

variable (m) in
/-- What a peer sends. -/
inductive Says (xs : Side → Exchange) (i : Side) : Bytes → Prop
  | reg (c : RegClient) : Says xs i (c.regMsg m.room)
  | spake2 : Says xs i (msgLine m.room (ascii "spake2") (m.session i).spake2Payload)
  | confirm {cp : Bytes} (hcp : m.Confirms xs i cp) : Says xs i (msgLine m.room (ascii "confirm") cp)

variable (m) in
/-- What reaches a peer. -/
inductive Hears (xs : Side → Exchange) (i : Side) : Bytes → Prop
  | ok : Hears xs i (regdOK m.room (m.addr i))
  | challenge (cookie : Cookie) : Hears xs i (regdChallenge m.room cookie)
  | spake2 : Hears xs i (msgdLine (ascii "spake2") (m.key i.other))
  | confirm {cp : Bytes} (hcp : m.Confirms xs i.other cp) :
      Hears xs i (msgdLine (ascii "confirm") (hexEncode cp))

variable (m) in
/-- The addresses a peer takes for its own: the one it knows itself under, and the one the relay has named. -/
def Claims (i : Side) (addr : Bytes) : Prop :=
  addr = detectOutboundAddr (m.localAddr i) ∨ addr = (m.addr i).string

variable (m) in
/-- The confirmation is made with the candidate of the other peer and an address of one's own. -/
def Built (i : Side) (cp : Bytes) : Prop :=
  ∃ k addr draws, (m.session i).process (m.key i.other) = .ok k ∧ m.Claims i addr ∧
    (m.session i).confirm k addr draws = .ok cp

omit [DecidableEq Pt] in
theorem Claims.trim (h : m.Claims i addr) : trimRightNul addr = addr := by
  rcases h with rfl | rfl
  · exact trimRightNul_of_last (getLast?_detectOutboundAddr _)
  · exact trimRightNul_of_last (a := m.addr i) rfl

theorem Built.length (h : m.Built i cp) : cp.length = ConfirmPayloadSize := by
  obtain ⟨k, addr, draws, _, _, hcp⟩ := h
  exact (isConfirm_of_built hcp).length

omit [DecidableEq Pt] in
theorem validRoomName_room (m : Meeting Pt) : validRoomName m.room := validRoomName_nameplate m.code

omit [DecidableEq Pt] in
theorem length_room (m : Meeting Pt) : m.room.length ≤ 8 := by
  have hlen := length_nameplate m.code
  rw [room]
  omega

omit [DecidableEq Pt] in
theorem length_payload (m : Meeting Pt) (i : Side) : (m.session i).spake2Payload.length = spake2PayloadLen := by
  rw [Session.spake2Payload, List.length_append, List.length_append]
  rw [show (m.session i).myFingerprint = m.fingerprint i from rfl, m.length_fingerprint i]
  rw [show ((m.session i).state.blindedBytesM (m.session i).curve).length = 65 from
    m.curve.length_marshal _ (m.points i).1]
  rw [show ((m.session i).state.blindedBytesN (m.session i).curve).length = 65 from
    m.curve.length_marshal _ (m.points i).2]
  rfl

omit [DecidableEq Pt] in
theorem payloadHex_key (m : Meeting Pt) (i : Side) : payloadHex (m.key i) = some (m.key i) := by
  have hlen := m.length_payload i
  rw [payloadHex, key, hexDecode_hexEncode]
  dsimp only
  rw [if_neg (Nat.not_lt.mpr hlen.ge), List.take_of_length_le hlen.le]

/-- How the relay reads what a peer says. -/
theorem Says.parse (h : m.Says xs i line) (hbuilt : ∀ cp, m.Confirms xs i cp → m.Built i cp) :
    (∃ cookie, parseReg line = some (m.room, cookie)) ∨
      ∃ phase payload, parseMsg line = some (m.room, phase, hexEncode payload) ∧
        m.Hears xs i.other (msgdLine phase (hexEncode payload)) := by
  have hmsg : ∀ {phase payload : Bytes}, phase = ascii "spake2" ∨ phase = ascii "confirm" →
      0 < payload.length → payload.length ≤ 512 →
      parseMsg (msgLine m.room phase payload) = some (m.room, phase, hexEncode payload) :=
    fun hphase hpos hlen => parseMsg_iff.mpr
      (isMsg_msgLine m.validRoomName_room m.length_room hphase (List.ne_nil_of_length_pos hpos) hlen)
  cases h with
  | reg c => exact Or.inl ⟨_, parseReg_regMsg m.validRoomName_room c⟩
  | spake2 =>
      have hlen := m.length_payload i
      refine Or.inr ⟨_, _, hmsg (Or.inl rfl) (by rw [hlen]; decide) (by rw [hlen]; decide), ?_⟩
      rw [show hexEncode (m.session i).spake2Payload = m.key i.other.other by rw [Side.other_other]; rfl]
      exact .spake2
  | @confirm cp hcp =>
      have hlen := (hbuilt cp hcp).length
      refine Or.inr ⟨_, _, hmsg (Or.inr rfl) (by rw [hlen]; decide) (by rw [hlen]; decide), ?_⟩
      apply Hears.confirm
      rw [Side.other_other]
      exact hcp

/-! ### What a peer reads -/

theorem msgdBody_regd {phase rest : Bytes} (hline : trimSpace (readBytes data) = ascii "REGD " ++ rest) :
    msgdBody phase data = none := by
  apply Option.eq_none_iff_forall_ne_some.mpr
  intro body hbody
  have hmsgd := isMsgd_of_msgdBody hbody
  rw [isMsgd, hline] at hmsgd
  cases hmsgd

theorem externalAddr_msgd {phase body : Bytes} (h : msgdBody phase data = some body) (room : Bytes) :
    externalAddr room (readBytes data) = none := by
  apply Option.eq_none_iff_forall_ne_some.mpr
  intro addr haddr
  obtain ⟨rest, hline⟩ := regd_of_externalAddr haddr
  rw [msgdBody_regd hline] at h
  cases h

/-- What a line that reaches a peer is to it: an address it may take for its own, the payload of the other
peer, or a confirmation of the other peer. -/
structure Reads (m : Meeting Pt) (xs : Side → Exchange) (i : Side) (data : Bytes) : Prop where
  address : ∀ addr, externalAddr m.room (readBytes data) = some addr → m.Claims i addr
  payload : ∀ body, msgdBody (ascii "spake2") data = some body → body = m.key i.other
  confirmation : ∀ body, msgdBody (ascii "confirm") data = some body →
    ∃ cp, m.Confirms xs i.other cp ∧ body = hexEncode cp

theorem Hears.reads (h : m.Hears xs i data) (hbuilt : ∀ cp, m.Confirms xs i.other cp → m.Built i.other cp) :
    m.Reads xs i data := by
  have hregd : ∀ {line rest}, trimSpace (readBytes line) = ascii "REGD " ++ rest →
      (∀ addr, externalAddr m.room (readBytes line) = some addr → m.Claims i addr) → m.Reads xs i line := by
    intro line rest hline haddr
    refine ⟨haddr, ?_, ?_⟩
    · rw [msgdBody_regd hline]
      intro _ h
      cases h
    · rw [msgdBody_regd hline]
      intro _ h
      cases h
  cases h with
  | ok =>
      obtain ⟨hip, hport, hzone⟩ := m.source i
      apply hregd (line_regdOK m.length_room hip hport hzone)
      intro addr haddr
      exact Or.inr (externalAddr_regdOK m.validRoomName_room m.length_room hip hport hzone haddr)
  | challenge cookie =>
      have hread := readBytes_regdChallenge m.length_room cookie
      apply hregd ((congrArg trimSpace hread).trans (RegClient.trimSpace_regdChallenge m.room cookie))
      rw [hread, externalAddr_regdChallenge m.validRoomName_room]
      intro _ h
      cases h
  | spake2 =>
      have hlen := m.length_payload i.other
      have hbody : msgdBody (ascii "spake2") (msgdLine (ascii "spake2") (m.key i.other)) = some (m.key i.other) :=
        msgdBody_msgdLine (Or.inl rfl) (List.ne_nil_of_length_pos (by rw [hlen]; decide)) (by rw [hlen]; decide)
      refine ⟨?_, ?_, ?_⟩
      · rw [externalAddr_msgd hbody]
        intro _ h
        cases h
      · intro body h
        exact Option.some.inj (h.symm.trans hbody)
      · rw [msgdBody_confirm_of_spake2 hbody]
        intro _ h
        cases h
  | @confirm cp hcp =>
      have hlen := (hbuilt cp hcp).length
      have hbody : msgdBody (ascii "confirm") (msgdLine (ascii "confirm") (hexEncode cp)) = some (hexEncode cp) :=
        msgdBody_msgdLine (Or.inr rfl) (List.ne_nil_of_length_pos (by rw [hlen]; decide)) (by rw [hlen]; decide)
      refine ⟨?_, ?_, ?_⟩
      · rw [externalAddr_msgd hbody]
        intro _ h
        cases h
      · rw [msgdBody_spake2_of_confirm hbody]
        intro _ h
        cases h
      · intro body h
        exact ⟨cp, hcp, Option.some.inj (h.symm.trans hbody)⟩

/-! ### The relay's part -/

variable (m) in
/-- The two are the members of their room, and of no other; what they say and what reaches them is as it
should be. -/
structure Wired (w : World) : Prop where
  routed : ∃ log, Routed log w.relay
  members : ∀ R k, w.relay.service.seen R k ≠ none → (R = m.room ↔ ∃ i, k = (m.addr i).string)
  said : ∀ i line, (i, line) ∈ w.toRelay → m.Says w.exchange i line
  heard : ∀ i line addr, (line, addr) ∈ w.toPeers → addr.string = (m.addr i).string → m.Hears w.exchange i line

omit [DecidableEq Pt] in
theorem addr_inj {j : Side} (h : (m.addr i).string = (m.addr j).string) : i = j := by
  cases i with
  | a =>
      cases j with
      | a => rfl
      | b => exact absurd h m.addr_ne
  | b =>
      cases j with
      | a => exact absurd h.symm m.addr_ne
      | b => rfl

omit [DecidableEq Pt] in
theorem Wired.start (m : Meeting Pt) : m.Wired m.start where
  routed := ⟨[], .empty⟩
  members R k h := by
    rw [show m.start.relay.service = _ from State.service_empty] at h
    exact absurd rfl h
  said i line h := absurd h List.not_mem_nil
  heard i line addr h := absurd h List.not_mem_nil

variable {now : Int} {e : Event} {src : UDPAddr} {rnd : Option Cookie}

omit [DecidableEq Pt] in
theorem Wired.serves (h : m.Wired w) (now : Int) (e : Event) :
    Service.Step m.cfg.regTTL now e.request ((Relay.step m.cfg now w.relay e).2.filterMap Out.datagram)
      w.relay.service (Relay.step m.cfg now w.relay e).1.service := by
  obtain ⟨log, hlog⟩ := h.routed
  exact step_serves hlog now e

/-- What the relay sends the two is what they are to hear, and it takes in nobody else. -/
theorem Wired.relay (h : m.Wired w)
    (hsent : ∀ x ∈ (Relay.step m.cfg now w.relay e).2.filterMap Out.datagram, ∀ i,
      x.2.string = (m.addr i).string → m.Hears w.exchange i x.1)
    (hmembers : ∀ R k, (Relay.step m.cfg now w.relay e).1.service.seen R k ≠ none →
      w.relay.service.seen R k ≠ none ∨ (R = m.room ↔ ∃ i, k = (m.addr i).string)) :
    m.Wired (m.step w now (.relay e)).1 where
  routed := by
    obtain ⟨log, hlog⟩ := h.routed
    exact ⟨_, step_routed hlog now e⟩
  members R k hseen := (hmembers R k hseen).elim (h.members R k) id
  said := h.said
  heard i line addr hline haddr := by
    rcases List.mem_append.mp hline with hline | hline
    · exact h.heard i line addr hline haddr
    · exact hsent (line, addr) hline i haddr

/-- The relay sweeps, or reads something that is neither of its commands. -/
theorem Wired.tick (h : m.Wired w) (he : e.request = .other) : m.Wired (m.step w now (.relay e)).1 := by
  have hserves := h.serves now e
  rw [he] at hserves
  obtain ⟨hsent, hmembers⟩ := hserves.other_cases
  apply h.relay
  · rw [hsent]
    exact fun x hx => absurd hx List.not_mem_nil
  · exact fun R k hseen => Or.inl (hmembers R k hseen)

/-- The relay reads a datagram of a peer. -/
theorem Wired.own (h : m.Wired w) (hbuilt : ∀ cp, m.Confirms w.exchange i cp → m.Built i cp)
    (hsaid : (i, data) ∈ w.toRelay) :
    m.Wired (m.step w now (.relay (.packet data (m.addr i) rnd))).1 := by
  have hserves := h.serves now (.packet data (m.addr i) rnd)
  rcases (h.said i data hsaid).parse hbuilt with ⟨cookie, hparse⟩ | ⟨phase, payload, hparse, hhears⟩
  · rw [Event.request_of_parseReg hparse] at hserves
    obtain ⟨hsent, hmembers⟩ := hserves.join_cases
    apply h.relay
    · intro x hx j haddr
      obtain ⟨hsrc, hline⟩ := hsent x hx
      rw [hsrc] at haddr
      obtain rfl := addr_inj haddr
      rcases hline with hline | ⟨c, hline⟩
      · rw [hline]
        exact .ok
      · rw [hline]
        exact .challenge c
    · intro R k hseen
      refine (hmembers R k hseen).imp_right ?_
      rintro ⟨rfl, rfl⟩
      exact iff_of_true rfl ⟨i, rfl⟩
  · rw [Event.request_of_parseMsg hparse] at hserves
    obtain ⟨hsent, hmembers⟩ := hserves.say_cases
    apply h.relay
    · intro x hx j haddr
      obtain ⟨hline, _, hother, _⟩ := hsent x hx
      rw [haddr] at hother
      have hj : j = i.other := Side.eq_other_of_ne fun hji => hother (hji ▸ rfl)
      rw [hline, hj]
      exact hhears
    · exact fun R k hseen => Or.inl (hmembers R k hseen)

/-- The relay reads a datagram from elsewhere. -/
theorem Wired.foreign (h : m.Wired w) (hsrc : ∀ i, src.string ≠ (m.addr i).string)
    (hreg : (parseReg data).map Prod.fst ≠ some m.room) :
    m.Wired (m.step w now (.relay (.packet data src rnd))).1 := by
  have hserves := h.serves now (.packet data src rnd)
  cases hparse : parseReg data with
  | some fields =>
      obtain ⟨R', cookie⟩ := fields
      have hR' : R' ≠ m.room := by
        rintro rfl
        exact hreg (by rw [hparse]; rfl)
      rw [Event.request_of_parseReg hparse] at hserves
      obtain ⟨hsent, hmembers⟩ := hserves.join_cases
      apply h.relay
      · intro x hx j haddr
        rw [(hsent x hx).1] at haddr
        exact absurd haddr (hsrc j)
      · intro R k hseen
        refine (hmembers R k hseen).imp_right ?_
        rintro ⟨rfl, rfl⟩
        exact iff_of_false hR' fun ⟨i, hi⟩ => hsrc i hi
  | none =>
      cases hmsg : parseMsg data with
      | some fields =>
          obtain ⟨R', phase, body⟩ := fields
          rw [Event.request_of_parseMsg hmsg] at hserves
          obtain ⟨hsent, hmembers⟩ := hserves.say_cases
          apply h.relay
          · intro x hx j haddr
            -- the sender is a member of the room, so the room is another one, and the peer is not in it
            obtain ⟨_, hmember, _, hseen⟩ := hsent x hx
            rw [haddr] at hseen
            have hroom := (h.members R' _ hseen).mpr ⟨j, rfl⟩
            obtain ⟨i, hi⟩ := (h.members R' _ hmember).mp hroom
            exact absurd hi (hsrc i)
          · exact fun R k hseen => Or.inl (hmembers R k hseen)
      | none =>
          have hrequest : (Event.packet data src rnd).request = .other := by
            simp only [Event.request, hparse, hmsg]
          exact h.tick hrequest

/-! ### A peer's part -/

variable {p : Pass} {s : Exchange} {cand : PeerCandidate}

variable (m) in
/-- The exchange of a peer knows nobody but the other one. -/
structure Sound (xs : Side → Exchange) (i : Side) (s : Exchange) : Prop where
  tables : (m.session i).Tables s
  known : ∀ key ∈ s.candidates, key = m.key i.other
  claims : m.Claims i s.myAddr
  built : ∀ cand, s.candidates.lookup (m.key i.other) = some cand → m.Built i cand.confirmPayload
  buffered : ∀ body ∈ s.bufferedConfirms, ∃ cp, m.Confirms xs i.other cp ∧ body = hexEncode cp

theorem Sound.start (m : Meeting Pt) (xs : Side → Exchange) (i : Side) :
    m.Sound xs i (.start (detectOutboundAddr (m.localAddr i))) where
  tables := .start _
  known key h := absurd h (AList.notMem_empty key)
  claims := Or.inl rfl
  built cand h := by cases h
  buffered body h := absurd h List.not_mem_nil

theorem Sound.kept (h : m.Sound xs i s) {s' : Exchange} (hkept : s.Kept s') : m.Sound xs i s' where
  tables := h.tables.kept hkept
  known := by
    rw [hkept.candidates]
    exact h.known
  claims := by
    rw [hkept.myAddr]
    exact h.claims
  built := by
    rw [hkept.candidates]
    exact h.built
  buffered := by
    rw [hkept.bufferedConfirms]
    exact h.buffered

theorem Sound.mono (h : m.Sound xs i s)
    (hmono : ∀ cp, m.Confirms xs i.other cp → m.Confirms xs' i.other cp) : m.Sound xs' i s :=
  { h with
    buffered := fun body hbody => (h.buffered body hbody).imp fun cp hcp => ⟨hmono cp hcp.1, hcp.2⟩ }

/-- There is always room for a candidate. -/
theorem Sound.size_lt (h : m.Sound xs i s) : s.candidates.size < maxCandidates := by
  have hle : s.candidates.size ≤ GoMap.size (AList.singleton (m.key i.other) () : GoMap Bytes Unit) := by
    apply GoMap.size_mono
    intro key hkey
    rw [h.known key hkey]
    exact List.mem_singleton.mpr rfl
  exact hle.trans_lt (show 1 < 50 by decide)

theorem Sound.handle (h : m.Sound xs i s) (hreads : m.Reads xs i data) :
    m.Sound xs i ((m.session i).handle p data s).state where
  tables := h.tables.outcome ((m.session i).handle_outcome p data s)
  known key hkey := by
    obtain ⟨cand, hcand⟩ := GoMap.lookup_of_mem hkey
    rcases Session.handle_candidates h.size_lt hcand with hold | hnew
    · exact h.known key (AList.lookup_isSome.mp (by rw [hold]; rfl))
    · obtain ⟨hexBody, hbody, hpayload⟩ := hnew.body
      rw [hreads.payload hexBody hbody, m.payloadHex_key] at hpayload
      exact (Option.some.inj hpayload).symm
  claims := by
    rcases (m.session i).handle_myAddr p data s with hsame | hnamed
    · rw [hsame]
      exact h.claims
    · exact hreads.address _ hnamed
  built cand hcand := by
    rcases Session.handle_candidates h.size_lt hcand with hold | hnew
    · exact h.built cand hold
    · obtain ⟨k, hk, hcp⟩ := hnew.built
      exact ⟨k, s.myAddr, p.draws, hk, h.claims, hcp⟩
  buffered body hbody := by
    rcases Session.handle_buffered hbody with hold | hnew
    · exact h.buffered body hold
    · exact hreads.confirmation body hnew

/-- The candidate for the other peer, as it was derived. -/
theorem Sound.process (h : m.Sound xs i s) (hcand : s.candidates.lookup (m.key i.other) = some cand) :
    (m.session i).process (m.key i.other) = .ok ⟨⟨cand.effectiveMyPoint, cand.point, cand.fingerprint,
      cand.isServer⟩, s.keys.read cand.confirmKey, s.keys.read cand.encKey⟩ :=
  (h.tables.holds hcand).yields

/-- The candidate for the other peer accepts the confirmation of the other peer. -/
theorem Sound.accept (h : m.Sound xs i s) (hcand : s.candidates.lookup (m.key i.other) = some cand)
    (hbuilt : m.Built i.other cp) : ∃ addr, m.Claims i.other addr ∧
      (m.session i).accept s.keys cand (hexEncode cp) = .ok addr := by
  obtain ⟨k', addr, draws, hk', hclaims, hcp⟩ := hbuilt
  rw [Side.other_other] at hk'
  have haccepted := confirm_accepted (h.process hcand) hk' hcp
  rw [hclaims.trim] at haccepted
  exact ⟨addr, hclaims, haccepted⟩

variable (m) in
/-- How a peer that is authenticated has ended: with the certificate, the role and an address of the other
one, and both have made their candidate. -/
structure Ended (xs : Side → Exchange) (i : Side) (addr fp : Bytes) (isServer : Bool) : Prop where
  fingerprint : fp = m.fingerprint i.other
  address : m.Claims i.other addr
  role : isServer = m.isServer i
  mine : ∃ cp, m.Confirms xs i cp
  peers : ∃ cp, m.Confirms xs i.other cp

theorem Sound.exit {exit : Exit} (h : m.Sound xs i s) (hreads : m.Reads xs i data)
    (hbuilt : ∀ cp, m.Confirms xs i.other cp → m.Built i.other cp)
    (hexit : ((m.session i).handle p data s).exit = some exit) :
    ∃ addr cand, exit = .authenticated addr (m.fingerprint i.other) (m.isServer i) ∧ m.Claims i.other addr ∧
      ((m.session i).handle p data s).state.candidates.lookup (m.key i.other) = some cand ∧
      ∃ cp, m.Confirms xs i.other cp := by
  have hsound : m.Sound xs i ((m.session i).handle p data s).state := h.handle hreads
  obtain ⟨key, cand, body, addr, hcand, haccept, hbody, rfl⟩ :=
    ((m.session i).handle_outcome p data s).exit hexit
  have hkey := hsound.known key (AList.lookup_isSome.mp (by rw [hcand]; rfl))
  subst hkey
  obtain ⟨cp, hcp, rfl⟩ : ∃ cp, m.Confirms xs i.other cp ∧ body = hexEncode cp := by
    rcases hbody with hbody | hbody
    · exact h.buffered body hbody
    · exact hreads.confirmation body hbody
  obtain ⟨addr', hclaims, haccept'⟩ := hsound.accept hcand (hbuilt cp hcp)
  obtain rfl : addr' = addr := Except.ok.inj (haccept'.symm.trans haccept)
  obtain ⟨hfp, hrole, _⟩ := process_inv (hsound.process hcand)
  refine ⟨addr', cand, ?_, hclaims, hcand, cp, hcp⟩
  rw [← hfp, ← hrole]

variable (m) in
/-- What a pass of a peer leaves. -/
structure Passed (xs : Side → Exchange) (i : Side) (s : Exchange) (t : Turn) : Prop where
  sound : m.Sound xs i t.state
  keeps : ∀ cand, s.candidates.lookup (m.key i.other) = some cand →
    t.state.candidates.lookup (m.key i.other) = some cand
  writes : ∀ line ∈ t.sent, (m.session i).Writes t.state line
  announces : ∀ cand, t.state.candidates.lookup (m.key i.other) = some cand →
    s.candidates.lookup (m.key i.other) = some cand ∨
      msgLine m.room (ascii "confirm") cand.confirmPayload ∈ t.sent
  waiting : (m.session i).Waiting s → t.exit = none → (m.session i).Waiting t.state
  ended : ∀ addr fp isServer, t.exit = some (.authenticated addr fp isServer) →
    fp = m.fingerprint i.other ∧ m.Claims i.other addr ∧ isServer = m.isServer i ∧
      (∃ cand, t.state.candidates.lookup (m.key i.other) = some cand) ∧ ∃ cp, m.Confirms xs i.other cp

theorem Sound.pass (h : m.Sound xs i s) (hreads : ∀ data, p.read = .datagram data → m.Reads xs i data)
    (hbuilt : ∀ cp, m.Confirms xs i.other cp → m.Built i.other cp) :
    m.Passed xs i s ((m.session i).pass p s) := by
  cases (m.session i).pass_cases p s with
  | idle hkept hexit hsent =>
      refine ⟨h.kept hkept, ?_, ?_, ?_, ?_, ?_⟩
      · rw [hkept.candidates]
        exact fun cand hcand => hcand
      · exact fun line hline => (hsent line hline).of_candidates hkept.candidates
      · rw [hkept.candidates]
        exact fun cand hcand => Or.inl hcand
      · exact fun hwaiting _ => hwaiting.kept hkept
      · exact fun addr fp isServer hended => absurd hended (hexit addr fp isServer)
  | @handles data s₁ hread hkept hstate hexit hsent =>
      have hsound := h.kept hkept
      have hdata := hreads data hread
      have hkeeps : ∀ cand, s.candidates.lookup (m.key i.other) = some cand →
          ((m.session i).handle p data s₁).state.candidates.lookup (m.key i.other) = some cand := by
        rw [← hkept.candidates]
        exact fun cand => Session.lookup_handle hsound.size_lt
      refine ⟨?_, ?_, ?_, ?_, ?_, ?_⟩
      · rw [hstate]
        exact hsound.handle hdata
      · rw [hstate]
        exact hkeeps
      · intro line hline
        rw [hstate]
        rcases (hsent line).mp hline with hline | hline
        · cases Session.send_writes hline with
          | reg c => exact .reg c
          | spake2 => exact .spake2
          | confirm hcand =>
              obtain rfl := h.known _ (AList.lookup_isSome.mp (by rw [hcand]; rfl))
              exact .confirm (hkeeps _ hcand)
        · exact Session.handle_writes hline
      · intro cand hcand
        rw [hstate] at hcand
        rcases Session.handle_candidates hsound.size_lt hcand with hold | hnew
        · rw [hkept.candidates] at hold
          exact Or.inl hold
        · exact Or.inr ((hsent _).mpr (Or.inr hnew.sent))
      · intro hwaiting hnone
        rw [hexit] at hnone
        rw [hstate]
        exact Session.handle_waiting (hwaiting.kept hkept) hsound.size_lt hnone
      · intro addr fp isServer hended
        rw [hexit] at hended
        obtain ⟨addr', cand, heq, hclaims, hcand, hpeers⟩ := hsound.exit hdata hbuilt hended
        cases heq
        rw [hstate]
        exact ⟨rfl, hclaims, rfl, ⟨cand, hcand⟩, hpeers⟩

/-! ### The whole meeting -/

variable (m) in
structure Inv (w : World) : Prop where
  wired : m.Wired w
  sound : ∀ i, m.Sound w.exchange i (w.exchange i)
  announced : ∀ i cp, m.Confirms w.exchange i cp → (i, msgLine m.room (ascii "confirm") cp) ∈ w.toRelay
  waiting : ∀ i, w.exit i = none → (m.session i).Waiting (w.exchange i)
  ended : ∀ i addr fp isServer, w.exit i = some (.authenticated addr fp isServer) →
    m.Ended w.exchange i addr fp isServer

theorem Inv.start (m : Meeting Pt) : m.Inv m.start where
  wired := .start m
  sound := .start m _
  announced i cp := fun ⟨cand, hcand, _⟩ => by cases hcand
  waiting i _ := .start _
  ended i addr fp isServer h := by cases h

theorem Inv.built (h : m.Inv w) (i : Side) (hcp : m.Confirms w.exchange i cp) : m.Built i cp := by
  obtain ⟨cand, hcand, rfl⟩ := hcp
  exact (h.sound i).built cand hcand

omit [DecidableEq Pt] in
theorem Says.mono (h : m.Says xs i line) (hmono : ∀ i cp, m.Confirms xs i cp → m.Confirms xs' i cp) :
    m.Says xs' i line := by
  cases h with
  | reg c => exact .reg c
  | spake2 => exact .spake2
  | confirm hcp => exact .confirm (hmono _ _ hcp)

omit [DecidableEq Pt] in
theorem Hears.mono (h : m.Hears xs i line) (hmono : ∀ i cp, m.Confirms xs i cp → m.Confirms xs' i cp) :
    m.Hears xs' i line := by
  cases h with
  | ok => exact .ok
  | challenge cookie => exact .challenge cookie
  | spake2 => exact .spake2
  | confirm hcp => exact .confirm (hmono _ _ hcp)

omit [DecidableEq Pt] in
theorem Ended.mono {fp : Bytes} {isServer : Bool} (h : m.Ended xs i addr fp isServer)
    (hmono : ∀ i cp, m.Confirms xs i cp → m.Confirms xs' i cp) : m.Ended xs' i addr fp isServer :=
  { h with
    mine := h.mine.imp (hmono i)
    peers := h.peers.imp (hmono i.other) }

section

variable {t : Turn}

omit [DecidableEq Pt] in
theorem confirms_after_self : m.Confirms (w.after i t).exchange i cp ↔
    ∃ cand, t.state.candidates.lookup (m.key i.other) = some cand ∧ cand.confirmPayload = cp := by
  rw [Confirms, World.exchange_after]

omit [DecidableEq Pt] in
theorem confirms_after_other {j : Side} (hj : j ≠ i) :
    m.Confirms (w.after i t).exchange j cp ↔ m.Confirms w.exchange j cp := by
  rw [Confirms, World.exchange_after_of_ne hj, Confirms]

theorem Passed.mono (hpassed : m.Passed w.exchange i (w.exchange i) t) (j : Side) (cp : Bytes)
    (h : m.Confirms w.exchange j cp) : m.Confirms (w.after i t).exchange j cp := by
  by_cases hj : j = i
  · subst hj
    obtain ⟨cand, hcand, hcp⟩ := h
    exact confirms_after_self.mpr ⟨cand, hpassed.keeps cand hcand, hcp⟩
  · exact (confirms_after_other hj).mpr h

theorem Passed.says (hpassed : m.Passed w.exchange i (w.exchange i) t) (hline : line ∈ t.sent) :
    m.Says (w.after i t).exchange i line := by
  cases hpassed.writes line hline with
  | reg c => exact .reg c
  | spake2 => exact .spake2
  | confirm hcand =>
      obtain rfl := hpassed.sound.known _ (AList.lookup_isSome.mp (by rw [hcand]; rfl))
      exact .confirm (confirms_after_self.mpr ⟨_, hcand, rfl⟩)

theorem Wired.after (h : m.Wired w) (hpassed : m.Passed w.exchange i (w.exchange i) t) :
    m.Wired (w.after i t) where
  routed := h.routed
  members := h.members
  said j line hline := by
    rcases List.mem_append.mp hline with hline | hline
    · exact (h.said j line hline).mono hpassed.mono
    · obtain ⟨_, hline, heq⟩ := List.mem_map.mp hline
      cases heq
      exact hpassed.says hline
  heard j line addr hline haddr := (h.heard j line addr hline haddr).mono hpassed.mono

theorem Inv.after (h : m.Inv w) (hpassed : m.Passed w.exchange i (w.exchange i) t)
    (hrunning : w.exit i = none) : m.Inv (w.after i t) where
  wired := h.wired.after hpassed
  sound j := by
    by_cases hj : j = i
    · subst hj
      rw [World.exchange_after]
      exact hpassed.sound.mono fun cp => hpassed.mono _ cp
    · rw [World.exchange_after_of_ne hj]
      exact (h.sound j).mono fun cp => hpassed.mono _ cp
  announced j cp hcp := by
    apply List.mem_append.mpr
    by_cases hj : j = i
    · subst hj
      obtain ⟨cand, hcand, rfl⟩ := confirms_after_self.mp hcp
      rcases hpassed.announces cand hcand with hold | hnew
      · exact Or.inl (h.announced j _ ⟨cand, hold, rfl⟩)
      · exact Or.inr (List.mem_map_of_mem hnew)
    · exact Or.inl (h.announced j cp ((confirms_after_other hj).mp hcp))
  waiting j hexit := by
    by_cases hj : j = i
    · subst hj
      rw [World.exit_after] at hexit
      rw [World.exchange_after]
      exact hpassed.waiting (h.waiting j hrunning) hexit
    · rw [World.exit_after_of_ne hj] at hexit
      rw [World.exchange_after_of_ne hj]
      exact h.waiting j hexit
  ended j addr fp isServer hexit := by
    by_cases hj : j = i
    · subst hj
      rw [World.exit_after] at hexit
      obtain ⟨hfp, haddr, hrole, ⟨cand, hcand⟩, cp, hcp⟩ := hpassed.ended addr fp isServer hexit
      exact ⟨hfp, haddr, hrole, ⟨_, confirms_after_self.mpr ⟨cand, hcand, rfl⟩⟩, cp, hpassed.mono _ cp hcp⟩
    · rw [World.exit_after_of_ne hj] at hexit
      exact (h.ended j addr fp isServer hexit).mono hpassed.mono

end

theorem Inv.reads (h : m.Inv w) (hmay : m.May w now (.pass i p)) (hdata : p.read = .datagram data) :
    m.Reads w.exchange i data := by
  have hoffers := hmay.2
  rw [hdata] at hoffers
  obtain ⟨⟨line, addr⟩, hmem, heq⟩ := List.any_eq_true.mp hoffers
  obtain ⟨rfl, haddr⟩ := of_decide_eq_true heq
  exact (h.wired.heard i line addr hmem haddr).reads fun cp => h.built i.other

/-- Everything that may happen keeps the meeting in order. -/
theorem Inv.step (h : m.Inv w) {e : Happening} (hmay : m.May w now e) : m.Inv (m.step w now e).1 := by
  have hrelay : ∀ {e : Event}, m.Wired (m.step w now (.relay e)).1 → m.Inv (m.step w now (.relay e)).1 :=
    fun hwired => ⟨hwired, h.sound, h.announced, h.waiting, h.ended⟩
  cases e with
  | pass i p =>
      exact h.after ((h.sound i).pass (fun data => h.reads hmay) fun cp => h.built i.other) hmay.1
  | relay e =>
      apply hrelay
      cases e with
      | packet data src rnd =>
          rcases hmay with ⟨i, rfl, hsaid⟩ | ⟨hsrc, hreg⟩
          · exact h.wired.own (fun cp => h.built i) hsaid
          · exact h.wired.foreign hsrc hreg
      | rateTick => exact h.wired.tick rfl
      | roomTick => exact h.wired.tick rfl

theorem inv_of_run {log : List (LogEntry Happening (Side × Exit))} (hrun : m.machine.Run m.May log w) : m.Inv w :=
  hrun.invariant (.start m) fun _ _ _ h hmay => h.step hmay

end Meeting

end Qvole.Engine
