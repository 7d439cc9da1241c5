import Qvole.Relay.State

/-!
# The datagram handlers of the relay

`handlePacket` takes a datagram apart and hands it to `handleReg` or `handleMsg`. A handler returns
the state it leaves and what it put out: the datagrams given to `writeRelay`, in order, and the reason
of a drop. The clock is read once per datagram, and `rnd` is what `rand.Read` would deliver if the
handler asked for a cookie, `none` standing for its failure.

`handleReg` is one function in the source. Its branches are named here after the way a registration
takes: `completePending` finds the source in the pending store and goes on in `createRoom` or
`joinRoom`, `admitInRoom` checks the cookie against the room's own pending map, `challengeNewRoom` is
the block the source has twice, and `regInRoom` serves a `REG` without a cookie.
-/

namespace Qvole.Relay

open Lib

/-- One constructor for each call of `dropPacket`. -/
inductive Drop
  | oversized
  | unknownType
  | emptyRoom
  | invalidRoom
  | rateLimitedReg
  | invalidCookie
  | invalidCookieHex
  | mismatchedCookieStore
  | expiredCookieStore
  | maxRoomsReached
  | roomLimitPerIP
  | hardCap
  | prefixLimit
  | pendingLimitPerIP
  | pendingStoreFull
  | mismatchedCookie
  | expiredCookie
  | malformedMsg
  | unknownPhase
  | invalidBody
  | unknownRoom
  | unregisteredClient
  | rateLimitedMsg
  deriving DecidableEq

inductive Out
  | write (msg : Bytes) (addr : UDPAddr)
  | drop (why : Drop)
  | randFailed
  deriving DecidableEq

def regdOK (room : Bytes) (src : UDPAddr) : Bytes :=
  ascii "REGD " ++ room ++ ascii " OK " ++ src.string ++ [10]

def regdChallenge (room : Bytes) (cookie : Cookie) : Bytes :=
  ascii "REGD " ++ room ++ [32] ++ hexEncode cookie.val ++ [10]

def sendREGD (room : Bytes) (src : UDPAddr) : List Out := [.write (regdOK room src) src]

def sendRegChallenge (room : Bytes) (cookie : Cookie) (src : UDPAddr) : List Out :=
  [.write (regdChallenge room cookie) src]

def newClient (now : Int) (addr : UDPAddr) : UdpClient := ⟨now, ⟨0, now⟩, addr⟩

variable (cfg : Config) (now : Int)

/-- Store a pending registration for a room that does not exist and challenge the source. -/
def challengeNewRoom (rnd : Option Cookie) (room : Bytes) (src : UDPAddr) (s : State) :
    State × List Out :=
  let srcIP := ipKey src.string
  if cfg.maxRoomsPerIP ≤ s.counters.countIPRooms srcIP then (s, [.drop .roomLimitPerIP])
  else if cfg.maxPendingPerIP ≤ s.counters.countPendingForIP srcIP then
    (s, [.drop .pendingLimitPerIP])
  else
    match rnd with
    | none => (s, [.randFailed])
    | some cb =>
      match s.storePendingReg cfg room src.string ⟨cb, now, src⟩ with
      | none => (s, [.drop .pendingStoreFull])
      | some s' => (s', sendRegChallenge room cb src)

/-- A completed cookie for a room that does not exist yet. -/
def createRoom (room : Bytes) (src : UDPAddr) (pend : PendingReg) (s : State) : State × List Out :=
  let srcIP := ipKey src.string
  let s := if cfg.maxRooms ≤ s.totalRooms then s.evictStaleRooms cfg now (shardIdx room numShards)
    else s
  if cfg.maxRooms ≤ s.totalRooms then (s, [.drop .maxRoomsReached])
  else if cfg.maxRoomsPerIP ≤ s.counters.countIPRooms srcIP then (s, [.drop .roomLimitPerIP])
  else
    let entry : RoomEntry :=
      { udpClients := AList.singleton src.string (newClient now pend.resolvedAddr)
        pending := ∅
        pendingByIP := ∅
        t := now
        nextPendingSweep := none }
    (s.setRoom room (entry, (s.counters.addRooms 1).addIPRoom srcIP room), sendREGD room src)

/-- A cookie completed from the pending store for a room that exists by now. -/
def joinRoom (room : Bytes) (src : UDPAddr) (pend : PendingReg) (entry : RoomEntry) (s : State) :
    State × List Out :=
  let srcStr := src.string
  let srcIP := ipKey srcStr
  let e := RoomEntry.sweep cfg room now (entry, s.counters)
  let ipAlreadyInRoom := e.1.udpClients.keys.any fun addr => ipKey addr = srcIP
  if cfg.maxClientsHard ≤ e.1.udpClients.size ∧ srcStr ∉ e.1.udpClients then
    (s.setRoom room e, [.drop .hardCap])
  else if srcStr ∉ e.1.udpClients ∧
      cfg.maxClientsPerPrefixPerRoom ≤ e.1.countPrefixClients srcIP then
    (s.setRoom room e, [.drop .prefixLimit])
  else if ¬ ipAlreadyInRoom ∧ cfg.maxRoomsPerIP ≤ e.2.countIPRooms srcIP then
    (s.setRoom room e, [.drop .roomLimitPerIP])
  else
    (s.setRoom room
      ({ e.1 with
          udpClients := e.1.udpClients.insert srcStr (newClient now pend.resolvedAddr)
          t := now },
        if ipAlreadyInRoom then e.2 else e.2.addIPRoom srcIP room),
      sendREGD room src)

/-- A `REG` with a cookie whose source has an entry in the pending store. -/
def completePending (room : Bytes) (cookieBytes : Bytes) (src : UDPAddr) (pend : PendingReg)
    (s : State) : State × List Out :=
  if pend.cookie.val ≠ cookieBytes then (s, [.drop .mismatchedCookieStore])
  else if pendingRegTTL < now - pend.createdAt then
    (s.deletePendingReg room src.string, [.drop .expiredCookieStore])
  else
    let s := s.deletePendingReg room src.string
    let s := if cfg.maxRooms ≤ s.totalRooms then s.evictStaleRoomsAll cfg now else s
    match s.rooms.lookup room with
    | none => createRoom cfg now room src pend s
    | some entry => joinRoom cfg now room src pend entry s

/-- A `REG` with a cookie, checked against the pending map of the room itself. -/
def admitInRoom (room : Bytes) (cookieBytes : Bytes) (src : UDPAddr) (entry : RoomEntry)
    (s : State) : State × List Out :=
  let srcStr := src.string
  let srcIP := ipKey srcStr
  match entry.pending.lookup srcStr with
  | none => (s, [.drop .mismatchedCookie])
  | some pend =>
    if pend.cookie.val ≠ cookieBytes then (s, [.drop .mismatchedCookie])
    else if pendingRegTTL < now - pend.createdAt then
      (s.setRoom room (RoomEntry.removePending (entry, s.counters) srcStr),
        [.drop .expiredCookie])
    else
      let e := RoomEntry.sweep cfg room now (entry, s.counters)
      if cfg.maxClientsHard ≤ e.1.udpClients.size ∧ srcStr ∉ e.1.udpClients then
        (s.setRoom room e, [.drop .hardCap])
      else if srcStr ∉ e.1.udpClients ∧
          ¬ (e.1.udpClients.keys.any fun addr => ipKey addr = srcIP) ∧
          cfg.maxRoomsPerIP ≤ e.2.countIPRooms srcIP then
        (s.setRoom room e, [.drop .roomLimitPerIP])
      else
        let e := RoomEntry.removePending e srcStr
        let wasReReg := srcStr ∈ e.1.udpClients
        let admitted : RoomEntry :=
          { e.1 with
            udpClients := e.1.udpClients.insert srcStr (newClient now pend.resolvedAddr)
            t := now }
        (s.setRoom room (admitted,
            if wasReReg ∨ admitted.otherClientOf srcIP srcStr then e.2
            else e.2.addIPRoom srcIP room),
          sendREGD room src)

/-- A `REG` without a cookie for a room that exists. -/
def regInRoom (rnd : Option Cookie) (room : Bytes) (src : UDPAddr) (entry : RoomEntry)
    (s : State) : State × List Out :=
  let srcStr := src.string
  let srcIP := ipKey srcStr
  let e := RoomEntry.sweep cfg room now (entry, s.counters)
  if cfg.maxClientsHard ≤ e.1.udpClients.size ∧ srcStr ∉ e.1.udpClients then
    (s.setRoom room e, [.drop .hardCap])
  else
    match e.1.udpClients.lookup srcStr with
    | some client =>
      let refreshed := { client with lastSeen := now, resolvedAddr := src }
      (s.setRoom room
        ({ e.1 with udpClients := e.1.udpClients.insert srcStr refreshed }, e.2),
        sendREGD room src)
    | none =>
      if cfg.maxClientsPerPrefixPerRoom ≤ e.1.countPrefixClients srcIP then
        (s.setRoom room e, [.drop .prefixLimit])
      else
        match e.1.pending.lookup srcStr with
        | some pend =>
          let renewed := { pend with createdAt := now, resolvedAddr := src }
          (s.setRoom room ({ e.1 with pending := e.1.pending.insert srcStr renewed }, e.2),
            sendRegChallenge room pend.cookie src)
        | none =>
          if cfg.maxPendingPerIP ≤ e.2.countPendingForIP srcIP + e.1.pendingCountForIP srcIP then
            (s.setRoom room e, [.drop .pendingLimitPerIP])
          else
            match rnd with
            | none => (s.setRoom room e, [.randFailed])
            | some cb =>
              match RoomEntry.addPending cfg srcStr srcIP ⟨cb, now, src⟩ e with
              | none => (s.setRoom room e, [.drop .pendingStoreFull])
              | some e' => (s.setRoom room e', sendRegChallenge room cb src)

/-- `handleReg` behind the rate limit. -/
def handleRegUnlimited (rnd : Option Cookie) (room cookie : Bytes) (src : UDPAddr) (s : State) :
    State × List Out :=
  if 0 < cookie.length then
    if ¬ isValidHex cookie ∨ cookie.length ≠ pendingCookieBytes * 2 then
      (s, [.drop .invalidCookie])
    else
      match hexDecode cookie with
      | none => (s, [.drop .invalidCookieHex])
      | some cookieBytes =>
        match s.getPendingReg room src.string with
        | some pend => completePending cfg now room cookieBytes src pend s
        | none =>
          match s.rooms.lookup room with
          | none => challengeNewRoom cfg now rnd room src s
          | some entry => admitInRoom cfg now room cookieBytes src entry s
  else
    match s.rooms.lookup room with
    | none => challengeNewRoom cfg now rnd room src s
    | some entry => regInRoom cfg now rnd room src entry s

def handleReg (rnd : Option Cookie) (room cookie : Bytes) (src : UDPAddr) (s : State) :
    State × List Out :=
  match s.isRegRateLimited cfg now (ipKey src.string) with
  | (true, s) => (s, [.drop .rateLimitedReg])
  | (false, s) => handleRegUnlimited cfg now rnd room cookie src s

def RateLimiter.isLimited (r : RateLimiter) : Bool × RateLimiter :=
  let r := if cfg.rateWindow < now - r.windowStart then ⟨0, now⟩ else r
  if cfg.maxMsgRate ≤ r.msgCount then (true, r) else (false, { r with msgCount := r.msgCount + 1 })

def msgdLine (phase body : Bytes) : Bytes := ascii "MSGD " ++ phase ++ [32] ++ body ++ [10]

/-- `handleMsg` behind its syntax checks. -/
def forwardMsg (room phase body : Bytes) (src : UDPAddr) (s : State) : State × List Out :=
  let srcStr := src.string
  match s.rooms.lookup room with
  | none => (s, [.drop .unknownRoom])
  | some entry =>
    match entry.udpClients.lookup srcStr with
    | none => (s, [.drop .unregisteredClient])
    | some info =>
      let limit := info.rateLimiter.isLimited cfg now
      let counted := { info with rateLimiter := limit.2 }
      let s' := s.setRoom room
        ({ entry with udpClients := entry.udpClients.insert srcStr counted }, s.counters)
      if limit.1 then (s', [.drop .rateLimitedMsg])
      else
        let targets := entry.udpClients.entries.filter fun c => c.1 ≠ srcStr
        (s', targets.map fun c => .write (msgdLine phase body) c.2.resolvedAddr)

def handleMsg (payload : Bytes) (src : UDPAddr) (s : State) : State × List Out :=
  match splitN 32 3 payload with
  | [room, phase, body] =>
    if phase ≠ ascii "spake2" ∧ phase ≠ ascii "confirm" then (s, [.drop .unknownPhase])
    else if ¬ validRoomName room then (s, [.drop .invalidRoom])
    else if ¬ isValidHex body ∨ maxMSGBodyLen < body.length then (s, [.drop .invalidBody])
    else forwardMsg cfg now room phase body src s
  | _ => (s, [.drop .malformedMsg])

/-- The room and the cookie of a `REG`, the cookie empty when there is none. -/
def regFields (rest : Bytes) : Bytes × Bytes :=
  match splitN 32 2 (trimSpace rest) with
  | [room, cookie] => (room, trimSpace cookie)
  | parts => (parts.headD [], [])

def handlePacket (rnd : Option Cookie) (data : Bytes) (src : UDPAddr) (s : State) :
    State × List Out :=
  if data.length = 0 ∨ maxDatagramLen < data.length then (s, [.drop .oversized])
  else
    let trimmed := trimSpace data
    if trimmed.take cmdPrefixLen = ascii "REG " then
      let fields := regFields (trimmed.drop cmdPrefixLen)
      if fields.1.length = 0 then (s, [.drop .emptyRoom])
      else if ¬ validRoomName fields.1 then (s, [.drop .invalidRoom])
      else handleReg cfg now rnd fields.1 fields.2 src s
    else if trimmed.take cmdPrefixLen = ascii "MSG " then
      handleMsg cfg now (trimmed.drop cmdPrefixLen) src s
    else (s, [.drop .unknownType])

/-- What the relay reacts to: a datagram, or one of the two tickers of `cleanupRegs`. -/
inductive Event
  | packet (data : Bytes) (src : UDPAddr) (rnd : Option Cookie)
  | rateTick
  | roomTick

def step (s : State) : Event → State × List Out
  | .packet data src rnd => handlePacket cfg now rnd data src s
  | .rateTick => (s.cleanupRateMaps cfg now, [])
  | .roomTick => (s.cleanupRooms cfg now, [])

def machine : Machine State Event Out where
  init := .empty
  step s now e := step cfg now s e

end Qvole.Relay
