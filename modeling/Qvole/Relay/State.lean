import Mathlib.Data.Finset.Basic
import Mathlib.Data.Finset.Card
import Qvole.Lib.GoMap
import Qvole.Lib.Machine
import Qvole.Lib.Net

/-!
# The tables of the relay

The relay keeps its rooms, its pre-cookie registrations and its rate limits in sharded maps, and
mirrors what they hold in counters. A sharded table is one map here, and `shardIdx` tells which keys
share a shard, which matters to the two places that look at a single shard: the sweep of the target
shard in a room creation and the entry cap of the rate-limit maps. The two-level map from rooms to
sources of the pending store is keyed by the pair; the source deletes an inner map that has become
empty, so both hold the same entries. A nil map is an empty one.

A method of `roomEntry` that also changes the package's counters takes and returns both. Loops over a
map run over its keys; what they compute does not depend on the order. The statistics counters and
the log lines are left out: no decision reads them.
-/

namespace Qvole.Relay

open Lib

def numShards : Nat := 16
def numRegShards : Nat := 16
def maxRoomNameLen : Nat := 64
def maxDatagramLen : Nat := 1400
def maxRegShardEntries : Nat := 100000
def pendingRegTTL : Int := 5000000000
def pendingCookieBytes : Nat := 16
def cmdPrefixLen : Nat := 4
def maxMSGBodyLen : Nat := 1024

/-- The tunables read from the environment, with their defaults. -/
structure Tunables where
  maxRooms : Nat := 10000
  maxRoomsPerIP : Nat := 10
  maxMsgRate : Nat := 10
  maxRegRate : Nat := 10
  rateWindow : Int := 1000000000
  regTTL : Int := 60000000000
  maxClientsHard : Nat := 20
  maxClientsPerPrefixPerRoom : Nat := 4
  maxPendingPerIP : Nat := 50
  maxPendingGlobal : Nat := 65536
  maxInRoomPending : Nat := 65536
  maxPendingPerRoom : Nat := 256

/-- `EnvInt` and `EnvDuration` keep the default when the environment has no positive value. -/
structure Config extends Tunables where
  caps_pos : ∀ cap ∈ [maxRooms, maxRoomsPerIP, maxMsgRate, maxRegRate, maxClientsHard,
    maxClientsPerPrefixPerRoom, maxPendingPerIP, maxPendingGlobal, maxInRoomPending,
    maxPendingPerRoom], 0 < cap := by decide
  durations_pos : 0 < rateWindow ∧ 0 < regTTL := by decide

/-- What an empty environment gives. -/
def Config.default : Config := {}

/-- Sixteen random bytes, as `rand.Read` fills them in. -/
abbrev Cookie := { b : Bytes // b.length = pendingCookieBytes }

structure RateLimiter where
  msgCount : Nat
  windowStart : Int
  deriving DecidableEq

structure UdpClient where
  lastSeen : Int
  rateLimiter : RateLimiter
  resolvedAddr : UDPAddr
  deriving DecidableEq

structure PendingReg where
  cookie : Cookie
  createdAt : Int
  resolvedAddr : UDPAddr
  deriving DecidableEq

/-- `nextPendingSweep` is `none` for the zero time, before which no clock stands. -/
structure RoomEntry where
  udpClients : GoMap Bytes UdpClient
  pending : GoMap Bytes PendingReg
  pendingByIP : GoMap Bytes Int
  t : Int
  nextPendingSweep : Option Int
  deriving DecidableEq

structure Counters where
  totalRoomCount : Int
  ipCounts : GoMap Bytes (Finset Bytes)
  pendingIPCounts : GoMap Bytes Int
  pendingTotal : Int
  inRoomPendingTotal : Int
  deriving DecidableEq

structure State where
  rooms : GoMap Bytes RoomEntry
  pendingRegs : GoMap (Bytes × Bytes) PendingReg
  regSent : GoMap Bytes Nat
  regTimes : GoMap Bytes Int
  counters : Counters
  deriving DecidableEq

/-- The relay as `init` leaves it. -/
def State.empty : State where
  rooms := ∅
  pendingRegs := ∅
  regSent := ∅
  regTimes := ∅
  counters := ⟨0, ∅, ∅, 0, 0⟩

/-- FNV-1a over 32 bits, reduced to a shard number. -/
def shardIdx (key : Bytes) (n : Nat) : Nat :=
  key.foldl (fun h b => (h ^^^ b.toNat) * 16777619 % 2 ^ 32) 2166136261 % n

/-- The prefix a source address is accounted to: an exact IPv4 or loopback address, else the `/64`. -/
def ipKey (src : Bytes) : Bytes :=
  match splitHostPort src with
  | none => src
  | some (host, _) =>
    match parseIP host with
    | some ip => if ip.to4.isSome || ip.isLoopback then ip.string else ip.mask64.string
    | none => host

def validRoomName (room : Bytes) : Bool :=
  room.length != 0 && room.length ≤ maxRoomNameLen && room.all isPrint

theorem validRoomName_iff {room : Bytes} :
    validRoomName room ↔ room ≠ [] ∧ room.length ≤ maxRoomNameLen ∧ ∀ b ∈ room, isPrint b := by
  simp [validRoomName, and_assoc, List.all_eq_true]

def isValidHex (s : Bytes) : Bool :=
  s.length != 0 && s.length % 2 == 0 && s.all fun c => (fromHexChar c).isSome

theorem isValidHex_iff {s : Bytes} :
    isValidHex s ↔ s ≠ [] ∧ s.length % 2 = 0 ∧ ∀ c ∈ s, (fromHexChar c).isSome := by
  simp [isValidHex, and_assoc, List.all_eq_true]

/-! ### Counters -/

namespace Counters

def addIPRoom (ip room : Bytes) (c : Counters) : Counters :=
  { c with ipCounts := c.ipCounts.insert ip (insert room ((c.ipCounts.lookup ip).getD ∅)) }

def removeIPRoom (ip room : Bytes) (c : Counters) : Counters :=
  match c.ipCounts.lookup ip with
  | none => c
  | some set =>
    if (set.erase room).card = 0 then { c with ipCounts := c.ipCounts.erase ip }
    else { c with ipCounts := c.ipCounts.insert ip (set.erase room) }

def countIPRooms (ip : Bytes) (c : Counters) : Nat := ((c.ipCounts.lookup ip).getD ∅).card

def addPendingIP (ip : Bytes) (delta : Int) (c : Counters) : Counters :=
  let n := (c.pendingIPCounts.lookup ip).getD 0 + delta
  { c with
    pendingIPCounts :=
      if 0 < n then c.pendingIPCounts.insert ip n else c.pendingIPCounts.erase ip
    pendingTotal := c.pendingTotal + delta }

def countPendingForIP (ip : Bytes) (c : Counters) : Int := (c.pendingIPCounts.lookup ip).getD 0

def globalPendingBudgetReached (cfg : Config) (c : Counters) : Bool :=
  (cfg.maxPendingGlobal : Int) ≤ c.pendingTotal

def inRoomPendingBudgetReached (cfg : Config) (c : Counters) : Bool :=
  (cfg.maxInRoomPending : Int) ≤ c.inRoomPendingTotal

def adjustInRoomPending (delta : Int) (c : Counters) : Counters :=
  { c with inRoomPendingTotal := max 0 (c.inRoomPendingTotal + delta) }

def addRooms (delta : Int) (c : Counters) : Counters :=
  { c with totalRoomCount := c.totalRoomCount + delta }

end Counters

/-! ### One room -/

namespace RoomEntry

def addPending (cfg : Config) (srcStr ip : Bytes) (p : PendingReg) (e : RoomEntry × Counters) :
    Option (RoomEntry × Counters) :=
  if srcStr ∈ e.1.pending then
    some ({ e.1 with pending := e.1.pending.insert srcStr p }, e.2)
  else if cfg.maxPendingPerRoom ≤ e.1.pending.size ∨ e.2.inRoomPendingBudgetReached cfg then none
  else
    some ({ e.1 with
        pending := e.1.pending.insert srcStr p
        pendingByIP := e.1.pendingByIP.insert ip ((e.1.pendingByIP.lookup ip).getD 0 + 1) },
      e.2.adjustInRoomPending 1)

def removePending (e : RoomEntry × Counters) (srcStr : Bytes) : RoomEntry × Counters :=
  if srcStr ∈ e.1.pending then
    let ip := ipKey srcStr
    let n := (e.1.pendingByIP.lookup ip).getD 0
    ({ e.1 with
        pending := e.1.pending.erase srcStr
        pendingByIP :=
          if n ≤ 1 then e.1.pendingByIP.erase ip else e.1.pendingByIP.insert ip (n - 1) },
      e.2.adjustInRoomPending (-1))
  else e

def removeAllPending (e : RoomEntry × Counters) : RoomEntry × Counters :=
  ({ e.1 with pending := ∅, pendingByIP := ∅ },
    if 0 < e.1.pending.size then e.2.adjustInRoomPending (-e.1.pending.size) else e.2)

def pendingCountForIP (ip : Bytes) (e : RoomEntry) : Int := (e.pendingByIP.lookup ip).getD 0

def countPrefixClients (pre : Bytes) (e : RoomEntry) : Nat :=
  e.udpClients.count fun addr => ipKey addr = pre

/-- Another admitted client of the prefix `ip` than `addr` itself. -/
def otherClientOf (ip addr : Bytes) (e : RoomEntry) : Bool :=
  e.udpClients.keys.any fun other => other ≠ addr ∧ ipKey other = ip

/-- The body of the loop in `removeStaleClients`. -/
def removeStaleClient (cfg : Config) (room : Bytes) (now : Int) (e : RoomEntry × Counters)
    (addr : Bytes) : RoomEntry × Counters :=
  match e.1.udpClients.lookup addr with
  | none => e
  | some info =>
    if cfg.regTTL < now - info.lastSeen then
      ({ e.1 with udpClients := e.1.udpClients.erase addr },
        if e.1.otherClientOf (ipKey addr) addr then e.2 else e.2.removeIPRoom (ipKey addr) room)
    else e

def removeStaleClients (cfg : Config) (room : Bytes) (now : Int) (e : RoomEntry × Counters) :
    RoomEntry × Counters :=
  e.1.udpClients.keys.foldl (removeStaleClient cfg room now) e

/-- The body of the loop in `removeStalePending`. -/
def removeExpiredPending (now : Int) (e : RoomEntry × Counters) (addr : Bytes) :
    RoomEntry × Counters :=
  match e.1.pending.lookup addr with
  | none => e
  | some pend => if pendingRegTTL < now - pend.createdAt then removePending e addr else e

def removeStalePending (now : Int) (e : RoomEntry × Counters) : RoomEntry × Counters :=
  let swept := e.1.pending.keys.foldl (removeExpiredPending now) e
  ({ swept.1 with nextPendingSweep := some (now + pendingRegTTL) }, swept.2)

def pendingSweepDue (now : Int) (e : RoomEntry) : Bool :=
  match e.nextPendingSweep with
  | none => true
  | some next => next ≤ now

def sweep (cfg : Config) (room : Bytes) (now : Int) (e : RoomEntry × Counters) :
    RoomEntry × Counters :=
  let swept := removeStaleClients cfg room now e
  if swept.1.pendingSweepDue now then removeStalePending now swept else swept

end RoomEntry

/-! ### All rooms, the pending store and the rate limit -/

namespace State

/-- Put a room and the counters it was changed with back in place. -/
def setRoom (room : Bytes) (e : RoomEntry × Counters) (s : State) : State :=
  { s with rooms := s.rooms.insert room e.1, counters := e.2 }

def totalRooms (s : State) : Int := s.counters.totalRoomCount

/-- The body of the loop in `evictStaleRooms`. -/
def evictStaleRoom (cfg : Config) (now : Int) (s : State) (room : Bytes) : State :=
  match s.rooms.lookup room with
  | none => s
  | some entry =>
    let e := RoomEntry.removeStalePending now
      (RoomEntry.removeStaleClients cfg room now (entry, s.counters))
    if e.1.udpClients.size = 0 ∧ cfg.regTTL < now - e.1.t then
      { s with
        rooms := s.rooms.erase room
        counters := (RoomEntry.removeAllPending e).2.addRooms (-1) }
    else s.setRoom room e

def evictStaleRooms (cfg : Config) (now : Int) (shard : Nat) (s : State) : State :=
  (s.rooms.keys.filter fun room => shardIdx room numShards = shard).foldl (evictStaleRoom cfg now) s

def evictStaleRoomsAll (cfg : Config) (now : Int) (s : State) : State :=
  (List.range numShards).foldl (fun s shard => evictStaleRooms cfg now shard s) s

def getPendingReg (room srcStr : Bytes) (s : State) : Option PendingReg :=
  s.pendingRegs.lookup (room, srcStr)

/-- `none` when the store is full. -/
def storePendingReg (cfg : Config) (room srcStr : Bytes) (p : PendingReg) (s : State) :
    Option State :=
  if (room, srcStr) ∈ s.pendingRegs then
    some { s with pendingRegs := s.pendingRegs.insert (room, srcStr) p }
  else if s.counters.globalPendingBudgetReached cfg then none
  else
    some { s with
      pendingRegs := s.pendingRegs.insert (room, srcStr) p
      counters := s.counters.addPendingIP (ipKey srcStr) 1 }

def deletePendingReg (room srcStr : Bytes) (s : State) : State :=
  if (room, srcStr) ∈ s.pendingRegs then
    { s with
      pendingRegs := s.pendingRegs.erase (room, srcStr)
      counters := s.counters.addPendingIP (ipKey srcStr) (-1) }
  else s

def pendingExpired (now : Int) (key : Bytes × Bytes) (s : State) : Bool :=
  match s.pendingRegs.lookup key with
  | none => false
  | some p => pendingRegTTL < now - p.createdAt

/-- One shard of `removeStalePendingRegs`: the expired entries go, then each prefix gives back as
many as it lost. -/
def removeStaleShard (now : Int) (s : State) (shard : Nat) : State :=
  let stale := s.pendingRegs.keys.filter fun key =>
    shardIdx key.1 numShards = shard ∧ s.pendingExpired now key
  let removed : GoMap Bytes Int := stale.foldl
    (fun m key => m.insert (ipKey key.2) ((m.lookup (ipKey key.2)).getD 0 + 1)) ∅
  { s with
    pendingRegs := stale.foldl (fun m key => m.erase key) s.pendingRegs
    counters := removed.entries.foldl (fun c x => c.addPendingIP x.1 (-x.2)) s.counters }

def removeStalePendingRegs (now : Int) (s : State) : State :=
  (List.range numShards).foldl (removeStaleShard now) s

/-- How many entries the rate-limit shard of a source has. -/
def regShardSize (src : Bytes) (s : State) : Nat :=
  s.regTimes.count fun k => shardIdx k numRegShards = shardIdx src numRegShards

def isRegRateLimited (cfg : Config) (now : Int) (src : Bytes) (s : State) : Bool × State :=
  let fresh : State :=
    { s with regSent := s.regSent.insert src 1, regTimes := s.regTimes.insert src now }
  match s.regTimes.lookup src with
  | none => if maxRegShardEntries ≤ s.regShardSize src then (true, s) else (false, fresh)
  | some reset =>
    if cfg.rateWindow < now - reset then (false, fresh)
    else if cfg.maxRegRate ≤ (s.regSent.lookup src).getD 0 then (true, s)
    else (false, { s with regSent := s.regSent.insert src ((s.regSent.lookup src).getD 0 + 1) })

/-- The rate-map tick of `cleanupRegs`. -/
def cleanupRateMaps (cfg : Config) (now : Int) (s : State) : State :=
  s.regTimes.keys.foldl (fun acc src =>
    match acc.regTimes.lookup src with
    | none => acc
    | some reset =>
      if cfg.rateWindow * 2 < now - reset then
        { acc with regSent := acc.regSent.erase src, regTimes := acc.regTimes.erase src }
      else acc) s

/-- The room tick of `cleanupRegs`. -/
def cleanupRooms (cfg : Config) (now : Int) (s : State) : State :=
  removeStalePendingRegs now (evictStaleRoomsAll cfg now s)

end State

end Qvole.Relay
