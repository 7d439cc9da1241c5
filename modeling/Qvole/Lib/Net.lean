import Mathlib.Algebra.Group.Nat.Defs
import Qvole.Lib.Bytes

/-!
# Network addresses as text

What the packages `net` and `net/netip` do to addresses: an IP address is four or sixteen bytes, a
host and a port are joined into one text and split from it again, and a UDP address prints as such a
text. The functions follow the packages' documentation; the error values, which no caller looks into,
are `none`.
-/

namespace Lib

/-- `net.IP`: the raw bytes, four of them or sixteen. -/
abbrev IP := Bytes

def v4InV6Prefix : Bytes := [0, 0, 0, 0, 0, 0, 0, 0, 0, 0, 0xff, 0xff]

def IP.to4 (ip : IP) : Option Bytes :=
  if ip.length = 4 then some ip
  else if ip.length = 16 ∧ ip.take 12 = v4InV6Prefix then some (ip.drop 12)
  else none

/-- `IP.Equal`: an IPv4 address equals its IPv4-mapped form. -/
def IP.equal (ip x : IP) : Bool :=
  if ip.length = x.length then ip == x
  else if ip.length = 4 ∧ x.length = 16 then x.take 12 == v4InV6Prefix && ip == x.drop 12
  else if ip.length = 16 ∧ x.length = 4 then ip.take 12 == v4InV6Prefix && ip.drop 12 == x
  else false

def ipv6Loopback : IP := List.replicate 15 0 ++ [1]

def IP.isLoopback (ip : IP) : Bool :=
  match ip.to4 with
  | some ip4 => ip4.head? == some 127
  | none => ip.equal ipv6Loopback

def IP.isUnspecified (ip : IP) : Bool := ip.equal [0, 0, 0, 0] || ip.equal (List.replicate 16 0)

def IP.isMulticast (ip : IP) : Bool :=
  match ip.to4 with
  | some ip4 => ip4.head?.any fun b => b &&& 0xf0 == 0xe0
  | none => ip.length == 16 && ip.head? == some 0xff

def ipv4bcast : IP := v4InV6Prefix ++ [255, 255, 255, 255]

/-- `ip.Mask(net.CIDRMask(64, 128))` of a sixteen-byte address. -/
def IP.mask64 (ip : IP) : IP := ip.take 8 ++ List.replicate (ip.length - 8) 0

/-! ### Numbers -/

def digits (b n : Nat) : Bytes := (Nat.toDigits b n).map fun c => UInt8.ofNat c.toNat

def itoa (n : Nat) : Bytes := digits 10 n

def isDigit (c : UInt8) : Bool := 48 ≤ c && c ≤ 57

def decimal (s : Bytes) : Nat := s.foldl (fun n c => n * 10 + (c.toNat - 48)) 0

/-- `strconv.Atoi`, as far as its value is at most `2^63 - 1` in magnitude: an optional sign and at
least one digit. -/
def atoi (s : Bytes) : Option Int :=
  let unsigned (d : Bytes) : Option Nat :=
    if d ≠ [] ∧ d.all isDigit ∧ decimal d < 2 ^ 63 then some (decimal d) else none
  match s with
  | [] => none
  | c :: d =>
    if c = 43 then (unsigned d).map Int.ofNat
    else if c = 45 then (unsigned d).map fun n => -Int.ofNat n
    else (unsigned s).map Int.ofNat

/-! ### IP addresses -/

def groups : Bytes → List Nat
  | a :: b :: s => (a.toNat * 256 + b.toNat) :: groups s
  | _ => []

/-- The first of the longest runs of at least two zero groups, as its bounds. `i` is the index of
the group the list starts with and `best` the longest run seen before it. -/
def zeroRun (i : Nat) (best : Option (Nat × Nat)) : List Nat → Option (Nat × Nat)
  | [] => best
  | g :: gs =>
    let len := ((g :: gs).takeWhile (· = 0)).length
    let longest := match best with
      | none => 0
      | some (lo, hi) => hi - lo
    zeroRun (i + 1) (if 2 ≤ len ∧ longest < len then some (i, i + len) else best) gs

def joinWith (sep : UInt8) (parts : List Bytes) : Bytes := [sep].intercalate parts

def IP.string (ip : IP) : Bytes :=
  match ip.to4 with
  | some ip4 => joinWith 46 (ip4.map fun b => itoa b.toNat)
  | none =>
    if ip = [] then ascii "<nil>"
    else if ip.length ≠ 16 then 63 :: hexEncode ip
    else
      let gs := groups ip
      match zeroRun 0 none gs with
      | none => joinWith 58 (gs.map (digits 16))
      | some (lo, hi) =>
        joinWith 58 ((gs.take lo).map (digits 16)) ++ [58, 58] ++
          joinWith 58 ((gs.drop hi).map (digits 16))

/-- One field of a dotted address: digits without a leading zero, at most 255. -/
def parseOctet (s : Bytes) : Option UInt8 :=
  if s ≠ [] ∧ s.all isDigit ∧ (s.head? = some 48 → s.length = 1) ∧ s.length ≤ 3 ∧ decimal s ≤ 255 then
    some (UInt8.ofNat (decimal s))
  else none

def parseIPv4 (s : Bytes) : Option Bytes :=
  match splitN 46 5 s with
  | [a, b, c, d] => do return [← parseOctet a, ← parseOctet b, ← parseOctet c, ← parseOctet d]
  | _ => none

/-- The groups of an IPv6 text, at most `fuel` more of them. `acc` holds the bytes read so far and
`ellipsis` where among them `::` stood. -/
def parseGroups : Nat → Bytes → Bytes → Option Nat → Option (Bytes × Option Nat)
  | 0, s, acc, ellipsis => if s = [] then some (acc, ellipsis) else none
  | fuel + 1, s, acc, ellipsis =>
    let hex := s.takeWhile fun c => (fromHexChar c).isSome
    let rest := s.dropWhile fun c => (fromHexChar c).isSome
    if hex = [] ∨ 4 < hex.length then none
    else if rest.head? = some 46 then
      -- an embedded IPv4 address takes the place of the last two groups
      if (ellipsis = none ∧ acc.length ≠ 12) ∨ 16 < acc.length + 4 then none
      else (parseIPv4 s).map fun v4 => (acc ++ v4, ellipsis)
    else
      let value := hex.foldl (fun n c => n * 16 + (fromHexChar c).getD 0) 0
      let acc := acc ++ [UInt8.ofNat (value / 256), UInt8.ofNat (value % 256)]
      match rest with
      | [] => some (acc, ellipsis)
      | [_] => none
      | c :: d :: more =>
        if c ≠ 58 then none
        else if d ≠ 58 then parseGroups fuel (d :: more) acc ellipsis
        else if ellipsis.isSome then none
        else if more = [] then some (acc, some acc.length)
        else parseGroups fuel more acc (some acc.length)

def expandEllipsis : Bytes × Option Nat → Option IP
  | (acc, none) => if acc.length = 16 then some acc else none
  | (acc, some at') =>
    if acc.length < 16 then
      some (acc.take at' ++ List.replicate (16 - acc.length) 0 ++ acc.drop at')
    else none

def parseIPv6 (s : Bytes) : Option IP :=
  if s.take 2 = [58, 58] then
    if s.length = 2 then some (List.replicate 16 0)
    else (parseGroups 8 (s.drop 2) [] (some 0)).bind expandEllipsis
  else (parseGroups 8 s [] none).bind expandEllipsis

/-- `net.ParseIP`: the sixteen-byte form of an address text without a zone. The first dot, colon or
percent sign tells the families apart. -/
def parseIP (s : Bytes) : Option IP :=
  match s.find? fun c => c == 46 || c == 58 || c == 37 with
  | some c =>
    if c = 46 then (parseIPv4 s).map (v4InV6Prefix ++ ·)
    else if c = 58 ∧ 37 ∉ s then parseIPv6 s
    else none
  | none => none

/-! ### Host and port -/

def cutLast (sep : UInt8) (s : Bytes) : Option (Bytes × Bytes) :=
  match cut sep s.reverse with
  | (_, none) => none
  | (port, some host) => some (host.reverse, port.reverse)

def joinHostPort (host port : Bytes) : Bytes :=
  if 58 ∈ host then 91 :: host ++ 93 :: 58 :: port else host ++ 58 :: port

def splitHostPort (hostport : Bytes) : Option (Bytes × Bytes) :=
  match cutLast 58 hostport with
  | none => none
  | some (host, port) =>
    if hostport.head? = some 91 then
      match cut 93 hostport.tail with
      | (_, none) => none
      | (inner, some after) =>
        -- the first closing bracket stands right before the last colon
        if after = 58 :: port ∧ 91 ∉ hostport.tail ∧ 93 ∉ after then some (inner, port) else none
    else if 58 ∈ host ∨ 91 ∈ hostport ∨ 93 ∈ hostport then none
    else some (host, port)

/-- `netip.ParseAddr`: four bytes for a dotted text and sixteen for another one, which may carry a zone. -/
def parseNetipAddr (s : Bytes) : Option (IP × Bytes) :=
  match s.find? fun c => c == 46 || c == 58 || c == 37 with
  | some c =>
    if c = 46 then (parseIPv4 s).map (·, [])
    else if c = 58 then
      match cut 37 s with
      | (addr, none) => (parseIPv6 addr).map (·, [])
      | (addr, some zone) => if zone = [] then none else (parseIPv6 addr).map (·, zone)
    else none
  | none => none

/-- `netip.ParseAddrPort`: brackets stand around an IPv6 address and around no other. -/
def parseAddrPort (s : Bytes) : Option ((IP × Bytes) × Nat) :=
  match cutLast 58 s with
  | none => none
  | some (host, port) =>
    if host = [] ∨ port = [] then none
    else if host.head? = some 91 ∧ (host.length < 2 ∨ host.getLast? ≠ some 93) then none
    else if ¬ port.all isDigit ∨ 65535 < decimal port then none
    else
      match parseNetipAddr (if host.head? = some 91 then host.tail.dropLast else host) with
      | none => none
      | some addr =>
        if host.head? = some 91 ↔ addr.1.length = 16 then some (addr, decimal port) else none

structure UDPAddr where
  ip : IP
  port : Nat
  zone : Bytes
  deriving DecidableEq, Repr

def UDPAddr.string (a : UDPAddr) : Bytes :=
  let host := if a.ip = [] then [] else a.ip.string
  joinHostPort (if a.zone = [] then host else host ++ 37 :: a.zone) (itoa a.port)

end Lib
