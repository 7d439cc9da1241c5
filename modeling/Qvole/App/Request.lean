import Qvole.App.Allow
import Qvole.Lib.Fallible
import Qvole.Lib.Scanner

/-!
# Tunnel requests

A `-L` or `-R` specification is split at the colons outside of brackets and becomes a request: a listen
address and a target address. Requests travel over the control stream as lines, between a line that
says whether the sender accepts any request itself and a line `END`.

The writer puts the addresses into the line as they are. The reader cuts the line at its first two
spaces and keeps the printable bytes of what it takes for addresses.
-/

namespace Qvole.App

open Lib

def scannerMaxTokenSize : Nat := 4096
def maxTunnelRequests : Nat := 100

inductive TunnelType
  | L
  | R
  deriving DecidableEq

theorem TunnelType.ne_R_iff {t : TunnelType} : t ≠ .R ↔ t = .L := by
  cases t <;> simp

theorem TunnelType.ne_L_iff {t : TunnelType} : t ≠ .L ↔ t = .R := by
  cases t <;> simp

def TunnelType.text : TunnelType → Bytes
  | .L => ascii "L"
  | .R => ascii "R"

structure TunnelRequest where
  type : TunnelType
  listenAddr : Bytes
  targetAddr : Bytes
  deriving DecidableEq

inductive TunnelError
  | acceptRead (e : ScanErr)
  | acceptEOF
  | unexpectedLine (line : Bytes)
  | tooManyFromPeer
  | invalidLine (line : Bytes)
  | invalidType (type line : Bytes)
  | requestsRead (e : ScanErr)
  | badSpecFormat
  | invalidAddr (spec : Bytes)
  | invalidPort (spec port : Bytes)
  | badAllowEntries (entries : List Bytes)
  | tooMany (n : Nat)
  | openStream
  | writeConfig
  deriving DecidableEq

/-! ### Specifications -/

/-- The loop of `SplitTunnelRequest`: `depth` brackets are open, `cur` is the piece so far, last byte
first. -/
def splitLoop : Nat → Bytes → Bytes → Option (List Bytes)
  | depth, cur, [] => if depth = 0 then some [cur.reverse] else none
  | depth, cur, c :: s =>
    if c = 91 then splitLoop (depth + 1) (c :: cur) s
    else if c = 93 then if depth = 0 then none else splitLoop (depth - 1) (c :: cur) s
    else if c = 58 ∧ depth = 0 then (splitLoop 0 [] s).map (cur.reverse :: ·)
    else splitLoop depth (c :: cur) s

def splitTunnelRequest (spec : Bytes) : Option (List Bytes) := splitLoop 0 [] spec

def stripBrackets (s : Bytes) : Bytes :=
  if s.head? = some 91 ∧ s.getLast? = some 93 then s.tail.dropLast else s

def parseTunnelRequest (spec : Bytes) (typ : TunnelType) : Except TunnelError TunnelRequest :=
  match splitTunnelRequest spec with
  | some [lport, raddr, rport] =>
    .ok ⟨typ, joinHostPort (ascii "127.0.0.1") lport, joinHostPort (stripBrackets raddr) rport⟩
  | some [laddr, lport, raddr, rport] =>
    let listenHost := if stripBrackets laddr = [] then ascii "127.0.0.1" else stripBrackets laddr
    .ok ⟨typ, joinHostPort listenHost lport, joinHostPort (stripBrackets raddr) rport⟩
  | _ => .error .badSpecFormat

/-- The requests a tunnel is run with: the local ones first. -/
def parseTunnels (localTunnels remoteTunnels : List Bytes) :
    Except TunnelError (List TunnelRequest) := do
  let locals ← localTunnels.mapM (parseTunnelRequest · .L)
  let remotes ← remoteTunnels.mapM (parseTunnelRequest · .R)
  return locals ++ remotes

def validatePort (spec addr : Bytes) : Except TunnelError Unit :=
  match splitHostPort addr with
  | none => .error (.invalidAddr spec)
  | some (_, port) =>
    match atoi port with
    | none => .error (.invalidPort spec port)
    | some p => if p < 1 ∨ 65535 < p then .error (.invalidPort spec port) else .ok ()

def validateTunnelSpec (spec : Bytes) (typ : TunnelType) : Except TunnelError Unit := do
  let req ← parseTunnelRequest spec typ
  validatePort spec req.listenAddr
  validatePort spec req.targetAddr

def maxTunnelSpecs : Nat := 100

def validateTunnelConfig (localTunnels remoteTunnels allowListen allowForward : List Bytes)
    (allowAll : Bool) : Except TunnelError Unit := do
  let n := localTunnels.length + remoteTunnels.length
  if maxTunnelSpecs < n then .error (.tooMany n)
  else
    localTunnels.forM (validateTunnelSpec · .L)
    remoteTunnels.forM (validateTunnelSpec · .R)
    (TunnelAllow.validate { all := allowAll, listen := allowListen, forward := allowForward }).mapError
      .badAllowEntries

/-! ### The control stream -/

/-- A request as a line, without its newline. -/
def TunnelRequest.line (r : TunnelRequest) : Bytes :=
  r.type.text ++ [32] ++ r.listenAddr ++ [32] ++ r.targetAddr

def acceptLine (allow : Bool) : Bytes := if allow then ascii "ACCEPT true" else ascii "ACCEPT false"

def writeTunnelConfig (allow : Bool) (reqs : List TunnelRequest) : Bytes :=
  acceptLine allow ++ [10] ++ reqs.flatMap (fun r => r.line ++ [10]) ++ ascii "END" ++ [10]

def printable (c : UInt8) : Bool := 32 ≤ c && c < 127

def parseAddr (s : Bytes) : Bytes := s.filter printable

def readAcceptLine (scanner : Scanner) : Except TunnelError (Bool × Scanner) :=
  match scanner.scan with
  | (none, scanner) =>
    match scanner.error with
    | some e => .error (.acceptRead e)
    | none => .error .acceptEOF
  | (some line, scanner) =>
    if line = ascii "ACCEPT true" then .ok (true, scanner)
    else if line = ascii "ACCEPT false" then .ok (false, scanner)
    else .error (.unexpectedLine line)

/-- One line of the list. -/
def parseRequestLine (line : Bytes) : Except TunnelError TunnelRequest :=
  match splitN 32 3 line with
  | [type, listen, target] =>
    if type = TunnelType.L.text then .ok ⟨.L, parseAddr listen, parseAddr target⟩
    else if type = TunnelType.R.text then .ok ⟨.R, parseAddr listen, parseAddr target⟩
    else .error (.invalidType type line)
  | _ => .error (.invalidLine line)

/-- What `readRequestsFromStream` does behind its loop. -/
def requestsEnd (scanner : Scanner) : Except TunnelError (List TunnelRequest) :=
  match scanner.error with
  | some e => .error (.requestsRead e)
  | none => .ok []

/-- `room` is how many more requests are taken. -/
def readRequests (room : Nat) (scanner : Scanner) : Except TunnelError (List TunnelRequest) :=
  match scanner.scan with
  | (none, scanner) => requestsEnd scanner
  | (some line, scanner) =>
    if line = ascii "END" then requestsEnd scanner
    else
      match room with
      | 0 => .error .tooManyFromPeer
      | room + 1 => do
        let req ← parseRequestLine line
        let reqs ← readRequests room scanner
        return req :: reqs

def readRequestsFromStream (scanner : Scanner) : Except TunnelError (List TunnelRequest) :=
  readRequests maxTunnelRequests scanner

/-- The peer's config, as `ExchangeTunnelConfig` reads it from the stream. -/
def readTunnelConfig (reader : Reader) : Except TunnelError (Bool × List TunnelRequest) := do
  let (peerAccept, scanner) ← readAcceptLine (Scanner.new scannerMaxTokenSize reader)
  let peerReqs ← readRequestsFromStream scanner
  return (peerAccept, peerReqs)

end Qvole.App
