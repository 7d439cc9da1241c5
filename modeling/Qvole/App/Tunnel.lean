import Qvole.App.Request
import Qvole.Lib.Hash

/-!
# One side of a tunnel

After the exchange both sides hold one list of requests, the client's first, and each knows which
stretch of it is its own. A side binds the listen address of its own `-L` requests and of the peer's
`-R` requests, and it dials the target of its own `-R` requests and of the peer's `-L` requests when
the peer opens a data stream with their index.

The model keeps every address that is passed to `net.Listen` or to the dialer, in order. What the
network does is a parameter: the bytes of the streams, the answers of the resolver, and which attempts
to bind or to connect succeed. The semaphores that bound the number of open streams are left out; they
only drop streams.
-/

namespace Qvole.App

open Lib

/-! ### The exchange -/

/-- What the control stream does to this side. -/
structure ControlEnd where
  opened : Bool
  written : Bool
  reader : Reader

/-- `sent` is what this side has written to the stream. -/
structure Exchanged where
  sent : Bytes
  peerAccept : Bool
  reqs : List TunnelRequest
  myReqStart : Nat
  deriving DecidableEq

/-- The client's requests first. -/
def combine (isServer : Bool) (myReqs peerReqs : List TunnelRequest) : List TunnelRequest :=
  if isServer then peerReqs ++ myReqs else myReqs ++ peerReqs

def exchangeTunnelConfig (ctl : ControlEnd) (myReqs : List TunnelRequest) (allow : TunnelAllow)
    (isServer : Bool) : Except TunnelError Exchanged :=
  if maxTunnelRequests < myReqs.length then .error (.tooMany myReqs.length)
  else if ¬ ctl.opened then .error .openStream
  else if ¬ ctl.written then .error .writeConfig
  else do
    let (peerAccept, peerReqs) ← readTunnelConfig ctl.reader
    return {
      sent := writeTunnelConfig allow.accepts myReqs
      peerAccept := peerAccept
      reqs := combine isServer myReqs peerReqs
      myReqStart := if isServer then peerReqs.length else 0 }

/-! ### Listeners and streams -/

structure Session where
  reqs : List TunnelRequest
  myReqStart : Nat
  myReqCount : Nat
  peerAccept : Bool
  allow : TunnelAllow

/-- What `RunTunnel` runs once the requests are exchanged. -/
def Exchanged.session (ex : Exchanged) (myReqs : List TunnelRequest) (allow : TunnelAllow) : Session :=
  ⟨ex.reqs, ex.myReqStart, myReqs.length, ex.peerAccept, allow⟩

/-- A data stream the peer opens: its bytes, the answers to the lookups its target leads to, and
whether the attempts to connect succeed. -/
structure DataStream where
  input : Bytes
  target : Bytes → Option (List IP)
  later : Nat → Resolver
  dial : Nat → Bool

/-- The header `HandleTunnelTCP` writes on a stream it opens for a connection on listener `specIdx`. -/
def tunnelHeader (specIdx : Nat) : Option Bytes :=
  if 65535 < specIdx then none else some (beBytes 2 specIdx)

/-- The attempts to connect, up to the first that succeeds. -/
def dialFirst (dial : Nat → Bool) : Nat → List Bytes → List Bytes
  | _, [] => []
  | i, addr :: addrs => if dial i then [addr] else addr :: dialFirst dial (i + 1) addrs

namespace Session

def mine (s : Session) (i : Nat) : Bool := s.myReqStart ≤ i && i < s.myReqStart + s.myReqCount

/-- The checks of `RunTCPListeners` before it binds. -/
def listensFor (lowerRunes : Bytes → Bytes) (s : Session) (i : Nat) (req : TunnelRequest) : Bool :=
  if s.mine i then req.type ≠ .R && s.peerAccept
  else req.type ≠ .L && s.allow.allowsListen lowerRunes req.listenAddr

/-- The loop of `RunTCPListeners`; it returns at the first address that cannot be bound. -/
def listenLoop (lowerRunes : Bytes → Bytes) (bound : Nat → Bool) (s : Session) :
    List (TunnelRequest × Nat) → List (Nat × Bytes)
  | [] => []
  | (req, i) :: rest =>
    if ¬ s.listensFor lowerRunes i req then listenLoop lowerRunes bound s rest
    else if bound i then (i, req.listenAddr) :: listenLoop lowerRunes bound s rest
    else [(i, req.listenAddr)]

/-- The addresses passed to `net.Listen`, each with the index it is bound for. -/
def runTCPListeners (lowerRunes : Bytes → Bytes) (bound : Nat → Bool) (s : Session) :
    List (Nat × Bytes) :=
  s.listenLoop lowerRunes bound s.reqs.zipIdx

/-- The end of `HandleTunnelStream`: the addresses passed to the dialer for a request. -/
def dialTarget (s : Session) (x : DataStream) (myReq : Bool) (req : TunnelRequest) : List Bytes :=
  if myReq then [req.targetAddr]
  else
    match s.allow.forwardIPs x.target x.later req.targetAddr with
    | none => []
    | some (ips, port) => dialFirst x.dial 0 (ips.map fun ip => joinHostPort ip.string port)

def handleTunnelStream (s : Session) (x : DataStream) : List Bytes :=
  if x.input.length < 2 then []
  else
    let idx := beNat (x.input.take 2)
    match s.reqs[idx]? with
    | none => []
    | some req =>
      let myReq := s.mine idx
      if req.type = .L ∧ myReq then []
      else if req.type = .R ∧ ¬ myReq then []
      else s.dialTarget x myReq req

def runStreamAcceptor (s : Session) (streams : List DataStream) : List Bytes :=
  streams.flatMap s.handleTunnelStream

end Session

/-! ### Whose request an index names -/

/-- A session over the requests of both sides, with this side's own stretch of them. -/
structure Session.Placed (s : Session) (isServer : Bool) (myReqs peerReqs : List TunnelRequest) :
    Prop where
  reqs_eq : s.reqs = combine isServer myReqs peerReqs
  start_eq : s.myReqStart = if isServer then peerReqs.length else 0
  count_eq : s.myReqCount = myReqs.length

theorem exchangeTunnelConfig_inv {ctl : ControlEnd} {myReqs : List TunnelRequest} {allow : TunnelAllow}
    {isServer : Bool} {ex : Exchanged}
    (h : exchangeTunnelConfig ctl myReqs allow isServer = .ok ex) (a : TunnelAllow) :
    ∃ peerReqs, readTunnelConfig ctl.reader = .ok (ex.peerAccept, peerReqs) ∧
      (ex.session myReqs a).Placed isServer myReqs peerReqs := by
  unfold exchangeTunnelConfig at h
  split at h
  · cases h
  split at h
  · cases h
  split at h
  · cases h
  obtain ⟨⟨peerAccept, peerReqs⟩, hread, h⟩ := bind_eq_ok.mp h
  cases h
  exact ⟨peerReqs, hread, rfl, rfl, rfl⟩

namespace Session.Placed

variable {s : Session} {isServer : Bool} {myReqs peerReqs : List TunnelRequest} {i : Nat}

/-- The client owns the front of the list, the server the rest. -/
theorem mine_iff (h : s.Placed isServer myReqs peerReqs) :
    s.mine i = true ↔
      if isServer then peerReqs.length ≤ i ∧ i < peerReqs.length + myReqs.length
      else i < myReqs.length := by
  rw [Session.mine, h.start_eq, h.count_eq]
  cases isServer with
  | false => simp
  | true => simp

theorem getElem?_of_mine (h : s.Placed isServer myReqs peerReqs) (hmine : s.mine i = true) :
    s.reqs[i]? = myReqs[i - s.myReqStart]? := by
  have hi := h.mine_iff.mp hmine
  rw [h.reqs_eq, h.start_eq, combine]
  cases isServer with
  | false => exact List.getElem?_append_left hi
  | true => exact List.getElem?_append_right hi.1

theorem mem_of_mine (h : s.Placed isServer myReqs peerReqs) {req : TunnelRequest}
    (hreq : s.reqs[i]? = some req) (hmine : s.mine i = true) : req ∈ myReqs := by
  rw [h.getElem?_of_mine hmine] at hreq
  exact List.mem_of_getElem? hreq

theorem mem_of_not_mine (h : s.Placed isServer myReqs peerReqs) {req : TunnelRequest}
    (hreq : s.reqs[i]? = some req) (hmine : ¬ s.mine i = true) : req ∈ peerReqs := by
  have hlt := (List.getElem?_eq_some_iff.mp hreq).1
  rw [h.mine_iff] at hmine
  rw [h.reqs_eq, combine] at hreq hlt
  cases isServer with
  | false =>
      rw [if_neg Bool.false_ne_true] at hreq hmine
      rw [List.getElem?_append_right (Nat.le_of_not_lt hmine)] at hreq
      exact List.mem_of_getElem? hreq
  | true =>
      rw [if_pos rfl] at hreq hlt hmine
      rw [List.length_append] at hlt
      rw [List.getElem?_append_left (by omega)] at hreq
      exact List.mem_of_getElem? hreq

end Session.Placed

/-! ### What is bound and what is dialed -/

namespace Session

variable {lowerRunes : Bytes → Bytes} {bound : Nat → Bool} {s : Session}

theorem listensFor_of_mem_listenLoop {indexed : List (TunnelRequest × Nat)} {i : Nat} {addr : Bytes}
    (h : (i, addr) ∈ s.listenLoop lowerRunes bound indexed) :
    ∃ req, (req, i) ∈ indexed ∧ s.listensFor lowerRunes i req = true ∧ addr = req.listenAddr := by
  induction indexed with
  | nil => cases h
  | cons entry rest ih =>
      obtain ⟨req, j⟩ := entry
      rw [listenLoop] at h
      split at h
      · obtain ⟨req', hmem, hrest⟩ := ih h
        exact ⟨req', List.mem_cons_of_mem _ hmem, hrest⟩
      rename_i hlistens
      split at h
      · rcases List.mem_cons.mp h with heq | h
        · cases heq
          exact ⟨req, List.mem_cons_self, not_not.mp hlistens, rfl⟩
        · obtain ⟨req', hmem, hrest⟩ := ih h
          exact ⟨req', List.mem_cons_of_mem _ hmem, hrest⟩
      · cases List.mem_singleton.mp h
        exact ⟨req, List.mem_cons_self, not_not.mp hlistens, rfl⟩

theorem listensFor_of_bound {i : Nat} {addr : Bytes}
    (h : (i, addr) ∈ s.runTCPListeners lowerRunes bound) :
    ∃ req, s.reqs[i]? = some req ∧ s.listensFor lowerRunes i req = true ∧ addr = req.listenAddr := by
  obtain ⟨req, hmem, hrest⟩ := listensFor_of_mem_listenLoop h
  exact ⟨req, List.mem_zipIdx_iff_getElem?.mp hmem, hrest⟩

theorem mem_of_mem_dialFirst {dial : Nat → Bool} {i : Nat} {addrs : List Bytes} {addr : Bytes}
    (h : addr ∈ dialFirst dial i addrs) : addr ∈ addrs := by
  induction addrs generalizing i with
  | nil => cases h
  | cons a addrs ih =>
      rw [dialFirst] at h
      split at h
      · rw [List.mem_singleton.mp h]
        exact List.mem_cons_self
      · rcases List.mem_cons.mp h with rfl | h
        · exact List.mem_cons_self
        · exact List.mem_cons_of_mem _ (ih h)

theorem matches_of_forwardIPs {a : TunnelAllow} (hall : a.all = false)
    {target : Bytes → Option (List IP)} {later : Nat → Resolver} {addr port : Bytes} {ips : List IP}
    (h : a.forwardIPs target later addr = some (ips, port)) {ip : IP} (hip : ip ∈ ips) :
    ∃ j, a.matchForwardIPs (later j) ip port = true := by
  unfold TunnelAllow.forwardIPs at h
  split at h
  · cases h
  dsimp only at h
  split at h
  · cases h
  rw [hall, if_neg Bool.false_ne_true] at h
  split at h
  · cases h
  cases h
  obtain ⟨⟨ip', j⟩, hmem, rfl⟩ := List.mem_map.mp hip
  exact ⟨j, (List.mem_filter.mp hmem).2⟩

/-- A dialed address is the target of a request of this side, or an address the allowlist permits. -/
theorem of_mem_handleTunnelStream (hall : s.allow.all = false) {x : DataStream} {addr : Bytes}
    (h : addr ∈ s.handleTunnelStream x) :
    (∃ i req, s.reqs[i]? = some req ∧ s.mine i = true ∧ req.type = .R ∧ addr = req.targetAddr) ∨
      ∃ j ip port, addr = joinHostPort ip.string port ∧
        s.allow.matchForwardIPs (x.later j) ip port = true := by
  unfold handleTunnelStream at h
  split at h
  · cases h
  dsimp only at h
  split at h
  · cases h
  rename_i req hreq
  split at h
  · cases h
  rename_i hL
  split at h
  · cases h
  unfold dialTarget at h
  split at h
  · rename_i hmine
    have htype : req.type = .R := TunnelType.ne_L_iff.mp fun htype => hL ⟨htype, hmine⟩
    exact Or.inl ⟨_, req, hreq, hmine, htype, List.mem_singleton.mp h⟩
  · split at h
    · cases h
    · rename_i ips port hforward
      obtain ⟨ip, hip, rfl⟩ := List.mem_map.mp (mem_of_mem_dialFirst h)
      obtain ⟨j, hmatch⟩ := matches_of_forwardIPs hall hforward hip
      exact Or.inr ⟨j, ip, port, rfl, hmatch⟩

end Session

/-- The allowlist of a run without `-a`. -/
def allowlist (listen forward : List Bytes) (startup : Resolver) : TunnelAllow :=
  TunnelAllow.resolve startup { all := false, listen := listen, forward := forward }

theorem matchForwardIPs_empty {listen : List Bytes} {startup later : Resolver} {ip port : Bytes} :
    (allowlist listen [] startup).matchForwardIPs later ip port = false := rfl

theorem allowMatch_empty {lowerRunes : Bytes → Bytes} {addr : Bytes} :
    allowMatch lowerRunes [] addr = false := by
  unfold allowMatch
  cases splitHostPort addr with
  | none => rfl
  | some hp => rfl

variable {lowerRunes : Bytes → Bytes} {startup : Resolver} {listen forward : List Bytes}
  {myReqs peerReqs : List TunnelRequest} {isServer : Bool} {s : Session}

theorem bound_allowed (hplaced : s.Placed isServer myReqs peerReqs)
    (hallow : s.allow = allowlist listen forward startup) {bound : Nat → Bool} {i : Nat} {addr : Bytes}
    (h : (i, addr) ∈ s.runTCPListeners lowerRunes bound) :
    (∃ r ∈ myReqs, r.type = .L ∧ addr = r.listenAddr) ∨
      (∃ r ∈ peerReqs, r.type = .R ∧ addr = r.listenAddr) ∧
        allowMatch lowerRunes listen addr = true := by
  obtain ⟨req, hreq, hlistens, rfl⟩ := Session.listensFor_of_bound h
  unfold Session.listensFor at hlistens
  split at hlistens
  · rename_i hmine
    rw [Bool.and_eq_true, decide_eq_true_eq, TunnelType.ne_R_iff] at hlistens
    exact Or.inl ⟨req, hplaced.mem_of_mine hreq hmine, hlistens.1, rfl⟩
  · rename_i hmine
    rw [Bool.and_eq_true, decide_eq_true_eq, TunnelType.ne_L_iff, hallow] at hlistens
    exact Or.inr ⟨⟨req, hplaced.mem_of_not_mine hreq hmine, hlistens.1, rfl⟩, hlistens.2⟩

theorem dialed_allowed (hplaced : s.Placed isServer myReqs peerReqs)
    (hallow : s.allow = allowlist listen forward startup) {streams : List DataStream} {addr : Bytes}
    (h : addr ∈ s.runStreamAcceptor streams) :
    (∃ r ∈ myReqs, r.type = .R ∧ addr = r.targetAddr) ∨
      ∃ x ∈ streams, ∃ j ip port, addr = joinHostPort ip.string port ∧
        (allowlist listen forward startup).matchForwardIPs (x.later j) ip port = true := by
  obtain ⟨x, hx, h⟩ := List.mem_flatMap.mp h
  rcases Session.of_mem_handleTunnelStream (by rw [hallow]; rfl) h with
    ⟨i, req, hreq, hmine, htype, haddr⟩ | ⟨j, ip, port, haddr, hmatch⟩
  · exact Or.inl ⟨req, hplaced.mem_of_mine hreq hmine, htype, haddr⟩
  · exact Or.inr ⟨x, hx, j, ip, port, haddr, hallow ▸ hmatch⟩

/-- Whatever the peer sends on the control stream and on the data streams, this side binds nothing but
the listen addresses of its own `-L` requests and those of the peer's `-R` requests that match a `-aL`
entry, and dials nothing but the targets of its own `-R` requests and addresses that match a `-aF`
entry. -/
theorem tunnel_access_control (lowerRunes : Bytes → Bytes) (startup : Resolver)
    (listen forward : List Bytes) (myReqs : List TunnelRequest) (isServer : Bool) (ctl : ControlEnd)
    (ex : Exchanged)
    (hex : exchangeTunnelConfig ctl myReqs (allowlist listen forward startup) isServer = .ok ex) :
    ∃ peerReqs, readTunnelConfig ctl.reader = .ok (ex.peerAccept, peerReqs) ∧
      (∀ bound i addr,
        (i, addr) ∈ (ex.session myReqs (allowlist listen forward startup)).runTCPListeners
          lowerRunes bound →
        (∃ r ∈ myReqs, r.type = .L ∧ addr = r.listenAddr) ∨
          (∃ r ∈ peerReqs, r.type = .R ∧ addr = r.listenAddr) ∧
            allowMatch lowerRunes listen addr = true) ∧
      (∀ streams addr,
        addr ∈ (ex.session myReqs (allowlist listen forward startup)).runStreamAcceptor streams →
        (∃ r ∈ myReqs, r.type = .R ∧ addr = r.targetAddr) ∨
          ∃ x ∈ streams, ∃ j ip port, addr = joinHostPort ip.string port ∧
            (allowlist listen forward startup).matchForwardIPs (x.later j) ip port = true) ∧
      (listen = [] → forward = [] →
        (∀ bound i addr,
          (i, addr) ∈ (ex.session myReqs (allowlist listen forward startup)).runTCPListeners
            lowerRunes bound → ∃ r ∈ myReqs, r.type = .L ∧ addr = r.listenAddr) ∧
        ∀ streams addr,
          addr ∈ (ex.session myReqs (allowlist listen forward startup)).runStreamAcceptor streams →
          ∃ r ∈ myReqs, r.type = .R ∧ addr = r.targetAddr) := by
  obtain ⟨peerReqs, hread, hplaced⟩ :=
    exchangeTunnelConfig_inv hex (allowlist listen forward startup)
  refine ⟨peerReqs, hread, fun _ _ _ h => bound_allowed hplaced rfl h,
    fun _ _ h => dialed_allowed hplaced rfl h, ?_⟩
  rintro rfl rfl
  constructor
  · intro bound i addr h
    rcases bound_allowed hplaced rfl h with hown | ⟨_, hmatch⟩
    · exact hown
    · rw [allowMatch_empty] at hmatch
      cases hmatch
  · intro streams addr h
    rcases dialed_allowed hplaced rfl h with hown | ⟨x, _, j, ip, port, _, hmatch⟩
    · exact hown
    · rw [matchForwardIPs_empty] at hmatch
      cases hmatch

/-- The server's own request comes behind the two of the peer, of which the first asks for a listener. -/
theorem peer_listener_allowed :
    ∃ peerReqs : List TunnelRequest, peerReqs.length = 2 ∧
      ((∃ r ∈ [(⟨.L, ascii "127.0.0.1:8080", ascii "h:80"⟩ : TunnelRequest)],
          r.type = .L ∧ ascii "0.0.0.0:9000" = r.listenAddr) ∨
        (∃ r ∈ peerReqs, r.type = .R ∧ ascii "0.0.0.0:9000" = r.listenAddr) ∧
          allowMatch id [ascii ":9000"] (ascii "0.0.0.0:9000") = true) := by
  have hex : exchangeTunnelConfig ⟨true, true,
      ⟨[ascii "ACCEPT true\nR 0.0.0.0:9000 x:1\nL y:1 10.0.0.7:22\nEND\n"], false, false⟩⟩
      [⟨.L, ascii "127.0.0.1:8080", ascii "h:80"⟩]
      (allowlist [ascii ":9000"] [] fun _ _ => none) true =
      .ok ⟨ascii "ACCEPT true\nL 127.0.0.1:8080 h:80\nEND\n", true,
        [⟨.R, ascii "0.0.0.0:9000", ascii "x:1"⟩, ⟨.L, ascii "y:1", ascii "10.0.0.7:22"⟩,
          ⟨.L, ascii "127.0.0.1:8080", ascii "h:80"⟩], 2⟩ := by
    decide +kernel
  obtain ⟨peerReqs, hread, hbound, _⟩ := tunnel_access_control id (fun _ _ => none) _ _ _ _ _ _ hex
  refine ⟨peerReqs, ?_, hbound (fun _ => true) 0 _ (by decide +kernel)⟩
  rw [show readTunnelConfig _ = .ok (true, [⟨.R, ascii "0.0.0.0:9000", ascii "x:1"⟩,
    ⟨.L, ascii "y:1", ascii "10.0.0.7:22"⟩]) by decide +kernel] at hread
  cases hread
  rfl

end Qvole.App
