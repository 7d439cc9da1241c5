import Qvole.App.ControlStream
import Qvole.App.Tunnel

/-!
# Both sides of a tunnel

Each side works out alone which requests are its own, which addresses to bind and which streams to
dial for. Two sides that hold the same list and own complementary parts of it fit together
(`Opposite`): what one binds the other dials, and nothing else. That an exchange leads to two such
sides is a matter of the order of the combined list.
-/

namespace Qvole.App

open Lib

/-- The same requests, each owned by exactly one of the two. -/
structure Opposite (X Y : Session) : Prop where
  reqs_eq : X.reqs = Y.reqs
  owner : ∀ i < X.reqs.length, X.mine i = !Y.mine i

theorem Opposite.symm {X Y : Session} (h : Opposite X Y) : Opposite Y X := by
  refine ⟨h.reqs_eq.symm, fun i hi => ?_⟩
  rw [h.owner i (h.reqs_eq ▸ hi), Bool.not_not]

theorem opposite_of_placed {X Y : Session} {clientReqs serverReqs : List TunnelRequest}
    (hX : X.Placed false clientReqs serverReqs) (hY : Y.Placed true serverReqs clientReqs) :
    Opposite X Y := by
  have hX_reqs : X.reqs = clientReqs ++ serverReqs := hX.reqs_eq
  have hY_reqs : Y.reqs = clientReqs ++ serverReqs := hY.reqs_eq
  refine ⟨hX_reqs.trans hY_reqs.symm, fun i hi => ?_⟩
  rw [hX_reqs, List.length_append] at hi
  rw [Bool.eq_iff_iff, Bool.not_eq_true', Bool.eq_false_iff, ne_eq, hX.mine_iff, hY.mine_iff]
  simp only [Bool.false_eq_true, if_false, if_true]
  omega

theorem length_tunnelHeader {i : Nat} {header : Bytes} (h : tunnelHeader i = some header) :
    header.length = 2 := by
  unfold tunnelHeader at h
  split at h
  · cases h
  · cases h
    exact length_beBytes 2 i

theorem beNat_tunnelHeader {i : Nat} {header : Bytes} (h : tunnelHeader i = some header) :
    beNat header = i := by
  unfold tunnelHeader at h
  split at h
  · cases h
  · cases h
    rw [beNat_beBytes, Nat.mod_eq_of_lt (by omega)]

theorem handleTunnelStream_of_header {s : Session} {x : DataStream} {i : Nat} {header rest : Bytes}
    {req : TunnelRequest} (hheader : tunnelHeader i = some header) (hinput : x.input = header ++ rest)
    (hreq : s.reqs[i]? = some req) :
    s.handleTunnelStream x =
      if req.type = .L ∧ s.mine i then []
      else if req.type = .R ∧ ¬ s.mine i then []
      else s.dialTarget x (s.mine i) req := by
  have hlength := length_tunnelHeader hheader
  rw [Session.handleTunnelStream, hinput, if_neg (by rw [List.length_append]; omega),
    List.take_left' hlength, beNat_tunnelHeader hheader]
  dsimp only
  rw [hreq]

theorem Opposite.listener {X Y : Session} (h : Opposite X Y) {lowerRunes : Bytes → Bytes} {i : Nat}
    {req : TunnelRequest} (hreq : X.reqs[i]? = some req)
    (hlistens : X.listensFor lowerRunes i req = true) :
    Y.listensFor lowerRunes i req = false ∧
      ∀ (x : DataStream) (header rest : Bytes), tunnelHeader i = some header →
        x.input = header ++ rest →
        Y.handleTunnelStream x = Y.dialTarget x (Y.mine i) req ∧ X.handleTunnelStream x = [] := by
  have howner := h.owner i (List.getElem?_eq_some_iff.mp hreq).1
  unfold Session.listensFor at hlistens ⊢
  cases hY : Y.mine i with
  | false =>
      rw [hY, Bool.not_false] at howner
      rw [howner, if_pos rfl, Bool.and_eq_true, decide_eq_true_eq] at hlistens
      have htype : req.type = .L := TunnelType.ne_R_iff.mp hlistens.1
      refine ⟨by simp [htype], fun x header rest hheader hinput => ⟨?_, ?_⟩⟩
      · rw [handleTunnelStream_of_header hheader hinput (h.reqs_eq ▸ hreq), hY, htype]
        simp
      · rw [handleTunnelStream_of_header hheader hinput hreq, howner, htype]
        simp
  | true =>
      rw [hY, Bool.not_true] at howner
      rw [howner, if_neg Bool.false_ne_true, Bool.and_eq_true, decide_eq_true_eq] at hlistens
      have htype : req.type = .R := TunnelType.ne_L_iff.mp hlistens.1
      refine ⟨by simp [htype], fun x header rest hheader hinput => ⟨?_, ?_⟩⟩
      · rw [handleTunnelStream_of_header hheader hinput (h.reqs_eq ▸ hreq), hY, htype]
        simp
      · rw [handleTunnelStream_of_header hheader hinput hreq, howner, htype]
        simp

/-! ### Which addresses are dialed -/

/-- The addresses of a target, as far as the allowlist lets them be dialed for the peer. -/
def Session.permitted (s : Session) (x : DataStream) (target : Bytes) : List Bytes :=
  match splitHostPort target with
  | none => []
  | some (host, port) =>
    ((resolveAllIPs x.target host).zipIdx.filter fun e =>
      s.allow.all || s.allow.matchForwardIPs (x.later e.2) e.1 port).map fun e =>
        joinHostPort e.1.string port

/-- One address after the other is dialed, until one answers or none is left. -/
structure DialsUntil (answers : Nat → Bool) (addrs dialed : List Bytes) : Prop where
  front : dialed <+: addrs
  failed : ∀ j, j + 1 < dialed.length → answers j = false
  stopped : dialed ≠ addrs → ∃ j, j + 1 = dialed.length ∧ answers j = true

/-- What a stream is dialed for: the target of an own request, or what is permitted of the target of a
request of the peer. -/
def Session.DialsFor (s : Session) (x : DataStream) (i : Nat) (req : TunnelRequest) : Prop :=
  if s.mine i then s.handleTunnelStream x = [req.targetAddr]
  else DialsUntil x.dial (s.permitted x req.targetAddr) (s.handleTunnelStream x)

theorem DialsUntil.of_dialFirst (dial : Nat → Bool) (addrs : List Bytes) (i : Nat) :
    DialsUntil (fun j => dial (i + j)) addrs (dialFirst dial i addrs) := by
  induction addrs generalizing i with
  | nil => exact ⟨List.prefix_rfl, fun j hj => absurd hj (Nat.not_lt_zero _), fun hne => absurd rfl hne⟩
  | cons addr addrs ih =>
      rw [dialFirst]
      split
      · rename_i hanswers
        refine ⟨(List.prefix_cons_inj addr).mpr List.nil_prefix, fun j hj => ?_, fun _ => ⟨0, rfl, hanswers⟩⟩
        rw [List.length_singleton] at hj
        omega
      · rename_i hsilent
        have hrest := ih (i + 1)
        refine ⟨(List.prefix_cons_inj addr).mpr hrest.front, fun j hj => ?_, fun hne => ?_⟩
        · cases j with
          | zero => exact Bool.eq_false_iff.mpr hsilent
          | succ j =>
              rw [show i + (j + 1) = i + 1 + j by omega]
              exact hrest.failed j (Nat.lt_of_succ_lt_succ hj)
        · obtain ⟨j, hj, hanswers⟩ := hrest.stopped fun heq => hne (congrArg (addr :: ·) heq)
          refine ⟨j + 1, congrArg (· + 1) hj, ?_⟩
          rw [show i + (j + 1) = i + 1 + j by omega]
          exact hanswers

theorem Session.dialTarget_peers (s : Session) (x : DataStream) (req : TunnelRequest) :
    s.dialTarget x false req = dialFirst x.dial 0 (s.permitted x req.targetAddr) := by
  rw [dialTarget, if_neg Bool.false_ne_true, permitted, TunnelAllow.forwardIPs]
  cases splitHostPort req.targetAddr with
  | none => rfl
  | some hp =>
      obtain ⟨host, port⟩ := hp
      dsimp only
      by_cases hnone : (resolveAllIPs x.target host).length = 0
      · rw [if_pos hnone, List.length_eq_zero_iff.mp hnone]
        rfl
      rw [if_neg hnone]
      cases hall : s.allow.all with
      | true =>
          have hips : (resolveAllIPs x.target host).map (fun ip => joinHostPort ip.string port) =
              (resolveAllIPs x.target host).zipIdx.map fun e => joinHostPort e.1.string port := by
            nth_rewrite 1 [← List.zipIdx_map_fst 0 (resolveAllIPs x.target host)]
            rw [List.map_map]
            rfl
          simp [hips]
      | false =>
          simp only [Bool.false_eq_true, if_false, Bool.false_or]
          split
          · rename_i hnothing
            split at hnothing
            · rename_i hempty
              rw [List.length_map, List.length_eq_zero_iff] at hempty
              rw [hempty]
              rfl
            · cases hnothing
          · rename_i ips port' hsome
            split at hsome
            · cases hsome
            · cases hsome
              rw [List.map_map]
              rfl

theorem Session.dialsFor {s : Session} {x : DataStream} {i : Nat} {req : TunnelRequest}
    (h : s.handleTunnelStream x = s.dialTarget x (s.mine i) req) : s.DialsFor x i req := by
  unfold DialsFor
  cases hmine : s.mine i with
  | true =>
      rw [hmine] at h
      exact h
  | false =>
      rw [hmine, s.dialTarget_peers] at h
      rw [if_neg Bool.false_ne_true, h]
      simpa using DialsUntil.of_dialFirst x.dial (s.permitted x req.targetAddr) 0

/-- A side that binds an address for an index is the only one, and the streams it opens for its
connections are dialed by the other side for the same request. -/
def Complements (lowerRunes : Bytes → Bytes) (X Y : Session) : Prop :=
  ∀ bound i addr, (i, addr) ∈ X.runTCPListeners lowerRunes bound →
    (∀ bound' addr', (i, addr') ∉ Y.runTCPListeners lowerRunes bound') ∧
    ∃ req, Y.reqs[i]? = some req ∧ addr = req.listenAddr ∧
      ∀ (x : DataStream) (header rest : Bytes), tunnelHeader i = some header →
        x.input = header ++ rest → Y.DialsFor x i req ∧ X.handleTunnelStream x = []

theorem Opposite.complements {X Y : Session} (h : Opposite X Y) (lowerRunes : Bytes → Bytes) :
    Complements lowerRunes X Y := by
  intro bound i addr hbound
  obtain ⟨req, hreq, hlistens, haddr⟩ := Session.listensFor_of_bound hbound
  obtain ⟨hother, hstream⟩ := h.listener hreq hlistens
  refine ⟨fun bound' addr' hbound' => ?_, req, h.reqs_eq ▸ hreq, haddr, fun x header rest hheader hinput => ?_⟩
  · obtain ⟨req', hreq', hlistens', _⟩ := Session.listensFor_of_bound hbound'
    rw [← h.reqs_eq, hreq] at hreq'
    cases hreq'
    rw [hother] at hlistens'
    cases hlistens'
  · obtain ⟨hdialed, hnot⟩ := hstream x header rest hheader hinput
    exact ⟨Session.dialsFor hdialed, hnot⟩

/-- The requests come out of the control stream as they were put in, however it delivers them. -/
def Survives (accept : Bool) (reqs : List TunnelRequest) : Prop :=
  ∀ reader : Reader, reader.chunks.flatten = writeTunnelConfig accept reqs → reader.fails = false →
    readTunnelConfig reader = .ok (accept, reqs)

/-- The control stream brings what the other side has written. -/
structure Delivers (ctl : ControlEnd) (sent : Bytes) : Prop where
  opened : ctl.opened = true
  written : ctl.written = true
  fails : ctl.reader.fails = false
  data : ctl.reader.chunks.flatten = sent

theorem exchangeTunnelConfig_eq_ok {ctl : ControlEnd} {myReqs peerReqs : List TunnelRequest}
    {accept : Bool} (allow : TunnelAllow) (isServer : Bool) (hcount : myReqs.length ≤ maxTunnelRequests)
    (hsurvives : Survives accept peerReqs) (hctl : Delivers ctl (writeTunnelConfig accept peerReqs)) :
    ∃ ex, exchangeTunnelConfig ctl myReqs allow isServer = .ok ex ∧
      (ex.session myReqs allow).Placed isServer myReqs peerReqs := by
  have hread := hsurvives ctl.reader hctl.data hctl.fails
  unfold exchangeTunnelConfig
  rw [if_neg (Nat.not_lt.mpr hcount), hctl.opened, hctl.written, hread]
  exact ⟨_, rfl, rfl, rfl, rfl⟩

/-- Both sides come out of the exchange with the same list, every index of it belongs to exactly one
side and fits into a header, and each side dials for what the other one binds. -/
theorem tunnel_indices_agree (lowerRunes : Bytes → Bytes) (clientReqs serverReqs : List TunnelRequest)
    (clientAllow serverAllow : TunnelAllow) (clientCtl serverCtl : ControlEnd)
    (hclient : clientReqs.length ≤ maxTunnelRequests) (hserver : serverReqs.length ≤ maxTunnelRequests)
    (hclientSurvives : Survives clientAllow.accepts clientReqs)
    (hserverSurvives : Survives serverAllow.accepts serverReqs)
    (hclientCtl : Delivers clientCtl (writeTunnelConfig serverAllow.accepts serverReqs))
    (hserverCtl : Delivers serverCtl (writeTunnelConfig clientAllow.accepts clientReqs)) :
    ∃ exC exS, exchangeTunnelConfig clientCtl clientReqs clientAllow false = .ok exC ∧
      exchangeTunnelConfig serverCtl serverReqs serverAllow true = .ok exS ∧
      exC.reqs = clientReqs ++ serverReqs ∧ exC.reqs = exS.reqs ∧
      (∀ i < exC.reqs.length,
        (exC.session clientReqs clientAllow).mine i = decide (i < clientReqs.length) ∧
        (exC.session clientReqs clientAllow).mine i = !(exS.session serverReqs serverAllow).mine i) ∧
      Complements lowerRunes (exC.session clientReqs clientAllow)
        (exS.session serverReqs serverAllow) ∧
      Complements lowerRunes (exS.session serverReqs serverAllow)
        (exC.session clientReqs clientAllow) ∧
      ∀ i < exC.reqs.length, ∃ header, tunnelHeader i = some header ∧ header.length = 2 ∧
        beNat header = i := by
  obtain ⟨exC, hexC, hC⟩ :=
    exchangeTunnelConfig_eq_ok clientAllow false hclient hserverSurvives hclientCtl
  obtain ⟨exS, hexS, hS⟩ :=
    exchangeTunnelConfig_eq_ok serverAllow true hserver hclientSurvives hserverCtl
  have hopposite := opposite_of_placed hC hS
  have hreqs : exC.reqs = clientReqs ++ serverReqs := hC.reqs_eq
  refine ⟨exC, exS, hexC, hexS, hreqs, hopposite.reqs_eq, fun i hi => ⟨?_, hopposite.owner i hi⟩,
    hopposite.complements lowerRunes, hopposite.symm.complements lowerRunes, fun i hi => ?_⟩
  · rw [Bool.eq_iff_iff, hC.mine_iff, decide_eq_true_eq]
    rfl
  · rw [hreqs, List.length_append] at hi
    rw [maxTunnelRequests] at hclient hserver
    have hheader : tunnelHeader i = some (beBytes 2 i) := if_neg (by omega)
    exact ⟨_, hheader, length_tunnelHeader hheader, beNat_tunnelHeader hheader⟩

/-- One request of each kind on either side. -/
def sampleRequests : List TunnelRequest :=
  [⟨.L, ascii "127.0.0.1:8080", ascii "h:80"⟩, ⟨.R, ascii "127.0.0.1:9000", ascii "x:22"⟩]

def sampleAllow : TunnelAllow := ⟨false, [ascii ":9000"], [ascii ":80"], [], false⟩

theorem sample_survives : Survives sampleAllow.accepts sampleRequests := by
  intro reader hdata hok
  refine (readTunnelConfig_eq_iff hdata hok (by decide)).mpr fun r hr => ?_
  rw [sampleRequests, List.mem_cons, List.mem_singleton] at hr
  rcases hr with rfl | rfl <;> exact ⟨by decide +kernel, by decide +kernel, by decide +kernel⟩

/-- A stream that opens with the header of the index; the target has two addresses, of which the second
answers. -/
def sampleStream (i : UInt8) : DataStream :=
  ⟨[0, i], fun _ => some [[10, 0, 0, 1], [10, 0, 0, 2]], fun _ _ _ => none, fun j => j = 1⟩

/-- For the client's `-L` the server dials both addresses of the target, and for its own `-R` the target as
it stands. -/
theorem sample_indices_agree : ∃ exC exS : Exchanged,
    exC.reqs = sampleRequests ++ sampleRequests ∧ exC.reqs = exS.reqs ∧
      DialsUntil (fun j => j = 1) [ascii "10.0.0.1:80", ascii "10.0.0.2:80"]
        ((exS.session sampleRequests sampleAllow).handleTunnelStream (sampleStream 0)) ∧
      (exS.session sampleRequests sampleAllow).handleTunnelStream (sampleStream 3) = [ascii "x:22"] := by
  have hctl : Delivers ⟨true, true, ⟨[writeTunnelConfig sampleAllow.accepts sampleRequests], false, true⟩⟩
      (writeTunnelConfig sampleAllow.accepts sampleRequests) :=
    ⟨rfl, rfl, rfl, List.append_nil _⟩
  obtain ⟨exC, exS, hexC, hexS, hlist, hreqs, _, hcomplements, _⟩ := tunnel_indices_agree id sampleRequests
    sampleRequests sampleAllow sampleAllow _ _ (by decide) (by decide) sample_survives sample_survives
    hctl hctl
  have hclient : exchangeTunnelConfig
      ⟨true, true, ⟨[writeTunnelConfig sampleAllow.accepts sampleRequests], false, true⟩⟩ sampleRequests
      sampleAllow false = .ok ⟨writeTunnelConfig sampleAllow.accepts sampleRequests, true,
        sampleRequests ++ sampleRequests, 0⟩ := by decide +kernel
  have hserver : exchangeTunnelConfig
      ⟨true, true, ⟨[writeTunnelConfig sampleAllow.accepts sampleRequests], false, true⟩⟩ sampleRequests
      sampleAllow true = .ok ⟨writeTunnelConfig sampleAllow.accepts sampleRequests, true,
        sampleRequests ++ sampleRequests, 2⟩ := by decide +kernel
  cases hclient.symm.trans hexC
  cases hserver.symm.trans hexS
  refine ⟨_, _, hlist, hreqs, ?_, ?_⟩
  · obtain ⟨_, req, hreq, _, hstream⟩ := hcomplements (fun _ => true) 0 (ascii "127.0.0.1:8080")
      (by decide +kernel)
    cases hreq
    exact (hstream (sampleStream 0) [0, 0] [] rfl rfl).1
  · obtain ⟨_, req, hreq, _, hstream⟩ := hcomplements (fun _ => true) 3 (ascii "127.0.0.1:9000")
      (by decide +kernel)
    cases hreq
    exact (hstream (sampleStream 3) [0, 3] [] rfl rfl).1

end Qvole.App
