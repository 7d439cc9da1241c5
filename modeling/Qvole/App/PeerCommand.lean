import Mathlib.Algebra.Order.BigOperators.Group.List
import Mathlib.Algebra.Order.Group.Nat
import Qvole.App.Request
import Qvole.Lib.NetText

/-!
# The command printed for the peer

From its own `-L` and `-R` specifications a side works out what the other side has to allow: the listen
address of each `-R` and the target of each `-L`. The peer that allows these entries honours every
request. It also allows nothing else, as long as no entry has an empty host: as an entry, an empty host
stands for all hosts, while as a target it stands for none.
-/

namespace Qvole.App

open Lib

/-- `v` is appended unless the `seen` map has it, which holds what the list holds. -/
def addUnseen (seen : List Bytes) (v : Bytes) : List Bytes := if v ∈ seen then seen else seen ++ [v]

/-- One loop of `tunnelPeerCommand`. -/
def collectAddrs (addr : TunnelRequest → Bytes) (typ : TunnelType) (specs : List Bytes) :
    Except TunnelError (List Bytes) :=
  specs.foldlM (fun seen spec => do
    let req ← parseTunnelRequest spec typ
    return addUnseen seen (addr req)) []

/-- The `-aL` and the `-aF` entries of the command. -/
def peerEntries (localTunnels remoteTunnels : List Bytes) : Except TunnelError (List Bytes × List Bytes) := do
  let aL ← collectAddrs (·.listenAddr) .R remoteTunnels
  let aF ← collectAddrs (·.targetAddr) .L localTunnels
  return (aL, aF)

def peerCommandText (code : Bytes) (aL aF : List Bytes) : Bytes :=
  if aL.length = 0 ∧ aF.length = 0 then []
  else
    ascii "QVOLE_CODE=" ++ code ++ ascii " qvole tunnel" ++ aL.flatMap (fun v => ascii " -aL " ++ v) ++
      aF.flatMap fun v => ascii " -aF " ++ v

def tunnelPeerCommand (code : Bytes) (localTunnels remoteTunnels : List Bytes) :
    Except TunnelError Bytes := do
  let entries ← peerEntries localTunnels remoteTunnels
  return peerCommandText code entries.1 entries.2

/-! ### The entries -/

section

variable {addr : TunnelRequest → Bytes} {typ : TunnelType} {spec e host port : Bytes}
  {specs seen entries : List Bytes} {req : TunnelRequest}

/-- A request that one of the specifications stands for. -/
def Requests (specs : List Bytes) (typ : TunnelType) (req : TunnelRequest) : Prop :=
  ∃ spec ∈ specs, parseTunnelRequest spec typ = .ok req

theorem mem_addUnseen {v : Bytes} : e ∈ addUnseen seen v ↔ e ∈ seen ∨ e = v := by
  unfold addUnseen
  split
  · rename_i hv
    constructor
    · exact Or.inl
    · rintro (h | rfl)
      · exact h
      · exact hv
  · simp

theorem mem_collectFrom (h : specs.foldlM (fun seen spec => do
    let req ← parseTunnelRequest spec typ
    return addUnseen seen (addr req)) seen = .ok entries) :
    e ∈ entries ↔ e ∈ seen ∨ ∃ req, Requests specs typ req ∧ addr req = e := by
  induction specs generalizing seen with
  | nil =>
      cases h
      simp [Requests]
  | cons spec specs ih =>
      obtain ⟨seen', hstep, hrest⟩ := bind_eq_ok.mp h
      obtain ⟨req, hreq, hstep⟩ := bind_eq_ok.mp hstep
      cases hstep
      rw [ih hrest, mem_addUnseen, or_assoc]
      apply or_congr_right
      constructor
      · rintro (rfl | ⟨req', ⟨spec', hspec', hreq'⟩, rfl⟩)
        · exact ⟨req, ⟨spec, List.mem_cons_self, hreq⟩, rfl⟩
        · exact ⟨req', ⟨spec', List.mem_cons_of_mem spec hspec', hreq'⟩, rfl⟩
      · rintro ⟨req', ⟨spec', hspec', hreq'⟩, rfl⟩
        rcases List.mem_cons.mp hspec' with rfl | hspec'
        · rw [hreq] at hreq'
          cases hreq'
          exact Or.inl rfl
        · exact Or.inr ⟨req', ⟨spec', hspec', hreq'⟩, rfl⟩

/-- The entries are the addresses of the requests. -/
theorem mem_collectAddrs (h : collectAddrs addr typ specs = .ok entries) :
    e ∈ entries ↔ ∃ req, Requests specs typ req ∧ addr req = e := by
  rw [mem_collectFrom h]
  simp

theorem nodup_addUnseen {v : Bytes} (h : seen.Nodup) : (addUnseen seen v).Nodup := by
  unfold addUnseen
  split
  · exact h
  · rename_i hv
    rw [List.nodup_append]
    refine ⟨h, by simp, ?_⟩
    intro a ha b hb hab
    rw [List.mem_singleton.mp hb] at hab
    exact hv (hab ▸ ha)

theorem collectAddrs_nodup (h : collectAddrs addr typ specs = .ok entries) : entries.Nodup := by
  unfold collectAddrs at h
  have hseen : ([] : List Bytes).Nodup := List.nodup_nil
  generalize ([] : List Bytes) = seen at h hseen
  induction specs generalizing seen with
  | nil =>
      cases h
      exact hseen
  | cons spec specs ih =>
      obtain ⟨seen', hstep, hrest⟩ := bind_eq_ok.mp h
      obtain ⟨req, _, hstep⟩ := bind_eq_ok.mp hstep
      cases hstep
      exact ih _ hrest (nodup_addUnseen hseen)

theorem collectAddrs_ok (h : ∀ spec ∈ specs, ∃ req, parseTunnelRequest spec typ = .ok req) :
    ∃ entries, collectAddrs addr typ specs = .ok entries := by
  unfold collectAddrs
  generalize ([] : List Bytes) = seen
  induction specs generalizing seen with
  | nil => exact ⟨seen, rfl⟩
  | cons spec specs ih =>
      obtain ⟨req, hreq⟩ := h spec List.mem_cons_self
      obtain ⟨entries, hentries⟩ := ih (fun s hs => h s (List.mem_cons_of_mem spec hs)) (addUnseen seen (addr req))
      refine ⟨entries, bind_eq_ok.mpr ⟨_, bind_eq_ok.mpr ⟨req, hreq, rfl⟩, hentries⟩⟩

/-! ### Validated specifications -/

theorem forM_eq_ok {f : Bytes → Except TunnelError Unit} (h : specs.forM f = .ok ()) :
    ∀ spec ∈ specs, f spec = .ok () := by
  induction specs with
  | nil => simp
  | cons spec specs ih =>
      obtain ⟨_, hspec, hrest⟩ := bind_eq_ok.mp h
      intro s hs
      rcases List.mem_cons.mp hs with rfl | hs
      · exact hspec
      · exact ih hrest s hs

theorem validatePort_ok {a : Bytes} (h : validatePort spec a = .ok ()) :
    ∃ host port, splitHostPort a = some (host, port) ∧ port ≠ [] := by
  unfold validatePort at h
  split at h
  · cases h
  · rename_i host port hsplit
    refine ⟨host, port, hsplit, ?_⟩
    rintro rfl
    cases h

theorem validateTunnelSpec_ok (h : validateTunnelSpec spec typ = .ok ()) :
    ∃ req, parseTunnelRequest spec typ = .ok req ∧
      (∃ host port, splitHostPort req.listenAddr = some (host, port) ∧ port ≠ []) ∧
      ∃ host port, splitHostPort req.targetAddr = some (host, port) ∧ port ≠ [] := by
  obtain ⟨req, hreq, h⟩ := bind_eq_ok.mp h
  obtain ⟨_, hlisten, htarget⟩ := bind_eq_ok.mp h
  exact ⟨req, hreq, validatePort_ok hlisten, validatePort_ok htarget⟩

theorem validateTunnelConfig_ok {localTunnels remoteTunnels allowListen allowForward : List Bytes}
    {allowAll : Bool}
    (h : validateTunnelConfig localTunnels remoteTunnels allowListen allowForward allowAll = .ok ()) :
    (∀ spec ∈ localTunnels, validateTunnelSpec spec .L = .ok ()) ∧
      ∀ spec ∈ remoteTunnels, validateTunnelSpec spec .R = .ok () := by
  unfold validateTunnelConfig at h
  dsimp only at h
  split at h
  · cases h
  · obtain ⟨_, hlocal, h⟩ := bind_eq_ok.mp h
    obtain ⟨_, hremote, _⟩ := bind_eq_ok.mp h
    exact ⟨forM_eq_ok hlocal, forM_eq_ok hremote⟩

/-- The address of a request of validated specifications has a port. -/
theorem Requests.split (hvalid : ∀ spec ∈ specs, validateTunnelSpec spec typ = .ok ())
    (h : Requests specs typ req) :
    (∃ host port, splitHostPort req.listenAddr = some (host, port) ∧ port ≠ []) ∧
      ∃ host port, splitHostPort req.targetAddr = some (host, port) ∧ port ≠ [] := by
  obtain ⟨spec, hspec, hreq⟩ := h
  obtain ⟨req', hreq', hsplit⟩ := validateTunnelSpec_ok (hvalid spec hspec)
  rw [hreq] at hreq'
  cases hreq'
  exact hsplit

end

/-! ### What a list of entries allows -/

theorem allowMatch_iff {lowerRunes : Bytes → Bytes} {entries : List Bytes} {addr : Bytes} :
    allowMatch lowerRunes entries addr = true ↔ ∃ host port, splitHostPort addr = some (host, port) ∧
      ∃ e ∈ entries, ∃ eHost, splitHostPort e = some (eHost, port) ∧
        (eHost = [] ∨ toLower lowerRunes eHost = toLower lowerRunes host) := by
  unfold allowMatch
  cases splitHostPort addr with
  | none => simp
  | some hp =>
      obtain ⟨host, port⟩ := hp
      simp only [List.any_eq_true, Option.some.injEq, Prod.mk.injEq]
      constructor
      · rintro ⟨e, he, hmatch⟩
        refine ⟨host, port, ⟨rfl, rfl⟩, e, he, ?_⟩
        cases hsplit : splitHostPort e with
        | none => simp [hsplit] at hmatch
        | some hp' =>
            obtain ⟨eHost, ePort⟩ := hp'
            simp only [hsplit, Bool.and_eq_true, decide_eq_true_eq, Bool.or_eq_true] at hmatch
            exact ⟨eHost, by rw [hmatch.1], hmatch.2⟩
      · rintro ⟨_, _, ⟨rfl, rfl⟩, e, he, eHost, hsplit, hhost⟩
        refine ⟨e, he, ?_⟩
        simp only [hsplit, Bool.and_eq_true, decide_eq_true_eq, Bool.or_eq_true]
        exact ⟨trivial, hhost⟩

/-- An entry allows the target it was made of, when its name is answered as at startup. -/
theorem forwardIPs_of_mem {a : TunnelAllow} {addr host port : Bytes} {ips : List IP} {startup : Resolver}
    {target : Bytes → Option (List IP)} (later : Nat → Resolver) (hmem : addr ∈ a.forward)
    (hsplit : splitHostPort addr = some (host, port)) (hhost : host ≠ []) (hips : ips ≠ [])
    (hstartup : ∀ i, startup i host = some ips) (htarget : target host = some ips) :
    ((a.resolve startup).forwardIPs target later addr).isSome := by
  obtain ⟨i, hget⟩ := List.mem_iff_getElem?.mp hmem
  have hsame : ∀ lookup : Bytes → Option (List IP), lookup host = some ips →
      resolveAllIPs lookup host = resolveAllIPs target host := by
    intro lookup hlookup
    rw [resolveAllIPs, resolveAllIPs, hlookup, htarget]
  have hne : resolveAllIPs target host ≠ [] := by
    unfold resolveAllIPs
    cases parseIP host with
    | some ip => simp
    | none => simpa [hhost, htarget] using hips
  have hpermitted : ∀ ip ∈ resolveAllIPs target host, Permitted startup a.forward ip port := by
    intro ip hip
    refine ⟨i, addr, host, hget, hsplit, Or.inr ⟨ip, ?_, IP.equal_self ip⟩⟩
    rw [hsame _ (hstartup i)]
    exact hip
  obtain ⟨ip, hip⟩ := List.exists_mem_of_ne_nil _ hne
  have hlive := live_of_permitted (hpermitted ip hip)
  have hmatch : ∀ j, (a.resolve startup).matchForwardIPs (later j) ip port = true := fun j =>
    (TunnelAllow.matchForwardIPs_of_live hlive).mpr (hpermitted ip hip)
  obtain ⟨j, hj⟩ := List.mem_iff_getElem?.mp hip
  have hallowed : ip ∈ ((resolveAllIPs target host).zipIdx.filter fun x =>
      (a.resolve startup).matchForwardIPs (later x.2) x.1 port).map Prod.fst :=
    List.mem_map.mpr ⟨(ip, j), List.mem_filter.mpr ⟨List.mem_zipIdx_iff_getElem?.mpr hj, hmatch j⟩, rfl⟩
  rw [TunnelAllow.forwardIPs, hsplit]
  dsimp only
  rw [if_neg (by simpa using hne)]
  split
  · rfl
  · rw [if_neg (by simpa using List.ne_nil_of_mem hallowed)]
    rfl

theorem forwardIPs_empty_host {a : TunnelAllow} {addr port : Bytes} {target : Bytes → Option (List IP)}
    {later : Nat → Resolver} (hsplit : splitHostPort addr = some ([], port)) :
    a.forwardIPs target later addr = none := by
  rw [TunnelAllow.forwardIPs, hsplit]
  rfl

/-! ### Enough and no more -/

/-- The allowlist covers the requests of the other side and nothing else. Answers of the resolver are
arbitrary, except that a target is asked for with a name that is answered as at startup. -/
structure Covers (lowerRunes : Bytes → Bytes) (localTunnels remoteTunnels : List Bytes) (a : TunnelAllow) :
    Prop where
  valid : a.validate = .ok ()
  listens : ∀ req, Requests remoteTunnels .R req → a.allowsListen lowerRunes req.listenAddr = true
  forwards : ∀ req, Requests localTunnels .L req → ∀ host port ips (startup : Resolver)
    (target : Bytes → Option (List IP)) (later : Nat → Resolver),
    splitHostPort req.targetAddr = some (host, port) → ips ≠ [] → (∀ i, startup i host = some ips) →
    target host = some ips → ((a.resolve startup).forwardIPs target later req.targetAddr).isSome
  noOtherListen : ∀ addr, a.allowsListen lowerRunes addr = true → ∃ req, Requests remoteTunnels .R req ∧
    ∃ host host' port, splitHostPort addr = some (host, port) ∧
      splitHostPort req.listenAddr = some (host', port) ∧ toLower lowerRunes host' = toLower lowerRunes host
  noOtherTarget : ∀ (startup later : Resolver) ip port,
    (a.resolve startup).matchForwardIPs later ip port = true → ∃ req, Requests localTunnels .L req ∧
      ∃ host, splitHostPort req.targetAddr = some (host, port) ∧
        ∃ i, ∃ x ∈ resolveAllIPs (startup i) host ++ resolveAllIPs (later i) host, x.equal ip = true

/-- No request has an empty host where the peer takes an entry from it. -/
def HostsNamed (localTunnels remoteTunnels : List Bytes) : Prop :=
  (∀ req, Requests localTunnels .L req → ∀ port, splitHostPort req.targetAddr ≠ some ([], port)) ∧
    ∀ req, Requests remoteTunnels .R req → ∀ port, splitHostPort req.listenAddr ≠ some ([], port)

section

variable {lowerRunes : Bytes → Bytes} {localTunnels remoteTunnels aL aF : List Bytes}

/-- Addresses that were taken from valid specs are valid entries. -/
theorem validate_collected (hlocal : ∀ spec ∈ localTunnels, validateTunnelSpec spec .L = .ok ())
    (hremote : ∀ spec ∈ remoteTunnels, validateTunnelSpec spec .R = .ok ())
    (haL : collectAddrs (·.listenAddr) .R remoteTunnels = .ok aL)
    (haF : collectAddrs (·.targetAddr) .L localTunnels = .ok aF) :
    TunnelAllow.validate { all := false, listen := aL, forward := aF } = .ok () := by
  have hvalid : ∀ e host port, splitHostPort e = some (host, port) → port ≠ [] →
      TunnelAllow.validEntry e = true := by
    intro e host port hsplit hport
    simp [TunnelAllow.validEntry, hsplit, hport]
  have hlisten : aL.filter (fun e => ¬ TunnelAllow.validEntry e) = [] := by
    rw [List.filter_eq_nil_iff]
    intro e he
    obtain ⟨req, hreq, rfl⟩ := (mem_collectAddrs haL).mp he
    obtain ⟨host, port, hsplit, hport⟩ := (hreq.split hremote).1
    simp [hvalid _ host port hsplit hport]
  have hforward : aF.filter (fun e => ¬ TunnelAllow.validEntry e) = [] := by
    rw [List.filter_eq_nil_iff]
    intro e he
    obtain ⟨req, hreq, rfl⟩ := (mem_collectAddrs haF).mp he
    obtain ⟨host, port, hsplit, hport⟩ := (hreq.split hlocal).2
    simp [hvalid _ host port hsplit hport]
  rw [TunnelAllow.validate]
  dsimp only
  rw [hlisten, hforward]
  rfl

/-- A permitted target is one of the requests' targets, unless a host is left out. -/
theorem request_of_permitted (haF : collectAddrs (·.targetAddr) .L localTunnels = .ok aF)
    (hnamed : HostsNamed localTunnels remoteTunnels) {resolver : Resolver} {ip : IP} {port : Bytes}
    (hpermitted : Permitted resolver aF ip port) : ∃ req, Requests localTunnels .L req ∧
      ∃ host, splitHostPort req.targetAddr = some (host, port) ∧
        ∃ i, ∃ x ∈ resolveAllIPs (resolver i) host, x.equal ip = true := by
  obtain ⟨i, e, host, hget, hsplit, hhost⟩ := hpermitted
  obtain ⟨req, hreq, rfl⟩ := (mem_collectAddrs haF).mp (List.mem_of_getElem? hget)
  refine ⟨req, hreq, host, hsplit, i, hhost.resolve_left ?_⟩
  rintro rfl
  exact hnamed.1 req hreq port hsplit

theorem covers_of_hostsNamed
    (hlocal : ∀ spec ∈ localTunnels, validateTunnelSpec spec .L = .ok ())
    (hremote : ∀ spec ∈ remoteTunnels, validateTunnelSpec spec .R = .ok ())
    (haL : collectAddrs (·.listenAddr) .R remoteTunnels = .ok aL)
    (haF : collectAddrs (·.targetAddr) .L localTunnels = .ok aF)
    (hnamed : HostsNamed localTunnels remoteTunnels) :
    Covers lowerRunes localTunnels remoteTunnels { all := false, listen := aL, forward := aF } where
  valid := validate_collected hlocal hremote haL haF
  listens := by
    intro req hreq
    obtain ⟨host, port, hsplit, _⟩ := (hreq.split hremote).1
    refine allowMatch_iff.mpr ⟨host, port, hsplit, req.listenAddr, ?_, host, hsplit, Or.inr rfl⟩
    exact (mem_collectAddrs haL).mpr ⟨req, hreq, rfl⟩
  forwards := by
    intro req hreq host port ips startup target later hsplit hips hstartup htarget
    have hhost : host ≠ [] := by
      rintro rfl
      exact hnamed.1 req hreq port hsplit
    exact forwardIPs_of_mem later ((mem_collectAddrs haF).mpr ⟨req, hreq, rfl⟩) hsplit hhost hips hstartup
      htarget
  noOtherListen := by
    intro addr haddr
    obtain ⟨host, port, hsplit, e, he, eHost, hentry, hhost⟩ := allowMatch_iff.mp haddr
    obtain ⟨req, hreq, rfl⟩ := (mem_collectAddrs haL).mp he
    refine ⟨req, hreq, host, eHost, port, hsplit, hentry, hhost.resolve_left ?_⟩
    rintro rfl
    exact hnamed.2 req hreq port hentry
  noOtherTarget := by
    intro startup later ip port hmatch
    by_cases hlive : Live startup aF
    · obtain ⟨req, hreq, host, hsplit, i, x, hx, hequal⟩ :=
        request_of_permitted haF hnamed ((TunnelAllow.matchForwardIPs_of_live hlive).mp hmatch)
      exact ⟨req, hreq, host, hsplit, i, x, List.mem_append_left _ hx, hequal⟩
    · obtain ⟨req, hreq, host, hsplit, i, x, hx, hequal⟩ :=
        request_of_permitted haF hnamed ((TunnelAllow.matchForwardIPs_of_not_live hlive).mp hmatch)
      exact ⟨req, hreq, host, hsplit, i, x, List.mem_append_right _ hx, hequal⟩

/-- A host in lower case that is in no given list. -/
theorem exists_fresh_host (l : List Bytes) : ∃ host : Bytes, host ≠ [] ∧ host ∉ l ∧
    (∀ f, toLower f host = host) ∧ ∀ c ∈ host, c = 97 := by
  refine ⟨List.replicate ((l.map List.length).sum + 1) 97, by simp, ?_, ?_, fun c => List.eq_of_mem_replicate⟩
  · intro hmem
    have hle := List.le_sum_of_mem (List.mem_map_of_mem (f := List.length) hmem)
    rw [List.length_replicate] at hle
    omega
  · intro f
    rw [toLower, if_pos (by simp), List.map_replicate]
    rfl

theorem hostsNamed_of_covers (haL : collectAddrs (·.listenAddr) .R remoteTunnels = .ok aL)
    (h : Covers lowerRunes localTunnels remoteTunnels { all := false, listen := aL, forward := aF }) :
    HostsNamed localTunnels remoteTunnels := by
  constructor
  · intro req hreq port hsplit
    have hsome := h.forwards req hreq [] port [[]] (fun _ _ => some [[]]) (fun _ => some [[]])
      (fun _ _ _ => none) hsplit (List.cons_ne_nil _ _) (fun _ => rfl) rfl
    rw [forwardIPs_empty_host hsplit] at hsome
    cases hsome
  · intro req hreq port hsplit
    -- a host none of the requests names, on the port the entry opens to all hosts
    let hostOf (e : Bytes) : Bytes := toLower lowerRunes ((splitHostPort e).getD ([], [])).1
    obtain ⟨fresh, hne, hfresh, hlower, hchars⟩ := exists_fresh_host (aL.map hostOf)
    obtain ⟨hplain, hcolon, _⟩ := splitHostPort_inv hsplit
    have hjoined : splitHostPort (joinHostPort fresh port) = some (fresh, port) := by
      apply splitHostPort_joinHostPort
      · intro hmem
        exact absurd (hchars 91 hmem) (by decide)
      · intro hmem
        exact absurd (hchars 93 hmem) (by decide)
      · intro c hc
        refine ⟨?_, hplain c (List.mem_append_right _ hc)⟩
        rintro rfl
        exact hcolon hc
    have hallowed : allowMatch lowerRunes aL (joinHostPort fresh port) = true :=
      allowMatch_iff.mpr ⟨fresh, port, hjoined, req.listenAddr,
        (mem_collectAddrs haL).mpr ⟨req, hreq, rfl⟩, [], hsplit, Or.inl rfl⟩
    obtain ⟨req', hreq', host, host', port', hsplit', hentry, hsame⟩ := h.noOtherListen _ hallowed
    rw [hjoined] at hsplit'
    cases hsplit'
    apply hfresh
    refine List.mem_map.mpr ⟨req'.listenAddr, (mem_collectAddrs haL).mpr ⟨req', hreq', rfl⟩, ?_⟩
    show toLower lowerRunes ((splitHostPort req'.listenAddr).getD ([], [])).1 = fresh
    rw [hentry, Option.getD_some, hsame, hlower]

end

/-- For validated specifications the command is printed. Its entries are the addresses of the requests, each of
them once, and the allowlist of these covers the requests and nothing else if and only if no entry has an
empty host. -/
theorem peer_command_covers_iff (lowerRunes : Bytes → Bytes) (code : Bytes)
    {localTunnels remoteTunnels allowListen allowForward : List Bytes} {allowAll : Bool}
    (hvalid : validateTunnelConfig localTunnels remoteTunnels allowListen allowForward allowAll = .ok ()) :
    ∃ aL aF, peerEntries localTunnels remoteTunnels = .ok (aL, aF) ∧
      tunnelPeerCommand code localTunnels remoteTunnels = .ok (
        if aL.length = 0 ∧ aF.length = 0 then []
        else ascii "QVOLE_CODE=" ++ code ++ ascii " qvole tunnel" ++ aL.flatMap (fun v => ascii " -aL " ++ v) ++
          aF.flatMap fun v => ascii " -aF " ++ v) ∧
      aL.Nodup ∧ (∀ e, e ∈ aL ↔ ∃ req, Requests remoteTunnels .R req ∧ req.listenAddr = e) ∧
      aF.Nodup ∧ (∀ e, e ∈ aF ↔ ∃ req, Requests localTunnels .L req ∧ req.targetAddr = e) ∧
      (Covers lowerRunes localTunnels remoteTunnels { all := false, listen := aL, forward := aF } ↔
        HostsNamed localTunnels remoteTunnels) := by
  obtain ⟨hlocal, hremote⟩ := validateTunnelConfig_ok hvalid
  have hparsed : ∀ {specs : List Bytes} {typ : TunnelType}, (∀ spec ∈ specs, validateTunnelSpec spec typ = .ok ()) →
      ∀ spec ∈ specs, ∃ req, parseTunnelRequest spec typ = .ok req := by
    intro specs typ h spec hspec
    obtain ⟨req, hreq, _⟩ := validateTunnelSpec_ok (h spec hspec)
    exact ⟨req, hreq⟩
  obtain ⟨aL, haL⟩ : ∃ aL, collectAddrs (·.listenAddr) .R remoteTunnels = .ok aL :=
    collectAddrs_ok (hparsed hremote)
  obtain ⟨aF, haF⟩ : ∃ aF, collectAddrs (·.targetAddr) .L localTunnels = .ok aF :=
    collectAddrs_ok (hparsed hlocal)
  have hentries : peerEntries localTunnels remoteTunnels = .ok (aL, aF) :=
    bind_eq_ok.mpr ⟨aL, haL, bind_eq_ok.mpr ⟨aF, haF, rfl⟩⟩
  refine ⟨aL, aF, hentries, bind_eq_ok.mpr ⟨_, hentries, rfl⟩, collectAddrs_nodup haL,
    fun e => mem_collectAddrs haL, collectAddrs_nodup haF, fun e => mem_collectAddrs haF, ?_⟩
  exact ⟨hostsNamed_of_covers haL, covers_of_hostsNamed hlocal hremote haL haF⟩

theorem requests_singleton {spec : Bytes} {typ : TunnelType} {req req' : TunnelRequest}
    (hparse : parseTunnelRequest spec typ = .ok req) (h : Requests [spec] typ req') : req' = req := by
  obtain ⟨spec', hspec, hreq⟩ := h
  rw [List.mem_singleton.mp hspec, hparse] at hreq
  exact (Except.ok.inj hreq).symm

/-- One request of each kind, both with names. -/
theorem peer_command_two_names : ∃ aL aF,
    validateTunnelConfig [ascii "8080:db.lan:5432"] [ascii "9000:localhost:22"] [] [] false = .ok () ∧
      peerEntries [ascii "8080:db.lan:5432"] [ascii "9000:localhost:22"] = .ok (aL, aF) ∧
      Covers id [ascii "8080:db.lan:5432"] [ascii "9000:localhost:22"]
        { all := false, listen := aL, forward := aF } := by
  have hvalid : validateTunnelConfig [ascii "8080:db.lan:5432"] [ascii "9000:localhost:22"] [] [] false =
      .ok () := by decide +kernel
  have hlocal : parseTunnelRequest (ascii "8080:db.lan:5432") .L =
      .ok ⟨.L, ascii "127.0.0.1:8080", ascii "db.lan:5432"⟩ := by decide +kernel
  have hremote : parseTunnelRequest (ascii "9000:localhost:22") .R =
      .ok ⟨.R, ascii "127.0.0.1:9000", ascii "localhost:22"⟩ := by decide +kernel
  have htarget : splitHostPort (ascii "db.lan:5432") = some (ascii "db.lan", ascii "5432") := by decide +kernel
  have hlisten : splitHostPort (ascii "127.0.0.1:9000") = some (ascii "127.0.0.1", ascii "9000") := by
    decide +kernel
  obtain ⟨aL, aF, hentries, _, _, _, _, _, hcovers⟩ := peer_command_covers_iff id [] hvalid
  refine ⟨aL, aF, hvalid, hentries, hcovers.mpr ⟨?_, ?_⟩⟩
  · intro req hreq port hsplit
    rw [requests_singleton hlocal hreq, htarget] at hsplit
    cases hsplit
  · intro req hreq port hsplit
    rw [requests_singleton hremote hreq, hlisten] at hsplit
    cases hsplit

/-- A target without a host is accepted. The entry made of it lets the peer's side be used to reach every
host on its port, and does not serve the request. -/
theorem peer_command_wildcard :
    validateTunnelConfig [ascii "8080::80"] [] [] [] false = .ok () ∧
      peerEntries [ascii "8080::80"] [] = .ok ([], [ascii ":80"]) ∧
      (TunnelAllow.resolve (fun _ _ => none)
        { all := false, listen := [], forward := [ascii ":80"] }).matchForwardIPs (fun _ _ => none)
        [10, 0, 0, 7] (ascii "80") = true ∧
      ¬ Covers id [ascii "8080::80"] [] { all := false, listen := [], forward := [ascii ":80"] } := by
  have hparse : parseTunnelRequest (ascii "8080::80") .L =
      .ok ⟨.L, ascii "127.0.0.1:8080", ascii ":80"⟩ := by decide +kernel
  have hsplit : splitHostPort (ascii ":80") = some ([], ascii "80") := by decide +kernel
  refine ⟨by decide +kernel, by decide +kernel, by decide +kernel, fun hcovers => ?_⟩
  exact (hostsNamed_of_covers rfl hcovers).1 _ ⟨_, List.mem_singleton.mpr rfl, hparse⟩ _ hsplit

end Qvole.App
