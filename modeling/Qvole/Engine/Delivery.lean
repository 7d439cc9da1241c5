import Qvole.Engine.Tables

/-!
# The order of delivery does not matter

The payload of the peer and its confirmation may come in either order, and anything may come between. As
long as the bounds of the tables are not reached, nothing that was of use is lost: while the loop runs, its
candidates are all valid payloads read so far, its buffer holds all confirmations read so far, and no
candidate accepts any of these confirmations. The later of the two messages therefore finds the earlier one.
-/

namespace Qvole.Engine

open Lib Spake2

variable {Pt : Type} [AddCommGroup Pt] [DecidableEq Pt] {x : Session Pt} {p : Pass} {ps : List Pass}
  {s s' : Exchange} {data hexBody key : Bytes} {cand : PeerCandidate} {k : Candidate}

/-! ### What the loop receives -/

/-- The loop makes the pass, in this state. -/
def Session.Makes (x : Session Pt) (ps : List Pass) (s₀ s : Exchange) (p : Pass) : Prop :=
  ∃ front back, ps = front ++ p :: back ∧ x.loop front s₀ = (s, none)

/-- The pass reads a valid payload, to be filed under the key. -/
def Session.ValidAt (x : Session Pt) (s : Exchange) (p : Pass) (key : Bytes) : Prop :=
  ∃ data, p.read = .datagram data ∧ x.Valid s p data key

/-- The body of the confirmation that is read. -/
def Pass.confirmBody (p : Pass) : Option Bytes :=
  match p.read with
  | .datagram data => msgdBody (ascii "confirm") data
  | _ => none

/-- The inbound limit discards what the pass reads. -/
def Session.Discards (x : Session Pt) (s : Exchange) (p : Pass) : Prop :=
  ∃ data, p.read = .datagram data ∧ isMsgd data = true ∧
    ((x.send p s).state.limitInbound p.received).1 = true

/-- The confirmation is accepted with the keys of the candidate. -/
def Session.Accepts (x : Session Pt) (k : Candidate) (hexBody : Bytes) : Prop :=
  ∃ addr, processConfirmMsg x.curve x.gcm hexBody k.confirmKey k.encKey k.effectiveMyPoint
    k.effectivePeerPoint x.myFingerprint k.peerFingerprint = .ok addr

theorem Session.makes_here (x : Session Pt) (p : Pass) (ps : List Pass) (s : Exchange) :
    x.Makes (p :: ps) s s p := ⟨[], ps, rfl, rfl⟩

theorem Session.makes_later (hexit : (x.pass p s).exit = none) {t : Exchange} {q : Pass}
    (h : x.Makes ps (x.pass p s).state t q) : x.Makes (p :: ps) s t q := by
  obtain ⟨front, back, rfl, hloop⟩ := h
  refine ⟨p :: front, back, rfl, ?_⟩
  rw [Session.loop, hexit]
  exact hloop

theorem Session.makes_cons {t : Exchange} {q : Pass} (h : x.Makes (p :: ps) s t q) :
    (t = s ∧ q = p) ∨ x.Makes ps (x.pass p s).state t q := by
  obtain ⟨front, back, hps, hloop⟩ := h
  cases front with
  | nil =>
      cases hps
      cases hloop
      exact Or.inl ⟨rfl, rfl⟩
  | cons p' front =>
      cases hps
      rw [Session.loop] at hloop
      split at hloop
      · exact Or.inr ⟨front, back, rfl, hloop⟩
      · cases hloop

theorem Session.valid_kept (hkept : s.Kept s') : x.Valid s' p data key ↔ x.Valid s p data key := by
  rw [Session.Valid, Session.Valid, hkept.myAddr]

/-! ### A loop that waits -/

theorem Session.Holds.accept_eq_none {keys : Buffers} (h : x.Holds keys key cand) :
    (x.accept keys cand hexBody).toOption = none ↔ ∀ k, x.process key = .ok k → ¬ x.Accepts k hexBody := by
  have haccept : (x.accept keys cand hexBody).toOption = none ↔
      ¬ ∃ addr, x.accept keys cand hexBody = .ok addr := by
    cases x.accept keys cand hexBody with
    | error e => simp [Except.toOption]
    | ok addr => simp [Except.toOption]
  rw [haccept]
  constructor
  · intro hnone k hk
    cases h.yields.symm.trans hk
    exact hnone
  · intro hall
    exact hall _ h.yields

/-- No candidate accepts a confirmation of the buffer. -/
structure Session.Waiting (x : Session Pt) (s : Exchange) : Prop where
  tables : x.Tables s
  unmatched : ∀ hexBody ∈ s.bufferedConfirms, ∀ key ∈ s.candidates, ∀ k, x.process key = .ok k →
    ¬ x.Accepts k hexBody

theorem Session.Waiting.start (myAddr : Bytes) : x.Waiting (.start myAddr) where
  tables := .start myAddr
  unmatched _ h := by cases h

theorem Session.Waiting.kept (h : x.Waiting s) (hkept : s.Kept s') : x.Waiting s' where
  tables := h.tables.kept hkept
  unmatched := by
    rw [hkept.bufferedConfirms, hkept.candidates]
    exact h.unmatched

/-- What was read is not lost: a valid payload is a candidate, and a confirmation is in the buffer. -/
structure Session.TakesIn (x : Session Pt) (valid : Bytes → Prop) (body : Option Bytes) (s s' : Exchange) :
    Prop where
  waiting : x.Waiting s'
  candidates_iff : ∀ key, key ∈ s'.candidates ↔ key ∈ s.candidates ∨ valid key
  buffered : s'.bufferedConfirms = s.bufferedConfirms ++ body.toList

omit [DecidableEq Pt] in
theorem bufferedConfirms_addCandidate {cp : Bytes} :
    (x.addCandidate p key k cp s).state.bufferedConfirms = s.bufferedConfirms := by
  show (Exchange.makeRoom p.order { s with keys := _ }).bufferedConfirms = s.bufferedConfirms
  unfold Exchange.makeRoom
  split
  · rfl
  · rfl

omit [DecidableEq Pt] in
/-- If the loop goes on, the new candidate accepts none of the confirmations that were waiting. -/
theorem accept_of_addCandidate {cp : Bytes} (h : (x.addCandidate p key k cp s).exit = none)
    (hbody : hexBody ∈ (x.addCandidate p key k cp s).state.bufferedConfirms)
    (hcand : (x.addCandidate p key k cp s).state.candidates.lookup key = some cand) :
    (x.accept (x.addCandidate p key k cp s).state.keys cand hexBody).toOption = none := by
  cases (AList.lookup_insert _).symm.trans hcand
  exact List.findSome?_eq_none_iff.mp (Option.map_eq_none_iff.mp h) hexBody hbody

omit [DecidableEq Pt] in
/-- Nobody is evicted while there is room. -/
theorem mem_addCandidate {cp key' : Bytes} (hroom : s.candidates.size < maxCandidates) :
    key' ∈ (x.addCandidate p key k cp s).state.candidates ↔ key' = key ∨ key' ∈ s.candidates := by
  show key' ∈ (Exchange.makeRoom p.order { s with keys := _ }).candidates.insert key _ ↔ _
  rw [Exchange.makeRoom, if_neg (Nat.not_le.mpr hroom), GoMap.mem_insert_if]

theorem Session.Waiting.addCandidate {cp : Bytes} (h : x.Waiting s) (hkey : payloadHex hexBody = some key)
    (hk : x.process hexBody = .ok k) (hroom : s.candidates.size < maxCandidates)
    (hexit : (x.addCandidate p key k cp s).exit = none) : x.Waiting (x.addCandidate p key k cp s).state := by
  have htables := h.tables.addCandidate hkey hk p cp
  refine ⟨htables, ?_⟩
  intro body hbody key' hkey'
  rcases (mem_addCandidate hroom).mp hkey' with rfl | hold
  · obtain ⟨cand, hcand⟩ := GoMap.lookup_of_mem hkey'
    exact (htables.holds hcand).accept_eq_none.mp (accept_of_addCandidate hexit hbody hcand)
  · rw [bufferedConfirms_addCandidate] at hbody
    exact h.unmatched body hbody key' hold

theorem Outcome.takesIn {t : Turn} (hout : Outcome x p data s t) (h : x.Waiting s) (hexit : t.exit = none)
    (hcand : ∀ key, x.Valid s p data key → key ∉ s.candidates → s.candidates.size < maxCandidates)
    (hbuffer : ∀ hexBody, msgdBody (ascii "confirm") data = some hexBody →
      s.bufferedConfirms.length < maxBufferedConfirms) :
    x.TakesIn (x.Valid s p data) (msgdBody (ascii "confirm") data) s t.state := by
  have htables := h.tables.outcome hout
  cases hout with
  | ignored hknown hfull =>
      have hnone : msgdBody (ascii "confirm") data = none := by
        apply Option.eq_none_iff_forall_ne_some.mpr
        intro hexBody hbody
        exact Nat.not_lt.mpr (hfull hexBody hbody) (hbuffer hexBody hbody)
      rw [hnone]
      exact ⟨h, fun key => (or_iff_left_of_imp (hknown key)).symm, (List.append_nil _).symm⟩
  | registration reg myAddr hspake2 hconfirm =>
      rw [hconfirm]
      refine ⟨⟨htables, h.unmatched⟩, ?_, (List.append_nil _).symm⟩
      intro key
      exact (or_iff_left (Session.not_valid hspake2)).symm
  | discarded k hinvalid hconfirm =>
      rw [hconfirm]
      refine ⟨⟨htables, h.unmatched⟩, ?_, (List.append_nil _).symm⟩
      intro key
      exact (or_iff_left (hinvalid key)).symm
  | @added hexBody key k cp hbody hkey hnew hk hcp hconfirm =>
      have hvalid : x.Valid s p data key := ⟨hexBody, k, cp, hbody, hkey, hk, hcp⟩
      have hroom := hcand key hvalid hnew
      rw [hconfirm]
      refine ⟨h.addCandidate hkey hk hroom hexit, ?_, ?_⟩
      · intro key'
        rw [mem_addCandidate hroom, or_comm]
        refine or_congr_right ⟨?_, ?_⟩
        · rintro rfl
          exact hvalid
        · intro hvalid'
          exact Option.some.inj (((Session.valid_iff hbody).mp hvalid').1.symm.trans hkey)
      · rw [bufferedConfirms_addCandidate]
        exact (List.append_nil _).symm
  | authenticated => cases hexit
  | @buffered hexBody hbody hspake2 hnone hroom =>
      rw [hbody]
      refine ⟨⟨htables, ?_⟩, ?_, rfl⟩
      · intro body hmem key hkey
        rcases List.mem_append.mp hmem with hmem | hmem
        · exact h.unmatched body hmem key hkey
        · obtain ⟨cand, hlookup⟩ := GoMap.lookup_of_mem hkey
          cases List.mem_singleton.mp hmem
          exact (h.tables.holds hlookup).accept_eq_none.mp (hnone key cand hlookup)
      · intro key
        exact (or_iff_left (Session.not_valid hspake2)).symm

/-! ### Passes -/

theorem confirmBody_of_read (hread : p.read = .datagram data) :
    p.confirmBody = msgdBody (ascii "confirm") data := by
  rw [Pass.confirmBody, hread]

theorem validAt_of_read (hread : p.read = .datagram data) : x.ValidAt s p key ↔ x.Valid s p data key := by
  constructor
  · rintro ⟨data', hread', hvalid⟩
    cases hread.symm.trans hread'
    exact hvalid
  · intro hvalid
    exact ⟨data, hread, hvalid⟩

/-- The datagram is handled in a state that differs from that before the pass in the times at most. -/
theorem Session.receive_of_not_discards (hread : p.read = .datagram data) (hdiscards : ¬ x.Discards s p) :
    ∃ s', s.Kept s' ∧ x.receive p data (x.send p s).state = x.handle p data s' := by
  have hsend := (x.send_kept p s).1
  by_cases hmsgd : isMsgd data = true
  · refine ⟨_, hsend.trans (Exchange.limitInbound_kept p.received _), ?_⟩
    apply Session.receive_msgd hmsgd
    rw [Bool.eq_false_iff]
    intro hlimit
    exact hdiscards ⟨data, hread, hmsgd, hlimit⟩
  · exact ⟨_, hsend, if_neg hmsgd⟩

theorem Session.pass_takesIn (h : x.Waiting s) (hexit : (x.pass p s).exit = none)
    (hdiscards : ¬ x.Discards s p)
    (hcand : ∀ key, x.ValidAt s p key → key ∉ s.candidates → s.candidates.size < maxCandidates)
    (hbuffer : ∀ hexBody, p.confirmBody = some hexBody → s.bufferedConfirms.length < maxBufferedConfirms) :
    x.TakesIn (x.ValidAt s p) p.confirmBody s (x.pass p s).state := by
  have hsend := (x.send_kept p s).1
  unfold Session.pass at hexit ⊢
  split at hexit
  · cases hexit
  split at hexit
  · cases hexit
  rw [if_neg ‹_›, if_neg ‹_›]
  dsimp only at hexit ⊢
  cases hread : p.read with
  | failed =>
      rw [hread] at hexit
      cases hexit
  | timeout =>
      have hnot : ∀ key, ¬ x.ValidAt s p key := by
        rintro key ⟨data, hdata, _⟩
        rw [hread] at hdata
        cases hdata
      have hbody : p.confirmBody = none := by rw [Pass.confirmBody, hread]
      rw [hbody]
      refine ⟨h.kept hsend, ?_, hsend.bufferedConfirms.trans (List.append_nil _).symm⟩
      intro key
      rw [hsend.candidates]
      exact (or_iff_left (hnot key)).symm
  | datagram data =>
      rw [hread] at hexit
      dsimp only at hexit ⊢
      obtain ⟨s', hkept, hreceive⟩ := Session.receive_of_not_discards hread hdiscards
      rw [hreceive] at hexit ⊢
      simp only [validAt_of_read hread] at hcand
      rw [confirmBody_of_read hread] at hbuffer ⊢
      have htakes := (x.handle_outcome p data s').takesIn (h.kept hkept) hexit
        (by simpa only [hkept.candidates, Session.valid_kept hkept] using hcand)
        (by simpa only [hkept.bufferedConfirms] using hbuffer)
      refine ⟨htakes.waiting, ?_, ?_⟩
      · intro key
        rw [htakes.candidates_iff, hkept.candidates, Session.valid_kept hkept, validAt_of_read hread]
      · rw [htakes.buffered, hkept.bufferedConfirms]

/-- As long as the loop runs within its bounds, every valid payload it has read is a candidate and every
confirmation it has read is in the buffer. -/
theorem Session.loop_takesIn (h : x.Waiting s) (hexit : (x.loop ps s).2 = none)
    (hdiscards : ∀ t p, x.Makes ps s t p → ¬ x.Discards t p) {valid : Finset Bytes}
    (hcard : valid.card ≤ maxCandidates) (hcandidates : ∀ key ∈ s.candidates, key ∈ valid)
    (hvalid : ∀ t p key, x.Makes ps s t p → x.ValidAt t p key → key ∈ valid)
    (hconfirms : s.bufferedConfirms.length + (ps.filterMap Pass.confirmBody).length ≤ maxBufferedConfirms) :
    x.Waiting (x.loop ps s).1 ∧
      (∀ key ∈ s.candidates, key ∈ (x.loop ps s).1.candidates) ∧
      (∀ t p key, x.Makes ps s t p → x.ValidAt t p key → key ∈ (x.loop ps s).1.candidates) ∧
      (x.loop ps s).1.bufferedConfirms = s.bufferedConfirms ++ ps.filterMap Pass.confirmBody := by
  induction ps generalizing s with
  | nil =>
      refine ⟨h, fun _ => id, ?_, (List.append_nil _).symm⟩
      rintro t p key ⟨front, back, hps, _⟩
      simp at hps
  | cons p ps ih =>
      rw [Session.loop] at hexit ⊢
      cases hpass : (x.pass p s).exit with
      | some exit =>
          rw [hpass] at hexit
          cases hexit
      | none =>
          rw [hpass] at hexit
          dsimp only at hexit ⊢
          have hhere := x.makes_here p ps s
          have htakes : x.TakesIn (x.ValidAt s p) p.confirmBody s (x.pass p s).state := by
            refine Session.pass_takesIn h hpass (hdiscards s p hhere) ?_ ?_
            · intro key hkey hnew
              exact (GoMap.size_lt_card hcandidates (hvalid s p key hhere hkey) hnew).trans_le hcard
            · intro hexBody hbody
              rw [List.filterMap_cons_some hbody, List.length_cons] at hconfirms
              omega
          have hbuffered : (x.pass p s).state.bufferedConfirms ++ ps.filterMap Pass.confirmBody =
              s.bufferedConfirms ++ (p :: ps).filterMap Pass.confirmBody := by
            rw [htakes.buffered, List.append_assoc, List.filterMap_cons]
            cases p.confirmBody with
            | none => rfl
            | some hexBody => rfl
          obtain ⟨hwaiting, hkeep, hadd, hbuffer⟩ := ih htakes.waiting hexit
            (fun t q hmakes => hdiscards t q (Session.makes_later hpass hmakes))
            (fun key hkey => ((htakes.candidates_iff key).mp hkey).elim (hcandidates key)
              (hvalid s p key hhere))
            (fun t q key hmakes => hvalid t q key (Session.makes_later hpass hmakes))
            (by rw [← List.length_append, hbuffered, List.length_append]; exact hconfirms)
          refine ⟨hwaiting, ?_, ?_, hbuffer.trans hbuffered⟩
          · intro key hkey
            exact hkeep key ((htakes.candidates_iff key).mpr (Or.inl hkey))
          · intro t q key hmakes hkey
            rcases Session.makes_cons hmakes with ⟨rfl, rfl⟩ | hmakes
            · exact hkeep key ((htakes.candidates_iff key).mpr (Or.inr hkey))
            · exact hadd t q key hmakes hkey

/-! ### What ends the loop -/

omit [DecidableEq Pt] in
/-- The loop ends with a new candidate if it accepts a confirmation that was waiting. -/
theorem addCandidate_exit {cp : Bytes} {exit : Exit} (h : (x.addCandidate p key k cp s).exit = some exit) :
    ∃ cand body addr, (x.addCandidate p key k cp s).state.candidates.lookup key = some cand ∧
      x.accept (x.addCandidate p key k cp s).state.keys cand body = .ok addr ∧
      body ∈ (x.addCandidate p key k cp s).state.bufferedConfirms ∧
      exit = .authenticated addr cand.fingerprint cand.isServer := by
  obtain ⟨addr, haddr, rfl⟩ := Option.map_eq_some_iff.mp h
  obtain ⟨body, hbody, haccept⟩ := List.exists_of_findSome?_eq_some haddr
  refine ⟨_, body, addr, AList.lookup_insert _, ?_, hbody, rfl⟩
  exact toOption_eq_some.mp haccept

/-- A datagram ends the loop only if a candidate of the table accepts a confirmation that was read now or
before. -/
theorem Outcome.exit {t : Turn} {exit : Exit} (hout : Outcome x p data s t) (h : t.exit = some exit) :
    ∃ key cand body addr, t.state.candidates.lookup key = some cand ∧
      x.accept t.state.keys cand body = .ok addr ∧
      (body ∈ s.bufferedConfirms ∨ msgdBody (ascii "confirm") data = some body) ∧
      exit = .authenticated addr cand.fingerprint cand.isServer := by
  cases hout with
  | ignored => cases h
  | registration => cases h
  | discarded => cases h
  | added =>
      obtain ⟨cand, body, addr, hcand, haccept, hbody, hexit⟩ := addCandidate_exit h
      rw [bufferedConfirms_addCandidate] at hbody
      exact ⟨_, cand, body, addr, hcand, haccept, Or.inl hbody, hexit⟩
  | authenticated hbody hcand haccept =>
      cases h
      exact ⟨_, _, _, _, hcand, haccept, Or.inr hbody, rfl⟩
  | buffered => cases h

/-- The body of the payload that is read. -/
def Pass.payloadBody (p : Pass) : Option Bytes :=
  match p.read with
  | .datagram data => msgdBody (ascii "spake2") data
  | _ => none

theorem payloadBody_of_read (hread : p.read = .datagram data) :
    p.payloadBody = msgdBody (ascii "spake2") data := by
  rw [Pass.payloadBody, hread]

/-- What the loop returns: the address that a confirmation it has read names, accepted with the keys of a
payload it has read, and the fingerprint and the role of this payload. -/
def Session.Authentic (x : Session Pt) (ps : List Pass) (peerAddr peerFingerprint : Bytes) (isServer : Bool) :
    Prop :=
  ∃ payload ∈ ps.filterMap Pass.payloadBody, ∃ confirm ∈ ps.filterMap Pass.confirmBody, ∃ k,
    x.process payload = .ok k ∧
    processConfirmMsg x.curve x.gcm confirm k.confirmKey k.encKey k.effectiveMyPoint k.effectivePeerPoint
      x.myFingerprint k.peerFingerprint = .ok peerAddr ∧
    peerFingerprint = k.peerFingerprint ∧ isServer = k.isServer

/-- How the loop can end. -/
inductive Session.Ends (x : Session Pt) (ps : List Pass) : Exit → Prop
  | cancelled {p : Pass} (hp : p ∈ ps) (hcancelled : p.cancelled = true) : Ends x ps .cancelled
  | timeout {p : Pass} (hp : p ∈ ps) (hlate : x.deadline < p.now) : Ends x ps .timeout
  | readFailed {p : Pass} (hp : p ∈ ps) (hfailed : p.read = .failed) : Ends x ps .readFailed
  | authenticated {peerAddr peerFingerprint : Bytes} {isServer : Bool}
      (h : x.Authentic ps peerAddr peerFingerprint isServer) :
      Ends x ps (.authenticated peerAddr peerFingerprint isServer)

/-- Everything in the tables was read in one of the passes. -/
structure Session.Sourced (x : Session Pt) (ps : List Pass) (s : Exchange) : Prop where
  tables : x.Tables s
  payload : ∀ key ∈ s.candidates, ∃ hexBody ∈ ps.filterMap Pass.payloadBody, payloadHex hexBody = some key
  confirm : ∀ body ∈ s.bufferedConfirms, body ∈ ps.filterMap Pass.confirmBody

namespace Session.Sourced

theorem start (ps : List Pass) (myAddr : Bytes) : x.Sourced ps (.start myAddr) where
  tables := .start myAddr
  payload key h := absurd h (AList.notMem_empty key)
  confirm _ h := absurd h List.not_mem_nil

theorem kept (h : x.Sourced ps s) (hkept : s.Kept s') : x.Sourced ps s' where
  tables := h.tables.kept hkept
  payload := by
    rw [hkept.candidates]
    exact h.payload
  confirm := by
    rw [hkept.bufferedConfirms]
    exact h.confirm

theorem outcome (h : x.Sourced ps s) {t : Turn} (hout : Outcome x p data s t) (hp : p ∈ ps)
    (hread : p.read = .datagram data) : x.Sourced ps t.state := by
  have htables := h.tables.outcome hout
  cases hout with
  | ignored => exact h
  | registration => exact ⟨htables, h.payload, h.confirm⟩
  | discarded => exact ⟨htables, h.payload, h.confirm⟩
  | @added hexBody key k cp hbody hkey hnew hk hcp =>
      refine ⟨htables, fun key' hkey' => ?_, ?_⟩
      · rcases GoMap.mem_insert_if.mp hkey' with rfl | hold
        · exact ⟨hexBody, List.mem_filterMap.mpr ⟨p, hp, (payloadBody_of_read hread).trans hbody⟩, hkey⟩
        · obtain ⟨cand, hcand⟩ := GoMap.lookup_of_mem hold
          exact h.payload key' (GoMap.mem_of_lookup (Session.Tables.lookup_of_makeRoom
            (s := { s with keys := s.keys ++ [k.confirmKey, k.encKey] }) hcand))
      · rw [bufferedConfirms_addCandidate]
        exact h.confirm
  | authenticated => exact h
  | buffered hbody =>
      refine ⟨htables, h.payload, fun body hmem => ?_⟩
      rcases List.mem_append.mp hmem with hmem | hmem
      · exact h.confirm body hmem
      · rw [List.mem_singleton.mp hmem]
        exact List.mem_filterMap.mpr ⟨p, hp, (confirmBody_of_read hread).trans hbody⟩

theorem authentic (h : x.Sourced ps s) {t : Turn} {exit : Exit} (hout : Outcome x p data s t) (hp : p ∈ ps)
    (hread : p.read = .datagram data) (hexit : t.exit = some exit) : x.Ends ps exit := by
  have hafter := h.outcome hout hp hread
  obtain ⟨key, cand, body, addr, hcand, haccept, hbody, rfl⟩ := hout.exit hexit
  -- the candidate was derived from a payload that was read, and accepts a confirmation that was read
  obtain ⟨payload, hpayload, hkey⟩ := hafter.payload key (GoMap.mem_of_lookup hcand)
  have hyields := (hafter.tables.holds hcand).yields
  rw [Session.process_payloadHex hkey] at hyields
  refine .authenticated ⟨payload, hpayload, body, ?_, _, hyields, haccept, rfl, rfl⟩
  rcases hbody with hbody | hbody
  · exact h.confirm body hbody
  · exact List.mem_filterMap.mpr ⟨p, hp, (confirmBody_of_read hread).trans hbody⟩

theorem receive (h : x.Sourced ps s) (hp : p ∈ ps) (hread : p.read = .datagram data) :
    x.Sourced ps (x.receive p data s).state ∧
      ∀ exit, (x.receive p data s).exit = some exit → x.Ends ps exit := by
  have hlimit := h.kept (s.limitInbound_kept p.received)
  unfold Session.receive
  split
  · dsimp only
    split
    · exact ⟨hlimit, fun exit hexit => by cases hexit⟩
    · have hout := x.handle_outcome p data (s.limitInbound p.received).2
      exact ⟨hlimit.outcome hout hp hread, fun exit => hlimit.authentic hout hp hread⟩
  · have hout := x.handle_outcome p data s
    exact ⟨h.outcome hout hp hread, fun exit => h.authentic hout hp hread⟩

theorem pass (h : x.Sourced ps s) (hp : p ∈ ps) :
    x.Sourced ps (x.pass p s).state ∧ ∀ exit, (x.pass p s).exit = some exit → x.Ends ps exit := by
  obtain ⟨hkept, hrunning⟩ := x.send_kept p s
  have hsend := h.kept hkept
  unfold Session.pass
  split
  · rename_i hcancelled
    refine ⟨h, fun exit hexit => ?_⟩
    cases hexit
    exact .cancelled hp hcancelled
  split
  · rename_i hlate
    refine ⟨h, fun exit hexit => ?_⟩
    cases hexit
    exact .timeout hp hlate
  dsimp only
  split
  · refine ⟨hsend, fun exit hexit => ?_⟩
    rw [hrunning] at hexit
    cases hexit
  · rename_i hread
    refine ⟨hsend, fun exit hexit => ?_⟩
    cases hexit
    exact .readFailed hp hread
  · exact hsend.receive hp ‹_›

theorem loop {all : List Pass} {exit : Exit} (h : x.Sourced all s) (hps : ∀ p ∈ ps, p ∈ all)
    (hexit : (x.loop ps s).2 = some exit) : x.Ends all exit := by
  induction ps generalizing s with
  | nil => cases hexit
  | cons p ps ih =>
      obtain ⟨hstate, hends⟩ := h.pass (hps p List.mem_cons_self)
      rw [Session.loop] at hexit
      cases hpass : (x.pass p s).exit with
      | none =>
          rw [hpass] at hexit
          exact ih hstate (fun q hq => hps q (List.mem_cons_of_mem p hq)) hexit
      | some exit' =>
          rw [hpass] at hexit
          cases hexit
          exact hends exit hpass

end Session.Sourced

theorem Session.loop_ends {exit : Exit} {myAddr : Bytes} (h : (x.loop ps (.start myAddr)).2 = some exit) :
    x.Ends ps exit :=
  (Session.Sourced.start ps myAddr).loop (fun _ => id) h

/-! ### Both messages of the peer -/

/-- One of the passes reads the payload from which the keys are derived, and a confirmation can be built if
the loop gets there. -/
def Session.ReadsPayload (x : Session Pt) (ps : List Pass) (s₀ : Exchange) (k : Candidate) : Prop :=
  ∃ front p back data hexBody, ps = front ++ p :: back ∧ p.read = .datagram data ∧
    msgdBody (ascii "spake2") data = some hexBody ∧ x.process hexBody = .ok k ∧
    ∀ s, x.loop front s₀ = (s, none) → ∃ cp, x.confirm k s.myAddr p.draws = .ok cp

/-- One of the passes reads a confirmation that is accepted with these keys. -/
def Session.ReadsConfirm (x : Session Pt) (ps : List Pass) (k : Candidate) : Prop :=
  ∃ p ∈ ps, ∃ hexBody, p.confirmBody = some hexBody ∧ x.Accepts k hexBody

theorem payloadHex_of_process (hk : x.process hexBody = .ok k) : ∃ key, payloadHex hexBody = some key := by
  obtain ⟨_, hrole, _⟩ := processSpakeMsg_inv hk
  obtain ⟨payload, hdecode, hrole⟩ := bind_eq_ok.mp hrole
  rw [payloadHex, decodeBody_eq_ok.mp hdecode]
  dsimp only
  split at hrole
  · cases hrole
  · exact ⟨_, if_neg ‹_›⟩

/-- Once a valid payload and a confirmation that goes with it have been read, in whatever order and between
whatever else, the loop has returned an authenticated peer: the fingerprint and the role of a payload it has
read, and the address of a confirmation it has read and accepted with the keys of this payload. The valid
payloads have to fit into the table and the confirmations into the buffer, nothing may be dropped by the
inbound limit, and neither the context, the deadline nor a failed read may have ended the loop. -/
theorem exchange_any_order (x : Session Pt) (myAddr : Bytes) (ps : List Pass) (k : Candidate)
    (hpayload : x.ReadsPayload ps (.start myAddr) k) (hconfirm : x.ReadsConfirm ps k)
    (valid : Finset Bytes) (hcard : valid.card ≤ maxCandidates)
    (hvalid : ∀ s p key, x.Makes ps (.start myAddr) s p → x.ValidAt s p key → key ∈ valid)
    (hconfirms : (ps.filterMap Pass.confirmBody).length ≤ maxBufferedConfirms)
    (hdiscards : ∀ s p, x.Makes ps (.start myAddr) s p → ¬ x.Discards s p)
    (hcancelled : (x.loop ps (.start myAddr)).2 ≠ some .cancelled)
    (htimeout : (x.loop ps (.start myAddr)).2 ≠ some .timeout)
    (hfailed : (x.loop ps (.start myAddr)).2 ≠ some .readFailed) :
    ∃ peerAddr peerFingerprint isServer,
      (x.loop ps (.start myAddr)).2 = some (.authenticated peerAddr peerFingerprint isServer) ∧
      x.Authentic ps peerAddr peerFingerprint isServer := by
  cases hexit : (x.loop ps (.start myAddr)).2 with
  | some exit =>
      cases Session.loop_ends hexit with
      | cancelled => exact absurd hexit hcancelled
      | timeout => exact absurd hexit htimeout
      | readFailed => exact absurd hexit hfailed
      | authenticated hauthentic => exact ⟨_, _, _, rfl, hauthentic⟩
  | none =>
      exfalso
      obtain ⟨hwaiting, _, hadd, hbuffer⟩ := Session.loop_takesIn (Session.Waiting.start myAddr) hexit
        hdiscards hcard (fun key hkey => absurd hkey (AList.notMem_empty key)) hvalid
        (by rw [show (Exchange.start myAddr).bufferedConfirms = [] from rfl]; simpa using hconfirms)
      -- the loop was still running when it read the payload
      obtain ⟨front, p, back, data, hexBody, hps, hread, hbody, hk, hbuild⟩ := hpayload
      have hfront : x.loop front (.start myAddr) = ((x.loop front (.start myAddr)).1, none) := by
        rw [← x.loop_append_none (hps ▸ hexit)]
      obtain ⟨cp, hcp⟩ := hbuild _ hfront
      obtain ⟨key, hkey⟩ := payloadHex_of_process hk
      have hcand := hadd _ p key ⟨front, back, hps, hfront⟩
        ⟨data, hread, hexBody, k, cp, hbody, hkey, hk, hcp⟩
      -- and both are there, so the confirmation was accepted
      obtain ⟨q, hq, body, hconfirmBody, haccepts⟩ := hconfirm
      have hbuffered : body ∈ (x.loop ps (.start myAddr)).1.bufferedConfirms := by
        rw [hbuffer]
        exact List.mem_append_right _ (List.mem_filterMap.mpr ⟨q, hq, hconfirmBody⟩)
      exact hwaiting.unmatched body hbuffered key hcand k ((Session.process_payloadHex hkey).trans hk) haccepts

/-! ### The small exchange, with the confirmation first -/

/-- The confirmation of `B`, as the relay hands it on. -/
def confirmB : Bytes := Relay.msgdLine (ascii "confirm") (hexEncode (confirmOf 2 tagB addrB))

theorem small_confirmBody :
    msgdBody (ascii "confirm") confirmB = some (hexEncode (confirmOf 2 tagB addrB)) := by
  have hlen : (confirmOf 2 tagB addrB).length = ConfirmPayloadSize := (isConfirm_of_built small_confirmB).length
  refine msgdBody_msgdLine (Or.inr rfl) ?_ (hlen.trans_le (by decide))
  intro hnil
  rw [hnil] at hlen
  cases hlen

def smallConfirming : Exchange :=
  ((smallSession.send (passOf confirmB) (.start addrA)).state.limitInbound 0).2

/-- The exchange when the confirmation has come and the payload has not. -/
def smallWaiting : Exchange :=
  { smallConfirming with
    bufferedConfirms := smallConfirming.bufferedConfirms ++ [hexEncode (confirmOf 2 tagB addrB)] }

theorem small_waiting :
    (smallSession.pass (passOf confirmB) (.start addrA)).state = smallWaiting ∧
      (smallSession.pass (passOf confirmB) (.start addrA)).exit = none := by
  have hhandle : smallSession.handle (passOf confirmB) confirmB smallConfirming =
      { state := smallWaiting } := by
    rw [Session.handle_confirm small_confirmBody]
    refine Session.onConfirm_buffered ?_ (by decide)
    intro key cand hcand
    cases hcand
  obtain ⟨hstate, hexit⟩ := smallSession.pass_datagram (p := passOf confirmB) (s := .start addrA) rfl
    (by decide) rfl
  rw [hstate, hexit, Session.receive_msgd (isMsgd_of_msgdBody small_confirmBody) rfl]
  exact ⟨congrArg Turn.state hhandle, congrArg Turn.exit hhandle⟩

theorem small_makes {s : Exchange} {p : Pass}
    (h : smallSession.Makes [passOf confirmB, passOf spake2B] (.start addrA) s p) :
    (s = .start addrA ∧ p = passOf confirmB) ∨ (s = smallWaiting ∧ p = passOf spake2B) := by
  rcases Session.makes_cons h with hfirst | h
  · exact Or.inl hfirst
  rw [small_waiting.1] at h
  rcases Session.makes_cons h with hsecond | ⟨front, back, hps, _⟩
  · exact Or.inr hsecond
  · simp at hps

theorem small_bodies : [passOf confirmB, passOf spake2B].filterMap Pass.payloadBody = [viewA.body] ∧
    [passOf confirmB, passOf spake2B].filterMap Pass.confirmBody = [hexEncode (confirmOf 2 tagB addrB)] := by
  have hnone : (passOf confirmB).payloadBody = none :=
    (payloadBody_of_read rfl).trans (msgdBody_spake2_of_confirm small_confirmBody)
  have hpayload : (passOf spake2B).payloadBody = some viewA.body := (payloadBody_of_read rfl).trans small_body
  have hconfirm : (passOf confirmB).confirmBody = some (hexEncode (confirmOf 2 tagB addrB)) :=
    (confirmBody_of_read rfl).trans small_confirmBody
  have hnone' : (passOf spake2B).confirmBody = none :=
    (confirmBody_of_read rfl).trans (msgdBody_confirm_of_spake2 small_body)
  simp only [List.filterMap_cons, List.filterMap_nil, hnone, hpayload, hconfirm, hnone', and_self]

/-- `A` returns the address and the certificate of `B`, and its own role. -/
theorem small_any_order : (smallSession.loop [passOf confirmB, passOf spake2B] (.start addrA)).2 =
    some (.authenticated addrB fingerprintB false) := by
  have hpasses : ∀ p ∈ [passOf confirmB, passOf spake2B], p.cancelled = false ∧ p.now ≤ smallSession.deadline ∧
      p.read ≠ .failed := by
    simp [passOf, smallSession]
  have hexit : ∀ exit, (∀ addr fingerprint isServer, exit ≠ .authenticated addr fingerprint isServer) →
      (smallSession.loop [passOf confirmB, passOf spake2B] (.start addrA)).2 ≠ some exit := by
    intro exit hne h
    cases Session.loop_ends h with
    | cancelled hp hcancelled => exact Bool.false_ne_true ((hpasses _ hp).1.symm.trans hcancelled)
    | timeout hp hlate => exact Int.not_lt.mpr (hpasses _ hp).2.1 hlate
    | readFailed hp hfailed => exact (hpasses _ hp).2.2 hfailed
    | authenticated => exact hne _ _ _ rfl
  have hloop : smallSession.loop [passOf confirmB] (.start addrA) = (smallWaiting, none) := by
    rw [Session.loop, small_waiting.1, small_waiting.2]
    rfl
  obtain ⟨addr, fingerprint, isServer, hreturned, payload, hpayload, confirm, hconfirm, k, hk, haccept, rfl, rfl⟩ :=
    exchange_any_order smallSession addrA [passOf confirmB, passOf spake2B] viewA.cand
      ⟨[passOf confirmB], passOf spake2B, [], spake2B, viewA.body, rfl, rfl, small_body, viewA.processed,
        fun s hs => by
          cases hloop.symm.trans hs
          exact ⟨_, small_confirmA⟩⟩
      ⟨passOf confirmB, List.mem_cons_self, _, small_confirmBody, addrB, small_receiveB⟩
      {viewA.body} (by decide)
      (fun s p key hmakes hvalid => by
        rcases small_makes hmakes with ⟨rfl, rfl⟩ | ⟨rfl, rfl⟩
        · exact absurd ((validAt_of_read rfl).mp hvalid)
            (Session.not_valid (msgdBody_spake2_of_confirm small_confirmBody))
        · have hkey := ((Session.valid_iff small_body).mp ((validAt_of_read rfl).mp hvalid)).1
          exact Finset.mem_singleton.mpr (Option.some.inj (hkey.symm.trans small_key)))
      ((List.length_filterMap_le _ _).trans (by decide))
      (fun s p hmakes => by
        rcases small_makes hmakes with ⟨rfl, rfl⟩ | ⟨rfl, rfl⟩
        · rintro ⟨_, _, _, hlimit⟩
          cases hlimit
        · rintro ⟨_, _, _, hlimit⟩
          cases hlimit)
      (hexit _ (by simp)) (hexit _ (by simp)) (hexit _ (by simp))
  rw [small_bodies.1, List.mem_singleton] at hpayload
  rw [small_bodies.2, List.mem_singleton] at hconfirm
  subst hpayload hconfirm
  obtain rfl : viewA.cand = k := Except.ok.inj (viewA.processed.symm.trans hk)
  obtain rfl : addrB = addr := Except.ok.inj (small_receiveB.symm.trans haccept)
  exact hreturned

end Qvole.Engine
