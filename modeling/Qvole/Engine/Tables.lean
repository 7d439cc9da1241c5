import Qvole.Engine.Loop
import Qvole.Engine.Splice

/-!
# The tables of the exchange

Whatever the relay delivers, the loop keeps its two tables in step and within their bounds, and every
candidate is what `processSpakeMsg` made of the payload it is filed under. A candidate enters the table
only behind all checks, so nothing that fails one moves another candidate out. The buffer of confirmations
is different: it is there for messages that no candidate accepts, and takes them unchecked.

The keys are kept track of by their buffers. The buffers of two candidates are different ones, so
overwriting those of an evicted candidate leaves the others alone; and a buffer that is not on the list of
the deferred cleanup has been overwritten.
-/

namespace Qvole.Engine

open Lib Spake2

variable {Pt : Type} [AddCommGroup Pt] {x : Session Pt} {p : Pass} {s s' s'' : Exchange}
  {data hexBody key : Bytes} {cand : PeerCandidate} {k : Candidate} {cp : Bytes}

/-! ### What is sent -/

/-- What sending leaves alone. The times of the confirmations may be new ones, but they are those of
candidates. -/
structure Exchange.Kept (s s' : Exchange) : Prop where
  myAddr : s'.myAddr = s.myAddr
  candidates : s'.candidates = s.candidates
  sent : ∀ key, key ∈ s.confirmLastSent → key ∈ s'.confirmLastSent
  sent_or : ∀ key, key ∈ s'.confirmLastSent → key ∈ s.confirmLastSent ∨ key ∈ s.candidates
  bufferedConfirms : s'.bufferedConfirms = s.bufferedConfirms
  keys : s'.keys = s.keys
  allKeys : s'.allKeys = s.allKeys

theorem Exchange.Kept.refl (s : Exchange) : s.Kept s :=
  ⟨rfl, rfl, fun _ => id, fun _ => Or.inl, rfl, rfl, rfl⟩

theorem Exchange.Kept.trans (h : s.Kept s') (h' : s'.Kept s'') : s.Kept s'' where
  myAddr := h'.myAddr.trans h.myAddr
  candidates := h'.candidates.trans h.candidates
  sent key hkey := h'.sent key (h.sent key hkey)
  sent_or key hkey := by
    rcases h'.sent_or key hkey with hkey | hkey
    · exact h.sent_or key hkey
    · rw [h.candidates] at hkey
      exact Or.inr hkey
  bufferedConfirms := h'.bufferedConfirms.trans h.bufferedConfirms
  keys := h'.keys.trans h.keys
  allKeys := h'.allKeys.trans h.allKeys

theorem Session.sendReg_kept (now : Int) (s : Exchange) : s.Kept (x.sendReg now s).state := by
  unfold Session.sendReg
  split
  · exact ⟨rfl, rfl, fun _ => id, fun _ => Or.inl, rfl, rfl, rfl⟩
  · exact .refl s

theorem Session.sendSpake2_kept (now : Int) (s : Exchange) :
    s.Kept (x.sendSpake2 now s).state ∧ (x.sendSpake2 now s).exit = none := by
  unfold Session.sendSpake2
  split
  · exact ⟨⟨rfl, rfl, fun _ => id, fun _ => Or.inl, rfl, rfl, rfl⟩, rfl⟩
  · exact ⟨.refl s, rfl⟩

theorem Session.resendConfirm_kept (now : Int) (t : Turn) (key : Bytes) :
    t.state.Kept (x.resendConfirm now t key).state ∧
      (t.exit = none → (x.resendConfirm now t key).exit = none) := by
  unfold Session.resendConfirm
  split
  · exact ⟨.refl _, id⟩
  · rename_i cand hcand
    split
    · refine ⟨⟨rfl, rfl, ?_, ?_, rfl, rfl, rfl⟩, fun _ => rfl⟩
      · intro key' hkey'
        exact GoMap.mem_insert_if.mpr (Or.inr hkey')
      · intro key' hkey'
        rcases GoMap.mem_insert_if.mp hkey' with rfl | hkey'
        · exact Or.inr (GoMap.mem_of_lookup hcand)
        · exact Or.inl hkey'
    · exact ⟨.refl _, id⟩

theorem Session.send_kept (p : Pass) (s : Exchange) :
    s.Kept (x.send p s).state ∧ (x.send p s).exit = none := by
  obtain ⟨hspake2, hexit⟩ := x.sendSpake2_kept p.now (x.sendReg p.now s).state
  unfold Session.send
  -- every turn of the loop over the candidates keeps the tables
  refine List.foldlRecOn (motive := fun t : Turn => s.Kept t.state ∧ t.exit = none) _ _ ?_ ?_
  · exact ⟨(x.sendReg_kept p.now s).trans hspake2, hexit⟩
  · intro t ht key _
    obtain ⟨hkept, hexit⟩ := x.resendConfirm_kept p.now t key
    exact ⟨ht.1.trans hkept, hexit ht.2⟩

/-- The inbound limit counts, and leaves the tables alone. -/
theorem Exchange.limitInbound_kept (now : Int) (s : Exchange) : s.Kept (s.limitInbound now).2 := by
  unfold Exchange.limitInbound
  dsimp only
  split
  · exact ⟨rfl, rfl, fun _ => id, fun _ => Or.inl, rfl, rfl, rfl⟩
  · exact ⟨rfl, rfl, fun _ => id, fun _ => Or.inl, rfl, rfl, rfl⟩

theorem Exchange.limitInbound_sent (now : Int) (s : Exchange) :
    (s.limitInbound now).2.confirmLastSent = s.confirmLastSent := by
  unfold Exchange.limitInbound
  dsimp only
  split
  · rfl
  · rfl

/-! ### What a datagram can do -/

/-- A line has one phase. -/
theorem msgdBody_confirm_of_spake2 (h : msgdBody (ascii "spake2") data = some hexBody) :
    msgdBody (ascii "confirm") data = none := by
  unfold msgdBody at h ⊢
  dsimp only at h ⊢
  split at h
  · rename_i hspake2
    rw [if_neg]
    intro hconfirm
    have hle : (ascii "MSGD " ++ ascii "spake2" ++ [32]).length ≤
        (ascii "MSGD " ++ ascii "confirm" ++ [32]).length := by decide
    have hboth := List.prefix_of_prefix_length_le (List.isPrefixOf_iff_prefix.mp hspake2)
      (List.isPrefixOf_iff_prefix.mp hconfirm) hle
    exact absurd (List.isPrefixOf_iff_prefix.mpr hboth) (by decide)
  · cases h

theorem msgdBody_spake2_of_confirm (h : msgdBody (ascii "confirm") data = some hexBody) :
    msgdBody (ascii "spake2") data = none := by
  apply Option.eq_none_iff_forall_ne_some.mpr
  intro body hbody
  cases h.symm.trans (msgdBody_confirm_of_spake2 hbody)

theorem Session.tryCandidate_of_none
    (h : (p.order.visit s.candidates.keys).findSome? (x.tryCandidate hexBody s) = none)
    (hcand : s.candidates.lookup key = some cand) : (x.accept s.keys cand hexBody).toOption = none := by
  have htry : x.tryCandidate hexBody s key = none := by
    apply List.findSome?_eq_none_iff.mp h
    exact (p.order.perm _).mem_iff.mpr (AList.mem_keys.mp (GoMap.mem_of_lookup hcand))
  rw [Session.tryCandidate, hcand] at htry
  exact Option.map_eq_none_iff.mp htry

theorem Session.tryCandidate_eq_none
    (h : ∀ cand, s.candidates.lookup key = some cand → (x.accept s.keys cand hexBody).toOption = none) :
    x.tryCandidate hexBody s key = none := by
  unfold Session.tryCandidate
  split
  · rfl
  · rw [h _ ‹_›]
    rfl

theorem Session.onConfirm_buffered
    (hnone : ∀ key cand, s.candidates.lookup key = some cand → (x.accept s.keys cand hexBody).toOption = none)
    (hroom : s.bufferedConfirms.length < maxBufferedConfirms) : x.onConfirm p hexBody s =
      { state := { s with bufferedConfirms := s.bufferedConfirms ++ [hexBody] } } := by
  have hfind : (p.order.visit s.candidates.keys).findSome? (x.tryCandidate hexBody s) = none := by
    apply List.findSome?_eq_none_iff.mpr
    intro key _
    exact Session.tryCandidate_eq_none (hnone key)
  rw [Session.onConfirm, hfind]
  exact if_pos hroom

variable [DecidableEq Pt]

theorem Session.onSpake2_added (hkey : payloadHex hexBody = some key) (hnew : key ∉ s.candidates)
    (hk : x.process hexBody = .ok k) (hcp : x.confirm k s.myAddr p.draws = .ok cp) :
    x.onSpake2 p hexBody s = x.addCandidate p key k cp s := by
  rw [Session.onSpake2, hkey]
  dsimp only
  rw [if_neg hnew, hk]
  dsimp only
  rw [hcp]

theorem Session.handle_spake2 (hbody : msgdBody (ascii "spake2") data = some hexBody) :
    x.handle p data s = x.onSpake2 p hexBody s := by
  rw [Session.handle, hbody]

theorem Session.handle_confirm (hbody : msgdBody (ascii "confirm") data = some hexBody) :
    x.handle p data s = x.onConfirm p hexBody s := by
  rw [Session.handle, msgdBody_spake2_of_confirm hbody, hbody]

/-- A pass that reads a datagram. -/
theorem Session.pass_datagram (hcancelled : p.cancelled = false) (hdeadline : p.now ≤ x.deadline)
    (hread : p.read = .datagram data) :
    (x.pass p s).state = (x.receive p data (x.send p s).state).state ∧
      (x.pass p s).exit = (x.receive p data (x.send p s).state).exit := by
  rw [Session.pass, hcancelled, if_neg (by decide), if_neg (Int.not_lt.mpr hdeadline)]
  dsimp only
  rw [hread]
  exact ⟨rfl, rfl⟩

/-- A `MSGD` line within the inbound limit. -/
theorem Session.receive_msgd (hmsgd : isMsgd data = true) (hlimit : (s.limitInbound p.received).1 = false) :
    x.receive p data s = x.handle p data (s.limitInbound p.received).2 := by
  rw [Session.receive, if_pos hmsgd]
  dsimp only
  rw [hlimit, if_neg (by decide)]

/-- The datagram carries a payload that passes every check, and that is filed under the key. -/
def Session.Valid (x : Session Pt) (s : Exchange) (p : Pass) (data key : Bytes) : Prop :=
  ∃ hexBody k cp, msgdBody (ascii "spake2") data = some hexBody ∧ payloadHex hexBody = some key ∧
    x.process hexBody = .ok k ∧ x.confirm k s.myAddr p.draws = .ok cp

theorem Session.valid_iff (hbody : msgdBody (ascii "spake2") data = some hexBody) :
    x.Valid s p data key ↔ payloadHex hexBody = some key ∧
      ∃ k cp, x.process hexBody = .ok k ∧ x.confirm k s.myAddr p.draws = .ok cp := by
  constructor
  · rintro ⟨hexBody', k, cp, hbody', hkey, hk, hcp⟩
    cases hbody.symm.trans hbody'
    exact ⟨hkey, k, cp, hk, hcp⟩
  · rintro ⟨hkey, k, cp, hk, hcp⟩
    exact ⟨hexBody, k, cp, hbody, hkey, hk, hcp⟩

theorem Session.not_valid (hspake2 : msgdBody (ascii "spake2") data = none) : ¬ x.Valid s p data key := by
  rintro ⟨hexBody, _, _, hbody, _⟩
  cases hspake2.symm.trans hbody

/-- Everything the loop can make of a datagram that is within the inbound limit. -/
inductive Outcome (x : Session Pt) (p : Pass) (data : Bytes) (s : Exchange) : Turn → Prop
  | ignored (hknown : ∀ key, x.Valid s p data key → key ∈ s.candidates)
      (hfull : ∀ hexBody, msgdBody (ascii "confirm") data = some hexBody →
        maxBufferedConfirms ≤ s.bufferedConfirms.length) : Outcome x p data s { state := s }
  | registration (reg : RegClient) (myAddr : Bytes) (hspake2 : msgdBody (ascii "spake2") data = none)
      (hconfirm : msgdBody (ascii "confirm") data = none) :
      Outcome x p data s { state := { s with reg := reg, myAddr := myAddr } }
  | discarded (k : Candidate) (hinvalid : ∀ key, ¬ x.Valid s p data key)
      (hconfirm : msgdBody (ascii "confirm") data = none) :
      Outcome x p data s { state := Session.discardKeys k s }
  | added {hexBody key : Bytes} {k : Candidate} {cp : Bytes}
      (hbody : msgdBody (ascii "spake2") data = some hexBody) (hkey : payloadHex hexBody = some key)
      (hnew : key ∉ s.candidates) (hk : x.process hexBody = .ok k)
      (hcp : x.confirm k s.myAddr p.draws = .ok cp) (hconfirm : msgdBody (ascii "confirm") data = none) :
      Outcome x p data s (x.addCandidate p key k cp s)
  | authenticated {hexBody key peerAddr : Bytes} {cand : PeerCandidate}
      (hbody : msgdBody (ascii "confirm") data = some hexBody) (hcand : s.candidates.lookup key = some cand)
      (haccept : x.accept s.keys cand hexBody = .ok peerAddr) : Outcome x p data s
        { state := s, exit := some (.authenticated peerAddr cand.fingerprint cand.isServer) }
  | buffered {hexBody : Bytes} (hbody : msgdBody (ascii "confirm") data = some hexBody)
      (hspake2 : msgdBody (ascii "spake2") data = none)
      (hnone : ∀ key cand, s.candidates.lookup key = some cand →
        (x.accept s.keys cand hexBody).toOption = none)
      (hroom : s.bufferedConfirms.length < maxBufferedConfirms) :
      Outcome x p data s { state := { s with bufferedConfirms := s.bufferedConfirms ++ [hexBody] } }

theorem Session.onSpake2_outcome (hbody : msgdBody (ascii "spake2") data = some hexBody) :
    Outcome x p data s (x.onSpake2 p hexBody s) := by
  have hconfirm : msgdBody (ascii "confirm") data = none := msgdBody_confirm_of_spake2 hbody
  have hfull : ∀ hexBody, msgdBody (ascii "confirm") data = some hexBody →
      maxBufferedConfirms ≤ s.bufferedConfirms.length := by
    rw [hconfirm]
    intro _ h
    cases h
  -- the checks that a valid payload passes, one after the other
  unfold Session.onSpake2
  cases hkey : payloadHex hexBody with
  | none =>
      refine .ignored (fun key hvalid => ?_) hfull
      cases hkey.symm.trans ((Session.valid_iff hbody).mp hvalid).1
  | some key =>
      dsimp only
      split
      · refine .ignored (fun key' hvalid => ?_) hfull
        cases hkey.symm.trans ((Session.valid_iff hbody).mp hvalid).1
        assumption
      rename_i hnew
      cases hk : x.process hexBody with
      | error e =>
          refine .ignored (fun key' hvalid => ?_) hfull
          obtain ⟨_, k, cp, hk', _⟩ := (Session.valid_iff hbody).mp hvalid
          cases hk.symm.trans hk'
      | ok k =>
          dsimp only
          cases hcp : x.confirm k s.myAddr p.draws with
          | ok cp => exact .added hbody hkey hnew hk hcp hconfirm
          | error e =>
              refine .discarded k (fun key' hvalid => ?_) hconfirm
              obtain ⟨_, k', cp, hk', hcp'⟩ := (Session.valid_iff hbody).mp hvalid
              cases hk.symm.trans hk'
              cases hcp.symm.trans hcp'

theorem Session.onConfirm_outcome (hspake2 : msgdBody (ascii "spake2") data = none)
    (hbody : msgdBody (ascii "confirm") data = some hexBody) :
    Outcome x p data s (x.onConfirm p hexBody s) := by
  unfold Session.onConfirm
  split
  · rename_i exit hexit
    obtain ⟨key, _, hexit⟩ := List.exists_of_findSome?_eq_some hexit
    unfold Session.tryCandidate at hexit
    split at hexit
    · cases hexit
    rename_i cand hcand
    obtain ⟨peerAddr, haccept, rfl⟩ := Option.map_eq_some_iff.mp hexit
    exact .authenticated hbody hcand (toOption_eq_some.mp haccept)
  rename_i hnone
  split
  · exact .buffered hbody hspake2 (fun _ _ hcand => Session.tryCandidate_of_none hnone hcand) ‹_›
  · exact .ignored (fun key hvalid => absurd hvalid (Session.not_valid hspake2))
      fun _ _ => Nat.le_of_not_lt ‹_›

theorem Session.handle_outcome (x : Session Pt) (p : Pass) (data : Bytes) (s : Exchange) :
    Outcome x p data s (x.handle p data s) := by
  cases hspake2 : msgdBody (ascii "spake2") data with
  | some hexBody =>
      rw [Session.handle_spake2 hspake2]
      exact Session.onSpake2_outcome hspake2
  | none =>
      cases hconfirm : msgdBody (ascii "confirm") data with
      | some hexBody =>
          rw [Session.handle_confirm hconfirm]
          exact Session.onConfirm_outcome hspake2 hconfirm
      | none =>
          rw [Session.handle, hspake2, hconfirm]
          exact .registration _ _ hspake2 hconfirm

/-! ### Payloads and their keys -/

/-- Both points and the fingerprint. -/
def payloadFields (payload : Bytes) : Bytes × Bytes × Bytes :=
  (payload.take pointLen, (payload.drop pointLen).take pointLen,
    (payload.drop (pointLen * 2)).take fingerprintSize)

theorem payloadFields_take (payload : Bytes) :
    payloadFields (payload.take spake2PayloadLen) = payloadFields payload := by
  simp [payloadFields, List.take_take, List.drop_take, spake2PayloadLen, pointLen, fingerprintSize]

theorem payloadFields_inj {payload payload' : Bytes} (hlen : payload.length = spake2PayloadLen)
    (hlen' : payload'.length = spake2PayloadLen) (h : payloadFields payload = payloadFields payload') :
    payload = payload' := by
  have hjoin : ∀ b : Bytes, b.length = spake2PayloadLen →
      b = (payloadFields b).1 ++ (payloadFields b).2.1 ++ (payloadFields b).2.2 := by
    intro b hb
    have hrest : (b.drop (pointLen * 2)).take fingerprintSize = b.drop (pointLen * 2) := by
      apply List.take_of_length_le
      rw [List.length_drop, hb]
      decide
    simp only [payloadFields]
    rw [hrest, ← List.take_add, ← Nat.mul_two, List.take_append_drop]
  rw [hjoin payload hlen, hjoin payload' hlen', h]

theorem payloadHex_inv (h : payloadHex hexBody = some key) :
    ∃ payload, hexDecode hexBody = some payload ∧ spake2PayloadLen ≤ payload.length ∧
      key = hexEncode (payload.take spake2PayloadLen) := by
  unfold payloadHex at h
  split at h
  · cases h
  rename_i payload hdecode
  split at h
  · cases h
  · exact ⟨payload, hdecode, Nat.le_of_not_lt ‹_›, (Option.some.inj h).symm⟩

/-- What a body means depends on its first 162 bytes only. -/
theorem Session.process_payloadHex (h : payloadHex hexBody = some key) : x.process key = x.process hexBody := by
  obtain ⟨payload, hdecode, hlen, rfl⟩ := payloadHex_inv h
  have hfields := payloadFields_take payload
  simp only [payloadFields, Prod.mk.injEq] at hfields
  have hrole : ∀ mineM mineN mine, selectRole (hexEncode (payload.take spake2PayloadLen)) mineM mineN mine =
      selectRole hexBody mineM mineN mine := by
    intro mineM mineN mine
    unfold selectRole decodeBody
    rw [hexDecode_hexEncode, hdecode]
    simp only [bind, Except.bind, hfields, List.length_take, Nat.min_eq_left hlen, Nat.lt_irrefl,
      Nat.not_lt.mpr hlen]
  rw [Session.process, Session.process, processSpakeMsg, processSpakeMsg, hrole]

/-! ### The invariant -/

def PeerCandidate.slices (cand : PeerCandidate) : List Nat := [cand.confirmKey, cand.encKey]

/-- The candidate is what `processSpakeMsg` yields for the payload its key is the hex form of. -/
structure Session.Holds (x : Session Pt) (keys : Buffers) (key : Bytes) (cand : PeerCandidate) : Prop where
  payload : ∃ payload, payload.length = spake2PayloadLen ∧ key = hexEncode payload
  yields : x.process key = .ok ⟨⟨cand.effectiveMyPoint, cand.point, cand.fingerprint, cand.isServer⟩,
    keys.read cand.confirmKey, keys.read cand.encKey⟩
  slices_lt : ∀ r ∈ cand.slices, r < keys.length

theorem Session.Holds.mono {keys keys' : Buffers} (h : x.Holds keys key cand)
    (hread : ∀ r ∈ cand.slices, keys'.read r = keys.read r) (hlen : keys.length ≤ keys'.length) :
    x.Holds keys' key cand where
  payload := h.payload
  yields := by
    rw [hread _ (by simp [PeerCandidate.slices]), hread _ (by simp [PeerCandidate.slices])]
    exact h.yields
  slices_lt r hr := Nat.lt_of_lt_of_le (h.slices_lt r hr) hlen

/-- The two tables of the loop and its buffer of confirmations. -/
structure Session.Tables (x : Session Pt) (s : Exchange) : Prop where
  candidates_le : s.candidates.size ≤ maxCandidates
  buffered_le : s.bufferedConfirms.length ≤ maxBufferedConfirms
  sent_iff : ∀ key, key ∈ s.confirmLastSent ↔ key ∈ s.candidates
  holds : ∀ {key cand}, s.candidates.lookup key = some cand → x.Holds s.keys key cand
  apart : ∀ {key cand key' cand'}, s.candidates.lookup key = some cand →
    s.candidates.lookup key' = some cand' → key ≠ key' → cand.slices.Disjoint cand'.slices

namespace Session.Tables

theorem start (myAddr : Bytes) : x.Tables (.start myAddr) where
  candidates_le := Nat.zero_le _
  buffered_le := Nat.zero_le _
  sent_iff _ := Iff.rfl
  holds h := by cases h
  apart h := by cases h

theorem kept (h : x.Tables s) (hkept : s.Kept s') : x.Tables s' where
  candidates_le := by
    rw [hkept.candidates]
    exact h.candidates_le
  buffered_le := by
    rw [hkept.bufferedConfirms]
    exact h.buffered_le
  sent_iff key := by
    rw [hkept.candidates]
    constructor
    · intro hkey
      rcases hkept.sent_or key hkey with hsent | hcand
      · exact (h.sent_iff key).mp hsent
      · exact hcand
    · intro hkey
      exact hkept.sent key ((h.sent_iff key).mpr hkey)
  holds := by
    rw [hkept.candidates, hkept.keys]
    exact h.holds
  apart := by
    rw [hkept.candidates]
    exact h.apart

/-- New keys, and keys of no candidate, do not matter to the table. -/
theorem of_keys {keys : Buffers} (h : x.Tables s) (hlen : s.keys.length ≤ keys.length)
    (hread : ∀ r < s.keys.length, keys.read r = s.keys.read r) : x.Tables { s with keys := keys } where
  candidates_le := h.candidates_le
  buffered_le := h.buffered_le
  sent_iff := h.sent_iff
  holds hcand := (h.holds hcand).mono (fun r hr => hread r ((h.holds hcand).slices_lt r hr)) hlen
  apart := h.apart

theorem discardKeys (h : x.Tables s) (k : Candidate) : x.Tables (Session.discardKeys k s) := by
  refine h.of_keys ?_ ?_
  · rw [Buffers.length_zeroBytes, Buffers.length_zeroBytes, List.length_append]
    omega
  · intro r hr
    rw [Buffers.read_zeroBytes_ne (by omega), Buffers.read_zeroBytes_ne (by omega),
      Buffers.read_append _ hr]

theorem buffer (h : x.Tables s) (hroom : s.bufferedConfirms.length < maxBufferedConfirms) :
    x.Tables { s with bufferedConfirms := s.bufferedConfirms ++ [hexBody] } :=
  { h with
    buffered_le := by
      rw [List.length_append, List.length_singleton]
      exact hroom }

theorem oldestSoFar_mem {sent : GoMap Bytes Int} {keys : List Bytes} (evict : Bytes × Option Int) :
    keys.foldl (Exchange.oldestSoFar sent) evict = evict ∨
      (keys.foldl (Exchange.oldestSoFar sent) evict).1 ∈ keys := by
  induction keys generalizing evict with
  | nil => exact Or.inl rfl
  | cons key keys ih =>
      rw [List.foldl_cons]
      rcases ih (Exchange.oldestSoFar sent evict key) with heq | hmem
      · rw [heq]
        unfold Exchange.oldestSoFar
        dsimp only
        split
        · exact Or.inr List.mem_cons_self
        · exact Or.inl rfl
      · exact Or.inr (List.mem_cons_of_mem key hmem)

/-- A table that is not empty has a key to evict: the first one visited is taken in any case. -/
theorem evictKey_mem (order : RangeOrder Bytes) (h : 0 < s.candidates.size) :
    s.evictKey order ∈ s.candidates := by
  have hperm := order.perm s.candidates.keys
  rw [Exchange.evictKey]
  apply AList.mem_keys.mpr
  rw [← hperm.mem_iff]
  cases hvisit : order.visit s.candidates.keys with
  | nil =>
      rw [hvisit, List.nil_perm] at hperm
      rw [GoMap.size, hperm] at h
      cases h
  | cons key keys =>
      rw [List.foldl_cons, show Exchange.oldestSoFar s.confirmLastSent ([], none) key =
        (key, s.confirmLastSent.lookup key) by simp [Exchange.oldestSoFar]]
      rcases oldestSoFar_mem (key, s.confirmLastSent.lookup key) with heq | hmem
      · rw [heq]
        exact List.mem_cons_self
      · exact List.mem_cons_of_mem key hmem

theorem lookup_of_evictOldest {order : RangeOrder Bytes}
    (h : (s.evictOldest order).candidates.lookup key = some cand) :
    key ≠ s.evictKey order ∧ s.candidates.lookup key = some cand := by
  rw [show (s.evictOldest order).candidates = s.candidates.erase (s.evictKey order) from rfl,
    GoMap.lookup_erase_if] at h
  split at h
  · cases h
  · exact ⟨‹_›, h⟩

theorem length_evictOldest (order : RangeOrder Bytes) (s : Exchange) :
    (s.evictOldest order).keys.length = s.keys.length := by
  unfold Exchange.evictOldest
  dsimp only
  split
  · rw [Buffers.length_zeroBytes, Buffers.length_zeroBytes]
  · rfl

/-- Only the keys of the evicted candidate are overwritten. -/
theorem read_evictOldest {order : RangeOrder Bytes} {r : Nat}
    (hr : ∀ cand, s.candidates.lookup (s.evictKey order) = some cand → r ∉ cand.slices) :
    (s.evictOldest order).keys.read r = s.keys.read r := by
  unfold Exchange.evictOldest
  dsimp only
  split
  · rename_i c hc
    have hout : r ∉ c.slices := hr c hc
    simp only [PeerCandidate.slices, List.mem_cons, List.not_mem_nil, or_false, not_or] at hout
    rw [Buffers.read_zeroBytes_ne hout.2, Buffers.read_zeroBytes_ne hout.1]
  · rfl

theorem evictOldest (h : x.Tables s) (order : RangeOrder Bytes) : x.Tables (s.evictOldest order) where
  candidates_le := by
    refine Nat.le_trans (GoMap.size_mono fun key hkey => ?_) h.candidates_le
    exact (AList.mem_erase.mp hkey).2
  buffered_le := h.buffered_le
  sent_iff key := by
    rw [show (s.evictOldest order).confirmLastSent = s.confirmLastSent.erase (s.evictKey order) from rfl,
      show (s.evictOldest order).candidates = s.candidates.erase (s.evictKey order) from rfl,
      AList.mem_erase, AList.mem_erase, h.sent_iff]
  holds hcand := by
    obtain ⟨hne, hcand⟩ := lookup_of_evictOldest hcand
    refine (h.holds hcand).mono (fun r hr => read_evictOldest fun c hc => ?_) ?_
    · exact h.apart hcand hc hne hr
    · rw [length_evictOldest]
  apart hcand hcand' hne :=
    h.apart (lookup_of_evictOldest hcand).2 (lookup_of_evictOldest hcand').2 hne

theorem size_evictOldest (order : RangeOrder Bytes) (h : 0 < s.candidates.size) :
    (s.evictOldest order).candidates.size + 1 = s.candidates.size :=
  GoMap.size_erase_of_mem (evictKey_mem order h)

/-- A candidate whose keys are those of no other one enters the table. -/
theorem insert (h : x.Tables s) (hsize : s.candidates.size < maxCandidates) (hnew : x.Holds s.keys key cand)
    (hapart : ∀ key' cand', s.candidates.lookup key' = some cand' → cand.slices.Disjoint cand'.slices)
    (allKeys : List Nat) (now : Int) :
    x.Tables { s with
      candidates := s.candidates.insert key cand
      allKeys := allKeys
      confirmLastSent := s.confirmLastSent.insert key now } where
  candidates_le := Nat.le_trans (GoMap.size_insert_le key cand s.candidates) hsize
  buffered_le := h.buffered_le
  sent_iff key' := by
    rw [GoMap.mem_insert_if, GoMap.mem_insert_if, h.sent_iff]
  holds hcand := by
    rw [GoMap.lookup_insert_if] at hcand
    split at hcand
    · cases hcand
      subst key
      exact hnew
    · exact h.holds hcand
  apart hcand hcand' hne := by
    rw [GoMap.lookup_insert_if] at hcand hcand'
    split at hcand
    · cases hcand
      rw [if_neg (fun heq => hne (by rw [heq]; assumption))] at hcand'
      exact hapart _ _ hcand'
    · split at hcand'
      · cases hcand'
        exact (hapart _ _ hcand).symm
      · exact h.apart hcand hcand' hne

/-! Room for one more candidate. -/

theorem makeRoom (h : x.Tables s) (order : RangeOrder Bytes) :
    x.Tables (s.makeRoom order) ∧ (s.makeRoom order).candidates.size < maxCandidates := by
  unfold Exchange.makeRoom
  split
  · rename_i hfull
    refine ⟨h.evictOldest order, ?_⟩
    have hsize := size_evictOldest order (Nat.lt_of_lt_of_le (by decide) hfull)
    have hle := h.candidates_le
    omega
  · exact ⟨h, Nat.lt_of_not_le ‹_›⟩

theorem lookup_of_makeRoom {order : RangeOrder Bytes}
    (h : (s.makeRoom order).candidates.lookup key = some cand) : s.candidates.lookup key = some cand := by
  unfold Exchange.makeRoom at h
  split at h
  · exact (lookup_of_evictOldest h).2
  · exact h

theorem length_makeRoom (order : RangeOrder Bytes) (s : Exchange) :
    (s.makeRoom order).keys.length = s.keys.length := by
  unfold Exchange.makeRoom
  split
  · exact length_evictOldest order s
  · rfl

/-- Keys that no candidate has yet are not overwritten. -/
theorem read_makeRoom (order : RangeOrder Bytes) {r : Nat}
    (hr : ∀ key cand, s.candidates.lookup key = some cand → r ∉ cand.slices) :
    (s.makeRoom order).keys.read r = s.keys.read r := by
  unfold Exchange.makeRoom
  split
  · exact read_evictOldest fun cand hcand => hr _ cand hcand
  · rfl

theorem addCandidate (h : x.Tables s) (hkey : payloadHex hexBody = some key)
    (hk : x.process hexBody = .ok k) (p : Pass) (cp : Bytes) : x.Tables (x.addCandidate p key k cp s).state := by
  obtain ⟨payload, _, hlen, hpayload⟩ := payloadHex_inv hkey
  have happend : x.Tables { s with keys := s.keys ++ [k.confirmKey, k.encKey] } := by
    refine h.of_keys ?_ fun r hr => Buffers.read_append _ hr
    rw [List.length_append]
    exact Nat.le_add_right _ _
  obtain ⟨htables, hsize⟩ := happend.makeRoom p.order
  -- the slices of the new candidate are behind all others
  have hfresh : ∀ key' cand', s.candidates.lookup key' = some cand' →
      ∀ r ∈ cand'.slices, r < s.keys.length := fun _ _ hcand r hr => (h.holds hcand).slices_lt r hr
  have hread : ∀ r, s.keys.length ≤ r →
      (Exchange.makeRoom p.order { s with keys := s.keys ++ [k.confirmKey, k.encKey] }).keys.read r =
        Buffers.read (s.keys ++ [k.confirmKey, k.encKey]) r := by
    intro r hr
    apply read_makeRoom
    intro key' cand' hcand hmem
    exact absurd (hfresh key' cand' hcand r hmem) (Nat.not_lt.mpr hr)
  refine htables.insert hsize ⟨⟨_, ?_, hpayload⟩, ?_, ?_⟩ ?_ _ _
  · rw [List.length_take, Nat.min_eq_left hlen]
  · rw [Session.process_payloadHex hkey, hk, hread _ (Nat.le_refl _), hread _ (Nat.le_succ _)]
    simp [Buffers.read]
  · intro r hr
    rw [length_makeRoom, List.length_append]
    simp only [PeerCandidate.slices, List.mem_cons, List.not_mem_nil, or_false] at hr
    rcases hr with rfl | rfl
    · simp
    · simp
  · intro key' cand' hcand r hr hr'
    have hlookup := lookup_of_makeRoom hcand
    have hlt := hfresh key' cand' hlookup r hr'
    simp only [PeerCandidate.slices, List.mem_cons, List.not_mem_nil, or_false] at hr
    omega

theorem outcome {t : Turn} (h : x.Tables s) (hout : Outcome x p data s t) : x.Tables t.state := by
  cases hout with
  | ignored => exact h
  | registration => exact { h with }
  | discarded k => exact h.discardKeys k
  | added _ hkey _ hk => exact h.addCandidate hkey hk p _
  | authenticated => exact h
  | buffered _ _ _ hroom => exact h.buffer hroom

end Session.Tables

/-! ### The keys that are still readable -/

/-- What the deferred cleanup does not overwrite has been overwritten before. -/
def Exchange.Ledger (s : Exchange) : Prop := ∀ r, r ∈ s.allKeys ∨ Buffers.IsZero (s.keys.read r)

namespace Exchange.Ledger

theorem kept (h : s.Ledger) (hkept : s.Kept s') : s'.Ledger := by
  intro r
  rw [hkept.allKeys, hkept.keys]
  exact h r

theorem outside_new {keys : Buffers} {r : Nat} {ck ek : Bytes} (hfirst : r ≠ keys.length)
    (hsecond : r ≠ keys.length + 1) : r < keys.length ∨ (keys ++ [ck, ek]).length ≤ r := by
  rw [List.length_append]
  simp only [List.length_cons, List.length_nil]
  omega

theorem discardKeys (h : s.Ledger) (k : Candidate) : (Session.discardKeys k s).Ledger := by
  intro r
  refine (h r).imp_right fun hzero => ?_
  show Buffers.IsZero (Buffers.read (Buffers.zeroBytes (Buffers.zeroBytes _ _) _) r)
  by_cases hsecond : r = s.keys.length + 1
  · rw [hsecond]
    exact Buffers.read_zeroBytes_self
  apply Buffers.IsZero.zeroBytes
  by_cases hfirst : r = s.keys.length
  · rw [hfirst]
    exact Buffers.read_zeroBytes_self
  apply Buffers.IsZero.zeroBytes
  exact hzero.append (outside_new hfirst hsecond)

theorem makeRoom {r : Nat} (order : RangeOrder Bytes) (h : Buffers.IsZero (s.keys.read r)) :
    Buffers.IsZero ((s.makeRoom order).keys.read r) := by
  unfold Exchange.makeRoom
  split
  · unfold Exchange.evictOldest
    dsimp only
    split
    · exact h.zeroBytes.zeroBytes
    · exact h
  · exact h

theorem allKeys_makeRoom (order : RangeOrder Bytes) (s : Exchange) :
    (s.makeRoom order).allKeys = s.allKeys := by
  unfold Exchange.makeRoom
  split
  · rfl
  · rfl

omit [DecidableEq Pt] in
theorem addCandidate (h : s.Ledger) (x : Session Pt) (p : Pass) (key : Bytes) (k : Candidate) (cp : Bytes) :
    (x.addCandidate p key k cp s).state.Ledger := by
  intro r
  show r ∈ (Exchange.makeRoom p.order { s with keys := _ }).allKeys ++ _ ∨
    Buffers.IsZero ((Exchange.makeRoom p.order { s with keys := _ }).keys.read r)
  rw [allKeys_makeRoom]
  by_cases hnew : r ∈ [s.keys.length, s.keys.length + 1]
  · exact Or.inl (List.mem_append_right _ hnew)
  simp only [List.mem_cons, List.not_mem_nil, or_false, not_or] at hnew
  rcases h r with hlisted | hzero
  · exact Or.inl (List.mem_append_left _ hlisted)
  · refine Or.inr (makeRoom p.order ?_)
    exact hzero.append (outside_new hnew.1 hnew.2)

theorem outcome {t : Turn} (h : s.Ledger) (hout : Outcome x p data s t) : t.state.Ledger := by
  cases hout with
  | ignored => exact h
  | registration => exact h
  | discarded k => exact h.discardKeys k
  | added => exact h.addCandidate x p _ _ _
  | authenticated => exact h
  | buffered => exact h

theorem cleanup (h : s.Ledger) (r : Nat) : Buffers.IsZero (s.cleanup.read r) :=
  Buffers.isZero_zeroAll (h r)

end Exchange.Ledger

/-! ### Every run -/

section

variable {P : Exchange → Prop} (hkept : ∀ {s s'}, P s → s.Kept s' → P s')
  (houtcome : ∀ {p data s t}, P s → Outcome x p data s t → P t.state)

include hkept houtcome

theorem Session.receive_invariant (p : Pass) (data : Bytes) (h : P s) : P (x.receive p data s).state := by
  have hlimit : P (s.limitInbound p.received).2 := hkept h (s.limitInbound_kept p.received)
  unfold Session.receive
  split
  · dsimp only
    split
    · exact hlimit
    · exact houtcome hlimit (x.handle_outcome p data _)
  · exact houtcome h (x.handle_outcome p data s)

theorem Session.pass_invariant (p : Pass) (h : P s) : P (x.pass p s).state := by
  have hsend : P (x.send p s).state := hkept h (x.send_kept p s).1
  unfold Session.pass
  split
  · exact h
  split
  · exact h
  dsimp only
  split
  · exact hsend
  · exact hsend
  · exact Session.receive_invariant hkept houtcome p _ hsend

/-- What sending keeps and every outcome of a datagram keeps holds whenever the loop comes round, and
when it ends. -/
theorem Session.loop_invariant (ps : List Pass) (h : P s) : P (x.loop ps s).1 := by
  induction ps generalizing s with
  | nil => exact h
  | cons p ps ih =>
      have hpass := Session.pass_invariant hkept houtcome p h
      rw [Session.loop]
      split
      · exact ih hpass
      · exact hpass

end

theorem Session.tables_loop (x : Session Pt) (myAddr : Bytes) (ps : List Pass) :
    x.Tables (x.loop ps (.start myAddr)).1 :=
  Session.loop_invariant Session.Tables.kept Session.Tables.outcome ps (.start myAddr)

theorem Session.ledger_loop (x : Session Pt) (myAddr : Bytes) (ps : List Pass) :
    (x.loop ps (.start myAddr)).1.Ledger := by
  refine x.loop_invariant Exchange.Ledger.kept Exchange.Ledger.outcome ps fun r => Or.inr ?_
  intro b hb
  cases hb

/-! ### Datagrams that fail a check -/

/-- What a datagram leaves of the tables if it carries no valid payload. -/
structure Session.Unmoved (x : Session Pt) (data : Bytes) (s s' : Exchange) : Prop where
  candidates : s'.candidates = s.candidates
  confirmLastSent : s'.confirmLastSent = s.confirmLastSent
  bufferedConfirms : s'.bufferedConfirms = s.bufferedConfirms ∨
    ∃ hexBody, msgdBody (ascii "confirm") data = some hexBody ∧
      (∀ key cand, s.candidates.lookup key = some cand → (x.accept s.keys cand hexBody).toOption = none) ∧
      s.bufferedConfirms.length < maxBufferedConfirms ∧
      s'.bufferedConfirms = s.bufferedConfirms ++ [hexBody]

theorem Outcome.unmoved {t : Turn} (hout : Outcome x p data s t) (hinvalid : ∀ key, ¬ x.Valid s p data key) :
    x.Unmoved data s t.state := by
  cases hout with
  | ignored => exact ⟨rfl, rfl, Or.inl rfl⟩
  | registration => exact ⟨rfl, rfl, Or.inl rfl⟩
  | discarded => exact ⟨rfl, rfl, Or.inl rfl⟩
  | added hbody hkey _ hk hcp => exact absurd ⟨_, _, _, hbody, hkey, hk, hcp⟩ (hinvalid _)
  | authenticated => exact ⟨rfl, rfl, Or.inl rfl⟩
  | buffered hbody _ hnone hroom => exact ⟨rfl, rfl, Or.inr ⟨_, hbody, hnone, hroom, rfl⟩⟩

theorem Session.receive_unmoved (hinvalid : ∀ key, ¬ x.Valid s p data key) :
    x.Unmoved data s (x.receive p data s).state := by
  have hkept := s.limitInbound_kept p.received
  have hsent := s.limitInbound_sent p.received
  unfold Session.receive
  split
  · dsimp only
    split
    · exact ⟨hkept.candidates, hsent, Or.inl hkept.bufferedConfirms⟩
    · have hinvalid' : ∀ key, ¬ x.Valid (s.limitInbound p.received).2 p data key := by
        intro key
        rw [Session.Valid, hkept.myAddr]
        exact hinvalid key
      have h := (x.handle_outcome p data _).unmoved hinvalid'
      refine ⟨h.candidates.trans hkept.candidates, h.confirmLastSent.trans hsent, ?_⟩
      rw [← hkept.bufferedConfirms, ← hkept.candidates, ← hkept.keys]
      exact h.bufferedConfirms
  · exact (x.handle_outcome p data s).unmoved hinvalid

/-- Whenever the loop comes round or ends, whatever it was sent: both tables have the same keys and are
within their bounds, every candidate is what its payload yields, a datagram without a valid payload moves
no candidate, and every key ever derived is zero or about to be zeroed. -/
theorem exchange_tables (x : Session Pt) (myAddr : Bytes) (ps : List Pass) :
    let s := (x.loop ps (.start myAddr)).1
    s.candidates.size ≤ maxCandidates ∧ s.bufferedConfirms.length ≤ maxBufferedConfirms ∧
    (∀ key, key ∈ s.confirmLastSent ↔ key ∈ s.candidates) ∧
    (∀ key cand, s.candidates.lookup key = some cand →
      (∃ payload, payload.length = spake2PayloadLen ∧ key = hexEncode payload) ∧
      x.process key = .ok ⟨⟨cand.effectiveMyPoint, cand.point, cand.fingerprint, cand.isServer⟩,
        s.keys.read cand.confirmKey, s.keys.read cand.encKey⟩) ∧
    (∀ payload payload', hexEncode payload ∈ s.candidates → hexEncode payload' ∈ s.candidates →
      hexEncode payload ≠ hexEncode payload' → payloadFields payload ≠ payloadFields payload') ∧
    (∀ t p data, (∀ key, ¬ x.Valid t p data key) → x.Unmoved data t (x.receive p data t).state) ∧
    (∀ r, r ∈ s.allKeys ∨ Buffers.IsZero (s.keys.read r)) ∧ ∀ r, Buffers.IsZero (s.cleanup.read r) := by
  have h := x.tables_loop myAddr ps
  have hledger := x.ledger_loop myAddr ps
  refine ⟨h.candidates_le, h.buffered_le, h.sent_iff, ?_, ?_, ?_, hledger, hledger.cleanup⟩
  · intro key cand hcand
    exact ⟨(h.holds hcand).payload, (h.holds hcand).yields⟩
  · intro payload payload' hmem hmem' hne hfields
    have hlen : ∀ b, hexEncode b ∈ (x.loop ps (.start myAddr)).1.candidates → b.length = spake2PayloadLen := by
      intro b hb
      obtain ⟨cand, hcand⟩ := GoMap.lookup_of_mem hb
      obtain ⟨b', hb', heq⟩ := (h.holds hcand).payload
      have hlength := congrArg List.length heq
      rw [length_hexEncode, length_hexEncode, hb'] at hlength
      omega
    exact hne (congrArg hexEncode (payloadFields_inj (hlen _ hmem) (hlen _ hmem') hfields))
  · intro t p data hinvalid
    exact Session.receive_unmoved hinvalid

/-! ### The small exchange -/

/-- The side of `A`. -/
def smallSession : Session (ZMod 7) where
  curve := smallCurve
  gcm := smallGcm
  state := smallA
  myFingerprint := fingerprintA
  room := ascii "1234"
  deadline := 60000000000
  regInterval := RegInterval
  spake2Resend := 2000000000
  confirmResend := 2000000000

/-- A pass at the start of the exchange that reads the datagram. -/
def passOf (data : Bytes) : Pass := ⟨false, 0, .asKept _, .datagram data, 0, drawsOf 1, .asKept _⟩

/-- The payload of `B`, as the relay hands it on. -/
def spake2B : Bytes := Relay.msgdLine (ascii "spake2") viewA.body

theorem small_body : msgdBody (ascii "spake2") spake2B = some viewA.body :=
  msgdBody_msgdLine (Or.inl rfl) (by decide) (by decide +kernel)

theorem small_key : payloadHex viewA.body = some viewA.body := by decide +kernel

def smallBefore : Exchange :=
  ((smallSession.send (passOf spake2B) (.start addrA)).state.limitInbound 0).2

/-- The first pass adds `B` to the table. -/
theorem small_pass :
    (smallSession.pass (passOf spake2B) (.start addrA)).state = (smallSession.addCandidate (passOf spake2B)
      viewA.body viewA.cand (confirmOf 1 tagA addrA) smallBefore).state ∧
    (smallSession.pass (passOf spake2B) (.start addrA)).exit = none := by
  have hconfirm : smallSession.confirm viewA.cand smallBefore.myAddr (passOf spake2B).draws =
      .ok (confirmOf 1 tagA addrA) := small_confirmA
  have hhandle : smallSession.handle (passOf spake2B) spake2B smallBefore = smallSession.addCandidate
      (passOf spake2B) viewA.body viewA.cand (confirmOf 1 tagA addrA) smallBefore := by
    rw [Session.handle_spake2 small_body]
    exact Session.onSpake2_added small_key (AList.notMem_empty _) viewA.processed hconfirm
  obtain ⟨hstate, hexit⟩ := smallSession.pass_datagram (p := passOf spake2B) (s := .start addrA) rfl
    (by decide) rfl
  rw [hstate, hexit, Session.receive_msgd (isMsgd_of_msgdBody small_body) rfl]
  exact ⟨congrArg Turn.state hhandle, (congrArg Turn.exit hhandle).trans rfl⟩

theorem small_loop : smallSession.loop [passOf spake2B] (.start addrA) =
    ((smallSession.addCandidate (passOf spake2B) viewA.body viewA.cand (confirmOf 1 tagA addrA)
      smallBefore).state, none) := by
  rw [Session.loop, small_pass.2, small_pass.1]
  rfl

theorem small_candidates : viewA.body ∈
    (smallSession.loop [passOf spake2B] (.start addrA)).1.candidates := by
  rw [small_loop]
  exact GoMap.mem_insert_if.mpr (Or.inl rfl)

/-- The candidate the small exchange has for `B`. -/
theorem small_exchange_tables :
    ∃ cand, (smallSession.loop [passOf spake2B] (.start addrA)).1.candidates.lookup viewA.body = some cand ∧
      smallSession.process viewA.body =
        .ok ⟨⟨cand.effectiveMyPoint, cand.point, cand.fingerprint, cand.isServer⟩,
          (smallSession.loop [passOf spake2B] (.start addrA)).1.keys.read cand.confirmKey,
          (smallSession.loop [passOf spake2B] (.start addrA)).1.keys.read cand.encKey⟩ := by
  obtain ⟨cand, hcand⟩ := GoMap.lookup_of_mem small_candidates
  exact ⟨cand, hcand, ((exchange_tables smallSession addrA [passOf spake2B]).2.2.2.1 _ cand hcand).2⟩

def brokenConfirm : Bytes := ascii "MSGD confirm zz" ++ [10]

/-- A confirmation that is not even hex, which the one candidate there is rejects, is put into the
buffer. -/
theorem broken_confirm_buffered :
    (smallSession.loop [passOf spake2B] (.start addrA)).2 = none ∧
    let s := (smallSession.loop [passOf spake2B] (.start addrA)).1
    msgdBody (ascii "confirm") brokenConfirm = some (ascii "zz") ∧
    (∀ key cand, s.candidates.lookup key = some cand →
      smallSession.accept s.keys cand (ascii "zz") = .error .badHex) ∧
    (∃ key cand, s.candidates.lookup key = some cand) ∧
    (smallSession.receive (passOf brokenConfirm) brokenConfirm s).state.bufferedConfirms ≠
      s.bufferedConfirms := by
  have hbody : msgdBody (ascii "confirm") brokenConfirm = some (ascii "zz") := by decide +kernel
  have hbroken : ∀ keys cand, smallSession.accept keys cand (ascii "zz") = .error .badHex := fun _ _ => rfl
  refine ⟨?_, hbody, fun _ _ _ => hbroken _ _, ⟨_, GoMap.lookup_of_mem small_candidates⟩, ?_⟩
  · rw [small_loop]
  · have hroom : (smallSession.addCandidate (passOf spake2B) viewA.body viewA.cand (confirmOf 1 tagA addrA)
        smallBefore).state.bufferedConfirms = [] := rfl
    rw [small_loop, Session.receive_msgd (isMsgd_of_msgdBody hbody) rfl, Session.handle_confirm hbody,
      Session.onConfirm_buffered (fun _ _ _ => congrArg Except.toOption (hbroken _ _)) (by decide)]
    dsimp only
    rw [(Exchange.limitInbound_kept _ _).bufferedConfirms, hroom]
    simp

end Qvole.Engine
