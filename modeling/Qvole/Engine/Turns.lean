import Qvole.Engine.Delivery

/-!
# One pass of the loop, seen from outside

What a pass puts on the wire and how it can end. A pass sends registrations, the own payload, and
confirmations of candidates; and if it ends with an authenticated peer, a candidate of the table has accepted
a confirmation that was in the buffer or has just been read.
-/

namespace Qvole.Engine

open Lib Spake2

variable {Pt : Type} [AddCommGroup Pt] {x : Session Pt} {p : Pass} {s s' : Exchange}
  {data key line : Bytes} {cand : PeerCandidate} {exit : Exit}

/-- The lines the loop writes with these candidates. -/
inductive Session.Writes (x : Session Pt) (s : Exchange) : Bytes → Prop
  | reg (c : RegClient) : Writes x s (c.regMsg x.room)
  | spake2 : Writes x s (msgLine x.room (ascii "spake2") x.spake2Payload)
  | confirm {key : Bytes} {cand : PeerCandidate} (hcand : s.candidates.lookup key = some cand) :
      Writes x s (msgLine x.room (ascii "confirm") cand.confirmPayload)

theorem Session.Writes.of_candidates (h : x.Writes s line) (hsame : s'.candidates = s.candidates) :
    x.Writes s' line := by
  cases h with
  | reg c => exact .reg c
  | spake2 => exact .spake2
  | confirm hcand => exact .confirm (hsame ▸ hcand)

/-! ### Sending -/

theorem Session.sendReg_writes (now : Int) (h : line ∈ (x.sendReg now s).sent) : x.Writes s line := by
  unfold Session.sendReg at h
  split at h
  · rw [List.mem_singleton.mp h]
    exact .reg s.reg
  · cases h

theorem Session.sendSpake2_writes (now : Int) (h : line ∈ (x.sendSpake2 now s).sent) : x.Writes s line := by
  unfold Session.sendSpake2 at h
  split at h
  · rw [List.mem_singleton.mp h]
    exact .spake2
  · cases h

theorem Session.resendConfirm_writes {now : Int} {t : Turn} (h : line ∈ (x.resendConfirm now t key).sent) :
    line ∈ t.sent ∨ x.Writes t.state line := by
  unfold Session.resendConfirm at h
  split at h
  · exact Or.inl h
  · rename_i hcand
    split at h
    · rcases List.mem_append.mp h with h | h
      · exact Or.inl h
      · rw [List.mem_singleton.mp h]
        exact Or.inr (.confirm hcand)
    · exact Or.inl h

theorem Session.resendConfirms_writes (now : Int) (keys : List Bytes) {t : Turn}
    (hsame : t.state.candidates = s.candidates) (hsent : ∀ line ∈ t.sent, x.Writes s line)
    (h : line ∈ (keys.foldl (x.resendConfirm now) t).sent) : x.Writes s line := by
  induction keys generalizing t with
  | nil => exact hsent line h
  | cons key keys ih =>
      refine ih ((x.resendConfirm_kept now t key).1.candidates.trans hsame) ?_ h
      intro line hline
      rcases Session.resendConfirm_writes hline with hline | hline
      · exact hsent line hline
      · exact hline.of_candidates hsame.symm

theorem Session.send_writes (h : line ∈ (x.send p s).sent) : x.Writes s line := by
  have hspake2 := (x.sendSpake2_kept p.now (x.sendReg p.now s).state).1.candidates
  have hreg := (x.sendReg_kept p.now s).candidates
  unfold Session.send at h
  refine Session.resendConfirms_writes p.now _ ?_ ?_ h
  · exact hspake2.trans hreg
  intro line hline
  rcases List.mem_append.mp hline with hline | hline
  · exact Session.sendReg_writes p.now hline
  · exact (Session.sendSpake2_writes p.now hline).of_candidates hreg.symm

/-! ### A datagram -/

variable [DecidableEq Pt]

theorem Session.handle_writes (h : line ∈ (x.handle p data s).sent) :
    x.Writes (x.handle p data s).state line := by
  generalize ht : x.handle p data s = t at h ⊢
  have houtcome : Outcome x p data s t := ht ▸ x.handle_outcome p data s
  cases houtcome with
  | ignored => cases h
  | registration => cases h
  | discarded => cases h
  | authenticated => cases h
  | buffered => cases h
  | @added hexBody key k cp =>
      rw [List.mem_singleton.mp h]
      exact .confirm (s := (x.addCandidate p key k cp s).state) (AList.lookup_insert _)

/-- A candidate that was not in the table before has just been sent its confirmation, with the own address of
this moment. -/
structure Session.New (x : Session Pt) (p : Pass) (data : Bytes) (s : Exchange) (key : Bytes)
    (cand : PeerCandidate) : Prop where
  body : ∃ hexBody, msgdBody (ascii "spake2") data = some hexBody ∧ payloadHex hexBody = some key
  built : ∃ k, x.process key = .ok k ∧ x.confirm k s.myAddr p.draws = .ok cand.confirmPayload
  sent : msgLine x.room (ascii "confirm") cand.confirmPayload ∈ (x.handle p data s).sent

theorem Session.handle_candidates (hroom : s.candidates.size < maxCandidates)
    (h : (x.handle p data s).state.candidates.lookup key = some cand) :
    s.candidates.lookup key = some cand ∨ x.New p data s key cand := by
  generalize ht : x.handle p data s = t at h
  have houtcome : Outcome x p data s t := ht ▸ x.handle_outcome p data s
  cases houtcome with
  | ignored => exact Or.inl h
  | registration => exact Or.inl h
  | discarded => exact Or.inl h
  | authenticated => exact Or.inl h
  | buffered => exact Or.inl h
  | @added hexBody key' k cp hbody hkey hnew hk hcp =>
      rw [Session.addCandidate] at h
      dsimp only at h
      rw [GoMap.lookup_insert_if, Exchange.makeRoom, if_neg (Nat.not_le.mpr hroom)] at h
      by_cases heq : key = key'
      · subst heq
        rw [if_pos rfl] at h
        cases h
        refine Or.inr ⟨⟨hexBody, hbody, hkey⟩, ⟨k, ?_, hcp⟩, ?_⟩
        · rw [Session.process_payloadHex hkey]
          exact hk
        · rw [ht]
          exact List.mem_singleton.mpr rfl
      · rw [if_neg heq] at h
        exact Or.inl h

/-- Nothing leaves the table while there is room. -/
theorem Session.lookup_handle (hroom : s.candidates.size < maxCandidates)
    (h : s.candidates.lookup key = some cand) :
    (x.handle p data s).state.candidates.lookup key = some cand := by
  generalize ht : x.handle p data s = t
  have houtcome : Outcome x p data s t := ht ▸ x.handle_outcome p data s
  cases houtcome with
  | ignored => exact h
  | registration => exact h
  | discarded => exact h
  | authenticated => exact h
  | buffered => exact h
  | @added hexBody key' k cp hbody hkey hnew hk hcp =>
      rw [Session.addCandidate]
      dsimp only
      have hne : key ≠ key' := by
        intro heq
        rw [← heq] at hnew
        exact hnew (AList.lookup_isSome.mp (by rw [h]; rfl))
      rw [GoMap.lookup_insert_if, if_neg hne, Exchange.makeRoom, if_neg (Nat.not_le.mpr hroom)]
      exact h

theorem Session.handle_buffered {body : Bytes} (h : body ∈ (x.handle p data s).state.bufferedConfirms) :
    body ∈ s.bufferedConfirms ∨ msgdBody (ascii "confirm") data = some body := by
  generalize ht : x.handle p data s = t at h
  have houtcome : Outcome x p data s t := ht ▸ x.handle_outcome p data s
  cases houtcome with
  | ignored => exact Or.inl h
  | registration => exact Or.inl h
  | discarded => exact Or.inl h
  | authenticated => exact Or.inl h
  | added =>
      rw [bufferedConfirms_addCandidate] at h
      exact Or.inl h
  | buffered hbody =>
      rcases List.mem_append.mp h with h | h
      · exact Or.inl h
      · rw [List.mem_singleton.mp h]
        exact Or.inr hbody

theorem Session.handle_myAddr (x : Session Pt) (p : Pass) (data : Bytes) (s : Exchange) :
    (x.handle p data s).state.myAddr = s.myAddr ∨
      externalAddr x.room (readBytes data) = some (x.handle p data s).state.myAddr := by
  cases hspake2 : msgdBody (ascii "spake2") data with
  | some hexBody =>
      left
      rw [Session.handle_spake2 hspake2]
      generalize ht : x.onSpake2 p hexBody s = t
      have houtcome : Outcome x p data s t := ht ▸ Session.onSpake2_outcome hspake2
      cases houtcome with
      | ignored => rfl
      | registration _ _ hnone => cases hnone.symm.trans hspake2
      | discarded => rfl
      | authenticated => rfl
      | buffered => rfl
      | added =>
          rw [Session.addCandidate, Exchange.makeRoom]
          dsimp only
          split
          · rfl
          · rfl
  | none =>
      cases hconfirm : msgdBody (ascii "confirm") data with
      | some hexBody =>
          left
          rw [Session.handle_confirm hconfirm, Session.onConfirm]
          split
          · rfl
          · split
            · rfl
            · rfl
      | none =>
          rw [Session.handle, hspake2, hconfirm]
          dsimp only
          cases externalAddr x.room (readBytes data) with
          | none => exact Or.inl rfl
          | some addr => exact Or.inr rfl

/-- While the loop goes on, no candidate accepts what is in the buffer. -/
theorem Session.handle_waiting (h : x.Waiting s) (hroom : s.candidates.size < maxCandidates)
    (hexit : (x.handle p data s).exit = none) : x.Waiting (x.handle p data s).state := by
  generalize ht : x.handle p data s = t at hexit ⊢
  have houtcome : Outcome x p data s t := ht ▸ x.handle_outcome p data s
  have htables := h.tables.outcome houtcome
  cases houtcome with
  | ignored => exact h
  | registration => exact ⟨htables, h.unmatched⟩
  | discarded => exact ⟨htables, h.unmatched⟩
  | authenticated => cases hexit
  | added _ hkey _ hk => exact h.addCandidate hkey hk hroom hexit
  | @buffered hexBody _ _ hnone _ =>
      refine ⟨htables, ?_⟩
      intro body hbody key hkey
      rcases List.mem_append.mp hbody with hbody | hbody
      · exact h.unmatched body hbody key hkey
      · obtain ⟨cand, hcand⟩ := GoMap.lookup_of_mem hkey
        rw [List.mem_singleton.mp hbody]
        exact (h.tables.holds hcand).accept_eq_none.mp (hnone key cand hcand)

/-- A confirmation that a candidate accepts ends the loop. -/
theorem Session.handle_confirm_exit {hexBody addr : Bytes}
    (hbody : msgdBody (ascii "confirm") data = some hexBody) (hcand : s.candidates.lookup key = some cand)
    (haccept : x.accept s.keys cand hexBody = .ok addr) : (x.handle p data s).exit ≠ none := by
  rw [Session.handle_confirm hbody, Session.onConfirm]
  split
  · exact Option.some_ne_none _
  · rename_i hnone
    have hrejected := Session.tryCandidate_of_none hnone hcand
    rw [haccept] at hrejected
    cases hrejected

/-! ### A pass -/

variable (x p s) in
/-- Either the pass takes nothing in: it ends for another reason, reads nothing or drops what it reads. Or it
handles a datagram, in a state that differs from that before the pass in the times at most. -/
inductive Session.PassCases : Prop
  | idle (hkept : s.Kept (x.pass p s).state)
      (hexit : ∀ addr fp isServer, (x.pass p s).exit ≠ some (.authenticated addr fp isServer))
      (hsent : ∀ line ∈ (x.pass p s).sent, x.Writes s line) : PassCases
  | handles {data : Bytes} {s₁ : Exchange} (hread : p.read = .datagram data) (hkept : s.Kept s₁)
      (hstate : (x.pass p s).state = (x.handle p data s₁).state)
      (hexit : (x.pass p s).exit = (x.handle p data s₁).exit)
      (hsent : ∀ line, line ∈ (x.pass p s).sent ↔ line ∈ (x.send p s).sent ∨ line ∈ (x.handle p data s₁).sent) :
      PassCases

theorem Session.pass_cases (x : Session Pt) (p : Pass) (s : Exchange) : x.PassCases p s := by
  obtain ⟨hkept, hrunning⟩ := x.send_kept p s
  by_cases hcancelled : p.cancelled = true
  · have hpass : x.pass p s = { state := s, exit := some .cancelled } := if_pos hcancelled
    apply Session.PassCases.idle
    · rw [hpass]
      exact .refl s
    · simp [hpass]
    · simp [hpass]
  by_cases hdeadline : x.deadline < p.now
  · have hpass : x.pass p s = { state := s, exit := some .timeout } := by
      rw [Session.pass, if_neg hcancelled, if_pos hdeadline]
    apply Session.PassCases.idle
    · rw [hpass]
      exact .refl s
    · simp [hpass]
    · simp [hpass]
  cases hread : p.read with
  | timeout =>
      have hpass : x.pass p s = x.send p s := by
        rw [Session.pass, if_neg hcancelled, if_neg hdeadline, hread]
      apply Session.PassCases.idle
      · rw [hpass]
        exact hkept
      · simp [hpass, hrunning]
      · rw [hpass]
        exact fun line => Session.send_writes
  | failed =>
      have hpass : x.pass p s = { x.send p s with exit := some .readFailed } := by
        rw [Session.pass, if_neg hcancelled, if_neg hdeadline, hread]
      apply Session.PassCases.idle
      · rw [hpass]
        exact hkept
      · simp [hpass]
      · rw [hpass]
        exact fun line => Session.send_writes
  | datagram data =>
      have hpass : x.pass p s = { x.receive p data (x.send p s).state with
          sent := (x.send p s).sent ++ (x.receive p data (x.send p s).state).sent } := by
        rw [Session.pass, if_neg hcancelled, if_neg hdeadline, hread]
      by_cases hlimited : isMsgd data = true ∧ ((x.send p s).state.limitInbound p.received).1 = true
      · have hdropped : x.receive p data (x.send p s).state =
            { state := ((x.send p s).state.limitInbound p.received).2 } := by
          rw [Session.receive, if_pos hlimited.1]
          exact if_pos hlimited.2
        rw [hdropped] at hpass
        apply Session.PassCases.idle
        · rw [hpass]
          exact hkept.trans (Exchange.limitInbound_kept p.received _)
        · simp [hpass]
        · simpa [hpass] using fun line => Session.send_writes
      · have hdiscards : ¬ x.Discards s p := by
          rintro ⟨data', hread', hmsgd, hlimit⟩
          cases hread.symm.trans hread'
          exact hlimited ⟨hmsgd, hlimit⟩
        obtain ⟨s₁, hkept₁, hreceive⟩ := Session.receive_of_not_discards hread hdiscards
        rw [hreceive] at hpass
        refine .handles hread hkept₁ ?_ ?_ ?_
        · rw [hpass]
        · rw [hpass]
        · intro line
          rw [hpass, List.mem_append]

end Qvole.Engine
