import Qvole.Engine.Turns

/-!
# What the loop sends again

The datagrams of the loop may get lost, so it sends its payload and its confirmations again once they are
older than an interval. The loop knows no time but that of its clock: once this is far enough ahead, whatever
there is to send is sent, and the inbound limit lets in what is read.
-/

namespace Qvole.Engine

open Lib Spake2

variable {Pt : Type} [AddCommGroup Pt] {x : Session Pt} {p : Pass} {s : Exchange} {t : Turn}
  {data key key' line : Bytes} {cand : PeerCandidate} {now now' : Int}

/-! ### What is due is sent -/

theorem Session.mem_resendConfirm (h : line ∈ t.sent) : line ∈ (x.resendConfirm now t key).sent := by
  unfold Session.resendConfirm
  split
  · exact h
  · split
    · exact List.mem_append_left _ h
    · exact h

theorem Session.mem_resendConfirms (keys : List Bytes) (h : line ∈ t.sent) :
    line ∈ (keys.foldl (x.resendConfirm now) t).sent :=
  List.foldlRecOn (motive := fun t : Turn => line ∈ t.sent) keys _ h fun _ ht _ _ => mem_resendConfirm ht

theorem Session.mem_resendConfirm_self (hcand : t.state.candidates.lookup key = some cand)
    (hdue : ∀ ls ∈ t.state.confirmLastSent.lookup key, x.confirmResend < now - ls) :
    msgLine x.room (ascii "confirm") cand.confirmPayload ∈ (x.resendConfirm now t key).sent := by
  have hall : ((t.state.confirmLastSent.lookup key).all fun ls => decide (x.confirmResend < now - ls)) = true := by
    rw [Option.all_eq_true]
    exact fun ls hls => decide_eq_true (hdue ls hls)
  rw [resendConfirm, hcand]
  dsimp only
  rw [if_pos hall]
  exact List.mem_append_right _ (List.mem_singleton.mpr rfl)

theorem Session.resendConfirm_lookup (hne : key' ≠ key) :
    (x.resendConfirm now t key).state.confirmLastSent.lookup key' = t.state.confirmLastSent.lookup key' := by
  unfold Session.resendConfirm
  split
  · rfl
  · split
    · exact AList.lookup_insert_ne hne
    · rfl

/-- The loop over the candidates comes to every one of them, and the turns before are not about it. -/
theorem Session.mem_resendConfirms_of_due {keys : List Bytes} (hkey : key ∈ keys)
    (hcand : t.state.candidates.lookup key = some cand)
    (hdue : ∀ ls ∈ t.state.confirmLastSent.lookup key, x.confirmResend < now - ls) :
    msgLine x.room (ascii "confirm") cand.confirmPayload ∈ (keys.foldl (x.resendConfirm now) t).sent := by
  induction keys generalizing t with
  | nil => exact absurd hkey List.not_mem_nil
  | cons first keys ih =>
      rw [List.foldl_cons]
      by_cases heq : key = first
      · rw [← heq]
        exact Session.mem_resendConfirms keys (Session.mem_resendConfirm_self hcand hdue)
      · apply ih (List.mem_of_ne_of_mem heq hkey)
        · rw [(x.resendConfirm_kept now t first).1.candidates]
          exact hcand
        · rw [Session.resendConfirm_lookup heq]
          exact hdue

theorem Session.sendReg_receivedREGD (now : Int) (s : Exchange) :
    (x.sendReg now s).state.reg.receivedREGD = s.reg.receivedREGD := by
  unfold Session.sendReg
  split
  · rfl
  · rfl

theorem Session.sendReg_times (now : Int) (s : Exchange) :
    (x.sendReg now s).state.lastSpake2Sent = s.lastSpake2Sent ∧
      (x.sendReg now s).state.confirmLastSent = s.confirmLastSent ∧
      (x.sendReg now s).state.inboundWindow = s.inboundWindow := by
  unfold Session.sendReg
  split
  · exact ⟨rfl, rfl, rfl⟩
  · exact ⟨rfl, rfl, rfl⟩

theorem Session.sendSpake2_times (now : Int) (s : Exchange) :
    (x.sendSpake2 now s).state.confirmLastSent = s.confirmLastSent ∧
      (x.sendSpake2 now s).state.inboundWindow = s.inboundWindow := by
  unfold Session.sendSpake2
  split
  · exact ⟨rfl, rfl⟩
  · exact ⟨rfl, rfl⟩

theorem Session.spake2_mem_send (hregd : s.reg.receivedREGD = true)
    (hdue : ∀ t ∈ s.lastSpake2Sent, x.spake2Resend < p.now - t) :
    msgLine x.room (ascii "spake2") x.spake2Payload ∈ (x.send p s).sent := by
  apply Session.mem_resendConfirms
  apply List.mem_append_right
  have hall : ((x.sendReg p.now s).state.lastSpake2Sent.all fun t => decide (x.spake2Resend < p.now - t)) = true := by
    rw [(x.sendReg_times p.now s).1, Option.all_eq_true]
    exact fun t ht => decide_eq_true (hdue t ht)
  rw [Session.sendSpake2, if_pos ⟨(x.sendReg_receivedREGD p.now s).trans hregd, hall⟩]
  exact List.mem_singleton.mpr rfl

theorem Session.confirm_mem_send (hcand : s.candidates.lookup key = some cand)
    (hdue : ∀ ls ∈ s.confirmLastSent.lookup key, x.confirmResend < p.now - ls) :
    msgLine x.room (ascii "confirm") cand.confirmPayload ∈ (x.send p s).sent := by
  have hcandidates : (x.sendSpake2 p.now (x.sendReg p.now s).state).state.candidates = s.candidates :=
    (x.sendSpake2_kept p.now _).1.candidates.trans (x.sendReg_kept p.now s).candidates
  have hsent : (x.sendSpake2 p.now (x.sendReg p.now s).state).state.confirmLastSent = s.confirmLastSent :=
    (x.sendSpake2_times p.now _).1.trans (x.sendReg_times p.now s).2.1
  apply Session.mem_resendConfirms_of_due
  · rw [(p.sendOrder.perm _).mem_iff, hcandidates]
    exact AList.mem_keys.mp (GoMap.mem_of_lookup hcand)
  · dsimp only
    rw [hcandidates]
    exact hcand
  · dsimp only
    rw [hsent]
    exact hdue

/-- A pass that reads nothing only sends. -/
theorem Session.pass_timeout [DecidableEq Pt] (hcancelled : p.cancelled = false) (hdeadline : p.now ≤ x.deadline)
    (hread : p.read = .timeout) : x.pass p s = x.send p s := by
  rw [Session.pass, hcancelled, if_neg (by decide), if_neg (Int.not_lt.mpr hdeadline), hread]

/-! ### The inbound limit -/

theorem Session.send_inboundWindow (p : Pass) (s : Exchange) :
    (x.send p s).state.inboundWindow = s.inboundWindow := by
  unfold Session.send
  refine List.foldlRecOn (motive := fun t : Turn => t.state.inboundWindow = s.inboundWindow) _ _ ?_ ?_
  · exact (x.sendSpake2_times p.now _).2.trans (x.sendReg_times p.now s).2.2
  · intro t ht key _
    rw [← ht, Session.resendConfirm]
    split
    · rfl
    · split
      · rfl
      · rfl

theorem Exchange.limitInbound_of_over (h : ∀ t ∈ s.inboundWindow, 1000000000 ≤ now - t) :
    (s.limitInbound now).1 = false := by
  have hover : (s.inboundWindow.all fun t => decide (1000000000 ≤ now - t)) = true := by
    rw [Option.all_eq_true]
    exact fun t ht => decide_eq_true (h t ht)
  rw [Exchange.limitInbound, if_pos hover]
  rfl

variable [DecidableEq Pt]

/-- Once the window of the inbound limit is over, a pass takes in what it reads. -/
theorem Session.pass_handles (hcancelled : p.cancelled = false) (hdeadline : p.now ≤ x.deadline)
    (hread : p.read = .datagram data) (hover : ∀ t ∈ s.inboundWindow, 1000000000 ≤ p.received - t) :
    ∃ s₁, s.Kept s₁ ∧ (x.pass p s).state = (x.handle p data s₁).state ∧
      (x.pass p s).exit = (x.handle p data s₁).exit := by
  have hdiscards : ¬ x.Discards s p := by
    rintro ⟨_, _, _, hlimit⟩
    rw [Exchange.limitInbound_of_over (by rw [x.send_inboundWindow p s]; exact hover)] at hlimit
    cases hlimit
  obtain ⟨s₁, hkept, hreceive⟩ := Session.receive_of_not_discards hread hdiscards
  obtain ⟨hstate, hexit⟩ := x.pass_datagram (s := s) hcancelled hdeadline hread
  rw [hreceive] at hstate hexit
  exact ⟨s₁, hkept, hstate, hexit⟩

/-! ### The times of the loop -/

/-- No time the loop remembers is ahead of the clock. -/
structure Exchange.Past (now : Int) (s : Exchange) : Prop where
  spake2 : ∀ t ∈ s.lastSpake2Sent, t ≤ now
  confirms : ∀ key, ∀ t ∈ s.confirmLastSent.lookup key, t ≤ now
  inbound : ∀ t ∈ s.inboundWindow, t ≤ now

namespace Exchange.Past

theorem start (now : Int) (myAddr : Bytes) : (Exchange.start myAddr).Past now where
  spake2 t h := by cases h
  confirms key t h := by cases h
  inbound t h := by cases h

theorem mono (h : s.Past now) (hle : now ≤ now') : s.Past now' where
  spake2 t ht := (h.spake2 t ht).trans hle
  confirms key t ht := (h.confirms key t ht).trans hle
  inbound t ht := (h.inbound t ht).trans hle

theorem confirmed (h : s.Past now) (hle : now' ≤ now) (key : Bytes) :
    Exchange.Past now { s with confirmLastSent := s.confirmLastSent.insert key now' } where
  spake2 := h.spake2
  confirms key' t ht := by
    rw [GoMap.lookup_insert_if] at ht
    split at ht
    · cases ht
      exact hle
    · exact h.confirms key' t ht
  inbound := h.inbound

omit [DecidableEq Pt] in
theorem sendReg (h : s.Past now) (before : Int) : (x.sendReg before s).state.Past now := by
  obtain ⟨hspake2, hconfirms, hinbound⟩ := x.sendReg_times before s
  exact ⟨hspake2 ▸ h.spake2, hconfirms ▸ h.confirms, hinbound ▸ h.inbound⟩

omit [DecidableEq Pt] in
theorem sendSpake2 (h : s.Past now) (hle : now' ≤ now) : (x.sendSpake2 now' s).state.Past now := by
  unfold Session.sendSpake2
  split
  · refine ⟨fun t ht => ?_, h.confirms, h.inbound⟩
    cases ht
    exact hle
  · exact h

omit [DecidableEq Pt] in
theorem send (h : s.Past now) (hle : p.now ≤ now) : (x.send p s).state.Past now := by
  unfold Session.send
  refine List.foldlRecOn (motive := fun t : Turn => t.state.Past now) _ _ ?_ ?_
  · exact (h.sendReg p.now).sendSpake2 hle
  · intro t ht key _
    unfold Session.resendConfirm
    split
    · exact ht
    · split
      · exact ht.confirmed hle key
      · exact ht

theorem limitInbound (h : s.Past now) (hle : now' ≤ now) : (s.limitInbound now').2.Past now := by
  unfold Exchange.limitInbound
  dsimp only
  split
  · refine ⟨h.spake2, h.confirms, fun t ht => ?_⟩
    cases ht
    exact hle
  · exact ⟨h.spake2, h.confirms, h.inbound⟩

/-- The candidate that makes room takes its time along. -/
theorem makeRoom (h : s.Past now) (order : RangeOrder Bytes) : (s.makeRoom order).Past now := by
  unfold Exchange.makeRoom
  split
  · refine ⟨h.spake2, fun key t ht => ?_, h.inbound⟩
    rw [show (s.evictOldest order).confirmLastSent = s.confirmLastSent.erase (s.evictKey order) from rfl,
      GoMap.lookup_erase_if] at ht
    split at ht
    · cases ht
    · exact h.confirms key t ht
  · exact h

theorem outcome (h : s.Past now) (hle : p.received ≤ now) (hout : Outcome x p data s t) : t.state.Past now := by
  cases hout with
  | ignored => exact h
  | registration => exact ⟨h.spake2, h.confirms, h.inbound⟩
  | discarded => exact ⟨h.spake2, h.confirms, h.inbound⟩
  | @added hexBody key k cp =>
      have hkeys : Exchange.Past now { s with keys := s.keys ++ [k.confirmKey, k.encKey] } :=
        ⟨h.spake2, h.confirms, h.inbound⟩
      have hadded := (hkeys.makeRoom p.order).confirmed hle key
      exact ⟨hadded.spake2, hadded.confirms, hadded.inbound⟩
  | authenticated => exact h
  | buffered => exact ⟨h.spake2, h.confirms, h.inbound⟩

theorem receive (h : s.Past now) (hle : p.received ≤ now) : (x.receive p data s).state.Past now := by
  unfold Session.receive
  split
  · dsimp only
    split
    · exact h.limitInbound hle
    · exact (h.limitInbound hle).outcome hle (x.handle_outcome p data _)
  · exact h.outcome hle (x.handle_outcome p data s)

theorem pass (h : s.Past now) (hnow : p.now ≤ now) (hreceived : p.received ≤ now) :
    (x.pass p s).state.Past now := by
  unfold Session.pass
  split
  · exact h
  · split
    · exact h
    · dsimp only
      split
      · exact h.send hnow
      · exact h.send hnow
      · exact (h.send hnow).receive hreceived

end Exchange.Past

end Qvole.Engine
