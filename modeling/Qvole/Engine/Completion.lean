import Qvole.Engine.Network

/-!
# What a meeting comes to

A peer that is authenticated has the other one: its certificate, its role, an address of its. TLS then pins the
certificate.

And no meeting is lost for the datagrams it has lost. A peer that runs sends its payload and its confirmation
again and again, so that both get through once the network delivers for a while, whatever was lost before.
What cannot be made good is the confirmation of a peer that has ended: nobody sends it again. As long as this
one is under way, the other peer ends as well.
-/

namespace Qvole.Engine

open Lib Relay Spake2

variable {Pt : Type} [AddCommGroup Pt] [DecidableEq Pt]

/-- A pass of a peer that is not cancelled ends the loop with an authenticated peer or not at all, unless the
time is over or the read fails. -/
theorem Session.pass_exit_cases {x : Session Pt} {p : Pass} {s : Exchange} (hcancelled : p.cancelled = false)
    (hdeadline : p.now ≤ x.deadline) (hread : p.read ≠ .failed) :
    (x.pass p s).exit = none ∨ ∃ addr fp isServer, (x.pass p s).exit = some (.authenticated addr fp isServer) := by
  have hhandle : ∀ data s, (x.handle p data s).exit = none ∨
      ∃ addr fp isServer, (x.handle p data s).exit = some (.authenticated addr fp isServer) := by
    intro data s
    cases hexit : (x.handle p data s).exit with
    | none => exact Or.inl rfl
    | some exit =>
        obtain ⟨_, cand, _, addr, _, _, _, rfl⟩ := (x.handle_outcome p data s).exit hexit
        exact Or.inr ⟨addr, _, _, rfl⟩
  cases hdata : p.read with
  | timeout =>
      rw [Session.pass_timeout hcancelled hdeadline hdata]
      exact Or.inl (x.send_kept p s).2
  | failed => exact absurd hdata hread
  | datagram data =>
      rw [(Session.pass_datagram hcancelled hdeadline hdata).2, Session.receive]
      split
      · dsimp only
        split
        · exact Or.inl rfl
        · exact hhandle data _
      · exact hhandle data _

/-- A pass that takes no time. -/
def passAt (now : Int) (read : ReadResult) (draws : ConfirmDraws) : Pass :=
  ⟨false, now, .asKept _, read, now, draws, .asKept _⟩

namespace Meeting

variable {m : Meeting Pt} {i j : Side} {line phase body cp addr : Bytes} {n n' : Network} {now later T D : Int}
  {log : List (LogEntry Transit (Side × Exit))} {k : Candidate} {read : ReadResult} {draws : ConfirmDraws}

/-! ### The lines -/

variable (m) in
def spake2Line (i : Side) : Bytes := msgLine m.room (ascii "spake2") (m.session i).spake2Payload

variable (m) in
def confirmLine (cp : Bytes) : Bytes := msgLine m.room (ascii "confirm") cp

omit [DecidableEq Pt] in
theorem parseMsg_spake2Line (m : Meeting Pt) (i : Side) :
    parseMsg (m.spake2Line i) = some (m.room, ascii "spake2", m.key i) := by
  have hlen := m.length_payload i
  exact parseMsg_iff.mpr (isMsg_msgLine m.validRoomName_room m.length_room (Or.inl rfl)
    (List.ne_nil_of_length_pos (by rw [hlen]; decide)) (by rw [hlen]; decide))

theorem Built.parseMsg_confirmLine (h : m.Built i cp) :
    parseMsg (m.confirmLine cp) = some (m.room, ascii "confirm", hexEncode cp) :=
  parseMsg_iff.mpr (isMsg_msgLine m.validRoomName_room m.length_room (Or.inr rfl)
    (List.ne_nil_of_length_pos (by rw [h.length]; decide)) (by rw [h.length]; decide))

theorem Built.confirmLine_ne (h : m.Built i cp) (j : Side) : m.confirmLine cp ≠ m.spake2Line j := by
  intro heq
  have hparse := h.parseMsg_confirmLine
  rw [heq, m.parseMsg_spake2Line j] at hparse
  simp only [Option.some.injEq, Prod.mk.injEq] at hparse
  exact absurd hparse.2.1 (by decide)

omit [DecidableEq Pt] in
theorem msgdBody_spake2 (m : Meeting Pt) (i : Side) :
    msgdBody (ascii "spake2") (msgdLine (ascii "spake2") (m.key i)) = some (m.key i) := by
  have hlen := m.length_payload i
  exact msgdBody_msgdLine (Or.inl rfl) (List.ne_nil_of_length_pos (by rw [hlen]; decide)) (by rw [hlen]; decide)

theorem Built.msgdBody_confirm (h : m.Built i cp) :
    msgdBody (ascii "confirm") (msgdLine (ascii "confirm") (hexEncode cp)) = some (hexEncode cp) :=
  msgdBody_msgdLine (Or.inr rfl) (List.ne_nil_of_length_pos (by rw [h.length]; decide)) (by rw [h.length]; decide)

theorem Built.msgdLine_ne (h : m.Built i cp) (j : Side) :
    msgdLine (ascii "confirm") (hexEncode cp) ≠ msgdLine (ascii "spake2") (m.key j) := by
  intro heq
  have hnone := msgdBody_spake2_of_confirm h.msgdBody_confirm
  rw [heq, m.msgdBody_spake2 j] at hnone
  cases hnone

/-! ### How far a meeting is -/

variable (m) in
/-- Both peers are members of the room. Each is authenticated, or runs and has time up to `T`. -/
structure Open (T : Int) (n : Network) : Prop where
  members : ∀ i, n.world.relay.Admitted m.room (m.addr i).string
  trying : ∀ i, n.world.exit i = none ∧ T ≤ m.deadline i ∨
    ∃ addr fp isServer, n.world.exit i = some (.authenticated addr fp isServer)

variable (m) in
/-- The confirmation of the peer is under way, on the one link or the other. -/
def Committed (n : Network) (i : Side) : Prop :=
  ∃ cp, m.Confirms n.world.exchange i cp ∧ ((i, m.confirmLine cp) ∈ n.up ∨
    ∃ dst, (msgdLine (ascii "confirm") (hexEncode cp), dst) ∈ n.down ∧ dst.string = (m.addr i.other).string)

variable (m) in
/-- The meeting is no less open, nobody has lost a candidate, and who had ended has ended. -/
structure Onward (T : Int) (n n' : Network) : Prop where
  opened : m.Open T n'
  confirms : ∀ i cp, m.Confirms n.world.exchange i cp → m.Confirms n'.world.exchange i cp
  exits : ∀ i, n.world.exit i ≠ none → n'.world.exit i ≠ none

omit [DecidableEq Pt] in
theorem Onward.refl (h : m.Open T n) : m.Onward T n n := ⟨h, fun _ _ => id, fun _ => id⟩

omit [DecidableEq Pt] in
theorem Onward.trans {n₁ n₂ : Network} (h : m.Onward T n n₁) (h' : m.Onward T n₁ n₂) : m.Onward T n n₂ :=
  ⟨h'.opened, fun i cp hcp => h'.confirms i cp (h.confirms i cp hcp), fun i hi => h'.exits i (h.exits i hi)⟩

omit [DecidableEq Pt] in
/-- What keeps the datagrams of a confirmation keeps it under way. -/
theorem Committed.onward (h : m.Committed n i) (honward : m.Onward T n n')
    (hup : ∀ cp, m.Confirms n.world.exchange i cp → (i, m.confirmLine cp) ∈ n.up → (i, m.confirmLine cp) ∈ n'.up)
    (hdown : ∀ cp dst, m.Confirms n.world.exchange i cp → dst.string = (m.addr i.other).string →
      (msgdLine (ascii "confirm") (hexEncode cp), dst) ∈ n.down →
      (msgdLine (ascii "confirm") (hexEncode cp), dst) ∈ n'.down) : m.Committed n' i := by
  obtain ⟨cp, hcp, hsent⟩ := h
  refine ⟨cp, honward.confirms i cp hcp, hsent.imp (hup cp hcp) ?_⟩
  rintro ⟨dst, hmem, hdst⟩
  exact ⟨dst, hdown cp dst hcp hdst hmem, hdst⟩

omit [DecidableEq Pt] in
theorem Committed.confirms (h : m.Committed n i) : ∃ cp, m.Confirms n.world.exchange i cp :=
  h.imp fun _ hcp => hcp.1

omit [DecidableEq Pt] in
theorem Open.authenticated (h : m.Open T n) (hended : n.world.exit i ≠ none) :
    ∃ addr fp isServer, n.world.exit i = some (.authenticated addr fp isServer) :=
  (h.trying i).resolve_left fun hrunning => hended hrunning.1

omit [DecidableEq Pt] in
theorem Open.deadline (h : m.Open T n) (hrunning : n.world.exit i = none) : T ≤ m.deadline i := by
  rcases h.trying i with ⟨_, hdeadline⟩ | ⟨addr, fp, isServer, hexit⟩
  · exact hdeadline
  · cases hrunning.symm.trans hexit

variable (m) in
/-- A time in which every window of a limit and every interval between two sendings passes. -/
structure Period (D : Int) : Prop where
  rate : m.cfg.rateWindow < D
  inbound : 1000000000 ≤ D
  spake2 : ∀ i, m.spake2Resend i < D
  confirm : ∀ i, m.confirmResend i < D

omit [DecidableEq Pt] in
theorem Period.le (h : m.Period D) (now : Int) : now ≤ now + D := by
  have hpos := h.inbound
  omega

/-! ### A pass -/

variable (m) in
/-- The network behind a pass of the peer that takes no time. -/
def reads (n : Network) (i : Side) (now : Int) (read : ReadResult) (draws : ConfirmDraws) : Network :=
  (m.transit n now (.happens (.pass i (passAt now read draws)))).1

theorem exchange_reads : (m.reads n i now read draws).world.exchange i =
    ((m.session i).pass (passAt now read draws) (n.world.exchange i)).state := World.exchange_after

theorem exit_reads : (m.reads n i now read draws).world.exit i =
    ((m.session i).pass (passAt now read draws) (n.world.exchange i)).exit := World.exit_after

theorem exchange_reads_of_ne (hj : j ≠ i) :
    (m.reads n i now read draws).world.exchange j = n.world.exchange j := World.exchange_after_of_ne hj

theorem exit_reads_of_ne (hj : j ≠ i) : (m.reads n i now read draws).world.exit j = n.world.exit j :=
  World.exit_after_of_ne hj

theorem mem_up_reads : (i, line) ∈ (m.reads n i now read draws).up ↔ (i, line) ∈ n.up ∨
    line ∈ ((m.session i).pass (passAt now read draws) (n.world.exchange i)).sent := by
  rw [show (m.reads n i now read draws).up = n.up ++ _ from rfl, List.mem_append]
  simp

theorem up_subset_reads : n.up ⊆ (m.reads n i now read draws).up := List.subset_append_left _ _

theorem mem_down_reads {x : Bytes × UDPAddr} (hx : x ∈ n.down) (hother : read.takes (m.addr i) x = false) :
    x ∈ (m.reads n i now read draws).down :=
  (List.mem_eraseP_of_neg (by rw [show (passAt now read draws).read = read from rfl, hother]; decide)).mpr hx

/-- A pass of a peer that runs may happen and brings the meeting no further away. A candidate it makes is sent
its confirmation. -/
theorem Open.reads (hopen : m.Open T n) (htime : m.InTime now n) (hT : now ≤ T)
    (hrunning : n.world.exit i = none) (hread : read ≠ .failed)
    (hoffers : n.underWay.offers (m.addr i) read = true) (draws : ConfirmDraws) :
    m.Possible n now (.happens (.pass i (passAt now read draws))) ∧
      m.Onward T n (m.reads n i now read draws) ∧
      ∀ cp, m.Confirms (m.reads n i now read draws).world.exchange i cp →
        m.Confirms n.world.exchange i cp ∨ (i, m.confirmLine cp) ∈ (m.reads n i now read draws).up := by
  have hinv := htime.inv
  have hmay : m.May n.underWay now (.pass i (passAt now read draws)) := ⟨hrunning, hoffers⟩
  have hpassed := (hinv.sound i).pass (p := passAt now read draws)
    (fun data => hinv.reads (hmay.of_underWay htime.up htime.down)) fun cp => hinv.built i.other
  refine ⟨⟨hmay, htime.clock i, le_refl now, rfl⟩, ⟨⟨hopen.members, ?_⟩, hpassed.mono, ?_⟩, ?_⟩
  · intro j
    by_cases hj : j = i
    · subst hj
      have hdeadline := hopen.deadline hrunning
      rw [exit_reads]
      exact (Session.pass_exit_cases rfl (hT.trans hdeadline) hread).imp_left fun hnone => ⟨hnone, hdeadline⟩
    · rw [exit_reads_of_ne hj]
      exact hopen.trying j
  · intro j hended
    have hj : j ≠ i := by
      rintro rfl
      exact hended hrunning
    rw [exit_reads_of_ne hj]
    exact hended
  · intro cp hcp
    obtain ⟨cand, hcand, rfl⟩ := confirms_after_self.mp hcp
    rcases hpassed.announces cand hcand with hold | hnew
    · exact Or.inl ⟨cand, hold, rfl⟩
    · exact Or.inr (mem_up_reads.mpr (Or.inr hnew))

/-! ### A peer sends again -/

variable (m) in
/-- What the peer can still do for the meeting: it runs and is registered, so that it sends, or it has ended and
its confirmation is under way. -/
def Ready (n : Network) (i : Side) : Prop :=
  n.world.exit i = none ∧ (n.world.exchange i).reg.receivedREGD = true ∨ n.world.exit i ≠ none ∧ m.Committed n i

variable (m) in
/-- The peer has done it: its payload is under way, and the confirmation too if there is one. -/
def Spoken (n : Network) (i : Side) : Prop :=
  n.world.exit i = none ∧ (i, m.spake2Line i) ∈ n.up ∧
      (∀ cp, m.Confirms n.world.exchange i cp → (i, m.confirmLine cp) ∈ n.up) ∨
    n.world.exit i ≠ none ∧ m.Committed n i

variable (m) in
/-- Nothing has happened at the peer, and nothing under way has got lost. -/
structure Untouched (i : Side) (n n' : Network) : Prop where
  exchange : n'.world.exchange i = n.world.exchange i
  exit : n'.world.exit i = n.world.exit i
  up : n.up ⊆ n'.up
  down : n.down ⊆ n'.down

omit [DecidableEq Pt] in
theorem Untouched.committed (h : Untouched i n n') (hcommitted : m.Committed n i) : m.Committed n' i := by
  obtain ⟨cp, hcp, hsent⟩ := hcommitted
  refine ⟨cp, by rw [Confirms, h.exchange]; exact hcp, hsent.imp (fun hline => h.up hline) ?_⟩
  rintro ⟨dst, hline, hdst⟩
  exact ⟨dst, h.down hline, hdst⟩

omit [DecidableEq Pt] in
theorem Untouched.ready (h : Untouched i n n') (hready : m.Ready n i) : m.Ready n' i := by
  rw [Ready, h.exit, h.exchange]
  exact hready.imp_right fun hended => ⟨hended.1, h.committed hended.2⟩

omit [DecidableEq Pt] in
theorem Untouched.spoken (h : Untouched i n n') (hspoken : m.Spoken n i) : m.Spoken n' i := by
  rw [Spoken, h.exit]
  refine hspoken.imp (fun ⟨hrunning, hspake2, hannounced⟩ => ⟨hrunning, h.up hspake2, fun cp hcp => ?_⟩)
    fun hended => ⟨hended.1, h.committed hended.2⟩
  rw [Confirms, h.exchange] at hcp
  exact h.up (hannounced cp hcp)

theorem speaks (hD : m.Period D) (hrun : m.network.Run m.Possible log n) (hclock : ∀ x ∈ log.head?, x.time ≤ now)
    (hT : now + D ≤ T) (hopen : m.Open T n) (hready : m.Ready n i) :
    m.network.Can m.Possible log (now + D) fun n' =>
      m.Onward T n n' ∧ m.Spoken n' i ∧ Untouched i.other n n' := by
  have hclock' : ∀ x ∈ log.head?, x.time ≤ now + D := fun x hx => (hclock x hx).trans (hD.le now)
  rcases hready with ⟨hrunning, hregd⟩ | hended
  · have hpast := (inTime_of_run hrun hclock).past i
    let draws : ConfirmDraws := ⟨none, none, fun _ => none⟩
    obtain ⟨hpossible, honward, _⟩ := hopen.reads (inTime_of_run hrun hclock') hT hrunning
      (show ReadResult.timeout ≠ .failed from ReadResult.noConfusion) rfl draws
    have hpass : (m.session i).pass (passAt (now + D) .timeout draws) (n.world.exchange i) =
        (m.session i).send (passAt (now + D) .timeout draws) (n.world.exchange i) :=
      Session.pass_timeout rfl (hT.trans (hopen.deadline hrunning)) rfl
    have hkept := (m.session i).send_kept (passAt (now + D) .timeout draws) (n.world.exchange i)
    refine hrun.can_step _ hclock' hpossible ⟨honward, Or.inl ⟨?_, ?_, ?_⟩, ?_⟩
    · exact exit_reads.trans (by rw [hpass]; exact hkept.2)
    · refine mem_up_reads.mpr (Or.inr ?_)
      rw [hpass]
      apply Session.spake2_mem_send hregd
      intro t ht
      have hle := hpast.spake2 t ht
      have hresend := hD.spake2 i
      show m.spake2Resend i < now + D - t
      omega
    · intro cp hcp
      obtain ⟨cand, hcand, rfl⟩ := confirms_after_self.mp hcp
      rw [hpass, hkept.1.candidates] at hcand
      refine mem_up_reads.mpr (Or.inr ?_)
      rw [hpass]
      apply Session.confirm_mem_send hcand
      intro t ht
      have hle := hpast.confirms _ t ht
      have hresend := hD.confirm i
      show m.confirmResend i < now + D - t
      omega
    · exact ⟨exchange_reads_of_ne i.other_ne, exit_reads_of_ne i.other_ne, up_subset_reads,
        fun x hx => mem_down_reads hx rfl⟩
  · exact hrun.can hclock' ⟨.refl hopen, Or.inr hended, rfl, rfl, List.Subset.refl _, List.Subset.refl _⟩

theorem both_speak (hD : m.Period D) (hrun : m.network.Run m.Possible log n)
    (hclock : ∀ x ∈ log.head?, x.time ≤ now) (hT : now + 2 * D ≤ T) (hopen : m.Open T n)
    (hready : ∀ i, m.Ready n i) :
    m.network.Can m.Possible log (now + 2 * D) fun n' => m.Onward T n n' ∧ ∀ i, m.Spoken n' i := by
  have hpos := hD.inbound
  refine (speaks hD hrun hclock (by omega) hopen (hready .a)).bind ?_
  intro log₁ n₁ hrun₁ hclock₁ ⟨honward₁, hspokenA, huntouchedB⟩
  rw [show now + 2 * D = now + D + D by omega] at hT ⊢
  refine (speaks hD hrun₁ hclock₁ hT honward₁.opened (huntouchedB.ready (hready .b))).bind ?_
  intro log₂ n₂ hrun₂ hclock₂ ⟨honward₂, hspokenB, huntouchedA⟩
  refine hrun₂.can hclock₂ ⟨honward₁.trans honward₂, fun i => ?_⟩
  cases i with
  | a => exact huntouchedA.spoken hspokenA
  | b => exact hspokenB

/-! ### The relay forwards a message -/

theorem isLimited_of_over {cfg : Config} {now : Int} {r : RateLimiter} (h : cfg.rateWindow < now - r.windowStart) :
    (r.isLimited cfg now).1 = false := by
  have hpos : 0 < cfg.maxMsgRate := cfg.caps_pos _ (by simp)
  rw [RateLimiter.isLimited, if_pos h, if_neg (Nat.not_le.mpr hpos)]

theorem forward (hD : m.Period D) (hrun : m.network.Run m.Possible log n) (hclock : ∀ x ∈ log.head?, x.time ≤ now)
    (hopen : m.Open T n) (hsaid : (i, line) ∈ n.up) (hparse : parseMsg line = some (m.room, phase, body)) :
    m.network.Can m.Possible log (now + D) fun n' => m.Onward T n n' ∧ n'.world.exchange = n.world.exchange ∧
      n'.world.exit = n.world.exit ∧ (∀ x ∈ n.up, x ≠ (i, line) → x ∈ n'.up) ∧ n.down ⊆ n'.down ∧
      ∃ dst, (msgdLine phase body, dst) ∈ n'.down ∧ dst.string = (m.addr i.other).string := by
  have htime := inTime_of_run hrun hclock
  obtain ⟨u, entry, hroom, hu⟩ := hopen.members i
  obtain ⟨v, entry', hroom', hv⟩ := hopen.members i.other
  obtain rfl : entry = entry' := Option.some.inj (hroom.symm.trans hroom')
  obtain ⟨relayLog, hrouted⟩ := htime.inv.wired.routed
  have hrate : (u.rateLimiter.isLimited m.cfg (now + D)).1 = false := by
    have hstart := htime.windows _ _ u ⟨entry, hroom, hu⟩
    have hperiod := hD.rate
    exact isLimited_of_over (by omega)
  have hstep : Relay.step m.cfg (now + D) n.world.relay (.packet line (m.addr i) none) =
      forwardMsg m.cfg (now + D) m.room phase body (m.addr i) n.world.relay := by
    rw [Relay.step, handlePacket_of_parseMsg hparse]
  have hservice : (Relay.step m.cfg (now + D) n.world.relay (.packet line (m.addr i) none)).1.service =
      n.world.relay.service := by
    rw [hstep]
    exact (forwardMsg_outcome).service_eq
  refine hrun.can_step (.happens (.relay (.packet line (m.addr i) none)))
    (fun x hx => (hclock x hx).trans (hD.le now)) (Or.inl ⟨i, rfl, hsaid⟩)
    ⟨⟨⟨?_, hopen.trying⟩, fun _ _ => id, fun _ => id⟩, rfl, rfl, ?_, List.subset_append_left _ _, ?_⟩
  · intro j
    apply State.seen_ne_none.mp
    rw [show ((m.network.step n (now + D) (.happens (.relay (.packet line (m.addr i) none)))).1.world.relay.service) = _
      from hservice]
    exact State.seen_ne_none.mpr (hopen.members j)
  · intro x hx hne
    refine (List.mem_eraseP_of_neg fun htakes => hne ?_).mpr hx
    obtain ⟨hline, haddr⟩ := of_decide_eq_true htakes
    exact Prod.ext (addr_inj (congrArg UDPAddr.string haddr)) hline
  · refine ⟨v.resolvedAddr, List.mem_append_right _ ?_, (hrouted.client ⟨entry, hroom, hv⟩).1⟩
    rw [hstep, forwardMsg_of_client hroom hu hrate, mem_datagrams]
    apply List.mem_map.mpr
    refine ⟨⟨_, v⟩, List.mem_filter.mpr ⟨AList.mem_lookup_iff.mp hv, ?_⟩, rfl⟩
    exact decide_eq_true fun heq => i.other_ne (addr_inj heq)

/-! ### A peer reads it -/

/-- The peer takes in the line, with these draws. -/
theorem takeIn (hD : m.Period D) (hrun : m.network.Run m.Possible log n)
    (hclock : ∀ x ∈ log.head?, x.time ≤ now + D) (hpast : (n.world.exchange i).Past now) (hT : now + D ≤ T)
    (hopen : m.Open T n) (hrunning : n.world.exit i = none) {dst : UDPAddr} (hmem : (line, dst) ∈ n.down)
    (hdst : dst.string = (m.addr i).string) (draws : ConfirmDraws) :
    m.network.Can m.Possible log (now + D) fun n' => m.Onward T n n' ∧ n.up ⊆ n'.up ∧
      (∀ x ∈ n.down, ¬ (x.1 = line ∧ x.2.string = (m.addr i).string) → x ∈ n'.down) ∧
      n'.world.exchange i.other = n.world.exchange i.other ∧ n'.world.exit i.other = n.world.exit i.other ∧
      (∀ cp, m.Confirms n'.world.exchange i cp → m.Confirms n.world.exchange i cp ∨ (i, m.confirmLine cp) ∈ n'.up) ∧
      ∃ p s₁, p.draws = draws ∧ (n.world.exchange i).Kept s₁ ∧
        n'.world.exchange i = ((m.session i).handle p line s₁).state ∧
        n'.world.exit i = ((m.session i).handle p line s₁).exit := by
  have hoffers : n.underWay.offers (m.addr i) (.datagram line) = true :=
    List.any_eq_true.mpr ⟨_, hmem, decide_eq_true ⟨rfl, hdst⟩⟩
  obtain ⟨hpossible, honward, hannounces⟩ := hopen.reads (inTime_of_run hrun hclock) hT hrunning (by simp)
    hoffers draws
  have hover : ∀ t ∈ (n.world.exchange i).inboundWindow, 1000000000 ≤ now + D - t := by
    intro t ht
    have hle := hpast.inbound t ht
    have hperiod := hD.inbound
    omega
  obtain ⟨s₁, hkept, hstate, hexit⟩ := Session.pass_handles (x := m.session i)
    (p := passAt (now + D) (.datagram line) draws) rfl (hT.trans (hopen.deadline hrunning)) rfl hover
  exact hrun.can_step _ hclock hpossible ⟨honward, up_subset_reads,
    fun x hx hother => mem_down_reads hx (decide_eq_false hother),
    exchange_reads_of_ne i.other_ne, exit_reads_of_ne i.other_ne, hannounces, _, s₁, rfl, hkept,
    exchange_reads.trans hstate, exit_reads.trans hexit⟩

/-! ### A peer makes its candidate -/

variable (m) in
/-- The secret of the two is one, and what they take for their addresses has room in a confirmation. -/
structure Feasible : Prop where
  secret : ∃ k, (m.session .a).process (m.key .b) = .ok k
  addresses : ∀ i, (detectOutboundAddr (m.localAddr i)).length ≤ MaxMetadataSize

theorem Feasible.process (h : m.Feasible) (i : Side) : ∃ k, (m.session i).process (m.key i.other) = .ok k := by
  obtain ⟨k, hk⟩ := h.secret
  cases i with
  | a => exact ⟨k, hk⟩
  | b =>
      obtain ⟨_, _, k', hk', _⟩ := process_inv (i := .a) hk
      exact ⟨k', hk'⟩

theorem Feasible.fits (h : m.Feasible) (hclaims : m.Claims i addr) : addr.length ≤ MaxMetadataSize := by
  rcases hclaims with rfl | rfl
  · exact h.addresses i
  · obtain ⟨hip, hport, hzone⟩ := m.source i
    exact source_string_fits hip hport hzone

/-- A peer that reads the payload of the other one has made its candidate. -/
theorem confirms_of_payload (hfeasible : m.Feasible) {xs : Side → Exchange} {p : Pass} {s : Exchange}
    (hsound : m.Sound xs i s) (hdraws : p.draws.Succeed) :
    m.key i.other ∈ ((m.session i).handle p (msgdLine (ascii "spake2") (m.key i.other)) s).state.candidates := by
  obtain ⟨k, hk⟩ := hfeasible.process i
  rw [Session.handle_spake2 (m.msgdBody_spake2 i.other)]
  by_cases hknown : m.key i.other ∈ s.candidates
  · rw [Session.onSpake2, m.payloadHex_key]
    dsimp only
    rw [if_pos hknown]
    exact hknown
  · obtain ⟨cp, hcp⟩ := Session.confirm_fits hk hdraws (hfeasible.fits hsound.claims)
    rw [Session.onSpake2_added (m.payloadHex_key i.other) hknown hk hcp]
    exact (mem_addCandidate hsound.size_lt).mpr (Or.inl rfl)

variable (m) in
/-- The confirmation of the peer is under way, or the payload it is to be made of is. -/
def Learning (n : Network) (i : Side) : Prop :=
  m.Committed n i ∨ n.world.exit i = none ∧ (∀ cp, ¬ m.Confirms n.world.exchange i cp) ∧
    (i.other, m.spake2Line i.other) ∈ n.up

/-- Who has ended has made a candidate of the other one, and the other one of it. -/
theorem learning_of_spoken (hinv : m.Inv n.world) (hopen : m.Open T n) (hspoken : ∀ i, m.Spoken n i) (i : Side) :
    m.Learning n i := by
  rcases hspoken i with ⟨hrunning, _, hannounced⟩ | ⟨_, hcommitted⟩
  · by_cases hconfirms : ∃ cp, m.Confirms n.world.exchange i cp
    · obtain ⟨cp, hcp⟩ := hconfirms
      exact Or.inl ⟨cp, hcp, Or.inl (hannounced cp hcp)⟩
    · refine Or.inr ⟨hrunning, not_exists.mp hconfirms, ?_⟩
      rcases hspoken i.other with ⟨_, hspake2, _⟩ | ⟨hended, _⟩
      · exact hspake2
      · obtain ⟨addr, fp, isServer, hexit⟩ := hopen.authenticated hended
        have hpeers := (hinv.ended i.other addr fp isServer hexit).peers
        rw [Side.other_other] at hpeers
        exact absurd hpeers hconfirms
  · exact Or.inl hcommitted

theorem learns (hfeasible : m.Feasible) (hD : m.Period D) (hrun : m.network.Run m.Possible log n)
    (hclock : ∀ x ∈ log.head?, x.time ≤ now) (hT : now + D ≤ T) (hopen : m.Open T n)
    (hmine : m.Learning n i) (hothers : m.Learning n i.other) :
    m.network.Can m.Possible log (now + D) fun n' =>
      m.Onward T n n' ∧ m.Committed n' i ∧ m.Learning n' i.other := by
  have htime := inTime_of_run hrun hclock
  rcases hmine with hcommitted | ⟨hrunning, hnone, hspake2⟩
  · exact hrun.can (fun x hx => (hclock x hx).trans (hD.le now)) ⟨.refl hopen, hcommitted, hothers⟩
  obtain ⟨draws, hdraws⟩ : ∃ draws : ConfirmDraws, draws.Succeed :=
    ⟨⟨some ⟨List.replicate confirmNonceSize 0, List.length_replicate⟩,
      some ⟨List.replicate gcmNonceSize 0, List.length_replicate⟩,
      fun n => some ⟨List.replicate n 0, List.length_replicate⟩⟩, _, _, _, rfl⟩
  refine (forward hD hrun hclock hopen hspake2 (m.parseMsg_spake2Line i.other)).bind ?_
  intro log₁ n₁ hrun₁ hclock₁ ⟨honward₁, hexchange₁, hexit₁, hup₁, hdown₁, dst, hmem, hdst⟩
  rw [Side.other_other] at hdst
  refine (takeIn hD hrun₁ hclock₁ (hexchange₁ ▸ htime.past i) hT honward₁.opened (hexit₁ ▸ hrunning) hmem hdst
    draws).bind ?_
  intro log₂ n₂ hrun₂ hclock₂ ⟨honward₂, hup₂, hdown₂, hexchange₂, hexit₂, hannounces, p, s₁, hp, hkept, hstate, _⟩
  have honward := honward₁.trans honward₂
  refine hrun₂.can hclock₂ ⟨honward, ?_, ?_⟩
  · have hsound := ((inTime_of_run hrun₁ hclock₁).inv.sound i).kept hkept
    have hcandidate := confirms_of_payload hfeasible hsound (hp ▸ hdraws)
    rw [← hstate] at hcandidate
    obtain ⟨cand, hcand⟩ := GoMap.lookup_of_mem hcandidate
    refine ⟨_, ⟨cand, hcand, rfl⟩, Or.inl ?_⟩
    refine (hannounces _ ⟨cand, hcand, rfl⟩).resolve_left fun hold => ?_
    rw [hexchange₁] at hold
    exact hnone _ hold
  · rcases hothers with hcommitted | ⟨hrunning', hnone', hspake2'⟩
    · refine Or.inl (hcommitted.onward honward ?_ ?_)
      · intro cp hcp hline
        refine hup₂ (hup₁ _ hline fun heq => ?_)
        exact (htime.inv.built _ hcp).confirmLine_ne i.other (Prod.mk.inj heq).2
      · intro cp dst hcp _ hline
        refine hdown₂ _ (hdown₁ hline) fun heq => ?_
        exact (htime.inv.built _ hcp).msgdLine_ne i.other heq.1
    · refine Or.inr ⟨?_, ?_, ?_⟩
      · rw [hexit₂, hexit₁]
        exact hrunning'
      · intro cp hcp
        rw [Confirms, hexchange₂, hexchange₁] at hcp
        exact hnone' cp hcp
      · refine hup₂ (hup₁ _ hspake2' fun heq => ?_)
        exact i.other.other_ne (Prod.mk.inj heq).1

/-! ### A peer ends -/

/-- The confirmation of the other one gets to the peer. -/
theorem confirmation_arrives (hD : m.Period D) (hrun : m.network.Run m.Possible log n)
    (hclock : ∀ x ∈ log.head?, x.time ≤ now) (hopen : m.Open T n) (hothers : m.Committed n i.other) :
    m.network.Can m.Possible log (now + D) fun n' => m.Onward T n n' ∧ n'.world.exchange = n.world.exchange ∧
      n'.world.exit = n.world.exit ∧ (m.Committed n i → m.Committed n' i) ∧ ∃ cp dst, m.Built i.other cp ∧
      (msgdLine (ascii "confirm") (hexEncode cp), dst) ∈ n'.down ∧ dst.string = (m.addr i).string := by
  obtain ⟨cp, hcp, hline | ⟨dst, hmem, hdst⟩⟩ := hothers
  · have hbuilt := (inTime_of_run hrun hclock).inv.built i.other hcp
    refine (forward hD hrun hclock hopen hline hbuilt.parseMsg_confirmLine).bind ?_
    intro log₁ n₁ hrun₁ hclock₁ ⟨honward, hexchange, hexit, hup, hdown, dst, hmem, hdst⟩
    rw [Side.other_other] at hdst
    refine hrun₁.can hclock₁ ⟨honward, hexchange, hexit, fun hcommitted => ?_, cp, dst, hbuilt, hmem, hdst⟩
    refine hcommitted.onward honward (fun cp' _ hline' => hup _ hline' fun heq => ?_) fun _ _ _ _ hline' => hdown hline'
    exact i.other_ne (Prod.mk.inj heq).1.symm
  · rw [Side.other_other] at hdst
    exact hrun.can (fun x hx => (hclock x hx).trans (hD.le now))
      ⟨.refl hopen, rfl, rfl, id, cp, dst, (inTime_of_run hrun hclock).inv.built i.other hcp, hmem, hdst⟩

theorem concludes (hD : m.Period D) (hrun : m.network.Run m.Possible log n)
    (hclock : ∀ x ∈ log.head?, x.time ≤ now) (hT : now + D ≤ T) (hopen : m.Open T n)
    (hmine : ∃ cp, m.Confirms n.world.exchange i cp) (hothers : m.Committed n i.other) :
    m.network.Can m.Possible log (now + D) fun n' =>
      m.Onward T n n' ∧ n'.world.exit i ≠ none ∧ (m.Committed n i → m.Committed n' i) := by
  have htime := inTime_of_run hrun hclock
  by_cases hrunning : n.world.exit i = none
  · refine (confirmation_arrives hD hrun hclock hopen hothers).bind ?_
    intro log₁ n₁ hrun₁ hclock₁ ⟨honward₁, hexchange₁, hexit₁, hcommitted₁, cp, dst, hbuilt, hmem, hdst⟩
    refine (takeIn hD hrun₁ hclock₁ (hexchange₁ ▸ htime.past i) hT honward₁.opened (hexit₁ ▸ hrunning) hmem hdst
      ⟨none, none, fun _ => none⟩).bind ?_
    intro log₂ n₂ hrun₂ hclock₂ ⟨honward₂, hup₂, hdown₂, _, _, _, p, s₁, _, hkept, _, hexit₂⟩
    refine hrun₂.can hclock₂ ⟨honward₁.trans honward₂, ?_, fun hcommitted => ?_⟩
    · obtain ⟨_, cand, hcand, _⟩ := hmine
      rw [hexchange₁] at hkept
      rw [← hkept.candidates] at hcand
      obtain ⟨addr, _, haccept⟩ := ((htime.inv.sound i).kept hkept).accept hcand hbuilt
      rw [hexit₂]
      exact Session.handle_confirm_exit hbuilt.msgdBody_confirm hcand haccept
    · refine (hcommitted₁ hcommitted).onward honward₂ (fun _ _ hline => hup₂ hline) fun cp' dst' _ hdst' hline => ?_
      refine hdown₂ _ hline fun heq => ?_
      exact i.other_ne (addr_inj (hdst'.symm.trans heq.2))
  · exact hrun.can (fun x hx => (hclock x hx).trans (hD.le now)) ⟨.refl hopen, hrunning, id⟩

/-- Both peers end with each other. -/
def Met (m : Meeting Pt) (w : World) : Prop :=
  ∀ i, ∃ addr, m.Claims i.other addr ∧
    w.exit i = some (.authenticated addr (m.fingerprint i.other) (m.isServer i))

theorem met_of_exits (hinv : m.Inv n.world) (hopen : m.Open T n) (hexits : ∀ i, n.world.exit i ≠ none) :
    m.Met n.world := by
  intro i
  obtain ⟨addr, fp, isServer, hexit⟩ := hopen.authenticated (hexits i)
  have hended := hinv.ended i addr fp isServer hexit
  rw [hended.fingerprint, hended.role] at hexit
  exact ⟨addr, hended.address, hexit⟩

theorem can_meet (hfeasible : m.Feasible) (hD : m.Period D) (hrun : m.network.Run m.Possible log n)
    (hclock : ∀ x ∈ log.head?, x.time ≤ now) (hopen : m.Open (now + 6 * D) n) (hready : ∀ i, m.Ready n i) :
    m.network.Can m.Possible log (now + 6 * D) fun n' => m.Met n'.world := by
  have hpos := hD.inbound
  refine (both_speak hD hrun hclock (by omega) hopen hready).bind ?_
  intro log₁ n₁ hrun₁ hclock₁ ⟨h₁, hspoken⟩
  have hlearning := learning_of_spoken (inTime_of_run hrun₁ hclock₁).inv h₁.opened hspoken
  refine (learns hfeasible hD hrun₁ hclock₁ (by omega) h₁.opened (hlearning .a) (hlearning .b)).bind ?_
  intro log₂ n₂ hrun₂ hclock₂ ⟨h₂, hcommittedA, hlearningB⟩
  refine (learns hfeasible hD hrun₂ hclock₂ (by omega) h₂.opened hlearningB (Or.inl hcommittedA)).bind ?_
  intro log₃ n₃ hrun₃ hclock₃ ⟨h₃, hcommittedB, hlearningA⟩
  have hcommittedA₃ : m.Committed n₃ .a := by
    obtain ⟨cpA, hA, _⟩ := hcommittedA
    exact hlearningA.resolve_right fun hnone => hnone.2.1 cpA (h₃.confirms .a cpA hA)
  refine (concludes hD hrun₃ hclock₃ (by omega) h₃.opened hcommittedA₃.confirms hcommittedB).bind ?_
  intro log₄ n₄ hrun₄ hclock₄ ⟨h₄, hexitA, hkeepsA⟩
  have hconfirmsB : ∃ cp, m.Confirms n₄.world.exchange .b cp := hcommittedB.confirms.imp (h₄.confirms .b)
  refine (concludes hD hrun₄ hclock₄ (by omega) h₄.opened hconfirmsB (hkeepsA hcommittedA₃)).bind ?_
  intro log₅ n₅ hrun₅ hclock₅ ⟨h₅, hexitB, _⟩
  have hend : now + 2 * D + D + D + D + D = now + 6 * D := by omega
  refine hrun₅.can (hend ▸ hclock₅) (met_of_exits (inTime_of_run hrun₅ hclock₅).inv h₅.opened fun i => ?_)
  cases i with
  | a => exact h₅.exits .a hexitA
  | b => exact hexitB

end Meeting

/-! ### The certificate -/

inductive TLSError
  | noPeerCertificate
  | fingerprintMismatch
  deriving DecidableEq

/-- The check that `baseTLSConfig` hands to TLS. -/
def verifyPeerCertificate (peerFingerprint : Bytes) (rawCerts : List Bytes) : Except TLSError Unit :=
  match rawCerts with
  | [] => .error .noPeerCertificate
  | cert :: _ => if sha256 cert ≠ peerFingerprint then .error .fingerprintMismatch else .ok ()

theorem verifyPeerCertificate_eq_ok {peerFingerprint : Bytes} {rawCerts : List Bytes} :
    verifyPeerCertificate peerFingerprint rawCerts = .ok () ↔
      ∃ cert ∈ rawCerts.head?, sha256 cert = peerFingerprint := by
  cases rawCerts with
  | nil => simp [verifyPeerCertificate]
  | cons cert rest =>
      by_cases h : sha256 cert = peerFingerprint
      · simp [verifyPeerCertificate, h]
      · simp [verifyPeerCertificate, h]

/-! ### The two peers -/

omit [DecidableEq Pt] in
theorem Meeting.isServer_other (m : Meeting Pt) (i : Side) : m.isServer i.other = !m.isServer i := by
  have hne := m.points_other_ne i
  rw [Meeting.isServer, Meeting.isServer, Side.other_other]
  by_cases hlt : (m.state i.other).blindedBytesM m.curve < (m.state i).blindedBytesM m.curve
  · simp [hlt, List.lt_asymm hlt]
  · have hgt : (m.state i).blindedBytesM m.curve < (m.state i.other).blindedBytesM m.curve := by
      by_contra hnot
      exact hne (List.le_antisymm hlt hnot)
    simp [hlt, hgt]

/-- Whatever the network does, a peer that is authenticated has the fingerprint of the other one, so that TLS
takes no other certificate, and an address the other one took for its own. If both are, the one is the server
and the other the client. -/
theorem authenticated_with_each_other (m : Meeting Pt) {log : List (LogEntry Happening (Side × Exit))} {w : World}
    (hrun : m.machine.Run m.May log w) {i : Side} {addr fp : Bytes} {isServer : Bool}
    (hexit : w.exit i = some (.authenticated addr fp isServer)) :
    fp = m.fingerprint i.other ∧
    (∀ rawCerts, verifyPeerCertificate fp rawCerts = .ok () ↔
      ∃ cert ∈ rawCerts.head?, sha256 cert = m.fingerprint i.other) ∧
    (addr = detectOutboundAddr (m.localAddr i.other) ∨ addr = (m.addr i.other).string) ∧
    ∀ addr' fp' isServer', w.exit i.other = some (.authenticated addr' fp' isServer') →
      fp' = m.fingerprint i ∧ isServer' = !isServer := by
  have hinv := Meeting.inv_of_run hrun
  have hended := hinv.ended i addr fp isServer hexit
  refine ⟨hended.fingerprint, ?_, hended.address, ?_⟩
  · intro rawCerts
    rw [hended.fingerprint]
    exact verifyPeerCertificate_eq_ok
  · intro addr' fp' isServer' hexit'
    have hended' := hinv.ended i.other addr' fp' isServer' hexit'
    rw [hended'.fingerprint, hended'.role, hended.role, Side.other_other]
    exact ⟨rfl, m.isServer_other i⟩

/-- The two sides of the small exchange, which know themselves under private addresses. -/
def smallMeeting : Meeting (ZMod 7) where
  cfg := .default
  curve := smallCurve
  gcm := smallGcm
  code := ascii "1234-alpha-bravo"
  pwScalar := ⟨3, by decide⟩
  privM := Side.pick (drawOf 2) (drawOf 3)
  privN := Side.pick (drawOf 4) (drawOf 1)
  fingerprint := Side.pick fingerprintA fingerprintB
  deadline _ := 60000000000
  regInterval _ := RegInterval
  spake2Resend _ := 2000000000
  confirmResend _ := 2000000000
  localAddr := Side.pick ⟨[10, 0, 0, 1], 4000, []⟩ ⟨[10, 0, 0, 2], 5000, []⟩
  addr := Side.pick ⟨[192, 0, 2, 1], 4000, []⟩ ⟨[198, 51, 100, 2], 5000, []⟩
  length_fingerprint i := by
    cases i with
    | a => rfl
    | b => rfl
  fingerprint_ne := by decide
  points := by decide +kernel
  points_ne := by decide +kernel
  addr_ne := by decide +kernel
  source := by decide

/-- A peer comes in: it registers, answers the challenge, hears that it is in, and sends its payload. -/
def comesIn (i : Side) (n : UInt8) : List (Int × Transit) :=
  let idle : Pass := passAt 0 .timeout (drawsOf 1)
  let cookie := hexEncode (cookieOf n).val
  [.pass i idle,
    .relay (.packet (ascii "REG 1234" ++ [10]) (smallMeeting.addr i) (some (cookieOf n))),
    .pass i (passOf (regdChallenge (ascii "1234") (cookieOf n))),
    .pass i idle,
    .relay (.packet (ascii "REG 1234 " ++ cookie ++ [10]) (smallMeeting.addr i) none),
    .pass i (passOf (regdOK (ascii "1234") (smallMeeting.addr i))),
    .pass i idle].map fun e => (0, .happens e)

/-- Both come in, and both payloads are lost. -/
def smallStory : List (Int × Transit) :=
  comesIn .a 1 ++ comesIn .b 2 ++ [(0, .lose .up 0), (0, .lose .up 0)]

def smallNetwork : Network := smallMeeting.network.exec smallMeeting.quiet smallStory

theorem small_network_run : ∃ log, smallMeeting.network.Run smallMeeting.Possible log smallNetwork ∧
    ∀ x ∈ log.head?, x.time ≤ 0 := by
  refine ⟨_, Machine.Run.init.execLog (show smallMeeting.network.Admissible smallMeeting.Possible none
    smallMeeting.quiet smallStory from ?_), ?_⟩
  · decide +kernel
  · rw [smallStory, Machine.execLog_append]
    intro x hx
    obtain rfl := Option.some.inj hx
    exact le_refl 0

theorem small_period : smallMeeting.Period 3000000000 where
  rate := by decide
  inbound := by decide
  spake2 := by decide
  confirm := by decide

theorem small_members : ∀ i, smallNetwork.world.relay.Admitted smallMeeting.room (smallMeeting.addr i).string := by
  decide +kernel

theorem small_running : ∀ i, smallNetwork.world.exit i = none ∧
    (smallNetwork.world.exchange i).reg.receivedREGD = true ∧ 0 + 6 * 3000000000 ≤ smallMeeting.deadline i := by
  decide +kernel

theorem small_feasible : smallMeeting.Feasible where
  secret := ⟨viewA.cand, viewA.processed⟩
  addresses := by decide +kernel

theorem small_meeting_agrees : ∃ log w addr, smallMeeting.machine.Run smallMeeting.May log w ∧
    w.exit .a = some (.authenticated addr fingerprintB (smallMeeting.isServer .a)) ∧
    (addr = ascii "10.0.0.2:5000" ∨ addr = ascii "198.51.100.2:5000") ∧
    ∀ addr' fp' isServer', w.exit .b = some (.authenticated addr' fp' isServer') →
      fp' = fingerprintA ∧ isServer' = !smallMeeting.isServer .a := by
  obtain ⟨log, hrun, hclock⟩ := small_network_run
  have hopen : smallMeeting.Open (0 + 6 * 3000000000) smallNetwork :=
    ⟨small_members, fun i => Or.inl ⟨(small_running i).1, (small_running i).2.2⟩⟩
  obtain ⟨newer, n, hrun', hclock', hmet⟩ := Meeting.can_meet small_feasible small_period hrun hclock hopen
    fun i => Or.inl ⟨(small_running i).1, (small_running i).2.1⟩
  -- what the network has done is a meeting
  obtain ⟨log', hmeeting, _⟩ := (Meeting.inTime_of_run hrun' hclock').meeting
  obtain ⟨addr, _, hexit⟩ := hmet .a
  obtain ⟨_, _, haddr, hother⟩ := authenticated_with_each_other smallMeeting hmeeting hexit
  have hlocal : detectOutboundAddr (smallMeeting.localAddr .b) = ascii "10.0.0.2:5000" := by decide +kernel
  have hseen : (smallMeeting.addr .b).string = ascii "198.51.100.2:5000" := by decide +kernel
  rw [show Side.other .a = .b from rfl, hlocal, hseen] at haddr
  exact ⟨log', n.world, addr, hmeeting, hexit, haddr, hother⟩

/-- Whatever datagrams were lost, a meeting can still be brought to its end, in which both are authenticated,
each with the other, within six periods `D` in which the network delivers. Both have to be members of the room.
A peer that runs has to have heard so, and to have the time; of one that has ended, the confirmation has to be
under way. What they take for their addresses has to fit into a confirmation, and the points of the two must not
be among the few that yield no secret. -/
theorem meeting_completes (m : Meeting Pt) {log : List (LogEntry Transit (Side × Exit))} {n : Network}
    (hrun : m.network.Run m.Possible log n) {now D : Int} (hclock : ∀ x ∈ log.head?, x.time ≤ now)
    (hmembers : ∀ i, n.world.relay.Admitted m.room (m.addr i).string)
    (hpeers : ∀ i, n.world.exit i = none ∧ (n.world.exchange i).reg.receivedREGD = true ∧
        now + 6 * D ≤ m.deadline i ∨
      (∃ addr fp isServer, n.world.exit i = some (.authenticated addr fp isServer)) ∧
      ∃ cand, (n.world.exchange i).candidates.lookup (m.key i.other) = some cand ∧
        ((i, msgLine m.room (ascii "confirm") cand.confirmPayload) ∈ n.up ∨
          ∃ dst, (msgdLine (ascii "confirm") (hexEncode cand.confirmPayload), dst) ∈ n.down ∧
            dst.string = (m.addr i.other).string))
    (hrate : m.cfg.rateWindow < D) (hinbound : 1000000000 ≤ D)
    (hresend : ∀ i, m.spake2Resend i < D ∧ m.confirmResend i < D)
    (hsecret : ∃ k, (m.session .a).process (m.key .b) = .ok k)
    (haddresses : ∀ i, (detectOutboundAddr (m.localAddr i)).length ≤ MaxMetadataSize) :
    ∃ newer n', m.network.Run m.Possible (newer ++ log) n' ∧
      (∀ x ∈ (newer ++ log).head?, x.time ≤ now + 6 * D) ∧ ∀ i, ∃ addr,
        (addr = detectOutboundAddr (m.localAddr i.other) ∨ addr = (m.addr i.other).string) ∧
          n'.world.exit i = some (.authenticated addr (m.fingerprint i.other) (m.isServer i)) := by
  have hD : m.Period D := ⟨hrate, hinbound, fun i => (hresend i).1, fun i => (hresend i).2⟩
  refine Meeting.can_meet ⟨hsecret, haddresses⟩ hD hrun hclock ⟨hmembers, fun i => ?_⟩ fun i => ?_
  · exact (hpeers i).imp (fun h => ⟨h.1, h.2.2⟩) fun h => h.1
  · refine (hpeers i).imp (fun h => ⟨h.1, h.2.1⟩) ?_
    rintro ⟨⟨addr, fp, isServer, hexit⟩, cand, hcand, hsent⟩
    exact ⟨by simp [hexit], _, ⟨cand, hcand, rfl⟩, hsent⟩

theorem small_meeting_completes : smallNetwork.up = [] ∧ smallNetwork.down = [] ∧
    ∃ log newer n addr addr', smallMeeting.network.Run smallMeeting.Possible log smallNetwork ∧
      smallMeeting.network.Run smallMeeting.Possible (newer ++ log) n ∧
      n.world.exit .a = some (.authenticated addr fingerprintB (smallMeeting.isServer .a)) ∧
      n.world.exit .b = some (.authenticated addr' fingerprintA (smallMeeting.isServer .b)) := by
  obtain ⟨log, hrun, hclock⟩ := small_network_run
  obtain ⟨newer, n, hrun', _, hmet⟩ := meeting_completes smallMeeting hrun hclock small_members
    (fun i => Or.inl (small_running i)) small_period.rate small_period.inbound
    (fun i => ⟨small_period.spake2 i, small_period.confirm i⟩) small_feasible.secret small_feasible.addresses
  obtain ⟨addr, _, hexit⟩ := hmet .a
  obtain ⟨addr', _, hexit'⟩ := hmet .b
  exact ⟨by decide +kernel, by decide +kernel, log, newer, n, addr, addr', hrun, hrun', hexit, hexit'⟩

end Qvole.Engine
