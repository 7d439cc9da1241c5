import Qvole.Relay.PrefixCap
import Qvole.Relay.Presence

/-!
# Return routability

A source address is only a claim. The relay sends a cookie to it and lets it into a room when the
cookie comes back, so every client has shown that it receives what is sent to its address.

The argument goes through the log of a run. Whatever sits in the pending store or in the pending map
of a room was challenged at the moment its record carries, with the cookie it carries, for that room
and that source (`Offered`). An admission finds such a record, and the `REG` at hand is its answer
(`Answered`). Both only speak of the past, so longer logs keep them, and `RegOutcome` shows that no
handler makes a pending registration or a client in any other way.
-/

namespace Qvole.Relay

open Lib

abbrev Log := List (LogEntry Event Out)

/-- The entry has the challenge of the room `R` with the cookie `c` go out to `k`. -/
def Challenges (R : Bytes) (c : Cookie) (k : Bytes) (x : LogEntry Event Out) : Prop :=
  ∃ addr : UDPAddr, addr.string = k ∧ Out.write (regdChallenge R c) addr ∈ x.outs

/-- The pending registration was challenged at the moment it carries. -/
def Offered (log : Log) (R k : Bytes) (p : PendingReg) : Prop :=
  p.resolvedAddr.string = k ∧ ∃ x ∈ log, x.time = p.createdAt ∧ Challenges R p.cookie k x

/-- A `REG` for the room `R` came from `k` with a cookie that had gone out to `k` for this room, the
last time at most `pendingRegTTL` before. -/
def Answered (log : Log) (R k : Bytes) : Prop :=
  ∃ x older, x :: older <:+ log ∧
    ∃ (data : Bytes) (src : UDPAddr) (rnd : Option Cookie) (text : Bytes) (c : Cookie),
      x.event = .packet data src rnd ∧ src.string = k ∧ parseReg data = some (R, text) ∧
      hexDecode text = some c.val ∧
      ∃ y ∈ older, Challenges R c k y ∧
        (∀ z ∈ older, Challenges R c k z → z.time ≤ y.time) ∧ x.time - y.time ≤ pendingRegTTL

theorem Offered.cons {log : Log} {R k : Bytes} {p : PendingReg} (h : Offered log R k p)
    (x : LogEntry Event Out) : Offered (x :: log) R k p := by
  obtain ⟨haddr, y, hy, hrest⟩ := h
  exact ⟨haddr, y, List.mem_cons_of_mem x hy, hrest⟩

theorem Answered.cons {log : Log} {R k : Bytes} (h : Answered log R k) (x : LogEntry Event Out) :
    Answered (x :: log) R k := by
  obtain ⟨y, older, hsuffix, hrest⟩ := h
  exact ⟨y, older, hsuffix.trans (List.suffix_cons x log), hrest⟩

theorem Offered.answered {log : Log} {now : Int} {data room cookie : Bytes} {src : UDPAddr}
    {rnd : Option Cookie} {outs : List Out} {pend : PendingReg}
    (h : Offered log room src.string pend) (hparse : parseReg data = some (room, cookie))
    (hcompletes : Completes now cookie pend) :
    Answered (⟨now, .packet data src rnd, outs⟩ :: log) room src.string := by
  obtain ⟨_, x, hx, htime, hchallenge⟩ := h
  obtain ⟨y, hy, hlast, hlatest⟩ :=
    Machine.exists_latest (P := Challenges room pend.cookie src.string) hx hchallenge
  refine ⟨_, log, List.suffix_rfl, data, src, rnd, cookie, pend.cookie, rfl, rfl, hparse,
    hcompletes.1, y, hy, hlast, hlatest, ?_⟩
  have hle := hlatest x hx hchallenge
  have hfresh := hcompletes.2
  dsimp only
  omega

/-! ### Where pending registrations and clients come from -/

/-- A pending registration in the room it is for. -/
def State.PendsInRoom (s : State) (R k : Bytes) (p : PendingReg) : Prop :=
  ∃ e, s.rooms.lookup R = some e ∧ e.pending.lookup k = some p

/-- A pending registration, in the store or in its room. -/
def State.Pends (s : State) (R k : Bytes) (p : PendingReg) : Prop :=
  s.pendingRegs.lookup (R, k) = some p ∨
    ∃ e, s.rooms.lookup R = some e ∧ e.pending.lookup k = some p

variable {cfg : Config} {now : Int} {rnd : Option Cookie} {room cookie phase body R k : Bytes}
  {src : UDPAddr} {s s₁ s' : State} {outs : List Out} {u : UdpClient} {p : PendingReg}

theorem Shrunk.hasClient (h : Shrunk cfg now s s₁) (hu : s₁.HasClient R k u) :
    s.HasClient R k u := by
  obtain ⟨e₁, he₁, hu⟩ := hu
  obtain ⟨e, he, hshrunk⟩ := h.room he₁
  exact ⟨e, he, hshrunk.client hu⟩

theorem Shrunk.pendsInRoom (h : Shrunk cfg now s s₁) (hp : s₁.PendsInRoom R k p) :
    s.PendsInRoom R k p := by
  obtain ⟨e₁, he₁, hp⟩ := hp
  obtain ⟨e, he, hshrunk⟩ := h.room he₁
  exact ⟨e, he, hshrunk.pending hp⟩

theorem Shrunk.pends (h : Shrunk cfg now s s₁) (hp : s₁.Pends R k p) : s.Pends R k p :=
  hp.imp h.store h.pendsInRoom

theorem State.hasClient_setRoom {q : RoomEntry × Counters}
    (h : (s.setRoom room q).HasClient R k u) :
    (R = room ∧ q.1.udpClients.lookup k = some u) ∨ s.HasClient R k u := by
  obtain ⟨e, he, hu⟩ := h
  by_cases hR : R = room
  · subst hR
    rw [State.lookup_setRoom] at he
    cases he
    exact Or.inl ⟨rfl, hu⟩
  · rw [State.lookup_setRoom_ne s q hR] at he
    exact Or.inr ⟨e, he, hu⟩

theorem State.pendsInRoom_setRoom {q : RoomEntry × Counters}
    (h : (s.setRoom room q).PendsInRoom R k p) :
    (R = room ∧ q.1.pending.lookup k = some p) ∨ s.PendsInRoom R k p := by
  obtain ⟨e, he, hp⟩ := h
  by_cases hR : R = room
  · subst hR
    rw [State.lookup_setRoom] at he
    cases he
    exact Or.inl ⟨rfl, hp⟩
  · rw [State.lookup_setRoom_ne s q hR] at he
    exact Or.inr ⟨e, he, hp⟩

/-- A room put back with pending registrations it had before has no new ones. -/
theorem State.pendsInRoom_of_setRoom {e : RoomEntry} {q : RoomEntry × Counters}
    (h : (s.setRoom room q).PendsInRoom R k p) (he : s.rooms.lookup room = some e)
    (hq : q.1.pending.lookup k = some p → e.pending.lookup k = some p) : s.PendsInRoom R k p := by
  rcases State.pendsInRoom_setRoom h with ⟨rfl, hp⟩ | hp
  · exact ⟨e, he, hq hp⟩
  · exact hp

/-- The pending registration that a challenge of this moment leaves behind. -/
def Fresh (now : Int) (room : Bytes) (src : UDPAddr) (outs : List Out) (R k : Bytes)
    (p : PendingReg) : Prop :=
  R = room ∧ k = src.string ∧ p.resolvedAddr = src ∧ p.createdAt = now ∧
    outs = sendRegChallenge room p.cookie src

theorem State.pendsInRoom_insert {e : RoomEntry} {q : RoomEntry × Counters} {v : PendingReg}
    (h : (s.setRoom room q).PendsInRoom R k p) (he : s.rooms.lookup room = some e)
    (hq : q.1.pending = e.pending.insert src.string v)
    (hv : Fresh now room src outs room src.string v) :
    s.PendsInRoom R k p ∨ Fresh now room src outs R k p := by
  rcases State.pendsInRoom_setRoom h with ⟨rfl, hp⟩ | hp
  · rw [hq, GoMap.lookup_insert_if] at hp
    split at hp
    · rename_i hk
      cases hp
      rw [hk]
      exact Or.inr hv
    · exact Or.inl ⟨e, he, hp⟩
  · exact Or.inl hp

/-- A pending registration of a room was there before or has just been challenged. -/
theorem RegOutcome.pendsInRoom (houtcome : RegOutcome cfg now rnd room cookie src s s' outs)
    (h : s'.PendsInRoom R k p) : s.PendsInRoom R k p ∨ Fresh now room src outs R k p := by
  cases houtcome with
  | dropped hshrunk => exact Or.inl (hshrunk.pendsInRoom h)
  | created hshrunk =>
      rcases State.pendsInRoom_setRoom h with ⟨_, hp⟩ | hp
      · cases hp
      · exact Or.inl (hshrunk.pendsInRoom hp)
  | joined hshrunk _ _ he => exact Or.inl (hshrunk.pendsInRoom (State.pendsInRoom_of_setRoom h he id))
  | admitted hshrunk _ _ _ _ _ he =>
      refine Or.inl (hshrunk.pendsInRoom (State.pendsInRoom_of_setRoom h he fun hp => ?_))
      rw [GoMap.lookup_erase_if] at hp
      split at hp
      · cases hp
      · exact hp
  | refreshed hshrunk _ he => exact Or.inl (hshrunk.pendsInRoom (State.pendsInRoom_of_setRoom h he id))
  | challengedStore hshrunk => exact Or.inl (hshrunk.pendsInRoom h)
  | renewed hshrunk _ he =>
      exact (State.pendsInRoom_insert h he rfl ⟨rfl, rfl, rfl, rfl, rfl⟩).imp_left hshrunk.pendsInRoom
  | challengedRoom hshrunk _ _ he =>
      exact (State.pendsInRoom_insert h he rfl ⟨rfl, rfl, rfl, rfl, rfl⟩).imp_left hshrunk.pendsInRoom

/-- The same for the store. -/
theorem RegOutcome.pendsInStore (houtcome : RegOutcome cfg now rnd room cookie src s s' outs)
    (h : s'.pendingRegs.lookup (R, k) = some p) :
    s.pendingRegs.lookup (R, k) = some p ∨ Fresh now room src outs R k p := by
  cases houtcome with
  | dropped hshrunk => exact Or.inl (hshrunk.store h)
  | created hshrunk => exact Or.inl (hshrunk.store h)
  | joined hshrunk => exact Or.inl (hshrunk.store h)
  | admitted hshrunk => exact Or.inl (hshrunk.store h)
  | refreshed hshrunk => exact Or.inl (hshrunk.store h)
  | challengedStore hshrunk =>
      rw [GoMap.lookup_insert_if] at h
      split at h
      · rename_i hkey
        cases h
        cases hkey
        exact Or.inr ⟨rfl, rfl, rfl, rfl, rfl⟩
      · exact Or.inl (hshrunk.store h)
  | renewed hshrunk => exact Or.inl (hshrunk.store h)
  | challengedRoom hshrunk => exact Or.inl (hshrunk.store h)

/-- A pending registration was there before or has just been challenged. -/
theorem RegOutcome.pends (houtcome : RegOutcome cfg now rnd room cookie src s s' outs)
    (h : s'.Pends R k p) : s.Pends R k p ∨ Fresh now room src outs R k p := by
  rcases h with hstore | hroom
  · exact (houtcome.pendsInStore hstore).imp_left Or.inl
  · exact (houtcome.pendsInRoom hroom).imp_left Or.inr

/-- The client is there by this `REG`: it was a client already, or the cookie completes one of its
pending registrations. -/
def ByReg (now : Int) (room cookie : Bytes) (src : UDPAddr) (s : State) (u : UdpClient) : Prop :=
  (u.resolvedAddr = src ∧ ∃ u₀, s.HasClient room src.string u₀) ∨
    ∃ pend, s.Pends room src.string pend ∧ Completes now cookie pend ∧
      u.resolvedAddr = pend.resolvedAddr

theorem State.hasClient_insert {e : RoomEntry} {q : RoomEntry × Counters} {v : UdpClient}
    (h : (s₁.setRoom room q).HasClient R k u) (he : s₁.rooms.lookup room = some e)
    (hq : q.1.udpClients = e.udpClients.insert src.string v)
    (hv : ByReg now room cookie src s v) :
    s₁.HasClient R k u ∨ (R = room ∧ k = src.string ∧ ByReg now room cookie src s u) := by
  rcases State.hasClient_setRoom h with ⟨rfl, hu⟩ | hu
  · rw [hq, GoMap.lookup_insert_if] at hu
    split at hu
    · rename_i hk
      cases hu
      exact Or.inr ⟨rfl, hk, hv⟩
    · exact Or.inl ⟨e, he, hu⟩
  · exact Or.inl hu

theorem RegOutcome.hasClient (houtcome : RegOutcome cfg now rnd room cookie src s s' outs)
    (h : s'.HasClient R k u) :
    s.HasClient R k u ∨ (R = room ∧ k = src.string ∧ ByReg now room cookie src s u) := by
  cases houtcome with
  | dropped hshrunk => exact Or.inl (hshrunk.hasClient h)
  | created hshrunk hpend hcompletes =>
      rcases State.hasClient_setRoom h with ⟨rfl, hu⟩ | hu
      · rw [firstEntry, ← AList.insert_empty, GoMap.lookup_insert_if] at hu
        split at hu
        · rename_i hk
          cases hu
          exact Or.inr ⟨rfl, hk, Or.inr ⟨_, Or.inl hpend, hcompletes, rfl⟩⟩
        · cases hu
      · exact Or.inl (hshrunk.hasClient hu)
  | joined hshrunk hpend hcompletes he =>
      exact (State.hasClient_insert h he rfl
        (Or.inr ⟨_, Or.inl hpend, hcompletes, rfl⟩)).imp_left hshrunk.hasClient
  | admitted hshrunk _ hroom hpend hcompletes _ he =>
      exact (State.hasClient_insert h he rfl
        (Or.inr ⟨_, Or.inr ⟨_, hroom, hpend⟩, hcompletes, rfl⟩)).imp_left hshrunk.hasClient
  | refreshed hshrunk _ he hu =>
      exact (State.hasClient_insert h he rfl
        (Or.inl ⟨rfl, _, hshrunk.hasClient ⟨_, he, hu⟩⟩)).imp_left hshrunk.hasClient
  | challengedStore hshrunk => exact Or.inl (hshrunk.hasClient h)
  | renewed hshrunk _ he =>
      rcases State.hasClient_setRoom h with ⟨rfl, hu⟩ | hu
      · exact Or.inl (hshrunk.hasClient ⟨_, he, hu⟩)
      · exact Or.inl (hshrunk.hasClient hu)
  | challengedRoom hshrunk _ _ he =>
      rcases State.hasClient_setRoom h with ⟨rfl, hu⟩ | hu
      · exact Or.inl (hshrunk.hasClient ⟨_, he, hu⟩)
      · exact Or.inl (hshrunk.hasClient hu)

theorem MsgOutcome.pendsInRoom (houtcome : MsgOutcome room phase body src s s' outs)
    (h : s'.PendsInRoom R k p) : s.PendsInRoom R k p := by
  cases houtcome with
  | ignored => exact h
  | counted r hroom => exact State.pendsInRoom_of_setRoom h hroom id

theorem MsgOutcome.pends (houtcome : MsgOutcome room phase body src s s' outs)
    (h : s'.Pends R k p) : s.Pends R k p := by
  refine h.imp (fun hstore => ?_) houtcome.pendsInRoom
  cases houtcome with
  | ignored => exact hstore
  | counted => exact hstore

theorem MsgOutcome.hasClient (houtcome : MsgOutcome room phase body src s s' outs)
    (h : s'.HasClient R k u) : ∃ u₀, s.HasClient R k u₀ ∧ u.resolvedAddr = u₀.resolvedAddr := by
  cases houtcome with
  | ignored => exact ⟨u, h, rfl⟩
  | counted r hroom hsender =>
      rcases State.hasClient_setRoom h with ⟨rfl, hu⟩ | hu
      · rw [GoMap.lookup_insert_if] at hu
        split at hu
        · rename_i hk
          cases hu
          rw [hk]
          exact ⟨_, ⟨_, hroom, hsender⟩, rfl⟩
        · exact ⟨u, ⟨_, hroom, hu⟩, rfl⟩
      · exact ⟨u, hu, rfl⟩

/-! ### Over whole runs -/

/-- The tables are backed by the log. -/
structure Routed (log : Log) (s : State) : Prop where
  pends : ∀ {R k p}, s.Pends R k p → Offered log R k p
  client : ∀ {R k u}, s.HasClient R k u → u.resolvedAddr.string = k ∧ Answered log R k

theorem Routed.empty : Routed [] .empty := by
  constructor
  · rintro R k p (h | ⟨e, he, _⟩)
    · cases h
    · cases he
  · rintro R k u ⟨e, he, _⟩
    cases he

theorem Routed.reg {log : Log} {data : Bytes} (h : Routed log s)
    (hparse : parseReg data = some (room, cookie))
    (houtcome : RegOutcome cfg now rnd room cookie src s s' outs) :
    Routed (⟨now, .packet data src rnd, outs⟩ :: log) s' := by
  constructor
  · intro R k p hp
    rcases houtcome.pends hp with hp | ⟨rfl, rfl, haddr, htime, houts⟩
    · exact (h.pends hp).cons _
    · refine ⟨congrArg UDPAddr.string haddr, _, List.mem_cons_self, htime.symm, src, rfl, ?_⟩
      rw [houts]
      exact List.mem_singleton.mpr rfl
  · intro R k u hu
    rcases houtcome.hasClient hu with hu | ⟨rfl, rfl, ⟨haddr, u₀, hu₀⟩ | ⟨pend, hpend, hcompletes, haddr⟩⟩
    · obtain ⟨haddr, hanswered⟩ := h.client hu
      exact ⟨haddr, hanswered.cons _⟩
    · exact ⟨congrArg UDPAddr.string haddr, (h.client hu₀).2.cons _⟩
    · have hoffered := h.pends hpend
      exact ⟨haddr ▸ hoffered.1, hoffered.answered hparse hcompletes⟩

theorem Routed.mono {log : Log} (h : Routed log s) (hpends : ∀ {R k p}, s'.Pends R k p → s.Pends R k p)
    (hclient : ∀ {R k u}, s'.HasClient R k u →
      ∃ u₀, s.HasClient R k u₀ ∧ u.resolvedAddr = u₀.resolvedAddr) (x : LogEntry Event Out) :
    Routed (x :: log) s' := by
  refine ⟨fun hp => (h.pends (hpends hp)).cons x, fun hu => ?_⟩
  obtain ⟨u₀, hu₀, haddr⟩ := hclient hu
  obtain ⟨hstring, hanswered⟩ := h.client hu₀
  exact ⟨haddr ▸ hstring, hanswered.cons x⟩

theorem step_routed {log : Log} (h : Routed log s) (now : Int) (e : Event) :
    Routed (⟨now, e, (step cfg now s e).2⟩ :: log) (step cfg now s e).1 := by
  rcases step_cases cfg now s e with ⟨data, src, rnd, room, cookie, rfl, hparse, _, houtcome⟩ |
    ⟨data, src, rnd, room, phase, body, rfl, _, houtcome⟩ | ⟨hshrunk, _⟩
  · exact h.reg hparse houtcome
  · exact h.mono houtcome.pends houtcome.hasClient _
  · exact h.mono hshrunk.pends (fun hu => ⟨_, hshrunk.hasClient hu, rfl⟩) _

theorem routed_of_run {log : Log} (hrun : (machine cfg).Run (fun _ _ _ => True) log s) :
    Routed log s :=
  hrun.invariant_log Routed.empty fun _ _ now e h _ => step_routed h now e

theorem RegOutcome.write (houtcome : RegOutcome cfg now rnd room cookie src s s' outs) {msg : Bytes}
    {addr : UDPAddr} (h : Out.write msg addr ∈ outs) : msg.take 5 = ascii "REGD " := by
  have hok : Out.write msg addr ∈ sendREGD room src → msg.take 5 = ascii "REGD " := by
    intro h
    cases List.mem_singleton.mp h
    rfl
  have hchallenge : ∀ c, Out.write msg addr ∈ sendRegChallenge room c src →
      msg.take 5 = ascii "REGD " := by
    intro c h
    cases List.mem_singleton.mp h
    rfl
  cases houtcome with
  | dropped _ hsilent => exact absurd h (hsilent msg addr)
  | created => exact hok h
  | joined => exact hok h
  | admitted => exact hok h
  | refreshed => exact hok h
  | challengedStore => exact hchallenge _ h
  | renewed => exact hchallenge _ h
  | challengedRoom => exact hchallenge _ h

/-- Only a `MSG` makes the relay send a `MSGD` line, and only to clients of the room it names. -/
theorem step_msgd {e : Event} {msg : Bytes} {addr : UDPAddr}
    (hout : Out.write msg addr ∈ (step cfg now s e).2) (hmsg : msg.take 5 = ascii "MSGD ") :
    ∃ data src rnd R phase body, e = .packet data src rnd ∧
      parseMsg data = some (R, phase, body) ∧ msg = msgdLine phase body ∧
      ∃ k u, s.HasClient R k u ∧ addr = u.resolvedAddr := by
  rcases step_cases cfg now s e with ⟨data, src, rnd, room, cookie, rfl, _, _, houtcome⟩ |
    ⟨data, src, rnd, room, phase, body, rfl, hparse, houtcome⟩ | ⟨_, hsilent⟩
  · rw [houtcome.write hout] at hmsg
    exact absurd hmsg (by decide)
  · refine ⟨data, src, rnd, room, phase, body, rfl, hparse, ?_⟩
    generalize step cfg now s (.packet data src rnd) = result at hout houtcome
    obtain ⟨s', outs⟩ := result
    cases houtcome with
    | ignored why => exact absurd hout (silent_drop why msg addr)
    | counted r hroom hsender hwrites =>
        obtain ⟨hline, k, v, _, hv, haddr⟩ := hwrites msg addr hout
        exact ⟨hline, k, v, ⟨_, hroom, hv⟩, haddr⟩
  · exact absurd hout (hsilent msg addr)

/-- In every run, every client has answered a challenge that was sent to its own address for its own
room, and every `MSGD` line goes to an address that had done so for the room of the message. -/
theorem return_routability (cfg : Config) {log : Log} {s : State}
    (hrun : (machine cfg).Run (fun _ _ _ => True) log s) :
    (∀ R e k u, s.rooms.lookup R = some e → e.udpClients.lookup k = some u →
      u.resolvedAddr.string = k ∧ Answered log R k) ∧
    ∀ x older msg addr, x :: older <:+ log → Out.write msg addr ∈ x.outs →
      msg.take 5 = ascii "MSGD " →
      ∃ data src rnd R phase body, x.event = .packet data src rnd ∧
        parseMsg data = some (R, phase, body) ∧ msg = msgdLine phase body ∧
        Answered older R addr.string := by
  constructor
  · intro R e k u he hu
    exact (routed_of_run hrun).client ⟨e, he, hu⟩
  · intro x older msg addr hsuffix hout hmsg
    obtain ⟨s', hrun', houts⟩ := hrun.of_suffix hsuffix
    rw [houts] at hout
    obtain ⟨data, src, rnd, R, phase, body, hevent, hparse, hline, k, u, hu, rfl⟩ :=
      step_msgd hout hmsg
    obtain ⟨hstring, hanswered⟩ := (routed_of_run hrun').client hu
    exact ⟨data, src, rnd, R, phase, body, hevent, hparse, hline, hstring ▸ hanswered⟩

/-- Two ports of one host have joined the room. -/
theorem routable_two_ports : ∃ log s e u v,
    (machine .default).Run (fun _ _ _ => True) log s ∧ s.rooms.lookup (ascii "r") = some e ∧
      e.udpClients.lookup (ascii "127.0.0.1:1") = some u ∧
      e.udpClients.lookup (ascii "127.0.0.1:2") = some v ∧
      Answered log (ascii "r") (ascii "127.0.0.1:1") ∧
      Answered log (ascii "r") (ascii "127.0.0.1:2") := by
  obtain ⟨log, hrun⟩ := Machine.Run.init.exec
    (show (machine .default).Admissible (fun _ _ _ => True) none .empty (hostJoins [2]) by
      decide +kernel)
  have hclients : (((machine .default).exec .empty (hostJoins [2])).rooms.lookup (ascii "r")).any
      (fun e => (e.udpClients.lookup (ascii "127.0.0.1:1")).isSome &&
        (e.udpClients.lookup (ascii "127.0.0.1:2")).isSome) = true := by
    decide +kernel
  obtain ⟨e, he, hboth⟩ := (Option.any_eq_true _ _).mp hclients
  obtain ⟨hu, hv⟩ := Bool.and_eq_true_iff.mp hboth
  obtain ⟨u, hu⟩ := Option.isSome_iff_exists.mp hu
  obtain ⟨v, hv⟩ := Option.isSome_iff_exists.mp hv
  have hroutable := (return_routability .default hrun).1
  exact ⟨log, _, e, u, v, hrun, he, hu, hv, (hroutable _ _ _ _ he hu).2, (hroutable _ _ _ _ he hv).2⟩

end Qvole.Relay
