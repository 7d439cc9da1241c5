import Qvole.Lib.Refinement
import Qvole.Relay.ClientRecord
import Qvole.Relay.NewestCookie
import Qvole.Relay.Rates

/-!
# The rendezvous service

What the relay is for, without its tables: sources become members of rooms, and members talk to the other
members of their room. To join, a source has to bring back a ticket that was sent to it. A member that
was seen within the time to live stays; any other may be forgotten at any moment, and so may a ticket.

`Service.Step` lists what the service may do on a request. The relay is one way of doing it
(`step_serves`): rooms, shards, counters, caps and sweeps only decide when it ignores a request and what
it forgets. What follows for the members is then argued about the service alone.
-/

namespace Qvole.Relay

open Lib

/-- For a room and the text of a source address: when the member was last seen, and the tickets that are
out for the source, each with the time it was last sent. -/
structure Service where
  seen : Bytes → Bytes → Option Int
  tickets : Bytes → Bytes → Set (Cookie × Int)

/-- What a source asks for. A request to join comes with the cookie the service may use for a ticket. -/
inductive Request
  | join (room cookie : Bytes) (src : UDPAddr) (fresh : Option Cookie)
  | say (room phase body : Bytes) (src : UDPAddr)
  | other

namespace Service

def empty : Service := ⟨fun _ _ => none, fun _ _ => ∅⟩

/-- Some members that were not seen for longer than the time to live and some tickets are forgotten. -/
structure Fades (ttl now : Int) (a b : Service) : Prop where
  seen : ∀ {R k t}, b.seen R k = some t → a.seen R k = some t
  kept : ∀ {R k t}, a.seen R k = some t → now - t ≤ ttl → b.seen R k = some t
  tickets : ∀ R k, b.tickets R k ⊆ a.tickets R k

theorem Fades.refl {ttl now : Int} (a : Service) : Fades ttl now a a :=
  ⟨id, fun h _ => h, fun _ _ => subset_rfl⟩

/-- The member has been seen. -/
def see (a : Service) (room k : Bytes) (now : Int) : Service :=
  { a with seen := fun R k' => if R = room ∧ k' = k then some now else a.seen R k' }

/-- A ticket has been sent. -/
def offer (a : Service) (room k : Bytes) (ticket : Cookie × Int) : Service :=
  { a with tickets := fun R k' =>
      if R = room ∧ k' = k then insert ticket (a.tickets R k') else a.tickets R k' }

inductive Step (ttl now : Int) : Request → List (Bytes × UDPAddr) → Service → Service → Prop
  | ignore {request : Request} {a b : Service} (hfade : Fades ttl now a b) : Step ttl now request [] a b
  | challenge {room cookie : Bytes} {src : UDPAddr} {fresh : Option Cookie} {a b : Service} {c : Cookie}
      (hfade : Fades ttl now a b)
      (hcookie : fresh = some c ∨ ∃ t, (c, t) ∈ a.tickets room src.string) :
      Step ttl now (.join room cookie src fresh) [(regdChallenge room c, src)] a
        (b.offer room src.string (c, now))
  | welcome {room cookie : Bytes} {src : UDPAddr} {fresh : Option Cookie} {a b : Service} {c : Cookie}
      {t : Int} (hfade : Fades ttl now a b) (hticket : (c, t) ∈ a.tickets room src.string)
      (hcookie : hexDecode cookie = some c.val) (htime : now - t ≤ pendingRegTTL) :
      Step ttl now (.join room cookie src fresh) [(regdOK room src, src)] a (b.see room src.string now)
  | renew {room : Bytes} {src : UDPAddr} {fresh : Option Cookie} {a b : Service}
      (hfade : Fades ttl now a b) (hmember : a.seen room src.string ≠ none) :
      Step ttl now (.join room [] src fresh) [(regdOK room src, src)] a (b.see room src.string now)
  | forward {room phase body : Bytes} {src : UDPAddr} {sent : List (Bytes × UDPAddr)} {a : Service}
      (hmember : a.seen room src.string ≠ none) (hlines : ∀ x ∈ sent, x.1 = msgdLine phase body)
      (hnodup : (sent.map fun x => x.2.string).Nodup)
      (hall : ∀ k, k ∈ sent.map (fun x => x.2.string) ↔ k ≠ src.string ∧ a.seen room k ≠ none) :
      Step ttl now (.say room phase body src) sent a a

def spec (ttl : Int) : Spec Service Request (Bytes × UDPAddr) := ⟨empty, Step ttl⟩

end Service

/-! ### The relay as a service -/

def State.service (s : State) : Service where
  seen R k := (s.rooms.lookup R).bind fun e => (e.udpClients.lookup k).map UdpClient.lastSeen
  tickets R k := {x | ∃ p, s.Pends R k p ∧ x = (p.cookie, p.createdAt)}

/-- What the relay reads off a datagram. A datagram that is not one of its two commands asks for nothing. -/
def Event.request : Event → Request
  | .packet data src rnd =>
    match parseReg data with
    | some (room, cookie) => .join room cookie src rnd
    | none =>
      match parseMsg data with
      | some (room, phase, body) => .say room phase body src
      | none => .other
  | .rateTick => .other
  | .roomTick => .other

/-- An entry of the log without what stays inside the relay. -/
def observed (x : LogEntry Event Out) : LogEntry Request (Bytes × UDPAddr) :=
  ⟨x.time, x.event.request, x.outs.filterMap Out.datagram⟩

variable {cfg : Config} {now t : Int} {rnd : Option Cookie} {room cookie phase body R k data : Bytes}
  {src : UDPAddr} {s s₁ s' : State} {outs : List Out} {u : UdpClient} {a b : Service}

theorem State.service_seen : s.service.seen R k =
    (s.rooms.lookup R).bind fun e => (e.udpClients.lookup k).map UdpClient.lastSeen := rfl

theorem State.seen_eq_some : s.service.seen R k = some t ↔
    ∃ u, s.HasClient R k u ∧ u.lastSeen = t := by
  simp only [State.service_seen, Option.bind_eq_some_iff, Option.map_eq_some_iff, State.HasClient]
  constructor
  · intro ⟨e, he, u, hu, ht⟩
    exact ⟨u, ⟨e, he, hu⟩, ht⟩
  · intro ⟨u, ⟨e, he, hu⟩, ht⟩
    exact ⟨e, he, u, hu, ht⟩

theorem State.seen_ne_none : s.service.seen R k ≠ none ↔ ∃ u, s.HasClient R k u := by
  rw [Option.ne_none_iff_exists']
  constructor
  · intro ⟨t, h⟩
    obtain ⟨u, hu, _⟩ := State.seen_eq_some.mp h
    exact ⟨u, hu⟩
  · intro ⟨u, hu⟩
    exact ⟨u.lastSeen, State.seen_eq_some.mpr ⟨u, hu, rfl⟩⟩

theorem Shrunk.fades (h : Shrunk cfg now s s₁) : s.service.Fades cfg.regTTL now s₁.service where
  seen hseen := by
    obtain ⟨u, hu, ht⟩ := State.seen_eq_some.mp hseen
    exact State.seen_eq_some.mpr ⟨u, h.hasClient hu, ht⟩
  kept hseen hfresh := by
    obtain ⟨u, hu, ht⟩ := State.seen_eq_some.mp hseen
    exact State.seen_eq_some.mpr ⟨u, hu.shrunk (ht ▸ hfresh) h, ht⟩
  tickets R k x := fun ⟨p, hp, hx⟩ => ⟨p, h.pends hp, hx⟩

theorem State.seen_setRoom (q : RoomEntry × Counters) : (s.setRoom room q).service.seen R k =
    if R = room then (q.1.udpClients.lookup k).map UdpClient.lastSeen else s.service.seen R k := by
  by_cases hR : R = room
  · subst hR
    rw [if_pos rfl, State.service_seen, State.lookup_setRoom, Option.bind_some]
  · rw [if_neg hR, State.service_seen, State.lookup_setRoom_ne s q hR, State.service_seen]

/-- A room that differs in one client only. -/
theorem State.seen_insert {m : GoMap Bytes UdpClient} {q : RoomEntry × Counters} {v : UdpClient}
    (hm : ∀ k, (m.lookup k).map UdpClient.lastSeen = s.service.seen room k)
    (hq : q.1.udpClients = m.insert k v) (hv : v.lastSeen = now) :
    (s.setRoom room q).service.seen = (s.service.see room k now).seen := by
  funext R k'
  rw [State.seen_setRoom]
  by_cases hR : R = room
  · subst hR
    rw [if_pos rfl, hq, GoMap.lookup_insert_if]
    by_cases hk : k' = k
    · simp [Service.see, hk, hv]
    · simp [Service.see, hk, hm]
  · simp [Service.see, hR]

theorem State.seen_of_lookup {e : RoomEntry} (he : s.rooms.lookup room = some e) (k : Bytes) :
    (e.udpClients.lookup k).map UdpClient.lastSeen = s.service.seen room k := by
  rw [State.service_seen, he, Option.bind_some]

theorem State.seen_of_lookup_none (hnone : s.rooms.lookup room = none) (k : Bytes) :
    ((∅ : GoMap Bytes UdpClient).lookup k).map UdpClient.lastSeen = s.service.seen room k := by
  rw [State.service_seen, hnone, Option.bind_none, AList.lookup_empty, Option.map_none]

theorem State.seen_setRoom_same {e : RoomEntry} {q : RoomEntry × Counters}
    (he : s.rooms.lookup room = some e) (hq : q.1.udpClients = e.udpClients) :
    (s.setRoom room q).service.seen = s.service.seen := by
  funext R k
  rw [State.seen_setRoom]
  by_cases hR : R = room
  · rw [if_pos hR, hR, hq, State.seen_of_lookup he]
  · rw [if_neg hR]

theorem State.tickets_setRoom_same {e : RoomEntry} {q : RoomEntry × Counters}
    (he : s.rooms.lookup room = some e) (hq : q.1.pending = e.pending) :
    (s.setRoom room q).service.tickets = s.service.tickets := by
  have hpends : ∀ R k p, (s.setRoom room q).PendsInRoom R k p ↔ s.PendsInRoom R k p := by
    intro R k p
    by_cases hR : R = room
    · subst hR
      rw [State.PendsInRoom, State.PendsInRoom, State.lookup_setRoom, he]
      simp [hq]
    · rw [State.PendsInRoom, State.PendsInRoom, State.lookup_setRoom_ne s q hR]
  funext R k
  exact Set.ext fun x => exists_congr fun p => and_congr_left' (or_congr_right (hpends R k p))

/-! ### Registrations -/

/-- A registration that is confirmed leaves no new ticket behind. -/
theorem RegOutcome.tickets_of_ok (houtcome : RegOutcome cfg now rnd room cookie src s s' outs)
    (hroom : (32 : UInt8) ∉ room) (hok : outs = sendREGD room src) (R k : Bytes) :
    s'.service.tickets R k ⊆ s.service.tickets R k := by
  intro x ⟨p, hp, hx⟩
  rcases houtcome.pends hp with hp | ⟨_, _, _, _, hchallenge⟩
  · exact ⟨p, hp, hx⟩
  · rw [hok, sendREGD, sendRegChallenge, List.singleton_inj] at hchallenge
    injection hchallenge with hline
    exact absurd hline (regdOK_ne_regdChallenge hroom hroom)

/-- A confirmed registration: what was swept is forgotten, and the source has been seen. -/
theorem RegOutcome.sees (houtcome : RegOutcome cfg now rnd room cookie src s s' outs)
    (hroom : (32 : UInt8) ∉ room) (hok : outs = sendREGD room src) (hshrunk : Shrunk cfg now s s₁)
    (hseen : s'.service.seen = (s₁.service.see room src.string now).seen) :
    ∃ b, s.service.Fades cfg.regTTL now b ∧ s'.service = b.see room src.string now := by
  refine ⟨⟨s₁.service.seen, s'.service.tickets⟩, ⟨?_, ?_, ?_⟩, ?_⟩
  · exact hshrunk.fades.seen
  · exact hshrunk.fades.kept
  · exact houtcome.tickets_of_ok hroom hok
  · rw [Service.see, Service.mk.injEq]
    exact ⟨hseen, rfl⟩

/-- A challenge: what was swept is forgotten, and there is one more ticket. -/
theorem RegOutcome.offers {c : Cookie} (houtcome : RegOutcome cfg now rnd room cookie src s s' outs)
    (hroom : (32 : UInt8) ∉ room) (houts : outs = sendRegChallenge room c src)
    (hshrunk : Shrunk cfg now s s₁) (hseen : s'.service.seen = s₁.service.seen)
    (hticket : (c, now) ∈ s'.service.tickets room src.string) :
    ∃ b, s.service.Fades cfg.regTTL now b ∧ s'.service = b.offer room src.string (c, now) := by
  refine ⟨⟨s₁.service.seen, fun R k => s'.service.tickets R k ∩ s.service.tickets R k⟩, ⟨?_, ?_, ?_⟩, ?_⟩
  · exact hshrunk.fades.seen
  · exact hshrunk.fades.kept
  · exact fun R k => Set.inter_subset_right
  · rw [Service.offer, Service.mk.injEq]
    refine ⟨hseen, ?_⟩
    funext R k
    -- whatever is out for another source, or is not the new ticket, was out before
    have hold : ∀ x ∈ s'.service.tickets R k,
        x ∈ s.service.tickets R k ∨ (R = room ∧ k = src.string ∧ x = (c, now)) := by
      intro x ⟨p, hp, hx⟩
      rcases houtcome.pends hp with hp | ⟨hR, hk, _, htime, hchallenge⟩
      · exact Or.inl ⟨p, hp, hx⟩
      · rw [houts, sendRegChallenge, sendRegChallenge, List.singleton_inj] at hchallenge
        injection hchallenge with hline
        obtain ⟨_, hcookie⟩ := regdChallenge_inj hroom hroom hline
        exact Or.inr ⟨hR, hk, by rw [hx, htime, hcookie]⟩
    apply Set.ext
    intro x
    by_cases hkey : R = room ∧ k = src.string
    · rw [if_pos hkey, Set.mem_insert_iff]
      constructor
      · intro hx
        rcases hold x hx with hin | ⟨_, _, hnew⟩
        · exact Or.inr ⟨hx, hin⟩
        · exact Or.inl hnew
      · rintro (rfl | hx)
        · rw [hkey.1, hkey.2]
          exact hticket
        · exact hx.1
    · rw [if_neg hkey]
      constructor
      · intro hx
        rcases hold x hx with hin | ⟨hR, hk, _⟩
        · exact ⟨hx, hin⟩
        · exact absurd ⟨hR, hk⟩ hkey
      · exact fun hx => hx.1

theorem RegOutcome.serves (houtcome : RegOutcome cfg now rnd room cookie src s s' outs)
    (hroom : (32 : UInt8) ∉ room) :
    Service.Step cfg.regTTL now (.join room cookie src rnd) (outs.filterMap Out.datagram) s.service
      s'.service := by
  have houtcome' := houtcome
  cases houtcome with
  | dropped hshrunk hsilent =>
      rw [filterMap_datagram_of_silent hsilent]
      exact .ignore hshrunk.fades
  | created hshrunk hpend hcompletes hnone =>
      obtain ⟨b, hfade, heq⟩ := houtcome'.sees hroom rfl hshrunk
        (State.seen_insert (State.seen_of_lookup_none hnone) (AList.insert_empty _ _).symm rfl)
      rw [heq]
      exact .welcome hfade ⟨_, Or.inl hpend, rfl⟩ hcompletes.1 hcompletes.2
  | joined hshrunk hpend hcompletes he =>
      obtain ⟨b, hfade, heq⟩ := houtcome'.sees hroom rfl hshrunk
        (State.seen_insert (State.seen_of_lookup he) rfl rfl)
      rw [heq]
      exact .welcome hfade ⟨_, Or.inl hpend, rfl⟩ hcompletes.1 hcompletes.2
  | admitted hshrunk _ hin hpend hcompletes _ he =>
      obtain ⟨b, hfade, heq⟩ := houtcome'.sees hroom rfl hshrunk
        (State.seen_insert (State.seen_of_lookup he) rfl rfl)
      rw [heq]
      exact .welcome hfade ⟨_, Or.inr ⟨_, hin, hpend⟩, rfl⟩ hcompletes.1 hcompletes.2
  | refreshed hshrunk hcookie he hu =>
      obtain ⟨b, hfade, heq⟩ := houtcome'.sees hroom rfl hshrunk
        (State.seen_insert (State.seen_of_lookup he) rfl rfl)
      rw [heq, hcookie]
      exact .renew hfade (State.seen_ne_none.mpr ⟨_, hshrunk.hasClient ⟨_, he, hu⟩⟩)
  | challengedStore hshrunk hrnd =>
      obtain ⟨b, hfade, heq⟩ := houtcome'.offers hroom rfl hshrunk rfl
        ⟨_, Or.inl (AList.lookup_insert _), rfl⟩
      rw [heq]
      exact .challenge hfade (Or.inl hrnd)
  | renewed hshrunk _ he hpend =>
      obtain ⟨b, hfade, heq⟩ := houtcome'.offers hroom rfl hshrunk (State.seen_setRoom_same he rfl)
        ⟨_, Or.inr ⟨_, State.lookup_setRoom _ _ _, AList.lookup_insert _⟩, rfl⟩
      rw [heq]
      exact .challenge hfade (Or.inr ⟨_, _, hshrunk.pends (Or.inr ⟨_, he, hpend⟩), rfl⟩)
  | challengedRoom hshrunk hrnd _ he =>
      obtain ⟨b, hfade, heq⟩ := houtcome'.offers hroom rfl hshrunk (State.seen_setRoom_same he rfl)
        ⟨_, Or.inr ⟨_, State.lookup_setRoom _ _ _, AList.lookup_insert _⟩, rfl⟩
      rw [heq]
      exact .challenge hfade (Or.inl hrnd)

/-! ### Messages -/

/-- A message changes nothing but rate limiters. -/
theorem MsgOutcome.service_eq (houtcome : MsgOutcome room phase body src s s' outs) :
    s'.service = s.service := by
  cases houtcome with
  | ignored => rfl
  | @counted entry u _ r hroom hu =>
      have htickets := State.tickets_setRoom_same (q := ({ entry with
        udpClients := entry.udpClients.insert src.string { u with rateLimiter := r } }, s.counters))
        hroom rfl
      have hseen : (s.setRoom room ({ entry with
          udpClients := entry.udpClients.insert src.string { u with rateLimiter := r } },
          s.counters)).service.seen = s.service.seen := by
        funext R k
        rw [State.seen_setRoom]
        by_cases hR : R = room
        · rw [if_pos hR, GoMap.lookup_insert_if, hR, ← State.seen_of_lookup hroom k]
          by_cases hk : k = src.string
          · rw [if_pos hk, hk, hu, Option.map_some, Option.map_some]
          · rw [if_neg hk]
        · rw [if_neg hR]
      exact congrArg₂ Service.mk hseen htickets

theorem forwardMsg_serves {log : Log} (h : Routed log s) :
    Service.Step cfg.regTTL now (.say room phase body src)
      ((forwardMsg cfg now room phase body src s).2.filterMap Out.datagram) s.service
      (forwardMsg cfg now room phase body src s).1.service := by
  have houtcome : MsgOutcome room phase body src s (forwardMsg cfg now room phase body src s).1
      (forwardMsg cfg now room phase body src s).2 := forwardMsg_outcome
  rw [houtcome.service_eq]
  by_cases hsender : ∃ entry u, s.rooms.lookup room = some entry ∧
      entry.udpClients.lookup src.string = some u ∧ (u.rateLimiter.isLimited cfg now).1 = false
  · obtain ⟨entry, u, hroom, hu, hrate⟩ := hsender
    have hclient : ∀ x ∈ entry.udpClients.entries, s.HasClient room x.1 x.2 :=
      fun x hx => ⟨entry, hroom, AList.mem_lookup_iff.mpr hx⟩
    have hsent : (forwardMsg cfg now room phase body src s).2.filterMap Out.datagram =
        (entry.udpClients.entries.filter fun c => c.1 ≠ src.string).map fun c =>
          (msgdLine phase body, c.2.resolvedAddr) := by
      rw [forwardMsg_of_client hroom hu hrate, List.filterMap_map]
      exact congrFun (List.filterMap_eq_map (f := fun c : (_ : Bytes) × UdpClient => (msgdLine phase body, c.2.resolvedAddr))) _
    have hkeys : ((forwardMsg cfg now room phase body src s).2.filterMap Out.datagram).map
        (fun x => x.2.string) = (entry.udpClients.entries.filter fun c => c.1 ≠ src.string).map
          Sigma.fst := by
      rw [hsent, List.map_map]
      apply List.map_congr_left
      intro c hc
      exact (h.client (hclient c (List.mem_filter.mp hc).1)).1
    refine .forward (State.seen_ne_none.mpr ⟨u, entry, hroom, hu⟩) ?_ ?_ ?_
    · intro x hx
      rw [hsent] at hx
      obtain ⟨c, _, rfl⟩ := List.mem_map.mp hx
      rfl
    · rw [hkeys]
      exact entry.udpClients.nodupKeys.sublist List.filter_sublist
    · intro k
      rw [hkeys, List.mem_map, State.seen_ne_none]
      constructor
      · rintro ⟨c, hc, rfl⟩
        obtain ⟨hmem, hne⟩ := List.mem_filter.mp hc
        exact ⟨of_decide_eq_true hne, c.2, hclient c hmem⟩
      · rintro ⟨hne, v, e, he, hv⟩
        obtain rfl := Option.some.inj (hroom.symm.trans he)
        exact ⟨⟨k, v⟩, List.mem_filter.mpr ⟨AList.mem_lookup_iff.mp hv, decide_eq_true hne⟩, rfl⟩
  · rw [filterMap_datagram_of_silent (forwardMsg_silent hsender)]
    exact .ignore (Service.Fades.refl _)

/-! ### Whole runs -/

theorem State.service_empty : State.empty.service = Service.empty := by
  refine congrArg₂ Service.mk rfl ?_
  funext R k
  apply Set.eq_empty_of_forall_notMem
  rintro x ⟨p, hp | ⟨e, he, _⟩, _⟩
  · cases hp
  · cases he

theorem Event.request_of_parseReg (h : parseReg data = some (room, cookie)) :
    (Event.packet data src rnd).request = .join room cookie src rnd := by
  simp only [Event.request, h]

theorem Event.request_of_parseMsg (h : parseMsg data = some (room, phase, body)) :
    (Event.packet data src rnd).request = .say room phase body src := by
  have hreg : parseReg data = none := by
    rw [Option.eq_none_iff_forall_ne_some]
    intro fields hfields
    rw [parseMsg_of_parseReg hfields] at h
    cases h
  simp only [Event.request, hreg, h]

theorem step_serves {log : Log} (hrouted : Routed log s) (now : Int) (e : Event) :
    Service.Step cfg.regTTL now e.request ((step cfg now s e).2.filterMap Out.datagram) s.service
      (step cfg now s e).1.service := by
  rcases step_cases cfg now s e with ⟨data, src, rnd, room, cookie, rfl, hparse, _, houtcome⟩ |
    ⟨data, src, rnd, room, phase, body, rfl, hparse, _⟩ | ⟨hshrunk, hsilent⟩
  · rw [Event.request_of_parseReg hparse]
    exact houtcome.serves (space_notMem_of_valid (valid_of_parseReg hparse))
  · rw [Event.request_of_parseMsg hparse, step, handlePacket_of_parseMsg hparse]
    exact forwardMsg_serves hrouted
  · rw [filterMap_datagram_of_silent hsilent]
    exact .ignore hshrunk.fades

/-- The relay is a rendezvous service: what it reads and sends in any run, and what its tables then say about
members and tickets, is what the service allows. -/
theorem relay_refines_service (cfg : Config) {log : Log} {s : State}
    (hrun : (machine cfg).Run (fun _ _ _ => True) log s) :
    (Service.spec cfg.regTTL).Trace (log.map observed) s.service := by
  apply hrun.refines State.service_empty
  intro log s now e hrun _
  exact step_serves (routed_of_run hrun) now e

/-- Three ports of one host end up as members. -/
theorem service_of_three_ports : ∃ log s, (machine .default).Run (fun _ _ _ => True) log s ∧
    (Service.spec Config.default.regTTL).Trace (log.map observed) s.service ∧
    s.service.seen (ascii "r") (ascii "127.0.0.1:3") = some 2 := by
  obtain ⟨log, hrun⟩ := Machine.Run.init.exec
    (show (machine .default).Admissible (fun _ _ _ => True) none .empty (hostJoins [2, 3]) by
      decide +kernel)
  refine ⟨log, _, hrun, relay_refines_service .default hrun, ?_⟩
  decide +kernel

/-! ### What a member can rely on -/

namespace Service

variable {ttl : Int} {request : Request} {sent : List (Bytes × UDPAddr)} {k' : Bytes}

theorem Step.seen_of_ok {fresh : Option Cookie} (hroom : (32 : UInt8) ∉ room)
    (h : Step ttl now (.join room cookie src fresh) sent a b) (hok : (regdOK room src, src) ∈ sent) :
    b.seen room src.string = some now := by
  cases h with
  | ignore => cases hok
  | challenge =>
      obtain ⟨hline, _⟩ := Prod.mk.inj (List.mem_singleton.mp hok)
      exact absurd hline (regdOK_ne_regdChallenge hroom hroom)
  | welcome => exact if_pos ⟨rfl, rfl⟩
  | renew => exact if_pos ⟨rfl, rfl⟩

theorem Fades.member (h : Fades ttl now a b) (hseen : b.seen R k ≠ none) : a.seen R k ≠ none := by
  obtain ⟨t, ht⟩ := Option.ne_none_iff_exists'.mp hseen
  rw [h.seen ht]
  exact Option.some_ne_none t

theorem see_member (hseen : (a.see room k now).seen R k' ≠ none) :
    a.seen R k' ≠ none ∨ R = room ∧ k' = k := by
  by_cases hkey : R = room ∧ k' = k
  · exact Or.inr hkey
  · have hsame : (a.see room k now).seen R k' = a.seen R k' := if_neg hkey
    rw [hsame] at hseen
    exact Or.inl hseen

/-- Who asks to join is answered, if at all, and is the only one to become a member. -/
theorem Step.join_cases {fresh : Option Cookie} (h : Step ttl now (.join room cookie src fresh) sent a b) :
    (∀ x ∈ sent, x.2 = src ∧ (x.1 = regdOK room src ∨ ∃ c, x.1 = regdChallenge room c)) ∧
      ∀ R k, b.seen R k ≠ none → a.seen R k ≠ none ∨ R = room ∧ k = src.string := by
  cases h with
  | ignore hfade => exact ⟨fun x hx => absurd hx List.not_mem_nil, fun R k hseen => Or.inl (hfade.member hseen)⟩
  | @challenge _ _ _ _ _ _ c hfade =>
      refine ⟨?_, fun R k hseen => Or.inl (hfade.member hseen)⟩
      intro x hx
      rw [List.mem_singleton.mp hx]
      exact ⟨rfl, Or.inr ⟨c, rfl⟩⟩
  | welcome hfade =>
      refine ⟨?_, fun R k hseen => (see_member hseen).imp_left hfade.member⟩
      intro x hx
      rw [List.mem_singleton.mp hx]
      exact ⟨rfl, Or.inl rfl⟩
  | renew hfade =>
      refine ⟨?_, fun R k hseen => (see_member hseen).imp_left hfade.member⟩
      intro x hx
      rw [List.mem_singleton.mp hx]
      exact ⟨rfl, Or.inl rfl⟩

/-- What a member says goes to the other members. -/
theorem Step.say_cases (h : Step ttl now (.say room phase body src) sent a b) :
    (∀ x ∈ sent, x.1 = msgdLine phase body ∧ a.seen room src.string ≠ none ∧ x.2.string ≠ src.string ∧
      a.seen room x.2.string ≠ none) ∧ ∀ R k, b.seen R k ≠ none → a.seen R k ≠ none := by
  cases h with
  | ignore hfade => exact ⟨fun x hx => absurd hx List.not_mem_nil, fun R k hseen => hfade.member hseen⟩
  | forward hmember hlines _ hall =>
      refine ⟨?_, fun R k hseen => hseen⟩
      intro x hx
      obtain ⟨hother, hseen⟩ := (hall x.2.string).mp (List.mem_map_of_mem hx)
      exact ⟨hlines x hx, hmember, hother, hseen⟩

theorem Step.other_cases (h : Step ttl now .other sent a b) :
    sent = [] ∧ ∀ R k, b.seen R k ≠ none → a.seen R k ≠ none := by
  cases h with
  | ignore hfade => exact ⟨rfl, fun R k hseen => hfade.member hseen⟩

/-- Nothing makes the service forget a member that was seen within the time to live. -/
theorem Step.keeps (h : Step ttl now request sent a b) (hseen : a.seen R k = some t)
    (hfresh : now - t ≤ ttl) : ∃ t', b.seen R k = some t' ∧ (t' = t ∨ t' = now) := by
  have hsee : ∀ (b : Service) (room k' : Bytes), Fades ttl now a b →
      ∃ t', (b.see room k' now).seen R k = some t' ∧ (t' = t ∨ t' = now) := by
    intro b room k' hfade
    by_cases hkey : R = room ∧ k = k'
    · exact ⟨now, if_pos hkey, Or.inr rfl⟩
    · exact ⟨t, (if_neg hkey).trans (hfade.kept hseen hfresh), Or.inl rfl⟩
  cases h with
  | ignore hfade => exact ⟨t, hfade.kept hseen hfresh, Or.inl rfl⟩
  | challenge hfade => exact ⟨t, hfade.kept hseen hfresh, Or.inl rfl⟩
  | welcome hfade => exact hsee _ _ _ hfade
  | renew hfade => exact hsee _ _ _ hfade
  | forward => exact ⟨t, hseen, Or.inl rfl⟩

/-- A member stays one for the time to live after it was seen. -/
theorem seen_of_path {log : List (LogEntry Request (Bytes × UDPAddr))}
    (hpath : (spec ttl).Path a log b) (hseen : a.seen R k = some t)
    (htimes : ∀ x ∈ log, t ≤ x.time ∧ x.time - t ≤ ttl) : b.seen R k ≠ none := by
  have hkept : ∃ t', b.seen R k = some t' ∧ t ≤ t' := by
    apply hpath.invariant (I := fun b => ∃ t', b.seen R k = some t' ∧ t ≤ t') ⟨t, hseen, le_refl t⟩
    intro x hx b c ⟨t', hseen', hle⟩ hstep
    obtain ⟨hfrom, hto⟩ := htimes x hx
    obtain ⟨t'', hseen'', hcases⟩ := hstep.keeps hseen' (by omega)
    exact ⟨t'', hseen'', by omega⟩
  obtain ⟨t', hseen', _⟩ := hkept
  rw [hseen']
  exact Option.some_ne_none t'

/-- A message that is forwarded at all is forwarded to every other member of the room. -/
theorem Step.reaches (h : Step ttl now (.say room phase body src) sent a b) (hsent : sent ≠ [])
    (hmember : a.seen room k ≠ none) (hother : k ≠ src.string) :
    ∃ addr, addr.string = k ∧ sent.count (msgdLine phase body, addr) = 1 := by
  cases h with
  | ignore => exact absurd rfl hsent
  | forward _ hlines hnodup hall =>
      obtain ⟨⟨line, addr⟩, hx, hk⟩ := List.mem_map.mp ((hall k).mpr ⟨hother, hmember⟩)
      have hline : line = msgdLine phase body := hlines _ hx
      refine ⟨addr, hk, ?_⟩
      rw [← hline]
      exact List.count_eq_one_of_mem hnodup.of_map hx

end Service

theorem mem_datagrams {msg : Bytes} {addr : UDPAddr} :
    (msg, addr) ∈ outs.filterMap Out.datagram ↔ Out.write msg addr ∈ outs := by
  rw [List.mem_filterMap]
  constructor
  · rintro ⟨out, hout, hdatagram⟩
    cases out with
    | write => cases hdatagram; exact hout
    | drop => cases hdatagram
    | randFailed => cases hdatagram
  · intro h
    exact ⟨_, h, rfl⟩

theorem count_datagrams {msg : Bytes} {addr : UDPAddr} :
    (outs.filterMap Out.datagram).count (msg, addr) = outs.count (.write msg addr) := by
  induction outs with
  | nil => rfl
  | cons out outs ih =>
      cases out with
      | write => simp [Out.datagram, List.count_cons, ih]
      | drop => rw [List.filterMap_cons_none rfl, ih, List.count_cons_of_ne Out.noConfusion]
      | randFailed => rw [List.filterMap_cons_none rfl, ih, List.count_cons_of_ne Out.noConfusion]

/-- What a client within its rate sends goes out, if there is another client. -/
theorem forwardMsg_sends {v : UdpClient} (hsender : s.HasClient room src.string u)
    (hrate : (u.rateLimiter.isLimited cfg now).1 = false) (hmember : s.HasClient room k v)
    (hother : k ≠ src.string) : (forwardMsg cfg now room phase body src s).2.filterMap Out.datagram ≠ [] := by
  obtain ⟨entry, hroom, hu⟩ := hsender
  obtain ⟨entry', hroom', hv⟩ := hmember
  obtain rfl := Option.some.inj (hroom.symm.trans hroom')
  have htarget : (⟨k, v⟩ : (_ : Bytes) × UdpClient) ∈
      entry.udpClients.entries.filter fun c => c.1 ≠ src.string :=
    List.mem_filter.mpr ⟨AList.mem_lookup_iff.mp hv, decide_eq_true hother⟩
  apply List.ne_nil_of_mem
  rw [mem_datagrams, forwardMsg_of_client hroom hu hrate]
  exact List.mem_map_of_mem htarget

/-- A source whose registration was confirmed gets every message that a client of the room sends within its
rate during the time to live, once each, whatever happens in between. -/
theorem confirmed_hear (cfg : Config) {between older : Log} {x : LogEntry Event Out} {s : State}
    (hrun : (machine cfg).Run (fun _ _ _ => True) (between ++ x :: older) s)
    {reg msg room cookie phase body : Bytes} {member src : UDPAddr} {rnd rnd' : Option Cookie}
    (hreg : x.event = .packet reg member rnd) (hparse : parseReg reg = some (room, cookie))
    (hok : Out.write (regdOK room member) member ∈ x.outs) {now : Int}
    (hclock : ∀ z ∈ between, z.time ≤ now) (htime : now - x.time ≤ cfg.regTTL)
    (hmsg : IsMsg msg room phase body) (hother : member.string ≠ src.string) {u : UdpClient}
    (hsender : s.HasClient room src.string u) (hrate : (u.rateLimiter.isLimited cfg now).1 = false) :
    ∃ addr, addr.string = member.string ∧
      (step cfg now s (.packet msg src rnd')).2.count (.write (msgdLine phase body) addr) = 1 := by
  have htrace : (Service.spec cfg.regTTL).Trace ((between ++ x :: older).map observed) s.service :=
    hrun.refines State.service_empty fun _ _ now e hrun _ => step_serves (routed_of_run hrun) now e
  rw [Spec.Trace, List.map_append, List.map_cons] at htrace
  obtain ⟨b, hpath, hbetween⟩ := Spec.path_append.mp htrace
  obtain ⟨a, _, hfirst⟩ := Spec.path_cons.mp hpath
  -- registered with the first entry, still a member now
  have hseen : b.seen room member.string = some x.time := by
    rw [observed, hreg, Event.request_of_parseReg hparse] at hfirst
    exact Service.Step.seen_of_ok (space_notMem_of_valid (valid_of_parseReg hparse)) hfirst
      (mem_datagrams.mpr hok)
  have hmember : s.service.seen room member.string ≠ none := by
    apply Service.seen_of_path hbetween hseen
    intro z' hz'
    obtain ⟨z, hz, rfl⟩ := List.mem_map.mp hz'
    have hsorted := hrun.pairwise_time
    rw [List.pairwise_append] at hsorted
    have hfrom := hsorted.2.2 z hz x List.mem_cons_self
    have hto := hclock z hz
    dsimp only [observed]
    omega
  have hlast : Service.Step cfg.regTTL now _ _ s.service _ :=
    step_serves (routed_of_run hrun) now (.packet msg src rnd')
  rw [Event.request_of_parseMsg (parseMsg_iff.mpr hmsg)] at hlast
  have hne : (step cfg now s (.packet msg src rnd')).2.filterMap Out.datagram ≠ [] := by
    obtain ⟨v, hv⟩ := State.seen_ne_none.mp hmember
    rw [step, handlePacket_of_parseMsg (parseMsg_iff.mpr hmsg)]
    exact forwardMsg_sends hsender hrate hv hother
  obtain ⟨addr, haddr, hcount⟩ := Service.Step.reaches hlast hne hmember hother
  exact ⟨addr, haddr, count_datagrams.symm.trans hcount⟩

/-- Port 1 comes in, then port 2, and what port 2 says reaches port 1. -/
theorem confirmed_hear_two_ports : ∃ log s, (machine .default).Run (fun _ _ _ => True) log s ∧
    ∃ addr, addr.string = ascii "127.0.0.1:1" ∧
      (step .default 3 s (.packet (ascii "MSG r spake2 00ff\n") ⟨[127, 0, 0, 1], 2, []⟩ none)).2.count
        (.write (msgdLine (ascii "spake2") (ascii "00ff")) addr) = 1 := by
  have hrun := Machine.Run.init.execLog
    (show (machine .default).Admissible (fun _ _ _ => True) none .empty (hostJoins [2]) by decide +kernel)
  have hmsg : IsMsg (ascii "MSG r spake2 00ff\n") (ascii "r") (ascii "spake2") (ascii "00ff") :=
    parseMsg_iff.mp (by decide +kernel)
  have hparse : parseReg (ascii "REG r" ++ (32 :: hexEncode (cookieOf 1).val) ++ [10]) =
      some (ascii "r", hexEncode (cookieOf 1).val) := by
    decide +kernel
  have hsender : ((machine .default).exec .empty (hostJoins [2])).HasClient (ascii "r")
      (ascii "127.0.0.1:2") (newClient 2 ⟨[127, 0, 0, 1], 2, []⟩) := ⟨_, rfl, rfl⟩
  refine ⟨_, _, hrun, ?_⟩
  refine confirmed_hear .default (show (machine .default).Run _ ([_, _] ++ _ :: [_]) _ from hrun) rfl hparse
    ?_ ?_ ?_ hmsg ?_ hsender ?_
  · decide +kernel
  · decide +kernel
  · decide +kernel
  · decide
  · decide +kernel

end Qvole.Relay
