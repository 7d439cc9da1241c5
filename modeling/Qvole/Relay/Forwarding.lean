import Qvole.Relay.Routability

/-!
# Forwarding a message

A `MSG` is a line of three fields behind the command. What the relay sends on is the phase and the
body as they stand in the line, once to every other client of the room. Nothing else makes it send a
`MSGD` line, and sending one changes nothing but the message count of the sender.
-/

namespace Qvole.Relay

open Lib

variable {cfg : Config} {now : Int} {rnd : Option Cookie} {room phase body data : Bytes} {src : UDPAddr}
  {s : State} {entry : RoomEntry} {u : UdpClient}

/-! ### The line -/

/-- A datagram that says `MSG room phase body`, with fields the relay takes. -/
structure IsMsg (data room phase body : Bytes) : Prop where
  size : data.length ≤ maxDatagramLen
  line : trimSpace data = ascii "MSG " ++ room ++ [32] ++ phase ++ [32] ++ body
  room : validRoomName room
  phase : phase = ascii "spake2" ∨ phase = ascii "confirm"
  body_ne : body ≠ []
  body_even : body.length % 2 = 0
  body_len : body.length ≤ 1024
  body_hex : ∀ b ∈ body, (fromHexChar b).isSome

theorem msgFields_eq_some {payload : Bytes} : msgFields payload = some (room, phase, body) ↔
    splitN 32 3 payload = [room, phase, body] ∧ (phase = ascii "spake2" ∨ phase = ascii "confirm") ∧
      validRoomName room ∧ isValidHex body ∧ body.length ≤ maxMSGBodyLen := by
  constructor
  · intro h
    unfold msgFields at h
    split at h
    · rename_i room' phase' body' hsplit
      split at h
      · rename_i hok
        cases h
        exact ⟨hsplit, hok⟩
      · cases h
    · cases h
  · intro h
    rw [msgFields, h.1]
    exact if_pos h.2

/-- Neither a room name nor a phase has a space in it, so the three fields are where they were put. -/
theorem splitN_msg_iff {payload : Bytes} (hroom : validRoomName room)
    (hphase : phase = ascii "spake2" ∨ phase = ascii "confirm") :
    splitN 32 3 payload = [room, phase, body] ↔ payload = room ++ 32 :: (phase ++ 32 :: body) := by
  have hroom := space_notMem (validRoomName_iff.mp hroom).2.2
  have hphase : (32 : UInt8) ∉ phase := by
    rcases hphase with rfl | rfl
    · decide
    · decide
  rw [splitN_three_iff]
  exact and_iff_left ⟨hroom, hphase⟩

/-- The relay takes a datagram for a message exactly when it says so. -/
theorem parseMsg_iff : parseMsg data = some (room, phase, body) ↔ IsMsg data room phase body := by
  have hassoc : ascii "MSG " ++ room ++ [32] ++ phase ++ [32] ++ body =
      ascii "MSG " ++ (room ++ 32 :: (phase ++ 32 :: body)) := by
    simp only [List.append_assoc, List.cons_append, List.nil_append]
  unfold parseMsg
  dsimp only
  constructor
  · intro h
    split at h
    · rename_i hok
      obtain ⟨_, hsize, hcmd⟩ := hok
      obtain ⟨hsplit, hphase, hroom, hhex, hlen⟩ := msgFields_eq_some.mp h
      have hpayload := (splitN_msg_iff hroom hphase).mp hsplit
      obtain ⟨hne, heven, hdigits⟩ := isValidHex_iff.mp hhex
      refine ⟨hsize, ?_, hroom, hphase, hne, heven, hlen, hdigits⟩
      rw [hassoc, ← hpayload, ← hcmd, List.take_append_drop]
    · cases h
  · intro h
    have hline := h.line.trans hassoc
    have hnonempty : data.length ≠ 0 := by
      intro hzero
      rw [List.length_eq_zero_iff.mp hzero] at hline
      cases hline
    rw [hline, if_pos ⟨hnonempty, h.size, rfl⟩]
    refine msgFields_eq_some.mpr ⟨(splitN_msg_iff h.room h.phase).mpr rfl, h.phase, h.room, ?_, h.body_len⟩
    exact isValidHex_iff.mpr ⟨h.body_ne, h.body_even, h.body_hex⟩

theorem handleMsg_of_msgFields {payload : Bytes} (h : msgFields payload = some (room, phase, body)) :
    handleMsg cfg now payload src s = forwardMsg cfg now room phase body src s := by
  obtain ⟨hsplit, hphase, hroom, hhex, hlen⟩ := msgFields_eq_some.mp h
  have hknown : ¬ (phase ≠ ascii "spake2" ∧ phase ≠ ascii "confirm") := by
    rw [not_and_or, not_not, not_not]
    exact hphase
  have hbody : ¬ (¬ isValidHex body ∨ maxMSGBodyLen < body.length) := by
    rw [not_or, not_not, not_lt]
    exact ⟨hhex, hlen⟩
  rw [handleMsg, hsplit]
  dsimp only
  rw [if_neg hknown, if_neg (not_not.mpr hroom), if_neg hbody]

theorem handlePacket_of_parseMsg (h : parseMsg data = some (room, phase, body)) :
    handlePacket cfg now rnd data src s = forwardMsg cfg now room phase body src s := by
  unfold parseMsg at h
  dsimp only at h
  split at h
  · rename_i hok
    obtain ⟨hne, hlen, hcmd⟩ := hok
    have hreg : ¬ (trimSpace data).take cmdPrefixLen = ascii "REG " := by
      rw [hcmd]
      decide
    unfold handlePacket
    dsimp only
    rw [if_neg (by omega), if_neg hreg, if_pos hcmd, handleMsg_of_msgFields h]
  · cases h

/-! ### The recipients -/

theorem forwardMsg_of_client (hroom : s.rooms.lookup room = some entry)
    (hu : entry.udpClients.lookup src.string = some u)
    (hrate : (u.rateLimiter.isLimited cfg now).1 = false) :
    forwardMsg cfg now room phase body src s =
      (s.setRoom room ({ entry with
          udpClients := entry.udpClients.insert src.string
            { u with rateLimiter := (u.rateLimiter.isLimited cfg now).2 } }, s.counters),
        (entry.udpClients.entries.filter fun c => c.1 ≠ src.string).map fun c =>
          .write (msgdLine phase body) c.2.resolvedAddr) := by
  simp [forwardMsg, hroom, hu, hrate]

theorem forwardMsg_silent (h : ¬ ∃ entry u, s.rooms.lookup room = some entry ∧
    entry.udpClients.lookup src.string = some u ∧ (u.rateLimiter.isLimited cfg now).1 = false)
    (msg : Bytes) (addr : UDPAddr) :
    Out.write msg addr ∉ (forwardMsg cfg now room phase body src s).2 := by
  unfold forwardMsg
  dsimp only
  cases hroom : s.rooms.lookup room with
  | none => exact silent_drop _ msg addr
  | some entry =>
      dsimp only
      cases hu : entry.udpClients.lookup src.string with
      | none => exact silent_drop _ msg addr
      | some u =>
          have hlimited : (u.rateLimiter.isLimited cfg now).1 = true := by
            rw [← Bool.not_eq_false]
            intro hrate
            exact h ⟨entry, u, hroom, hu, hrate⟩
          dsimp only
          rw [if_pos hlimited]
          exact silent_drop _ msg addr

/-- The addresses of the clients of a room are as different as the texts they are kept under. -/
theorem Routed.nodup_targets {log : Log} (h : Routed log s) (hroom : s.rooms.lookup room = some entry)
    (msg : Bytes) (p : (_ : Bytes) × UdpClient → Bool) :
    ((entry.udpClients.entries.filter p).map fun c => Out.write msg c.2.resolvedAddr).Nodup := by
  apply List.Nodup.map_on
  · rintro ⟨k, v⟩ hv ⟨k', v'⟩ hv' heq
    injection heq with _ haddr
    have hlook : ∀ {k v}, (⟨k, v⟩ : (_ : Bytes) × UdpClient) ∈ entry.udpClients.entries.filter p →
        entry.udpClients.lookup k = some v := fun hmem =>
      AList.mem_lookup_iff.mpr (List.mem_filter.mp hmem).1
    have hk := (h.client ⟨entry, hroom, hlook hv⟩).1
    have hk' := (h.client ⟨entry, hroom, hlook hv'⟩).1
    have hkey : k = k' := by
      rw [← hk, ← hk']
      exact congrArg UDPAddr.string haddr
    subst hkey
    have hvv := (hlook hv).symm.trans (hlook hv')
    rw [Option.some.inj hvv]
  · exact (List.NodupKeys.nodup entry.udpClients.nodupKeys).filter p

/-- In every reachable state the relay sends a `MSGD` line only for a message of a client of the room
that is within its rate. It then sends exactly this line, once to each other client of the room and to
nobody else, and only counts the message. -/
theorem forwarding_exact (cfg : Config) {log : Log} {s : State}
    (hrun : (machine cfg).Run (fun _ _ _ => True) log s) (now : Int) (data : Bytes) (src : UDPAddr)
    (rnd : Option Cookie) :
    (∀ msg addr, Out.write msg addr ∈ (step cfg now s (.packet data src rnd)).2 →
      msg.take 5 = ascii "MSGD " → ∃ room phase body entry u, IsMsg data room phase body ∧
        s.rooms.lookup room = some entry ∧ entry.udpClients.lookup src.string = some u ∧
        (u.rateLimiter.isLimited cfg now).1 = false) ∧
    ∀ room phase body entry u, IsMsg data room phase body → s.rooms.lookup room = some entry →
      entry.udpClients.lookup src.string = some u → (u.rateLimiter.isLimited cfg now).1 = false →
      (∀ b ∈ body, asciiSpace b = false) ∧
      (∀ out ∈ (step cfg now s (.packet data src rnd)).2, ∃ k v, k ≠ src.string ∧
        entry.udpClients.lookup k = some v ∧
        out = .write (ascii "MSGD " ++ phase ++ [32] ++ body ++ [10]) v.resolvedAddr) ∧
      (∀ k v, k ≠ src.string → entry.udpClients.lookup k = some v → v.resolvedAddr.string = k ∧
        (step cfg now s (.packet data src rnd)).2.count
          (.write (ascii "MSGD " ++ phase ++ [32] ++ body ++ [10]) v.resolvedAddr) = 1) ∧
      (step cfg now s (.packet data src rnd)).1 =
        { s with rooms := s.rooms.insert room { entry with
          udpClients := entry.udpClients.insert src.string
            { u with rateLimiter := (u.rateLimiter.isLimited cfg now).2 } } } := by
  have hrouted := routed_of_run hrun
  constructor
  · intro msg addr hout hmsg
    obtain ⟨data', src', rnd', room, phase, body, hevent, hparse, _⟩ := step_msgd hout hmsg
    cases hevent
    rw [step, handlePacket_of_parseMsg hparse] at hout
    have hsender := not_imp_not.mp (fun h => forwardMsg_silent h msg addr) hout
    obtain ⟨entry, u, hsender⟩ := hsender
    exact ⟨room, phase, body, entry, u, parseMsg_iff.mp hparse, hsender⟩
  · intro room phase body entry u hmsg hroom hu hrate
    rw [step, handlePacket_of_parseMsg (parseMsg_iff.mpr hmsg), forwardMsg_of_client hroom hu hrate]
    refine ⟨?_, ?_, ?_, rfl⟩
    · intro b hb
      exact not_asciiSpace_of_isPrint (isPrint_of_isSome_fromHexChar (hmsg.body_hex b hb))
    · intro out hout
      obtain ⟨⟨k, v⟩, hmem, rfl⟩ := List.mem_map.mp hout
      obtain ⟨hentry, hne⟩ := List.mem_filter.mp hmem
      exact ⟨k, v, of_decide_eq_true hne, AList.mem_lookup_iff.mpr hentry, rfl⟩
    · intro k v hne hv
      refine ⟨(hrouted.client ⟨entry, hroom, hv⟩).1, ?_⟩
      apply List.count_eq_one_of_mem (hrouted.nodup_targets hroom _ _)
      apply List.mem_map.mpr
      refine ⟨⟨k, v⟩, List.mem_filter.mpr ⟨AList.mem_lookup_iff.mp hv, decide_eq_true hne⟩, rfl⟩

theorem forwarding_two_ports : ∃ log s entry u v,
    (machine .default).Run (fun _ _ _ => True) log s ∧
      IsMsg (ascii "MSG r spake2 00ff\n") (ascii "r") (ascii "spake2") (ascii "00ff") ∧
      s.rooms.lookup (ascii "r") = some entry ∧
      entry.udpClients.lookup (ascii "127.0.0.1:2") = some u ∧
      (u.rateLimiter.isLimited .default 3).1 = false ∧
      entry.udpClients.lookup (ascii "127.0.0.1:1") = some v ∧
      (step .default 3 s (.packet (ascii "MSG r spake2 00ff\n") ⟨[127, 0, 0, 1], 2, []⟩ none)).2.count
        (.write (ascii "MSGD spake2 00ff\n") v.resolvedAddr) = 1 := by
  obtain ⟨log, hrun⟩ := Machine.Run.init.exec
    (show (machine .default).Admissible (fun _ _ _ => True) none .empty (hostJoins [2]) by
      decide +kernel)
  have hclients : (((machine .default).exec .empty (hostJoins [2])).rooms.lookup (ascii "r")).any
      (fun e => (e.udpClients.lookup (ascii "127.0.0.1:1")).isSome &&
        (e.udpClients.lookup (ascii "127.0.0.1:2")).any
          fun u => !(u.rateLimiter.isLimited .default 3).1) = true := by
    decide +kernel
  have hmsg : IsMsg (ascii "MSG r spake2 00ff\n") (ascii "r") (ascii "spake2") (ascii "00ff") :=
    parseMsg_iff.mp (by decide +kernel)
  obtain ⟨entry, hroom, hboth⟩ := (Option.any_eq_true _ _).mp hclients
  obtain ⟨hv, hu⟩ := Bool.and_eq_true_iff.mp hboth
  obtain ⟨v, hv⟩ := Option.isSome_iff_exists.mp hv
  obtain ⟨u, hu, hrate⟩ := (Option.any_eq_true _ _).mp hu
  have hrate := Bool.not_eq_true' _ |>.mp hrate
  have hexact := (forwarding_exact .default hrun 3 (ascii "MSG r spake2 00ff\n") ⟨[127, 0, 0, 1], 2, []⟩
    none).2 _ _ _ entry u hmsg hroom hu hrate
  exact ⟨log, _, entry, u, v, hrun, hmsg, hroom, hu, hrate, hv,
    (hexact.2.2.1 (ascii "127.0.0.1:1") v (by decide) hv).2⟩

end Qvole.Relay
