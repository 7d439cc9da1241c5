import Qvole.Relay.Caps
import Qvole.Relay.Forwarding
import Qvole.Relay.RegLimit

/-!
# What the relay sends to a source it does not know

The source address of a datagram may be forged, so whatever the relay answers may hit somebody who never
wrote to it. A `REG` passes the rate limit of its prefix and is answered by one line at most, which goes
back to the source; anything longer lived, a `MSGD` line, goes to clients that have answered a challenge.
Nothing but a `REG` and the rate-map tick touches the rate-limit maps, so the relay moves the windows of the
prefixes just like the limiter does on its own.
-/

namespace Qvole.Relay

open Lib

variable {cfg : Config} {now : Int} {rnd : Option Cookie} {room cookie data : Bytes} {src : UDPAddr}
  {s s' : State}

/-! ### The rate-limit maps -/

/-- The two maps of the rate limit. -/
def State.rates (s : State) : GoMap Bytes Nat × GoMap Bytes Int := (s.regSent, s.regTimes)

theorem State.RegMaps.of_rates (h : s.RegMaps) (hrates : s'.rates = s.rates) : s'.RegMaps := by
  obtain ⟨hsent, htimes⟩ := Prod.mk.inj hrates
  refine ⟨fun k => ?_, fun shard => ?_⟩
  · rw [hsent, htimes]
    exact h.same_keys k
  · rw [State.regShardEntries, htimes]
    exact h.le_cap shard

theorem State.regWindow_of_rates (hrates : s'.rates = s.rates) (k : Bytes) :
    s'.regWindow k = s.regWindow k := by
  obtain ⟨hsent, htimes⟩ := Prod.mk.inj hrates
  rw [State.regWindow, State.regWindow, hsent, htimes]

namespace State

theorem evictStaleRoom_rates (room : Bytes) (s : State) : (s.evictStaleRoom cfg now room).rates = s.rates := by
  unfold evictStaleRoom
  split
  · rfl
  · dsimp only
    split
    · rfl
    · rfl

theorem evictStaleRooms_rates (shard : Nat) (s : State) :
    (s.evictStaleRooms cfg now shard).rates = s.rates :=
  List.foldlRecOn _ (evictStaleRoom cfg now) (motive := fun s' => s'.rates = s.rates) rfl
    fun s' h room _ => (evictStaleRoom_rates room s').trans h

theorem evictStaleRoomsAll_rates (s : State) : (s.evictStaleRoomsAll cfg now).rates = s.rates :=
  List.foldlRecOn _ (fun s shard => evictStaleRooms cfg now shard s)
    (motive := fun s' => s'.rates = s.rates) rfl
    fun s' h shard _ => (evictStaleRooms_rates shard s').trans h

theorem deletePendingReg_rates (room srcStr : Bytes) (s : State) :
    (s.deletePendingReg room srcStr).rates = s.rates := by
  unfold deletePendingReg
  split
  · rfl
  · rfl

theorem removeStaleShard_rates (shard : Nat) (s : State) :
    (removeStaleShard now s shard).rates = s.rates := rfl

theorem cleanupRooms_rates (s : State) : (s.cleanupRooms cfg now).rates = s.rates :=
  List.foldlRecOn _ (removeStaleShard now) (motive := fun s' => s'.rates = s.rates)
    (evictStaleRoomsAll_rates s) fun s' h shard _ => (removeStaleShard_rates shard s').trans h

end State

theorem challengeNewRoom_rates : (challengeNewRoom cfg now rnd room src s).1.rates = s.rates := by
  unfold challengeNewRoom
  dsimp only
  split
  · rfl
  split
  · rfl
  cases rnd with
  | none => rfl
  | some cb =>
      dsimp only [State.storePendingReg]
      split_ifs
      · rfl
      · rfl
      · rfl

theorem createRoom_rates {pend : PendingReg} : (createRoom cfg now room src pend s).1.rates = s.rates := by
  have hevicted : (if cfg.maxRooms ≤ s.totalRooms then
      s.evictStaleRooms cfg now (shardIdx room numShards) else s).rates = s.rates := by
    split
    · exact State.evictStaleRooms_rates _ s
    · rfl
  unfold createRoom
  dsimp only
  generalize (if cfg.maxRooms ≤ s.totalRooms then
    s.evictStaleRooms cfg now (shardIdx room numShards) else s) = s₁ at hevicted
  split
  · exact hevicted
  split
  · exact hevicted
  · exact hevicted

theorem joinRoom_rates {pend : PendingReg} {entry : RoomEntry} :
    (joinRoom cfg now room src pend entry s).1.rates = s.rates := by
  unfold joinRoom
  dsimp only
  split_ifs <;> rfl

theorem completePending_rates {pend : PendingReg} {b : Bytes} :
    (completePending cfg now room b src pend s).1.rates = s.rates := by
  have hdeleted := State.deletePendingReg_rates room src.string s
  have hevicted : (if cfg.maxRooms ≤ (s.deletePendingReg room src.string).totalRooms then
      (s.deletePendingReg room src.string).evictStaleRoomsAll cfg now
      else s.deletePendingReg room src.string).rates = s.rates := by
    split
    · exact (State.evictStaleRoomsAll_rates _).trans hdeleted
    · exact hdeleted
  unfold completePending
  dsimp only
  split
  · rfl
  split
  · exact hdeleted
  split
  · exact createRoom_rates.trans hevicted
  · exact joinRoom_rates.trans hevicted

theorem admitInRoom_rates {entry : RoomEntry} {b : Bytes} :
    (admitInRoom cfg now room b src entry s).1.rates = s.rates := by
  unfold admitInRoom
  dsimp only
  split
  · rfl
  · split_ifs <;> rfl

theorem regInRoom_rates {entry : RoomEntry} : (regInRoom cfg now rnd room src entry s).1.rates = s.rates := by
  unfold regInRoom
  dsimp only
  split
  · rfl
  split
  · rfl
  split
  · rfl
  split
  · rfl
  split
  · rfl
  split
  · rfl
  split
  · rfl
  · rfl

/-- Behind the rate limit, `handleReg` leaves its maps alone. -/
theorem handleRegUnlimited_rates : (handleRegUnlimited cfg now rnd room cookie src s).1.rates = s.rates := by
  unfold handleRegUnlimited
  split
  · split
    · rfl
    split
    · rfl
    split
    · exact completePending_rates
    split
    · exact challengeNewRoom_rates
    · exact admitInRoom_rates
  · split
    · exact challengeNewRoom_rates
    · exact regInRoom_rates

theorem handleReg_rates : (handleReg cfg now rnd room cookie src s).1.rates =
    (s.isRegRateLimited cfg now (ipKey src.string)).2.rates := by
  unfold handleReg
  generalize s.isRegRateLimited cfg now (ipKey src.string) = limit
  obtain ⟨limited, s₀⟩ := limit
  cases limited with
  | true => rfl
  | false => exact handleRegUnlimited_rates

theorem forwardMsg_rates {phase body : Bytes} :
    (forwardMsg cfg now room phase body src s).1.rates = s.rates := by
  unfold forwardMsg
  dsimp only
  split
  · rfl
  split
  · rfl
  split
  · rfl
  · rfl

variable (cfg now s) in
/-- A `REG` is a call of the limiter and the rate-map tick is its sweep; nothing else touches it. -/
theorem step_rates (e : Event) :
    (∃ data src rnd room cookie, e = .packet data src rnd ∧ parseReg data = some (room, cookie) ∧
      (step cfg now s e).1.rates = (s.isRegRateLimited cfg now (ipKey src.string)).2.rates) ∨
    (e = .rateTick ∧ (step cfg now s e).1 = s.cleanupRateMaps cfg now) ∨
    (step cfg now s e).1.rates = s.rates := by
  cases e with
  | packet data src rnd =>
      rcases handlePacket_cases data with ⟨room, cookie, hparse, heq⟩ | ⟨room, phase, body, _, heq⟩ | ⟨why, heq⟩
      · refine Or.inl ⟨data, src, rnd, room, cookie, rfl, hparse, ?_⟩
        rw [step, heq]
        exact handleReg_rates
      · refine Or.inr (Or.inr ?_)
        rw [step, heq]
        exact forwardMsg_rates
      · refine Or.inr (Or.inr ?_)
        rw [step, heq]
  | rateTick => exact Or.inr (Or.inl ⟨rfl, rfl⟩)
  | roomTick => exact Or.inr (Or.inr (State.cleanupRooms_rates s))

theorem step_regMaps (h : s.RegMaps) (now : Int) (e : Event) : (step cfg now s e).1.RegMaps := by
  rcases step_rates cfg now s e with ⟨_, src, _, _, _, _, _, hrates⟩ | ⟨_, hswept⟩ | hrates
  · exact h.call.of_rates hrates
  · rw [hswept]
    exact h.sweep
  · exact h.of_rates hrates

theorem regMaps_of_run {ok : State → Int → Event → Prop} {log : List (LogEntry Event Out)}
    (hrun : (machine cfg).Run ok log s) : s.RegMaps :=
  hrun.invariant State.RegMaps.empty fun _ now e h _ => step_regMaps h now e

/-! ### The answer to a `REG` -/

/-- A `REG` is answered by one line at most, an acknowledgement or a challenge, to its source. -/
theorem RegOutcome.answer {outs : List Out} (h : RegOutcome cfg now rnd room cookie src s s' outs) :
    (∀ msg addr, Out.write msg addr ∉ outs) ∨
      ∃ msg, outs = [.write msg src] ∧ (msg = regdOK room src ∨ ∃ cb, msg = regdChallenge room cb) := by
  cases h with
  | dropped _ hsilent => exact Or.inl hsilent
  | created | joined | admitted | refreshed => exact Or.inr ⟨_, rfl, Or.inl rfl⟩
  | challengedStore | renewed | challengedRoom => exact Or.inr ⟨_, rfl, Or.inr ⟨_, rfl⟩⟩

/-- A `REGD` line to an address of the prefix. -/
def Out.isRegdTo (k : Bytes) : Out → Bool
  | .write msg addr => (ascii "REGD ").isPrefixOf msg && ipKey addr.string = k
  | _ => false

theorem isRegdTo_msgdLine (k phase body : Bytes) (addr : UDPAddr) :
    Out.isRegdTo k (.write (msgdLine phase body) addr) = false := by
  simp [Out.isRegdTo, msgdLine, ascii]

theorem not_isRegdTo_of_silent {outs : List Out} (h : ∀ msg addr, Out.write msg addr ∉ outs) (k : Bytes) :
    ∀ o ∈ outs, ¬ Out.isRegdTo k o = true := by
  intro o ho hregd
  cases o with
  | write msg addr => exact h msg addr ho
  | drop why => cases hregd
  | randFailed => cases hregd

variable (cfg now s) in
/-- What the relay sends to a prefix as a `REGD` line is the answer to a `REG` of the prefix that was within
the limit, and there is one of it. -/
theorem step_regdTo (e : Event) (k : Bytes) :
    (∀ o ∈ (step cfg now s e).2, ¬ o.isRegdTo k = true) ∨
    ((step cfg now s e).2.length = 1 ∧ (s.isRegRateLimited cfg now k).1 = false ∧
      (step cfg now s e).1.rates = (s.isRegRateLimited cfg now k).2.rates) := by
  rcases step_cases cfg now s e with ⟨data, src, rnd, room, cookie, he, hparse, hlimit, houtcome⟩ |
    ⟨data, src, rnd, room, phase, body, _, _, houtcome⟩ | ⟨_, hsilent⟩
  · rcases houtcome.answer with hsilent | ⟨msg, houts, _⟩
    · exact Or.inl (not_isRegdTo_of_silent hsilent k)
    by_cases hk : ipKey src.string = k
    · subst hk
      refine Or.inr ⟨by rw [houts]; rfl, hlimit, ?_⟩
      rw [he, step, handlePacket_of_parseReg hparse]
      exact handleReg_rates
    · refine Or.inl fun o ho hregd => ?_
      rw [houts, List.mem_singleton] at ho
      subst ho
      simp [Out.isRegdTo, hk] at hregd
  · refine Or.inl ?_
    generalize step cfg now s e = result at houtcome
    obtain ⟨s', outs⟩ := result
    cases houtcome with
    | ignored why =>
        intro o ho hregd
        rw [List.mem_singleton.mp ho] at hregd
        cases hregd
    | counted r _ _ hwrites =>
        intro o ho hregd
        cases o with
        | write msg addr =>
            rw [(hwrites msg addr ho).1, isRegdTo_msgdLine] at hregd
            cases hregd
        | drop why => cases hregd
        | randFailed => cases hregd
  · exact Or.inl (not_isRegdTo_of_silent hsilent k)

/-- The entry has a `REGD` line to the prefix. -/
def answers (k : Bytes) (x : LogEntry Event Out) : Bool := x.outs.any (Out.isRegdTo k)

theorem step_regWindow (k : Bytes) (s : State) (now : Int) (e : Event) : ∃ granted,
    (answers k ⟨now, e, (step cfg now s e).2⟩ = true → granted = true) ∧
      Window.Moves cfg.maxRegRate cfg.regGap now granted (s.regWindow k)
        ((step cfg now s e).1.regWindow k) := by
  have hcall (e : RegEvent) : Window.Moves cfg.maxRegRate cfg.regGap now
      (admitted k ⟨now, e, ((regLimiter cfg).step s now e).2⟩) (s.regWindow k)
      (((regLimiter cfg).step s now e).1.regWindow k) := regLimiter_moves k s now e
  rcases step_regdTo cfg now s e k with hnone | ⟨_, hlimit, hrates⟩
  · have hno : answers k ⟨now, e, (step cfg now s e).2⟩ = true → False := by
      intro hany
      obtain ⟨o, ho, hregd⟩ := List.any_eq_true.mp hany
      exact hnone o ho hregd
    rcases step_rates cfg now s e with ⟨_, src, _, _, _, _, _, hrates⟩ | ⟨_, hswept⟩ | hrates
    · rw [State.regWindow_of_rates hrates]
      exact ⟨_, fun h => (hno h).elim, hcall (.call (ipKey src.string))⟩
    · rw [hswept]
      exact ⟨_, fun h => (hno h).elim, hcall .sweep⟩
    · rw [State.regWindow_of_rates hrates]
      exact ⟨false, fun h => (hno h).elim, .keep _⟩
  · rw [State.regWindow_of_rates hrates]
    refine ⟨_, fun _ => ?_, hcall (.call k)⟩
    simp [admitted, regLimiter, hlimit]

/-- The `REGD` lines to the prefix in an interval are no more than the entries that have one. -/
theorem countP_answers_le {ok : State → Int → Event → Prop} {log : List (LogEntry Event Out)}
    (hrun : (machine cfg).Run ok log s) (k : Bytes) (a b : Int) :
    ((log.filter fun x => decide (a ≤ x.time ∧ x.time ≤ b)).flatMap fun x => x.outs).countP (Out.isRegdTo k) ≤
      log.countP (Window.grantIn (answers k) a b) := by
  induction hrun with
  | init => exact Nat.le_refl _
  | @step log s now e _ _ _ ih =>
      rw [List.countP_cons, List.filter_cons]
      by_cases hin : a ≤ now ∧ now ≤ b
      · have hgrant : Window.grantIn (answers k) a b ⟨now, e, ((machine cfg).step s now e).2⟩ =
            answers k ⟨now, e, ((machine cfg).step s now e).2⟩ := by
          rw [Window.grantIn, decide_eq_true hin, Bool.and_true]
        rw [if_pos (decide_eq_true hin), List.flatMap_cons, List.countP_append, Nat.add_comm, hgrant]
        refine Nat.add_le_add ih ?_
        split
        · rename_i hany
          rcases step_regdTo cfg now s e k with hnone | ⟨hone, _⟩
          · obtain ⟨o, ho, hregd⟩ := List.any_eq_true.mp hany
            exact absurd hregd (hnone o ho)
          · exact List.countP_le_length.trans_eq hone
        · rename_i hany
          refine Nat.le_of_eq (List.countP_eq_zero.mpr fun o ho hregd => hany ?_)
          exact List.any_eq_true.mpr ⟨o, ho, hregd⟩
      · rw [if_neg fun h => hin (of_decide_eq_true h)]
        exact ih.trans (Nat.le_add_right _ _)

/-- In every run and for every prefix, no interval of one window sees more than twice the `REG` rate of
`REGD` lines to addresses of the prefix, whoever sent the `REG`s they answer. -/
theorem regd_lines_bounded (cfg : Config) {log : List (LogEntry Event Out)} {s : State}
    (hrun : (machine cfg).Run (fun _ _ _ => True) log s) (k : Bytes) (a : Int) :
    ((log.filter fun x => decide (a ≤ x.time ∧ x.time ≤ a + cfg.rateWindow)).flatMap fun x => x.outs).countP
      (Out.isRegdTo k) ≤ 2 * cfg.maxRegRate := by
  refine (countP_answers_le hrun k a _).trans ?_
  refine Window.run_bound_of_granted hrun (State.regWindow k) (answers k)
    (fun s now e _ => step_regWindow k s now e) ?_
  rw [Config.regGap]
  omega

/-- Two ports of one host register one after the other and get four lines within the first second. -/
theorem regd_lines_of_two_ports : ∃ log s, (machine .default).Run (fun _ _ _ => True) log s ∧
    ((log.filter fun x => decide (0 ≤ x.time ∧ x.time ≤ 0 + Config.default.rateWindow)).flatMap fun x =>
      x.outs).countP (Out.isRegdTo (ascii "127.0.0.1")) = 4 ∧
    ((log.filter fun x => decide (0 ≤ x.time ∧ x.time ≤ 0 + Config.default.rateWindow)).flatMap fun x =>
      x.outs).countP (Out.isRegdTo (ascii "127.0.0.1")) ≤ 2 * Config.default.maxRegRate := by
  have hrun := Machine.Run.init.execLog
    (show (machine .default).Admissible (fun _ _ _ => True) none .empty (hostJoins [2]) by decide +kernel)
  exact ⟨_, _, hrun, by decide +kernel, regd_lines_bounded .default hrun (ascii "127.0.0.1") 0⟩

/-! ### The size of an answer -/

/-- The datagram of an output. -/
def Out.datagram : Out → Option (Bytes × UDPAddr)
  | .write msg addr => some (msg, addr)
  | _ => none

theorem filterMap_datagram_of_silent {outs : List Out} (h : ∀ msg addr, Out.write msg addr ∉ outs) :
    outs.filterMap Out.datagram = [] := by
  apply List.filterMap_eq_nil_iff.mpr
  intro out hout
  cases out with
  | write msg addr => exact absurd hout (h msg addr)
  | drop => rfl
  | randFailed => rfl

theorem regFields_fst (rest : Bytes) : (regFields rest).1 = (cut 32 (trimSpace rest)).1 := by
  rw [regFields, splitN]
  cases hcut : cut 32 (trimSpace rest) with
  | mk a b =>
      cases b with
      | none => rfl
      | some b => rfl

/-- The room stands in the datagram behind the command. -/
theorem length_room_of_parseReg (h : parseReg data = some (room, cookie)) : room.length + 4 ≤ data.length := by
  unfold parseReg at h
  dsimp only at h
  split at h
  · rename_i hok
    have hroom : room = (cut 32 (trimSpace ((trimSpace data).drop cmdPrefixLen))).1 := by
      rw [← regFields_fst, Option.some.inj h]
    have hcommand : 4 ≤ (trimSpace data).length := by
      have hlen := congrArg List.length hok.2.2.1
      rw [List.length_take] at hlen
      have hfour : (ascii "REG ").length = 4 := rfl
      omega
    have hcut := length_cut_le 32 (trimSpace ((trimSpace data).drop cmdPrefixLen))
    have hrest := length_trimSpace_le ((trimSpace data).drop cmdPrefixLen)
    have hdata := length_trimSpace_le data
    have hfour : cmdPrefixLen = 4 := rfl
    rw [List.length_drop] at hrest
    rw [hroom]
    omega
  · cases h

theorem length_regdOK (room : Bytes) (src : UDPAddr) :
    (regdOK room src).length = room.length + 10 + src.string.length := by
  simp only [regdOK, List.length_append, List.length_singleton]
  rw [show (ascii "REGD ").length = 5 from rfl, show (ascii " OK ").length = 4 from rfl]
  omega

theorem length_regdChallenge (room : Bytes) (cb : Cookie) :
    (regdChallenge room cb).length = room.length + 39 := by
  simp only [regdChallenge, List.length_append, List.length_singleton, length_hexEncode, cb.property,
    pendingCookieBytes]
  rw [show (ascii "REGD ").length = 5 from rfl]
  omega

/-- What is sent on is no longer than what came in: the room name made up for the longer command. -/
theorem IsMsg.length_msgdLine {phase body : Bytes} (h : IsMsg data room phase body) :
    (msgdLine phase body).length ≤ data.length := by
  have hline := congrArg List.length h.line
  have hdata := length_trimSpace_le data
  have hroom := List.length_pos_iff.mpr (validRoomName_iff.mp h.room).1
  simp only [msgdLine, List.length_append, List.length_singleton] at hline ⊢
  rw [show (ascii "MSG ").length = 4 from rfl] at hline
  rw [show (ascii "MSGD ").length = 5 from rfl]
  omega

theorem length_forwardMsg_lt {phase body : Bytes} {entry : RoomEntry}
    (hroom : s.rooms.lookup room = some entry) (hsrc : src.string ∈ entry.udpClients) :
    ((forwardMsg cfg now room phase body src s).2.filterMap Out.datagram).length < entry.udpClients.size := by
  have hpos : 0 < entry.udpClients.size := List.length_pos_iff_exists_mem.mpr ⟨_, AList.mem_keys.mp hsrc⟩
  obtain ⟨u, hu⟩ := GoMap.lookup_of_mem hsrc
  simp only [forwardMsg, hroom, hu]
  split
  · exact hpos
  · refine (List.length_filterMap_le _ _).trans_lt ?_
    rw [List.length_map, GoMap.size, AList.keys, List.keys, List.length_map]
    refine List.length_filter_lt_length_iff_exists.mpr ⟨⟨src.string, u⟩, AList.mem_lookup_iff.mp hu, ?_⟩
    simp

/-- One datagram at most is sent, to the source of the datagram that came in, and barely longer than that. -/
def Echo (data : Bytes) (src : UDPAddr) (outs : List Out) : Prop :=
  (outs.filterMap Out.datagram).length ≤ 1 ∧ ∀ msg addr, Out.write msg addr ∈ outs →
    addr = src ∧ msg.length ≤ data.length + max 35 (6 + src.string.length)

/-- The source is a client of a room, and what is sent goes to the other clients, no longer than what came
in. -/
def Relayed (cfg : Config) (s : State) (data : Bytes) (src : UDPAddr) (outs : List Out) : Prop :=
  ∃ room entry, s.rooms.lookup room = some entry ∧ src.string ∈ entry.udpClients ∧
    (outs.filterMap Out.datagram).length < cfg.maxClientsHard ∧ ∀ msg addr, Out.write msg addr ∈ outs →
      msg.length ≤ data.length ∧
        ∃ k v, k ≠ src.string ∧ entry.udpClients.lookup k = some v ∧ addr = v.resolvedAddr

theorem Echo.of_silent {outs : List Out} (h : ∀ msg addr, Out.write msg addr ∉ outs) : Echo data src outs := by
  refine ⟨?_, fun msg addr hmem => absurd hmem (h msg addr)⟩
  rw [filterMap_datagram_of_silent h]
  exact Nat.zero_le _

theorem RegOutcome.echo {outs : List Out} (h : RegOutcome cfg now rnd room cookie src s s' outs)
    (hparse : parseReg data = some (room, cookie)) : Echo data src outs := by
  have hroom := length_room_of_parseReg hparse
  rcases h.answer with hsilent | ⟨msg, rfl, hmsg⟩
  · exact .of_silent hsilent
  refine ⟨Nat.le_refl 1, fun msg' addr hmem => ?_⟩
  cases List.mem_singleton.mp hmem
  refine ⟨rfl, ?_⟩
  rcases hmsg with rfl | ⟨cb, rfl⟩
  · rw [length_regdOK]
    omega
  · rw [length_regdChallenge]
    omega

theorem forwardMsg_relayed {phase body : Bytes} (hcapped : Capped cfg s) (hmsg : IsMsg data room phase body) :
    Echo data src (forwardMsg cfg now room phase body src s).2 ∨
      Relayed cfg s data src (forwardMsg cfg now room phase body src s).2 := by
  have houtcome : MsgOutcome room phase body src s (forwardMsg cfg now room phase body src s).1
      (forwardMsg cfg now room phase body src s).2 := forwardMsg_outcome
  have hcount : ∀ entry, s.rooms.lookup room = some entry → src.string ∈ entry.udpClients →
      ((forwardMsg cfg now room phase body src s).2.filterMap Out.datagram).length <
        entry.udpClients.size := fun entry hroom hsrc => length_forwardMsg_lt hroom hsrc
  generalize forwardMsg cfg now room phase body src s = result at houtcome hcount
  obtain ⟨s', outs⟩ := result
  cases houtcome with
  | ignored why => exact Or.inl (.of_silent (silent_drop why))
  | @counted entry u _ r hroom hu hwrites =>
      have hsrc := GoMap.mem_of_lookup hu
      refine Or.inr ⟨room, entry, hroom, hsrc, ?_, fun msg addr hmem => ?_⟩
      · exact (hcount entry hroom hsrc).trans_le (hcapped.clients room entry hroom)
      · obtain ⟨hline, htarget⟩ := hwrites msg addr hmem
        rw [hline]
        exact ⟨hmsg.length_msgdLine, htarget⟩

/-- In every state of every run, a datagram makes the relay send at most one datagram, to the source it
names and barely longer; or it is a message of an admitted client, and then what is sent goes to the other
clients of its room, once to each, and is no longer than the message. -/
theorem answers_bounded (cfg : Config) {log : List (LogEntry Event Out)} {s : State}
    (hrun : (machine cfg).Run (fun _ _ _ => True) log s) (now : Int) (data : Bytes) (src : UDPAddr)
    (rnd : Option Cookie) :
    Echo data src (step cfg now s (.packet data src rnd)).2 ∨
      Relayed cfg s data src (step cfg now s (.packet data src rnd)).2 := by
  rw [step]
  rcases handlePacket_cases data with ⟨room, cookie, hparse, heq⟩ | ⟨room, phase, body, hparse, heq⟩ |
    ⟨why, heq⟩
  · rw [heq]
    rcases handleReg_cases cfg now rnd room cookie src s with ⟨_, hlimited⟩ | ⟨_, houtcome⟩
    · rw [hlimited]
      exact Or.inl (.of_silent (silent_drop _))
    · exact Or.inl (houtcome.echo hparse)
  · rw [heq]
    exact forwardMsg_relayed (capped_of_run hrun) (parseMsg_iff.mp hparse)
  · rw [heq]
    exact Or.inl (.of_silent (silent_drop why))

/-- A message between two ports of one host. -/
theorem answers_bounded_between_ports : ∃ log s, (machine .default).Run (fun _ _ _ => True) log s ∧
    (step .default 3 s (.packet (ascii "MSG r spake2 00ff\n") ⟨[127, 0, 0, 1], 1, []⟩ none)).2 =
      [.write (ascii "MSGD spake2 00ff\n") ⟨[127, 0, 0, 1], 2, []⟩] ∧
    (Echo (ascii "MSG r spake2 00ff\n") ⟨[127, 0, 0, 1], 1, []⟩
        (step .default 3 s (.packet (ascii "MSG r spake2 00ff\n") ⟨[127, 0, 0, 1], 1, []⟩ none)).2 ∨
      Relayed .default s (ascii "MSG r spake2 00ff\n") ⟨[127, 0, 0, 1], 1, []⟩
        (step .default 3 s (.packet (ascii "MSG r spake2 00ff\n") ⟨[127, 0, 0, 1], 1, []⟩ none)).2) := by
  obtain ⟨log, hrun⟩ := Machine.Run.init.exec
    (show (machine .default).Admissible (fun _ _ _ => True) none .empty (hostJoins [2]) by decide +kernel)
  exact ⟨log, _, hrun, by decide +kernel, answers_bounded .default hrun 3 _ _ none⟩

end Qvole.Relay
