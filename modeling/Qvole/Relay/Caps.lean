import Qvole.Relay.Bookkeeping

/-!
# The caps over whole runs

Every cap is checked on a counter, and what it bounds is a table. Since the counters are exact, a check
that passes leaves space in the table, and each addition takes one place. Removals can only help: what
they lead to has fewer entries.
-/

namespace Qvole.Relay

open Lib

/-- In how many rooms the prefix has a client. -/
def State.roomsForIP (ip : Bytes) (s : State) : Nat :=
  s.rooms.total fun _ e => if e.holdsIP ip then 1 else 0

variable {cfg : Config} {now : Int} {room : Bytes} {src : UDPAddr} {s s₁ s' : State} {e : RoomEntry}
  {p : RoomEntry × Counters}

/-! ### Fewer entries -/

/-- `s'` has no room, client or pending registration that `s` does not have. -/
structure Fewer (s s' : State) : Prop where
  room : ∀ {R e'}, s'.rooms.lookup R = some e' → ∃ e, s.rooms.lookup R = some e ∧
    (∀ k, k ∈ e'.udpClients → k ∈ e.udpClients) ∧ ∀ k, k ∈ e'.pending → k ∈ e.pending
  store : ∀ key, key ∈ s'.pendingRegs → key ∈ s.pendingRegs

namespace Fewer

theorem refl (s : State) : Fewer s s :=
  ⟨fun h => ⟨_, h, fun _ => id, fun _ => id⟩, fun _ => id⟩

theorem trans (h : Fewer s s₁) (h' : Fewer s₁ s') : Fewer s s' where
  room hroom := by
    obtain ⟨e₁, he₁, hclients₁, hpending₁⟩ := h'.room hroom
    obtain ⟨e, he, hclients, hpending⟩ := h.room he₁
    exact ⟨e, he, fun k hk => hclients k (hclients₁ k hk), fun k hk => hpending k (hpending₁ k hk)⟩
  store key hkey := h.store key (h'.store key hkey)

theorem setRoom (hroom : s.rooms.lookup room = some e)
    (hclients : ∀ k, k ∈ p.1.udpClients → k ∈ e.udpClients)
    (hpending : ∀ k, k ∈ p.1.pending → k ∈ e.pending) : Fewer s (s.setRoom room p) where
  room {R e'} hR := by
    rw [State.setRoom, GoMap.lookup_insert_if] at hR
    split at hR
    · rename_i heq
      cases hR
      exact ⟨e, heq ▸ hroom, hclients, hpending⟩
    · exact (refl s).room hR
  store _ := id

theorem shrunk (h : Shrunk cfg now s s') : Fewer s s' where
  room hroom := by
    obtain ⟨e, he, hentry⟩ := h.room hroom
    refine ⟨e, he, fun k hk => hentry.mem_client hk, fun k hk => ?_⟩
    obtain ⟨pend, hpend⟩ := GoMap.lookup_of_mem hk
    exact GoMap.mem_of_lookup (hentry.pending hpend)
  store key hkey := by
    obtain ⟨pend, hpend⟩ := GoMap.lookup_of_mem hkey
    exact GoMap.mem_of_lookup (h.store hpend)

theorem removal (h : Removal now s s') : Fewer s s' := by
  cases h with
  | touch hroom next => exact setRoom hroom (fun _ => id) fun _ => id
  | client hroom hk => exact setRoom hroom (fun k hk => (AList.mem_erase.mp hk).2) fun _ => id
  | @pending room e hroom k =>
      obtain ⟨byIP, c, heq⟩ := RoomEntry.removePending_eq (e, s.counters) k
      rw [heq]
      exact setRoom hroom (fun _ => id) fun k' hk' => (AList.mem_erase.mp hk').2
  | room hroom _ =>
      refine ⟨fun {R e'} hR => (refl s).room ?_, fun _ => id⟩
      simp only [GoMap.lookup_erase_if] at hR
      split at hR
      · cases hR
      · exact hR
  | store room srcStr =>
      have hshrunk : Shrunk .default now s _ := State.deletePendingReg_shrunk room srcStr s
      exact shrunk hshrunk
  | shard n =>
      have hshrunk : Shrunk .default now s _ := State.removeStaleShard_shrunk s n
      exact shrunk hshrunk
  | rates => exact ⟨(refl s).room, fun _ => id⟩

theorem removals (h : Removals now s s') : Fewer s s' := by
  induction h with
  | refl => exact refl s
  | tail _ hremoval ih => exact ih.trans (removal hremoval)

theorem mem_rooms {R : Bytes} (h : Fewer s s') (hR : R ∈ s'.rooms) : R ∈ s.rooms := by
  obtain ⟨e', he'⟩ := GoMap.lookup_of_mem hR
  obtain ⟨e, he, _⟩ := h.room he'
  exact GoMap.mem_of_lookup he

theorem size_rooms (h : Fewer s s') : s'.rooms.size ≤ s.rooms.size :=
  GoMap.size_mono fun _ => h.mem_rooms

theorem held {ip R : Bytes} {e' : RoomEntry} (h : Fewer s s')
    (he' : s'.rooms.lookup R = some e') (hholds : e'.holdsIP ip = true) :
    ∃ e, s.rooms.lookup R = some e ∧ e.holdsIP ip = true := by
  obtain ⟨e, he, hclients, _⟩ := h.room he'
  obtain ⟨k, hk, hip⟩ := RoomEntry.holdsIP_iff.mp hholds
  exact ⟨e, he, RoomEntry.holdsIP_iff.mpr ⟨k, hclients k hk, hip⟩⟩

theorem roomsForIP_le (h : Fewer s s') (ip : Bytes) : s'.roomsForIP ip ≤ s.roomsForIP ip := by
  refine GoMap.total_mono fun R e' he' => ?_
  by_cases hholds : e'.holdsIP ip = true
  · obtain ⟨e, he, hold⟩ := h.held he' hholds
    exact ⟨e, he, by rw [if_pos hholds, if_pos hold]⟩
  · obtain ⟨e, he, _⟩ := h.room he'
    refine ⟨e, he, ?_⟩
    rw [if_neg hholds]
    exact Nat.zero_le _

theorem storedForIP_le (h : Fewer s s') (ip : Bytes) : s'.storedForIP ip ≤ s.storedForIP ip :=
  GoMap.count_mono _ h.store

theorem inRoomPending_le (h : Fewer s s') : s'.inRoomPending ≤ s.inRoomPending := by
  refine GoMap.total_mono fun R e' he' => ?_
  obtain ⟨e, he, _, hpending⟩ := h.room he'
  exact ⟨e, he, GoMap.size_mono hpending⟩

end Fewer

/-! ### The caps -/

structure Capped (cfg : Config) (s : State) : Prop where
  rooms : s.rooms.size ≤ cfg.maxRooms
  clients : ∀ room e, s.rooms.lookup room = some e → e.udpClients.size ≤ cfg.maxClientsHard
  ipRooms : ∀ ip, s.roomsForIP ip ≤ cfg.maxRoomsPerIP
  store : s.pendingRegs.size ≤ cfg.maxPendingGlobal
  storeIP : ∀ ip, s.storedForIP ip ≤ cfg.maxPendingPerIP
  pending : ∀ room e, s.rooms.lookup room = some e → e.pending.size ≤ cfg.maxPendingPerRoom
  inRoom : s.inRoomPending ≤ cfg.maxInRoomPending

theorem Capped.empty : Capped cfg .empty where
  rooms := Nat.zero_le _
  clients _ _ he := by cases he
  ipRooms _ := Nat.zero_le _
  store := Nat.zero_le _
  storeIP _ := Nat.zero_le _
  pending _ _ he := by cases he
  inRoom := Nat.zero_le _

theorem Capped.fewer (h : Capped cfg s) (hfewer : Fewer s s') : Capped cfg s' where
  rooms := hfewer.size_rooms.trans h.rooms
  clients room e' he' := by
    obtain ⟨e, he, hclients, _⟩ := hfewer.room he'
    exact (GoMap.size_mono hclients).trans (h.clients room e he)
  ipRooms ip := (hfewer.roomsForIP_le ip).trans (h.ipRooms ip)
  store := (GoMap.size_mono hfewer.store).trans h.store
  storeIP ip := (hfewer.storedForIP_le ip).trans (h.storeIP ip)
  pending room e' he' := by
    obtain ⟨e, he, _, hpending⟩ := hfewer.room he'
    exact (GoMap.size_mono hpending).trans (h.pending room e he)
  inRoom := hfewer.inRoomPending_le.trans h.inRoom

theorem Exact.countIPRooms_eq (h : Exact s) (ip : Bytes) :
    s.counters.countIPRooms ip = s.roomsForIP ip :=
  GoMap.card_eq_total (h.ipRooms ip)

/-- A room is put back: what is new in it has to find space. -/
theorem Capped.setRoom (h : Capped cfg s) (hroom : s.rooms.lookup room = some e)
    (hclients : p.1.udpClients.size ≤ cfg.maxClientsHard)
    (hip : ∀ ip, p.1.holdsIP ip = true → e.holdsIP ip = true ∨ s.roomsForIP ip < cfg.maxRoomsPerIP)
    (hpending : p.1.pending.size ≤ cfg.maxPendingPerRoom)
    (hinRoom : p.1.pending.size = e.pending.size ∨
      p.1.pending.size = e.pending.size + 1 ∧ s.inRoomPending < cfg.maxInRoomPending) :
    Capped cfg (s.setRoom room p) where
  rooms := by
    rw [State.setRoom, GoMap.size_insert_of_mem p.1 (GoMap.mem_of_lookup hroom)]
    exact h.rooms
  clients R e' he' := by
    rw [State.setRoom, GoMap.lookup_insert_if] at he'
    split at he'
    · cases he'
      exact hclients
    · exact h.clients R e' he'
  ipRooms ip := by
    have htotal := GoMap.total_insert_of_lookup
      (f := fun _ e => if RoomEntry.holdsIP ip e then 1 else 0) (v := p.1) hroom
    have hcap := h.ipRooms ip
    have hnew := hip ip
    simp only [State.roomsForIP, State.setRoom] at hcap hnew ⊢
    by_cases hholds : p.1.holdsIP ip = true
    · rcases hnew hholds with hold | hspace
      · rw [if_pos hholds, if_pos hold] at htotal
        omega
      · rw [if_pos hholds] at htotal
        omega
    · rw [if_neg hholds] at htotal
      omega
  store := h.store
  storeIP := h.storeIP
  pending R e' he' := by
    rw [State.setRoom, GoMap.lookup_insert_if] at he'
    split at he'
    · cases he'
      exact hpending
    · exact h.pending R e' he'
  inRoom := by
    have htotal := GoMap.total_insert_of_lookup (f := fun _ e => RoomEntry.pending e |>.size) (v := p.1)
      hroom
    have hcap := h.inRoom
    simp only [State.inRoomPending, State.setRoom] at hcap hinRoom ⊢
    omega

theorem Capped.create (h : Capped cfg s) (hexact : Exact s) (hnone : s.rooms.lookup room = none)
    (k : Bytes) (addr : UDPAddr) (c : Counters) (hrooms : s.totalRooms < cfg.maxRooms)
    (hip : s.counters.countIPRooms (ipKey k) < cfg.maxRoomsPerIP) :
    Capped cfg (s.setRoom room (firstEntry now k addr, c)) where
  rooms := by
    have hsize := GoMap.size_insert_of_notMem (firstEntry now k addr) (AList.lookup_eq_none.mp hnone)
    have hexactRooms := hexact.rooms
    simp only [State.setRoom, State.totalRooms] at hrooms ⊢
    omega
  clients R e' he' := by
    rw [State.setRoom, GoMap.lookup_insert_if] at he'
    split at he'
    · cases he'
      exact cfg.caps_pos cfg.maxClientsHard (by simp)
    · exact h.clients R e' he'
  ipRooms ip := by
    have hcap := h.ipRooms ip
    rw [hexact.countIPRooms_eq] at hip
    simp only [State.roomsForIP, State.setRoom] at hcap hip ⊢
    rw [GoMap.total_insert_of_notMem (AList.lookup_eq_none.mp hnone)]
    split
    · rename_i hholds
      have hkey : ipKey k = ip := by simpa [RoomEntry.holdsIP, firstEntry] using hholds
      subst hkey
      omega
    · omega
  store := h.store
  storeIP := h.storeIP
  pending R e' he' := by
    rw [State.setRoom, GoMap.lookup_insert_if] at he'
    split at he'
    · cases he'
      exact Nat.zero_le _
    · exact h.pending R e' he'
  inRoom := by
    have hcap := h.inRoom
    simp only [State.inRoomPending, State.setRoom] at hcap ⊢
    rw [GoMap.total_insert_of_notMem (AList.lookup_eq_none.mp hnone)]
    exact (Nat.zero_add _).trans_le hcap

theorem Capped.letIn (h : Capped cfg s) (hexact : Exact s) (hroom : s.rooms.lookup room = some e)
    (k : Bytes) (addr : UDPAddr) (c : Counters)
    (hhard : k ∈ e.udpClients ∨ e.udpClients.size < cfg.maxClientsHard)
    (hip : e.holdsIP (ipKey k) = true ∨ s.counters.countIPRooms (ipKey k) < cfg.maxRoomsPerIP) :
    Capped cfg (s.setRoom room (e.letIn now k addr, c)) := by
  refine h.setRoom hroom ?_ (fun ip hholds => ?_) (h.pending room e hroom) (Or.inl rfl)
  · have hclients := h.clients room e hroom
    by_cases hk : k ∈ e.udpClients
    · exact (GoMap.size_insert_of_mem _ hk).trans_le hclients
    · exact (GoMap.size_insert_of_notMem _ hk).trans_le (hhard.resolve_left hk)
  · rcases (holdsIP_insert e k ip (newClient now addr)).mp hholds with heq | hold
    · rw [heq, ← hexact.countIPRooms_eq]
      exact hip
    · exact Or.inl hold

theorem Capped.update (h : Capped cfg s) (hroom : s.rooms.lookup room = some e) {k : Bytes}
    (hk : k ∈ e.udpClients) (u : UdpClient) (c : Counters) :
    Capped cfg (s.setRoom room ({ e with udpClients := e.udpClients.insert k u }, c)) := by
  refine h.setRoom hroom ?_ (fun ip hholds => ?_) (h.pending room e hroom) (Or.inl rfl)
  · exact (GoMap.size_insert_of_mem u hk).trans_le (h.clients room e hroom)
  · rcases (holdsIP_insert e k ip u).mp hholds with heq | hold
    · exact Or.inl (RoomEntry.holdsIP_iff.mpr ⟨k, hk, heq.symm⟩)
    · exact Or.inl hold

theorem Capped.store_new (h : Capped cfg s) (hexact : Exact s) {k : Bytes}
    (hnew : (room, k) ∉ s.pendingRegs) (pend : PendingReg) (c : Counters)
    (hbudget : s.counters.globalPendingBudgetReached cfg = false)
    (hip : s.counters.countPendingForIP (ipKey k) < cfg.maxPendingPerIP) :
    Capped cfg { s with pendingRegs := s.pendingRegs.insert (room, k) pend, counters := c } where
  rooms := h.rooms
  clients := h.clients
  ipRooms := h.ipRooms
  store := by
    have hsize := GoMap.size_insert_of_notMem pend hnew
    have htotal := hexact.store
    simp only [Counters.globalPendingBudgetReached, decide_eq_false_iff_not] at hbudget
    dsimp only
    omega
  storeIP ip := by
    have hcount := GoMap.count_insert_of_notMem (fun key => ipKey key.2 = ip) pend hnew
    have hcap := h.storeIP ip
    have hexactIP := hexact.storeIP (ipKey k)
    simp only [State.storedForIP] at hcap hexactIP ⊢
    rw [hcount]
    by_cases heq : ipKey k = ip
    · subst heq
      simp only [decide_true, if_true]
      omega
    · simpa [heq] using hcap
  pending := h.pending
  inRoom := h.inRoom

theorem Capped.restore (h : Capped cfg s) {key : Bytes × Bytes} (hkey : key ∈ s.pendingRegs)
    (pend : PendingReg) : Capped cfg { s with pendingRegs := s.pendingRegs.insert key pend } where
  rooms := h.rooms
  clients := h.clients
  ipRooms := h.ipRooms
  store := (GoMap.size_insert_of_mem pend hkey).trans_le h.store
  storeIP ip := (GoMap.count_insert_of_mem _ pend hkey).trans_le (h.storeIP ip)
  pending := h.pending
  inRoom := h.inRoom

theorem Capped.pend_new (h : Capped cfg s) (hexact : Exact s) (hroom : s.rooms.lookup room = some e)
    {k : Bytes} (hnew : k ∉ e.pending) (pend : PendingReg) (byIP : GoMap Bytes Int) (c : Counters)
    (hspace : e.pending.size < cfg.maxPendingPerRoom)
    (hbudget : s.counters.inRoomPendingBudgetReached cfg = false) :
    Capped cfg (s.setRoom room
      ({ e with pending := e.pending.insert k pend, pendingByIP := byIP }, c)) := by
  have hsize := GoMap.size_insert_of_notMem pend hnew
  refine h.setRoom hroom (h.clients room e hroom) (fun _ => Or.inl) (hsize.trans_le hspace)
    (Or.inr ⟨hsize, ?_⟩)
  have htotal := hexact.inRoom
  simp only [Counters.inRoomPendingBudgetReached, decide_eq_false_iff_not] at hbudget
  omega

theorem Capped.addition {rnd : Option Cookie} {cookie : Bytes} (h : Capped cfg s₁) (hexact : Exact s₁)
    (haddition : Addition cfg now rnd s room cookie src s₁ s') : Capped cfg s' := by
  cases haddition with
  | create addr hnone hrooms hip => exact h.create hexact hnone _ addr _ hrooms hip
  | letIn addr he hhard hip => exact h.letIn hexact he _ addr _ hhard hip
  | update u' he hu => exact h.update he (GoMap.mem_of_lookup hu) u' _
  | store p _ hstore hcounters hchecks =>
      obtain ⟨_, _, _, hip, _, hnew, hbudget⟩ := hchecks
      rw [← hstore] at hnew
      rw [← hcounters] at hbudget hip
      exact h.store_new hexact hnew p _ hbudget hip
  | restore p hold => exact h.restore hold p
  | pend p _ _ hrooms _ hcounters hchecks =>
      subst hcounters
      refine h.pend_new hexact ?_ hchecks.new p _ _ hchecks.space hchecks.budget
      rw [hrooms, AList.lookup_insert]
  | repend p he hold =>
      have hclients := h.clients _ _ he
      have hsize := GoMap.size_insert_of_mem p hold
      exact h.setRoom he hclients (fun _ => Or.inl) (hsize.trans_le (h.pending _ _ he)) (Or.inl hsize)

theorem step_capped (h : Capped cfg s) (hexact : Exact s) (now : Int) (e : Event) :
    Capped cfg (step cfg now s e).1 := by
  rcases step_moves cfg now s e with hremovals | ⟨_, _, _, _, _, _, _, _, s₁, hremovals, hsame | haddition⟩ |
    ⟨room, k, entry, u, u', hroom, hu, heq⟩
  · exact h.fewer (.removals hremovals)
  · rw [hsame]
    exact h.fewer (.removals hremovals)
  · exact (h.fewer (.removals hremovals)).addition (hexact.removals hremovals) haddition
  · rw [heq]
    exact h.update hroom (GoMap.mem_of_lookup hu) u' _

theorem capped_of_run {log : List (LogEntry Event Out)}
    (hrun : (machine cfg).Run (fun _ _ _ => True) log s) : Capped cfg s := by
  have h : Exact s ∧ Capped cfg s := hrun.invariant (I := fun s => Exact s ∧ Capped cfg s)
    ⟨.empty, .empty⟩ fun s now e h _ => ⟨step_exact h.1 now e, step_capped h.2 h.1 now e⟩
  exact h.2

/-- In every state of every run and for all caps, which are positive: rooms, clients of a room, rooms of a
prefix, pending registrations of the store, all and by prefix, those of a room and those of all rooms. -/
theorem caps_of_run (cfg : Config) {log : List (LogEntry Event Out)} {s : State}
    (hrun : (machine cfg).Run (fun _ _ _ => True) log s) :
    s.rooms.size ≤ cfg.maxRooms ∧
    (∀ room e, s.rooms.lookup room = some e → e.udpClients.size ≤ cfg.maxClientsHard) ∧
    (∀ ip, s.roomsForIP ip ≤ cfg.maxRoomsPerIP) ∧
    s.pendingRegs.size ≤ cfg.maxPendingGlobal ∧
    (∀ ip, s.storedForIP ip ≤ cfg.maxPendingPerIP) ∧
    (∀ room e, s.rooms.lookup room = some e → e.pending.size ≤ cfg.maxPendingPerRoom) ∧
    s.inRoomPending ≤ cfg.maxInRoomPending := by
  have h := capped_of_run hrun
  exact ⟨h.rooms, h.clients, h.ipRooms, h.store, h.storeIP, h.pending, h.inRoom⟩

/-- A relay for a single room with two clients, both of them in use. -/
theorem caps_of_two_ports : ∃ log s, (machine { maxRooms := 1, maxClientsHard := 2 }).Run
      (fun _ _ _ => True) log s ∧ s.rooms.size = 1 ∧ s.rooms.size ≤ 1 ∧
    (∀ room e, s.rooms.lookup room = some e → e.udpClients.size ≤ 2) ∧
    s.roomsForIP (ascii "127.0.0.1") = 1 := by
  obtain ⟨log, hrun⟩ := Machine.Run.init.exec
    (show (machine { maxRooms := 1, maxClientsHard := 2 }).Admissible (fun _ _ _ => True) none .empty
      (hostJoins [2, 3]) by decide +kernel)
  obtain ⟨hrooms, hclients, _⟩ := caps_of_run { maxRooms := 1, maxClientsHard := 2 } hrun
  exact ⟨log, _, hrun, by decide +kernel, hrooms, hclients, by decide +kernel⟩

end Qvole.Relay
