import Qvole.Relay.Rates

/-!
# How much the relay keeps

The caps bound rooms, clients and pending registrations. The relay keeps more than these: the index from
prefixes to rooms, the counts of pending registrations by prefix, and the rate-limit maps. Each of the
indexes drops a key together with its last entry, so it has no more keys than the table it mirrors has
entries, and all of it is bounded by the configuration.
-/

namespace Qvole.Relay

open Lib

variable {cfg : Config} {now : Int} {room : Bytes} {src : UDPAddr} {s s₁ s' : State} {e : RoomEntry}
  {p : RoomEntry × Counters}

/-! ### No count is kept at zero -/

/-- A map of counts without a key whose count is zero. -/
def PositiveMap (m : GoMap Bytes Int) : Prop := ∀ k n, m.lookup k = some n → 0 < n

namespace PositiveMap

variable {m : GoMap Bytes Int} {k : Bytes} {n : Int}

theorem empty : PositiveMap ∅ := by
  intro k n hk
  cases hk

theorem insert (h : PositiveMap m) (hn : 0 < n) : PositiveMap (m.insert k n) := by
  intro k' n' hk'
  rw [GoMap.lookup_insert_if] at hk'
  split at hk'
  · cases hk'
    exact hn
  · exact h k' n' hk'

theorem erase (h : PositiveMap m) : PositiveMap (m.erase k) := by
  intro k' n' hk'
  rw [GoMap.lookup_erase_if] at hk'
  split at hk'
  · cases hk'
  · exact h k' n' hk'

theorem count_nonneg (h : PositiveMap m) : 0 ≤ (m.lookup k).getD 0 := by
  cases hk : m.lookup k with
  | none => exact Int.le_refl 0
  | some n => exact Int.le_of_lt (h k n hk)

/-- A key is kept only while it counts something. -/
theorem size_le {κ α : Type} [DecidableEq κ] {t : GoMap κ α} {f : κ → Bytes} (h : PositiveMap m)
    (hcount : ∀ k, (m.lookup k).getD 0 = t.count fun key => f key = k) : m.size ≤ t.size := by
  have hsub : m.keys ⊆ t.keys.map f := by
    intro k hk
    obtain ⟨n, hn⟩ := GoMap.lookup_of_mem (AList.mem_keys.mpr hk)
    have hpos := h k n hn
    have hsame := hcount k
    rw [hn, Option.getD_some] at hsame
    have hfound : 0 < t.keys.countP fun key => f key = k := by
      rw [GoMap.count] at hsame
      omega
    obtain ⟨key, hkey, heq⟩ := List.countP_pos_iff.mp hfound
    exact List.mem_map.mpr ⟨key, hkey, of_decide_eq_true heq⟩
  rw [GoMap.size, GoMap.size, ← List.length_map (f := f)]
  exact (List.Nodup.subperm m.keys_nodup hsub).length_le

end PositiveMap

/-- No prefix is kept without a pending registration, in the store or in a room. -/
structure Positive (s : State) : Prop where
  store : PositiveMap s.counters.pendingIPCounts
  rooms : ∀ R e, s.rooms.lookup R = some e → PositiveMap e.pendingByIP

namespace Positive

theorem empty : Positive .empty where
  store := .empty
  rooms R e he := by cases he

theorem setRoom (h : Positive s) (hstore : PositiveMap p.2.pendingIPCounts)
    (hroom : PositiveMap p.1.pendingByIP) : Positive (s.setRoom room p) where
  store := hstore
  rooms R e he := by
    rw [State.setRoom, GoMap.lookup_insert_if] at he
    split at he
    · cases he
      exact hroom
    · exact h.rooms R e he

/-- A change of a room that leaves its counts alone. -/
theorem keep (h : Positive s) (hroom : s.rooms.lookup room = some e)
    (hstore : PositiveMap p.2.pendingIPCounts) (hsame : p.1.pendingByIP = e.pendingByIP) :
    Positive (s.setRoom room p) := by
  refine h.setRoom hstore ?_
  rw [hsame]
  exact h.rooms room e hroom

theorem addPendingIP {c : Counters} (h : PositiveMap c.pendingIPCounts) (ip : Bytes) (d : Int) :
    PositiveMap (c.addPendingIP ip d).pendingIPCounts := by
  unfold Counters.addPendingIP
  dsimp only
  split
  · rename_i hpos
    exact h.insert hpos
  · exact h.erase

theorem removePending {c : Counters} (hroom : PositiveMap e.pendingByIP) (hstore : PositiveMap c.pendingIPCounts)
    (k : Bytes) : PositiveMap (RoomEntry.removePending (e, c) k).1.pendingByIP ∧
      PositiveMap (RoomEntry.removePending (e, c) k).2.pendingIPCounts := by
  unfold RoomEntry.removePending
  split
  · refine ⟨?_, hstore⟩
    dsimp only
    split
    · exact hroom.erase
    · exact hroom.insert (by omega)
  · exact ⟨hroom, hstore⟩

theorem removal (h : Positive s) (hremoval : Removal now s s') : Positive s' := by
  cases hremoval with
  | touch hroom next => exact h.keep hroom h.store rfl
  | @client room k e hroom hk =>
      refine h.keep hroom ?_ rfl
      dsimp only
      split
      · exact h.store
      · obtain ⟨m, heq⟩ := Counters.removeIPRoom_eq (ipKey k) room s.counters
        rw [heq]
        exact h.store
  | pending hroom k =>
      obtain ⟨hentry, hstore⟩ := removePending (h.rooms _ _ hroom) h.store k
      exact h.setRoom hstore hentry
  | @room room e hroom hempty =>
      refine ⟨?_, fun R e' he' => ?_⟩
      · simp only [RoomEntry.removeAllPending, Counters.addRooms]
        split
        · exact h.store
        · exact h.store
      · simp only [GoMap.lookup_erase_if] at he'
        split at he'
        · cases he'
        · exact h.rooms R e' he'
  | store room srcStr =>
      unfold State.deletePendingReg
      split
      · exact ⟨addPendingIP h.store _ _, h.rooms⟩
      · exact h
  | shard n =>
      refine ⟨?_, h.rooms⟩
      exact List.foldlRecOn _ _ (motive := fun c : Counters => PositiveMap c.pendingIPCounts) h.store
        fun c hc x _ => addPendingIP hc _ _
  | rates => exact ⟨h.store, h.rooms⟩

theorem removals (h : Positive s) (hremovals : Removals now s s') : Positive s' := by
  induction hremovals with
  | refl => exact h
  | tail _ hremoval ih => exact ih.removal hremoval

theorem addition {rnd : Option Cookie} {cookie : Bytes} (h : Positive s₁)
    (haddition : Addition cfg now rnd s room cookie src s₁ s') : Positive s' := by
  cases haddition with
  | create => exact h.setRoom h.store .empty
  | @letIn e addr he =>
      refine h.keep he ?_ rfl
      dsimp only
      split
      · exact h.store
      · exact h.store
  | update u' he => exact h.keep he h.store rfl
  | store => exact ⟨addPendingIP h.store _ _, h.rooms⟩
  | restore => exact ⟨h.store, h.rooms⟩
  | pend p _ _ hrooms _ hcounters =>
      subst hcounters
      have hentry := h.rooms room _ (by rw [hrooms, AList.lookup_insert])
      refine h.setRoom h.store (hentry.insert ?_)
      have hnonneg : 0 ≤ RoomEntry.pendingCountForIP (ipKey src.string) _ := hentry.count_nonneg
      omega
  | repend p he => exact h.keep he h.store rfl

theorem step (h : Positive s) (now : Int) (e : Event) : Positive (step cfg now s e).1 := by
  rcases step_moves cfg now s e with hremovals | ⟨_, _, _, _, _, _, _, _, s₁, hremovals, hsame | haddition⟩ |
    ⟨room, k, entry, u, u', hroom, _, heq⟩
  · exact h.removals hremovals
  · rw [hsame]
    exact h.removals hremovals
  · exact (h.removals hremovals).addition haddition
  · rw [heq]
    exact h.keep hroom h.store rfl

end Positive

theorem positive_of_run {ok : State → Int → Event → Prop} {log : List (LogEntry Event Out)}
    (hrun : (machine cfg).Run ok log s) : Positive s :=
  hrun.invariant Positive.empty fun _ now _ h _ => h.step now _

/-! ### The tables -/

/-- All clients of all rooms. -/
def State.clientCount (s : State) : Nat := s.rooms.total fun _ e => e.udpClients.size

theorem clientCount_le (h : Capped cfg s) : s.clientCount ≤ cfg.maxRooms * cfg.maxClientsHard := by
  refine (GoMap.total_le_mul fun x hx => ?_).trans (Nat.mul_le_mul_right _ h.rooms)
  exact h.clients x.1 x.2 (AList.mem_lookup_iff.mpr hx)

/-- A prefix is in the index only while one of its clients is in a room. -/
theorem Exact.size_ipCounts_le (h : Exact s) : s.counters.ipCounts.size ≤ s.clientCount := by
  let held := s.rooms.entries.flatMap fun x => x.2.udpClients.keys.map ipKey
  have hsub : s.counters.ipCounts.keys ⊆ held := by
    intro ip hip
    obtain ⟨set, hset⟩ := GoMap.lookup_of_mem (AList.mem_keys.mpr hip)
    obtain ⟨R, hR⟩ := Finset.nonempty_iff_ne_empty.mpr (h.ipNonempty ip set hset)
    have hmem : R ∈ s.counters.ipSet ip := by
      rw [Counters.ipSet, hset]
      exact hR
    obtain ⟨e, he, hholds⟩ := (h.ipRooms ip R).mp hmem
    obtain ⟨k, hk, hip⟩ := RoomEntry.holdsIP_iff.mp hholds
    refine List.mem_flatMap.mpr ⟨⟨R, e⟩, AList.mem_lookup_iff.mp he, ?_⟩
    exact List.mem_map.mpr ⟨k, AList.mem_keys.mp hk, hip⟩
  have hlen : held.length = s.clientCount := by
    simp only [held, List.length_flatMap, List.length_map]
    rfl
  rw [← hlen]
  exact (List.Nodup.subperm s.counters.ipCounts.keys_nodup hsub).length_le

/-- All shards together. -/
theorem State.RegMaps.size_regTimes_le (h : s.RegMaps) :
    s.regTimes.size ≤ numRegShards * maxRegShardEntries := by
  apply GoMap.size_le_mul (f := fun k => shardIdx k numRegShards)
  · intro k
    exact Nat.mod_lt _ (by decide)
  · exact h.le_cap

theorem State.RegMaps.size_regSent (h : s.RegMaps) : s.regSent.size = s.regTimes.size :=
  Nat.le_antisymm (GoMap.size_mono fun k hk => (h.same_keys k).mp hk)
    (GoMap.size_mono fun k hk => (h.same_keys k).mpr hk)

/-- In every state of every run the tables that no cap is about are bounded as well: all clients together;
the index of rooms by prefix and each of its sets; the pending counts by prefix, those of the store and those
of each room; and the rate-limit maps. -/
theorem tables_bounded (cfg : Config) {log : List (LogEntry Event Out)} {s : State}
    (hrun : (machine cfg).Run (fun _ _ _ => True) log s) :
    s.clientCount ≤ cfg.maxRooms * cfg.maxClientsHard ∧
    s.counters.ipCounts.size ≤ cfg.maxRooms * cfg.maxClientsHard ∧
    (∀ ip set, s.counters.ipCounts.lookup ip = some set → set.card ≤ cfg.maxRoomsPerIP) ∧
    s.counters.pendingIPCounts.size ≤ cfg.maxPendingGlobal ∧
    (∀ room e, s.rooms.lookup room = some e → e.pendingByIP.size ≤ cfg.maxPendingPerRoom) ∧
    s.regSent.size = s.regTimes.size ∧ s.regTimes.size ≤ numRegShards * maxRegShardEntries := by
  have hexact := exact_of_run hrun
  have hcapped := capped_of_run hrun
  have hpositive := positive_of_run hrun
  have hmaps := regMaps_of_run hrun
  have hclients := clientCount_le hcapped
  refine ⟨hclients, hexact.size_ipCounts_le.trans hclients, fun ip set hset => ?_, ?_, fun room e he => ?_,
    hmaps.size_regSent, hmaps.size_regTimes_le⟩
  · have hcount := hexact.countIPRooms_eq ip
    rw [Counters.countIPRooms, hset, Option.getD_some] at hcount
    rw [hcount]
    exact hcapped.ipRooms ip
  · exact (hpositive.store.size_le hexact.storeIP).trans hcapped.store
  · exact ((hpositive.rooms room e he).size_le (hexact.inRoomIP room e he)).trans (hcapped.pending room e he)

/-- Two ports of one host are in the room, and a third has been challenged. -/
theorem tables_bounded_three_ports : ∃ log s, (machine .default).Run (fun _ _ _ => True) log s ∧
    s.clientCount = 2 ∧ s.counters.ipCounts.size = 1 ∧ s.regTimes.size = 1 ∧
    s.clientCount ≤ 10000 * 20 ∧ s.counters.ipCounts.size ≤ 10000 * 20 ∧
    s.counters.pendingIPCounts.size ≤ 65536 ∧ s.regTimes.size ≤ 16 * 100000 := by
  obtain ⟨log, hrun⟩ := Machine.Run.init.exec
    (show (machine .default).Admissible (fun _ _ _ => True) none .empty
      (hostJoins [2] ++ [(3, hostReg 3 none (some (cookieOf 3)))]) by decide +kernel)
  obtain ⟨hclients, hips, _, hpending, _, _, htimes⟩ := tables_bounded .default hrun
  exact ⟨log, _, hrun, by decide +kernel, by decide +kernel, by decide +kernel, hclients, hips, hpending, htimes⟩

end Qvole.Relay
