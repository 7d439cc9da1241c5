import Qvole.Relay.Expiry
import Qvole.Relay.Footprint

/-!
# A relay that nobody writes to

Every timestamp the relay keeps is that of a datagram, so once no datagrams come, all of them get old. The
room tick then finds every client, every room and every pending registration of the store expired, the
rate-map tick every window long over, and what the counters say follows from the tables. In the end the
relay is as it was when it started: nothing is left of the clients and rooms it has seen.
-/

namespace Qvole.Relay

open Lib

variable {cfg : Config} {now last : Int} {rnd : Option Cookie} {room cookie : Bytes} {src : UDPAddr}
  {s s' : State} {e e' : RoomEntry}

/-! ### Timestamps -/

def RoomEntry.Dated (last : Int) (e : RoomEntry) : Prop :=
  e.t ≤ last ∧ ∀ k u, e.udpClients.lookup k = some u → u.lastSeen ≤ last

/-- Nothing in the tables is newer. -/
structure Dated (last : Int) (s : State) : Prop where
  rooms : ∀ R e, s.rooms.lookup R = some e → e.Dated last
  store : ∀ key p, s.pendingRegs.lookup key = some p → p.createdAt ≤ last
  rates : ∀ k reset, s.regTimes.lookup k = some reset → reset ≤ last

/-- The part of it that is about rooms and the store. -/
def TablesDated (last : Int) (s : State) : Prop :=
  (∀ R e, s.rooms.lookup R = some e → e.Dated last) ∧
    ∀ key p, s.pendingRegs.lookup key = some p → p.createdAt ≤ last

theorem EntryShrunk.dated (h : EntryShrunk cfg now e e') (hdated : e.Dated last) : e'.Dated last := by
  refine ⟨h.t.trans_le hdated.1, fun k u hu => ?_⟩
  exact hdated.2 k u (h.client hu)

theorem Shrunk.dated (h : Shrunk cfg now s s') (hdated : TablesDated last s) : TablesDated last s' := by
  refine ⟨fun R e' he' => ?_, fun key p hp => hdated.2 key p (h.store hp)⟩
  obtain ⟨e, he, hentry⟩ := h.room he'
  exact hentry.dated (hdated.1 R e he)

theorem TablesDated.setRoom {p : RoomEntry × Counters} (h : TablesDated last s) (hp : p.1.Dated last) :
    TablesDated last (s.setRoom room p) := by
  refine ⟨fun R e he => ?_, h.2⟩
  rw [State.setRoom, GoMap.lookup_insert_if] at he
  split at he
  · cases he
    exact hp
  · exact h.1 R e he

/-- A client that is put into the room or put back. -/
theorem RoomEntry.Dated.insert {k : Bytes} {u : UdpClient} (h : e.Dated last) (hu : u.lastSeen ≤ last)
    (hclients : e'.udpClients = e.udpClients.insert k u) (ht : e'.t ≤ last) : e'.Dated last := by
  refine ⟨ht, fun k' u' hu' => ?_⟩
  rw [hclients, GoMap.lookup_insert_if] at hu'
  split at hu'
  · cases hu'
    exact hu
  · exact h.2 k' u' hu'

theorem RegOutcome.dated {outs : List Out} (h : RegOutcome cfg now rnd room cookie src s s' outs)
    (hdated : TablesDated now s) : TablesDated now s' := by
  cases h with
  | dropped hshrunk => exact hshrunk.dated hdated
  | created hshrunk =>
      apply (hshrunk.dated hdated).setRoom
      refine ⟨le_refl now, fun k u hu => ?_⟩
      change (AList.insert src.string _ (∅ : GoMap Bytes UdpClient)).lookup k = some u at hu
      rw [GoMap.lookup_insert_if] at hu
      split at hu
      · cases hu
        exact le_refl now
      · cases hu
  | joined hshrunk _ _ he =>
      exact (hshrunk.dated hdated).setRoom
        (((hshrunk.dated hdated).1 _ _ he).insert (le_refl now) rfl (le_refl now))
  | admitted hshrunk _ _ _ _ _ he =>
      exact (hshrunk.dated hdated).setRoom
        (((hshrunk.dated hdated).1 _ _ he).insert (le_refl now) rfl (le_refl now))
  | refreshed hshrunk _ he =>
      have hentry := (hshrunk.dated hdated).1 _ _ he
      exact (hshrunk.dated hdated).setRoom (hentry.insert (le_refl now) rfl hentry.1)
  | challengedStore hshrunk =>
      refine ⟨(hshrunk.dated hdated).1, fun key p hp => ?_⟩
      rw [GoMap.lookup_insert_if] at hp
      split at hp
      · cases hp
        exact le_refl now
      · exact (hshrunk.dated hdated).2 key p hp
  | renewed hshrunk _ he =>
      have hentry := (hshrunk.dated hdated).1 _ _ he
      exact (hshrunk.dated hdated).setRoom ⟨hentry.1, hentry.2⟩
  | challengedRoom hshrunk _ _ he =>
      have hentry := (hshrunk.dated hdated).1 _ _ he
      exact (hshrunk.dated hdated).setRoom ⟨hentry.1, hentry.2⟩

theorem MsgOutcome.dated {phase body : Bytes} {outs : List Out} (h : MsgOutcome room phase body src s s' outs)
    (hdated : TablesDated last s) : TablesDated last s' := by
  cases h with
  | ignored => exact hdated
  | @counted entry u _ r hroom hu =>
      have hentry := hdated.1 _ _ hroom
      have hseen : u.lastSeen ≤ last := hentry.2 _ u hu
      exact hdated.setRoom (hentry.insert (u := { u with rateLimiter := r }) hseen rfl hentry.1)

theorem isRegRateLimited_dated {k : Bytes} {reset : Int}
    (hdated : ∀ k reset, s.regTimes.lookup k = some reset → reset ≤ now) (ip : Bytes)
    (h : (s.isRegRateLimited cfg now ip).2.regTimes.lookup k = some reset) : reset ≤ now := by
  have hfresh : (s.regTimes.insert ip now).lookup k = some reset → reset ≤ now := by
    intro hk
    rw [GoMap.lookup_insert_if] at hk
    split at hk
    · cases hk
      exact le_refl now
    · exact hdated k reset hk
  unfold State.isRegRateLimited at h
  split at h
  · split at h
    · exact hdated k reset h
    · exact hfresh h
  · split at h
    · exact hfresh h
    · split at h
      · exact hdated k reset h
      · exact hdated k reset h

theorem cleanupRateMaps_dated (hdated : ∀ k reset, s.regTimes.lookup k = some reset → reset ≤ last) {k : Bytes}
    {reset : Int} (h : (s.cleanupRateMaps cfg now).regTimes.lookup k = some reset) : reset ≤ last := by
  have hentry := congrArg Prod.snd (State.regEntry_cleanupRateMaps cfg now k s)
  split at hentry
  · rw [show (s.cleanupRateMaps cfg now).regTimes.lookup k = none from hentry] at h
    cases h
  · rw [show (s.cleanupRateMaps cfg now).regTimes.lookup k = s.regTimes.lookup k from hentry] at h
    exact hdated k reset h

theorem Dated.step (h : Dated now s) (e : Event) : Dated now (step cfg now s e).1 := by
  have htables : TablesDated now (Relay.step cfg now s e).1 := by
    rcases step_cases cfg now s e with ⟨_, _, _, _, _, _, _, _, houtcome⟩ | ⟨_, _, _, _, _, _, _, _, houtcome⟩ |
      ⟨hshrunk, _⟩
    · exact houtcome.dated ⟨h.rooms, h.store⟩
    · exact houtcome.dated ⟨h.rooms, h.store⟩
    · exact hshrunk.dated ⟨h.rooms, h.store⟩
  refine ⟨htables.1, htables.2, fun k reset hk => ?_⟩
  rcases step_rates cfg now s e with ⟨_, src, _, _, _, _, _, hrates⟩ | ⟨_, hswept⟩ | hrates
  · rw [(Prod.mk.inj hrates).2] at hk
    exact isRegRateLimited_dated h.rates (ipKey src.string) hk
  · rw [hswept] at hk
    exact cleanupRateMaps_dated h.rates hk
  · rw [(Prod.mk.inj hrates).2] at hk
    exact h.rates k reset hk

theorem Dated.later (h : Dated last s) (hle : last ≤ now) : Dated now s where
  rooms R e he := ⟨(h.rooms R e he).1.trans hle, fun k u hu => ((h.rooms R e he).2 k u hu).trans hle⟩
  store key p hp := (h.store key p hp).trans hle
  rates k reset hk := (h.rates k reset hk).trans hle

theorem Dated.empty (last : Int) : Dated last .empty where
  rooms R e he := by cases he
  store key p hp := by cases hp
  rates k reset hk := by cases hk

theorem dated_of_run {ok : State → Int → Event → Prop} {log : List (LogEntry Event Out)}
    (hrun : (machine cfg).Run ok log s) (hlast : ∀ x ∈ log.head?, x.time ≤ last) : Dated last s :=
  hrun.invariant_clock (I := Dated) Dated.empty (fun _ _ _ hle h => h.later hle) (fun _ _ e h _ => h.step e)
    last hlast

/-! ### What the ticks leave -/

/-- What is left of the store has not expired. -/
theorem State.removeStalePendingRegs_fresh {key : Bytes × Bytes} {p : PendingReg}
    (h : (removeStalePendingRegs now s).pendingRegs.lookup key = some p) :
    now - p.createdAt ≤ pendingRegTTL := by
  refine foldl_of_mem (P := fun s' : State =>
    ∀ p, s'.pendingRegs.lookup key = some p → now - p.createdAt ≤ pendingRegTTL) ?_ ?_
    (List.mem_range.mpr (shardIdx_lt key.1)) s p h
  · intro s' shard hs' p hp
    have hshrunk : Shrunk .default now s' (removeStaleShard now s' shard) := removeStaleShard_shrunk s' shard
    exact hs' p (hshrunk.store hp)
  · intro s' p hp
    have hshrunk : Shrunk .default now s' (removeStaleShard now s' (shardIdx key.1 numShards)) :=
      removeStaleShard_shrunk s' _
    have hold := hshrunk.store hp
    by_contra hstale
    -- an expired entry of this shard is among those that are deleted
    have hmem : key ∈ s'.pendingRegs.keys.filter fun key' =>
        shardIdx key'.1 numShards = shardIdx key.1 numShards ∧ s'.pendingExpired now key' := by
      refine List.mem_filter.mpr ⟨AList.mem_keys.mp (GoMap.mem_of_lookup hold), ?_⟩
      rw [decide_eq_true_eq, pendingExpired, hold]
      exact ⟨rfl, decide_eq_true (Int.not_le.mp hstale)⟩
    have hgone : (removeStaleShard now s' (shardIdx key.1 numShards)).pendingRegs.lookup key = none := by
      refine foldl_of_mem (P := fun m : GoMap (Bytes × Bytes) PendingReg => m.lookup key = none) ?_ ?_ hmem
        s'.pendingRegs
      · intro m key' hm
        rw [GoMap.lookup_erase_if]
        split
        · rfl
        · exact hm
      · intro m
        exact AList.lookup_erase key m
    rw [hgone] at hp
    cases hp

/-- No room and no pending registration. -/
def NoRooms (s : State) : Prop := (∀ R, s.rooms.lookup R = none) ∧ ∀ key, s.pendingRegs.lookup key = none

def NoRates (s : State) : Prop := ∀ k, s.regSent.lookup k = none ∧ s.regTimes.lookup k = none

theorem NoRooms.shrunk (h : NoRooms s) (hshrunk : Shrunk cfg now s s') : NoRooms s' := by
  refine ⟨fun R => ?_, fun key => ?_⟩
  · cases he : s'.rooms.lookup R with
    | none => rfl
    | some e' =>
        obtain ⟨e, he, _⟩ := hshrunk.room he
        rw [h.1 R] at he
        cases he
  · cases hp : s'.pendingRegs.lookup key with
    | none => rfl
    | some p =>
        have hold := hshrunk.store hp
        rw [h.2 key] at hold
        cases hold

/-- A room tick when all timestamps are old. -/
theorem Dated.noRooms (h : Dated last s) (hroom : last + cfg.regTTL < now) (hpend : last + pendingRegTTL < now) :
    NoRooms (s.cleanupRooms cfg now) := by
  have hshrunk : Shrunk cfg now s (s.evictStaleRoomsAll cfg now) := State.evictStaleRoomsAll_shrunk s
  have hrooms : (s.cleanupRooms cfg now).rooms = (s.evictStaleRoomsAll cfg now).rooms :=
    List.foldlRecOn _ (State.removeStaleShard now)
      (motive := fun s' : State => s'.rooms = (s.evictStaleRoomsAll cfg now).rooms) rfl fun _ h _ _ => h
  refine ⟨fun R => ?_, fun key => ?_⟩
  · rw [hrooms]
    cases he' : (s.evictStaleRoomsAll cfg now).rooms.lookup R with
    | none => rfl
    | some e' =>
        obtain ⟨e, he, hentry⟩ := hshrunk.room he'
        obtain ⟨ht, hclients⟩ := hentry.dated (h.rooms R e he)
        obtain ⟨hfresh, hkept⟩ := State.evictStaleRoomsAll_swept s R e' he'
        rcases hkept with ⟨k, hk⟩ | hrecent
        · obtain ⟨u, hu⟩ := GoMap.lookup_of_mem hk
          have hseen := hclients k u hu
          have hnew := hfresh k u hu
          omega
        · omega
  · cases hp : (s.cleanupRooms cfg now).pendingRegs.lookup key with
    | none => rfl
    | some p =>
        have hfresh := State.removeStalePendingRegs_fresh (s := s.evictStaleRoomsAll cfg now) hp
        have hall : Shrunk cfg now s (s.cleanupRooms cfg now) := State.cleanupRooms_shrunk s
        have hold := h.store key p (hall.store hp)
        omega

/-- A rate-map tick when all windows are long over. -/
theorem Dated.noRates (h : Dated last s) (hmaps : s.RegMaps) (hrate : last + 2 * cfg.rateWindow < now) :
    NoRates (s.cleanupRateMaps cfg now) := by
  intro k
  have hentry := State.regEntry_cleanupRateMaps cfg now k s
  split at hentry
  · exact Prod.mk.inj hentry
  · rename_i hnot
    have hnone : s.regTimes.lookup k = none := by
      cases hk : s.regTimes.lookup k with
      | none => rfl
      | some reset =>
          exfalso
          apply hnot
          have hold := h.rates k reset hk
          rw [State.regStale, hk]
          exact decide_eq_true (by omega)
    have hsent : s.regSent.lookup k = none := by
      rw [AList.lookup_eq_none] at hnone ⊢
      exact fun hmem => hnone ((hmaps.same_keys k).mp hmem)
    obtain ⟨hs, ht⟩ := Prod.mk.inj hentry
    exact ⟨hs.trans hsent, ht.trans hnone⟩

theorem eq_empty_of_lookup {κ α : Type} [DecidableEq κ] {m : GoMap κ α} (h : ∀ k, m.lookup k = none) :
    m = ∅ := by
  apply AList.ext
  apply List.eq_nil_iff_forall_not_mem.mpr
  intro x hx
  have hlook : m.lookup x.1 = some x.2 := AList.mem_lookup_iff.mpr hx
  rw [h x.1] at hlook
  cases hlook

/-- Without rooms and pending registrations the counters stand where they started. -/
theorem NoRooms.eq_empty (h : NoRooms s) (hrates : NoRates s) (hexact : Exact s) (hpositive : Positive s) :
    s = .empty := by
  have hrooms : s.rooms = ∅ := eq_empty_of_lookup h.1
  have hstore : s.pendingRegs = ∅ := eq_empty_of_lookup h.2
  have hips : s.counters.ipCounts = ∅ := by
    apply eq_empty_of_lookup
    intro ip
    cases hset : s.counters.ipCounts.lookup ip with
    | none => rfl
    | some set =>
        obtain ⟨R, hR⟩ := Finset.nonempty_iff_ne_empty.mpr (hexact.ipNonempty ip set hset)
        have hmem : R ∈ s.counters.ipSet ip := by
          rw [Counters.ipSet, hset]
          exact hR
        obtain ⟨e, he, _⟩ := (hexact.ipRooms ip R).mp hmem
        rw [h.1 R] at he
        cases he
  have hpending : s.counters.pendingIPCounts = ∅ := by
    apply eq_empty_of_lookup
    intro ip
    cases hn : s.counters.pendingIPCounts.lookup ip with
    | none => rfl
    | some n =>
        have hpos := hpositive.store ip n hn
        have hcount := hexact.storeIP ip
        rw [Counters.countPendingForIP, hn, State.storedForIP, hstore] at hcount
        change n = 0 at hcount
        omega
  have htotal := hexact.rooms
  have hpendingTotal := hexact.store
  have hinRoom := hexact.inRoom
  rw [hrooms] at htotal
  rw [hstore] at hpendingTotal
  rw [State.inRoomPending, hrooms] at hinRoom
  obtain ⟨rooms, regs, sent, times, ⟨total, ips, pendingIPs, pendingTotal, inRoomTotal⟩⟩ := s
  dsimp only at hrooms hstore hips hpending htotal hpendingTotal hinRoom
  have hsent : sent = ∅ := eq_empty_of_lookup fun k => (hrates k).1
  have htimes : times = ∅ := eq_empty_of_lookup fun k => (hrates k).2
  subst hrooms hstore hips hpending htotal hpendingTotal hinRoom hsent htimes
  rfl

/-! ### The end of a silence -/

/-- What all steps of a run keep, and a tick at any time. -/
structure Settled (last : Int) (s : State) : Prop where
  dated : Dated last s
  maps : s.RegMaps
  exact : Exact s
  positive : Positive s

/-- A tick adds nothing, so it leaves no timestamp of its own. -/
theorem Settled.tick (h : Settled last s) {e : Event} (he : e = .rateTick ∨ e = .roomTick) :
    Settled last (step cfg now s e).1 := by
  refine ⟨?_, step_regMaps h.maps now e, step_exact h.exact now e, h.positive.step now e⟩
  rcases he with rfl | rfl
  · obtain ⟨hrooms, hstore, _⟩ := State.cleanupRateMaps_eq cfg now s
    refine ⟨fun R e he => h.dated.rooms R e ?_, fun key p hp => h.dated.store key p ?_, fun k reset hk => ?_⟩
    · rw [← hrooms]
      exact he
    · rw [← hstore]
      exact hp
    · exact cleanupRateMaps_dated h.dated.rates hk
  · have hshrunk : Shrunk cfg now s (s.cleanupRooms cfg now) := State.cleanupRooms_shrunk s
    obtain ⟨hrooms, hstore⟩ := hshrunk.dated ⟨h.dated.rooms, h.dated.store⟩
    refine ⟨hrooms, hstore, fun k reset hk => h.dated.rates k reset ?_⟩
    have htimes : (s.cleanupRooms cfg now).regTimes = s.regTimes :=
      (Prod.mk.inj (State.cleanupRooms_rates s)).2
    rw [← htimes]
    exact hk

theorem NoRooms.tick (h : NoRooms s) {e : Event} (he : e = .rateTick ∨ e = .roomTick) :
    NoRooms (step cfg now s e).1 := by
  rcases he with rfl | rfl
  · obtain ⟨hrooms, hstore, _⟩ := State.cleanupRateMaps_eq cfg now s
    have hshrunk : Shrunk cfg now s (s.cleanupRateMaps cfg now) := .of_eq hrooms hstore
    exact h.shrunk hshrunk
  · have hshrunk : Shrunk cfg now s (s.cleanupRooms cfg now) := State.cleanupRooms_shrunk s
    exact h.shrunk hshrunk

theorem NoRates.tick (h : NoRates s) {e : Event} (he : e = .rateTick ∨ e = .roomTick) :
    NoRates (step cfg now s e).1 := by
  rcases he with rfl | rfl
  · intro k
    have hentry := State.regEntry_cleanupRateMaps cfg now k s
    split at hentry
    · exact Prod.mk.inj hentry
    · obtain ⟨hsent, htimes⟩ := Prod.mk.inj hentry
      exact ⟨hsent.trans (h k).1, htimes.trans (h k).2⟩
  · have hrates : (s.cleanupRooms cfg now).rates = s.rates := State.cleanupRooms_rates s
    obtain ⟨hsent, htimes⟩ := Prod.mk.inj hrates
    intro k
    exact ⟨(congrArg _ hsent).trans (h k).1, (congrArg _ htimes).trans (h k).2⟩

/-- After any run, let no datagram come any more while the tickers go on: once the room tick has come when
`regTTL` and the lifetime of a pending registration are over, and the rate-map tick when two windows are,
the relay is in its initial state. -/
theorem silence_empties (cfg : Config) {log : List (LogEntry Event Out)} {s : State}
    (hrun : (machine cfg).Run (fun _ _ _ => True) log s) (last : Int) (hlast : ∀ x ∈ log.head?, x.time ≤ last)
    {ticks : List (Int × Event)} (hticks : ∀ x ∈ ticks, x.2 = .rateTick ∨ x.2 = .roomTick)
    (hroom : ∃ t, (t, .roomTick) ∈ ticks ∧ last + max cfg.regTTL pendingRegTTL < t)
    (hrate : ∃ t, (t, .rateTick) ∈ ticks ∧ last + 2 * cfg.rateWindow < t) :
    (machine cfg).exec s ticks = .empty := by
  have hsettled : Settled last s :=
    ⟨dated_of_run hrun hlast, regMaps_of_run hrun, exact_of_run hrun, positive_of_run hrun⟩
  have hkeep : ∀ s, ∀ x ∈ ticks, Settled last s → Settled last ((machine cfg).step s x.1 x.2).1 :=
    fun s x hx h => h.tick (hticks x hx)
  obtain ⟨t, ht, hlate⟩ := hroom
  obtain ⟨t', ht', hlate'⟩ := hrate
  have hend : Settled last ((machine cfg).exec s ticks) :=
    Machine.exec_of_mem ht hkeep hkeep (fun s h => hkeep s _ ht h) hsettled
  have hrooms : NoRooms ((machine cfg).exec s ticks) := by
    refine Machine.exec_of_mem ht hkeep (fun s x hx h => h.tick (hticks x hx)) (fun s h => ?_) hsettled
    exact h.dated.noRooms (by omega) (by omega)
  have hrates : NoRates ((machine cfg).exec s ticks) := by
    refine Machine.exec_of_mem ht' hkeep (fun s x hx h => h.tick (hticks x hx)) (fun s h => ?_) hsettled
    exact h.dated.noRates h.maps hlate'
  exact hrooms.eq_empty hrates hend.exact hend.positive

/-- Two ports in a room and a third one pending; a minute and a second later both tickers have fired. -/
theorem silence_after_three_ports : ∃ log s, (machine .default).Run (fun _ _ _ => True) log s ∧
    s.clientCount = 2 ∧
    (machine .default).exec s [(2000000000, .rateTick), (61000000000, .roomTick), (61000000000, .rateTick)] =
      .empty := by
  have hrun := Machine.Run.init.execLog
    (show (machine .default).Admissible (fun _ _ _ => True) none .empty
      (hostJoins [2] ++ [(3, hostReg 3 none (some (cookieOf 3)))]) by decide +kernel)
  refine ⟨_, _, hrun, by decide +kernel, ?_⟩
  refine silence_empties .default hrun 3 (by decide +kernel) ?_ ⟨61000000000, by simp, by decide⟩
    ⟨61000000000, by simp, by decide⟩
  intro x hx
  simp only [List.mem_cons, List.not_mem_nil, or_false] at hx
  rcases hx with rfl | rfl | rfl
  · exact Or.inl rfl
  · exact Or.inr rfl
  · exact Or.inl rfl

end Qvole.Relay
