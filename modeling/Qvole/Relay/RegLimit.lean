import Qvole.Lib.Window
import Qvole.Relay.State

/-!
# The `REG` limiter

Each prefix has a window of `REG`s, kept in two maps that are split into shards. A sweep deletes windows
that are long over, and a full shard takes no new prefix. The two maps have the same keys, no prefix gets
more than twice its rate in an interval of one window, and below the cap the sweeps do not matter: with
or without them the limiter answers like one that forgets nothing.
-/

namespace Qvole.Relay

open Lib

inductive RegEvent
  | call (src : Bytes)
  | sweep
  deriving DecidableEq

variable (cfg : Config)

/-- `isRegRateLimited` and the rate-map tick of `cleanupRegs`; a call puts out its answer. -/
def regLimiter : Machine State RegEvent Bool where
  init := .empty
  step s now
    | .call src => ((s.isRegRateLimited cfg now src).2, [(s.isRegRateLimited cfg now src).1])
    | .sweep => (s.cleanupRateMaps cfg now, [])

/-- From the start of a window to the start of the next one, at least. -/
def Config.regGap : Int := cfg.rateWindow + 1

def State.regWindow (k : Bytes) (s : State) : Option Window :=
  (s.regTimes.lookup k).map fun reset => ⟨reset, (s.regSent.lookup k).getD 0⟩

variable {cfg} {now : Int} {s : State} {k src : Bytes}

/-! ### A call -/

namespace State

theorem isRegRateLimited_full (hnew : src ∉ s.regTimes) (hfull : maxRegShardEntries ≤ s.regShardSize src) :
    s.isRegRateLimited cfg now src = (true, s) := by
  rw [isRegRateLimited, AList.lookup_eq_none.mpr hnew]
  exact if_pos hfull

variable (cfg now) in
/-- A call that the cap does not turn away is a request to the window of its prefix. -/
theorem isRegRateLimited_hit (hroom : src ∈ s.regTimes ∨ s.regShardSize src < maxRegShardEntries) :
    (s.isRegRateLimited cfg now src).1 = !(Window.hit cfg.maxRegRate cfg.regGap now (s.regWindow src)).1 ∧
      (s.isRegRateLimited cfg now src).2.regWindow src =
        (Window.hit cfg.maxRegRate cfg.regGap now (s.regWindow src)).2 := by
  unfold isRegRateLimited regWindow
  cases hlook : s.regTimes.lookup src with
  | none =>
      have hbelow : ¬ maxRegShardEntries ≤ s.regShardSize src := by
        apply Nat.not_le.mpr
        exact hroom.resolve_left (AList.lookup_eq_none.mp hlook)
      dsimp only
      rw [if_neg hbelow]
      simp [Window.hit]
  | some reset =>
      have hover : cfg.rateWindow < now - reset ↔ reset + cfg.regGap ≤ now := by
        rw [Config.regGap]
        omega
      dsimp only [Option.map_some]
      rw [Window.hit]
      by_cases hlate : reset + cfg.regGap ≤ now
      · rw [if_pos (hover.mpr hlate), if_pos hlate]
        simp
      · rw [if_neg (hover.not.mpr hlate), if_neg hlate]
        by_cases hspent : cfg.maxRegRate ≤ (s.regSent.lookup src).getD 0
        · rw [if_pos hspent, if_pos hspent]
          simp [hlook]
        · rw [if_neg hspent, if_neg hspent]
          simp [hlook]

theorem regWindow_call_of_ne (hne : k ≠ src) :
    (s.isRegRateLimited cfg now src).2.regWindow k = s.regWindow k := by
  unfold isRegRateLimited regWindow
  cases s.regTimes.lookup src with
  | none =>
      dsimp only
      split
      · rfl
      · rw [AList.lookup_insert_ne hne, AList.lookup_insert_ne hne]
  | some reset =>
      dsimp only
      split
      · rw [AList.lookup_insert_ne hne, AList.lookup_insert_ne hne]
      · split
        · rfl
        · rw [AList.lookup_insert_ne hne]

/-! ### A sweep -/

def regEntry (k : Bytes) (s : State) : Option Nat × Option Int := (s.regSent.lookup k, s.regTimes.lookup k)

/-- The sweep deletes the window of the prefix. -/
def regStale (cfg : Config) (now : Int) (k : Bytes) (s : State) : Bool :=
  (s.regTimes.lookup k).any fun reset => cfg.rateWindow * 2 < now - reset

def sweepRate (cfg : Config) (now : Int) (s : State) (src : Bytes) : State :=
  if s.regStale cfg now src then
    { s with regSent := s.regSent.erase src, regTimes := s.regTimes.erase src }
  else s

theorem cleanupRateMaps_eq_foldl (cfg : Config) (now : Int) (s : State) :
    s.cleanupRateMaps cfg now = s.regTimes.keys.foldl (sweepRate cfg now) s := by
  rw [cleanupRateMaps]
  congr 1
  funext acc src
  rw [sweepRate, regStale]
  cases acc.regTimes.lookup src with
  | none => rfl
  | some reset => simp

/-- What a turn of the sweep leaves of its entry. -/
def sweptEntry (cfg : Config) (now : Int) (e : Option Nat × Option Int) : Option Nat × Option Int :=
  if e.2.any fun reset => cfg.rateWindow * 2 < now - reset then (none, none) else e

theorem regEntry_sweepRate_self (cfg : Config) (now : Int) (s : State) (src : Bytes) :
    (s.sweepRate cfg now src).regEntry src = sweptEntry cfg now (s.regEntry src) := by
  rw [sweepRate, sweptEntry]
  split
  · rename_i hstale
    rw [regEntry, AList.lookup_erase, AList.lookup_erase]
    exact (if_pos hstale).symm
  · rename_i hfresh
    exact (if_neg hfresh).symm

theorem regEntry_sweepRate_of_ne (s : State) (hne : k ≠ src) :
    (s.sweepRate cfg now src).regEntry k = s.regEntry k := by
  rw [sweepRate]
  split
  · rw [regEntry, AList.lookup_erase_ne hne, AList.lookup_erase_ne hne, regEntry]
  · rfl

theorem regEntry_cleanupRateMaps (cfg : Config) (now : Int) (k : Bytes) (s : State) :
    (s.cleanupRateMaps cfg now).regEntry k = if s.regStale cfg now k then (none, none) else s.regEntry k := by
  rw [cleanupRateMaps_eq_foldl, foldl_own regEntry (fun _ => sweptEntry cfg now)
    (regEntry_sweepRate_self cfg now) (fun s _ _ hne => regEntry_sweepRate_of_ne s hne) s.regTimes.keys_nodup]
  split
  · rfl
  · rename_i hnot
    have hnone : s.regTimes.lookup k = none := AList.lookup_eq_none.mpr hnot
    rw [regStale, hnone]
    rfl

theorem regWindow_cleanupRateMaps (cfg : Config) (now : Int) (k : Bytes) (s : State) :
    (s.cleanupRateMaps cfg now).regWindow k = if s.regStale cfg now k then none else s.regWindow k := by
  have hentry := regEntry_cleanupRateMaps cfg now k s
  split
  · rename_i hstale
    rw [if_pos hstale] at hentry
    rw [regWindow, (Prod.mk.inj hentry).2]
    rfl
  · rename_i hfresh
    rw [if_neg hfresh] at hentry
    obtain ⟨hsent, htimes⟩ := Prod.mk.inj hentry
    rw [regWindow, regWindow, hsent, htimes]

theorem over_of_regStale (h : s.regStale cfg now k = true) : Window.Over cfg.regGap now (s.regWindow k) := by
  obtain ⟨reset, hlook, hstale⟩ := (Option.any_eq_true _ _).mp h
  have hpos := cfg.durations_pos.1
  intro w hw
  rw [regWindow, hlook] at hw
  obtain rfl := Option.some.inj hw
  have hlate := of_decide_eq_true hstale
  dsimp only
  rw [Config.regGap]
  omega

/-! ### The maps -/

def regShardEntries (shard : Nat) (s : State) : Nat :=
  s.regTimes.count fun k => shardIdx k numRegShards = shard

/-- Both maps have the same keys, and no shard has more than its cap. -/
structure RegMaps (s : State) : Prop where
  same_keys : ∀ k, k ∈ s.regSent ↔ k ∈ s.regTimes
  le_cap : ∀ shard, s.regShardEntries shard ≤ maxRegShardEntries

theorem RegMaps.empty : RegMaps .empty where
  same_keys _ := ⟨fun h => h, fun h => h⟩
  le_cap _ := Nat.zero_le _

theorem mem_iff_of_regEntry {s' : State} (hsame : ∀ k, k ∈ s.regSent ↔ k ∈ s.regTimes)
    (h : s'.regEntry k = s.regEntry k ∨ s'.regEntry k = (none, none)) : k ∈ s'.regSent ↔ k ∈ s'.regTimes := by
  rw [← AList.lookup_isSome, ← AList.lookup_isSome]
  rcases h with h | h
  · obtain ⟨hsent, htimes⟩ := Prod.mk.inj h
    rw [hsent, htimes, AList.lookup_isSome, AList.lookup_isSome]
    exact hsame k
  · obtain ⟨hsent, htimes⟩ := Prod.mk.inj h
    rw [hsent, htimes]
    exact ⟨fun h => h, fun h => h⟩

theorem RegMaps.sweep (h : RegMaps s) : RegMaps (s.cleanupRateMaps cfg now) := by
  have hentry (k : Bytes) : (s.cleanupRateMaps cfg now).regEntry k = s.regEntry k ∨
      (s.cleanupRateMaps cfg now).regEntry k = (none, none) := by
    rw [regEntry_cleanupRateMaps]
    split
    · exact Or.inr rfl
    · exact Or.inl rfl
  refine ⟨fun k => mem_iff_of_regEntry h.same_keys (hentry k), fun shard => ?_⟩
  refine le_trans (GoMap.count_mono _ fun k hk => ?_) (h.le_cap shard)
  obtain ⟨reset, hlook⟩ := GoMap.lookup_of_mem hk
  rcases hentry k with heq | heq
  · rw [(Prod.mk.inj heq).2] at hlook
    exact GoMap.mem_of_lookup hlook
  · rw [(Prod.mk.inj heq).2] at hlook
    cases hlook

theorem RegMaps.fresh (h : RegMaps s) (hroom : src ∈ s.regTimes ∨ s.regShardSize src < maxRegShardEntries) :
    RegMaps { s with regSent := s.regSent.insert src 1, regTimes := s.regTimes.insert src now } := by
  refine ⟨fun k => ?_, fun shard => ?_⟩
  · rw [GoMap.mem_insert_if, GoMap.mem_insert_if, h.same_keys]
  · have hcap := h.le_cap shard
    rw [regShardEntries] at hcap ⊢
    by_cases hmem : src ∈ s.regTimes
    · rw [GoMap.count_insert_of_mem _ _ hmem]
      exact hcap
    · have hbelow := hroom.resolve_left hmem
      rw [GoMap.count_insert_of_notMem _ _ hmem]
      by_cases hshard : shardIdx src numRegShards = shard
      · rw [regShardSize, hshard] at hbelow
        rw [if_pos (decide_eq_true hshard)]
        exact hbelow
      · rw [if_neg (by simpa using hshard)]
        exact hcap

theorem RegMaps.call (h : RegMaps s) : RegMaps (s.isRegRateLimited cfg now src).2 := by
  unfold isRegRateLimited
  cases hlook : s.regTimes.lookup src with
  | none =>
      dsimp only
      split
      · exact h
      · exact h.fresh (Or.inr (Nat.lt_of_not_le ‹_›))
  | some reset =>
      have hmem : src ∈ s.regTimes := GoMap.mem_of_lookup hlook
      dsimp only
      split
      · exact h.fresh (Or.inl hmem)
      · split
        · exact h
        · refine ⟨fun k => ?_, h.le_cap⟩
          rw [GoMap.mem_insert_if, h.same_keys]
          constructor
          · rintro (rfl | hk)
            · exact hmem
            · exact hk
          · exact Or.inr

end State

/-! ### The windows of a run -/

def admitted (k : Bytes) (x : LogEntry RegEvent Bool) : Bool := x.event = .call k && x.outs = [false]

theorem regLimiter_moves (k : Bytes) (s : State) (now : Int) (e : RegEvent) :
    Window.Moves cfg.maxRegRate cfg.regGap now (admitted k ⟨now, e, ((regLimiter cfg).step s now e).2⟩)
      (s.regWindow k) (((regLimiter cfg).step s now e).1.regWindow k) := by
  have hrate : 0 < cfg.maxRegRate := cfg.caps_pos _ (by simp)
  cases e with
  | sweep =>
      show Window.Moves _ _ now false (s.regWindow k) ((s.cleanupRateMaps cfg now).regWindow k)
      rw [State.regWindow_cleanupRateMaps]
      split
      · exact .forget (State.over_of_regStale ‹_›)
      · exact .keep _
  | call src =>
      by_cases hk : src = k
      · subst hk
        have hgrant : admitted src ⟨now, .call src, [(s.isRegRateLimited cfg now src).1]⟩ =
            !(s.isRegRateLimited cfg now src).1 := by
          cases h : (s.isRegRateLimited cfg now src).1 <;> simp [admitted]
        show Window.Moves _ _ now (admitted src ⟨now, .call src, [(s.isRegRateLimited cfg now src).1]⟩)
          (s.regWindow src) ((s.isRegRateLimited cfg now src).2.regWindow src)
        rw [hgrant]
        by_cases hroom : src ∈ s.regTimes ∨ s.regShardSize src < maxRegShardEntries
        · obtain ⟨hanswer, hwindow⟩ := State.isRegRateLimited_hit cfg now hroom
          rw [hanswer, hwindow, Bool.not_not]
          exact Window.hit_moves hrate _
        · obtain ⟨hnew, hfull⟩ := not_or.mp hroom
          rw [State.isRegRateLimited_full hnew (Nat.le_of_not_lt hfull)]
          exact .keep _
      · have hnot : admitted k ⟨now, .call src, [(s.isRegRateLimited cfg now src).1]⟩ = false := by
          simp [admitted, hk]
        show Window.Moves _ _ now (admitted k ⟨now, .call src, [(s.isRegRateLimited cfg now src).1]⟩)
          (s.regWindow k) ((s.isRegRateLimited cfg now src).2.regWindow k)
        rw [hnot, State.regWindow_call_of_ne (Ne.symm hk)]
        exact .keep _

/-! ### The limiter that forgets nothing -/

variable (cfg) in
/-- A window for each prefix, no cap and nothing to sweep. -/
def regSpec : Machine (Bytes → Option Window) RegEvent Bool where
  init _ := none
  step f now
    | .call src =>
      (Function.update f src (Window.hit cfg.maxRegRate cfg.regGap now (f src)).2,
        [!(Window.hit cfg.maxRegRate cfg.regGap now (f src)).1])
    | .sweep => (f, [])

def RegEvent.isCall : RegEvent → Bool
  | .call _ => true
  | .sweep => false

def RegEvent.onShard (shard : Nat) : RegEvent → Bool
  | .call src => shardIdx src numRegShards = shard
  | .sweep => false

def belowCap (shard : Nat) (s : State) (_ : Int) (_ : RegEvent) : Prop :=
  s.regShardEntries shard < maxRegShardEntries

instance (shard : Nat) (s : State) (now : Int) (e : RegEvent) : Decidable (belowCap shard s now e) :=
  inferInstanceAs (Decidable (_ < _))

/-- The windows of a shard are what is left of those that were never forgotten. -/
def RefinesSpec (cfg : Config) (shard : Nat) (now : Int) (s : State) (f : Bytes → Option Window) : Prop :=
  ∀ k, shardIdx k numRegShards = shard → Window.Remains cfg.regGap now (s.regWindow k) (f k)

theorem RefinesSpec.step {shard : Nat} {f : Bytes → Option Window} (e : RegEvent)
    (h : RefinesSpec cfg shard now s f) (hbelow : belowCap shard s now e) :
    RefinesSpec cfg shard now ((regLimiter cfg).step s now e).1 ((regSpec cfg).step f now e).1 ∧
      (e.onShard shard = true → ((regLimiter cfg).step s now e).2 = ((regSpec cfg).step f now e).2) := by
  cases e with
  | sweep =>
      refine ⟨fun k hk => ?_, fun hcall => nomatch hcall⟩
      show Window.Remains _ now ((s.cleanupRateMaps cfg now).regWindow k) (f k)
      rw [State.regWindow_cleanupRateMaps]
      split
      · rename_i hstale
        refine Or.inr ⟨rfl, ?_⟩
        rcases h k hk with heq | ⟨_, hover⟩
        · rw [← heq]
          exact State.over_of_regStale hstale
        · exact hover
      · exact h k hk
  | call src =>
      by_cases hsrc : shardIdx src numRegShards = shard
      · have hroom : s.regShardSize src < maxRegShardEntries := by
          rw [State.regShardSize, hsrc]
          exact hbelow
        obtain ⟨hanswer, hwindow⟩ := State.isRegRateLimited_hit cfg now (Or.inr hroom)
        have hhit := (h src hsrc).hit (n := cfg.maxRegRate)
        rw [hhit] at hanswer hwindow
        refine ⟨fun k hk => ?_, fun _ => congrArg (fun b => [b]) hanswer⟩
        show Window.Remains _ now ((s.isRegRateLimited cfg now src).2.regWindow k) (Function.update f src _ k)
        by_cases hne : k = src
        · subst hne
          rw [Function.update_self, hwindow]
          exact Or.inl rfl
        · rw [Function.update_of_ne hne, State.regWindow_call_of_ne hne]
          exact h k hk
      · refine ⟨fun k hk => ?_, fun hcall => absurd (of_decide_eq_true hcall) hsrc⟩
        have hne : k ≠ src := by
          rintro rfl
          exact hsrc hk
        show Window.Remains _ now ((s.isRegRateLimited cfg now src).2.regWindow k) (Function.update f src _ k)
        rw [Function.update_of_ne hne, State.regWindow_call_of_ne hne]
        exact h k hk

/-- Below its cap a shard answers like the limiter that forgets nothing, which only sees the calls. -/
theorem regLimiter_refines {shard : Nat} {inputs : List (Int × RegEvent)}
    (hadm : (regLimiter cfg).Admissible (belowCap shard) none .empty inputs) :
    ((regLimiter cfg).execLog .empty inputs).filter (fun x => x.event.onShard shard) =
      ((regSpec cfg).execLog (fun _ => none) (inputs.filter fun x => x.2.isCall)).filter fun x =>
        x.event.onShard shard := by
  have hcalls : ((regSpec cfg).execLog (fun _ => none) inputs).filter (fun x => x.event.isCall) =
      (regSpec cfg).execLog (fun _ => none) (inputs.filter fun x => x.2.isCall) := by
    apply Machine.execLog_filter_of_idle
    intro f now e he
    cases e with
    | call src => cases he
    | sweep => rfl
  have hsub (log : List (LogEntry RegEvent Bool)) :
      (log.filter fun x => x.event.isCall).filter (fun x => x.event.onShard shard) =
        log.filter fun x => x.event.onShard shard := by
    rw [List.filter_filter]
    apply List.filter_congr
    intro x _
    cases x.event <;> simp [RegEvent.onShard, RegEvent.isCall]
  rw [← hcalls, hsub]
  refine Machine.execLog_filter_of_sim (R := RefinesSpec cfg shard) (fun now s f e h hok => h.step e hok) ?_ hadm
    fun now _ k _ => Or.inl rfl
  intro s f now now' hle h k hk
  exact (h k hk).later hle

/-- For every sequence of calls and sweeps, the two maps of the limiter have the same keys and no shard
has more than its cap; no prefix is admitted more than twice its rate in an interval of one window; and
as long as a shard is below its cap, its answers stay the same if sweeps are left out. -/
theorem regLimiter_bounds (cfg : Config) :
    (∀ log s, (regLimiter cfg).Run (fun _ _ _ => True) log s →
      (∀ k, k ∈ s.regSent ↔ k ∈ s.regTimes) ∧ ∀ shard, s.regShardEntries shard ≤ maxRegShardEntries) ∧
    (∀ log s, (regLimiter cfg).Run (fun _ _ _ => True) log s → ∀ k a,
      log.countP (fun x => admitted k x && decide (a ≤ x.time ∧ x.time ≤ a + cfg.rateWindow)) ≤
        2 * cfg.maxRegRate) ∧
    ∀ shard inputs inputs', inputs'.Sublist inputs →
      (inputs'.filter fun x => x.2.isCall) = (inputs.filter fun x => x.2.isCall) →
      (regLimiter cfg).Admissible (belowCap shard) none .empty inputs →
      (regLimiter cfg).Admissible (belowCap shard) none .empty inputs' →
      ((regLimiter cfg).execLog .empty inputs').filter (fun x => x.event.onShard shard) =
        ((regLimiter cfg).execLog .empty inputs).filter fun x => x.event.onShard shard := by
  refine ⟨fun log s hrun => ?_, fun log s hrun k a => ?_, fun shard inputs inputs' _ hcalls hadm hadm' => ?_⟩
  · have hmaps : s.RegMaps := by
      refine hrun.invariant State.RegMaps.empty ?_
      intro s now e h _
      cases e with
      | call src => exact h.call
      | sweep => exact h.sweep
    exact ⟨hmaps.same_keys, hmaps.le_cap⟩
  · refine Window.run_bound hrun (State.regWindow k) (admitted k) (fun s now e _ => regLimiter_moves k s now e) ?_
    rw [Config.regGap]
    omega
  · rw [regLimiter_refines hadm, regLimiter_refines hadm', hcalls]

/-- Two calls of a prefix, three seconds apart. -/
def bareCalls : List (Int × RegEvent) :=
  [(0, .call (ascii "10.0.0.1")), (3000000000, .call (ascii "10.0.0.1"))]

def sweptCalls : List (Int × RegEvent) :=
  [(0, .call (ascii "10.0.0.1")), (3000000000, .sweep), (3000000000, .call (ascii "10.0.0.1"))]

theorem regLimiter_bounds_swept :
    (regLimiter .default).Admissible (belowCap 13) none .empty sweptCalls ∧
    (regLimiter .default).Admissible (belowCap 13) none .empty bareCalls ∧
    ((regLimiter .default).execLog .empty bareCalls).filter (fun x => x.event.onShard 13) =
      ((regLimiter .default).execLog .empty sweptCalls).filter (fun x => x.event.onShard 13) ∧
    (∀ k, k ∈ ((regLimiter .default).exec .empty sweptCalls).regSent ↔
      k ∈ ((regLimiter .default).exec .empty sweptCalls).regTimes) ∧
    (((regLimiter .default).execLog .empty sweptCalls).countP fun x =>
      admitted (ascii "10.0.0.1") x && decide (0 ≤ x.time ∧ x.time ≤ 0 + Config.default.rateWindow)) ≤
        2 * Config.default.maxRegRate := by
  have hswept : (regLimiter .default).Admissible (belowCap 13) none .empty sweptCalls := by decide +kernel
  have hbare : (regLimiter .default).Admissible (belowCap 13) none .empty bareCalls := by decide +kernel
  have hany : (regLimiter .default).Admissible (fun _ _ _ => True) none .empty sweptCalls := by decide +kernel
  have hrun := Machine.Run.init.execLog hany
  rw [List.append_nil] at hrun
  have hsub : bareCalls.Sublist sweptCalls := by decide
  obtain ⟨hmaps, hrate, hsweeps⟩ := regLimiter_bounds .default
  exact ⟨hswept, hbare, hsweeps 13 sweptCalls bareCalls hsub (by decide) hswept hbare, (hmaps _ _ hrun).1,
    hrate _ _ hrun _ 0⟩

end Qvole.Relay
