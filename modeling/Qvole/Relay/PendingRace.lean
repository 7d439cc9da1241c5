import Qvole.Lib.Pool
import Qvole.Relay.Bookkeeping

/-!
# The pending counters under concurrent calls

A call of `storePendingReg`, `deletePendingReg` or `removeStalePendingRegs` changes the store under the
lock of a shard and pays its counters afterwards, one critical section for the count of the prefix and
one atomic addition for the total. In between, other calls have their turn. What a call still owes is
counted with it, and with that the books balance at every moment, but for one thing: the count of a
prefix saturates at zero. A deletion that pays before the insertion it undoes finds nothing to take and
loses its payment, and the insertion then leaves a count that no entry stands behind.
-/

namespace Qvole.Relay

open Lib

namespace Counters

/-- The critical section of `addPendingIP`. -/
def addPendingCount (ip : Bytes) (delta : Int) (c : Counters) : Counters :=
  { c with pendingIPCounts := (c.addPendingIP ip delta).pendingIPCounts }

/-- The addition to `pendingTotal` behind it. -/
def addPendingTotal (delta : Int) (c : Counters) : Counters :=
  { c with pendingTotal := c.pendingTotal + delta }

theorem addPendingIP_eq (ip : Bytes) (delta : Int) (c : Counters) :
    c.addPendingIP ip delta = (c.addPendingCount ip delta).addPendingTotal delta := rfl

end Counters

inductive PendingCall
  | storePendingReg (room srcStr : Bytes) (p : PendingReg)
  | deletePendingReg (room srcStr : Bytes)
  | removeStalePendingRegs (now : Int)

/-- The atomic steps: the map step of each call, for one shard in the case of the sweep, and the two
steps of `addPendingIP`. -/
inductive PendingStep
  | store (room srcStr : Bytes) (p : PendingReg)
  | delete (room srcStr : Bytes)
  | sweep (now : Int) (shard : Nat)
  | count (ip : Bytes) (delta : Int)
  | total (delta : Int)
  deriving DecidableEq

def PendingCall.start : PendingCall → List PendingStep
  | .storePendingReg room srcStr p => [.store room srcStr p]
  | .deletePendingReg room srcStr => [.delete room srcStr]
  | .removeStalePendingRegs now => (List.range numShards).map (.sweep now)

def addPendingIPSteps (ip : Bytes) (delta : Int) : List PendingStep := [.count ip delta, .total delta]

/-- What a step does, and the steps the call has to make because of it. -/
def PendingStep.exec (cfg : Config) (s : State) : PendingStep → State × List PendingStep
  | .store room srcStr p =>
    if (room, srcStr) ∈ s.pendingRegs then
      ({ s with pendingRegs := s.pendingRegs.insert (room, srcStr) p }, [])
    else if s.counters.globalPendingBudgetReached cfg then (s, [])
    else
      ({ s with pendingRegs := s.pendingRegs.insert (room, srcStr) p },
        addPendingIPSteps (ipKey srcStr) 1)
  | .delete room srcStr =>
    if (room, srcStr) ∈ s.pendingRegs then
      ({ s with pendingRegs := s.pendingRegs.erase (room, srcStr) },
        addPendingIPSteps (ipKey srcStr) (-1))
    else (s, [])
  | .sweep now shard =>
    let stale := s.staleKeys now shard
    ({ s with pendingRegs := stale.foldl (fun m key => m.erase key) s.pendingRegs },
      (removedPerIP stale).entries.flatMap fun x => addPendingIPSteps x.1 (-x.2))
  | .count ip delta => ({ s with counters := s.counters.addPendingCount ip delta }, [])
  | .total delta => ({ s with counters := s.counters.addPendingTotal delta }, [])

def pendingNext (cfg : Config) (s : State) (_now : Int) :
    List PendingStep → Option (State × List PendingStep)
  | [] => none
  | a :: rest => some ((a.exec cfg s).1, (a.exec cfg s).2 ++ rest)

/-- Any number of calls, from a given state of the relay on. -/
def pendingPool (cfg : Config) (init : State) :
    Machine (Pool State (List PendingStep)) (Turn PendingCall) Unit :=
  Pool.machine PendingCall.start (pendingNext cfg) init

variable {cfg : Config} {now : Int} {s : State} {t : List PendingStep} {p : Pool State (List PendingStep)}

/-! ### A call on its own

Without interruption, a call does what it does in the model of one datagram at a time.
-/

def PendingCall.result (cfg : Config) (s : State) : PendingCall → State
  | .storePendingReg room srcStr p => (s.storePendingReg cfg room srcStr p).getD s
  | .deletePendingReg room srcStr => s.deletePendingReg room srcStr
  | .removeStalePendingRegs now => s.removeStalePendingRegs now

theorem PendingStep.alone (a : PendingStep) :
    Pool.Alone (pendingNext cfg) now (s, a :: t) ((a.exec cfg s).1, (a.exec cfg s).2 ++ t) :=
  .single rfl

theorem addPendingIPSteps_alone (ip : Bytes) (delta : Int) :
    Pool.Alone (pendingNext cfg) now (s, addPendingIPSteps ip delta ++ t)
      ({ s with counters := s.counters.addPendingIP ip delta }, t) := by
  rw [Counters.addPendingIP_eq]
  exact (PendingStep.alone _).trans (PendingStep.alone _)

theorem flatMap_addPendingIPSteps_alone (removed : List (Sigma fun _ : Bytes => Int)) (s : State) :
    Pool.Alone (pendingNext cfg) now
      (s, (removed.flatMap fun x => addPendingIPSteps x.1 (-x.2)) ++ t)
      ({ s with counters := removed.foldl (fun c x => c.addPendingIP x.1 (-x.2)) s.counters }, t) := by
  induction removed generalizing s with
  | nil => exact .refl
  | cons x removed ih =>
      rw [List.flatMap_cons, List.append_assoc]
      exact (addPendingIPSteps_alone _ _).trans (ih _)

theorem sweeps_alone (sweepNow : Int) (shards : List Nat) (s : State) :
    Pool.Alone (pendingNext cfg) now (s, shards.map (.sweep sweepNow))
      (shards.foldl (State.removeStaleShard sweepNow) s, []) := by
  induction shards generalizing s with
  | nil => exact .refl
  | cons n shards ih =>
      refine ((PendingStep.alone _).trans (flatMap_addPendingIPSteps_alone _ _)).trans ?_
      exact ih (State.removeStaleShard sweepNow s n)

theorem PendingCall.alone (c : PendingCall) :
    Pool.Alone (pendingNext cfg) now (s, c.start) (c.result cfg s, []) := by
  cases c with
  | storePendingReg room srcStr p =>
      refine (PendingStep.alone _).trans ?_
      simp only [PendingStep.exec, PendingCall.result, State.storePendingReg]
      split
      · exact .refl
      split
      · exact .refl
      · exact addPendingIPSteps_alone _ _
  | deletePendingReg room srcStr =>
      refine (PendingStep.alone _).trans ?_
      simp only [PendingStep.exec, PendingCall.result, State.deletePendingReg]
      split
      · exact addPendingIPSteps_alone _ _
      · exact .refl
  | removeStalePendingRegs now' => exact sweeps_alone now' _ s

theorem PendingCall.uninterrupted (c : PendingCall) {init : State} {i : Nat}
    (hi : p.threads[i]? = some c.start) : ∃ log, (pendingPool cfg init).Steps (fun _ _ _ => True) p log
      ⟨c.result cfg p.shared, p.threads.set i []⟩ := by
  have halone : Pool.Alone (pendingNext cfg) 0 (p.shared, c.start) (c.result cfg p.shared, []) := c.alone
  exact halone.steps rfl hi

/-! ### What is owed -/

def PendingStep.owesIP (ip : Bytes) : PendingStep → Int
  | .count ip' delta => if ip' = ip then delta else 0
  | _ => 0

def PendingStep.owesTotal : PendingStep → Int
  | .total delta => delta
  | _ => 0

/-- The steps that pay a counter. -/
def PendingStep.onCounter : PendingStep → Bool
  | .count _ _ | .total _ => true
  | _ => false

def owedIP (ip : Bytes) (t : List PendingStep) : Int := (t.map (PendingStep.owesIP ip)).sum

def owedTotal (t : List PendingStep) : Int := (t.map PendingStep.owesTotal).sum

@[simp] theorem owedIP_nil (ip : Bytes) : owedIP ip [] = 0 := rfl

@[simp] theorem owedTotal_nil : owedTotal [] = 0 := rfl

theorem owedIP_append (ip : Bytes) (t t' : List PendingStep) :
    owedIP ip (t ++ t') = owedIP ip t + owedIP ip t' := by
  simp [owedIP]

theorem owedTotal_append (t t' : List PendingStep) : owedTotal (t ++ t') = owedTotal t + owedTotal t' := by
  simp [owedTotal]

@[simp] theorem owedIP_addPendingIPSteps (ip ip' : Bytes) (delta : Int) :
    owedIP ip (addPendingIPSteps ip' delta) = if ip' = ip then delta else 0 := by
  simp [addPendingIPSteps, owedIP, PendingStep.owesIP]

@[simp] theorem owedTotal_addPendingIPSteps (ip : Bytes) (delta : Int) :
    owedTotal (addPendingIPSteps ip delta) = delta := by
  simp [addPendingIPSteps, owedTotal, PendingStep.owesTotal]

theorem owedTotal_flatMap (removed : List (Sigma fun _ : Bytes => Int)) :
    owedTotal (removed.flatMap fun x => addPendingIPSteps x.1 (-x.2)) =
      -(removed.map fun x => x.2).sum := by
  induction removed with
  | nil => rfl
  | cons x removed ih =>
      rw [List.flatMap_cons, owedTotal_append, ih, owedTotal_addPendingIPSteps, List.map_cons,
        List.sum_cons, Int.neg_add]

theorem owedIP_flatMap (ip : Bytes) (removed : List (Sigma fun _ : Bytes => Int))
    (hnodup : removed.NodupKeys) :
    owedIP ip (removed.flatMap fun x => addPendingIPSteps x.1 (-x.2)) =
      -(removed.dlookup ip).getD 0 := by
  induction removed with
  | nil => rfl
  | cons x removed ih =>
      obtain ⟨hnot, hnodup⟩ := List.nodupKeys_cons.mp hnodup
      rw [List.flatMap_cons, owedIP_append, ih hnodup, owedIP_addPendingIPSteps]
      by_cases heq : x.1 = ip
      · subst heq
        rw [List.dlookup_cons_eq, List.dlookup_eq_none.mpr hnot]
        simp
      · rw [List.dlookup_cons_ne _ _ (Ne.symm heq), if_neg heq, Int.zero_add]

theorem PendingStep.owesIP_of_rest (ip : Bytes) (a : PendingStep) (ha : a.onCounter = false) :
    a.owesIP ip = 0 := by
  cases a with
  | count => cases ha
  | _ => rfl

theorem PendingStep.owesTotal_of_rest (a : PendingStep) (ha : a.onCounter = false) :
    a.owesTotal = 0 := by
  cases a with
  | total => cases ha
  | _ => rfl

/-- What the count of the prefix swallows when the step would take it below zero. -/
def PendingStep.lost (ip : Bytes) (s : State) : PendingStep → Int
  | .count ip' delta => if ip' = ip then max 0 (-(s.counters.countPendingForIP ip + delta)) else 0
  | _ => 0

theorem PendingStep.lost_nonneg (ip : Bytes) (s : State) (a : PendingStep) : 0 ≤ a.lost ip s := by
  unfold lost
  split
  · split
    · exact Int.le_max_left _ _
    · exact Int.le_refl 0
  · exact Int.le_refl 0

/-! ### The balance of one step -/

theorem PendingStep.exec_total (cfg : Config) (s : State) (a : PendingStep) :
    (a.exec cfg s).1.counters.pendingTotal + owedTotal (a.exec cfg s).2 + s.pendingRegs.size =
      s.counters.pendingTotal + a.owesTotal + (a.exec cfg s).1.pendingRegs.size := by
  cases a with
  | store room srcStr p =>
      simp only [exec, owesTotal]
      split
      · rename_i hmem
        rw [GoMap.size_insert_of_mem p hmem]
        rfl
      split
      · rfl
      · rename_i hnew _
        have hsize := GoMap.size_insert_of_notMem p hnew
        dsimp only
        rw [owedTotal_addPendingIPSteps]
        omega
  | delete room srcStr =>
      simp only [exec, owesTotal]
      split
      · rename_i hmem
        have hsize := GoMap.size_erase_of_mem hmem
        dsimp only
        rw [owedTotal_addPendingIPSteps]
        omega
      · rfl
  | sweep sweepNow shard =>
      have hsize := s.size_stale sweepNow shard
      have hlength := total_removedPerIP (s.staleKeys sweepNow shard)
      simp only [exec, owesTotal, owedTotal_flatMap, GoMap.total] at hlength ⊢
      omega
  | count ip delta => rfl
  | total delta =>
      simp only [exec, owesTotal, Counters.addPendingTotal, owedTotal_nil]
      omega

theorem PendingStep.exec_ip (cfg : Config) (ip : Bytes) (s : State) (a : PendingStep) :
    (a.exec cfg s).1.counters.countPendingForIP ip + owedIP ip (a.exec cfg s).2 + s.storedForIP ip =
      s.counters.countPendingForIP ip + a.owesIP ip + (a.exec cfg s).1.storedForIP ip + a.lost ip s := by
  cases a with
  | store room srcStr p =>
      simp only [exec, owesIP, lost, State.storedForIP, Int.add_zero]
      split
      · rename_i hmem
        rw [GoMap.count_insert_of_mem _ p hmem, owedIP_nil, Int.add_zero]
      split
      · rw [owedIP_nil, Int.add_zero]
      · rename_i hnew _
        have hcount := GoMap.count_insert_of_notMem (fun key => ipKey key.2 = ip) p hnew
        simp only [decide_eq_true_eq] at hcount
        dsimp only
        rw [owedIP_addPendingIPSteps]
        by_cases heq : ipKey srcStr = ip
        · rw [if_pos heq] at hcount ⊢
          omega
        · rw [if_neg heq] at hcount ⊢
          omega
  | delete room srcStr =>
      simp only [exec, owesIP, lost, State.storedForIP, Int.add_zero]
      split
      · rename_i hmem
        have hcount := GoMap.count_erase_of_mem (fun key => ipKey key.2 = ip) hmem
        simp only [decide_eq_true_eq] at hcount
        dsimp only
        rw [owedIP_addPendingIPSteps]
        by_cases heq : ipKey srcStr = ip
        · rw [if_pos heq] at hcount ⊢
          omega
        · rw [if_neg heq] at hcount ⊢
          omega
      · rw [owedIP_nil, Int.add_zero]
  | sweep sweepNow shard =>
      have hcount := s.count_stale sweepNow shard fun key => ipKey key.2 = ip
      have hremoved := lookup_removedPerIP (s.staleKeys sweepNow shard) ip
      have howed := owedIP_flatMap ip (removedPerIP (s.staleKeys sweepNow shard)).entries
        (removedPerIP (s.staleKeys sweepNow shard)).nodupKeys
      simp only [exec, owesIP, lost, State.storedForIP]
      rw [howed]
      change _ + -((removedPerIP (s.staleKeys sweepNow shard)).lookup ip).getD 0 + _ = _
      omega
  | count ip' delta =>
      have hmax : (s.counters.addPendingCount ip' delta).countPendingForIP ip =
          if ip = ip' then max 0 (s.counters.countPendingForIP ip' + delta)
          else s.counters.countPendingForIP ip := Counters.countPendingForIP_addPendingIP_max
      simp only [exec, owesIP, lost, State.storedForIP, owedIP_nil]
      rw [hmax]
      by_cases heq : ip = ip'
      · subst heq
        rw [if_pos rfl, if_pos rfl, if_pos rfl]
        omega
      · rw [if_neg heq, if_neg (Ne.symm heq), if_neg (Ne.symm heq)]
        omega
  | total delta => simp [exec, owesIP, lost, Counters.countPendingForIP, Counters.addPendingTotal,
      State.storedForIP]

/-! ### All interleavings -/

/-- No call is between its map step and its last counter step. -/
def AtRest (p : Pool State (List PendingStep)) : Prop :=
  ∀ t ∈ p.threads, ∀ a ∈ t, PendingStep.onCounter a = false

instance (p : Pool State (List PendingStep)) : Decidable (AtRest p) :=
  inferInstanceAs (Decidable (∀ t ∈ p.threads, ∀ a ∈ t, _))

/-- The turn goes to a counter step that takes more from the count of a prefix than it has. -/
def underflows (p : Pool State (List PendingStep)) : Turn PendingCall → Bool
  | .run i =>
    match p.threads[i]? with
    | some (.count ip delta :: _) => p.shared.counters.countPendingForIP ip + delta < 0
    | _ => false
  | .call _ => false

theorem AtRest.sum_eq_zero (h : AtRest p) {f : PendingStep → Int}
    (hf : ∀ a, PendingStep.onCounter a = false → f a = 0) : p.sum (fun t => (t.map f).sum) = 0 := by
  apply List.sum_eq_zero
  intro x hx
  obtain ⟨t, ht, rfl⟩ := List.mem_map.mp hx
  apply List.sum_eq_zero
  intro y hy
  obtain ⟨a, ha, rfl⟩ := List.mem_map.mp hy
  exact hf a (h t ht a ha)

/-- A call owes nothing before its first step. -/
theorem PendingCall.owed_start (c : PendingCall) {f : PendingStep → Int}
    (hf : ∀ a, PendingStep.onCounter a = false → f a = 0) : (c.start.map f).sum = 0 := by
  apply List.sum_eq_zero
  intro x hx
  obtain ⟨a, ha, rfl⟩ := List.mem_map.mp hx
  apply hf
  cases c with
  | storePendingReg room srcStr p =>
      rw [List.mem_singleton.mp ha]
      rfl
  | deletePendingReg room srcStr =>
      rw [List.mem_singleton.mp ha]
      rfl
  | removeStalePendingRegs now =>
      obtain ⟨n, _, rfl⟩ := List.mem_map.mp ha
      rfl

/-- A step pays what it owes and takes on what it brings about. -/
theorem owed_step {i : Nat} {s : State} {t' : List PendingStep} (f : PendingStep → Int)
    (ht : p.threads[i]? = some t) (hnext : pendingNext cfg p.shared now t = some (s, t')) :
    ∃ a rest, t = a :: rest ∧ s = (a.exec cfg p.shared).1 ∧
      f a + Pool.sum (fun t => (t.map f).sum) ⟨s, p.threads.set i t'⟩ =
        ((a.exec cfg p.shared).2.map f).sum + p.sum fun t => (t.map f).sum := by
  cases t with
  | nil => cases hnext
  | cons a rest =>
      cases hnext
      refine ⟨a, rest, rfl, rfl, ?_⟩
      have hsum := Pool.sum_run (fun t => (t.map f).sum) (a.exec cfg p.shared).1
        ((a.exec cfg p.shared).2 ++ rest) ht
      simp only [List.map_cons, List.sum_cons, List.map_append, List.sum_append] at hsum
      omega

theorem PendingStep.lost_eq_zero {a : PendingStep} {rest : List PendingStep} {i : Nat}
    (ht : p.threads[i]? = some (a :: rest)) (hok : underflows p (.run i) = false) (ip : Bytes) :
    a.lost ip p.shared = 0 := by
  cases a with
  | count ip' delta =>
      simp only [underflows, ht, decide_eq_false_iff_not] at hok
      simp only [lost]
      split
      · rename_i heq
        rw [← heq]
        omega
      · rfl
  | _ => rfl

/-- How far the count of the prefix, with what is owed to it, is above what the store has. -/
def surplus (ip : Bytes) (p : Pool State (List PendingStep)) : Int :=
  p.shared.counters.countPendingForIP ip + p.sum (owedIP ip) - p.shared.storedForIP ip

theorem surplus_call (ip : Bytes) (p : Pool State (List PendingStep)) (c : PendingCall) :
    surplus ip { p with threads := p.threads ++ [c.start] } = surplus ip p := by
  have hstart : owedIP ip c.start = 0 := c.owed_start (PendingStep.owesIP_of_rest ip)
  simp only [surplus, Pool.sum_call, hstart, Int.add_zero]

theorem surplus_step {i : Nat} {s : State} {t' : List PendingStep} (ip : Bytes)
    (ht : p.threads[i]? = some t) (hnext : pendingNext cfg p.shared now t = some (s, t')) :
    ∃ a rest, t = a :: rest ∧
      surplus ip ⟨s, p.threads.set i t'⟩ = surplus ip p + a.lost ip p.shared := by
  obtain ⟨a, rest, heq, hs, hsum⟩ := owed_step (PendingStep.owesIP ip) ht hnext
  change _ + Pool.sum (owedIP ip) _ = owedIP ip _ + Pool.sum (owedIP ip) p at hsum
  have hexec := a.exec_ip cfg ip p.shared
  rw [← hs] at hexec
  refine ⟨a, rest, heq, ?_⟩
  simp only [surplus]
  omega

section

variable {init : State} {ok : Pool State (List PendingStep) → Int → Turn PendingCall → Prop}
  {log : List (LogEntry (Turn PendingCall) Unit)}

/-- With what is owed, the total is exact at every moment of every interleaving. -/
theorem total_balanced (hexact : Exact init) (hrun : (pendingPool cfg init).Run ok log p) :
    p.shared.counters.pendingTotal + p.sum owedTotal = p.shared.pendingRegs.size := by
  refine Pool.invariant
    (I := fun p => p.shared.counters.pendingTotal + p.sum owedTotal = p.shared.pendingRegs.size) hrun
    ((Int.add_zero _).trans hexact.store) (fun p c h => ?_) fun p now i t s t' h _ ht hnext => ?_
  · have hstart : owedTotal c.start = 0 := c.owed_start PendingStep.owesTotal_of_rest
    dsimp only
    rw [Pool.sum_call, hstart]
    omega
  · obtain ⟨a, rest, _, hs, hsum⟩ := owed_step PendingStep.owesTotal ht hnext
    change _ + Pool.sum owedTotal _ = owedTotal _ + Pool.sum owedTotal p at hsum
    have hexec := a.exec_total cfg p.shared
    rw [← hs] at hexec
    dsimp only
    omega

theorem surplus_init (hexact : Exact init) (ip : Bytes) :
    surplus ip (⟨init, []⟩ : Pool State (List PendingStep)) = 0 := by
  have hcount := hexact.storeIP ip
  simp only [surplus, Pool.sum, List.map_nil, List.sum_nil]
  omega

/-- Whatever the interleaving, a count that is wrong is too high. -/
theorem surplus_nonneg (hexact : Exact init) (hrun : (pendingPool cfg init).Run ok log p) (ip : Bytes) :
    0 ≤ surplus ip p := by
  refine Pool.invariant (I := fun p => 0 ≤ surplus ip p) hrun (surplus_init hexact ip).ge
    (fun p c h => ?_) fun p now i t s t' h _ ht hnext => ?_
  · rw [surplus_call]
    exact h
  · obtain ⟨a, _, _, heq⟩ := surplus_step ip ht hnext
    have hlost := a.lost_nonneg ip p.shared
    rw [heq]
    omega

theorem surplus_eq_zero (hexact : Exact init)
    (hrun : (pendingPool cfg init).Run (fun p _ e => underflows p e = false) log p) (ip : Bytes) :
    surplus ip p = 0 := by
  refine Pool.invariant (I := fun p => surplus ip p = 0) hrun (surplus_init hexact ip)
    (fun p c h => ?_) fun p now i t s t' h hok ht hnext => ?_
  · rw [surplus_call]
    exact h
  · obtain ⟨a, rest, rfl, heq⟩ := surplus_step ip ht hnext
    rw [heq, h, PendingStep.lost_eq_zero ht hok]
    rfl

end

/-- Calls on any keys, in any number and interleaved in any way: if none of their counter steps takes
more from the count of a prefix than it has, then whenever no call is between its map step and its last
counter step, the count of every prefix and the total are exact. -/
theorem pending_counts_of_no_underflow (cfg : Config) {init : State} (hexact : Exact init)
    {log : List (LogEntry (Turn PendingCall) Unit)} {p : Pool State (List PendingStep)}
    (hrun : (pendingPool cfg init).Run (fun p _ e => underflows p e = false) log p) (hrest : AtRest p) :
    (∀ ip, p.shared.counters.countPendingForIP ip = p.shared.storedForIP ip) ∧
      p.shared.counters.pendingTotal = p.shared.pendingRegs.size := by
  constructor
  · intro ip
    have hsurplus := surplus_eq_zero hexact hrun ip
    have howed : p.sum (owedIP ip) = 0 := hrest.sum_eq_zero (PendingStep.owesIP_of_rest ip)
    simp only [surplus] at hsurplus
    omega
  · have htotal := total_balanced hexact hrun
    have howed : p.sum owedTotal = 0 := hrest.sum_eq_zero PendingStep.owesTotal_of_rest
    omega

/-- One call stores the registration of a source, another deletes it. -/
def storeAndDelete : List (Int × Turn PendingCall) :=
  [(0, .call (.storePendingReg (ascii "r") (ascii "127.0.0.1:1")
    ⟨cookieOf 1, 0, ⟨[127, 0, 0, 1], 1, []⟩⟩)),
    (0, .call (.deletePendingReg (ascii "r") (ascii "127.0.0.1:1")))]

/-- The insertion has paid its count when the deletion pays. -/
theorem pending_counts_store_first : ∃ log p,
    (pendingPool .default .empty).Run (fun p _ e => underflows p e = false) log p ∧ AtRest p ∧
      p.threads = [[], []] ∧ (∀ ip, p.shared.counters.countPendingForIP ip = p.shared.storedForIP ip) ∧
      p.shared.counters.pendingTotal = p.shared.pendingRegs.size := by
  obtain ⟨log, hrun⟩ := Machine.Run.init.exec
    (show (pendingPool .default .empty).Admissible (fun p _ e => underflows p e = false) none
      ⟨.empty, []⟩ (storeAndDelete ++ [(0, .run 0), (0, .run 1), (0, .run 0), (0, .run 1), (0, .run 1),
        (0, .run 0)]) by decide +kernel)
  obtain ⟨hcount, htotal⟩ := pending_counts_of_no_underflow .default Exact.empty hrun (by decide +kernel)
  exact ⟨log, _, hrun, by decide +kernel, by decide +kernel, hcount, htotal⟩

/-- The deletion pays first and loses its payment: both calls have returned, the store is empty, and the
prefix has a count of one. -/
theorem pending_count_leaked : ∃ log p, (pendingPool .default .empty).Run (fun _ _ _ => True) log p ∧
    AtRest p ∧ p.shared.pendingRegs.size = 0 ∧
    p.shared.counters.countPendingForIP (ascii "127.0.0.1") = 1 ∧
    p.shared.storedForIP (ascii "127.0.0.1") = 0 := by
  obtain ⟨log, hrun⟩ := Machine.Run.init.exec
    (show (pendingPool .default .empty).Admissible (fun _ _ _ => True) none ⟨.empty, []⟩
      (storeAndDelete ++ [(0, .run 0), (0, .run 1), (0, .run 1), (0, .run 1), (0, .run 0), (0, .run 0)]) by
      decide +kernel)
  exact ⟨log, _, hrun, by decide +kernel, by decide +kernel, by decide +kernel, by decide +kernel⟩

end Qvole.Relay
