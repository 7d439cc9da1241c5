import Qvole.Lib.GoMap
import Qvole.Lib.Bytes
import Qvole.Lib.Window

/-!
# The drop-log limiter

A log line about a dropped packet costs the relay memory and disk, and the sources that cause it may be
spoofed. Three limits stand in a row: a number of lines for each second, a pause between two lines for
one source, and a cap on the sources that are remembered. All three hold over every run, whatever the
sources are and whenever the cleanup forgets them.
-/

namespace Qvole.Relay

open Lib

def maxDropLogEntries : Nat := 100000
def maxDropLogsPerSecond : Nat := 100

/-- `time.Second` in nanoseconds. -/
def timeSecond : Int := 1000000000

/-- `windowStart` is `none` for the zero time, which is more than a second before every clock. -/
structure IpRateLimiter where
  last : GoMap Bytes Int
  windowStart : Option Int
  windowCount : Nat
  maxEntries : Int
  maxPerSec : Int
  deriving DecidableEq

namespace IpRateLimiter

/-- A limiter with its overrides; zero stands for the defaults. -/
def fresh (maxEntries maxPerSec : Int) : IpRateLimiter := ⟨∅, none, 0, maxEntries, maxPerSec⟩

def perSec (l : IpRateLimiter) : Nat :=
  if l.maxPerSec ≤ 0 then maxDropLogsPerSecond else l.maxPerSec.toNat

def entryCap (l : IpRateLimiter) : Nat :=
  if l.maxEntries ≤ 0 then maxDropLogEntries else l.maxEntries.toNat

/-- The second of the current window is over. -/
def windowOver (now : Int) (l : IpRateLimiter) : Bool := l.windowStart.all fun start => timeSecond ≤ now - start

def restarted (now : Int) (l : IpRateLimiter) : IpRateLimiter := { l with windowStart := some now, windowCount := 0 }

/-- The limiter a call works on: a second that is over gives way to the next one. -/
def current (now : Int) (l : IpRateLimiter) : IpRateLimiter := if l.windowOver now then l.restarted now else l

def allow (now : Int) (ip : Bytes) (interval : Int) (l : IpRateLimiter) : Bool × IpRateLimiter :=
  let l := l.current now
  if l.perSec ≤ l.windowCount then (false, l)
  else if (l.last.lookup ip).any fun last => now - last < interval then (false, l)
  else if ip ∉ l.last ∧ l.entryCap ≤ l.last.size then (false, l)
  else (true, { l with last := l.last.insert ip now, windowCount := l.windowCount + 1 })

/-- One turn of the loop in `cleanupStale`. -/
def forget (now maxAge : Int) (last : GoMap Bytes Int) (ip : Bytes) : GoMap Bytes Int :=
  if (last.lookup ip).any fun t => maxAge < now - t then last.erase ip else last

def cleanupStale (now maxAge : Int) (l : IpRateLimiter) : IpRateLimiter :=
  { l with last := l.last.keys.foldl (forget now maxAge) l.last }

end IpRateLimiter

inductive DropEvent
  | allow (ip : Bytes)
  | cleanup
  deriving DecidableEq

/-- Calls with one interval, and cleanups with twice that interval, on a fresh limiter. -/
def dropLog (interval maxEntries maxPerSec : Int) : Machine IpRateLimiter DropEvent Bool where
  init := .fresh maxEntries maxPerSec
  step l now
    | .allow ip => ((l.allow now ip interval).2, [(l.allow now ip interval).1])
    | .cleanup => (l.cleanupStale now (2 * interval), [])

namespace IpRateLimiter

variable {now interval maxAge : Int} {ip k : Bytes} {l : IpRateLimiter}

/-! ### A call -/

/-- What a call can do: it is refused, or all three limits leave room and it is noted. -/
theorem allow_cases (now : Int) (ip : Bytes) (interval : Int) (l : IpRateLimiter) :
    l.allow now ip interval = (false, l.current now) ∨
    (l.allow now ip interval = (true, { l.current now with
        last := l.last.insert ip now, windowCount := (l.current now).windowCount + 1 }) ∧
      (l.current now).windowCount < l.perSec ∧ (∀ t ∈ l.last.lookup ip, t + interval ≤ now) ∧
      (ip ∈ l.last ∨ l.last.size < l.entryCap)) := by
  have hsame : (l.current now).last = l.last ∧ (l.current now).perSec = l.perSec ∧
      (l.current now).entryCap = l.entryCap := by
    rw [current]
    split <;> exact ⟨rfl, rfl, rfl⟩
  obtain ⟨hlast, hperSec, hcap⟩ := hsame
  rw [allow, hlast, hperSec, hcap]
  by_cases hbudget : l.perSec ≤ (l.current now).windowCount
  · rw [if_pos hbudget]
    exact Or.inl rfl
  rw [if_neg hbudget]
  by_cases hpause : ((l.last.lookup ip).any fun last => now - last < interval) = true
  · rw [if_pos hpause]
    exact Or.inl rfl
  rw [if_neg hpause]
  by_cases hfull : ip ∉ l.last ∧ l.entryCap ≤ l.last.size
  · rw [if_pos hfull]
    exact Or.inl rfl
  rw [if_neg hfull]
  refine Or.inr ⟨rfl, Nat.lt_of_not_le hbudget, fun t ht => ?_, ?_⟩
  · rw [Option.any_eq_true] at hpause
    by_contra hlate
    exact hpause ⟨t, ht, decide_eq_true (by omega)⟩
  · by_cases hmem : ip ∈ l.last
    · exact Or.inl hmem
    · exact Or.inr (Nat.lt_of_not_le fun hle => hfull ⟨hmem, hle⟩)

/-- A call that is refused leaves the limiter as it was, or has opened a new second. -/
theorem eq_of_refused (h : (l.allow now ip interval).1 = false) :
    (l.allow now ip interval).2 = l ∨
      l.windowOver now = true ∧ (l.allow now ip interval).2 = l.restarted now := by
  rcases allow_cases now ip interval l with heq | ⟨heq, _⟩
  · rw [heq, current]
    split
    · exact Or.inr ⟨‹_›, rfl⟩
    · exact Or.inl rfl
  · rw [heq] at h
    cases h

/-! ### A cleanup -/

/-- What a turn of the cleanup leaves of its entry. -/
def kept (now maxAge : Int) (entry : Option Int) : Option Int :=
  if entry.any fun t => maxAge < now - t then none else entry

theorem lookup_forget_self (last : GoMap Bytes Int) (ip : Bytes) :
    (forget now maxAge last ip).lookup ip = kept now maxAge (last.lookup ip) := by
  rw [forget, kept]
  split
  · exact AList.lookup_erase ip last
  · rfl

theorem lookup_forget_of_ne (last : GoMap Bytes Int) (hne : k ≠ ip) :
    (forget now maxAge last ip).lookup k = last.lookup k := by
  rw [forget]
  split
  · exact AList.lookup_erase_ne hne
  · rfl

theorem lookup_cleanupStale (now maxAge : Int) (l : IpRateLimiter) (k : Bytes) :
    (l.cleanupStale now maxAge).last.lookup k = kept now maxAge (l.last.lookup k) := by
  have hloop := foldl_own (fun k (last : GoMap Bytes Int) => last.lookup k) (fun _ => kept now maxAge)
    lookup_forget_self (fun last _ _ hne => lookup_forget_of_ne last hne) l.last.keys_nodup l.last k
  refine hloop.trans ?_
  split
  · rfl
  · rename_i hnot
    have hnone : l.last.lookup k = none := AList.lookup_eq_none.mpr hnot
    rw [hnone]
    rfl

theorem lookup_of_kept {entry : Option Int} {t : Int} (h : kept now maxAge entry = some t) : entry = some t := by
  rw [kept] at h
  split at h
  · cases h
  · exact h

theorem size_cleanupStale_le (now maxAge : Int) (l : IpRateLimiter) :
    (l.cleanupStale now maxAge).last.size ≤ l.last.size := by
  apply GoMap.size_mono
  intro k hk
  obtain ⟨t, ht⟩ := GoMap.lookup_of_mem hk
  rw [lookup_cleanupStale] at ht
  exact GoMap.mem_of_lookup (lookup_of_kept ht)

/-! ### The entries of a run -/

/-- The limits stay what they are, and the entries are within the cap. -/
structure Bounded (perSec entryCap : Nat) (l : IpRateLimiter) : Prop where
  perSec_eq : l.perSec = perSec
  entryCap_eq : l.entryCap = entryCap
  size_le : l.last.size ≤ entryCap

variable {perSec entryCap : Nat}

theorem Bounded.current (h : Bounded perSec entryCap l) : Bounded perSec entryCap (l.current now) := by
  rw [IpRateLimiter.current]
  split
  · exact ⟨h.perSec_eq, h.entryCap_eq, h.size_le⟩
  · exact h

theorem Bounded.allow (h : Bounded perSec entryCap l) : Bounded perSec entryCap (l.allow now ip interval).2 := by
  rcases allow_cases now ip interval l with heq | ⟨heq, _, _, hroom⟩
  · rw [heq]
    exact h.current
  · rw [heq]
    refine ⟨h.current.perSec_eq, h.current.entryCap_eq, ?_⟩
    show GoMap.size (l.last.insert ip now) ≤ entryCap
    by_cases hmem : ip ∈ l.last
    · rw [GoMap.size_insert_of_mem now hmem]
      exact h.size_le
    · rw [GoMap.size_insert_of_notMem now hmem, ← h.entryCap_eq]
      exact hroom.resolve_left hmem

theorem Bounded.cleanup (h : Bounded perSec entryCap l) : Bounded perSec entryCap (l.cleanupStale now maxAge) :=
  ⟨h.perSec_eq, h.entryCap_eq, le_trans (size_cleanupStale_le now maxAge l) h.size_le⟩

/-! ### The lines of a second -/

/-- The window of the second, in the terms of fixed windows. -/
def window (l : IpRateLimiter) : Option Window := l.windowStart.map fun start => ⟨start, l.windowCount⟩

theorem over_of_windowOver (h : l.windowOver now = true) : Window.Over timeSecond now l.window := by
  intro w hw
  obtain ⟨start, hstart, rfl⟩ := Option.map_eq_some_iff.mp hw
  rw [windowOver, hstart] at h
  have hle := of_decide_eq_true h
  dsimp only
  omega

/-- A call opens a new second if it may, and counts if it is allowed. -/
theorem allow_moves (hpos : 0 < l.perSec) : Window.Moves l.perSec timeSecond now (l.allow now ip interval).1
    l.window (l.allow now ip interval).2.window := by
  rcases allow_cases now ip interval l with heq | ⟨heq, hbudget, _⟩
  · rw [heq]
    dsimp only
    rw [IpRateLimiter.current]
    split
    · exact .restart (over_of_windowOver ‹_›)
    · exact .keep _
  · rw [heq]
    dsimp only
    rw [IpRateLimiter.current] at hbudget ⊢
    split at hbudget
    · rename_i hover
      rw [if_pos hover]
      exact .first hpos (over_of_windowOver hover)
    · rename_i hsame
      rw [if_neg hsame]
      cases hstart : l.windowStart with
      | none =>
          rw [windowOver, hstart] at hsame
          exact absurd rfl hsame
      | some start =>
          rw [window, window, hstart]
          exact .next start hbudget

theorem perSec_pos (l : IpRateLimiter) : 0 < l.perSec := by
  rw [IpRateLimiter.perSec, maxDropLogsPerSecond]
  split <;> omega

end IpRateLimiter

open IpRateLimiter

/-- A call for the source that was allowed. -/
def allowed (ip : Bytes) (x : LogEntry DropEvent Bool) : Bool := x.event = .allow ip && x.outs = [true]

/-- A call that was allowed, for any source. -/
def anyAllowed (x : LogEntry DropEvent Bool) : Bool := x.outs = [true]

variable {interval maxEntries maxPerSec now : Int} {ip : Bytes} {l : IpRateLimiter}
  {log : List (LogEntry DropEvent Bool)}

theorem dropLog_moves {perSec entryCap : Nat} (h : Bounded perSec entryCap l) (e : DropEvent) :
    Window.Moves perSec timeSecond now
      (anyAllowed ⟨now, e, ((dropLog interval maxEntries maxPerSec).step l now e).2⟩) l.window
      ((dropLog interval maxEntries maxPerSec).step l now e).1.window := by
  rw [← h.perSec_eq]
  cases e with
  | cleanup => exact .keep _
  | allow ip =>
      have hgrant : anyAllowed ⟨now, .allow ip, [(l.allow now ip interval).1]⟩ = (l.allow now ip interval).1 := by
        cases h : (l.allow now ip interval).1 <;> simp [anyAllowed]
      show Window.Moves l.perSec timeSecond now
        (anyAllowed ⟨now, .allow ip, [(l.allow now ip interval).1]⟩) _ (l.allow now ip interval).2.window
      rw [hgrant]
      exact allow_moves l.perSec_pos

theorem dropLog_bounded {perSec entryCap : Nat} (h : Bounded perSec entryCap l) (e : DropEvent) :
    Bounded perSec entryCap ((dropLog interval maxEntries maxPerSec).step l now e).1 := by
  cases e with
  | allow ip => exact h.allow
  | cleanup => exact h.cleanup

/-! ### The pause between two lines -/

/-- The lines of a source up to now: the last one is remembered, or a pause has passed since. -/
structure Spaced (interval : Int) (ip : Bytes) (now : Int) (log : List (LogEntry DropEvent Bool))
    (l : IpRateLimiter) : Prop where
  past : ∀ x ∈ log, x.time ≤ now
  known : ∀ x ∈ log, allowed ip x = true →
    (∃ t, l.last.lookup ip = some t ∧ x.time ≤ t) ∨ x.time + interval ≤ now
  apart : log.Pairwise fun y x => allowed ip y = true → allowed ip x = true → x.time + interval ≤ y.time

namespace Spaced

theorem later {t : Int} (h : Spaced interval ip now log l) (hle : now ≤ t) : Spaced interval ip t log l where
  past x hx := le_trans (h.past x hx) hle
  known x hx hok := (h.known x hx hok).imp_right fun hpause => le_trans hpause hle
  apart := h.apart

theorem past_cons {x : LogEntry DropEvent Bool} (h : Spaced interval ip now log l) (hx : x.time = now) :
    ∀ y ∈ x :: log, y.time ≤ now := by
  intro y hy
  rcases List.mem_cons.mp hy with rfl | hy
  · exact le_of_eq hx
  · exact h.past y hy

/-- A step that is no line of the source and keeps or forgets its entry. -/
theorem quiet {x : LogEntry DropEvent Bool} {l' : IpRateLimiter} (h : Spaced interval ip now log l)
    (hx : x.time = now) (hnot : allowed ip x = false)
    (hlast : l'.last.lookup ip = l.last.lookup ip ∨
      ∀ t, l.last.lookup ip = some t → ∀ before, before ≤ t → before ≤ now → before + interval ≤ now) :
    Spaced interval ip now (x :: log) l' where
  past := h.past_cons hx
  known y hy hok := by
    rcases List.mem_cons.mp hy with rfl | hy
    · rw [hnot] at hok
      cases hok
    · rcases h.known y hy hok with ⟨t, ht, hle⟩ | hpause
      · rcases hlast with heq | hold
        · exact Or.inl ⟨t, heq.trans ht, hle⟩
        · exact Or.inr (hold t ht y.time hle (h.past y hy))
      · exact Or.inr hpause
  apart := by
    refine List.pairwise_cons.mpr ⟨fun y _ hok => ?_, h.apart⟩
    rw [hnot] at hok
    cases hok

/-- A line of the source comes a pause behind all others. -/
theorem line {x : LogEntry DropEvent Bool} {l' : IpRateLimiter} (h : Spaced interval ip now log l)
    (hx : x.time = now) (hpause : ∀ t ∈ l.last.lookup ip, t + interval ≤ now)
    (hlast : l'.last.lookup ip = some now) : Spaced interval ip now (x :: log) l' where
  past := h.past_cons hx
  known y hy _ := Or.inl ⟨now, hlast, h.past_cons hx y hy⟩
  apart := by
    refine List.pairwise_cons.mpr ⟨fun y hy _ hok => ?_, h.apart⟩
    rw [hx]
    rcases h.known y hy hok with ⟨t, ht, hle⟩ | hdone
    · have := hpause t ht
      omega
    · exact hdone

theorem step (h : Spaced interval ip now log l) (e : DropEvent) :
    Spaced interval ip now (⟨now, e, ((dropLog interval maxEntries maxPerSec).step l now e).2⟩ :: log)
      ((dropLog interval maxEntries maxPerSec).step l now e).1 := by
  cases e with
  | cleanup =>
      refine h.quiet rfl rfl ?_
      show (l.cleanupStale now (2 * interval)).last.lookup ip = l.last.lookup ip ∨ _
      rw [lookup_cleanupStale, kept]
      split
      · rename_i hstale
        -- what is forgotten is two pauses old
        refine Or.inr fun t ht before hbefore hpast => ?_
        rw [ht] at hstale
        have hold := of_decide_eq_true hstale
        omega
      · exact Or.inl rfl
  | allow ip' =>
      show Spaced interval ip now (⟨now, .allow ip', [(l.allow now ip' interval).1]⟩ :: log)
        (l.allow now ip' interval).2
      rcases allow_cases now ip' interval l with heq | ⟨heq, _, hpause, _⟩
      · rw [heq]
        refine h.quiet rfl (by simp [allowed]) (Or.inl ?_)
        dsimp only
        rw [current]
        split <;> rfl
      · rw [heq]
        by_cases hip : ip' = ip
        · subst hip
          exact h.line rfl hpause (AList.lookup_insert _)
        · exact h.quiet rfl (by simp [allowed, hip]) (Or.inl (AList.lookup_insert_ne (Ne.symm hip)))

end Spaced

/-- Over every run of calls and cleanups on a fresh limiter, the entries stay within the cap, no interval
shorter than a second has more than twice the lines of a second, and two lines for one source are a pause
apart. A call that is refused changes nothing, or only opens a new second. -/
theorem dropLog_bounds (interval maxEntries maxPerSec : Int) :
    (∀ log l, (dropLog interval maxEntries maxPerSec).Run (fun _ _ _ => True) log l →
      l.last.size ≤ (fresh maxEntries maxPerSec).entryCap ∧
      (∀ a b, b - a < timeSecond →
        log.countP (fun x => anyAllowed x && decide (a ≤ x.time ∧ x.time ≤ b)) ≤
          2 * (fresh maxEntries maxPerSec).perSec) ∧
      ∀ ip, log.Pairwise fun y x => allowed ip y = true → allowed ip x = true → interval ≤ y.time - x.time) ∧
    ∀ (l : IpRateLimiter) now ip, (l.allow now ip interval).1 = false →
      (l.allow now ip interval).2 = l ∨
        l.windowOver now = true ∧ (l.allow now ip interval).2 = { l with windowStart := some now, windowCount := 0 } := by
  refine ⟨fun log l hrun => ?_, fun l now ip => eq_of_refused⟩
  have hinit : Bounded (fresh maxEntries maxPerSec).perSec (fresh maxEntries maxPerSec).entryCap
      (dropLog interval maxEntries maxPerSec).init := ⟨rfl, rfl, Nat.zero_le _⟩
  have hstep (l : IpRateLimiter) (now : Int) (e : DropEvent)
      (h : Bounded (fresh maxEntries maxPerSec).perSec (fresh maxEntries maxPerSec).entryCap l) (_ : True) :
      Bounded (fresh maxEntries maxPerSec).perSec (fresh maxEntries maxPerSec).entryCap
        ((dropLog interval maxEntries maxPerSec).step l now e).1 := dropLog_bounded h e
  refine ⟨(hrun.invariant hinit hstep).size_le, fun a b hab => ?_, fun ip => ?_⟩
  · exact Window.run_bound (hrun.strengthen hinit hstep) window anyAllowed
      (fun l now e hok => dropLog_moves hok.2 e) (by omega)
  · obtain ⟨now, hnow⟩ := Machine.exists_clock log
    have hspaced : Spaced interval ip now log l := hrun.invariant_log_clock (I := Spaced interval ip)
      (fun _ => ⟨fun _ h => (nomatch h), fun _ h => (nomatch h), .nil⟩) (fun _ _ _ _ hle h => h.later hle)
      (fun _ _ _ e h _ => h.step e) now hnow
    refine hspaced.apart.imp fun hapart hy hx => ?_
    have := hapart hy hx
    omega

/-- Three sources within a second, with two lines for each second. -/
def threeDrops : List (Int × DropEvent) :=
  [(0, .allow (ascii "10.0.0.1")), (0, .allow (ascii "10.0.0.2")), (1, .cleanup), (1, .allow (ascii "10.0.0.3"))]

theorem dropLog_bounds_three :
    ((dropLog timeSecond 0 2).exec (fresh 0 2) threeDrops).last.size ≤ 100000 ∧
    ((dropLog timeSecond 0 2).execLog (fresh 0 2) threeDrops).countP (fun x =>
      anyAllowed x && decide (0 ≤ x.time ∧ x.time ≤ 1)) ≤ 4 ∧
    (((dropLog timeSecond 0 2).exec (fresh 0 2) threeDrops).allow 1 (ascii "10.0.0.3") timeSecond).1 = false ∧
    (((dropLog timeSecond 0 2).exec (fresh 0 2) threeDrops).allow 1 (ascii "10.0.0.3") timeSecond).2 =
      (dropLog timeSecond 0 2).exec (fresh 0 2) threeDrops := by
  have hadm : (dropLog timeSecond 0 2).Admissible (fun _ _ _ => True) none (fresh 0 2) threeDrops := by
    decide +kernel
  have hrun := Machine.Run.init.execLog hadm
  rw [List.append_nil] at hrun
  have hrefused : (((dropLog timeSecond 0 2).exec (fresh 0 2) threeDrops).allow 1 (ascii "10.0.0.3")
      timeSecond).1 = false := by decide +kernel
  have hsecond : ((dropLog timeSecond 0 2).exec (fresh 0 2) threeDrops).windowOver 1 = false := by decide +kernel
  obtain ⟨hruns, hsame⟩ := dropLog_bounds timeSecond 0 2
  obtain ⟨hsize, hlines, _⟩ := hruns _ _ hrun
  refine ⟨hsize, hlines 0 1 (by decide), hrefused, (hsame _ _ _ hrefused).resolve_right fun hover => ?_⟩
  rw [hsecond] at hover
  exact Bool.false_ne_true hover.1

end Qvole.Relay
