import Mathlib.Data.Multiset.OrderedMonoid
import Mathlib.Tactic.Abel
import Qvole.Lib.BufferPool
import Qvole.Lib.Pool
import Qvole.Relay.Rates

/-!
# From the socket to the handlers and back

`RunRelay` reads one datagram after the other, copies it into a pooled buffer and puts it on a bounded
channel, or drops it if the channel is full. Workers take datagrams from the channel, handle them and put
the buffer back into the pool. What a handler sends goes out from a goroutine of its own, if one of the
`writePoolSize` places is free, and is dropped otherwise.

Who moves next is up to the scheduler, the network and the pool, so their choices are the inputs of the
machine. What the handlers do to the tables is a parameter: any steps, of whatever grain, that may wait for
each other and look at the packet as often as they like. So nothing here rests on a handler being one step,
and it holds for all interleavings that the locks of `handlePacket` admit. Read errors, which end the loop,
are left out.

No datagram is altered, doubled or lost on the way in except where the code counts a drop, and none on the
way out except where the code counts a drop or the write fails.
-/

namespace Qvole.Relay

open Lib

def readBufSize : Nat := 1500

structure PipelineConfig where
  pktChanBuf : Nat := 256
  writePoolSize : Nat := 256
  relayWorkers : Nat := 4

abbrev Datagram := Bytes × UDPAddr

/-- What `handlePacket` and the tickers do to the tables `σ`. A step of a handler sees the packet and the
random bytes it asks for. It may have to wait, and it may write datagrams. -/
structure Handler (σ τ κ β : Type) where
  tables : σ
  start : τ
  next : σ → Int → κ → Datagram → τ → Option (σ × τ × List Datagram)
  finished : τ → Bool
  tick : σ → Int → β → σ

/-- A `pkt`: the first `len` bytes of a pooled buffer, and where they came from. -/
structure Pkt where
  buf : Nat
  len : Nat
  src : UDPAddr
  deriving DecidableEq

/-- Between two packets, or in the handler of one, with what the handler has written and not yet sent. -/
inductive RelayWorker (τ : Type)
  | idle
  | handling (p : Pkt) (t : τ) (rest : List Datagram)

structure Server (σ : Type) where
  tables : σ
  readPool : BufferPool
  pktCh : List Pkt
  writers : List Datagram

abbrev Pipeline (σ τ : Type) := Pool (Server σ) (RelayWorker τ)

/-- The loop reads a datagram; a worker makes its next move; a writer is done, and its write went well or
failed; the pool loses a buffer; a ticker fires. -/
inductive Move (κ β : Type)
  | read (data : Bytes) (src : UDPAddr) (pick : Option Nat)
  | receive (w : Nat)
  | handle (w : Nat) (choice : κ)
  | send (w : Nat)
  | release (w : Nat)
  | written (i : Nat) (ok : Bool)
  | collect (i : Nat)
  | tick (e : β)

/-- What can be seen of a move: a datagram dropped before it was handled, one whose handler is done with it,
what a handler wrote, and what became of that. -/
inductive PipeEffect
  | refused (d : Datagram)
  | handled (d : Datagram)
  | wrote (ds : List Datagram)
  | unsent (d : Datagram)
  | wire (d : Datagram)
  | failed (d : Datagram)

section

variable {σ τ κ β : Type}

def Pkt.data (bufs : Buffers) (p : Pkt) : Bytes := (bufs.read p.buf).take p.len

def Server.datagram (s : Server σ) (p : Pkt) : Datagram := (p.data s.readPool.bufs, p.src)

variable (H : Handler σ τ κ β) (pc : PipelineConfig)

/-- The body of the read loop. A datagram longer than the buffer is cut off by the read. -/
def Server.read (data : Bytes) (src : UDPAddr) (pick : Option Nat) (s : Server σ) :
    Server σ × List PipeEffect :=
  let data := data.take readBufSize
  let (b, pool) := s.readPool.get readBufSize pick
  let pool := pool.write b data
  if s.pktCh.length < pc.pktChanBuf then
    ({ s with readPool := pool, pktCh := s.pktCh ++ [⟨b, data.length, src⟩] }, [])
  else
    ({ s with readPool := pool.put b }, [.refused (data, src)])

/-- `writeRelay` with a pool. -/
def Server.writeRelay (d : Datagram) (s : Server σ) : Server σ × List PipeEffect :=
  if s.writers.length < pc.writePoolSize then ({ s with writers := s.writers ++ [d] }, [])
  else (s, [.unsent d])

def pipelineStep (p : Pipeline σ τ) (now : Int) : Move κ β → Pipeline σ τ × List PipeEffect
  | .read data src pick =>
    let (s, effects) := p.shared.read pc data src pick
    (⟨s, p.threads⟩, effects)
  | .receive w =>
    match p.threads[w]?, p.shared.pktCh with
    | some .idle, pkt :: rest =>
      (⟨{ p.shared with pktCh := rest }, p.threads.set w (.handling pkt H.start [])⟩, [])
    | _, _ => (p, [])
  | .handle w choice =>
    match p.threads[w]? with
    | some (.handling pkt t []) =>
      match H.next p.shared.tables now choice (p.shared.datagram pkt) t with
      | some (tables, t', ds) =>
        (⟨{ p.shared with tables }, p.threads.set w (.handling pkt t' ds)⟩, [.wrote ds])
      | none => (p, [])
    | _ => (p, [])
  | .send w =>
    match p.threads[w]? with
    | some (.handling pkt t (d :: rest)) =>
      let (s, effects) := p.shared.writeRelay pc d
      (⟨s, p.threads.set w (.handling pkt t rest)⟩, effects)
    | _ => (p, [])
  | .release w =>
    match p.threads[w]? with
    | some (.handling pkt t []) =>
      if H.finished t then
        (⟨{ p.shared with readPool := p.shared.readPool.put pkt.buf }, p.threads.set w .idle⟩,
          [.handled (p.shared.datagram pkt)])
      else (p, [])
    | _ => (p, [])
  | .written i ok =>
    match p.shared.writers[i]? with
    | some d =>
      (⟨{ p.shared with writers := p.shared.writers.eraseIdx i }, p.threads⟩,
        [if ok then .wire d else .failed d])
    | none => (p, [])
  | .collect i => (⟨{ p.shared with readPool := p.shared.readPool.collect i }, p.threads⟩, [])
  | .tick e => (⟨{ p.shared with tables := H.tick p.shared.tables now e }, p.threads⟩, [])

def runRelay : Machine (Pipeline σ τ) (Move κ β) PipeEffect where
  init := ⟨⟨H.tables, ⟨[], []⟩, [], []⟩, List.replicate pc.relayWorkers .idle⟩
  step := pipelineStep H pc

/-! ### What a move can do -/

variable {H pc} {now : Int} {p p' : Pipeline σ τ} {m : Move κ β} {effects : List PipeEffect}

variable (H pc now p) in
inductive Moved : Move κ β → Pipeline σ τ → List PipeEffect → Prop
  | idle {m : Move κ β} (hm : ∀ data src pick, m ≠ .read data src pick) : Moved m p []
  | queued {data : Bytes} {src : UDPAddr} {pick : Option Nat} {b : Nat} {pool : BufferPool}
      (hget : p.shared.readPool.get readBufSize pick = (b, pool))
      (hroom : p.shared.pktCh.length < pc.pktChanBuf) :
      Moved (.read data src pick)
        ⟨{ p.shared with
            readPool := pool.write b (data.take readBufSize)
            pktCh := p.shared.pktCh ++ [⟨b, (data.take readBufSize).length, src⟩] }, p.threads⟩ []
  | refused {data : Bytes} {src : UDPAddr} {pick : Option Nat} {b : Nat} {pool : BufferPool}
      (hget : p.shared.readPool.get readBufSize pick = (b, pool)) :
      Moved (.read data src pick)
        ⟨{ p.shared with readPool := (pool.write b (data.take readBufSize)).put b }, p.threads⟩
        [.refused (data.take readBufSize, src)]
  | received {w : Nat} {pkt : Pkt} {rest : List Pkt} (hw : p.threads[w]? = some .idle)
      (hch : p.shared.pktCh = pkt :: rest) :
      Moved (.receive w) ⟨{ p.shared with pktCh := rest }, p.threads.set w (.handling pkt H.start [])⟩ []
  | stepped {w : Nat} {pkt : Pkt} {choice : κ} {t t' : τ} {tables : σ} {ds : List Datagram}
      (hw : p.threads[w]? = some (.handling pkt t []))
      (hnext : H.next p.shared.tables now choice (p.shared.datagram pkt) t = some (tables, t', ds)) :
      Moved (.handle w choice) ⟨{ p.shared with tables }, p.threads.set w (.handling pkt t' ds)⟩ [.wrote ds]
  | sent {w : Nat} {pkt : Pkt} {t : τ} {d : Datagram} {rest : List Datagram}
      (hw : p.threads[w]? = some (.handling pkt t (d :: rest)))
      (hroom : p.shared.writers.length < pc.writePoolSize) :
      Moved (.send w) ⟨{ p.shared with writers := p.shared.writers ++ [d] },
        p.threads.set w (.handling pkt t rest)⟩ []
  | unsent {w : Nat} {pkt : Pkt} {t : τ} {d : Datagram} {rest : List Datagram}
      (hw : p.threads[w]? = some (.handling pkt t (d :: rest))) :
      Moved (.send w) ⟨p.shared, p.threads.set w (.handling pkt t rest)⟩ [.unsent d]
  | released {w : Nat} {pkt : Pkt} {t : τ} (hw : p.threads[w]? = some (.handling pkt t []))
      (hfinished : H.finished t = true) :
      Moved (.release w) ⟨{ p.shared with readPool := p.shared.readPool.put pkt.buf },
        p.threads.set w .idle⟩ [.handled (p.shared.datagram pkt)]
  | written {i : Nat} {ok : Bool} {d : Datagram} (hi : p.shared.writers[i]? = some d) :
      Moved (.written i ok) ⟨{ p.shared with writers := p.shared.writers.eraseIdx i }, p.threads⟩
        [if ok then .wire d else .failed d]
  | collected {i : Nat} :
      Moved (.collect i) ⟨{ p.shared with readPool := p.shared.readPool.collect i }, p.threads⟩ []
  | ticked {e : β} :
      Moved (.tick e) ⟨{ p.shared with tables := H.tick p.shared.tables now e }, p.threads⟩ []

variable (H pc) in
theorem pipelineStep_moved (now : Int) (p : Pipeline σ τ) (m : Move κ β) :
    Moved H pc now p m (pipelineStep H pc p now m).1 (pipelineStep H pc p now m).2 := by
  cases m with
  | read data src pick =>
      simp only [pipelineStep, Server.read]
      split
      · rename_i hroom
        exact .queued rfl hroom
      · exact .refused rfl
  | receive w =>
      simp only [pipelineStep]
      split
      · rename_i hw hch
        exact .received hw hch
      · exact .idle (by simp)
  | handle w choice =>
      simp only [pipelineStep]
      split
      · rename_i hw
        split
        · rename_i hnext
          exact .stepped hw hnext
        · exact .idle (by simp)
      · exact .idle (by simp)
  | send w =>
      simp only [pipelineStep, Server.writeRelay]
      split
      · rename_i hw
        split
        · rename_i hroom
          exact .sent hw hroom
        · exact .unsent hw
      · exact .idle (by simp)
  | release w =>
      simp only [pipelineStep]
      split
      · rename_i hw
        split
        · rename_i hfinished
          exact .released hw hfinished
        · exact .idle (by simp)
      · exact .idle (by simp)
  | written i ok =>
      simp only [pipelineStep]
      split
      · rename_i hi
        exact .written hi
      · exact .idle (by simp)
  | collect i => exact .collected
  | tick e => exact .ticked

/-! ### The places a datagram can be in -/

def RelayWorker.pkts : RelayWorker τ → Multiset Pkt
  | .idle => 0
  | .handling pkt _ _ => {pkt}

/-- What the worker has still to send. -/
def RelayWorker.rest : RelayWorker τ → Multiset Datagram
  | .idle => 0
  | .handling _ _ rest => ↑rest

namespace Pipeline

/-- The packets whose buffers are out: in the channel or in the hands of a worker. -/
def pkts (p : Pipeline σ τ) : Multiset Pkt := ↑p.shared.pktCh + Pool.sum RelayWorker.pkts p

def held (p : Pipeline σ τ) : Multiset Nat := p.pkts.map Pkt.buf

/-- What these packets are at the moment. -/
def waiting (p : Pipeline σ τ) : Multiset Datagram := p.pkts.map p.shared.datagram

/-- The datagrams that are being sent or will be. -/
def leaving (p : Pipeline σ τ) : Multiset Datagram := ↑p.shared.writers + Pool.sum RelayWorker.rest p

end Pipeline

abbrev PipelineLog (κ β : Type) := List (LogEntry (Move κ β) PipeEffect)

def Move.arrived : Move κ β → Multiset Datagram
  | .read data src _ => {(data.take readBufSize, src)}
  | _ => 0

namespace PipeEffect

def completed : PipeEffect → Multiset Datagram
  | .handled d => {d}
  | _ => 0

def refusals : PipeEffect → Multiset Datagram
  | .refused d => {d}
  | _ => 0

def writes : PipeEffect → Multiset Datagram
  | .wrote ds => ↑ds
  | _ => 0

def wires : PipeEffect → Multiset Datagram
  | .wire d => {d}
  | _ => 0

def losses : PipeEffect → Multiset Datagram
  | .unsent d => {d}
  | _ => 0

def failures : PipeEffect → Multiset Datagram
  | .failed d => {d}
  | _ => 0

end PipeEffect

def arrivals (log : PipelineLog κ β) : Multiset Datagram := (log.map fun x => x.event.arrived).sum

/-- The datagrams of one kind of effect in the whole log. -/
def tally (f : PipeEffect → Multiset Datagram) (log : PipelineLog κ β) : Multiset Datagram :=
  (log.map fun x => (x.outs.map f).sum).sum

theorem tally_cons (f : PipeEffect → Multiset Datagram) (x : LogEntry (Move κ β) PipeEffect)
    (log : PipelineLog κ β) : tally f (x :: log) = (x.outs.map f).sum + tally f log := by
  rw [tally, List.map_cons, List.sum_cons, tally]

theorem arrivals_cons (x : LogEntry (Move κ β) PipeEffect) (log : PipelineLog κ β) :
    arrivals (x :: log) = x.event.arrived + arrivals log := by
  rw [arrivals, List.map_cons, List.sum_cons, arrivals]

/-! ### Buffers have one owner -/

/-- Every buffer that is out is out once, and is long enough for its packet. -/
structure Pipeline.Tidy (p : Pipeline σ τ) : Prop where
  owned : p.shared.readPool.Owned readBufSize p.held
  fits : ∀ pkt ∈ p.pkts, pkt.len ≤ readBufSize

theorem Pipeline.Tidy.of_eq (h : p.Tidy) (hpool : p'.shared.readPool = p.shared.readPool)
    (hpkts : p'.pkts = p.pkts) : p'.Tidy := by
  refine ⟨?_, ?_⟩
  · rw [hpool, Pipeline.held, hpkts]
    exact h.owned
  · rw [hpkts]
    exact h.fits

theorem coe_append_singleton {α : Type} (l : List α) (a : α) : (↑(l ++ [a]) : Multiset α) = a ::ₘ ↑l :=
  Multiset.coe_eq_coe.mpr (List.perm_append_singleton a l)

theorem add_singleton_eq {α : Type} (m : Multiset α) (a : α) : m + {a} = a ::ₘ m + 0 := by
  rw [add_zero, add_comm, Multiset.singleton_add]

/-- The loop gets one packet out. -/
theorem Pipeline.pkts_queued (p : Pipeline σ τ) (pool : BufferPool) (pkt : Pkt) :
    Pipeline.pkts (⟨{ p.shared with readPool := pool, pktCh := p.shared.pktCh ++ [pkt] }, p.threads⟩ :
      Pipeline σ τ) = pkt ::ₘ p.pkts := by
  rw [Pipeline.pkts, coe_append_singleton, Multiset.cons_add]
  rfl

/-- The worker puts it back. -/
theorem Pipeline.pkts_released {w : Nat} {pkt : Pkt} {t : τ} {rest : List Datagram}
    (hw : p.threads[w]? = some (.handling pkt t rest)) (pool : BufferPool) :
    pkt ::ₘ Pipeline.pkts ⟨{ p.shared with readPool := pool }, p.threads.set w .idle⟩ = p.pkts := by
  rw [Pipeline.pkts, ← Multiset.cons_add]
  exact Pool.add_sum_run _ hw (add_singleton_eq ↑p.shared.pktCh pkt).symm

theorem Moved.tidy (h : Moved H pc now p m p' effects) (htidy : p.Tidy) : p'.Tidy := by
  cases h with
  | idle => exact htidy
  | @queued data src pick b pool hget =>
      have hgot := (htidy.owned.get pick).1
      rw [hget] at hgot
      refine ⟨?_, ?_⟩
      · rw [Pipeline.held, Pipeline.pkts_queued, Multiset.map_cons]
        exact hgot.write b (List.length_take_le _ _)
      · rw [Pipeline.pkts_queued]
        intro pkt hpkt
        rcases Multiset.mem_cons.mp hpkt with rfl | hpkt
        · exact List.length_take_le _ _
        · exact htidy.fits pkt hpkt
  | @refused data src pick b pool hget =>
      have hgot := (htidy.owned.get pick).1
      rw [hget] at hgot
      exact ⟨(hgot.write b (List.length_take_le _ _)).put, htidy.fits⟩
  | @received w pkt rest hw hch =>
      refine htidy.of_eq rfl (Pool.add_sum_run _ hw ?_)
      rw [hch]
      exact add_singleton_eq ↑rest pkt
  | stepped hw => exact htidy.of_eq rfl (Pool.add_sum_run _ hw rfl)
  | sent hw => exact htidy.of_eq rfl (Pool.add_sum_run _ hw rfl)
  | unsent hw => exact htidy.of_eq rfl (Pool.add_sum_run _ hw rfl)
  | @released w pkt t hw =>
      have hpkts := Pipeline.pkts_released hw (p.shared.readPool.put pkt.buf)
      refine ⟨?_, ?_⟩
      · apply BufferPool.Owned.put
        have howned := htidy.owned
        rw [Pipeline.held, ← hpkts, Multiset.map_cons] at howned
        exact howned
      · intro pkt' hpkt
        apply htidy.fits pkt'
        rw [← hpkts]
        exact Multiset.mem_cons_of_mem hpkt
  | written => exact htidy.of_eq rfl rfl
  | collected => exact ⟨htidy.owned.collect _, htidy.fits⟩
  | ticked => exact htidy.of_eq rfl rfl

/-! ### What comes in -/

theorem Move.arrived_of_ne_read (hm : ∀ data src pick, m ≠ .read data src pick) : m.arrived = 0 := by
  cases m with
  | read data src pick => exact absurd rfl (hm data src pick)
  | _ => rfl

theorem Server.datagram_congr {s s' : Server σ} {pkt : Pkt}
    (hread : s'.readPool.bufs.read pkt.buf = s.readPool.bufs.read pkt.buf) :
    s'.datagram pkt = s.datagram pkt := by
  rw [Server.datagram, Server.datagram, Pkt.data, Pkt.data, hread]

/-- The loop writes to no buffer that somebody else has. -/
theorem Moved.datagram (h : Moved H pc now p m p' effects) (htidy : p.Tidy) {pkt : Pkt}
    (hpkt : pkt ∈ p.pkts) : p'.shared.datagram pkt = p.shared.datagram pkt := by
  have hbuf : pkt.buf ∈ p.held := Multiset.mem_map_of_mem _ hpkt
  cases h with
  | @queued data src pick b pool hget =>
      obtain ⟨hgot, hread⟩ := htidy.owned.get pick
      rw [hget] at hgot hread
      have hne : pkt.buf ≠ b := fun heq => hgot.notMem (heq ▸ hbuf)
      exact Server.datagram_congr ((BufferPool.read_write_ne hne).trans (hread _ hbuf))
  | @refused data src pick b pool hget =>
      obtain ⟨hgot, hread⟩ := htidy.owned.get pick
      rw [hget] at hgot hread
      have hne : pkt.buf ≠ b := fun heq => hgot.notMem (heq ▸ hbuf)
      exact Server.datagram_congr ((BufferPool.read_write_ne hne).trans (hread _ hbuf))
  | _ => exact Server.datagram_congr rfl

theorem Moved.map_datagram (h : Moved H pc now p m p' effects) (htidy : p.Tidy) :
    p.pkts.map p'.shared.datagram = p.waiting :=
  Multiset.map_congr rfl fun _ hpkt => h.datagram htidy hpkt

theorem Moved.waiting_eq (h : Moved H pc now p m p' effects) (htidy : p.Tidy) (hsame : p'.pkts = p.pkts) :
    p'.waiting = p.waiting := by
  rw [Pipeline.waiting, hsame, h.map_datagram htidy]

theorem Moved.waiting_cons (h : Moved H pc now p m p' effects) (htidy : p.Tidy) {pkt : Pkt}
    (hpkts : p'.pkts = pkt ::ₘ p.pkts) : p'.waiting = p'.shared.datagram pkt ::ₘ p.waiting := by
  rw [Pipeline.waiting, hpkts, Multiset.map_cons, h.map_datagram htidy]

theorem Moved.waiting_of_cons (h : Moved H pc now p m p' effects) (htidy : p.Tidy) {pkt : Pkt}
    (hpkts : pkt ::ₘ p'.pkts = p.pkts) : p.waiting = p.shared.datagram pkt ::ₘ p'.waiting := by
  rw [← h.map_datagram htidy, ← hpkts, Multiset.map_cons,
    h.datagram htidy (hpkts ▸ Multiset.mem_cons_self pkt p'.pkts), Pipeline.waiting]

/-- What was waiting or has just come in has been handled or refused, or is still waiting. -/
theorem Moved.arrived (h : Moved H pc now p m p' effects) (htidy : p.Tidy) :
    m.arrived + p.waiting = (effects.map PipeEffect.completed).sum + p'.waiting +
      (effects.map PipeEffect.refusals).sum := by
  have hmoved := h
  cases h with
  | idle hm => simp [Move.arrived_of_ne_read hm]
  | @queued data src pick b pool hget =>
      have hgot := (htidy.owned.get pick).1
      rw [hget] at hgot
      have hnew : ((pool.write b (data.take readBufSize)).bufs.read b).take (data.take readBufSize).length =
          data.take readBufSize := BufferPool.take_read_write (hgot.lt (Multiset.mem_cons_self b _))
      rw [hmoved.waiting_cons htidy (p.pkts_queued _ _), Server.datagram, Pkt.data, hnew]
      simp [Move.arrived]
  | refused =>
      rw [hmoved.waiting_eq htidy rfl]
      simp [Move.arrived, PipeEffect.completed, PipeEffect.refusals, add_comm]
  | @received w pkt rest hw hch =>
      rw [hmoved.waiting_eq htidy (Pool.add_sum_run _ hw ?_)]
      · simp [Move.arrived]
      · rw [hch]
        exact add_singleton_eq ↑rest pkt
  | stepped hw =>
      rw [hmoved.waiting_eq htidy (Pool.add_sum_run _ hw rfl)]
      simp [Move.arrived, PipeEffect.completed, PipeEffect.refusals]
  | sent hw =>
      rw [hmoved.waiting_eq htidy (Pool.add_sum_run _ hw rfl)]
      simp [Move.arrived]
  | unsent hw =>
      rw [hmoved.waiting_eq htidy (Pool.add_sum_run _ hw rfl)]
      simp [Move.arrived, PipeEffect.completed, PipeEffect.refusals]
  | @released w pkt t hw =>
      rw [hmoved.waiting_of_cons htidy (Pipeline.pkts_released hw _)]
      simp [Move.arrived, PipeEffect.completed, PipeEffect.refusals]
  | @written i ok d hi =>
      rw [hmoved.waiting_eq htidy rfl]
      cases ok <;> simp [Move.arrived, PipeEffect.completed, PipeEffect.refusals]
  | collected =>
      rw [hmoved.waiting_eq htidy rfl]
      simp [Move.arrived]
  | ticked =>
      rw [hmoved.waiting_eq htidy rfl]
      simp [Move.arrived]

/-! ### What goes out -/

/-- What was to be sent or has just been written has been sent, has failed or was dropped, or is still to be
sent. -/
theorem Moved.leaving (h : Moved H pc now p m p' effects) :
    (effects.map PipeEffect.writes).sum + p.leaving = (effects.map PipeEffect.wires).sum + p'.leaving +
      ((effects.map PipeEffect.losses).sum + (effects.map PipeEffect.failures).sum) := by
  cases h with
  | idle => simp
  | queued => simp [Pipeline.leaving, Pool.sum]
  | refused =>
      simp [Pipeline.leaving, Pool.sum, PipeEffect.writes, PipeEffect.wires, PipeEffect.losses,
        PipeEffect.failures]
  | @received w pkt rest hw =>
      have hsame : Pipeline.leaving ⟨{ p.shared with pktCh := rest },
          p.threads.set w (.handling pkt H.start [])⟩ = p.leaving := Pool.add_sum_run _ hw rfl
      simp [hsame]
  | @stepped w pkt choice t t' tables ds hw =>
      have hmore : Pipeline.leaving ⟨{ p.shared with tables }, p.threads.set w (.handling pkt t' ds)⟩ =
          ↑ds + p.leaving := by
        rw [Pipeline.leaving, Pipeline.leaving, ← add_assoc]
        exact Pool.add_sum_run _ hw ((add_comm _ _).trans (add_zero _).symm)
      simp [hmore, PipeEffect.writes, PipeEffect.wires, PipeEffect.losses, PipeEffect.failures]
  | @sent w pkt t d rest hw =>
      have hsame : Pipeline.leaving ⟨{ p.shared with writers := p.shared.writers ++ [d] },
          p.threads.set w (.handling pkt t rest)⟩ = p.leaving := by
        refine Pool.add_sum_run _ hw ?_
        show (↑(p.shared.writers ++ [d]) : Multiset Datagram) + ↑rest = ↑p.shared.writers + d ::ₘ ↑rest
        rw [coe_append_singleton, Multiset.cons_add, Multiset.add_cons]
      simp [hsame]
  | @unsent w pkt t d rest hw =>
      have hless : d ::ₘ Pipeline.leaving ⟨p.shared, p.threads.set w (.handling pkt t rest)⟩ = p.leaving := by
        rw [Pipeline.leaving, ← Multiset.cons_add]
        exact Pool.add_sum_run _ hw
          ((Multiset.cons_add _ _ _).trans (Multiset.add_cons d ↑p.shared.writers ↑rest).symm)
      simp [← hless, PipeEffect.writes, PipeEffect.wires, PipeEffect.losses, PipeEffect.failures, add_comm]
  | @released w pkt t hw =>
      have hsame : Pipeline.leaving ⟨{ p.shared with readPool := p.shared.readPool.put pkt.buf },
          p.threads.set w .idle⟩ = p.leaving := Pool.add_sum_run _ hw rfl
      simp [hsame, PipeEffect.writes, PipeEffect.wires, PipeEffect.losses, PipeEffect.failures]
  | @written i ok d hi =>
      have hless : d ::ₘ Pipeline.leaving ⟨{ p.shared with writers := p.shared.writers.eraseIdx i },
          p.threads⟩ = p.leaving := by
        obtain ⟨hlt, rfl⟩ := List.getElem?_eq_some_iff.mp hi
        rw [Pipeline.leaving, ← Multiset.cons_add, Multiset.cons_coe,
          Multiset.coe_eq_coe.mpr (List.getElem_cons_eraseIdx_perm hlt)]
        rfl
      cases ok
      · simp [← hless, PipeEffect.writes, PipeEffect.wires, PipeEffect.losses, PipeEffect.failures, add_comm]
      · simp [← hless, PipeEffect.writes, PipeEffect.wires, PipeEffect.losses, PipeEffect.failures]
  | collected => simp [Pipeline.leaving, Pool.sum]
  | ticked => simp [Pipeline.leaving, Pool.sum]

/-! ### Whole runs -/

theorem sum_idle {M : Type} [AddCommMonoid M] {f : RelayWorker τ → M} (hf : f .idle = 0) (s : Server σ)
    (n : Nat) : Pool.sum f ⟨s, List.replicate n .idle⟩ = 0 := by
  rw [Pool.sum, List.map_replicate, hf]
  exact List.sum_eq_zero fun _ hx => List.eq_of_mem_replicate hx

theorem Pipeline.pkts_init (H : Handler σ τ κ β) (pc : PipelineConfig) : (runRelay H pc).init.pkts = 0 := by
  rw [Pipeline.pkts, runRelay, sum_idle rfl]
  rfl

theorem Pipeline.Tidy.init (H : Handler σ τ κ β) (pc : PipelineConfig) : (runRelay H pc).init.Tidy := by
  refine ⟨?_, ?_⟩
  · rw [Pipeline.held, Pipeline.pkts_init]
    exact .empty
  · rw [Pipeline.pkts_init]
    exact fun _ h => absurd h (Multiset.notMem_zero _)

variable {log : PipelineLog κ β}

theorem tidy_of_run (hrun : (runRelay H pc).Run (fun _ _ _ => True) log p) : p.Tidy :=
  hrun.invariant (.init H pc) fun p now m h _ => (pipelineStep_moved H pc now p m).tidy h

/-- A balance over the log with one more entry. -/
theorem add_balance {a w w' h H r R : Multiset Datagram} (hmove : a + w = h + w' + r) :
    a + (H + w + R) = h + H + w' + (r + R) := by
  calc
    a + (H + w + R) = a + w + (H + R) := by abel
    _ = h + H + w' + (r + R) := by
      rw [hmove]
      abel

theorem arrivals_of_run (hrun : (runRelay H pc).Run (fun _ _ _ => True) log p) :
    arrivals log = tally PipeEffect.completed log + p.waiting + tally PipeEffect.refusals log := by
  induction hrun with
  | init =>
      rw [Pipeline.waiting, Pipeline.pkts_init]
      rfl
  | @step log p now m hrun _ _ ih =>
      rw [arrivals_cons, tally_cons, tally_cons, ih]
      exact add_balance ((pipelineStep_moved H pc now p m).arrived (tidy_of_run hrun))

theorem writes_of_run (hrun : (runRelay H pc).Run (fun _ _ _ => True) log p) :
    tally PipeEffect.writes log = tally PipeEffect.wires log + p.leaving +
      (tally PipeEffect.losses log + tally PipeEffect.failures log) := by
  induction hrun with
  | init =>
      rw [Pipeline.leaving, runRelay, sum_idle rfl]
      rfl
  | @step log p now m hrun _ _ ih =>
      rw [tally_cons, tally_cons, tally_cons, tally_cons, ih]
      refine (add_balance (pipelineStep_moved H pc now p m).leaving).trans ?_
      exact congrArg _ (add_add_add_comm _ _ _ _)

theorem Moved.bounded (h : Moved H pc now p m p' effects)
    (hbound : p.shared.pktCh.length ≤ pc.pktChanBuf ∧ p.shared.writers.length ≤ pc.writePoolSize) :
    p'.shared.pktCh.length ≤ pc.pktChanBuf ∧ p'.shared.writers.length ≤ pc.writePoolSize := by
  cases h with
  | queued _ hroom =>
      refine ⟨?_, hbound.2⟩
      rw [List.length_append]
      exact hroom
  | received _ hch =>
      rw [hch, List.length_cons] at hbound
      exact ⟨Nat.le_of_succ_le hbound.1, hbound.2⟩
  | sent _ hroom =>
      refine ⟨hbound.1, ?_⟩
      rw [List.length_append]
      exact hroom
  | written => exact ⟨hbound.1, (List.length_eraseIdx_le _ _).trans hbound.2⟩
  | _ => exact hbound

theorem bounded_of_run (hrun : (runRelay H pc).Run (fun _ _ _ => True) log p) :
    p.shared.pktCh.length ≤ pc.pktChanBuf ∧ p.shared.writers.length ≤ pc.writePoolSize :=
  hrun.invariant ⟨Nat.zero_le _, Nat.zero_le _⟩ fun p now m h _ =>
    (pipelineStep_moved H pc now p m).bounded h

end

/-- For handlers of any grain, in every interleaving of the read loop, the steps of the handlers, the writers
and the tickers, and whatever buffers the pool hands out: every datagram that came in, cut to the size of a
buffer, was handled to the end as it came in, or dropped because the channel was full, or it is in the channel
or with a worker, and none of this twice. While it is there nobody changes it, so every step of its handler
sees what came in. -/
theorem datagrams_handled_intact {σ τ κ β : Type} (H : Handler σ τ κ β) (pc : PipelineConfig)
    {log : PipelineLog κ β} {p : Pipeline σ τ} (hrun : (runRelay H pc).Run (fun _ _ _ => True) log p) :
    arrivals log = tally PipeEffect.completed log + p.waiting + tally PipeEffect.refusals log ∧
    (∀ now m, ∀ pkt ∈ p.pkts,
      (pipelineStep H pc p now m).1.shared.datagram pkt = p.shared.datagram pkt) ∧
    p.shared.pktCh.length ≤ pc.pktChanBuf ∧
    ∀ pkt ∈ p.pkts, pkt.len ≤ (p.shared.readPool.bufs.read pkt.buf).length := by
  have htidy := tidy_of_run hrun
  refine ⟨arrivals_of_run hrun, ?_, (bounded_of_run hrun).1, fun pkt hpkt => ?_⟩
  · intro now m pkt hpkt
    exact (pipelineStep_moved H pc now p m).datagram htidy hpkt
  · rw [htidy.owned.length_read (Multiset.mem_map_of_mem _ hpkt)]
    exact htidy.fits pkt hpkt

/-- The handlers of the relay in two steps: `isRegRateLimited` has a lock of its own, and the limit is counted
before anything else is looked at. -/
inductive Handling
  | arrived
  | unlimited (room cookie : Bytes)
  | done
  deriving DecidableEq

/-- A tick of `cleanupRegs`, which sweeps the rate limits or the rooms. -/
inductive Sweep
  | rates
  | rooms

def relayHandler (cfg : Config) : Handler State Handling (Option Cookie) Sweep where
  tables := .empty
  start := .arrived
  next s now rnd d t :=
    match t with
    | .arrived =>
      match parseReg d.1 with
      | some (room, cookie) =>
        let limit := s.isRegRateLimited cfg now (ipKey d.2.string)
        some (limit.2, if limit.1 then .done else .unlimited room cookie, [])
      | none =>
        let r := handlePacket cfg now rnd d.1 d.2 s
        some (r.1, .done, r.2.filterMap Out.datagram)
    | .unlimited room cookie =>
      let r := handleRegUnlimited cfg now rnd room cookie d.2 s
      some (r.1, .done, r.2.filterMap Out.datagram)
    | .done => none
  finished t := decide (t = .done)
  tick s now e :=
    match e with
    | .rates => (step cfg now s .rateTick).1
    | .rooms => (step cfg now s .roomTick).1

/-- A handler that nobody interrupts does what `handlePacket` does in the model of one datagram at a time. -/
theorem relayHandler_alone (cfg : Config) (s : State) (now : Int) (rnd : Option Cookie) (d : Datagram) :
    ∃ s' t ds, (relayHandler cfg).next s now rnd d .arrived = some (s', t, ds) ∧
      ((t = .done ∧ s' = (handlePacket cfg now rnd d.1 d.2 s).1 ∧
          ds = (handlePacket cfg now rnd d.1 d.2 s).2.filterMap Out.datagram) ∨
        ds = [] ∧ (relayHandler cfg).next s' now rnd d t = some ((handlePacket cfg now rnd d.1 d.2 s).1, .done,
          (handlePacket cfg now rnd d.1 d.2 s).2.filterMap Out.datagram)) := by
  cases hreg : parseReg d.1 with
  | none =>
      refine ⟨_, _, _, ?_, Or.inl ⟨rfl, rfl, rfl⟩⟩
      simp only [relayHandler, hreg]
  | some reg =>
      obtain ⟨room, cookie⟩ := reg
      rw [handlePacket_of_parseReg hreg, handleReg]
      simp only [relayHandler, hreg]
      refine ⟨_, _, _, rfl, ?_⟩
      generalize s.isRegRateLimited cfg now (ipKey d.2.string) = limit
      obtain ⟨limited, s'⟩ := limit
      cases limited with
      | true => exact Or.inl ⟨rfl, rfl, rfl⟩
      | false => exact Or.inr ⟨rfl, rfl⟩

/-- Port 1 is challenged by the third worker. The buffer of the first datagram is used again for the answer,
whose handler waits behind the rate limit while port 2 is being handled by another worker. -/
def challengeAndAnswer : List (Int × Move (Option Cookie) Sweep) :=
  [(0, .read (ascii "REG r\n") ⟨[127, 0, 0, 1], 1, []⟩ none), (0, .receive 2), (0, .handle 2 none),
    (0, .handle 2 (some (cookieOf 1))), (1, .send 2), (1, .release 2),
    (2, .read (ascii "REG r " ++ hexEncode (cookieOf 1).val) ⟨[127, 0, 0, 1], 1, []⟩ (some 0)),
    (2, .read (ascii "REG r\n") ⟨[127, 0, 0, 1], 2, []⟩ none), (3, .written 0 true), (3, .receive 0),
    (3, .receive 1), (3, .handle 0 none), (3, .handle 1 none), (4, .handle 1 (some (cookieOf 2)))]

theorem handled_intact_challenge_and_answer : ∃ log p,
    (runRelay (relayHandler .default) {}).Run (fun _ _ _ => True) log p ∧
    p.shared.tables.pendingRegs.size = 2 ∧ p.shared.readPool.bufs.length = 2 ∧
    arrivals log = tally PipeEffect.completed log + p.waiting + tally PipeEffect.refusals log := by
  have hrun := Machine.Run.init.execLog
    (show (runRelay (relayHandler .default) {}).Admissible (fun _ _ _ => True) none _ challengeAndAnswer by
      decide +kernel)
  refine ⟨_, _, hrun, ?_, ?_, (datagrams_handled_intact (relayHandler .default) {} hrun).1⟩
  · decide +kernel
  · decide +kernel

/-- Whatever the handlers wrote was sent, or the write failed, or it is underway, or it was dropped because all
places of the write pool were taken; nothing else is sent, and nothing twice. -/
theorem writes_accounted {σ τ κ β : Type} (H : Handler σ τ κ β) (pc : PipelineConfig) {log : PipelineLog κ β}
    {p : Pipeline σ τ} (hrun : (runRelay H pc).Run (fun _ _ _ => True) log p) :
    tally PipeEffect.writes log = tally PipeEffect.wires log + p.leaving +
      (tally PipeEffect.losses log + tally PipeEffect.failures log) ∧
      p.shared.writers.length ≤ pc.writePoolSize :=
  ⟨writes_of_run hrun, (bounded_of_run hrun).2⟩

/-- With one place in the write pool, the challenge of the first port is underway and that of the second is
dropped; then the write fails. -/
theorem writes_accounted_one_place : ∃ log p,
    (runRelay (relayHandler .default) { writePoolSize := 1 }).Run (fun _ _ _ => True) log p ∧
    p.shared.writers.length = 0 ∧ Multiset.card (tally PipeEffect.losses log) = 1 ∧
    Multiset.card (tally PipeEffect.failures log) = 1 ∧
    tally PipeEffect.writes log = tally PipeEffect.wires log + p.leaving +
      (tally PipeEffect.losses log + tally PipeEffect.failures log) := by
  have hrun := Machine.Run.init.execLog
    (show (runRelay (relayHandler .default) { writePoolSize := 1 }).Admissible (fun _ _ _ => True) none _
      [(0, .read (ascii "REG r\n") ⟨[127, 0, 0, 1], 1, []⟩ none),
        (0, .read (ascii "REG r\n") ⟨[127, 0, 0, 1], 2, []⟩ none), (0, .receive 0), (0, .receive 1),
        (0, .handle 1 none), (0, .handle 0 none), (0, .handle 1 (some (cookieOf 1))),
        (0, .handle 0 (some (cookieOf 2))), (1, .send 0), (1, .send 1), (2, .written 0 false)] by
      decide +kernel)
  refine ⟨_, _, hrun, ?_, ?_, ?_, (writes_accounted (relayHandler .default) { writePoolSize := 1 } hrun).1⟩
  · decide +kernel
  · decide +kernel
  · decide +kernel

end Qvole.Relay
