import Qvole.Lib.Bytes

/-!
# Reading lines

`bufio.Scanner` with its default split function over a buffer that never grows. The reader delivers its
data in chunks of any sizes and then stops, at the end of the data or with an error; `withLast` tells
whether it reports that together with the last bytes, as a reader may. An empty chunk is no read.

A line comes out when its newline is in the buffer, the rest of the data comes out as a last line when
the reader has stopped, and a buffer that is full without a newline ends the scan. Which lines come out
does not depend on the chunks: a scanner is described by the data it still has (`data`), and one law
says what the next call of `Scan` does for each shape of these data.
-/

namespace Lib

structure Reader where
  chunks : List Bytes
  fails : Bool
  withLast : Bool

inductive ScanErr
  | eof
  | failed
  | tooLong
  deriving DecidableEq

def Reader.stop (r : Reader) : ScanErr := if r.fails then .failed else .eof

/-- `size` is the size of the buffer, `pending` what stands in it. -/
structure Scanner where
  size : Nat
  pending : Bytes
  reader : Reader
  err : Option ScanErr

namespace Scanner

def new (size : Nat) (reader : Reader) : Scanner := ⟨size, [], reader, none⟩

/-- `Scanner.Err`: the end of the data is not an error. -/
def error (s : Scanner) : Option ScanErr := if s.err = some .eof then none else s.err

def dropCR (line : Bytes) : Bytes := if line.getLast? = some 13 then line.dropLast else line

/-- The next line once the reader has stopped. -/
def scanStopped (s : Scanner) : Option Bytes × Scanner :=
  match cut 10 s.pending with
  | (line, some rest) => (some (dropCR line), { s with pending := rest })
  | (line, none) =>
    if line = [] then (none, s) else (some (dropCR line), { s with pending := [] })

/-- A line in the buffer, or the end of the scan when there is no room for more. -/
def scanFull (s : Scanner) : Option Bytes × Scanner :=
  match cut 10 s.pending with
  | (line, some rest) => (some (dropCR line), { s with pending := rest })
  | (_, none) => (none, { s with err := some .tooLong })

/-- The loop of `Scan` while the reader still delivers: `chunks` are the reads to come. -/
def scanReading (size : Nat) (fails withLast : Bool) : Bytes → List Bytes → Option Bytes × Scanner
  | pending, [] =>
    let s : Scanner := ⟨size, pending, ⟨[], fails, withLast⟩, none⟩
    if 10 ∈ pending ∨ size ≤ pending.length then s.scanFull
    else scanStopped { s with err := some s.reader.stop }
  | pending, chunk :: chunks =>
    let s : Scanner := ⟨size, pending, ⟨chunk :: chunks, fails, withLast⟩, none⟩
    let space := size - pending.length
    if 10 ∈ pending ∨ size ≤ pending.length then s.scanFull
    else if space < chunk.length then
      scanFull ⟨size, pending ++ chunk.take space, ⟨chunk.drop space :: chunks, fails, withLast⟩, none⟩
    else if chunks = [] ∧ withLast then
      scanStopped ⟨size, pending ++ chunk, ⟨[], fails, withLast⟩, some s.reader.stop⟩
    else scanReading size fails withLast (pending ++ chunk) chunks

def scan (s : Scanner) : Option Bytes × Scanner :=
  match s.err with
  | some .tooLong => (none, s)
  | some _ => s.scanStopped
  | none => scanReading s.size s.reader.fails s.reader.withLast s.pending s.reader.chunks

/-! ### What the next call does -/

def data (s : Scanner) : Bytes := s.pending ++ s.reader.chunks.flatten

/-- A scanner with a buffer of this size that may go on and has `d` to come. Nothing is left to read
once the reader has stopped. -/
structure Holds (size : Nat) (fails : Bool) (d : Bytes) (s : Scanner) : Prop where
  size_eq : s.size = size
  fails_eq : s.reader.fails = fails
  data_eq : s.data = d
  fits : s.pending.length ≤ size
  stopped : s.err = none ∨ (s.err = some s.reader.stop ∧ s.reader.chunks = [])

theorem holds_new (size : Nat) (reader : Reader) :
    (new size reader).Holds size reader.fails reader.chunks.flatten :=
  ⟨rfl, rfl, rfl, Nat.zero_le _, Or.inl rfl⟩

theorem newline_mem {front later line rest : Bytes} (h : front ++ later = line ++ 10 :: rest)
    (hlonger : line.length < front.length) : (10 : UInt8) ∈ front := by
  rcases List.append_eq_append_iff.mp h with ⟨tail, hline, _⟩ | ⟨tail, hfront, htail⟩
  · rw [hline, List.length_append] at hlonger
    omega
  · cases tail with
    | nil =>
        rw [hfront, List.append_nil] at hlonger
        omega
    | cons b tail =>
        cases htail
        simp [hfront]

variable {s : Scanner} {line rest d pending : Bytes} {chunks : List Bytes} {size : Nat}
  {fails withLast : Bool}

theorem buffered_line (h : s.Holds size fails (line ++ 10 :: rest))
    (hnewline : (10 : UInt8) ∈ s.pending) (hline : (10 : UInt8) ∉ line) :
    ∃ later, cut 10 s.pending = (line, some later) ∧
      Holds size fails rest { s with pending := later } := by
  obtain ⟨front, later, hpending, hfront⟩ := List.eq_append_cons_of_mem hnewline
  have hsplit : front ++ 10 :: (later ++ s.reader.chunks.flatten) = line ++ 10 :: rest := by
    rw [← h.data_eq, data, hpending, List.append_assoc, List.cons_append]
  obtain ⟨rfl, hrest⟩ := eq_of_append_cons hsplit hfront hline
  refine ⟨later, by rw [hpending, cut_append later hfront], h.size_eq, h.fails_eq, hrest, ?_,
    h.stopped⟩
  have hfits := h.fits
  rw [hpending, List.length_append, List.length_cons] at hfits
  dsimp only
  omega

theorem scanFull_line (h : s.Holds size fails (line ++ 10 :: rest))
    (hnewline : (10 : UInt8) ∈ s.pending) (hline : (10 : UInt8) ∉ line) :
    ∃ s', s.scanFull = (some (dropCR line), s') ∧ s'.Holds size fails rest := by
  obtain ⟨later, hcut, hnext⟩ := buffered_line h hnewline hline
  exact ⟨_, by rw [scanFull, hcut], hnext⟩

theorem scanStopped_line (h : s.Holds size fails (line ++ 10 :: rest))
    (hchunks : s.reader.chunks = []) (hline : (10 : UInt8) ∉ line) :
    ∃ s', s.scanStopped = (some (dropCR line), s') ∧ s'.Holds size fails rest := by
  have hnewline : (10 : UInt8) ∈ s.pending := by
    have hmem : (10 : UInt8) ∈ s.data := by simp [h.data_eq]
    simpa [data, hchunks] using hmem
  obtain ⟨later, hcut, hnext⟩ := buffered_line h hnewline hline
  exact ⟨_, by rw [scanStopped, hcut], hnext⟩

theorem scanReading_line (hfits : pending.length ≤ size)
    (hdata : pending ++ chunks.flatten = line ++ 10 :: rest) (hline : (10 : UInt8) ∉ line)
    (hshort : line.length < size) :
    ∃ s', scanReading size fails withLast pending chunks = (some (dropCR line), s') ∧
      s'.Holds size fails rest := by
  induction chunks generalizing pending with
  | nil =>
      have hmem : (10 : UInt8) ∈ pending ++ ([] : List Bytes).flatten := by
        rw [hdata]
        simp
      have hnewline : (10 : UInt8) ∈ pending := by simpa using hmem
      rw [scanReading, if_pos (Or.inl hnewline)]
      exact scanFull_line ⟨rfl, rfl, hdata, hfits, Or.inl rfl⟩ hnewline hline
  | cons chunk chunks ih =>
      rw [scanReading]
      dsimp only
      by_cases hnewline : (10 : UInt8) ∈ pending
      · rw [if_pos (Or.inl hnewline)]
        exact scanFull_line ⟨rfl, rfl, hdata, hfits, Or.inl rfl⟩ hnewline hline
      have hroom : pending.length < size := by
        have hpart : ¬ line.length < pending.length := fun hlt => hnewline (newline_mem hdata hlt)
        omega
      rw [if_neg (by rintro (h | h); exacts [hnewline h, by omega])]
      rw [List.flatten_cons, ← List.append_assoc] at hdata
      by_cases hspace : size - pending.length < chunk.length
      · rw [if_pos hspace]
        have hfull : pending ++ chunk.take (size - pending.length) ++
            (chunk.drop (size - pending.length) :: chunks).flatten = line ++ 10 :: rest := by
          rw [List.flatten_cons, List.append_assoc pending, ← List.append_assoc (List.take _ _),
            List.take_append_drop, ← List.append_assoc]
          exact hdata
        have hlength : (pending ++ chunk.take (size - pending.length)).length = size := by
          rw [List.length_append, List.length_take]
          omega
        exact scanFull_line ⟨rfl, rfl, hfull, Nat.le_of_eq hlength, Or.inl rfl⟩
          (newline_mem hfull (hlength.symm ▸ hshort)) hline
      · rw [if_neg hspace]
        have hfits' : (pending ++ chunk).length ≤ size := by
          rw [List.length_append]
          omega
        split
        · rename_i hlast
          rw [hlast.1] at hdata
          exact scanStopped_line ⟨rfl, rfl, hdata, hfits', Or.inr ⟨rfl, rfl⟩⟩ rfl hline
        · exact ih hfits' hdata

/-- A line that fits into the buffer comes out, and the scanner goes on behind its newline. -/
theorem scan_line (h : s.Holds size fails (line ++ 10 :: rest)) (hline : (10 : UInt8) ∉ line)
    (hshort : line.length < size) :
    ∃ s', s.scan = (some (dropCR line), s') ∧ s'.Holds size fails rest := by
  unfold scan
  rcases h.stopped with herr | ⟨herr, hchunks⟩
  · rw [herr]
    dsimp only
    rw [h.size_eq, h.fails_eq]
    exact scanReading_line h.fits h.data_eq hline hshort
  · obtain ⟨s', hscan, hnext⟩ := scanStopped_line h hchunks hline
    refine ⟨s', ?_, hnext⟩
    rw [herr, Reader.stop]
    split
    · rename_i htooLong
      split at htooLong <;> cases htooLong
    · exact hscan
    · rename_i hnone
      cases hnone

theorem scanFull_tooLong (hline : (10 : UInt8) ∉ s.pending) :
    ∃ s', s.scanFull = (none, s') ∧ s'.err = some .tooLong :=
  ⟨_, by rw [scanFull, cut_of_notMem hline], rfl⟩

theorem scanReading_tooLong (hfits : pending.length ≤ size)
    (hlong : size < (pending ++ chunks.flatten).length)
    (hline : (10 : UInt8) ∉ (pending ++ chunks.flatten).take size) :
    ∃ s', scanReading size fails withLast pending chunks = (none, s') ∧ s'.err = some .tooLong := by
  have hpending : (10 : UInt8) ∉ pending := by
    rw [List.take_append, List.take_of_length_le hfits, List.mem_append, not_or] at hline
    exact hline.1
  induction chunks generalizing pending with
  | nil =>
      rw [List.flatten_nil, List.append_nil] at hlong
      omega
  | cons chunk chunks ih =>
      rw [scanReading]
      dsimp only
      by_cases hfull : size ≤ pending.length
      · rw [if_pos (Or.inr hfull)]
        exact scanFull_tooLong hpending
      rw [if_neg (by rintro (h | h); exacts [hpending h, hfull h])]
      rw [List.flatten_cons, ← List.append_assoc] at hlong hline
      by_cases hspace : size - pending.length < chunk.length
      · rw [if_pos hspace]
        refine scanFull_tooLong fun hnewline => hline ?_
        have hlength : size ≤ (pending ++ chunk).length := by
          rw [List.length_append]
          omega
        rw [List.take_append_of_le_length hlength, List.take_append,
          List.take_of_length_le hfits]
        exact hnewline
      · rw [if_neg hspace]
        have hfits' : (pending ++ chunk).length ≤ size := by
          rw [List.length_append]
          omega
        have hpending' : (10 : UInt8) ∉ pending ++ chunk := by
          rw [List.take_append, List.take_of_length_le hfits', List.mem_append, not_or] at hline
          exact hline.1
        split
        · rename_i hlast
          rw [hlast.1, List.flatten_nil, List.append_nil] at hlong
          omega
        · exact ih hfits' hlong hline hpending'

/-- A buffer full without a newline, and more to come: the scan ends with an error. -/
theorem scan_tooLong (h : s.Holds size fails d) (hlong : size < d.length)
    (hline : (10 : UInt8) ∉ d.take size) : ∃ s', s.scan = (none, s') ∧ s'.err = some .tooLong := by
  have hdata := h.data_eq
  rw [data] at hdata
  rcases h.stopped with herr | ⟨_, hchunks⟩
  · rw [scan, herr]
    dsimp only
    rw [h.size_eq]
    subst hdata
    exact scanReading_tooLong h.fits hlong hline
  · rw [hchunks, List.flatten_nil, List.append_nil] at hdata
    have hfits := h.fits
    rw [hdata] at hfits
    omega

/-! ### Behind the last newline -/

theorem scanStopped_last (h : s.Holds size fails d) (hchunks : s.reader.chunks = [])
    (herr : s.err = some s.reader.stop) (hline : (10 : UInt8) ∉ d) (hne : d ≠ []) :
    ∃ s', s.scanStopped = (some (dropCR d), s') ∧ s'.Holds size fails [] := by
  have hpending : s.pending = d := by
    rw [← h.data_eq, data, hchunks, List.flatten_nil, List.append_nil]
  refine ⟨{ s with pending := [] }, ?_, h.size_eq, h.fails_eq, ?_, Nat.zero_le _,
    Or.inr ⟨herr, hchunks⟩⟩
  · rw [scanStopped, hpending, cut_of_notMem hline]
    dsimp only
    rw [if_neg hne]
  · rw [data, hchunks]
    rfl

theorem scanReading_last (hfits : pending.length ≤ size)
    (hline : (10 : UInt8) ∉ pending ++ chunks.flatten) (hne : pending ++ chunks.flatten ≠ []) :
    (∃ s', scanReading size fails withLast pending chunks =
      (some (dropCR (pending ++ chunks.flatten)), s') ∧ s'.Holds size fails []) ∨
    ∃ s', scanReading size fails withLast pending chunks = (none, s') ∧ s'.err = some .tooLong := by
  have hpending : (10 : UInt8) ∉ pending := fun hmem => hline (List.mem_append_left _ hmem)
  induction chunks generalizing pending with
  | nil =>
      rw [scanReading]
      dsimp only
      split
      · exact Or.inr (scanFull_tooLong hpending)
      · exact Or.inl (scanStopped_last ⟨rfl, rfl, rfl, hfits, Or.inr ⟨rfl, rfl⟩⟩ rfl rfl hline hne)
  | cons chunk chunks ih =>
      rw [scanReading]
      dsimp only
      rw [List.flatten_cons, ← List.append_assoc] at hline hne ⊢
      split
      · exact Or.inr (scanFull_tooLong hpending)
      split
      · refine Or.inr (scanFull_tooLong fun hmem => hline (List.mem_append_left _ ?_))
        rcases List.mem_append.mp hmem with hmem | hmem
        · exact absurd hmem hpending
        · exact List.mem_append_right _ (List.mem_of_mem_take hmem)
      rename_i hspace
      have hfits' : (pending ++ chunk).length ≤ size := by
        rw [List.length_append]
        omega
      split
      · rename_i hlast
        rw [hlast.1] at hline hne ⊢
        exact Or.inl (scanStopped_last ⟨rfl, rfl, rfl, hfits', Or.inr ⟨rfl, rfl⟩⟩ rfl rfl hline hne)
      · exact ih hfits' hline hne fun hmem => hline (List.mem_append_left _ hmem)

/-- What stands behind the last newline comes out as a line, unless it fills the buffer. -/
theorem scan_last (h : s.Holds size fails d) (hline : (10 : UInt8) ∉ d) (hne : d ≠ []) :
    (∃ s', s.scan = (some (dropCR d), s') ∧ s'.Holds size fails []) ∨
      ∃ s', s.scan = (none, s') ∧ s'.err = some .tooLong := by
  have hdata := h.data_eq
  rw [data] at hdata
  rcases h.stopped with herr | ⟨herr, hchunks⟩
  · rw [scan, herr]
    dsimp only
    rw [h.size_eq, h.fails_eq, ← hdata]
    exact scanReading_last h.fits (hdata ▸ hline) (hdata ▸ hne)
  · have hstop : s.reader.stop ≠ .tooLong := by
      unfold Reader.stop
      split <;> simp
    refine Or.inl ?_
    obtain ⟨s', hscan, hnext⟩ := scanStopped_last h hchunks herr hline hne
    refine ⟨s', ?_, hnext⟩
    rw [← hscan, scan, herr]
    cases hcase : s.reader.stop with
    | eof => rfl
    | failed => rfl
    | tooLong => exact absurd hcase hstop

theorem scanReading_nil (hpending : pending = []) (hdata : chunks.flatten = []) :
    (scanReading size fails withLast pending chunks).1 = none := by
  subst hpending
  induction chunks with
  | nil =>
      rw [scanReading]
      dsimp only
      split <;> rfl
  | cons chunk chunks ih =>
      rw [List.flatten_cons, List.append_eq_nil_iff] at hdata
      rw [scanReading, hdata.1]
      dsimp only
      split
      · rfl
      split
      · rename_i hspace
        cases hspace
      split
      · rfl
      · exact ih hdata.2

theorem scan_nil (h : s.Holds size fails []) : s.scan.1 = none := by
  obtain ⟨hpending, hchunks⟩ := List.append_eq_nil_iff.mp h.data_eq
  unfold scan
  split
  · rfl
  · rw [scanStopped, hpending]
    rfl
  · exact scanReading_nil hpending hchunks

/-! ### A reader that delivers line by line -/

/-- Each line of a text in a read of its own, and the end reported together with what is left. -/
def lineReader (d : Bytes) : Reader :=
  ⟨(cutLines d).1.map (· ++ [10]) ++ [(cutLines d).2], false, true⟩

theorem flatten_lineReader (d : Bytes) : (lineReader d).chunks.flatten = d := by
  induction d with
  | nil => rfl
  | cons c d ih =>
      unfold lineReader at ih ⊢
      rw [cutLines]
      split
      · rename_i hc
        rw [hc]
        simpa using ih
      · rcases hcut : cutLines d with ⟨_ | ⟨line, lines⟩, rest⟩
        · rw [hcut] at ih
          simpa using ih
        · rw [hcut] at ih
          simpa using ih

theorem scan_chunk {chunk : Bytes} (hline : (10 : UInt8) ∉ line) (hshort : line.length < size) :
    scan ⟨size, [], ⟨(line ++ [10]) :: chunk :: chunks, fails, withLast⟩, none⟩ =
      (some (dropCR line), ⟨size, [], ⟨chunk :: chunks, fails, withLast⟩, none⟩) := by
  have hlength : (line ++ [(10 : UInt8)]).length ≤ size := by
    rw [List.length_append]
    exact hshort
  unfold scan
  dsimp only
  rw [scanReading]
  dsimp only
  rw [if_neg (by simp; omega), if_neg (by rw [List.length_nil]; omega), if_neg (by simp),
    List.nil_append, scanReading]
  dsimp only
  rw [if_pos (Or.inl (by simp)), scanFull]
  dsimp only
  rw [cut_append [] hline]

theorem scan_lineReader (hline : (10 : UInt8) ∉ line) (hshort : line.length < size) :
    scan (new size (lineReader (line ++ 10 :: d))) = (some (dropCR line), new size (lineReader d)) := by
  unfold lineReader
  rw [cutLines_append d hline]
  cases (cutLines d).1 with
  | nil => exact scan_chunk hline hshort
  | cons line' lines => exact scan_chunk hline hshort

theorem scan_lineReader_last (hline : (10 : UInt8) ∉ d) (hne : d ≠ []) (hfits : d.length ≤ size) :
    scan (new size (lineReader d)) =
      (some (dropCR d), ⟨size, [], ⟨[], false, true⟩, some .eof⟩) := by
  have hpos : 0 < d.length := List.length_pos_iff.mpr hne
  unfold lineReader scan new
  rw [cutLines_of_notMem hline]
  dsimp only
  rw [List.map_nil, List.nil_append, scanReading]
  dsimp only
  rw [if_neg (by simp; omega), if_neg (by rw [List.length_nil]; omega), if_pos ⟨rfl, rfl⟩,
    scanStopped]
  dsimp only
  rw [List.nil_append, cut_of_notMem hline]
  dsimp only
  rw [if_neg hne]
  rfl

end Scanner

end Lib
