import Qvole.App.ControlStream
import Mathlib.Data.List.Infix

/-!
# A config that breaks off

The writer ends a config with the line `END`, but the reader also takes the end of the stream for the
end of the list. So it notices a config that was cut off only by what it makes of the piece behind the
last newline: that piece is no request while it has fewer than two spaces. A cut behind a newline, or
inside a target address, goes unnoticed, and the list comes out shorter or with a cut-off address.

Two more cuts are noticed for another reason: inside the first line, and behind a line that does not
fit into the buffer of the scanner.
-/

namespace Qvole.App

open Lib

/-- Addresses of visible bytes, without spaces. -/
structure TunnelRequest.Plain (r : TunnelRequest) : Prop where
  listen : ∀ c ∈ r.listenAddr, isPrint c
  target : ∀ c ∈ r.targetAddr, isPrint c

/-- The reader stumbles over a line that is too long, or over the piece behind the last newline. -/
def Stumbles (lines : List Bytes) (rest : Bytes) : Prop :=
  (∃ line ∈ lines, scannerMaxTokenSize ≤ line.length) ∨ scannerMaxTokenSize < rest.length ∨
    (rest ≠ [] ∧ rest.count 32 < 2)

/-- The cut shows: it is inside the first line, or the reader stumbles behind it. -/
def CutShows (accept : Bool) (p : Bytes) : Prop :=
  ((10 : UInt8) ∉ p ∧ p ≠ acceptLine accept) ∨
    ((10 : UInt8) ∈ p ∧ Stumbles (cutLines p).1 (cutLines p).2)

theorem not_stumbles_iff {lines : List Bytes} {rest : Bytes} :
    ¬Stumbles lines rest ↔ (∀ line ∈ lines, line.length < scannerMaxTokenSize) ∧
      rest.length ≤ scannerMaxTokenSize ∧ (rest = [] ∨ 2 ≤ rest.count 32) := by
  rw [Stumbles, not_or, not_or, not_and_or, not_not, Nat.not_lt, Nat.not_lt, not_exists]
  simp only [not_and, Nat.not_le]

theorem stumbles_cons_iff {line : Bytes} {lines : List Bytes} {rest : Bytes}
    (hshort : line.length < scannerMaxTokenSize) :
    Stumbles (line :: lines) rest ↔ Stumbles lines rest := by
  rw [← not_iff_not, not_stumbles_iff, not_stumbles_iff, List.forall_mem_cons]
  exact ⟨fun h => ⟨h.1.2, h.2⟩, fun h => ⟨⟨hshort, h.1⟩, h.2⟩⟩

variable {room : Nat} {s s' : Scanner} {d line rest : Bytes} {r : TunnelRequest}
  {reqs : List TunnelRequest}

/-! ### Where the cut is -/

theorem prefix_line_cases (h : d <+: line ++ 10 :: rest) :
    d <+: line ∨ ∃ d', d = line ++ 10 :: d' ∧ d' <+: rest := by
  by_cases hlen : d.length ≤ line.length
  · exact Or.inl (List.prefix_of_prefix_length_le h (List.prefix_append line _) hlen)
  · right
    have hline : line ++ [10] <+: line ++ 10 :: rest := by
      exact ⟨rest, by simp⟩
    obtain ⟨d', rfl⟩ := List.prefix_of_prefix_length_le hline h (by simp; omega)
    rw [List.append_assoc, List.singleton_append] at h
    refine ⟨d', by simp, ?_⟩
    exact (List.cons_prefix_cons.mp ((List.prefix_append_right_inj line).mp h)).2

theorem prefix_end_of_cut (hstart : d <+: requestLines [])
    (hcut : d.length + 2 ≤ (requestLines []).length) : d <+: ascii "EN" := by
  have htotal : (requestLines []).length = 4 := rfl
  have htwo : (ascii "EN").length = 2 := rfl
  exact List.prefix_of_prefix_length_le hstart ⟨ascii "D" ++ [10], rfl⟩ (by omega)

theorem ne_end_of_front_line (h : d <+: r.line) : d ≠ ascii "END" := by
  intro heq
  obtain ⟨more, hline⟩ := h
  rw [heq] at hline
  obtain ⟨type, listenAddr, targetAddr⟩ := r
  cases type <;> cases hline

theorem TunnelRequest.Plain.notMem_line (h : r.Plain) {c : UInt8} (hc : printable c = false) :
    c ∉ r.line :=
  App.notMem_line h.listen (fun c hmem => printable_of_isPrint (h.target c hmem)) hc

theorem parseRequestLine_cut (h : r.Plain) (hstart : d <+: r.line) (hspaces : 2 ≤ d.count 32) :
    ∃ r', parseRequestLine d = .ok r' := by
  have hfields : r.line = (r.type.text ++ 32 :: r.listenAddr) ++ 32 :: r.targetAddr := by
    simp [TunnelRequest.line]
  have hspace1 : (r.type.text ++ 32 :: r.listenAddr).count (32 : UInt8) = 1 := by
    rw [List.count_append, List.count_cons_self,
      List.count_eq_zero_of_not_mem (space_notMem r.type.printable_text),
      List.count_eq_zero_of_not_mem (space_notMem h.listen)]
  have hlonger : (r.type.text ++ 32 :: r.listenAddr).length < d.length := by
    by_contra hle
    have hshort : d <+: r.type.text ++ 32 :: r.listenAddr :=
      List.prefix_of_prefix_length_le hstart (hfields ▸ List.prefix_append _ _)
        (Nat.le_of_not_lt hle)
    have hcount := hshort.sublist.count_le (32 : UInt8)
    omega
  have hspace : (r.type.text ++ 32 :: r.listenAddr) ++ [32] <+: r.line := by
    rw [hfields]
    exact ⟨r.targetAddr, by simp⟩
  obtain ⟨target, rfl⟩ := List.prefix_of_prefix_length_le hspace hstart (by simp at hlonger ⊢; omega)
  have hsplit : splitN 32 3 ((r.type.text ++ 32 :: r.listenAddr) ++ [32] ++ target) =
      [r.type.text, r.listenAddr, target] := by
    rw [List.append_assoc, List.append_assoc, List.cons_append, List.singleton_append,
      splitN_append 1 _ (space_notMem r.type.printable_text), splitN_append 0 _ (space_notMem h.listen)]
    rfl
  unfold parseRequestLine
  rw [hsplit]
  dsimp only
  cases r.type with
  | L => exact ⟨_, rfl⟩
  | R => exact ⟨_, rfl⟩

theorem parseRequestLine_error (hspaces : d.count 32 < 2) :
    parseRequestLine d = .error (.invalidLine d) := by
  have hlength := length_splitN 32 2 d
  unfold parseRequestLine
  split
  · rename_i hsplit
    rw [hsplit] at hlength
    simp at hlength
    omega
  · rfl

/-! ### Cuts that show -/

theorem readRequests_error (hscan : s.scan = (some line, s')) (hend : line ≠ ascii "END")
    (hrest : (∃ e, parseRequestLine line = .error e) ∨ ∀ room, ∃ e, readRequests room s' = .error e) :
    ∃ e, readRequests room s = .error e := by
  cases hread : readRequests room s with
  | error e => exact ⟨e, rfl⟩
  | ok reqs =>
      obtain ⟨room', r, rest, _, hparse, hread', _⟩ := (readRequests_line_eq_ok hscan hend).mp hread
      rcases hrest with ⟨e, he⟩ | hrest
      · rw [hparse] at he
        cases he
      · obtain ⟨e, he⟩ := hrest room'
        rw [hread'] at he
        cases he

theorem rejects_tooLong (h : s.Holds scannerMaxTokenSize false (line ++ rest))
    (hline : (10 : UInt8) ∉ line) (hlong : scannerMaxTokenSize ≤ line.length)
    (hmore : scannerMaxTokenSize < (line ++ rest).length) : ∃ e, readRequests room s = .error e := by
  obtain ⟨s', hscan, herr⟩ := Scanner.scan_tooLong h hmore (by
    rw [List.take_append_of_le_length hlong]
    exact fun hmem => hline (List.mem_of_mem_take hmem))
  exact ⟨_, readRequests_stopped hscan herr⟩

/-- The piece behind the last newline is too long, or no request. -/
theorem rejects_rest (h : s.Holds scannerMaxTokenSize false d)
    (hprintable : ∀ c, printable c = false → c ∉ d) (hend : d ≠ ascii "END")
    (hstumbles : Stumbles [] d) : ∃ e, readRequests room s = .error e := by
  rcases hstumbles with ⟨_, hmem, _⟩ | hlong | ⟨hne, hspaces⟩
  · cases hmem
  · rw [← List.append_nil d] at h
    exact rejects_tooLong h (hprintable 10 rfl) (Nat.le_of_lt hlong) (by rwa [List.append_nil])
  · rcases Scanner.scan_last h (hprintable 10 rfl) hne with ⟨s', hscan, _⟩ | ⟨s', hscan, herr⟩
    · rw [dropCR_of_notMem (hprintable 13 rfl)] at hscan
      exact readRequests_error hscan hend (Or.inl ⟨_, parseRequestLine_error hspaces⟩)
    · exact ⟨_, readRequests_stopped hscan herr⟩

/-- Through the list from the front: every complete line is that of a request, so what decides is a line
that is too long or the piece behind the last newline. -/
theorem rejects_of_stumbles (hplain : ∀ r ∈ reqs, r.Plain) (hstart : d <+: requestLines reqs)
    (hcut : d.length + 2 ≤ (requestLines reqs).length)
    (hstumbles : Stumbles (cutLines d).1 (cutLines d).2)
    (h : s.Holds scannerMaxTokenSize false d) : ∃ e, readRequests room s = .error e := by
  induction reqs generalizing d room s with
  | nil =>
      have hshort := prefix_end_of_cut hstart hcut
      have hprintable : ∀ c, printable c = false → c ∉ d := by
        intro c hc hmem
        have hletter : c ∈ ascii "EN" := hshort.subset hmem
        have hall : ∀ c ∈ ascii "EN", printable c = true := by decide +kernel
        rw [hall c hletter] at hc
        cases hc
      rw [cutLines_of_notMem (hprintable 10 rfl)] at hstumbles
      refine rejects_rest h hprintable ?_ hstumbles
      intro heq
      rw [heq] at hshort
      exact absurd hshort (by decide)
  | cons r reqs ih =>
      have hr := hplain r List.mem_cons_self
      have hnewline : (10 : UInt8) ∉ r.line := hr.notMem_line rfl
      rw [requestLines_cons] at hstart hcut
      rcases prefix_line_cases hstart with hinside | ⟨d', rfl, hstart'⟩
      · have hprintable : ∀ c, printable c = false → c ∉ d :=
          fun c hc hmem => hr.notMem_line hc (hinside.subset hmem)
        rw [cutLines_of_notMem (hprintable 10 rfl)] at hstumbles
        exact rejects_rest h hprintable (ne_end_of_front_line hinside) hstumbles
      · rw [cutLines_append d' hnewline] at hstumbles
        by_cases hlong : scannerMaxTokenSize ≤ r.line.length
        · exact rejects_tooLong h hnewline hlong (by simp; omega)
        rw [stumbles_cons_iff (Nat.lt_of_not_le hlong)] at hstumbles
        obtain ⟨s', hscan, hnext⟩ := Scanner.scan_line h hnewline (Nat.lt_of_not_le hlong)
        have hend : Scanner.dropCR r.line ≠ ascii "END" :=
          ne_end_of_front (show r.line ++ [10] = r.line ++ 10 :: [] from rfl)
        refine readRequests_error hscan hend (Or.inr fun room => ?_)
        refine ih (fun r hr => hplain r (List.mem_cons_of_mem _ hr)) hstart' ?_ hstumbles hnext
        simp only [List.length_append, List.length_cons] at hcut
        omega

/-! ### Cuts that do not show

A reader that delivers line by line gets through them.
-/

theorem readRequests_nil :
    readRequests room (Scanner.new scannerMaxTokenSize (Scanner.lineReader [])) = .ok [] := by
  rw [readRequests]
  rfl

theorem readRequests_eof {reader : Reader} :
    readRequests room ⟨scannerMaxTokenSize, [], reader, some .eof⟩ = .ok [] := by
  rw [readRequests]
  rfl

theorem accepts_of_not_stumbles (hplain : ∀ r ∈ reqs, r.Plain) (hstart : d <+: requestLines reqs)
    (hcut : d.length + 2 ≤ (requestLines reqs).length) (hroom : reqs.length ≤ room)
    (hstumbles : ¬Stumbles (cutLines d).1 (cutLines d).2) :
    ∃ read, readRequests room (Scanner.new scannerMaxTokenSize (Scanner.lineReader d)) = .ok read := by
  rw [not_stumbles_iff] at hstumbles
  obtain ⟨hlines, hfits, hrest⟩ := hstumbles
  induction reqs generalizing d room with
  | nil =>
      -- what is left of `END` has no space
      have hshort := prefix_end_of_cut hstart hcut
      have hspaces := hshort.sublist.count_le (32 : UInt8)
      have hnone : (ascii "EN").count (32 : UInt8) = 0 := by decide
      rw [cutLines_of_notMem fun hmem => absurd (hshort.subset hmem) (by decide)] at hrest
      rcases hrest with hnil | hspaces'
      · dsimp only at hnil
        exact ⟨[], by rw [hnil, readRequests_nil]⟩
      · dsimp only at hspaces'
        omega
  | cons r reqs ih =>
      have hr := hplain r List.mem_cons_self
      have hnewline : (10 : UInt8) ∉ r.line := hr.notMem_line rfl
      rw [requestLines_cons] at hstart hcut
      rw [List.length_cons] at hroom
      obtain ⟨room, rfl⟩ := Nat.exists_eq_add_one_of_ne_zero (show room ≠ 0 by omega)
      rcases prefix_line_cases hstart with hinside | ⟨d', rfl, hstart'⟩
      · have hnotMem : ∀ c, printable c = false → c ∉ d :=
          fun c hc hmem => hr.notMem_line hc (hinside.subset hmem)
        rw [cutLines_of_notMem (hnotMem 10 rfl)] at hfits hrest
        by_cases hnil : d = []
        · exact ⟨[], by rw [hnil, readRequests_nil]⟩
        obtain ⟨r', hparse⟩ := parseRequestLine_cut hr hinside (hrest.resolve_left hnil)
        have hscan := Scanner.scan_lineReader_last (hnotMem 10 rfl) hnil hfits
        rw [dropCR_of_notMem (hnotMem 13 rfl)] at hscan
        refine ⟨[r'], (readRequests_line_eq_ok hscan (ne_end_of_front_line hinside)).mpr ?_⟩
        exact ⟨room, r', [], rfl, hparse, readRequests_eof, rfl⟩
      · rw [cutLines_append d' hnewline] at hlines hfits hrest
        have hclean : r.Clean := ⟨hr.listen, fun c hc => printable_of_isPrint (hr.target c hc),
          hlines r.line List.mem_cons_self⟩
        have hend := ne_end_of_front_line (List.prefix_refl r.line)
        have hscan := Scanner.scan_lineReader (d := d') hnewline hclean.fits
        rw [dropCR_of_notMem (hr.notMem_line rfl)] at hscan
        obtain ⟨read, hread⟩ := ih (fun r hr => hplain r (List.mem_cons_of_mem _ hr)) hstart'
          (by simp only [List.length_append, List.length_cons] at hcut; omega)
          (Nat.le_of_succ_le_succ hroom) (fun line hline => hlines line (List.mem_cons_of_mem _ hline))
          hfits hrest
        refine ⟨r :: read, (readRequests_line_eq_ok hscan hend).mpr ?_⟩
        exact ⟨room, r, read, rfl, parseRequestLine_line hclean, hread, rfl⟩

/-! ### The whole config -/

theorem error_of_not_accepted {reader : Reader}
    (h : ∃ e, readAcceptLine (Scanner.new scannerMaxTokenSize reader) = .error e) :
    ∃ e, readTunnelConfig reader = .error e := by
  obtain ⟨e, he⟩ := h
  exact ⟨e, by rw [readTunnelConfig, he]; rfl⟩

theorem rejects_acceptLine {accept : Bool} (h : s.Holds scannerMaxTokenSize false d)
    (hstart : d <+: acceptLine accept) (hne : d ≠ acceptLine accept) :
    ∃ e, readAcceptLine s = .error e := by
  have hnot : ∀ d ∈ (acceptLine accept).inits, d ≠ acceptLine accept →
      Scanner.dropCR d ≠ ascii "ACCEPT true" ∧ Scanner.dropCR d ≠ ascii "ACCEPT false" := by
    cases accept <;> decide +kernel
  obtain ⟨htrue, hfalse⟩ := hnot d ((List.mem_inits _ _).mpr hstart) hne
  have hnewline : (10 : UInt8) ∉ d := by
    intro hmem
    have hnone : (10 : UInt8) ∉ acceptLine accept := by cases accept <;> decide
    exact hnone (hstart.subset hmem)
  unfold readAcceptLine
  split
  · split
    · exact ⟨_, rfl⟩
    · exact ⟨_, rfl⟩
  · rename_i line s' hscan
    have hline : line = Scanner.dropCR d := by
      by_cases hnil : d = []
      · have hend := Scanner.scan_nil (hnil ▸ h)
        rw [hscan] at hend
        cases hend
      rcases Scanner.scan_last h hnewline hnil with ⟨s'', hlast, _⟩ | ⟨s'', hlast, _⟩
      · rw [hscan] at hlast
        cases hlast
        rfl
      · rw [hscan] at hlast
        cases hlast
    rw [hline, if_neg htrue, if_neg hfalse]
    exact ⟨_, rfl⟩

theorem acceptLine_accepts (accept : Bool) :
    readTunnelConfig (Scanner.lineReader (acceptLine accept)) = .ok (accept, []) := by
  cases accept <;> decide +kernel

theorem readAcceptLine_lineReader (accept : Bool) :
    readAcceptLine
        (Scanner.new scannerMaxTokenSize (Scanner.lineReader (acceptLine accept ++ 10 :: d))) =
      .ok (accept, Scanner.new scannerMaxTokenSize (Scanner.lineReader d)) := by
  rw [readAcceptLine, Scanner.scan_lineReader (by cases accept <;> decide) (by cases accept <;> decide)]
  cases accept <;> rfl

/-- The bytes of a config of plain requests up to a place before its last line is complete, and then
the end of the stream: that is an error, however the bytes are delivered, if and only if the cut
shows. -/
theorem truncated_config_rejected_iff (accept : Bool) (hplain : ∀ r ∈ reqs, r.Plain)
    (hcount : reqs.length ≤ maxTunnelRequests) {p : Bytes}
    (hstart : p <+: writeTunnelConfig accept reqs)
    (hcut : p.length + 2 ≤ (writeTunnelConfig accept reqs).length) :
    (∀ reader : Reader, reader.chunks.flatten = p → reader.fails = false →
      ∃ e, readTunnelConfig reader = .error e) ↔ CutShows accept p := by
  have hlines : writeTunnelConfig accept reqs = acceptLine accept ++ 10 :: requestLines reqs := by
    simp [writeTunnelConfig, requestLines]
  have hnewline : (10 : UInt8) ∉ acceptLine accept := by cases accept <;> decide
  rw [hlines] at hstart hcut
  constructor
  · intro hrejects
    obtain ⟨e, he⟩ := hrejects (Scanner.lineReader p) (Scanner.flatten_lineReader p) rfl
    rcases prefix_line_cases hstart with hinside | ⟨d, rfl, hstart'⟩
    · refine Or.inl ⟨fun hmem => hnewline (hinside.subset hmem), ?_⟩
      rintro rfl
      rw [acceptLine_accepts] at he
      cases he
    · refine Or.inr ⟨by simp, ?_⟩
      rw [cutLines_append d hnewline, stumbles_cons_iff (by cases accept <;> decide)]
      by_contra hstumbles
      obtain ⟨read, hread⟩ := accepts_of_not_stumbles hplain hstart'
        (by simp only [List.length_append, List.length_cons] at hcut; omega) hcount hstumbles
      have hok : readTunnelConfig (Scanner.lineReader (acceptLine accept ++ 10 :: d)) =
          .ok (accept, read) := by
        exact bind_eq_ok.mpr ⟨_, readAcceptLine_lineReader accept, bind_eq_ok.mpr ⟨read, hread, rfl⟩⟩
      rw [hok] at he
      cases he
  · intro hshows reader hdata hok
    have hnew := Scanner.holds_new scannerMaxTokenSize reader
    rw [hdata, hok] at hnew
    rcases prefix_line_cases hstart with hinside | ⟨d, rfl, hstart'⟩
    · have hne : p ≠ acceptLine accept := by
        rcases hshows with ⟨_, hne⟩ | ⟨hmem, _⟩
        · exact hne
        · exact absurd (hinside.subset hmem) hnewline
      exact error_of_not_accepted (rejects_acceptLine hnew hinside hne)
    · have hstumbles : Stumbles (cutLines d).1 (cutLines d).2 := by
        rcases hshows with ⟨hnone, _⟩ | ⟨_, hstumbles⟩
        · exact absurd (by simp) hnone
        · rwa [cutLines_append d hnewline, stumbles_cons_iff (by cases accept <;> decide)] at hstumbles
      obtain ⟨s', haccept, hnext⟩ := readAcceptLine_accept accept hnew
      have hread : ∃ e, readRequestsFromStream s' = .error e := rejects_of_stumbles hplain hstart'
        (by simp only [List.length_append, List.length_cons] at hcut; omega) hstumbles hnext
      obtain ⟨e, he⟩ := hread
      refine ⟨e, ?_⟩
      rw [readTunnelConfig, haccept]
      simp only [bind, Except.bind, he]

/-- One forward, cut behind its listen address. -/
theorem truncated_config_rejected_inside :
    ascii "ACCEPT true\nL 127.0.0.1:8080" <+:
        writeTunnelConfig true [⟨.L, ascii "127.0.0.1:8080", ascii "h:80"⟩] ∧
      ∀ reader : Reader, reader.chunks.flatten = ascii "ACCEPT true\nL 127.0.0.1:8080" →
        reader.fails = false → ∃ e, readTunnelConfig reader = .error e := by
  have hplain : ∀ r ∈ [(⟨.L, ascii "127.0.0.1:8080", ascii "h:80"⟩ : TunnelRequest)], r.Plain := by
    simp only [List.mem_singleton, forall_eq]
    exact ⟨by decide +kernel, by decide +kernel⟩
  refine ⟨by decide +kernel, ?_⟩
  refine (truncated_config_rejected_iff true hplain (by decide +kernel) (by decide +kernel)
    (by decide +kernel)).mpr (Or.inr ⟨by decide +kernel, Or.inr (Or.inr ?_)⟩)
  decide +kernel

/-- The same forward, cut inside its target or behind its line. -/
theorem truncated_config_accepted :
    ascii "ACCEPT true\nL 127.0.0.1:8080 h" <+:
        writeTunnelConfig true [⟨.L, ascii "127.0.0.1:8080", ascii "h:80"⟩] ∧
      readTunnelConfig ⟨[ascii "ACCEPT true\nL 127.0.0.1:8080 h"], false, false⟩ =
        .ok (true, [⟨.L, ascii "127.0.0.1:8080", ascii "h"⟩]) ∧
      ascii "ACCEPT true\n" <+:
        writeTunnelConfig true [⟨.L, ascii "127.0.0.1:8080", ascii "h:80"⟩] ∧
      readTunnelConfig ⟨[ascii "ACCEPT true\n"], false, false⟩ = .ok (true, []) := by
  decide +kernel

end Qvole.App
