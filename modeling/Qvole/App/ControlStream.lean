import Qvole.App.Request

/-!
# Reading back what was written to the control stream

The lines of the writer come back as the same requests exactly if each of them is clean: the listen
address has visible bytes only, the target may have spaces as well, and the line with its newline fits
into the buffer of the scanner. The validation of the specifications asks for none of this: a space in
a listen address, for one, passes it and moves the cut between the two addresses.

Both directions go through the list from the front. Up to the first request that is not clean the reader
agrees with the list; what it makes of that one is an error, or a request that *is* clean and so another
one.
-/

namespace Qvole.App

open Lib

structure TunnelRequest.Clean (r : TunnelRequest) : Prop where
  listen : ∀ c ∈ r.listenAddr, isPrint c
  target : ∀ c ∈ r.targetAddr, printable c
  fits : r.line.length < scannerMaxTokenSize

/-- The requests as they follow the first line. -/
def requestLines (reqs : List TunnelRequest) : Bytes :=
  reqs.flatMap (fun r => r.line ++ [10]) ++ ascii "END" ++ [10]

theorem requestLines_cons (r : TunnelRequest) (reqs : List TunnelRequest) :
    requestLines (r :: reqs) = r.line ++ 10 :: requestLines reqs := by
  simp [requestLines]

theorem printable_iff {c : UInt8} : printable c ↔ 32 ≤ c.toNat ∧ c.toNat < 127 := by
  simp [printable, UInt8.le_iff_toNat_le, UInt8.lt_iff_toNat_lt]

theorem printable_of_isPrint {c : UInt8} (h : isPrint c) : printable c := by
  rw [isPrint_iff] at h
  rw [printable_iff]
  omega

theorem isPrint_of_printable {c : UInt8} (h : printable c) (hspace : c ≠ 32) : isPrint c := by
  have hne : c.toNat ≠ 32 := fun heq => hspace (UInt8.toNat_inj.mp heq)
  rw [printable_iff] at h
  rw [isPrint_iff]
  omega

theorem parseAddr_eq_self {s : Bytes} (h : ∀ c ∈ s, printable c) : parseAddr s = s :=
  List.filter_eq_self.mpr h

theorem printable_of_mem_parseAddr {s : Bytes} {c : UInt8} (h : c ∈ parseAddr s) : printable c :=
  (List.mem_filter.mp h).2

/-! ### One line -/

theorem notMem_of_splitN {sep : UInt8} {s a b c : Bytes} (h : splitN sep 3 s = [a, b, c]) :
    sep ∉ b := by
  rw [splitN] at h
  split at h
  · cases h
  rename_i rest hcut
  obtain ⟨_, h⟩ := List.cons.inj h
  rw [splitN] at h
  split at h
  · cases h
  rename_i target hcut'
  obtain ⟨rfl, _⟩ := List.cons.inj h
  exact (eq_of_cut_some hcut').2

theorem dropCR_of_notMem {line : Bytes} (h : (13 : UInt8) ∉ line) : Scanner.dropCR line = line := by
  rw [Scanner.dropCR, if_neg]
  intro hlast
  exact h (List.mem_of_getLast? hlast)

theorem TunnelType.printable_text (t : TunnelType) : ∀ c ∈ t.text, isPrint c := by
  cases t <;> decide +kernel

/-- Nothing but visible bytes and spaces in the addresses, then nothing else in the line. -/
theorem notMem_line {r : TunnelRequest} (hlisten : ∀ c ∈ r.listenAddr, isPrint c)
    (htarget : ∀ c ∈ r.targetAddr, printable c) {c : UInt8} (hc : printable c = false) :
    c ∉ r.line := by
  intro hmem
  have hprintable : printable c = true := by
    simp only [TunnelRequest.line, List.mem_append, List.mem_singleton] at hmem
    rcases hmem with (((hmem | rfl) | hmem) | rfl) | hmem
    · exact printable_of_isPrint (r.type.printable_text c hmem)
    · rfl
    · exact printable_of_isPrint (hlisten c hmem)
    · rfl
    · exact htarget c hmem
  rw [hprintable] at hc
  cases hc

/-- A clean request is read off its line. -/
theorem parseRequestLine_line {r : TunnelRequest} (h : r.Clean) : parseRequestLine r.line = .ok r := by
  have hlisten := parseAddr_eq_self fun c hc => printable_of_isPrint (h.listen c hc)
  have htarget := parseAddr_eq_self h.target
  have hline : splitN 32 3 r.line = [r.type.text, r.listenAddr, r.targetAddr] := by
    have hfields : r.line = r.type.text ++ 32 :: (r.listenAddr ++ 32 :: r.targetAddr) := by
      simp [TunnelRequest.line]
    rw [hfields, splitN_append 1 _ (space_notMem r.type.printable_text),
      splitN_append 0 _ (space_notMem h.listen)]
    rfl
  unfold parseRequestLine
  rw [hline]
  dsimp only
  rw [hlisten, htarget]
  obtain ⟨type, listenAddr, targetAddr⟩ := r
  cases type <;> rfl

/-- Whatever line it was, a request that was read has visible addresses. -/
theorem printable_of_parseRequestLine {line : Bytes} {r : TunnelRequest}
    (h : parseRequestLine line = .ok r) :
    (∀ c ∈ r.listenAddr, isPrint c) ∧ ∀ c ∈ r.targetAddr, printable c := by
  have hfields : ∃ listen target, (32 : UInt8) ∉ listen ∧ r.listenAddr = parseAddr listen ∧
      r.targetAddr = parseAddr target := by
    unfold parseRequestLine at h
    split at h
    · rename_i type listen target hsplit
      refine ⟨listen, target, notMem_of_splitN hsplit, ?_⟩
      split at h
      · cases h
        exact ⟨rfl, rfl⟩
      split at h
      · cases h
        exact ⟨rfl, rfl⟩
      · cases h
    · cases h
  obtain ⟨listen, target, hspace, hlisten, htarget⟩ := hfields
  rw [hlisten, htarget]
  refine ⟨fun c hc => ?_, fun c hc => printable_of_mem_parseAddr hc⟩
  refine isPrint_of_printable (printable_of_mem_parseAddr hc) ?_
  rintro rfl
  exact hspace (List.mem_filter.mp hc).1

/-! ### The list of lines -/

section

variable {room size : Nat} {s s' : Scanner} {line d : Bytes} {r : TunnelRequest}
  {reqs : List TunnelRequest}

theorem error_of_holds (h : s.Holds size false d) : s.error = none := by
  unfold Scanner.error
  rcases h.stopped with herr | ⟨herr, _⟩
  · rw [herr]
    rfl
  · rw [herr, Reader.stop, h.fails_eq]
    rfl

theorem readRequests_end (hscan : s.scan = (some (ascii "END"), s')) (herror : s'.error = none) :
    readRequests room s = .ok [] := by
  rw [readRequests, hscan]
  simp [requestsEnd, herror]

theorem readRequests_stopped (hscan : s.scan = (none, s')) (herr : s'.err = some .tooLong) :
    readRequests room s = .error (.requestsRead .tooLong) := by
  rw [readRequests, hscan]
  simp [requestsEnd, Scanner.error, herr]

theorem readRequests_line_eq_ok (hscan : s.scan = (some line, s')) (hend : line ≠ ascii "END") :
    readRequests room s = .ok reqs ↔
      ∃ room' r rest, room = room' + 1 ∧ parseRequestLine line = .ok r ∧
        readRequests room' s' = .ok rest ∧ reqs = r :: rest := by
  rw [readRequests, hscan]
  dsimp only
  rw [if_neg hend]
  cases room with
  | zero => simp
  | succ room =>
      dsimp only
      constructor
      · intro h
        obtain ⟨r, hr, h⟩ := bind_eq_ok.mp h
        obtain ⟨rest, hrest, h⟩ := bind_eq_ok.mp h
        exact ⟨room, r, rest, rfl, hr, hrest, (Except.ok.inj h).symm⟩
      · rintro ⟨room', r, rest, hroom, hr, hrest, rfl⟩
        cases hroom
        exact bind_eq_ok.mpr ⟨r, hr, bind_eq_ok.mpr ⟨rest, hrest, rfl⟩⟩

/-- The text of a request starts with its type. -/
theorem ne_end_of_front {rest rest' : Bytes} (h : r.line ++ rest = line ++ 10 :: rest') :
    Scanner.dropCR line ≠ ascii "END" := by
  intro hend
  have hfront : Scanner.dropCR line <+: line := by
    unfold Scanner.dropCR
    split
    · exact List.dropLast_prefix line
    · exact List.prefix_rfl
  rw [hend] at hfront
  obtain ⟨more, rfl⟩ := hfront
  obtain ⟨type, listenAddr, targetAddr⟩ := r
  cases type <;> cases h

/-- The next line of the list is read as the request that stands there only if that one is clean, and
then the reader is at the line behind it. -/
theorem clean_of_readRequests (h : s.Holds scannerMaxTokenSize false (requestLines (r :: reqs)))
    (hread : readRequests room s = .ok (r :: reqs)) :
    r.Clean ∧ ∃ room' s', s'.Holds scannerMaxTokenSize false (requestLines reqs) ∧
      room = room' + 1 ∧ readRequests room' s' = .ok reqs := by
  rw [requestLines_cons] at h
  obtain ⟨line, rest, hline, hnewline⟩ := List.eq_append_cons_of_mem
    (show (10 : UInt8) ∈ r.line ++ 10 :: requestLines reqs by simp)
  rw [hline] at h
  by_cases hshort : line.length < scannerMaxTokenSize
  · obtain ⟨s', hscan, hnext⟩ := Scanner.scan_line h hnewline hshort
    obtain ⟨room', r', rest', hroom, hparse, hrest, heq⟩ :=
      (readRequests_line_eq_ok hscan (ne_end_of_front hline)).mp hread
    cases heq
    obtain ⟨hlisten, htarget⟩ := printable_of_parseRequestLine hparse
    obtain ⟨rfl, rfl⟩ := eq_of_append_cons hline (notMem_line hlisten htarget rfl) hnewline
    exact ⟨⟨hlisten, htarget, hshort⟩, room', s', hnext, hroom, hrest⟩
  · obtain ⟨s', hscan, herr⟩ := Scanner.scan_tooLong h (by simp; omega) (by
      rw [List.take_append_of_le_length (Nat.le_of_not_lt hshort)]
      exact fun hmem => hnewline (List.mem_of_mem_take hmem))
    rw [readRequests_stopped hscan herr] at hread
    cases hread

theorem readRequests_of_clean (h : s.Holds scannerMaxTokenSize false (requestLines reqs))
    (hroom : reqs.length ≤ room) (hclean : ∀ r ∈ reqs, r.Clean) : readRequests room s = .ok reqs := by
  induction reqs generalizing room s with
  | nil =>
      have hlast : s.Holds scannerMaxTokenSize false (ascii "END" ++ 10 :: []) := h
      obtain ⟨s', hscan, hnext⟩ := Scanner.scan_line hlast (by decide) (by decide)
      exact readRequests_end hscan (error_of_holds hnext)
  | cons r reqs ih =>
      have hr := hclean r List.mem_cons_self
      have hnotMem := fun c => notMem_line (c := c) hr.listen hr.target
      rw [requestLines_cons] at h
      obtain ⟨s', hscan, hnext⟩ := Scanner.scan_line h (hnotMem 10 rfl) hr.fits
      have hend : Scanner.dropCR r.line ≠ ascii "END" :=
        ne_end_of_front (show r.line ++ [10] = r.line ++ 10 :: [] from rfl)
      rw [dropCR_of_notMem (hnotMem 13 rfl)] at hscan hend
      obtain ⟨room', rfl⟩ := Nat.exists_eq_add_one_of_ne_zero
        (show room ≠ 0 by rw [List.length_cons] at hroom; omega)
      exact (readRequests_line_eq_ok hscan hend).mpr ⟨room', r, reqs, rfl, parseRequestLine_line hr,
        ih hnext (Nat.le_of_succ_le_succ hroom) fun r hr => hclean r (List.mem_cons_of_mem _ hr), rfl⟩

theorem clean_of_read (h : s.Holds scannerMaxTokenSize false (requestLines reqs))
    (hread : readRequests room s = .ok reqs) : ∀ r ∈ reqs, r.Clean := by
  induction reqs generalizing room s with
  | nil => simp
  | cons r reqs ih =>
      obtain ⟨hr, room', s', hnext, _, hrest⟩ := clean_of_readRequests h hread
      exact List.forall_mem_cons.mpr ⟨hr, ih hnext hrest⟩

end

/-! ### The whole config -/

theorem readAcceptLine_accept (accept : Bool) {s : Scanner} {rest : Bytes}
    (h : s.Holds scannerMaxTokenSize false (acceptLine accept ++ 10 :: rest)) :
    ∃ s', readAcceptLine s = .ok (accept, s') ∧ s'.Holds scannerMaxTokenSize false rest := by
  have hline : (10 : UInt8) ∉ acceptLine accept ∧ (acceptLine accept).length < scannerMaxTokenSize := by
    cases accept <;> decide
  obtain ⟨s', hscan, hnext⟩ := Scanner.scan_line h hline.1 hline.2
  refine ⟨s', ?_, hnext⟩
  rw [readAcceptLine, hscan]
  cases accept <;> rfl

/-- However the stream delivers it, a config comes back as it was written if and only if all its
requests are clean. -/
theorem readTunnelConfig_eq_iff {accept : Bool} {reqs : List TunnelRequest} {reader : Reader}
    (hdata : reader.chunks.flatten = writeTunnelConfig accept reqs) (hok : reader.fails = false)
    (hcount : reqs.length ≤ maxTunnelRequests) :
    readTunnelConfig reader = .ok (accept, reqs) ↔ ∀ r ∈ reqs, r.Clean := by
  have hnew := Scanner.holds_new scannerMaxTokenSize reader
  have hlines : writeTunnelConfig accept reqs = acceptLine accept ++ 10 :: requestLines reqs := by
    simp [writeTunnelConfig, requestLines]
  rw [hdata, hok, hlines] at hnew
  obtain ⟨s', haccept, hnext⟩ := readAcceptLine_accept accept hnew
  unfold readTunnelConfig
  constructor
  · intro h
    obtain ⟨_, haccept', h⟩ := bind_eq_ok.mp h
    rw [haccept] at haccept'
    cases haccept'
    obtain ⟨reqs', hread, h⟩ := bind_eq_ok.mp h
    cases h
    exact clean_of_read hnext hread
  · intro hclean
    exact bind_eq_ok.mpr ⟨_, haccept,
      bind_eq_ok.mpr ⟨reqs, readRequests_of_clean hnext hcount hclean, rfl⟩⟩

theorem length_of_mapM_eq_ok {α β ε : Type} {f : α → Except ε β} {l : List α} {l' : List β}
    (h : l.mapM f = .ok l') : l'.length = l.length := by
  induction l generalizing l' with
  | nil =>
      cases h
      rfl
  | cons a l ih =>
      rw [List.mapM_cons] at h
      obtain ⟨b, _, h⟩ := bind_eq_ok.mp h
      obtain ⟨rest, hrest, h⟩ := bind_eq_ok.mp h
      cases h
      rw [List.length_cons, List.length_cons, ih hrest]

/-- Requests of specifications that pass the validation are few enough to be read. -/
theorem length_of_validated {localTunnels remoteTunnels allowListen allowForward : List Bytes}
    {allowAll : Bool} {reqs : List TunnelRequest}
    (hvalid : validateTunnelConfig localTunnels remoteTunnels allowListen allowForward allowAll = .ok ())
    (hparse : parseTunnels localTunnels remoteTunnels = .ok reqs) :
    reqs.length ≤ maxTunnelRequests := by
  obtain ⟨locals, hlocals, h⟩ := bind_eq_ok.mp hparse
  obtain ⟨remotes, hremotes, h⟩ := bind_eq_ok.mp h
  cases h
  rw [List.length_append, length_of_mapM_eq_ok hlocals, length_of_mapM_eq_ok hremotes]
  unfold validateTunnelConfig at hvalid
  dsimp only at hvalid
  split at hvalid
  · cases hvalid
  · rename_i hcount
    exact Nat.le_of_not_lt hcount

/-- For specifications that pass the validation, the config comes back as it was written if and only if
every request has a visible listen address, a printable target and a line that fits. -/
theorem control_stream_round_trip_iff (accept : Bool)
    {localTunnels remoteTunnels allowListen allowForward : List Bytes} {allowAll : Bool}
    {reqs : List TunnelRequest}
    (hvalid : validateTunnelConfig localTunnels remoteTunnels allowListen allowForward allowAll = .ok ())
    (hparse : parseTunnels localTunnels remoteTunnels = .ok reqs) {reader : Reader}
    (hdata : reader.chunks.flatten = writeTunnelConfig accept reqs) (hok : reader.fails = false) :
    readTunnelConfig reader = .ok (accept, reqs) ↔
      ∀ r ∈ reqs, (∀ c ∈ r.listenAddr, isPrint c) ∧ (∀ c ∈ r.targetAddr, printable c) ∧
        r.line.length < scannerMaxTokenSize := by
  rw [readTunnelConfig_eq_iff hdata hok (length_of_validated hvalid hparse)]
  exact forall₂_congr fun r _ => ⟨fun h => ⟨h.listen, h.target, h.fits⟩, fun h => ⟨h.1, h.2.1, h.2.2⟩⟩

theorem control_stream_round_trip_plain :
    readTunnelConfig ⟨[writeTunnelConfig true [⟨.L, ascii "127.0.0.1:8080", ascii "h:80"⟩]], false,
      false⟩ = .ok (true, [⟨.L, ascii "127.0.0.1:8080", ascii "h:80"⟩]) := by
  have hvalid : validateTunnelConfig [ascii "8080:h:80"] [] [] [] false = .ok () := by decide +kernel
  have hparse : parseTunnels [ascii "8080:h:80"] [] =
      .ok [⟨.L, ascii "127.0.0.1:8080", ascii "h:80"⟩] := by
    decide +kernel
  exact (control_stream_round_trip_iff true hvalid hparse (List.append_nil _) rfl).mpr
    (by decide +kernel)

/-- A target whose name is not ASCII. -/
def umlautSpec : Bytes := ascii "8080:b" ++ [0xc3, 0xbc] ++ ascii "cher.example:80"

def umlautRequest : TunnelRequest :=
  ⟨.L, ascii "127.0.0.1:8080", ascii "b" ++ [0xc3, 0xbc] ++ ascii "cher.example:80"⟩

/-- The specification passes the validation and the peer reads another host. -/
theorem control_stream_other_host :
    validateTunnelConfig [umlautSpec] [] [] [] false = .ok () ∧
      parseTunnels [umlautSpec] [] = .ok [umlautRequest] ∧
      readTunnelConfig ⟨[writeTunnelConfig true [umlautRequest]], false, false⟩ =
        .ok (true, [⟨.L, ascii "127.0.0.1:8080", ascii "bcher.example:80"⟩]) ∧
      umlautRequest.targetAddr ≠ ascii "bcher.example:80" := by
  decide +kernel

end Qvole.App
