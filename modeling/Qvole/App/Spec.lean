import Qvole.App.Request
import Qvole.Lib.NetText

/-!
# The hosts a specification names

`ParseTunnelRequest` takes the brackets off a host and joins it with its port, and whoever listens or
dials takes the joined text apart again. The pieces of a specification have as many opening brackets as
closing ones, and for such hosts the way through the text takes off one more pair of brackets, if there
is one. The test for an empty listen host sits between the two, so it does not see what the second pair
leaves.
-/

namespace Qvole.App

open Lib

variable {spec host port laddr lport raddr rport : Bytes} {typ : TunnelType} {req : TunnelRequest}

/-! ### Brackets -/

/-- Each piece closes the brackets it opens; the one at hand has `depth` of them open. -/
theorem count_of_splitLoop {depth : Nat} {cur s : Bytes} {parts : List Bytes}
    (h : splitLoop depth cur s = some parts) (hcur : cur.count 91 = cur.count 93 + depth) :
    ∀ x ∈ parts, x.count 91 = x.count 93 := by
  fun_induction splitLoop depth cur s generalizing parts with
  | case1 cur =>
      intro x hx
      rw [← Option.some.inj h, List.mem_singleton] at hx
      rw [hx, List.count_reverse, List.count_reverse, hcur, Nat.add_zero]
  | case2 => cases h
  | case3 depth cur s ih =>
      apply ih h
      simp [hcur]
      omega
  | case4 => cases h
  | case5 depth cur s hne hpos ih =>
      apply ih h
      simp [hcur]
      omega
  | case6 depth cur c s hopen hclose hsplit ih =>
      obtain ⟨rest, hrest, rfl⟩ := Option.map_eq_some_iff.mp h
      intro x hx
      rcases List.mem_cons.mp hx with rfl | hx
      · rw [List.count_reverse, List.count_reverse, hcur, hsplit.2, Nat.add_zero]
      · exact ih hrest rfl x hx
  | case7 depth cur c s hopen hclose hsplit ih =>
      apply ih h
      rw [List.count_cons_of_ne hopen, List.count_cons_of_ne hclose, hcur]

theorem count_of_split {parts : List Bytes} (h : splitTunnelRequest spec = some parts) :
    ∀ x ∈ parts, x.count 91 = x.count 93 :=
  count_of_splitLoop h rfl

theorem stripBrackets_cons_append (s : Bytes) : stripBrackets (91 :: (s ++ [93])) = s := by
  have hlast : (91 :: (s ++ [93])).getLast? = some 93 := by
    rw [← List.cons_append, List.getLast?_concat]
  rw [stripBrackets, if_pos ⟨rfl, hlast⟩, List.tail_cons, List.dropLast_concat]

theorem stripBrackets_of_head (h : host.head? ≠ some 91) : stripBrackets host = host :=
  if_neg fun hbrackets => h hbrackets.1

theorem eq_of_stripBrackets (host : Bytes) :
    stripBrackets host = host ∨ host = 91 :: (stripBrackets host ++ [93]) := by
  by_cases hbrackets : host.head? = some 91 ∧ host.getLast? = some 93
  · right
    obtain ⟨hhead, hlast⟩ := hbrackets
    obtain ⟨s, rfl⟩ := List.head?_eq_some_iff.mp hhead
    rcases List.eq_nil_or_concat s with rfl | ⟨inner, c, rfl⟩
    · cases hlast
    · rw [List.concat_eq_append, ← List.cons_append, List.getLast?_concat] at hlast
      rw [List.concat_eq_append, Option.some.inj hlast, stripBrackets_cons_append]
  · exact Or.inl (if_neg hbrackets)

theorem count_stripBrackets (h : host.count 91 = host.count 93) :
    (stripBrackets host).count 91 = (stripBrackets host).count 93 := by
  rcases eq_of_stripBrackets host with heq | heq
  · rw [heq, h]
  · rw [heq] at h
    simpa using h

theorem stripBrackets_eq_nil : stripBrackets host = [] ↔ host = [] ∨ host = ascii "[]" := by
  constructor
  · intro h
    rcases eq_of_stripBrackets host with heq | heq
    · exact Or.inl (heq ▸ h)
    · rw [h] at heq
      exact Or.inr heq
  · rintro (rfl | rfl) <;> rfl

/-- Only two pairs of brackets around nothing are more than the test for an empty host sees. -/
theorem listen_host_eq_nil :
    (if stripBrackets laddr = [] then ascii "127.0.0.1" else stripBrackets (stripBrackets laddr)) = [] ↔
      laddr = ascii "[[]]" := by
  constructor
  · intro h
    split at h
    · cases h
    · rename_i hsome
      have hinner := (stripBrackets_eq_nil.mp h).resolve_left hsome
      rcases eq_of_stripBrackets laddr with heq | heq
      · rw [heq] at hinner hsome
        rw [hinner] at heq
        cases heq
      · rw [heq, hinner]
        rfl
  · rintro rfl
    rfl

/-- Joining a host with its port and taking the text apart takes off one pair of brackets. -/
theorem host_of_joined {host' port' : Bytes} (hbalanced : host.count 91 = host.count 93)
    (h : splitHostPort (joinHostPort host port) = some (host', port')) :
    host' = stripBrackets host ∧ port' = port := by
  obtain ⟨hport, ⟨hhost, hopen⟩ | hhost⟩ := splitHostPort_join_inv hbalanced h
  · refine ⟨?_, hport⟩
    rw [stripBrackets_of_head fun hhead => hopen (List.mem_of_head? hhead), hhost]
  · refine ⟨?_, hport⟩
    rw [hhost, stripBrackets_cons_append]

/-! ### The listener -/

/-- The host a request listens on before its port is joined to it. -/
theorem listenAddr_cases (h : parseTunnelRequest spec typ = .ok req) :
    (∃ lport raddr rport, splitTunnelRequest spec = some [lport, raddr, rport] ∧
      req.listenAddr = joinHostPort (ascii "127.0.0.1") lport) ∨
    ∃ laddr lport raddr rport, splitTunnelRequest spec = some [laddr, lport, raddr, rport] ∧
      req.listenAddr =
        joinHostPort (if stripBrackets laddr = [] then ascii "127.0.0.1" else stripBrackets laddr) lport := by
  unfold parseTunnelRequest at h
  split at h
  · rename_i lport raddr rport hsplit
    cases h
    exact Or.inl ⟨lport, raddr, rport, hsplit, rfl⟩
  · rename_i laddr lport raddr rport hsplit
    cases h
    exact Or.inr ⟨laddr, lport, raddr, rport, hsplit, rfl⟩
  · cases h

/-- The host of the listen address, as `net.Listen` takes it. -/
theorem listen_host_cases (h : parseTunnelRequest spec typ = .ok req)
    (hsplit : splitHostPort req.listenAddr = some (host, port)) :
    (∃ lport raddr rport, splitTunnelRequest spec = some [lport, raddr, rport] ∧ host = ascii "127.0.0.1") ∨
    ∃ laddr lport raddr rport, splitTunnelRequest spec = some [laddr, lport, raddr, rport] ∧
      host = if stripBrackets laddr = [] then ascii "127.0.0.1" else stripBrackets (stripBrackets laddr) := by
  rcases listenAddr_cases h with ⟨lport, raddr, rport, hparts, haddr⟩ |
    ⟨laddr, lport, raddr, rport, hparts, haddr⟩
  · rw [haddr] at hsplit
    exact Or.inl ⟨lport, raddr, rport, hparts, (host_of_joined (by decide) hsplit).1⟩
  · rw [haddr] at hsplit
    refine Or.inr ⟨laddr, lport, raddr, rport, hparts, ?_⟩
    split at hsplit
    · rename_i hempty
      rw [if_pos hempty, (host_of_joined (by decide) hsplit).1]
      rfl
    · rename_i hsome
      have hbalanced := count_stripBrackets (count_of_split hparts laddr List.mem_cons_self)
      rw [if_neg hsome, (host_of_joined hbalanced hsplit).1]

/-- A specification accepted as a request listens on a host that is not empty, if and only if it does not
give `[[]]` for it. Without a listen host, or with an empty one, the host is `127.0.0.1`. -/
theorem listen_host_ne_nil_iff (h : parseTunnelRequest spec typ = .ok req)
    (hsplit : splitHostPort req.listenAddr = some (host, port)) :
    (host ≠ [] ↔ ∀ laddr lport raddr rport,
      splitTunnelRequest spec = some [laddr, lport, raddr, rport] → laddr ≠ ascii "[[]]") ∧
    ((∃ lport raddr rport, splitTunnelRequest spec = some [lport, raddr, rport]) ∨
      (∃ laddr lport raddr rport, splitTunnelRequest spec = some [laddr, lport, raddr, rport] ∧
        (laddr = [] ∨ laddr = ascii "[]")) → host = ascii "127.0.0.1") := by
  rcases listen_host_cases h hsplit with ⟨lport, raddr, rport, hparts, hhost⟩ |
    ⟨laddr, lport, raddr, rport, hparts, hhost⟩
  · refine ⟨iff_of_true ?_ ?_, fun _ => hhost⟩
    · rw [hhost]
      decide
    · intro laddr' lport' raddr' rport' hparts'
      rw [hparts] at hparts'
      cases hparts'
  · constructor
    · have hall : (∀ laddr' lport' raddr' rport',
          splitTunnelRequest spec = some [laddr', lport', raddr', rport'] → laddr' ≠ ascii "[[]]") ↔
          laddr ≠ ascii "[[]]" := by
        constructor
        · intro hne
          exact hne laddr lport raddr rport hparts
        · intro hne laddr' lport' raddr' rport' hparts'
          rw [hparts] at hparts'
          cases hparts'
          exact hne
      rw [hall, hhost, not_iff_not, listen_host_eq_nil]
    · rintro (⟨lport', raddr', rport', hparts'⟩ | ⟨laddr', lport', raddr', rport', hparts', hempty⟩)
      · rw [hparts] at hparts'
        cases hparts'
      · rw [hparts] at hparts'
        cases hparts'
        rw [hhost, if_pos (stripBrackets_eq_nil.mpr hempty)]

theorem listen_host_loopback : ∃ req host port, parseTunnelRequest (ascii "[]:8080:h:80") .L = .ok req ∧
    splitHostPort req.listenAddr = some (host, port) ∧ host ≠ [] ∧ host = ascii "127.0.0.1" := by
  have hparse : parseTunnelRequest (ascii "[]:8080:h:80") .L =
      .ok ⟨.L, ascii "127.0.0.1:8080", ascii "h:80"⟩ := by decide +kernel
  have hsplit : splitHostPort (ascii "127.0.0.1:8080") = some (ascii "127.0.0.1", ascii "8080") := by
    decide +kernel
  have hparts : splitTunnelRequest (ascii "[]:8080:h:80") =
      some [ascii "[]", ascii "8080", ascii "h", ascii "80"] := by decide +kernel
  obtain ⟨hne, hloopback⟩ := listen_host_ne_nil_iff hparse hsplit
  refine ⟨_, _, _, hparse, hsplit, hne.mpr ?_, hloopback (Or.inr ⟨_, _, _, _, hparts, Or.inr rfl⟩)⟩
  intro laddr lport raddr rport hparts'
  rw [hparts] at hparts'
  cases hparts'
  decide

/-- A listener on all interfaces, of a specification whose listen host is two pairs of brackets. -/
theorem listen_host_empty : ∃ req, parseTunnelRequest (ascii "[[]]:8080:h:80") .L = .ok req ∧
    splitHostPort req.listenAddr = some ([], ascii "8080") :=
  ⟨⟨.L, ascii "[]:8080", ascii "h:80"⟩, by decide +kernel, by decide +kernel⟩

end Qvole.App
