import Qvole.Lib.NetText
import Qvole.Relay.State

/-!
# The key of a source address

Every cap of the relay counts by `ipKey`, which prints the source, takes host and port of the text apart
and parses the host. Without a zone this gives the address back, and the key is the text of the IPv4
address or of the `/64`. With a zone the host is no address to `parseIP`, so the key is the host itself
and every address of the link has its own.
-/

namespace Qvole.Relay

open Lib

variable {a b : UDPAddr} {ip4 : Bytes}

/-- An IPv6 source that is neither loopback nor an IPv4-mapped address. The zone has no bracket in it,
so that host and port of the text can be told apart. -/
structure V6Source (a : UDPAddr) : Prop where
  length : a.ip.length = 16
  notMapped : a.ip.to4 = none
  notLoopback : a.ip.isLoopback = false
  zone : 91 ∉ a.zone ∧ 93 ∉ a.zone

/-- An IPv4 source, possibly in IPv4-mapped form. -/
structure V4Source (a : UDPAddr) : Prop where
  to4 : a.ip.to4.isSome
  zone : a.zone = []

/-! ### The key of each kind -/

theorem splitHostPort_join_itoa {host : Bytes} {port : Nat} (hopen : 91 ∉ host) (hclose : 93 ∉ host) :
    splitHostPort (joinHostPort host (itoa port)) = some (host, itoa port) := by
  refine splitHostPort_joinHostPort hopen hclose ?_
  intro c hc
  have hdigit := isDigit_of_mem_itoa hc
  refine ⟨?_, ?_, ?_⟩ <;> rintro rfl <;> cases hdigit

theorem V6Source.bracket_notMem (h : V6Source a) : 91 ∉ a.ip.string ∧ 93 ∉ a.ip.string := by
  have hchars := (IP.string_chars_v6 h.length h.notMapped).2
  refine ⟨fun hmem => absurd (hchars 91 hmem) (by decide), fun hmem => absurd (hchars 93 hmem) (by decide)⟩

theorem V6Source.string_eq (h : V6Source a) : a.string =
    joinHostPort (if a.zone = [] then a.ip.string else a.ip.string ++ 37 :: a.zone) (itoa a.port) := by
  have hne : a.ip ≠ [] := by
    intro hnil
    have hlen := h.length
    rw [hnil] at hlen
    cases hlen
  rw [UDPAddr.string, if_neg hne]

theorem V6Source.ipKey_eq (h : V6Source a) (hzone : a.zone = []) :
    ipKey a.string = a.ip.mask64.string := by
  have hbrackets := h.bracket_notMem
  rw [h.string_eq, if_pos hzone, ipKey, splitHostPort_join_itoa hbrackets.1 hbrackets.2]
  dsimp only
  rw [parseIP_string_v6 h.length h.notMapped]
  dsimp only
  rw [h.notMapped, h.notLoopback]
  rfl

theorem V6Source.ipKey_of_zone (h : V6Source a) (hzone : a.zone ≠ []) :
    ipKey a.string = a.ip.string ++ 37 :: a.zone := by
  have hbrackets := h.bracket_notMem
  have hhost : 91 ∉ a.ip.string ++ 37 :: a.zone ∧ 93 ∉ a.ip.string ++ 37 :: a.zone := by
    simp [hbrackets, h.zone]
  rw [h.string_eq, if_neg hzone, ipKey, splitHostPort_join_itoa hhost.1 hhost.2]
  dsimp only
  rw [parseIP_of_percent (by simp)]

theorem ipKey_of_to4 (h : a.ip.to4 = some ip4) (hzone : a.zone = []) : ipKey a.string = a.ip.string := by
  have hne : a.ip ≠ [] := by
    intro hnil
    rw [hnil] at h
    cases h
  have hnot : ∀ c : UInt8, c ≠ 46 → isDigit c = false → c ∉ a.ip.string := by
    intro c hdot hdigit hmem
    rcases IP.string_chars_v4 h hmem with hc | hc
    · exact hdot hc
    · rw [hdigit] at hc
      cases hc
  have hmapped := IP.to4_mapped (IP.length_of_to4 h)
  rw [UDPAddr.string, if_neg hne, if_pos hzone, ipKey,
    splitHostPort_join_itoa (hnot 91 (by decide) (by decide)) (hnot 93 (by decide) (by decide))]
  dsimp only
  rw [parseIP_string_v4 h]
  dsimp only
  rw [hmapped, IP.string_of_to4 hmapped, IP.string_of_to4 h]
  rfl

/-! ### What the keys have in common -/

theorem V6Source.length_mask64 (h : V6Source a) : a.ip.mask64.length = 16 := by
  simp [IP.mask64, h.length]

/-- The last two bytes of the mapped prefix are among those the mask clears. -/
theorem V6Source.to4_mask64 (h : V6Source a) : a.ip.mask64.to4 = none := by
  rw [IP.to4, if_neg (by rw [h.length_mask64]; decide), if_neg]
  rintro ⟨_, hmapped⟩
  have hbyte := congrArg (fun s => s[11]?) hmapped
  simp [IP.mask64, h.length, v4InV6Prefix] at hbyte

theorem V6Source.parseIP_mask64 (h : V6Source a) : parseIP a.ip.mask64.string = some a.ip.mask64 :=
  parseIP_string_v6 h.length_mask64 h.to4_mask64

theorem V6Source.mask64_eq_iff (ha : V6Source a) (hb : V6Source b) :
    a.ip.mask64 = b.ip.mask64 ↔ a.ip.take 8 = b.ip.take 8 := by
  rw [IP.mask64, IP.mask64, ha.length, hb.length]
  exact List.append_left_inj _

/-- What `parseIP` makes of the key of an IPv6 source: the `/64`, and nothing for a source with a zone. -/
theorem V6Source.parseIP_ipKey (h : V6Source a) :
    parseIP (ipKey a.string) = if a.zone = [] then some a.ip.mask64 else none := by
  split
  · rename_i hzone
    rw [h.ipKey_eq hzone, h.parseIP_mask64]
  · rename_i hzone
    rw [h.ipKey_of_zone hzone, parseIP_of_percent (by simp)]

theorem V4Source.parseIP_ipKey (h : V4Source a) :
    ∃ ip4, a.ip.to4 = some ip4 ∧ parseIP (ipKey a.string) = some (v4InV6Prefix ++ ip4) := by
  obtain ⟨ip4, hip4⟩ := Option.isSome_iff_exists.mp h.to4
  refine ⟨ip4, hip4, ?_⟩
  rw [ipKey_of_to4 hip4 h.zone, parseIP_string_v4 hip4]

theorem V6Source.ipKey_eq_iff (ha : V6Source a) (hb : V6Source b) (hzone : a.zone = b.zone) :
    ipKey a.string = ipKey b.string ↔
      if a.zone = [] then a.ip.take 8 = b.ip.take 8 else a.ip = b.ip := by
  split
  · rename_i hempty
    rw [← ha.mask64_eq_iff hb]
    constructor
    · intro h
      have hparse := congrArg parseIP h
      rw [ha.parseIP_ipKey, hb.parseIP_ipKey, if_pos hempty, if_pos (hzone ▸ hempty)] at hparse
      exact Option.some.inj hparse
    · intro h
      rw [ha.ipKey_eq hempty, hb.ipKey_eq (hzone ▸ hempty), h]
  · rename_i hsome
    rw [ha.ipKey_of_zone hsome, hb.ipKey_of_zone (hzone ▸ hsome), hzone, List.append_left_inj]
    constructor
    · intro h
      have hparse := congrArg parseIP h
      rw [parseIP_string_v6 ha.length ha.notMapped, parseIP_string_v6 hb.length hb.notMapped] at hparse
      exact Option.some.inj hparse
    · intro h
      rw [h]

/-- The keys of two IPv6 sources with the same zone are equal exactly for the same `/64`, if and only if
there is no zone or the two addresses are equal or in different `/64`s. The keys of IPv4 sources are those
of their addresses, and no IPv6 source shares one of them. -/
theorem ipKey_aggregates_iff (a b : UDPAddr) :
    (V6Source a → V6Source b → a.zone = b.zone →
      ((ipKey a.string = ipKey b.string ↔ a.ip.take 8 = b.ip.take 8) ↔
        a.zone = [] ∨ a.ip = b.ip ∨ a.ip.take 8 ≠ b.ip.take 8)) ∧
    (V4Source a → V4Source b → (ipKey a.string = ipKey b.string ↔ a.ip.to4 = b.ip.to4)) ∧
    (V6Source a → V4Source b → ipKey a.string ≠ ipKey b.string) := by
  refine ⟨?_, ?_, ?_⟩
  · intro ha hb hzone
    rw [ha.ipKey_eq_iff hb hzone]
    by_cases hempty : a.zone = []
    · simp [hempty]
    · rw [if_neg hempty]
      have hsame : a.ip = b.ip → a.ip.take 8 = b.ip.take 8 := fun h => by rw [h]
      tauto
  · intro ha hb
    obtain ⟨ip4, hip4, hparse⟩ := ha.parseIP_ipKey
    obtain ⟨ip4', hip4', hparse'⟩ := hb.parseIP_ipKey
    constructor
    · intro h
      rw [h, hparse'] at hparse
      rw [hip4, hip4', List.append_cancel_left (Option.some.inj hparse)]
    · intro h
      rw [ipKey_of_to4 hip4 ha.zone, ipKey_of_to4 hip4' hb.zone, IP.string_of_to4 hip4,
        IP.string_of_to4 hip4', Option.some.inj ((hip4.symm.trans h).trans hip4')]
  · intro ha hb h
    obtain ⟨ip4, hip4, hparse⟩ := hb.parseIP_ipKey
    rw [← h, ha.parseIP_ipKey] at hparse
    split at hparse
    · have hmasked : a.ip.mask64.to4 = some ip4 := by
        rw [Option.some.inj hparse]
        exact IP.to4_mapped (IP.length_of_to4 hip4)
      rw [ha.to4_mask64] at hmasked
      cases hmasked
    · cases hparse

def linkAddr (last : UInt8) (zone : Bytes) : UDPAddr :=
  ⟨[0xfe, 0x80] ++ List.replicate 13 0 ++ [last], 4000, zone⟩

/-- Two addresses of one `/64`. -/
theorem ipKey_aggregates_without_zone :
    V6Source (linkAddr 1 []) ∧ V6Source (linkAddr 2 []) ∧
      ipKey (linkAddr 1 []).string = ipKey (linkAddr 2 []).string := by
  have h : ∀ last, last = 1 ∨ last = 2 → V6Source (linkAddr last []) := by
    rintro last (rfl | rfl) <;> exact ⟨rfl, by decide, by decide, by decide⟩
  have h1 := h 1 (Or.inl rfl)
  have h2 := h 2 (Or.inr rfl)
  exact ⟨h1, h2, (((ipKey_aggregates_iff _ _).1 h1 h2 rfl).mpr (Or.inl rfl)).mpr rfl⟩

/-- The same two addresses, on a link with a name. -/
theorem ipKey_split_by_zone :
    V6Source (linkAddr 1 (ascii "eth0")) ∧ V6Source (linkAddr 2 (ascii "eth0")) ∧
      (linkAddr 1 (ascii "eth0")).ip.take 8 = (linkAddr 2 (ascii "eth0")).ip.take 8 ∧
      ipKey (linkAddr 1 (ascii "eth0")).string ≠ ipKey (linkAddr 2 (ascii "eth0")).string := by
  refine ⟨⟨rfl, by decide, by decide, by decide⟩, ⟨rfl, by decide, by decide, by decide⟩, rfl, ?_⟩
  decide +kernel

end Qvole.Relay
