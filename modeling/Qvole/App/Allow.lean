import Qvole.Lib.Net

/-!
# The tunnel allowlist

Which tunnel requests of the peer this side honours. A listen address is compared as text; a forward
target is resolved and compared by address, against rules that `Resolve` makes of the `-aF` entries
once, at startup.

Name lookups are answers from outside. A `Resolver` gives the answer to the lookup made for each entry
of the list, so two entries with one name may be answered differently, and a lookup made later may be
answered differently again. `none` is an error of the lookup.

`strings.ToLower` on a text with bytes outside ASCII depends on the tables of Unicode; the parameter
`lowerRunes` stands for it there.
-/

namespace Qvole.App

open Lib

/-- The answers of `LookupIPAddr`, by the position of the entry and the name asked for. -/
abbrev Resolver := Nat → Bytes → Option (List IP)

/-- `ip` is `none` for the wildcard `:port`. -/
structure IpRule where
  port : Bytes
  ip : Option IP
  deriving DecidableEq

structure TunnelAllow where
  all : Bool
  listen : List Bytes
  forward : List Bytes
  forwardRules : List IpRule := []
  resolved : Bool := false
  deriving DecidableEq

def resolveAllIPs (lookup : Bytes → Option (List IP)) (host : Bytes) : List IP :=
  match parseIP host with
  | some ip => [ip]
  | none => if host = [] then [] else (lookup host).getD []

/-- The rules of one entry. -/
def entryRules (lookup : Bytes → Option (List IP)) (entry : Bytes) : List IpRule :=
  match splitHostPort entry with
  | none => []
  | some (host, port) =>
    if host = [] then [⟨port, none⟩]
    else (resolveAllIPs lookup host).map fun ip => ⟨port, some ip⟩

def buildForwardRules (resolver : Resolver) (entries : List Bytes) : List IpRule :=
  entries.zipIdx.flatMap fun e => entryRules (resolver e.2) e.1

def IpRule.permits (r : IpRule) (ip : IP) (port : Bytes) : Bool :=
  r.port = port && r.ip.all fun x => x.equal ip

def asciiLower (c : UInt8) : UInt8 := if 65 ≤ c ∧ c ≤ 90 then c + 32 else c

/-- `strings.ToLower`. -/
def toLower (lowerRunes : Bytes → Bytes) (s : Bytes) : Bytes :=
  if s.all (· < 128) then s.map asciiLower else lowerRunes s

def allowMatch (lowerRunes : Bytes → Bytes) (entries : List Bytes) (addr : Bytes) : Bool :=
  match splitHostPort addr with
  | none => false
  | some (addrHost, addrPort) =>
    entries.any fun e =>
      match splitHostPort e with
      | none => false
      | some (eHost, ePort) =>
        ePort = addrPort && (eHost = [] || toLower lowerRunes eHost = toLower lowerRunes addrHost)

namespace TunnelAllow

def accepts (a : TunnelAllow) : Bool := a.all || 0 < a.listen.length || 0 < a.forward.length

/-- An entry that `Validate` lets pass. -/
def validEntry (e : Bytes) : Bool :=
  match splitHostPort e with
  | none => false
  | some (_, port) => port ≠ []

/-- The malformed entries of both lists, which the error names. -/
def validate (a : TunnelAllow) : Except (List Bytes) Unit :=
  let bad := a.listen.filter (fun e => ¬ validEntry e) ++ a.forward.filter fun e => ¬ validEntry e
  if 0 < bad.length then .error bad else .ok ()

def resolve (startup : Resolver) (a : TunnelAllow) : TunnelAllow :=
  { a with forwardRules := buildForwardRules startup a.forward, resolved := true }

def allowsListen (lowerRunes : Bytes → Bytes) (a : TunnelAllow) (addr : Bytes) : Bool :=
  a.all || allowMatch lowerRunes a.listen addr

/-- `later` answers the lookups of the fallback, which does not look at `resolved`. -/
def matchForwardIPs (later : Resolver) (a : TunnelAllow) (ip : IP) (port : Bytes) : Bool :=
  let rules :=
    if a.forwardRules.length = 0 ∧ 0 < a.forward.length then buildForwardRules later a.forward
    else a.forwardRules
  rules.any fun r => r.permits ip port

/-- `target` answers the lookup of the peer's host, and `later i` the lookups made while its `i`-th
address is matched. -/
def forwardIPs (target : Bytes → Option (List IP)) (later : Nat → Resolver) (a : TunnelAllow)
    (addr : Bytes) : Option (List IP × Bytes) :=
  match splitHostPort addr with
  | none => none
  | some (host, port) =>
    let all := resolveAllIPs target host
    if all.length = 0 then none
    else if a.all then some (all, port)
    else
      let allowed := (all.zipIdx.filter fun x => a.matchForwardIPs (later x.2) x.1 port).map Prod.fst
      if allowed.length = 0 then none else some (allowed, port)

end TunnelAllow

/-! ### What the rules permit -/

/-- Some entry has the port, and an empty host or a host that the answers resolve to the address. -/
def Permitted (resolver : Resolver) (entries : List Bytes) (ip : IP) (port : Bytes) : Prop :=
  ∃ i e host, entries[i]? = some e ∧ splitHostPort e = some (host, port) ∧
    (host = [] ∨ ∃ x ∈ resolveAllIPs (resolver i) host, x.equal ip = true)

/-- Some entry gave at least one rule: it has an empty host, or a host that was resolved. -/
def Live (resolver : Resolver) (entries : List Bytes) : Prop :=
  ∃ i e host port, entries[i]? = some e ∧ splitHostPort e = some (host, port) ∧
    (host = [] ∨ resolveAllIPs (resolver i) host ≠ [])

theorem mem_buildForwardRules {resolver : Resolver} {entries : List Bytes} {r : IpRule} :
    r ∈ buildForwardRules resolver entries ↔
      ∃ i e, entries[i]? = some e ∧ r ∈ entryRules (resolver i) e := by
  rw [buildForwardRules, List.mem_flatMap]
  constructor
  · rintro ⟨⟨e, i⟩, hmem, hr⟩
    exact ⟨i, e, List.mem_zipIdx_iff_getElem?.mp hmem, hr⟩
  · rintro ⟨i, e, hget, hr⟩
    exact ⟨(e, i), List.mem_zipIdx_iff_getElem?.mpr hget, hr⟩

theorem exists_permits_entryRules {lookup : Bytes → Option (List IP)} {e ip port : Bytes} :
    (∃ r ∈ entryRules lookup e, r.permits ip port = true) ↔
      ∃ host, splitHostPort e = some (host, port) ∧
        (host = [] ∨ ∃ x ∈ resolveAllIPs lookup host, x.equal ip = true) := by
  unfold entryRules
  cases splitHostPort e with
  | none => simp
  | some hp =>
      obtain ⟨host, eport⟩ := hp
      by_cases hhost : host = []
      · simp [hhost, IpRule.permits]
      · simp only [hhost, if_false, List.mem_map, IpRule.permits, Option.some.injEq, Prod.mk.injEq]
        constructor
        · rintro ⟨_, ⟨x, hx, rfl⟩, hpermits⟩
          simp only [Option.all_some, Bool.and_eq_true, decide_eq_true_eq] at hpermits
          exact ⟨host, ⟨rfl, hpermits.1⟩, Or.inr ⟨x, hx, hpermits.2⟩⟩
        · rintro ⟨_, ⟨rfl, rfl⟩, hresolved⟩
          obtain ⟨x, hx, hequal⟩ := hresolved.resolve_left hhost
          exact ⟨_, ⟨x, hx, rfl⟩, by simpa using hequal⟩

theorem any_permits_iff {resolver : Resolver} {entries : List Bytes} {ip port : Bytes} :
    ((buildForwardRules resolver entries).any fun r => r.permits ip port) = true ↔
      Permitted resolver entries ip port := by
  rw [List.any_eq_true]
  constructor
  · rintro ⟨r, hr, hpermits⟩
    obtain ⟨i, e, hget, hr⟩ := mem_buildForwardRules.mp hr
    obtain ⟨host, hrest⟩ := exists_permits_entryRules.mp ⟨r, hr, hpermits⟩
    exact ⟨i, e, host, hget, hrest⟩
  · rintro ⟨i, e, host, hget, hrest⟩
    obtain ⟨r, hr, hpermits⟩ := exists_permits_entryRules.mpr ⟨host, hrest⟩
    exact ⟨r, mem_buildForwardRules.mpr ⟨i, e, hget, hr⟩, hpermits⟩

theorem live_of_permitted {resolver : Resolver} {entries : List Bytes} {ip port : Bytes}
    (h : Permitted resolver entries ip port) : Live resolver entries := by
  obtain ⟨i, e, host, hget, hsplit, hhost⟩ := h
  refine ⟨i, e, host, port, hget, hsplit, hhost.imp_right ?_⟩
  rintro ⟨x, hx, _⟩
  exact List.ne_nil_of_mem hx

theorem buildForwardRules_ne_nil_iff {resolver : Resolver} {entries : List Bytes} :
    buildForwardRules resolver entries ≠ [] ↔ Live resolver entries := by
  constructor
  · intro hne
    obtain ⟨r, hr⟩ := List.exists_mem_of_ne_nil _ hne
    obtain ⟨i, e, hget, hr⟩ := mem_buildForwardRules.mp hr
    unfold entryRules at hr
    cases hsplit : splitHostPort e with
    | none => simp [hsplit] at hr
    | some hp =>
        obtain ⟨host, port⟩ := hp
        refine ⟨i, e, host, port, hget, hsplit, ?_⟩
        by_cases hhost : host = []
        · exact Or.inl hhost
        · simp only [hsplit, if_neg hhost, List.mem_map] at hr
          obtain ⟨x, hx, _⟩ := hr
          exact Or.inr (List.ne_nil_of_mem hx)
  · rintro ⟨i, e, host, port, hget, hsplit, hhost⟩
    have hrule : ∃ r, r ∈ entryRules (resolver i) e := by
      rw [entryRules, hsplit]
      by_cases hempty : host = []
      · exact ⟨⟨port, none⟩, by simp [hempty]⟩
      · obtain ⟨x, hx⟩ := List.exists_mem_of_ne_nil _ (hhost.resolve_left hempty)
        exact ⟨⟨port, some x⟩, by simpa [hempty] using hx⟩
    obtain ⟨r, hr⟩ := hrule
    exact List.ne_nil_of_mem (mem_buildForwardRules.mpr ⟨i, e, hget, hr⟩)

namespace TunnelAllow

variable {a : TunnelAllow} {startup later : Resolver} {ip port : Bytes}

/-- As long as there are rules, they alone decide. -/
theorem matchForwardIPs_of_live (h : Live startup a.forward) :
    (a.resolve startup).matchForwardIPs later ip port = true ↔
      Permitted startup a.forward ip port := by
  have hrules := List.length_pos_iff.mpr (buildForwardRules_ne_nil_iff.mpr h)
  rw [← any_permits_iff, matchForwardIPs, resolve]
  dsimp only
  rw [if_neg (by omega)]

/-- Without any, the entries are looked up again. -/
theorem matchForwardIPs_of_not_live (h : ¬ Live startup a.forward) :
    (a.resolve startup).matchForwardIPs later ip port = true ↔
      Permitted later a.forward ip port := by
  have hrules : buildForwardRules startup a.forward = [] :=
    not_ne_iff.mp fun hne => h (buildForwardRules_ne_nil_iff.mp hne)
  rw [← any_permits_iff, matchForwardIPs, resolve]
  dsimp only
  rw [hrules]
  cases hforward : a.forward with
  | nil => rfl
  | cons e es => rw [if_pos ⟨rfl, Nat.zero_lt_succ _⟩]

end TunnelAllow

/-- A name that resolved to nothing at startup resolves to whatever is answered later. -/
theorem permitted_later {startup : Resolver} {entries : List Bytes} (h : ¬ Live startup entries)
    {e host port : Bytes} (he : e ∈ entries) (hsplit : splitHostPort e = some (host, port))
    (ip : IP) : Permitted (fun _ _ => some [ip]) entries ip port := by
  obtain ⟨i, hget⟩ := List.mem_iff_getElem?.mp he
  have hdead : ¬ (host = [] ∨ resolveAllIPs (startup i) host ≠ []) :=
    fun hhost => h ⟨i, e, host, port, hget, hsplit, hhost⟩
  rw [not_or, not_not] at hdead
  obtain ⟨hne, hnothing⟩ := hdead
  have hname : parseIP host = none := by
    cases hparse : parseIP host with
    | none => rfl
    | some x => simp [resolveAllIPs, hparse] at hnothing
  refine ⟨i, e, host, hget, hsplit, Or.inr ⟨ip, ?_, ?_⟩⟩
  · rw [resolveAllIPs, hname]
    simp [hne]
  · simp [IP.equal]

/-- The allowlist stays what the startup lookups made it, whatever is answered later, if and only if
these lookups left at least one rule or no entry can be split at all. -/
theorem forward_allowlist_fixed_iff (a : TunnelAllow) (startup : Resolver) :
    (∀ (later : Resolver) (ip : IP) (port : Bytes),
      (a.resolve startup).matchForwardIPs later ip port = true ↔
        Permitted startup a.forward ip port) ↔
      (Live startup a.forward ∨ ∀ e ∈ a.forward, splitHostPort e = none) := by
  constructor
  · intro hfixed
    by_contra hcond
    rw [not_or, not_forall] at hcond
    obtain ⟨hdead, e, hentry⟩ := hcond
    rw [Classical.not_imp] at hentry
    obtain ⟨he, hsplit⟩ := hentry
    obtain ⟨⟨host, port⟩, hsplit⟩ := Option.ne_none_iff_exists'.mp hsplit
    have hlater := permitted_later hdead he hsplit [0, 0, 0, 0]
    have hmatch := (TunnelAllow.matchForwardIPs_of_not_live hdead).mpr hlater
    exact hdead (live_of_permitted ((hfixed _ _ _).mp hmatch))
  · rintro (hlive | hmalformed) later ip port
    · exact TunnelAllow.matchForwardIPs_of_live hlive
    · have hnone : ∀ resolver, ¬ Permitted resolver a.forward ip port := by
        rintro resolver ⟨i, e, host, hget, hsplit, _⟩
        rw [hmalformed e (List.mem_of_getElem? hget)] at hsplit
        cases hsplit
      have hdead : ¬ Live startup a.forward := by
        rintro ⟨i, e, host, port, hget, hsplit, _⟩
        rw [hmalformed e (List.mem_of_getElem? hget)] at hsplit
        cases hsplit
      rw [TunnelAllow.matchForwardIPs_of_not_live hdead]
      exact iff_of_false (hnone later) (hnone startup)

/-- The only entry is a name that could not be resolved at startup. -/
def unresolvedName : TunnelAllow := ⟨false, [], [ascii "db.lan:5432"], [], false⟩

theorem forward_allowlist_reopened :
    (unresolvedName.resolve fun _ _ => none).matchForwardIPs (fun _ _ => some [[10, 0, 0, 7]])
        [10, 0, 0, 7] (ascii "5432") = true ∧
      ¬ Permitted (fun _ _ => none) unresolvedName.forward [10, 0, 0, 7] (ascii "5432") := by
  refine ⟨by decide +kernel, fun h => ?_⟩
  exact absurd (any_permits_iff.mpr h) (by decide +kernel)

end Qvole.App
