/-
Both stages of a discovery scan cover the same ports.

Masscan is given a list without qualifiers and Nmap the list of the profile, in which
a qualifier applies to all items after it.  They agree because an admitted list in this
mode never turns to UDP: the check looks for `U:` in the text, the pattern lets a
qualifier stand only before an item, and an item has at most one.
-/
import TransportLookout.Services.Profiles
import TransportLookout.Worker.Scanners

namespace TransportLookout

open RegularExpression Pattern Ports

/-! ## The pattern -/

/-- `([TU]:)?\d+(-\d+)?`. -/
def itemPattern : RegularExpression PortSymbol := qualifierPattern * rangePattern

theorem mem_qualifier {w : List PortSymbol} (h : w ∈ qualifierPattern.matches') :
    w = [] ∨ w = [.t, .colon] ∨ w = [.u, .colon] := by
  cases mem_opt.mp h with
  | inl h => exact Or.inl h
  | inr h =>
    obtain ⟨u, hu, v, hv, rfl⟩ := mem_mul.mp h
    cases mem_char.mp hv
    rw [matches'_add, Language.mem_add] at hu
    cases hu with
    | inl hu =>
      cases mem_char.mp hu
      exact Or.inr (Or.inl rfl)
    | inr hu =>
      cases mem_char.mp hu
      exact Or.inr (Or.inr rfl)

theorem mem_range {w : List PortSymbol} (h : w ∈ rangePattern.matches') :
    ∃ first, first ≠ [] ∧ (∀ a ∈ first, a = .digit) ∧
      (w = first ∨ ∃ last, last ≠ [] ∧ (∀ a ∈ last, a = .digit) ∧ w = first ++ .dash :: last) := by
  obtain ⟨first, hfirst, tail, htail, rfl⟩ := mem_mul.mp h
  obtain ⟨hne, hdigits⟩ := mem_oneOrMore_char.mp hfirst
  refine ⟨first, hne, hdigits, ?_⟩
  cases mem_opt.mp htail with
  | inl htail =>
    rw [htail, List.append_nil]
    exact Or.inl rfl
  | inr htail =>
    obtain ⟨dash, hdash, last, hlast, rfl⟩ := mem_mul.mp htail
    cases mem_char.mp hdash
    obtain ⟨hne', hdigits'⟩ := mem_oneOrMore_char.mp hlast
    exact Or.inr ⟨last, hne', hdigits', rfl⟩

theorem range_symbols {w : List PortSymbol} (h : w ∈ rangePattern.matches') {a : PortSymbol}
    (ha : a ∈ w) : a = .digit ∨ a = .dash := by
  obtain ⟨first, -, hfirst, h⟩ := mem_range h
  cases h with
  | inl h =>
    rw [h] at ha
    exact Or.inl (hfirst a ha)
  | inr h =>
    obtain ⟨last, -, hlast, h⟩ := h
    rw [h] at ha
    cases List.mem_append.mp ha with
    | inl ha => exact Or.inl (hfirst a ha)
    | inr ha =>
      cases List.mem_cons.mp ha with
      | inl ha => exact Or.inr ha
      | inr ha => exact Or.inl (hlast a ha)

/-- The symbols an item is made of. -/
def itemSymbols : List PortSymbol := [.t, .u, .colon, .digit, .dash]

theorem item_symbols {w : List PortSymbol} (h : w ∈ itemPattern.matches') {a : PortSymbol}
    (ha : a ∈ w) : a ∈ itemSymbols := by
  obtain ⟨u, hu, v, hv, rfl⟩ := mem_mul.mp h
  cases List.mem_append.mp ha with
  | inl ha =>
    obtain rfl | rfl | rfl := mem_qualifier hu
    · cases ha
    · exact (by decide : [PortSymbol.t, .colon] ⊆ itemSymbols) ha
    · exact (by decide : [PortSymbol.u, .colon] ⊆ itemSymbols) ha
  | inr ha =>
    cases range_symbols hv ha with
    | inl ha => rw [ha]; decide
    | inr ha => rw [ha]; decide

theorem comma_notMem {w : List PortSymbol} (h : w ∈ itemPattern.matches') : .comma ∉ w := by
  intro hmem
  exact absurd (item_symbols h hmem) (by decide)

/-! ## Characters -/

section
variable {d : Digits}

/-- The characters of each class. -/
def PortSymbol.Has (d : Digits) : PortSymbol → Char → Prop
  | .t, c => c = 'T'
  | .u, c => c = 'U'
  | .colon, c => c = ':'
  | .comma, c => c = ','
  | .dash, c => c = '-'
  | .digit, c => (d.value c).isSome = true
  | .other, _ => True

theorem portSymbol_has {c : Char} {s : PortSymbol} (h : portSymbol d c = s) : s.Has d c := by
  rw [← h]
  unfold portSymbol
  split_ifs with h₁ h₂ h₃ h₄ h₅ h₆
  · exact h₁
  · exact h₂
  · exact h₃
  · exact h₄
  · exact h₅
  · exact h₆
  · trivial

theorem eq_of_portSymbol_comma (c : Char) (h : portSymbol d c = portSymbol d ',') : c = ',' :=
  portSymbol_has h

theorem digits_of_symbols {l : List Char} (h : ∀ a ∈ l.map (portSymbol d), a = .digit) :
    ∀ c ∈ l, (d.value c).isSome = true := by
  intro c hc
  exact portSymbol_has (h _ (List.mem_map_of_mem hc))

theorem isRange_of_symbols {l : List Char} (h : l.map (portSymbol d) ∈ rangePattern.matches') :
    IsRange d l := by
  obtain ⟨first, hne, hfirst, h⟩ := mem_range h
  cases h with
  | inl h =>
    rw [← h] at hne hfirst
    refine ⟨l, fun hl => hne ?_, digits_of_symbols hfirst, Or.inl rfl⟩
    rw [hl, List.map_nil]
  | inr h =>
    obtain ⟨last, hne', hlast, h⟩ := h
    obtain ⟨k, k', rfl, rfl, hk'⟩ := List.map_eq_append_iff.mp h
    obtain ⟨c, m, rfl, hc, rfl⟩ := List.map_eq_cons_iff.mp hk'
    have hdash : c = '-' := portSymbol_has hc
    rw [hdash]
    refine ⟨k, fun hk => hne ?_, digits_of_symbols hfirst,
      Or.inr ⟨m, fun hm => hne' ?_, digits_of_symbols hlast, rfl⟩⟩
    · rw [hk, List.map_nil]
    · rw [hm, List.map_nil]

/-- A letter and a colon. -/
theorem pair_of_symbols {l : List Char} {s : PortSymbol}
    (h : l.map (portSymbol d) = [s, .colon]) : ∃ c, s.Has d c ∧ l = [c, ':'] := by
  obtain ⟨c, m, rfl, hc, hm⟩ := List.map_eq_cons_iff.mp h
  obtain ⟨c', m', rfl, hc', hm'⟩ := List.map_eq_cons_iff.mp hm
  have hcolon : c' = ':' := portSymbol_has hc'
  rw [hcolon, List.map_eq_nil_iff.mp hm']
  exact ⟨c, portSymbol_has hc, rfl⟩

theorem qualifier_of_symbols {l : List Char}
    (h : l.map (portSymbol d) ∈ qualifierPattern.matches') :
    l = [] ∨ l = ['T', ':'] ∨ l = ['U', ':'] := by
  obtain h | h | h := mem_qualifier h
  · exact Or.inl (List.map_eq_nil_iff.mp h)
  · obtain ⟨c, hc, rfl⟩ := pair_of_symbols h
    have hletter : c = 'T' := hc
    rw [hletter]
    exact Or.inr (Or.inl rfl)
  · obtain ⟨c, hc, rfl⟩ := pair_of_symbols h
    have hletter : c = 'U' := hc
    rw [hletter]
    exact Or.inr (Or.inr rfl)

/-! ## Items -/

/-- An item that is matched is a qualifier, if any, and a range. -/
theorem item_cases {x : String} (h : accepts (portSymbol d) itemPattern x = true) :
    ∃ qualifier range, x = qualifier ++ range ∧
      (qualifier = "" ∨ qualifier = "T:" ∨ qualifier = "U:") ∧ IsRange d range.toList := by
  obtain ⟨u, hu, v, hv, heq⟩ := mem_mul.mp (accepts_iff.mp h)
  obtain ⟨k, m, hx, rfl, rfl⟩ := List.map_eq_append_iff.mp heq.symm
  refine ⟨String.ofList k, String.ofList m, ?_, ?_, ?_⟩
  · rw [← String.ofList_append, ← hx, String.ofList_toList]
  · obtain rfl | rfl | rfl := qualifier_of_symbols hu
    · decide
    · decide
    · decide
  · rw [String.toList_ofList]
    exact isRange_of_symbols hv

/-- An item without `U:` is a range after `T:`, if that is there. -/
theorem isRange_removePrefix {x : String} (h : accepts (portSymbol d) itemPattern x = true)
    (hudp : Text.contains "U:" x = false) : IsRange d (Text.removePrefix "T:" x).toList := by
  obtain ⟨qualifier, range, rfl, hqualifier, hrange⟩ := item_cases h
  obtain rfl | rfl | rfl := hqualifier
  · have hnot : Text.startsWith "T:" range = false := by
      refine Bool.eq_false_iff.mpr fun hpre => ?_
      obtain ⟨rest, rfl⟩ := Text.startsWith_iff.mp hpre
      refine hrange.notMem (show ':' ∈ _ by decide) ?_
      rw [String.toList_append]
      exact List.mem_append_left _ (by decide)
    rw [String.empty_append, Text.removePrefix_of_not hnot]
    exact hrange
  · rw [Text.removePrefix_append]
    exact hrange
  · have hcontains := Text.contains_of_startsWith (Text.startsWith_append "U:" range)
    rw [hudp] at hcontains
    cases hcontains

/-! ## Lists -/

/-- The items of a list are matched one by one. -/
theorem accepts_items {ports : String} :
    accepts (portSymbol d) portsPattern ports = true ↔
      ∀ x ∈ Text.split ',' ports, accepts (portSymbol d) itemPattern x = true :=
  accepts_separated (c := ',') eq_of_portSymbol_comma fun _ hw => comma_notMem hw

theorem toUpper_of_symbol {c : Char} (h : portSymbol d c ∈ itemSymbols) : c.toUpper = c := by
  have hhas : (portSymbol d c).Has d c := portSymbol_has rfl
  cases hc : portSymbol d c with
  | t | u | colon | comma | dash =>
    rw [hc] at hhas
    unfold PortSymbol.Has at hhas
    rw [hhas]
    rfl
  | digit =>
    rw [hc] at hhas
    exact d.caseless c hhas
  | other =>
    rw [hc] at h
    exact absurd h (by decide)

/-- Upper case changes nothing in an admitted list. -/
theorem toUpper_accepted {ports : String}
    (h : accepts (portSymbol d) portsPattern ports = true) : ports.toUpper = ports := by
  have hchar : ∀ c ∈ ports.toList, c.toUpper = c := by
    intro c hc
    rw [← Text.join_split ',' ports] at hc
    cases Text.mem_join hc with
    | inl heq => rw [heq]; rfl
    | inr hitem =>
      obtain ⟨x, hx, hmem⟩ := hitem
      have hx' := accepts_iff.mp (accepts_items.mp h x hx)
      exact toUpper_of_symbol (item_symbols hx' (List.mem_map_of_mem hmem))
  apply String.ext
  rw [String.toUpper, String.toList_map]
  rw [List.map_congr_left hchar, List.map_id']

/-- The items of an admitted list without `U:`. -/
theorem tcp_items {ports : String} (h : accepts (portSymbol d) portsPattern ports = true)
    (hudp : Text.contains "U:" ports = false) {x : String} (hx : x ∈ Text.split ',' ports) :
    Text.startsWith "U:" x = false ∧ IsRange d (Text.removePrefix "T:" x).toList := by
  have hnot : Text.contains "U:" x = false := by
    refine Bool.eq_false_iff.mpr fun hcontains => ?_
    rw [Text.contains_of_infix hcontains (Text.infix_of_mem_split hx)] at hudp
    cases hudp
  refine ⟨Bool.eq_false_iff.mpr fun hpre => ?_, isRange_removePrefix (accepts_items.mp h x hx) hnot⟩
  rw [Text.contains_of_startsWith hpre] at hnot
  cases hnot

/-! ## The two stages -/

/-- The items of the list Masscan is given. -/
theorem split_discoveryPorts (ports : String) :
    Text.split ',' (discoveryPorts ports) =
      (Text.split ',' ports).map (Text.removePrefix "T:") := by
  refine Text.split_join ?_ ?_
  · intro x hx hmem
    obtain ⟨item, hitem, rfl⟩ := List.mem_map.mp hx
    exact Text.sep_notMem_split hitem (Text.mem_removePrefix hmem)
  · rw [Ne, List.map_eq_nil_iff]
    exact Text.split_ne_nil ',' ports

/-- `discovery` has no qualifier, and is the list of ranges that `confirmation` has, all
of them TCP. -/
structure SamePorts (d : Digits) (discovery confirmation : String) : Prop where
  tcp : Text.contains "T:" discovery = false
  udp : Text.contains "U:" discovery = false
  ranges : ∃ ranges, plainList d discovery = some ranges ∧
    qualifiedList d confirmation = some (ranges.map fun range => (.tcp, range))

theorem samePorts {ports : String} (h : accepts (portSymbol d) portsPattern ports = true)
    (hudp : Text.contains "U:" ports = false) : SamePorts d (discoveryPorts ports) ports := by
  have hcolon : ':' ∉ (discoveryPorts ports).toList := by
    intro hmem
    cases Text.mem_join hmem with
    | inl heq => exact absurd heq (by decide)
    | inr hitem =>
      obtain ⟨x, hx, hmem⟩ := hitem
      obtain ⟨item, hitem, rfl⟩ := List.mem_map.mp hx
      exact (tcp_items h hudp hitem).2.notMem (by decide) hmem
  refine ⟨Text.not_contains (c := ':') (by decide) hcolon,
    Text.not_contains (c := ':') (by decide) hcolon, ?_⟩
  have hread : (readPlain d ((Text.split ',' ports).map (Text.removePrefix "T:"))).isSome =
      true := by
    refine readPlain_isSome fun item hitem => ?_
    obtain ⟨x, hx, rfl⟩ := List.mem_map.mp hitem
    exact (tcp_items h hudp hx).2
  obtain ⟨ranges, hranges⟩ := Option.isSome_iff_exists.mp hread
  refine ⟨ranges, ?_, ?_⟩
  · rw [plainList, split_discoveryPorts, hranges]
  · rw [qualifiedList, readItems_tcp fun x hx => (tcp_items h hudp hx).1, hranges]
    rfl

end

/-- What an admitted payload of the mode has for ports. -/
theorem ProfileCreate.validate_ports {d : Digits} {payload accepted : ProfileCreate}
    (h : payload.validate d = .ok accepted) (hmode : payload.scannerMode = .masscanThenNmap) :
    accepts (portSymbol d) portsPattern accepted.ports = true ∧
      Text.contains "U:" accepted.ports = false := by
  rw [validate] at h
  split at h
  · next hproblems =>
    have hports := (problems_eq_nil.mp hproblems).ports
    rw [tcpOnly] at h
    split at h
    · cases h
    · next hudp =>
      cases h
      refine ⟨?_, Bool.eq_false_iff.mpr fun hcontains => hudp ⟨hmode, hcontains⟩⟩
      rw [show ({ payload with ports := payload.ports.toUpper } : ProfileCreate).ports =
        payload.ports.toUpper from rfl, toUpper_accepted hports]
      exact hports
  · cases h

/-- A payload without `U:` is admitted as it is. -/
theorem ProfileCreate.validate_tcp {d : Digits} {payload : ProfileCreate}
    (h : payload.Admissible d) (hudp : Text.contains "U:" payload.ports = false) :
    payload.validate d = .ok payload := by
  have hnot : ¬(payload.scannerMode = .masscanThenNmap ∧
      Text.contains "U:" payload.ports = true) := by
    rw [hudp]
    exact fun h => Bool.false_ne_true h.2
  rw [validate, problems_eq_nil.mpr h]
  simp only [toUpper_accepted h.ports]
  rw [tcpOnly, if_neg hnot]

/-- The ports of the plain list are the TCP ports of the other. -/
theorem SamePorts.covers_iff {d : Digits} {discovery confirmation : String}
    (h : SamePorts d discovery confirmation) (port : Nat) :
    Covers d discovery port ↔ QualifiedCovers d confirmation .tcp port := by
  obtain ⟨ranges, hplain, hqualified⟩ := h.ranges
  constructor
  · intro hcovers
    obtain ⟨ranges', hplain', range, hrange, hport⟩ := hcovers
    rw [hplain] at hplain'
    cases hplain'
    exact ⟨_, hqualified, range, List.mem_map_of_mem hrange, hport⟩
  · intro hcovers
    obtain ⟨ranges', hqualified', range, hrange, hport⟩ := hcovers
    rw [hqualified] at hqualified'
    cases hqualified'
    obtain ⟨range', hrange', heq⟩ := List.mem_map.mp hrange
    cases heq
    exact ⟨ranges, hplain, range, hrange', hport⟩

/-- The profile a request creates for both stages covers the same ports in both: the
lists of the two commands are the same ranges of TCP ports, in order. -/
theorem stages_cover_same_ports (d : Digits) {payload accepted : ProfileCreate}
    (h : payload.validate d = .ok accepted) (hmode : payload.scannerMode = .masscanThenNmap)
    (id : Uuid) (version : Nat) (cidr discoveryXml output targets : String) :
    let profile := accepted.profile id version
    let discovery := discoveryPorts profile.ports
    ["-p", discovery] <:+: masscanCommand profile cidr discoveryXml ∧
      ["-p", profile.ports] <:+: nmapConfirmationCommand profile output targets ∧
      SamePorts d discovery profile.ports ∧
      ∀ port, Covers d discovery port ↔ QualifiedCovers d profile.ports .tcp port := by
  obtain ⟨hports, hudp⟩ := ProfileCreate.validate_ports h hmode
  have hsame := samePorts hports hudp
  refine ⟨⟨["masscan", cidr], _, rfl⟩, ⟨["nmap", "-Pn", "-oX", output, "-iL", targets], _, rfl⟩,
    hsame, hsame.covers_iff⟩

/-- A list with a qualifier and a range. -/
def Demo.perimeter : ProfileCreate :=
  { name := "perimeter", ports := "22,T:80-90,443", scannerMode := .masscanThenNmap }

/-- Masscan gets the list without the qualifier. -/
theorem stages_cover_same_ports_qualified :
    Demo.perimeter.validate asciiDigits = .ok Demo.perimeter ∧
      discoveryPorts Demo.perimeter.ports = "22,80-90,443" ∧
      SamePorts asciiDigits (discoveryPorts Demo.perimeter.ports) Demo.perimeter.ports := by
  have hvalid : Demo.perimeter.validate asciiDigits = .ok Demo.perimeter := by
    refine ProfileCreate.validate_tcp ?_ (Text.not_contains (c := 'U') (by decide) (by decide))
    exact ProfileCreate.admissible_default (by decide) (by decide) .masscanThenNmap
  have hsame := stages_cover_same_ports asciiDigits hvalid rfl "profile" 1 "10.0.0.0/24"
    "masscan.xml" "nmap.xml" "targets"
  exact ⟨hvalid, by decide, hsame.2.2.1⟩

/-- The profile a request stores covers the same ports in both stages. -/
theorem added_profile_samePorts {d : Digits} {db db' : Db} {payload accepted : ProfileCreate}
    {actor : String} {id : Uuid} {profile : ScanProfile}
    (h : payload.validate d = .ok accepted) (hmode : payload.scannerMode = .masscanThenNmap)
    (hadd : addProfile db accepted actor id = .ok db') (hget : db'.profiles.get id = some profile) :
    SamePorts d (discoveryPorts profile.ports) profile.ports := by
  obtain ⟨hports, hudp⟩ := ProfileCreate.validate_ports h hmode
  rw [addProfile_row hadd] at hget
  cases hget
  exact samePorts hports hudp

end TransportLookout
