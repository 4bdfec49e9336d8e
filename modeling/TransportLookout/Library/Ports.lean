/-
Lists of ports, and the two ways a scanner reads them.

An item is a port, or a first and a last port with a dash between them.  In a plain
list every item is of the one protocol that is scanned.  In a qualified list `T:` or
`U:` before an item chooses the protocol of that item and of all that follow, and
items before the first qualifier are TCP.  `readItems_tcp` says when the two readings
agree: where no item turns to UDP, the qualifiers can be dropped.
-/
import TransportLookout.Library.Text

namespace Ports

/-- The characters that count as digits, and what each is worth. -/
structure Digits where
  value : Char → Option Nat
  punctuation : ∀ c ∈ [',', '-', ':', 'T', 'U'], value c = none
  caseless : ∀ c, (value c).isSome = true → c.toUpper = c

/-- The ten digits of ASCII. -/
def asciiDigits : Digits where
  value c := if c.isDigit then some (c.toNat - '0'.toNat) else none
  punctuation c hc := by
    simp only [List.mem_cons, List.not_mem_nil, or_false] at hc
    obtain rfl | rfl | rfl | rfl | rfl := hc
    all_goals rfl
  caseless c h := by
    split at h
    · next hdigit =>
      rw [Char.isDigit, Bool.and_eq_true, decide_eq_true_eq, decide_eq_true_eq] at hdigit
      have hle : c.val.toNat ≤ 57 := hdigit.2
      refine dif_neg fun hlower => ?_
      have hge : 97 ≤ c.val.toNat := hlower.1
      omega
    · cases h

inductive Protocol
  | tcp
  | udp
deriving DecidableEq, Repr

structure Range where
  first : Nat
  last : Nat
deriving DecidableEq, Repr

def Range.Contains (r : Range) (port : Nat) : Prop := r.first ≤ port ∧ port ≤ r.last

def qualified (protocol : Protocol) (item : String) : Protocol × String :=
  if Text.startsWith "T:" item then (.tcp, Text.removePrefix "T:" item)
  else if Text.startsWith "U:" item then (.udp, Text.removePrefix "U:" item)
  else (protocol, item)

section
variable (d : Digits)

def number (s : List Char) : Option Nat :=
  if s = [] then none else s.foldlM (fun n c => (d.value c).map (10 * n + ·)) 0

def readRange (item : String) : Option Range :=
  match item.toList.splitOn '-' with
  | [port] => (number d port).map fun n => ⟨n, n⟩
  | [first, last] =>
    match number d first, number d last with
    | some first, some last => some ⟨first, last⟩
    | _, _ => none
  | _ => none

def readPlain : List String → Option (List Range)
  | [] => some []
  | item :: items =>
    match readRange d item, readPlain items with
    | some range, some ranges => some (range :: ranges)
    | _, _ => none

/-- `protocol` is the one of the item before. -/
def readItems (protocol : Protocol) : List String → Option (List (Protocol × Range))
  | [] => some []
  | item :: items =>
    match readRange d (qualified protocol item).2,
      readItems (qualified protocol item).1 items with
    | some range, some ranges => some (((qualified protocol item).1, range) :: ranges)
    | _, _ => none

/-- The ranges of a list without qualifiers. -/
def plainList (ports : String) : Option (List Range) := readPlain d (Text.split ',' ports)

/-- The ranges of a list with qualifiers, each with its protocol. -/
def qualifiedList (ports : String) : Option (List (Protocol × Range)) :=
  readItems d .tcp (Text.split ',' ports)

/-- `port` is one of a list without qualifiers. -/
def Covers (ports : String) (port : Nat) : Prop :=
  ∃ ranges, plainList d ports = some ranges ∧ ∃ range ∈ ranges, range.Contains port

/-- `port` of `protocol` is one of a list with qualifiers. -/
def QualifiedCovers (ports : String) (protocol : Protocol) (port : Nat) : Prop :=
  ∃ ranges, qualifiedList d ports = some ranges ∧
    ∃ range, (protocol, range) ∈ ranges ∧ range.Contains port

variable {d}

/-! ## Numbers and ranges -/

theorem foldlM_isSome {s : List Char} (h : ∀ c ∈ s, (d.value c).isSome = true) (n : Nat) :
    (s.foldlM (fun n c => (d.value c).map (10 * n + ·)) n).isSome = true := by
  induction s generalizing n with
  | nil => rfl
  | cons c s ih =>
    obtain ⟨k, hk⟩ := Option.isSome_iff_exists.mp (h c List.mem_cons_self)
    rw [List.foldlM_cons, hk]
    exact ih (fun c hc => h c (List.mem_cons_of_mem _ hc)) (10 * n + k)

/-- Digits write a number. -/
theorem number_isSome {s : List Char} (hne : s ≠ [])
    (h : ∀ c ∈ s, (d.value c).isSome = true) : (number d s).isSome = true := by
  rw [number, if_neg hne]
  exact foldlM_isSome h 0

theorem dash_notMem {s : List Char} (h : ∀ c ∈ s, (d.value c).isSome = true) : '-' ∉ s := by
  intro hmem
  have hsome := h '-' hmem
  rw [d.punctuation '-' (by decide)] at hsome
  cases hsome

/-- A run of digits, or two with a dash between them. -/
def IsRange (d : Digits) (s : List Char) : Prop :=
  ∃ first, first ≠ [] ∧ (∀ c ∈ first, (d.value c).isSome = true) ∧
    (s = first ∨ ∃ last, last ≠ [] ∧ (∀ c ∈ last, (d.value c).isSome = true) ∧
      s = first ++ '-' :: last)

theorem IsRange.symbols {s : List Char} (h : IsRange d s) {c : Char} (hc : c ∈ s) :
    (d.value c).isSome = true ∨ c = '-' := by
  obtain ⟨first, -, hfirst, h⟩ := h
  cases h with
  | inl h =>
    rw [h] at hc
    exact Or.inl (hfirst c hc)
  | inr h =>
    obtain ⟨last, -, hlast, h⟩ := h
    rw [h] at hc
    cases List.mem_append.mp hc with
    | inl hc => exact Or.inl (hfirst c hc)
    | inr hc =>
      cases List.mem_cons.mp hc with
      | inl hc => exact Or.inr hc
      | inr hc => exact Or.inl (hlast c hc)

/-- A range has no separator and no qualifier. -/
theorem IsRange.notMem {s : List Char} (h : IsRange d s) {c : Char}
    (hc : c ∈ [',', ':', 'T', 'U']) : c ∉ s := by
  intro hmem
  cases h.symbols hmem with
  | inl hsome =>
    have hsub : [',', ':', 'T', 'U'] ⊆ [',', '-', ':', 'T', 'U'] := by decide
    rw [d.punctuation c (hsub hc)] at hsome
    cases hsome
  | inr hdash =>
    rw [hdash] at hc
    revert hc
    decide

theorem readRange_isSome {item : String} (h : IsRange d item.toList) :
    (readRange d item).isSome = true := by
  obtain ⟨first, hne, hfirst, h⟩ := h
  obtain ⟨n, hn⟩ := Option.isSome_iff_exists.mp (number_isSome hne hfirst)
  cases h with
  | inl h =>
    rw [readRange, h, List.splitOn_eq_singleton (dash_notMem hfirst)]
    simp [hn]
  | inr h =>
    obtain ⟨last, hne', hlast, h⟩ := h
    obtain ⟨m, hm⟩ := Option.isSome_iff_exists.mp (number_isSome hne' hlast)
    rw [readRange, h, List.splitOn_append_cons_self_of_not_mem (dash_notMem hfirst),
      List.splitOn_eq_singleton (dash_notMem hlast)]
    simp [hn, hm]

theorem readPlain_isSome {items : List String} (h : ∀ item ∈ items, IsRange d item.toList) :
    (readPlain d items).isSome = true := by
  induction items with
  | nil => rfl
  | cons item items ih =>
    obtain ⟨hitem, hitems⟩ := List.forall_mem_cons.mp h
    obtain ⟨range, hrange⟩ := Option.isSome_iff_exists.mp (readRange_isSome hitem)
    obtain ⟨ranges, hranges⟩ := Option.isSome_iff_exists.mp (ih hitems)
    rw [readPlain, hrange, hranges]
    rfl

/-! ## Qualifiers -/

/-- After TCP, an item that does not turn to UDP is TCP, less its qualifier. -/
theorem qualified_tcp {item : String} (h : Text.startsWith "U:" item = false) :
    qualified .tcp item = (.tcp, Text.removePrefix "T:" item) := by
  rw [qualified]
  cases htcp : Text.startsWith "T:" item with
  | true => rfl
  | false =>
    rw [h, Text.removePrefix_of_not htcp]
    rfl

/-- Where no item turns to UDP, dropping the qualifiers changes nothing. -/
theorem readItems_tcp {items : List String}
    (h : ∀ item ∈ items, Text.startsWith "U:" item = false) :
    readItems d .tcp items = (readPlain d (items.map (Text.removePrefix "T:"))).map
      (List.map fun range => (.tcp, range)) := by
  induction items with
  | nil => rfl
  | cons item items ih =>
    obtain ⟨hitem, hitems⟩ := List.forall_mem_cons.mp h
    rw [readItems, qualified_tcp hitem, ih hitems, List.map_cons, readPlain]
    cases readRange d (Text.removePrefix "T:" item) with
    | none => rfl
    | some range =>
      cases readPlain d (items.map (Text.removePrefix "T:")) with
      | none => rfl
      | some ranges => rfl

-- A qualifier stays in force until the next one.
example : qualifiedList asciiDigits "22,U:53,123-125,T:80" =
    some [(.tcp, ⟨22, 22⟩), (.udp, ⟨53, 53⟩), (.udp, ⟨123, 125⟩), (.tcp, ⟨80, 80⟩)] := by
  decide +kernel

end

end Ports
