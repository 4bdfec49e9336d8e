/-
IPv4 networks and their text.

A network is an address with no host bits and a prefix length, and carries the
proof.  `parse` reads what `ipaddress.ip_network(cidr, strict=True)` reads as an
IPv4 network: an address alone, or with a prefix length, a netmask or a hostmask.
`format` writes the canonical form, and `parse` reads it back.
-/
import Mathlib.Algebra.Ring.Int.Defs
import Mathlib.Data.List.OfFn
import Mathlib.Tactic.NormNum

namespace Ipv4

structure Network where
  address : Nat
  prefixLength : Nat
  prefix_le : prefixLength ≤ 32
  address_lt : address < 2 ^ 32
  canonical : address % 2 ^ (32 - prefixLength) = 0
deriving DecidableEq

namespace Network

def size (n : Network) : Nat := 2 ^ (32 - n.prefixLength)

def Contains (n : Network) (a : Nat) : Prop := n.address ≤ a ∧ a < n.address + n.size

instance (n : Network) (a : Nat) : Decidable (n.Contains a) :=
  inferInstanceAs (Decidable (_ ∧ _))

def Within (n m : Network) : Prop :=
  m.address ≤ n.address ∧ n.address + n.size ≤ m.address + m.size

instance (n m : Network) : Decidable (n.Within m) := inferInstanceAs (Decidable (_ ∧ _))

theorem Within.refl (n : Network) : n.Within n := ⟨Nat.le_refl _, Nat.le_refl _⟩

theorem Within.trans {n m k : Network} (h : n.Within m) (h' : m.Within k) : n.Within k :=
  ⟨Nat.le_trans h'.1 h.1, Nat.le_trans h.2 h'.2⟩

/-- Every address of `n` is one of `m`. -/
theorem within_iff {n m : Network} : n.Within m ↔ ∀ a, n.Contains a → m.Contains a := by
  have hpos : 0 < n.size := Nat.two_pow_pos _
  constructor
  · rintro ⟨hlow, hhigh⟩ a ⟨hle, hlt⟩
    exact ⟨Nat.le_trans hlow hle, Nat.lt_of_lt_of_le hlt hhigh⟩
  · intro h
    have hfirst := h n.address ⟨Nat.le_refl _, by omega⟩
    have hlast := h (n.address + n.size - 1) ⟨by omega, by omega⟩
    have hend := hlast.2
    exact ⟨hfirst.1, by omega⟩

/-- The network of an address and a prefix length, when no host bit is set. -/
def ofParts (address prefixLength : Nat) : Option Network :=
  if h : prefixLength ≤ 32 ∧ address < 2 ^ 32 ∧ address % 2 ^ (32 - prefixLength) = 0 then
    some ⟨address, prefixLength, h.1, h.2.1, h.2.2⟩
  else none

theorem ofParts_self (n : Network) : ofParts n.address n.prefixLength = some n := by
  rw [ofParts, dif_pos ⟨n.prefix_le, n.address_lt, n.canonical⟩]

/-! ## Subnets -/

/-- The networks of a longer prefix that a network is cut into. -/
def cuts (n : Network) (longer : Nat) : Nat := 2 ^ (longer - n.prefixLength)

theorem cuts_mul {n : Network} {longer : Nat} (h : n.prefixLength ≤ longer) (hle : longer ≤ 32) :
    n.cuts longer * 2 ^ (32 - longer) = n.size := by
  rw [cuts, size, ← Nat.pow_add]
  congr 1
  omega

theorem end_le (n : Network) : n.address + n.size ≤ 2 ^ 32 := by
  obtain ⟨k, hk⟩ : n.size ∣ n.address := Nat.dvd_of_mod_eq_zero n.canonical
  obtain ⟨j, hj⟩ : n.size ∣ 2 ^ 32 := Nat.pow_dvd_pow 2 (Nat.sub_le 32 n.prefixLength)
  have hlt := n.address_lt
  rw [hj, hk] at hlt
  rw [hj, hk, ← Nat.mul_succ]
  exact Nat.mul_le_mul_left _ (Nat.lt_of_mul_lt_mul_left hlt)

theorem subnet_end {n : Network} {longer i : Nat} (h : n.prefixLength ≤ longer)
    (hle : longer ≤ 32) (hi : i < n.cuts longer) :
    n.address + i * 2 ^ (32 - longer) + 2 ^ (32 - longer) ≤ n.address + n.size := by
  rw [← cuts_mul h hle, Nat.add_assoc, ← Nat.succ_mul]
  exact Nat.add_le_add_left (Nat.mul_le_mul_right _ hi) _

def subnet (n : Network) (longer : Nat) (h : n.prefixLength ≤ longer) (hle : longer ≤ 32)
    (i : Fin (n.cuts longer)) : Network where
  address := n.address + i * 2 ^ (32 - longer)
  prefixLength := longer
  prefix_le := hle
  address_lt := by
    have hend := subnet_end h hle i.isLt
    have hbound := n.end_le
    have hpos : 0 < 2 ^ (32 - longer) := Nat.two_pow_pos _
    omega
  canonical := by
    rw [Nat.add_mul_mod_self_right]
    have hdvd : 2 ^ (32 - longer) ∣ n.size := Dvd.intro_left _ (cuts_mul h hle)
    exact Nat.mod_eq_zero_of_dvd (hdvd.trans (Nat.dvd_of_mod_eq_zero n.canonical))

/-- `subnets(new_prefix=longer)`; no result is the `ValueError`. -/
def subnets (n : Network) (longer : Nat) : Option (List Network) :=
  if n.prefixLength = 32 then some [n]
  else if h : n.prefixLength ≤ longer ∧ longer ≤ 32 then
    some (List.ofFn (n.subnet longer h.1 h.2))
  else none

theorem subnet_within {n : Network} {longer : Nat} (h : n.prefixLength ≤ longer)
    (hle : longer ≤ 32) (i : Fin (n.cuts longer)) : (n.subnet longer h hle i).Within n := by
  exact ⟨Nat.le_add_right _ _, subnet_end h hle i.isLt⟩

theorem subnets_within {n m : Network} {longer : Nat} {l : List Network}
    (h : n.subnets longer = some l) (hm : m ∈ l) : m.Within n := by
  rw [subnets] at h
  split at h
  · cases h
    rw [List.mem_singleton.mp hm]
    exact .refl n
  · split at h
    · next hle =>
      cases h
      obtain ⟨i, rfl⟩ := List.mem_ofFn.mp hm
      exact subnet_within hle.1 hle.2 i
    · cases h

/-! ## What the subnets of a network cover -/

/-- No address is one of both. -/
def Disjoint (n m : Network) : Prop := ∀ a, n.Contains a → ¬ m.Contains a

/-- Each address of `n` is one of exactly one of the networks, and they have no others. -/
structure Partitions (l : List Network) (n : Network) : Prop where
  disjoint : l.Pairwise Disjoint
  covers : ∀ a, n.Contains a ↔ ∃ m ∈ l, m.Contains a

/-- The number of the subnet of an address is its distance from the first one, in subnets. -/
theorem contains_subnet {n : Network} {longer a : Nat} (h : n.prefixLength ≤ longer)
    (hle : longer ≤ 32) (i : Fin (n.cuts longer)) :
    (n.subnet longer h hle i).Contains a ↔
      n.address ≤ a ∧ (a - n.address) / 2 ^ (32 - longer) = i := by
  have hpos : 0 < 2 ^ (32 - longer) := Nat.two_pow_pos _
  change n.address + i * 2 ^ (32 - longer) ≤ a ∧
    a < n.address + i * 2 ^ (32 - longer) + 2 ^ (32 - longer) ↔ _
  rw [Nat.div_eq_iff hpos]
  omega

theorem partitions_self (n : Network) : Partitions [n] n where
  disjoint := List.pairwise_singleton _ _
  covers := fun a => by simp only [List.mem_singleton, exists_eq_left]

theorem partitions_subnets {n : Network} {longer : Nat} (h : n.prefixLength ≤ longer)
    (hle : longer ≤ 32) : Partitions (List.ofFn (n.subnet longer h hle)) n := by
  constructor
  · refine List.pairwise_ofFn.mpr fun i j hij a hi hj => ?_
    have hfirst := ((contains_subnet h hle i).mp hi).2
    have hsecond := ((contains_subnet h hle j).mp hj).2
    exact absurd (hfirst.symm.trans hsecond) (Nat.ne_of_lt hij)
  · intro a
    constructor
    · rintro ⟨hlow, hhigh⟩
      have hcount : (a - n.address) / 2 ^ (32 - longer) < n.cuts longer := by
        rw [Nat.div_lt_iff_lt_mul (Nat.two_pow_pos _), cuts_mul h hle]
        omega
      exact ⟨n.subnet longer h hle ⟨_, hcount⟩, List.mem_ofFn.mpr ⟨_, rfl⟩,
        (contains_subnet h hle _).mpr ⟨hlow, rfl⟩⟩
    · rintro ⟨m, hm, ha⟩
      obtain ⟨i, rfl⟩ := List.mem_ofFn.mp hm
      exact within_iff.mp (subnet_within h hle i) a ha

theorem Partitions.ne_nil {l : List Network} {n : Network} (h : Partitions l n) : l ≠ [] := by
  rintro rfl
  have hpos : 0 < n.size := Nat.two_pow_pos _
  obtain ⟨m, hm, -⟩ := (h.covers n.address).mp ⟨Nat.le_refl _, by omega⟩
  cases hm

theorem Partitions.existsUnique {l : List Network} {n : Network} (h : Partitions l n) {a : Nat}
    (ha : n.Contains a) : ∃! i : Nat, ∃ m : Network, l[i]? = some m ∧ m.Contains a := by
  obtain ⟨m, hm, hma⟩ := (h.covers a).mp ha
  obtain ⟨i, hi⟩ := List.mem_iff_getElem?.mp hm
  refine ⟨i, ⟨m, hi, hma⟩, ?_⟩
  rintro j ⟨k, hj, hka⟩
  obtain ⟨hilt, rfl⟩ := List.getElem?_eq_some_iff.mp hi
  obtain ⟨hjlt, rfl⟩ := List.getElem?_eq_some_iff.mp hj
  have hpair := List.pairwise_iff_getElem.mp h.disjoint
  rcases Nat.lt_trichotomy i j with hlt | heq | hgt
  · exact absurd hka (hpair i j hilt hjlt hlt a hma)
  · exact heq.symm
  · exact absurd hma (hpair j i hjlt hilt hgt a hka)

end Network

/-! ## Text -/

def octets (a : Nat) : List Nat :=
  [a / 2 ^ 24 % 256, a / 2 ^ 16 % 256, a / 2 ^ 8 % 256, a % 256]

def formatAddress (a : Nat) : List Char := ['.'].intercalate ((octets a).map (Nat.toDigits 10))

def format (n : Network) : String :=
  String.ofList (['/'].intercalate [formatAddress n.address, Nat.toDigits 10 n.prefixLength])

def digitsValue (s : List Char) : Nat := s.foldl (fun n c => 10 * n + (c.toNat - '0'.toNat)) 0

def isNumber (s : List Char) : Bool := !s.isEmpty && s.all Char.isDigit

/-- An octet has no leading zero. -/
def parseOctet (s : List Char) : Option Nat :=
  if isNumber s ∧ s.length ≤ 3 ∧ (s = ['0'] ∨ s.head? ≠ some '0') ∧ digitsValue s ≤ 255 then
    some (digitsValue s)
  else none

def parseAddress (s : List Char) : Option Nat :=
  match s.splitOn '.' with
  | [a, b, c, d] => do
    let a ← parseOctet a
    let b ← parseOctet b
    let c ← parseOctet c
    let d ← parseOctet d
    return a * 2 ^ 24 + b * 2 ^ 16 + c * 2 ^ 8 + d
  | _ => none

/-- The prefix length a netmask stands for. -/
def prefixOfMask (mask : Nat) : Option Nat :=
  (List.range 33).find? fun p => mask = 2 ^ 32 - 2 ^ (32 - p)

/-- A prefix length in digits, a netmask, or a hostmask. -/
def parsePrefix (s : List Char) : Option Nat :=
  if isNumber s ∧ digitsValue s ≤ 32 then some (digitsValue s)
  else (parseAddress s).bind fun mask =>
    (prefixOfMask mask).or (prefixOfMask (2 ^ 32 - 1 - mask))

def parse (cidr : String) : Option Network :=
  match cidr.toList.splitOn '/' with
  | [a] => (parseAddress a).bind fun a => Network.ofParts a 32
  | [a, p] => (parseAddress a).bind fun a => (parsePrefix p).bind (Network.ofParts a)
  | _ => none

/-- Both texts are networks, and the first lies in the second. -/
def inside (c d : String) : Bool :=
  match parse c, parse d with
  | some n, some m => n.Within m
  | _, _ => false

theorem inside_iff {c d : String} :
    inside c d = true ↔ ∃ n m, parse c = some n ∧ parse d = some m ∧ n.Within m := by
  rw [inside]
  split
  · next n m hn hm =>
    rw [decide_eq_true_eq]
    constructor
    · exact fun h => ⟨n, m, hn, hm, h⟩
    · rintro ⟨n', m', hn', hm', h⟩
      cases hn.symm.trans hn'
      cases hm.symm.trans hm'
      exact h
  · next hno =>
    constructor
    · exact fun h => absurd h (by decide)
    · rintro ⟨n, m, hn, hm, -⟩
      exact (hno n m hn hm).elim

theorem inside_trans {b c d : String} (h : inside b c = true) (h' : inside c d = true) :
    inside b d = true := by
  obtain ⟨n, m, hn, hm, hnm⟩ := inside_iff.mp h
  obtain ⟨m', k, hm', hk, hmk⟩ := inside_iff.mp h'
  rw [hm] at hm'
  cases hm'
  exact inside_iff.mpr ⟨n, k, hn, hk, hnm.trans hmk⟩

theorem digits_octet : ∀ k < 256, parseOctet (Nat.toDigits 10 k) = some k ∧
    '.' ∉ Nat.toDigits 10 k ∧ '/' ∉ Nat.toDigits 10 k := by
  decide +kernel

theorem digits_prefix : ∀ p < 33, parsePrefix (Nat.toDigits 10 p) = some p ∧
    '/' ∉ Nat.toDigits 10 p := by
  decide +kernel

theorem octet_lt {a k : Nat} (h : k ∈ octets a) : k < 256 := by
  simp only [octets, List.mem_cons, List.not_mem_nil, or_false] at h
  omega

theorem parseAddress_format {a : Nat} (h : a < 2 ^ 32) :
    parseAddress (formatAddress a) = some a := by
  have hsplit : (formatAddress a).splitOn '.' = (octets a).map (Nat.toDigits 10) := by
    refine List.splitOn_intercalate _ ?_ (List.cons_ne_nil _ _)
    intro l hl
    obtain ⟨k, hk, rfl⟩ := List.mem_map.mp hl
    exact (digits_octet k (octet_lt hk)).2.1
  have hoctet : ∀ k ∈ octets a, parseOctet (Nat.toDigits 10 k) = some k :=
    fun k hk => (digits_octet k (octet_lt hk)).1
  simp only [octets, List.forall_mem_cons] at hoctet
  obtain ⟨h₁, h₂, h₃, h₄, -⟩ := hoctet
  rw [parseAddress, hsplit]
  simp only [octets, List.map_cons, List.map_nil, h₁, h₂, h₃, h₄, Option.bind_eq_bind,
    Option.bind_some, Option.pure_def, Option.some.injEq]
  omega

theorem slash_formatAddress (a : Nat) : '/' ∉ formatAddress a := by
  intro h
  simp only [formatAddress, octets, List.map_cons, List.map_nil, List.intercalate,
    List.intersperse_cons_cons, List.intersperse_singleton, List.flatten_cons, List.flatten_nil,
    List.mem_append, List.mem_singleton, List.not_mem_nil, or_false] at h
  have hno : ∀ k ∈ octets a, '/' ∉ Nat.toDigits 10 k :=
    fun k hk => (digits_octet k (octet_lt hk)).2.2
  simp only [octets, List.forall_mem_cons] at hno
  obtain ⟨h₁, h₂, h₃, h₄, -⟩ := hno
  simp only [h₁, h₂, h₃, h₄, false_or, or_false, or_self] at h
  exact absurd h (by decide)

/-- The canonical text of a network reads back as the network. -/
theorem parse_format (n : Network) : parse (format n) = some n := by
  have hp := digits_prefix n.prefixLength (Nat.lt_succ_of_le n.prefix_le)
  have hsplit : (format n).toList.splitOn '/' =
      [formatAddress n.address, Nat.toDigits 10 n.prefixLength] := by
    rw [format, String.toList_ofList]
    refine List.splitOn_intercalate _ ?_ (List.cons_ne_nil _ _)
    intro l hl
    rcases List.mem_cons.mp hl with rfl | hl
    · exact slash_formatAddress _
    · cases List.mem_singleton.mp hl
      exact hp.2
  rw [parse, hsplit]
  simp only [parseAddress_format n.address_lt, hp.1, Option.bind_some, Network.ofParts_self]

end Ipv4
