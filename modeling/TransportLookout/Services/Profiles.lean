/-
The profiles a request may create: `ProfileCreate` of `schemas.py`.

The pattern of `ports` is one of pydantic's regular expressions, in which `\d` is
any decimal digit of Unicode; `Ports.Digits` says which characters those are.  The
fields are checked in order, and the model as a whole when none of them is wrong.
-/
import TransportLookout.Library.Pattern
import TransportLookout.Library.Ports
import TransportLookout.Services.Inventory

namespace TransportLookout

open RegularExpression Pattern Relational

/-! ## The pattern of `ports` -/

/-- The classes of characters the pattern tells apart. -/
inductive PortSymbol
  | t
  | u
  | colon
  | comma
  | dash
  | digit
  | other
deriving DecidableEq, Repr

def portSymbol (d : Ports.Digits) (c : Char) : PortSymbol :=
  if c = 'T' then .t
  else if c = 'U' then .u
  else if c = ':' then .colon
  else if c = ',' then .comma
  else if c = '-' then .dash
  else if (d.value c).isSome then .digit
  else .other

/-- `([TU]:)?`. -/
def qualifierPattern : RegularExpression PortSymbol := opt ((char .t + char .u) * char .colon)

/-- `\d+(-\d+)?`. -/
def rangePattern : RegularExpression PortSymbol :=
  oneOrMore (char .digit) * opt (char .dash * oneOrMore (char .digit))

/-- `^([TU]:)?\d+(-\d+)?(,([TU]:)?\d+(-\d+)?)*$`. -/
def portsPattern : RegularExpression PortSymbol :=
  separated .comma (qualifierPattern * rangePattern)

/-! ## The checks of a payload -/

/-- An entry of a 422 response. -/
structure Problem where
  loc : List String
  msg : String
deriving DecidableEq, Repr

def fieldProblem (field msg : String) : Problem := { loc := ["body", field], msg := msg }

def characters (n : Nat) : String := toString n ++ (if n = 1 then " character" else " characters")

/-- `Field(min_length=low, max_length=high)`. -/
def lengthProblems (field : String) (low high : Nat) (value : String) : List Problem :=
  if value.length < low then
    [fieldProblem field ("String should have at least " ++ characters low)]
  else if high < value.length then
    [fieldProblem field ("String should have at most " ++ characters high)]
  else []

/-- `Field(ge=low, le=high)`. -/
def rangeProblems (field : String) (low high value : Int) : List Problem :=
  if value < low then
    [fieldProblem field ("Input should be greater than or equal to " ++ toString low)]
  else if high < value then
    [fieldProblem field ("Input should be less than or equal to " ++ toString high)]
  else []

section
variable (d : Ports.Digits)

/-- `Field(pattern=...)`. -/
def portsProblems (value : String) : List Problem :=
  if accepts (portSymbol d) portsPattern value then []
  else [fieldProblem "ports"
    "String should match pattern '^([TU]:)?\\d+(-\\d+)?(,([TU]:)?\\d+(-\\d+)?)*$'"]

def ProfileCreate.problems (payload : ProfileCreate) : List Problem :=
  lengthProblems "name" 3 120 payload.name ++
  portsProblems d payload.ports ++
  rangeProblems "max_rate" 1 10000 payload.maxRate ++
  rangeProblems "max_concurrent_shards" 1 128 payload.maxConcurrentShards ++
  rangeProblems "timeout_seconds" 30 14400 payload.timeoutSeconds ++
  lengthProblems "zone" 1 64 payload.zone

/-- `masscan_profiles_are_tcp_only`. -/
def ProfileCreate.tcpOnly (payload : ProfileCreate) : Except (List Problem) ProfileCreate :=
  if payload.scannerMode = .masscanThenNmap ∧ Text.contains "U:" payload.ports = true then
    .error [{ loc := ["body"]
              msg := "Value error, masscan discovery profiles support TCP ports only" }]
  else .ok payload

/-- The payload as it is admitted: `ports_are_nonempty` has turned `ports` to upper
case. -/
def ProfileCreate.validate (payload : ProfileCreate) : Except (List Problem) ProfileCreate :=
  match payload.problems d with
  | [] => { payload with ports := payload.ports.toUpper }.tcpOnly
  | problem :: problems => .error (problem :: problems)

end

/-! ## What is admitted -/

theorem lengthProblems_eq_nil {field value : String} {low high : Nat} :
    lengthProblems field low high value = [] ↔ low ≤ value.length ∧ value.length ≤ high := by
  rw [lengthProblems]
  split
  · next h => exact iff_of_false (List.cons_ne_nil _ _) (by omega)
  · split
    · next h => exact iff_of_false (List.cons_ne_nil _ _) (by omega)
    · next h h' => exact iff_of_true rfl (by omega)

theorem rangeProblems_eq_nil {field : String} {low high value : Int} :
    rangeProblems field low high value = [] ↔ low ≤ value ∧ value ≤ high := by
  rw [rangeProblems]
  split
  · next h => exact iff_of_false (List.cons_ne_nil _ _) (by omega)
  · split
    · next h => exact iff_of_false (List.cons_ne_nil _ _) (by omega)
    · next h h' => exact iff_of_true rfl (by omega)

/-- What an admitted payload is known to be. -/
structure ProfileCreate.Admissible (d : Ports.Digits) (payload : ProfileCreate) : Prop where
  name : 3 ≤ payload.name.length ∧ payload.name.length ≤ 120
  ports : accepts (portSymbol d) portsPattern payload.ports = true
  maxRate : 1 ≤ payload.maxRate ∧ payload.maxRate ≤ 10000
  maxConcurrentShards : 1 ≤ payload.maxConcurrentShards ∧ payload.maxConcurrentShards ≤ 128
  timeoutSeconds : 30 ≤ payload.timeoutSeconds ∧ payload.timeoutSeconds ≤ 14400
  zone : 1 ≤ payload.zone.length ∧ payload.zone.length ≤ 64

theorem ProfileCreate.problems_eq_nil {d : Ports.Digits} {payload : ProfileCreate} :
    payload.problems d = [] ↔ payload.Admissible d := by
  have hports : portsProblems d payload.ports = [] ↔
      accepts (portSymbol d) portsPattern payload.ports = true := by
    rw [portsProblems]
    split
    · next h => exact iff_of_true rfl h
    · next h => exact iff_of_false (List.cons_ne_nil _ _) h
  rw [problems]
  simp only [List.append_eq_nil_iff, lengthProblems_eq_nil, rangeProblems_eq_nil, hports]
  constructor
  · intro h
    obtain ⟨⟨⟨⟨⟨hname, hports⟩, hrate⟩, hshards⟩, htimeout⟩, hzone⟩ := h
    exact ⟨hname, hports, hrate, by omega, htimeout, hzone⟩
  · intro h
    have hshards := h.maxConcurrentShards
    exact ⟨⟨⟨⟨⟨h.name, h.ports⟩, h.maxRate⟩, by omega⟩, h.timeoutSeconds⟩, h.zone⟩

theorem lengthProblems_loc {field value : String} {low high : Nat} {p : Problem}
    (h : p ∈ lengthProblems field low high value) : p.loc = ["body", field] := by
  rw [lengthProblems] at h
  split at h
  · rw [List.mem_singleton.mp h, fieldProblem]
  · split at h
    · rw [List.mem_singleton.mp h, fieldProblem]
    · cases h

theorem rangeProblems_loc {field : String} {low high value : Int} {p : Problem}
    (h : p ∈ rangeProblems field low high value) : p.loc = ["body", field] := by
  rw [rangeProblems] at h
  split at h
  · rw [List.mem_singleton.mp h, fieldProblem]
  · split at h
    · rw [List.mem_singleton.mp h, fieldProblem]
    · cases h

/-- A problem with a field names one that is checked. -/
theorem ProfileCreate.problems_loc {d : Ports.Digits} {payload : ProfileCreate} {p : Problem}
    (h : p ∈ payload.problems d) :
    ∃ field ∈ ["name", "ports", "max_rate", "max_concurrent_shards", "timeout_seconds", "zone"],
      p.loc = ["body", field] := by
  rw [problems] at h
  simp only [List.mem_append] at h
  obtain ((((h | h) | h) | h) | h) | h := h
  · exact ⟨_, by decide, lengthProblems_loc h⟩
  · rw [portsProblems] at h
    split at h
    · cases h
    · rw [List.mem_singleton.mp h]
      exact ⟨"ports", by decide, rfl⟩
  · exact ⟨_, by decide, rangeProblems_loc h⟩
  · exact ⟨_, by decide, rangeProblems_loc h⟩
  · exact ⟨_, by decide, rangeProblems_loc h⟩
  · exact ⟨_, by decide, lengthProblems_loc h⟩

/-- The defaults pass their own checks. -/
theorem ProfileCreate.admissible_default {d : Ports.Digits} {name ports : String}
    (hname : 3 ≤ name.length ∧ name.length ≤ 120)
    (hports : accepts (portSymbol d) portsPattern ports = true) (scannerMode : ScannerMode) :
    ProfileCreate.Admissible d { name, ports, scannerMode } where
  name := hname
  ports := hports
  maxRate := by simp
  maxConcurrentShards := by simp
  timeoutSeconds := by simp
  zone := by
    show 1 ≤ "default".length ∧ "default".length ≤ 64
    decide

/-- The row the request leaves under its id is the one of that profile. -/
theorem addProfile_row {db db' : Db} {payload : ProfileCreate} {actor : String} {id : Uuid}
    (h : addProfile db payload actor id = .ok db') :
    db'.profiles.get id = some (payload.profile id (nextVersion db payload.name)) := by
  rw [addProfile] at h
  split at h
  · cases h
  · next profiles hprofiles =>
    cases h
    exact Table.get_append?_of_mem hprofiles List.mem_cons_self

end TransportLookout
