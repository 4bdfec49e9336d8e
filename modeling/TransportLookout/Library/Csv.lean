/-
Comma-separated records.

The reader of CPython's `csv` in the `excel` dialect takes lines one by one, and
the end of a line is an input of its own; a quoted field may go on over several
lines.  It stops at a character after a line break that is not in a quoted field,
and at a field over its limit.  `DictReader` names the fields of a record.
-/
import Mathlib.Data.List.Basic

namespace Csv

inductive ReaderState
  | startRecord
  | startField
  | inField
  | inQuotedField
  | quoteInQuotedField
  | eatCrnl
deriving DecidableEq, Repr

inductive Error
  | newLine
  | fieldLimit
deriving DecidableEq, Repr

structure Reader where
  state : ReaderState := .startRecord
  field : List Char := []
  fields : List String := []
deriving DecidableEq, Repr

def isNewLine (c : Char) : Bool := c = '\n' || c = '\r'

section
variable (limit : Nat)

namespace Reader

def addChar (r : Reader) (state : ReaderState) (c : Char) : Except Error Reader :=
  if limit ≤ r.field.length then .error .fieldLimit
  else .ok { r with state := state, field := r.field ++ [c] }

def saveField (r : Reader) (state : ReaderState) : Reader :=
  { state := state, field := [], fields := r.fields ++ [String.ofList r.field] }

def startField (r : Reader) (c : Char) : Except Error Reader :=
  if isNewLine c then .ok (r.saveField .eatCrnl)
  else if c = '"' then .ok { r with state := .inQuotedField }
  else if c = ',' then .ok (r.saveField .startField)
  else r.addChar limit .inField c

/-- One character; `none` is the end of the line. -/
def processChar (r : Reader) (c : Option Char) : Except Error Reader :=
  match r.state, c with
  | .startRecord, none => .ok r
  | .startRecord, some c =>
    if isNewLine c then .ok { r with state := .eatCrnl } else r.startField limit c
  | .startField, none => .ok (r.saveField .startRecord)
  | .startField, some c => r.startField limit c
  | .inField, none => .ok (r.saveField .startRecord)
  | .inField, some c =>
    if isNewLine c then .ok (r.saveField .eatCrnl)
    else if c = ',' then .ok (r.saveField .startField)
    else r.addChar limit .inField c
  | .inQuotedField, none => .ok r
  | .inQuotedField, some c =>
    if c = '"' then .ok { r with state := .quoteInQuotedField }
    else r.addChar limit .inQuotedField c
  | .quoteInQuotedField, none => .ok (r.saveField .startRecord)
  | .quoteInQuotedField, some c =>
    -- a doubled quote is one quote, and text after the closing quote joins the field
    if c = '"' then r.addChar limit .inQuotedField c
    else if c = ',' then .ok (r.saveField .startField)
    else if isNewLine c then .ok (r.saveField .eatCrnl)
    else r.addChar limit .inField c
  | .eatCrnl, none => .ok { r with state := .startRecord }
  | .eatCrnl, some c => if isNewLine c then .ok r else .error .newLine

def processLine (r : Reader) : List Char → Except Error Reader
  | [] => r.processChar limit none
  | c :: cs =>
    match r.processChar limit (some c) with
    | .error e => .error e
    | .ok r => r.processLine cs

/-- The record that the end of the input leaves. -/
def atEnd (r : Reader) : Option (List String) :=
  if r.field ≠ [] ∨ r.state = .inQuotedField then some (r.saveField .startRecord).fields else none

/-- `next(reader)`: a record and the lines after it, unless the input is at its end. -/
def next (r : Reader) : List (List Char) → Except Error (Option (List String × List (List Char)))
  | [] => .ok (r.atEnd.map (·, []))
  | line :: lines =>
    match r.processLine limit line with
    | .error e => .error e
    | .ok r => if r.state = .startRecord then .ok (some (r.fields, lines)) else r.next lines

/-- `list(reader)`. -/
def readAll (r : Reader) : List (List Char) → Except Error (List (List String))
  | [] => .ok r.atEnd.toList
  | line :: lines =>
    match r.processLine limit line with
    | .error e => .error e
    | .ok r =>
      if r.state = .startRecord then (readAll {} lines).map (r.fields :: ·) else r.readAll lines

/-- All the records are the next one and those after it. -/
theorem readAll_eq (r : Reader) (lines : List (List Char)) :
    r.readAll limit lines = match r.next limit lines with
      | .error e => .error e
      | .ok none => .ok []
      | .ok (some (record, rest)) => (readAll limit {} rest).map (record :: ·) := by
  induction lines generalizing r with
  | nil =>
    rw [readAll, next]
    cases r.atEnd with
    | none => rfl
    | some record => rfl
  | cons line lines ih =>
    rw [readAll, next]
    cases r.processLine limit line with
    | error e => rfl
    | ok r =>
      dsimp only
      split
      · rfl
      · exact ih r

end Reader

/-- Iterating over a text: its lines, with their line feeds. -/
def lines : List Char → List (List Char)
  | [] => []
  | c :: cs =>
    if c = '\n' then [c] :: lines cs
    else
      match lines cs with
      | [] => [[c]]
      | l :: ls => (c :: l) :: ls

/-- `DictReader.get`: a name that stands twice has its last value, and one that is
beyond the fields of the record has none. -/
def dictGet (names record : List String) (key : String) : Option String :=
  ((names.zip (record.map some) ++
    (names.drop record.length).map fun name => (name, none)).reverse.lookup key).join

/-! ## Texts that are read to their end -/

theorem flatten_lines (cs : List Char) : (lines cs).flatten = cs := by
  induction cs with
  | nil => rfl
  | cons c cs ih =>
    rw [lines]
    split
    · rw [List.flatten_cons, ih, List.singleton_append]
    · split
      · next hnil =>
        rw [hnil] at ih
        rw [← ih]
        rfl
      · next l ls hcons =>
        rw [hcons, List.flatten_cons] at ih
        rw [List.flatten_cons, List.cons_append, ih]

/-- No character but a line feed follows a carriage return. -/
def Terminated : List Char → Prop
  | [] => True
  | c :: cs => (c = '\r' → cs.head?.all (· = '\n') = true) ∧ Terminated cs

/-- Line breaks stand at the end of the line only. -/
def BreaksAtEnd : List Char → Prop
  | [] => True
  | c :: cs => (isNewLine c = true → cs = [] ∨ cs = ['\n']) ∧ BreaksAtEnd cs

theorem breaksAtEnd_lines {cs : List Char} (h : Terminated cs) :
    ∀ l ∈ lines cs, BreaksAtEnd l := by
  induction cs with
  | nil => exact fun l hl => absurd hl List.not_mem_nil
  | cons c cs ih =>
    obtain ⟨hreturn, hrest⟩ := h
    rw [lines]
    split
    · rintro l (_ | ⟨_, hl⟩)
      · exact ⟨fun _ => Or.inl rfl, trivial⟩
      · exact ih hrest l hl
    · next hfeed =>
      have hbreak : isNewLine c = true → c = '\r' := by
        intro hc
        rw [isNewLine, Bool.or_eq_true, decide_eq_true_eq, decide_eq_true_eq] at hc
        exact hc.resolve_left hfeed
      split
      · intro l hl
        cases List.mem_singleton.mp hl
        exact ⟨fun _ => Or.inl rfl, trivial⟩
      · next first others hcons =>
        have hall := ih hrest
        rw [hcons] at hall
        rintro l (_ | ⟨_, hl⟩)
        · refine ⟨fun hc => Or.inr ?_, hall first List.mem_cons_self⟩
          have hhead := hreturn (hbreak hc)
          cases cs with
          | nil => cases hcons
          | cons d ds =>
            have hd : d = '\n' := of_decide_eq_true hhead
            rw [lines, if_pos hd] at hcons
            cases hcons
            rw [hd]
        · exact hall l (List.mem_cons_of_mem _ hl)

variable {limit}

namespace Reader

theorem addChar_ok {r : Reader} (h : r.field.length < limit) (state : ReaderState) (c : Char) :
    r.addChar limit state c = .ok { r with state := state, field := r.field ++ [c] } :=
  if_neg (Nat.not_le.mpr h)

/-- A reader after one more character, or the end of a line. -/
structure Advanced (r r' : Reader) (c : Option Char) : Prop where
  field_le : r'.field.length ≤ r.field.length + c.toList.length
  breaks : r'.state = .eatCrnl → c.any isNewLine = true

theorem startField_ok {r : Reader} (h : r.field.length < limit) (c : Char) :
    ∃ r', r.startField limit c = .ok r' ∧ Advanced r r' (some c) := by
  rw [startField]
  split
  · next hc => exact ⟨_, rfl, Nat.zero_le _, fun _ => hc⟩
  · split
    · exact ⟨_, rfl, Nat.le_add_right _ _, nofun⟩
    · split
      · exact ⟨_, rfl, Nat.zero_le _, nofun⟩
      · exact ⟨_, addChar_ok h .inField c, Nat.le_of_eq List.length_append, nofun⟩

theorem processChar_ok {r : Reader} {c : Char} (h : r.field.length < limit)
    (hbreak : r.state = .eatCrnl → isNewLine c = true) :
    ∃ r', r.processChar limit (some c) = .ok r' ∧ Advanced r r' (some c) := by
  have hadd : ∀ state, state ≠ .eatCrnl →
      ∃ r', r.addChar limit state c = .ok r' ∧ Advanced r r' (some c) := fun state hstate =>
    ⟨_, addChar_ok h state c, Nat.le_of_eq List.length_append, fun heq => absurd heq hstate⟩
  unfold processChar
  cases hstate : r.state with
  | startRecord =>
    dsimp only
    split
    · next hc => exact ⟨_, rfl, Nat.le_add_right _ _, fun _ => hc⟩
    · exact startField_ok h c
  | startField => exact startField_ok h c
  | inField =>
    dsimp only
    split
    · next hc => exact ⟨_, rfl, Nat.zero_le _, fun _ => hc⟩
    · split
      · exact ⟨_, rfl, Nat.zero_le _, nofun⟩
      · exact hadd .inField nofun
  | inQuotedField =>
    dsimp only
    split
    · exact ⟨_, rfl, Nat.le_add_right _ _, nofun⟩
    · exact hadd .inQuotedField nofun
  | quoteInQuotedField =>
    dsimp only
    split
    · exact hadd .inQuotedField nofun
    · split
      · exact ⟨_, rfl, Nat.zero_le _, nofun⟩
      · split
        · next hc => exact ⟨_, rfl, Nat.zero_le _, fun _ => hc⟩
        · exact hadd .inField nofun
  | eatCrnl =>
    have hc := hbreak hstate
    dsimp only
    rw [if_pos hc]
    exact ⟨r, rfl, Nat.le_add_right _ _, fun _ => hc⟩

/-- The end of a line is always read, and leaves no break to skip. -/
theorem processEnd_ok (r : Reader) : ∃ r', r.processChar limit none = .ok r' ∧
    r'.field.length ≤ r.field.length ∧ r'.state ≠ .eatCrnl := by
  unfold processChar
  cases hstate : r.state with
  | startRecord | inQuotedField =>
    refine ⟨r, rfl, Nat.le_refl _, ?_⟩
    rw [hstate]
    exact nofun
  | eatCrnl => exact ⟨_, rfl, Nat.le_refl _, nofun⟩
  | startField | inField | quoteInQuotedField => exact ⟨_, rfl, Nat.zero_le _, nofun⟩

theorem processLine_ok {r : Reader} {line : List Char} (hline : BreaksAtEnd line)
    (hbreak : r.state = .eatCrnl → line = [] ∨ line = ['\n'])
    (hlimit : r.field.length + line.length ≤ limit) :
    ∃ r', r.processLine limit line = .ok r' ∧ r'.field.length ≤ r.field.length + line.length ∧
      r'.state ≠ .eatCrnl := by
  induction line generalizing r with
  | nil => exact processEnd_ok r
  | cons c cs ih =>
    rw [List.length_cons] at hlimit
    obtain ⟨hend, hcs⟩ := hline
    obtain ⟨r₁, hstep, hfield, hnew⟩ : ∃ r', r.processChar limit (some c) = .ok r' ∧
        Advanced r r' (some c) := by
      refine processChar_ok (by omega) fun hstate => ?_
      rcases hbreak hstate with hnil | hfeed
      · cases hnil
      · cases hfeed
        rfl
    change r₁.field.length ≤ r.field.length + 1 at hfield
    obtain ⟨r₂, hrest, hlength, hstate⟩ := ih hcs (fun hstate => hend (hnew hstate)) (by omega)
    refine ⟨r₂, ?_, ?_, hstate⟩
    · rw [processLine, hstep]
      exact hrest
    · rw [List.length_cons]
      omega

theorem readAll_ok {ls : List (List Char)} {r : Reader} (hls : ∀ l ∈ ls, BreaksAtEnd l)
    (hstate : r.state ≠ .eatCrnl) (hlimit : r.field.length + ls.flatten.length ≤ limit) :
    ∃ records, r.readAll limit ls = .ok records := by
  induction ls generalizing r with
  | nil => exact ⟨_, rfl⟩
  | cons l ls ih =>
    rw [List.flatten_cons, List.length_append] at hlimit
    obtain ⟨r₁, hstep, hlength, hafter⟩ := processLine_ok (hls l List.mem_cons_self)
      (fun heat => absurd heat hstate) (show r.field.length + l.length ≤ limit by omega)
    have htail : ∀ l ∈ ls, BreaksAtEnd l := fun l hl => hls l (List.mem_cons_of_mem _ hl)
    rw [readAll, hstep]
    dsimp only
    split
    · obtain ⟨records, hrecords⟩ := ih (r := {}) htail nofun (by
        change 0 + _ ≤ _
        omega)
      rw [hrecords]
      exact ⟨_, rfl⟩
    · exact ih htail hafter (by omega)

end Reader

/-- A text within the limit whose carriage returns all end lines is read to its end. -/
theorem readAll_terminated {cs : List Char} (h : Terminated cs) (hlimit : cs.length ≤ limit) :
    ∃ records, Reader.readAll limit {} (lines cs) = .ok records := by
  refine Reader.readAll_ok (breaksAtEnd_lines h) nofun ?_
  rw [flatten_lines]
  change 0 + _ ≤ _
  omega

end

end Csv
