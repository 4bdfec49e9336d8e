/-
Writing comma-separated records, and reading them back.

The writer of CPython's `csv` in the `excel` dialect quotes a field that holds a
comma, a quote or a line break, and a lone field that is empty.  Its records end in a
carriage return and a line feed.  The theorem this file exists for is
`readAll_write`: the reader gives back any records whose fields are within its limit.

A quoted field may go on over several lines, so the proof reads the text rather than
its lines.  `resume r cs` is what is read where `cs` is left of the text and `r` is in
the middle of a line.
-/
import TransportLookout.Library.Csv

namespace Csv

def special (c : Char) : Bool := c = ',' || c = '"' || isNewLine c

/-- A quote in a quoted field is doubled. -/
def escape : List Char → List Char
  | [] => []
  | c :: cs => if c = '"' then '"' :: '"' :: escape cs else c :: escape cs

def quoted (field : List Char) : List Char := '"' :: escape field ++ ['"']

def writeField (field : String) : List Char :=
  if field.toList.any special then quoted field.toList else field.toList

/-- The fields of a record, with the separators between them. -/
def writeFields : List String → List Char
  | [] => []
  | [field] => writeField field
  | field :: fields => writeField field ++ ',' :: writeFields fields

/-- `writerow`.  A record that would be blank is a quoted empty field. -/
def writeRecord (record : List String) : List Char :=
  (if record = [""] then quoted [] else writeFields record) ++ ['\r', '\n']

/-- `writerows`. -/
def write (records : List (List String)) : List Char := records.flatMap writeRecord

/-! ## Reading a text from the middle of a line -/

section
variable (limit : Nat)

namespace Reader

/-- A line that is left, and the lines after it. -/
def readRest (r : Reader) (line : List Char) (lines : List (List Char)) :
    Except Error (List (List String)) :=
  match r.processLine limit line with
  | .error e => .error e
  | .ok r =>
    if r.state = .startRecord then (readAll limit {} lines).map (r.fields :: ·)
    else r.readAll limit lines

def resume (r : Reader) (cs : List Char) : Except Error (List (List String)) :=
  match lines cs with
  | [] => r.readRest limit [] []
  | line :: rest => r.readRest limit line rest

variable {limit}

theorem readAll_lines {r : Reader} {cs : List Char} (h : cs ≠ []) :
    r.readAll limit (lines cs) = r.resume limit cs := by
  rw [resume]
  cases hlines : lines cs with
  | nil =>
    have hflat := flatten_lines cs
    rw [hlines] at hflat
    exact absurd hflat.symm h
  | cons line rest =>
    rw [readAll]
    rfl

theorem readRest_cons {r r' : Reader} {c : Char} (h : r.processChar limit (some c) = .ok r')
    (line : List Char) (rest : List (List Char)) :
    r.readRest limit (c :: line) rest = r'.readRest limit line rest := by
  rw [readRest, processLine, h]
  rfl

theorem resume_cons {r r' : Reader} {c : Char} (hc : c ≠ '\n')
    (h : r.processChar limit (some c) = .ok r') (cs : List Char) :
    r.resume limit (c :: cs) = r'.resume limit cs := by
  rw [resume, resume, lines, if_neg hc]
  cases lines cs with
  | nil => exact readRest_cons h [] []
  | cons line rest => exact readRest_cons h line rest

/-- At a line feed the line ends. -/
theorem resume_feed {r r₁ r₂ : Reader} (h : r.processChar limit (some '\n') = .ok r₁)
    (hend : r₁.processChar limit none = .ok r₂) (cs : List Char) :
    r.resume limit ('\n' :: cs) =
      if r₂.state = .startRecord then (readAll limit {} (lines cs)).map (r₂.fields :: ·)
      else r₂.readAll limit (lines cs) := by
  rw [resume, lines, if_pos rfl]
  dsimp only
  rw [readRest_cons h, readRest, processLine, hend]

/-! ## Fields -/

/-- The reader is at the start of a field. -/
structure AtField (r : Reader) (fields : List String) : Prop where
  state : r.state = .startField ∨ r.state = .startRecord
  field : r.field = []
  fields : r.fields = fields

/-- The reader is inside a plain field. -/
structure InPlain (r : Reader) (fields : List String) (field : List Char) : Prop where
  state : r.state = .inField
  field : r.field = field
  fields : r.fields = fields

theorem not_special {c : Char} (h : special c = false) :
    c ≠ ',' ∧ c ≠ '"' ∧ isNewLine c = false := by
  rw [special, Bool.or_eq_false_iff, Bool.or_eq_false_iff] at h
  exact ⟨of_decide_eq_false h.1.1, of_decide_eq_false h.1.2, h.2⟩

theorem ne_feed {c : Char} (h : isNewLine c = false) : c ≠ '\n' := by
  rintro rfl
  cases h

theorem startField_plain {r : Reader} {fields : List String} (h : r.AtField fields) {c : Char}
    (hc : special c = false) (hlimit : 0 < limit) :
    ∃ r' : Reader, r.processChar limit (some c) = .ok r' ∧ r'.InPlain fields [c] := by
  obtain ⟨hcomma, hquote, hbreak⟩ := not_special hc
  have hfield : r.field.length < limit := by
    rw [h.field]
    exact hlimit
  have hstart : r.startField limit c = .ok { r with state := .inField, field := r.field ++ [c] } := by
    rw [startField, if_neg (by rw [hbreak]; exact Bool.false_ne_true), if_neg hquote, if_neg hcomma,
      addChar_ok hfield]
  refine ⟨{ r with state := .inField, field := r.field ++ [c] }, ?_, rfl, by rw [h.field]; rfl,
    h.fields⟩
  unfold processChar
  rcases h.state with hstate | hstate
  · rw [hstate]
    exact hstart
  · rw [hstate]
    dsimp only
    rw [if_neg (by rw [hbreak]; exact Bool.false_ne_true)]
    exact hstart

theorem resume_plain {cs : List Char} {r : Reader} {fields : List String} {field : List Char}
    (h : r.InPlain fields field) (hcs : cs.any special = false)
    (hlimit : field.length + cs.length ≤ limit) (rest : List Char) :
    ∃ r' : Reader, r.resume limit (cs ++ rest) = r'.resume limit rest ∧ r'.InPlain fields (field ++ cs) := by
  induction cs generalizing r field with
  | nil => exact ⟨r, rfl, by rw [List.append_nil]; exact h⟩
  | cons c cs ih =>
    rw [List.any_cons, Bool.or_eq_false_iff] at hcs
    rw [List.length_cons] at hlimit
    obtain ⟨hcomma, -, hbreak⟩ := not_special hcs.1
    have hfield : r.field.length < limit := by
      rw [h.field]
      omega
    have hstep : r.processChar limit (some c) =
        .ok { r with state := .inField, field := r.field ++ [c] } := by
      unfold processChar
      rw [h.state]
      dsimp only
      rw [if_neg (by rw [hbreak]; exact Bool.false_ne_true), if_neg hcomma, addChar_ok hfield]
    have hnext : ({ r with state := .inField, field := r.field ++ [c] } : Reader).InPlain fields
        (field ++ [c]) := ⟨rfl, by rw [h.field], h.fields⟩
    obtain ⟨r', hrest, hplain⟩ := ih hnext hcs.2
      (by rw [List.length_append, List.length_singleton]; omega)
    refine ⟨r', ?_, ?_⟩
    · rw [List.cons_append, resume_cons (ne_feed hbreak) hstep, hrest]
    · rw [List.append_assoc] at hplain
      exact hplain

/-- The reader is inside a quoted field. -/
structure InQuoted (r : Reader) (fields : List String) (field : List Char) : Prop where
  state : r.state = .inQuotedField
  field : r.field = field
  fields : r.fields = fields

/-- A character of a quoted field that is no quote, with what is left of the field. -/
theorem resume_content {r : Reader} {fields : List String} {field : List Char}
    (h : r.InQuoted fields field) {c : Char} (hc : c ≠ '"') (hlimit : field.length < limit)
    {cs : List Char} (hcs : cs ≠ []) :
    ∃ r' : Reader, r.resume limit (c :: cs) = r'.resume limit cs ∧ r'.InQuoted fields (field ++ [c]) := by
  have hfield : r.field.length < limit := by
    rw [h.field]
    exact hlimit
  have hstep : r.processChar limit (some c) =
      .ok { r with state := .inQuotedField, field := r.field ++ [c] } := by
    unfold processChar
    rw [h.state]
    dsimp only
    rw [if_neg hc, addChar_ok hfield]
  refine ⟨{ r with state := .inQuotedField, field := r.field ++ [c] }, ?_, rfl, by rw [h.field],
    h.fields⟩
  by_cases hfeed : c = '\n'
  · subst hfeed
    have hend : ({ r with state := .inQuotedField, field := r.field ++ ['\n'] } : Reader).processChar
        limit none = .ok { r with state := .inQuotedField, field := r.field ++ ['\n'] } := rfl
    -- the field goes on in the next line
    rw [resume_feed hstep hend, if_neg (by simp), readAll_lines hcs]
  · exact resume_cons hfeed hstep cs

theorem resume_quote {r : Reader} {fields : List String} {field : List Char}
    (h : r.InQuoted fields field) (cs : List Char) :
    r.resume limit ('"' :: cs) =
      ({ r with state := .quoteInQuotedField } : Reader).resume limit cs := by
  refine resume_cons (by decide) ?_ cs
  unfold processChar
  rw [h.state]
  rfl

/-- A doubled quote is one. -/
theorem resume_doubled {r : Reader} {fields : List String} {field : List Char}
    (h : r.InQuoted fields field) (hlimit : field.length < limit) (cs : List Char) :
    ∃ r' : Reader, r.resume limit ('"' :: '"' :: cs) = r'.resume limit cs ∧
      r'.InQuoted fields (field ++ ['"']) := by
  have hfield : r.field.length < limit := by
    rw [h.field]
    exact hlimit
  refine ⟨{ r with state := .inQuotedField, field := r.field ++ ['"'] }, ?_, rfl, by rw [h.field],
    h.fields⟩
  rw [resume_quote h]
  refine resume_cons (by decide) ?_ cs
  exact addChar_ok (r := { r with state := .quoteInQuotedField }) hfield .inQuotedField '"'

theorem resume_escaped {cs : List Char} {r : Reader} {fields : List String} {field : List Char}
    (h : r.InQuoted fields field) (hlimit : field.length + cs.length ≤ limit) (rest : List Char) :
    ∃ r' : Reader, r.resume limit (escape cs ++ '"' :: rest) = r'.resume limit ('"' :: rest) ∧
      r'.InQuoted fields (field ++ cs) := by
  induction cs generalizing r field with
  | nil => exact ⟨r, rfl, by rw [List.append_nil]; exact h⟩
  | cons c cs ih =>
    rw [List.length_cons] at hlimit
    have hnext : (field ++ [c]).length + cs.length ≤ limit := by
      rw [List.length_append, List.length_singleton]
      omega
    have hone : ∃ r' : Reader, r.resume limit (escape (c :: cs) ++ '"' :: rest) =
        r'.resume limit (escape cs ++ '"' :: rest) ∧ r'.InQuoted fields (field ++ [c]) := by
      rw [escape]
      split
      · next hc =>
        subst hc
        exact resume_doubled h (by omega) _
      · next hc => exact resume_content h hc (by omega) (by simp)
    obtain ⟨r₁, hfirst, h₁⟩ := hone
    obtain ⟨r₂, hsecond, h₂⟩ := ih h₁ hnext
    refine ⟨r₂, hfirst.trans hsecond, ?_⟩
    rw [List.append_assoc] at h₂
    exact h₂

/-- What ends a field: a separator, or the carriage return that ends the record. -/
def Ends (c : Char) : Prop := c = ',' ∨ c = '\r'

def afterField (c : Char) : ReaderState := if c = ',' then .startField else .eatCrnl

theorem processChar_ends {r : Reader} {c : Char} (hc : Ends c)
    (hstate : r.state = .startField ∨ r.state = .inField ∨ r.state = .quoteInQuotedField ∨
      (r.state = .startRecord ∧ c = ',')) :
    r.processChar limit (some c) = .ok (r.saveField (afterField c)) := by
  unfold processChar
  rcases hstate with hstate | hstate | hstate | ⟨hstate, rfl⟩
  · rw [hstate]
    rcases hc with rfl | rfl <;> rfl
  · rw [hstate]
    rcases hc with rfl | rfl <;> rfl
  · rw [hstate]
    rcases hc with rfl | rfl <;> rfl
  · rw [hstate]
    rfl

theorem Ends.ne_feed {c : Char} (hc : Ends c) : c ≠ '\n' := by
  rcases hc with rfl | rfl
  · decide
  · decide

/-- The reader after a field, at what ended it. -/
def atEnded (fields : List String) (field : String) (c : Char) : Reader :=
  { state := afterField c, field := [], fields := fields ++ [field] }

theorem resume_ends {r : Reader} {fields : List String} {field : String} {c : Char} (hc : Ends c)
    (hstate : r.state = .startField ∨ r.state = .inField ∨ r.state = .quoteInQuotedField ∨
      (r.state = .startRecord ∧ c = ',')) (hfield : r.field = field.toList)
    (hfields : r.fields = fields) (rest : List Char) :
    r.resume limit (c :: rest) = (atEnded fields field c).resume limit rest := by
  rw [resume_cons hc.ne_feed (processChar_ends hc hstate), saveField, hfield, hfields,
    String.ofList_toList]
  rfl

theorem resume_quoted {r : Reader} {fields : List String} (h : r.AtField fields) (field : String)
    (hlimit : field.length ≤ limit) {c : Char} (hc : Ends c) (rest : List Char) :
    r.resume limit (quoted field.toList ++ c :: rest) =
      (atEnded fields field c).resume limit rest := by
  have hopen : r.processChar limit (some '"') = .ok { r with state := .inQuotedField } := by
    unfold processChar
    rcases h.state with hstate | hstate
    · rw [hstate]
      rfl
    · rw [hstate]
      rfl
  have hquoted : ({ r with state := .inQuotedField } : Reader).InQuoted fields [] :=
    ⟨rfl, h.field, h.fields⟩
  have hlength : ([] : List Char).length + field.toList.length ≤ limit := by
    rw [List.length_nil, Nat.zero_add, String.length_toList]
    exact hlimit
  obtain ⟨r₁, hcontent, h₁⟩ := resume_escaped hquoted hlength (c :: rest)
  rw [quoted, List.cons_append, List.cons_append, List.append_assoc, List.singleton_append,
    resume_cons (by decide) hopen, hcontent, resume_quote h₁]
  exact resume_ends (r := { r₁ with state := .quoteInQuotedField }) hc
    (Or.inr (Or.inr (Or.inl rfl))) h₁.field h₁.fields rest

/-- A field is read as it was written.  A record that starts with a carriage return
is blank. -/
theorem resume_field {r : Reader} {fields : List String} (h : r.AtField fields) (field : String)
    (hlimit : field.length ≤ limit) {c : Char} (hc : Ends c)
    (hblank : field = "" → r.state = .startField ∨ c = ',') (rest : List Char) :
    r.resume limit (writeField field ++ c :: rest) =
      (atEnded fields field c).resume limit rest := by
  rw [writeField]
  split
  · exact resume_quoted h field hlimit hc rest
  · next hplain =>
    have hplain : field.toList.any special = false := Bool.eq_false_iff.mpr hplain
    have hlength : field.toList.length ≤ limit := by
      rw [String.length_toList]
      exact hlimit
    cases hcs : field.toList with
    | nil =>
      have hempty : field = "" := by
        rw [← String.ofList_toList (s := field), hcs]
      rw [List.nil_append]
      refine resume_ends hc ?_ (by rw [h.field, hcs]) h.fields rest
      rcases hblank hempty with hstate | hcomma
      · exact Or.inl hstate
      · rcases h.state with hstate | hstate
        · exact Or.inl hstate
        · exact Or.inr (Or.inr (Or.inr ⟨hstate, hcomma⟩))
    | cons c₀ cs =>
      rw [hcs, List.any_cons, Bool.or_eq_false_iff] at hplain
      rw [hcs, List.length_cons] at hlength
      have hpos : 0 < limit := by omega
      obtain ⟨r₁, hfirst, h₁⟩ := startField_plain h hplain.1 hpos
      obtain ⟨-, -, hbreak⟩ := not_special hplain.1
      have hrest : [c₀].length + cs.length ≤ limit := by
        rw [List.length_singleton]
        omega
      obtain ⟨r₂, hcontent, h₂⟩ := resume_plain h₁ hplain.2 hrest (c :: rest)
      rw [List.cons_append, resume_cons (ne_feed hbreak) hfirst, hcontent]
      refine resume_ends hc (Or.inr (Or.inl h₂.state)) ?_ h₂.fields rest
      rw [h₂.field, hcs, List.singleton_append]

/-! ## Records -/

theorem resume_fields {written : List String} (hne : written ≠ []) {r : Reader}
    {fields : List String} (h : r.AtField fields)
    (hlimit : ∀ field ∈ written, field.length ≤ limit)
    (hblank : written = [""] → r.state = .startField) (rest : List Char) :
    r.resume limit (writeFields written ++ '\r' :: rest) =
      ({ state := .eatCrnl, field := [], fields := fields ++ written } : Reader).resume limit
        rest := by
  induction written generalizing r fields with
  | nil => exact absurd rfl hne
  | cons field written ih =>
    have hfield := hlimit field List.mem_cons_self
    cases written with
    | nil =>
      rw [writeFields]
      exact resume_field h field hfield (Or.inr rfl)
        (fun hempty => Or.inl (hblank (by rw [hempty]))) rest
    | cons next written =>
      have hnext : (atEnded fields field ',').AtField (fields ++ [field]) := ⟨Or.inl rfl, rfl, rfl⟩
      rw [writeFields, List.append_assoc, List.cons_append,
        resume_field h field hfield (Or.inl rfl) (fun _ => Or.inr rfl),
        ih (List.cons_ne_nil _ _) hnext (fun f hf => hlimit f (List.mem_cons_of_mem _ hf))
          fun _ => rfl, List.append_assoc, List.singleton_append]
      exact nofun

/-- The line feed after a record ends it. -/
theorem resume_return (fields : List String) (rest : List Char) :
    ({ state := .eatCrnl, field := [], fields := fields } : Reader).resume limit ('\n' :: rest) =
      (readAll limit {} (lines rest)).map (fields :: ·) := by
  have hfeed : ({ state := .eatCrnl, field := [], fields := fields } : Reader).processChar limit
      (some '\n') = .ok { state := .eatCrnl, field := [], fields := fields } := rfl
  have hend : ({ state := .eatCrnl, field := [], fields := fields } : Reader).processChar limit
      none = .ok { state := .startRecord, field := [], fields := fields } := rfl
  rw [resume_feed hfeed hend]
  exact if_pos rfl

theorem readAll_writeRecord {record : List String}
    (hlimit : ∀ field ∈ record, field.length ≤ limit) (rest : List Char) :
    readAll limit {} (lines (writeRecord record ++ rest)) =
      (readAll limit {} (lines rest)).map (record :: ·) := by
  have hstart : (({} : Reader)).AtField [] := ⟨Or.inr rfl, rfl, rfl⟩
  rw [readAll_lines (by simp [writeRecord]), writeRecord, List.append_assoc, List.cons_append,
    List.cons_append, List.nil_append]
  split
  · next hempty =>
    subst hempty
    have hempty : "".length ≤ limit := Nat.zero_le _
    exact (resume_quoted hstart "" hempty (Or.inr rfl) ('\n' :: rest)).trans
      (resume_return [""] rest)
  · next hne =>
    cases record with
    | nil =>
      have hbreak : ({} : Reader).processChar limit (some '\r') =
          .ok { state := .eatCrnl, field := [], fields := [] } := rfl
      rw [writeFields, List.nil_append, resume_cons (by decide) hbreak, resume_return]
    | cons field fields =>
      rw [resume_fields (List.cons_ne_nil _ _) hstart hlimit (fun heq => absurd heq hne),
        List.nil_append, resume_return]

end Reader

variable {limit}

/-- The reader gives back the records that were written. -/
theorem readAll_write {records : List (List String)}
    (hlimit : ∀ record ∈ records, ∀ field ∈ record, field.length ≤ limit) :
    Reader.readAll limit {} (lines (write records)) = .ok records := by
  induction records with
  | nil => rfl
  | cons record records ih =>
    rw [write, List.flatMap_cons, Reader.readAll_writeRecord (hlimit record List.mem_cons_self)]
    have hrest := ih fun record hrecord => hlimit record (List.mem_cons_of_mem _ hrecord)
    rw [write] at hrest
    rw [hrest]
    rfl

end

/-! ## Records with names -/

theorem lookup_map_self {α : Type*} {names : List String} {key : String} (h : key ∈ names)
    (value : String → α) : (names.map fun name => (name, value name)).lookup key =
      some (value key) := by
  induction names with
  | nil => cases h
  | cons name names ih =>
    rw [List.map_cons, List.lookup_cons]
    split
    · next heq => rw [eq_of_beq heq]
    · next hne =>
      rcases List.mem_cons.mp h with rfl | htail
      · exact absurd BEq.rfl (Bool.eq_false_iff.mp hne)
      · exact ih htail

/-- What stands under each name is read under it, also where a name stands twice. -/
theorem dictGet_map {names : List String} {key : String} (h : key ∈ names)
    (value : String → String) : dictGet names (names.map value) key = some (value key) := by
  have hzip : names.zip ((names.map value).map some) =
      names.map fun name => (name, some (value name)) := by
    have hpairs := List.zip_map' (f := id) (g := some ∘ value) (l := names)
    rw [List.map_id] at hpairs
    rw [List.map_map, hpairs]
    rfl
  rw [dictGet, hzip, List.length_map, List.drop_length, List.map_nil, List.append_nil,
    ← List.map_reverse, lookup_map_self (List.mem_reverse.mpr h)]
  rfl

theorem dictGet_not_mem {names : List String} {key : String} (h : key ∉ names)
    (record : List String) : dictGet names record key = none := by
  have hlookup : ((names.zip (record.map some) ++ (names.drop record.length).map
      fun name => (name, none)).reverse.lookup key) = none := by
    refine List.lookup_eq_none_iff.mpr fun x hx => ?_
    rw [List.mem_reverse, List.mem_append] at hx
    have hname : x.1 ∈ names := by
      rcases hx with hx | hx
      · exact (List.of_mem_zip hx).1
      · obtain ⟨name, hname, rfl⟩ := List.mem_map.mp hx
        exact List.mem_of_mem_drop hname
    exact bne_iff_ne.mpr fun heq => h (heq ▸ hname)
  rw [dictGet, hlookup]
  rfl

end Csv
