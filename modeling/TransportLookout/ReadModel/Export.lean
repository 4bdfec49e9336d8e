/-
The export of the exposures: `export_exposures` of `main.py`.

An export is the first ten thousand rows of the deduplicated view, as JSON objects or as
comma-separated records below a header.  A record says less than an object: a `null`
and an empty text are the same field.  What is left of each value is its text, and the
theorem here is that it comes back from under its own name, whatever the texts hold.
-/
import TransportLookout.Library.CsvWriter
import TransportLookout.ReadModel.Pagination
import TransportLookout.Services.Import

namespace TransportLookout

/-- A value of an object that is dumped. -/
inductive JsonValue
  | null
  | text (s : String)
  | number (n : Int)
deriving DecidableEq, Repr

/-- The text a writer makes of a value. -/
def JsonValue.str : JsonValue → String
  | null => ""
  | text s => s
  | number n => toString n

def JsonValue.ofOption : Option String → JsonValue
  | none => .null
  | some s => .text s

/-- `ExposureRead.model_fields`. -/
def ExposureRead.modelFields : List String :=
  ["id", "inventory_scope_id", "profile_id", "latest_run_id", "zone", "address", "protocol",
    "port", "service", "product", "version", "first_seen_at", "last_seen_at", "scan_count"]

/-- `model_dump` in the mode of JSON.  `isoformat` is the text of a time. -/
def ExposureRead.modelDump (isoformat : DateTime → String) (e : ExposureRead) :
    List (String × JsonValue) :=
  [("id", .text e.id), ("inventory_scope_id", .text e.inventoryScopeId),
    ("profile_id", .text e.profileId), ("latest_run_id", .text e.latestRunId),
    ("zone", .text e.zone), ("address", .text e.address), ("protocol", .text e.protocol),
    ("port", .number e.port), ("service", .ofOption e.service), ("product", .ofOption e.product),
    ("version", .ofOption e.version), ("first_seen_at", .text (isoformat e.firstSeenAt)),
    ("last_seen_at", .text (isoformat e.lastSeenAt)), ("scan_count", .number e.scanCount)]

/-- What a `DictWriter` makes of a row: a key that is missing is an empty field. -/
def dictRow (fieldnames : List String) (row : List (String × JsonValue)) : List String :=
  fieldnames.map fun key => ((row.lookup key).getD (.text "")).str

inductive ExportContent
  | objects (rows : List (List (String × JsonValue)))
  | text (s : String)

structure ExportResponse where
  content : ExportContent
  mediaType : String
  filename : String

section
variable (isoformat : DateTime → String) (d : Dialect) (plan : Plan) (f : ExposureFilters)
  (stored : List StoredExposure)

/-- The rows of an export. -/
def exportRows : List ExposureRead := (deduplicatedExposures d plan f stored).take 10000

def exportExposures (format : String) : Except Failure ExportResponse :=
  let rows := (exportRows d plan f stored).map (ExposureRead.modelDump isoformat)
  if format = "json" then
    .ok ⟨.objects rows, "application/json", "transport-lookout-exposures.json"⟩
  else if format ≠ "csv" then .error (.http 422 "format must be csv or json")
  else
    let output := Csv.write
      (ExposureRead.modelFields :: rows.map (dictRow ExposureRead.modelFields))
    .ok ⟨.text (String.ofList output), "text/csv", "transport-lookout-exposures.csv"⟩

end

theorem modelDump_fields (isoformat : DateTime → String) (e : ExposureRead) :
    (e.modelDump isoformat).map Prod.fst = ExposureRead.modelFields := rfl

/-- A dump has one value under each name. -/
theorem modelDump_lookup {isoformat : DateTime → String} {e : ExposureRead}
    {x : String × JsonValue} (h : x ∈ e.modelDump isoformat) :
    (e.modelDump isoformat).lookup x.1 = some x.2 := by
  have hnodup : ((e.modelDump isoformat).map Prod.fst).Nodup := by
    rw [modelDump_fields]
    decide
  cases hlookup : (e.modelDump isoformat).lookup x.1 with
  | none =>
    have hne := List.lookup_eq_none_iff.mp hlookup x h
    simp at hne
  | some other =>
    have hother := Relational.mem_of_lookup_eq_some hlookup
    rw [← List.inj_on_of_nodup_map hnodup hother h rfl]

/-- A record of the export, read under the names of its header, is the object of its row. -/
def Reads (record : List String) (row : List (String × JsonValue)) : Prop :=
  ∀ x ∈ row, Csv.dictGet ExposureRead.modelFields record x.1 = some x.2.str

theorem reads_dictRow (isoformat : DateTime → String) (e : ExposureRead) :
    Reads (dictRow ExposureRead.modelFields (e.modelDump isoformat)) (e.modelDump isoformat) := by
  intro x hx
  have hname : x.1 ∈ ExposureRead.modelFields := by
    rw [← modelDump_fields isoformat e]
    exact List.mem_map_of_mem hx
  rw [dictRow, Csv.dictGet_map hname, modelDump_lookup hx]
  rfl

/-- The texts of the row are within the limit of a reader. -/
def Fits (limit : Nat) (row : List (String × JsonValue)) : Prop :=
  ∀ x ∈ row, x.2.str.length ≤ limit

instance (limit : Nat) (row : List (String × JsonValue)) : Decidable (Fits limit row) :=
  inferInstanceAs (Decidable (∀ x ∈ row, x.2.str.length ≤ limit))

theorem dictRow_fits {isoformat : DateTime → String} {e : ExposureRead} {limit : Nat}
    (h : Fits limit (e.modelDump isoformat)) :
    ∀ field ∈ dictRow ExposureRead.modelFields (e.modelDump isoformat), field.length ≤ limit := by
  intro field hfield
  obtain ⟨name, -, rfl⟩ := List.mem_map.mp hfield
  cases hlookup : (e.modelDump isoformat).lookup name with
  | none => exact Nat.zero_le _
  | some value => exact h _ (Relational.mem_of_lookup_eq_some hlookup)

theorem modelFields_length : ∀ name ∈ ExposureRead.modelFields, name.length ≤ 18 := by decide

section
variable {d : Dialect} {plan : Plan} {f : ExposureFilters} {stored : List StoredExposure}

/-- An export is what the first twenty full pages list. -/
theorem exportRows_pages : exportRows d plan f stored =
    (List.range 20).flatMap fun (n : Nat) => listExposures d plan f 500 (n * 500) stored := by
  have hpages := Paging.flatMap_page_take 500 20 (deduplicatedExposures d plan f stored)
  rw [exportRows, ← hpages]
  refine List.flatMap_congr fun n _ => ?_
  have hlow : (1 : Int) ≤ 500 := by norm_num
  exact (listExposures_page hlow le_rfl n).symm

end

/-- Both formats export what the pages list: a reader of the records finds, in order, each
object that the JSON has, under the names of the header. -/
theorem export_reads_back (isoformat : DateTime → String) (d : Dialect) (plan : Plan)
    (f : ExposureFilters) (stored : List StoredExposure) (limit : Nat) (hlimit : 18 ≤ limit)
    (hfits : ∀ e ∈ exportRows d plan f stored, Fits limit (e.modelDump isoformat)) :
    let rows := ((List.range 20).flatMap fun (n : Nat) =>
      listExposures d plan f 500 (n * 500) stored).map (ExposureRead.modelDump isoformat)
    exportExposures isoformat d plan f stored "json" =
        .ok ⟨.objects rows, "application/json", "transport-lookout-exposures.json"⟩ ∧
      ∃ (text : String) (records : List (List String)),
        exportExposures isoformat d plan f stored "csv" =
          .ok ⟨.text text, "text/csv", "transport-lookout-exposures.csv"⟩ ∧
        Csv.Reader.readAll limit {} (Csv.lines text.toList) =
          .ok (ExposureRead.modelFields :: records) ∧
        List.Forall₂ Reads records rows := by
  rw [← exportRows_pages]
  intro rows
  refine ⟨rfl, _, rows.map (dictRow ExposureRead.modelFields), rfl, ?_, ?_⟩
  · rw [String.toList_ofList]
    refine Csv.readAll_write fun record hrecord field hfield => ?_
    rcases List.mem_cons.mp hrecord with rfl | hrecord
    · exact (modelFields_length field hfield).trans hlimit
    · obtain ⟨row, hrow, rfl⟩ := List.mem_map.mp hrecord
      obtain ⟨e, he, rfl⟩ := List.mem_map.mp hrow
      exact dictRow_fits (hfits e he) field hfield
  · rw [List.map_map, List.forall₂_map_left_iff, List.forall₂_map_right_iff]
    exact List.forall₂_same.mpr fun e _ => reads_dictRow isoformat e

namespace Demo

/-- A banner with all that a record has to quote. -/
def banner : StoredExposure :=
  { exposure "e1" "profile" "10.81.0.10" "tcp" 8080 (some "http") 0 1 with
    product := some "say \"hi\", twice\r\nbye" }

end Demo

theorem export_reads_back_banner :
    let rows := ((List.range 20).flatMap fun (n : Nat) =>
      listExposures Demo.dialect Demo.stored {} 500 (n * 500) [Demo.banner]).map
        (ExposureRead.modelDump toString)
    exportExposures toString Demo.dialect Demo.stored {} [Demo.banner] "json" =
        .ok ⟨.objects rows, "application/json", "transport-lookout-exposures.json"⟩ ∧
      ∃ (text : String) (records : List (List String)),
        exportExposures toString Demo.dialect Demo.stored {} [Demo.banner] "csv" =
          .ok ⟨.text text, "text/csv", "transport-lookout-exposures.csv"⟩ ∧
        Csv.Reader.readAll fieldSizeLimit {} (Csv.lines text.toList) =
          .ok (ExposureRead.modelFields :: records) ∧
        List.Forall₂ Reads records rows :=
  export_reads_back toString Demo.dialect Demo.stored {} [Demo.banner] fieldSizeLimit
    (by decide +kernel) (by decide +kernel)

end TransportLookout
