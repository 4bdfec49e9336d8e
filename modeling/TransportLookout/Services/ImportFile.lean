/-
Files that a writer of comma-separated values makes for an import.

A spreadsheet saves its columns in an order of its own, with columns the import does not
know, with quotes where a field needs them, and often with a byte order mark in front.
The theorem here is that none of this matters: such a file is imported as its rows are.
-/
import TransportLookout.Library.CsvWriter
import TransportLookout.Services.Import

namespace TransportLookout

/-- The UTF-8 byte order mark. -/
def byteOrderMark : ByteArray := ⟨#[0xEF, 0xBB, 0xBF]⟩

theorem decodeSig_mark (s : String) : decodeSig (byteOrderMark ++ s.toUTF8) = some s := by
  have hmark : (byteOrderMark ++ s.toUTF8).data.toList.take 3 = [0xEF, 0xBB, 0xBF] := by
    rw [ByteArray.data_append, Array.toList_append]
    exact List.take_left' rfl
  have hrest : (byteOrderMark ++ s.toUTF8).extract 3 (byteOrderMark ++ s.toUTF8).size =
      s.toUTF8 :=
    ByteArray.extract_append_eq_right rfl ByteArray.size_append
  rw [decodeSig, if_pos hmark, hrest, String.fromUTF8?]
  exact dif_pos s.isValidUTF8

/-- The text of a file: a header, and a record of the same columns for each row. -/
def fileText (header : List String) (rows : List (String → String)) : String :=
  String.ofList (Csv.write (header :: rows.map header.map))

/-- The bytes of a file, with or without the mark. -/
def fileBytes (marked : Bool) (header : List String) (rows : List (String → String)) : ByteArray :=
  if marked then byteOrderMark ++ (fileText header rows).toUTF8 else (fileText header rows).toUTF8

/-- The row of an import that a row of a file is. -/
def ImportRow.ofColumns (header : List String) (row : String → String) : ImportRow where
  name := some (row "name")
  cidr := some (row "cidr")
  zone := if "zone" ∈ header then some (row "zone") else none

/-- What a file has to meet: the two columns, names and fields that the reader takes, and
no text that looks like the mark where there is none. -/
structure ImportFile (marked : Bool) (header : List String) (rows : List (String → String)) :
    Prop where
  name : "name" ∈ header
  cidr : "cidr" ∈ header
  names : ∀ name ∈ header, name.length ≤ fieldSizeLimit
  fields : ∀ row ∈ rows, ∀ name ∈ header, (row name).length ≤ fieldSizeLimit
  unmarked : marked = false →
    (fileText header rows).toUTF8.data.toList.take 3 ≠ [0xEF, 0xBB, 0xBF]

section
variable {marked : Bool} {header : List String} {rows : List (String → String)}

theorem decodeSig_fileBytes (h : ImportFile marked header rows) :
    decodeSig (fileBytes marked header rows) = some (fileText header rows) := by
  rw [fileBytes]
  cases marked with
  | true => exact decodeSig_mark _
  | false => exact decodeSig_toUTF8 (h.unmarked rfl)

/-- The header is the first record, and the rows are the others. -/
theorem next_fileText (h : ImportFile marked header rows) :
    ∃ lines, Csv.Reader.next fieldSizeLimit {} (Csv.lines (fileText header rows).toList) =
        .ok (some (header, lines)) ∧
      Csv.Reader.readAll fieldSizeLimit {} lines = .ok (rows.map header.map) := by
  have hall : Csv.Reader.readAll fieldSizeLimit {}
      (Csv.lines (Csv.write (header :: rows.map header.map))) =
      .ok (header :: rows.map header.map) := by
    refine Csv.readAll_write fun record hrecord field hfield => ?_
    rcases List.mem_cons.mp hrecord with rfl | hrecord
    · exact h.names field hfield
    · obtain ⟨row, hrow, rfl⟩ := List.mem_map.mp hrecord
      obtain ⟨name, hname, rfl⟩ := List.mem_map.mp hfield
      exact h.fields row hrow name hname
  rw [fileText, String.toList_ofList]
  rw [Csv.Reader.readAll_eq] at hall
  cases hnext : Csv.Reader.next fieldSizeLimit {}
      (Csv.lines (Csv.write (header :: rows.map header.map))) with
  | error e =>
    rw [hnext] at hall
    cases hall
  | ok found =>
    rw [hnext] at hall
    cases found with
    | none => cases hall
    | some first =>
      obtain ⟨record, lines⟩ := first
      dsimp only at hall
      cases hrest : Csv.Reader.readAll fieldSizeLimit {} lines with
      | error e =>
        rw [hrest] at hall
        cases hall
      | ok records =>
        rw [hrest] at hall
        cases hall
        exact ⟨lines, rfl, hrest⟩

theorem dataRows_columns (hname : "name" ∈ header) (hcidr : "cidr" ∈ header) :
    dataRows header (rows.map header.map) = rows.map (ImportRow.ofColumns header) := by
  have hfilter : (rows.map header.map).filter (fun record => record ≠ []) =
      rows.map header.map := by
    refine List.filter_eq_self.mpr fun record hrecord => ?_
    obtain ⟨row, -, rfl⟩ := List.mem_map.mp hrecord
    exact decide_eq_true (List.ne_nil_of_mem (List.mem_map_of_mem hname))
  rw [dataRows, hfilter, List.map_map]
  refine List.map_congr_left fun row _ => ?_
  rw [Function.comp_apply, Csv.dictGet_map hname, Csv.dictGet_map hcidr, ImportRow.ofColumns]
  split
  · next hzone => rw [Csv.dictGet_map hzone]
  · next hzone => rw [Csv.dictGet_not_mem hzone]

theorem readRows_fileBytes (h : ImportFile marked header rows) :
    readRows (fileBytes marked header rows) = .ok (rows.map (ImportRow.ofColumns header)) := by
  obtain ⟨lines, hnext, hrest⟩ := next_fileText h
  rw [readRows, decodeSig_fileBytes h]
  dsimp only
  rw [hnext]
  dsimp only
  rw [if_pos ⟨h.name, h.cidr⟩, hrest]
  exact congrArg Except.ok (dataRows_columns h.name h.cidr)

/-- A file is imported as its rows are, whatever its texts hold and whichever columns it
has in whichever order. -/
theorem import_of_file (policy : InventorySettings) (isIpv6 : String → Bool)
    (stores : String → Bool) (db : Db) (actor : String) (ids : Nat → Uuid)
    (h : ImportFile marked header rows) :
    importScopesCsv policy isIpv6 stores db (fileBytes marked header rows) actor ids =
      if (importTexts policy isIpv6 db (rows.map (ImportRow.ofColumns header))).all stores then
        (importScopes policy isIpv6 db (rows.map (ImportRow.ofColumns header)) actor ids).mapError
          .refused
      else .error .data := by
  rw [importScopesCsv, readRows_fileBytes h]

end

namespace Demo

/-- A sheet with a column of its own, and a name in quotes. -/
def sheet : List (String → String) :=
  [fun column =>
    if column = "name" then "Köln, \"West\""
    else if column = "cidr" then "10.62.0.0/24"
    else if column = "owner" then "line one\nline two"
    else ""]

def sheetHeader : List String := ["owner", "cidr", "name"]

end Demo

theorem sheet_file : ImportFile true Demo.sheetHeader Demo.sheet where
  name := by decide
  cidr := by decide
  names := by decide +kernel
  fields := by decide +kernel
  unmarked := nofun

theorem import_of_file_sheet :
    importScopesCsv {} (fun _ => false) (fun _ => true) {} (fileBytes true Demo.sheetHeader
        Demo.sheet) "manager" (fun _ => "s1") =
      if (importTexts {} (fun _ => false) {} (Demo.sheet.map
          (ImportRow.ofColumns Demo.sheetHeader))).all fun _ => true then
        (importScopes {} (fun _ => false) {} (Demo.sheet.map
          (ImportRow.ofColumns Demo.sheetHeader)) "manager" fun _ => "s1").mapError .refused
      else .error .data :=
  import_of_file {} (fun _ => false) (fun _ => true) {} "manager" (fun _ => "s1") sheet_file

end TransportLookout
