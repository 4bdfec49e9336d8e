/-
The import of scopes from a file: `import_scopes_csv` of `main.py`.

The body is decoded, and a `DictReader` reads it as its rows are asked for: the
header when `fieldnames` is, the other records when the list of rows is.  The
request reads and writes the database through a driver that may not take every
text; PostgreSQL's takes none with a NUL character.
-/
import TransportLookout.Library.Csv
import TransportLookout.Services.Inventory

namespace TransportLookout

open Relational

/-- What an import raises. -/
inductive ImportError
  | refused (e : Refusal)
  | csv (e : Csv.Error)
  | data
deriving DecidableEq, Repr

def refuseImport {α : Type} (detail : String) : Except ImportError α :=
  .error (.refused (.failure (.http 422 detail)))

/-- `csv.field_size_limit()`, which the service leaves as it is. -/
def fieldSizeLimit : Nat := 131072

/-- `decode("utf-8-sig")`; no result is the `UnicodeDecodeError`. -/
def decodeSig (body : ByteArray) : Option String :=
  String.fromUTF8?
    (if body.data.toList.take 3 = [0xEF, 0xBB, 0xBF] then body.extract 3 body.size else body)

/-- A text that does not start with the mark comes back from its bytes. -/
theorem decodeSig_toUTF8 {s : String} (h : s.toUTF8.data.toList.take 3 ≠ [0xEF, 0xBB, 0xBF]) :
    decodeSig s.toUTF8 = some s := by
  rw [decodeSig, if_neg h, String.fromUTF8?]
  exact dif_pos s.isValidUTF8

/-- The records that are not blank, under the names of the header. -/
def dataRows (fieldnames : List String) (records : List (List String)) : List ImportRow :=
  (records.filter fun record => record ≠ []).map fun record =>
    { name := Csv.dictGet fieldnames record "name"
      cidr := Csv.dictGet fieldnames record "cidr"
      zone := Csv.dictGet fieldnames record "zone" }

/-- The import up to `rows = list(reader)`. -/
def readRows (body : ByteArray) : Except ImportError (List ImportRow) :=
  match decodeSig body with
  | none => refuseImport "CSV must be UTF-8 encoded with a header row"
  | some source =>
    match Csv.Reader.next fieldSizeLimit {} (Csv.lines source.toList) with
    | .error e => .error (.csv e)
    | .ok none => refuseImport "CSV must include name and cidr columns"
    | .ok (some (fieldnames, lines)) =>
      if "name" ∈ fieldnames ∧ "cidr" ∈ fieldnames then
        match Csv.Reader.readAll fieldSizeLimit {} lines with
        | .error e => .error (.csv e)
        | .ok records => .ok (dataRows fieldnames records)
      else refuseImport "CSV must include name and cidr columns"

section
variable (policy : InventorySettings) (isIpv6 : String → Bool)

/-- The texts an import of the rows sends to the database: the names and networks it
looks for and, when it finds none of them, the zones it inserts. -/
def importTexts (db : Db) (rows : List ImportRow) : List String :=
  if rows = [] ∨ policy.inventoryImportMaxRows < rows.length then []
  else
    match importLoop policy isIpv6 2 rows [] with
    | .error _ => []
    | .ok candidates =>
      (candidates.flatMap fun c => [c.name, c.cidr]) ++
        if db.scopes.rows.any fun s => candidates.any fun c => s.name = c.name || s.cidr = c.cidr
        then [] else candidates.map ScopeCreate.zone

/-- `stores` are the texts the driver takes. -/
def importScopesCsv (stores : String → Bool) (db : Db) (body : ByteArray) (actor : String)
    (ids : Nat → Uuid) : Except ImportError Db :=
  match readRows body with
  | .error e => .error e
  | .ok rows =>
    if (importTexts policy isIpv6 db rows).all stores then
      (importScopes policy isIpv6 db rows actor ids).mapError .refused
    else .error .data

end

/-- What is committed after an import; an exception rolls its session back. -/
def Db.afterImport (db : Db) : Except ImportError Db → Db
  | .ok db' => db'
  | .error _ => db

end TransportLookout
