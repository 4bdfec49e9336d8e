/-
An import adds every row or none.

What is wrong with a row, a file or a clash with the inventory is refused before
anything is written, and the rows that pass are inserted together.  Two things
end an import otherwise.  The reader raises when it is asked for a record, which
the code does outside the `try` that turns its exceptions into refusals; and the
driver raises for a text it does not take.
-/
import TransportLookout.Services.Import

namespace TransportLookout

open Relational

/-! ## What a row becomes -/

/-- The scope of a row. -/
structure ScopeOf (policy : InventorySettings) (isIpv6 : String → Bool) (row : ImportRow)
    (scope : InventoryScope) : Prop where
  name : scope.name = Text.strip (row.name.getD "")
  cidr : ∃ network, parseApprovedCidr policy isIpv6 (Text.strip (row.cidr.getD "")) = .ok network ∧
    scope.cidr = Ipv4.format network
  zone : scope.zone =
    if Text.strip (row.zone.getD "") = "" then "default" else Text.strip (row.zone.getD "")
  approved : scope.approved = false

def importedEvent (actor : String) (scope : InventoryScope) : AuditEvent :=
  { actor := actor, action := "inventory_scope.imported", resourceType := "inventory_scope",
    resourceId := scope.id,
    detail := [("cidr", .text scope.cidr), ("zone", .text scope.zone)] }

/-- The inventory has one new scope for each row, in order, and nothing else but the
audit log has changed. -/
structure Imported (policy : InventorySettings) (isIpv6 : String → Bool) (db : Db)
    (rows : List ImportRow) (actor : String) (db' : Db) (scopes : List InventoryScope) : Prop where
  inventory : db'.scopes.rows = db.scopes.rows ++ scopes
  each : List.Forall₂ (ScopeOf policy isIpv6) rows scopes
  names : (scopes.map InventoryScope.name).Nodup
  cidrs : (scopes.map InventoryScope.cidr).Nodup
  fresh : ∀ scope ∈ scopes, ∀ old ∈ db.scopes.rows,
    scope.name ≠ old.name ∧ scope.cidr ≠ old.cidr
  audits : db'.audits = db.audits ++ scopes.map (importedEvent actor)
  others : db' = { db with scopes := db'.scopes, audits := db'.audits }

/-- The ids of the rows to insert are new. -/
structure FreshIds (db : Db) (ids : Nat → Uuid) : Prop where
  distinct : Function.Injective ids
  unused : ∀ i, db.scopes.get (ids i) = none

section
variable {policy : InventorySettings} {isIpv6 : String → Bool}

/-- The candidate of a row: its payload, with the canonical network. -/
def Candidate (policy : InventorySettings) (isIpv6 : String → Bool) (row : ImportRow)
    (c : ScopeCreate) : Prop :=
  ∃ network, parseApprovedCidr policy isIpv6 row.payload.cidr = .ok network ∧
    c = { row.payload with cidr := Ipv4.format network }

theorem payload_zone (row : ImportRow) : row.payload.zone =
    if Text.strip (row.zone.getD "") = "" then "default" else Text.strip (row.zone.getD "") := by
  have hdefault : Text.strip "default" = "default" := by decide +kernel
  have hempty : Text.strip "" = "" := by decide +kernel
  cases hzone : row.zone with
  | none => simp [ImportRow.payload, hzone, hdefault, hempty]
  | some zone =>
    by_cases hz : zone = ""
    · simp [ImportRow.payload, hzone, hz, hdefault, hempty]
    · simp [ImportRow.payload, hzone, hz]

theorem importRow_ok {n : Nat} {row : ImportRow} {candidates : List ScopeCreate} {c : ScopeCreate}
    (h : importRow policy isIpv6 n row candidates = .ok c) :
    Candidate policy isIpv6 row c ∧ ∀ a ∈ candidates, a.name ≠ c.name ∧ a.cidr ≠ c.cidr := by
  rw [importRow] at h
  split at h
  · cases h
  · split at h
    · cases h
    · next network hnetwork =>
      dsimp only at h
      split at h
      · cases h
      · next hnew =>
        rw [Except.ok.injEq] at h
        refine ⟨⟨network, hnetwork, h.symm⟩, fun a ha => ?_⟩
        rw [Bool.not_eq_true, List.any_eq_false] at hnew
        have hboth := hnew a ha
        rw [Bool.or_eq_true, not_or, decide_eq_true_eq, decide_eq_true_eq] at hboth
        rw [← h]
        exact hboth

/-- A refusal of a request that is at fault, or that clashes with what there is. -/
def Refusal.Clean : Refusal → Prop
  | .failure (.http statusCode _) => statusCode = 422 ∨ statusCode = 409
  | .failure .integrity => False
  | .valueError => False

theorem importRow_error {n : Nat} {row : ImportRow} {candidates : List ScopeCreate} {e : Refusal}
    (h : importRow policy isIpv6 n row candidates = .error e) : e.Clean := by
  rw [importRow] at h
  split at h
  · cases h
    exact Or.inl rfl
  · split at h
    · cases h
      exact Or.inl rfl
    · dsimp only at h
      split at h
      · cases h
        exact Or.inr rfl
      · cases h

/-- The loop makes a candidate of every row, unlike all before it. -/
theorem importLoop_ok {rows : List ImportRow} {n : Nat} {acc candidates : List ScopeCreate}
    (h : importLoop policy isIpv6 n rows acc = .ok candidates)
    (hnames : (acc.map ScopeCreate.name).Nodup) (hcidrs : (acc.map ScopeCreate.cidr).Nodup) :
    (∃ new, candidates = acc ++ new ∧ List.Forall₂ (Candidate policy isIpv6) rows new) ∧
      (candidates.map ScopeCreate.name).Nodup ∧ (candidates.map ScopeCreate.cidr).Nodup := by
  induction rows generalizing n acc with
  | nil =>
    cases h
    exact ⟨⟨[], (List.append_nil _).symm, .nil⟩, hnames, hcidrs⟩
  | cons row rows ih =>
    rw [importLoop] at h
    split at h
    · cases h
    · next c hrow =>
      obtain ⟨hcandidate, hnew⟩ := importRow_ok hrow
      have hkeep : ∀ f : ScopeCreate → String, (∀ a ∈ acc, f a ≠ f c) → (acc.map f).Nodup →
          ((acc ++ [c]).map f).Nodup := by
        intro f hf hnodup
        rw [List.map_append, List.map_singleton]
        refine List.nodup_append'.mpr ⟨hnodup, List.nodup_singleton _, fun x hx hx' => ?_⟩
        obtain ⟨a, ha, rfl⟩ := List.mem_map.mp hx
        exact hf a ha (List.mem_singleton.mp hx')
      obtain ⟨⟨new, rfl, hforall⟩, hnodup⟩ := ih h
        (hkeep _ (fun a ha => (hnew a ha).1) hnames) (hkeep _ (fun a ha => (hnew a ha).2) hcidrs)
      exact ⟨⟨c :: new, List.append_assoc _ _ _, .cons hcandidate hforall⟩, hnodup⟩

theorem importLoop_error {rows : List ImportRow} {n : Nat} {acc : List ScopeCreate} {e : Refusal}
    (h : importLoop policy isIpv6 n rows acc = .error e) : e.Clean := by
  induction rows generalizing n acc with
  | nil => cases h
  | cons row rows ih =>
    rw [importLoop] at h
    split at h
    · next e' hrow =>
      cases h
      exact importRow_error hrow
    · exact ih h

/-- The row a candidate is inserted as. -/
def scopeRow (ids : Nat → Uuid) (i : Nat) (c : ScopeCreate) : InventoryScope :=
  { id := ids i, name := c.name, cidr := c.cidr, zone := c.zone }

theorem map_scopeRow {ids : Nat → Uuid} {f : InventoryScope → String} {g : ScopeCreate → String}
    (h : ∀ i c, f (scopeRow ids i c) = g c) (candidates : List ScopeCreate) :
    (candidates.mapIdx (scopeRow ids)).map f = candidates.map g := by
  refine List.ext_getElem ?_ fun i hi hi' => ?_
  · rw [List.length_map, List.length_mapIdx, List.length_map]
  · rw [List.getElem_map, List.getElem_mapIdx, List.getElem_map]
    exact h i _

theorem scopeOf_candidate {row : ImportRow} {c : ScopeCreate}
    (h : Candidate policy isIpv6 row c) (ids : Nat → Uuid) (i : Nat) :
    ScopeOf policy isIpv6 row (scopeRow ids i c) := by
  obtain ⟨network, hnetwork, hc⟩ := h
  have hname : c.name = row.payload.name := by rw [hc]
  have hcidr : c.cidr = Ipv4.format network := by rw [hc]
  have hzone : c.zone = row.payload.zone := by rw [hc]
  exact ⟨hname, ⟨network, hnetwork, hcidr⟩, hzone.trans (payload_zone row), rfl⟩

theorem scopeOf_rows {rows : List ImportRow} {candidates : List ScopeCreate} {ids : Nat → Uuid}
    (h : List.Forall₂ (Candidate policy isIpv6) rows candidates) :
    List.Forall₂ (ScopeOf policy isIpv6) rows (candidates.mapIdx (scopeRow ids)) := by
  obtain ⟨hlength, hall⟩ := List.forall₂_iff_get.mp h
  refine List.forall₂_iff_get.mpr ⟨hlength.trans List.length_mapIdx.symm, fun i hi hi' => ?_⟩
  have hcandidate := hall i hi (hlength ▸ hi)
  rw [List.get_eq_getElem, List.get_eq_getElem] at hcandidate
  rw [List.get_eq_getElem, List.get_eq_getElem, List.getElem_mapIdx]
  exact scopeOf_candidate hcandidate ids i

theorem append_scopes {db : Db} {ids : Nat → Uuid} (hids : FreshIds db ids)
    (candidates : List ScopeCreate) :
    ∃ table, db.scopes.append? (candidates.mapIdx (scopeRow ids)) = some table := by
  refine Table.append?_of_fresh ?_ fun r hr => ?_
  · exact Table.nodup_mapIdx (fun _ _ => rfl) hids.distinct
  · obtain ⟨i, -, rfl⟩ := List.mem_mapIdx.mp hr
    exact hids.unused i

variable (policy isIpv6) in
/-- With new ids, an import of rows goes through or is refused cleanly. -/
theorem importScopes_cases {db : Db} {ids : Nat → Uuid} (hids : FreshIds db ids)
    (rows : List ImportRow) (actor : String) :
    (∃ e, importScopes policy isIpv6 db rows actor ids = .error e ∧ e.Clean) ∨
      ∃ db' scopes, importScopes policy isIpv6 db rows actor ids = .ok db' ∧
        Imported policy isIpv6 db rows actor db' scopes := by
  rw [importScopes]
  split
  · exact Or.inl ⟨_, rfl, Or.inl rfl⟩
  split
  · exact Or.inl ⟨_, rfl, Or.inl rfl⟩
  split
  · next e hloop => exact Or.inl ⟨e, rfl, importLoop_error hloop⟩
  · next candidates hloop =>
    split
    · exact Or.inl ⟨_, rfl, Or.inr rfl⟩
    · next hclash =>
      obtain ⟨⟨new, hnew, hforall⟩, hnames, hcidrs⟩ := importLoop_ok hloop List.nodup_nil
        List.nodup_nil
      rw [List.nil_append] at hnew
      cases hnew
      have hclear : ∀ c ∈ candidates, ∀ old ∈ db.scopes.rows,
          c.name ≠ old.name ∧ c.cidr ≠ old.cidr := by
        intro c hc old hold
        rw [Bool.not_eq_true, List.any_eq_false] at hclash
        have hnone := hclash old hold
        rw [Bool.not_eq_true, List.any_eq_false] at hnone
        have hboth := hnone c hc
        rw [Bool.or_eq_true, not_or, decide_eq_true_eq, decide_eq_true_eq] at hboth
        exact ⟨fun heq => hboth.1 heq.symm, fun heq => hboth.2 heq.symm⟩
      obtain ⟨table, htable⟩ := append_scopes hids candidates
      dsimp only
      rw [show db.scopes.append? (candidates.mapIdx fun i c =>
        { id := ids i, name := c.name, cidr := c.cidr, zone := c.zone }) = some table from htable]
      refine Or.inr ⟨_, candidates.mapIdx (scopeRow ids), rfl, ?_⟩
      constructor
      · exact Table.rows_append? htable
      · exact scopeOf_rows hforall
      · rw [map_scopeRow (g := ScopeCreate.name) fun _ _ => rfl]
        exact hnames
      · rw [map_scopeRow (g := ScopeCreate.cidr) fun _ _ => rfl]
        exact hcidrs
      · intro scope hscope old hold
        obtain ⟨i, hi, rfl⟩ := List.mem_mapIdx.mp hscope
        exact hclear _ (List.getElem_mem hi) old hold
      · rfl
      · rfl

end

/-! ## What ends an import otherwise -/

/-- The reader raises neither for the header of the text nor, when the header has the
columns, for a record after it. -/
structure ReadableText (source : String) : Prop where
  header : ∀ e, Csv.Reader.next fieldSizeLimit {} (Csv.lines source.toList) ≠ .error e
  records : ∀ fieldnames lines,
    Csv.Reader.next fieldSizeLimit {} (Csv.lines source.toList) = .ok (some (fieldnames, lines)) →
      "name" ∈ fieldnames ∧ "cidr" ∈ fieldnames →
        ∀ e, Csv.Reader.readAll fieldSizeLimit {} lines ≠ .error e

def Readable (body : ByteArray) : Prop :=
  ∀ source, decodeSig body = some source → ReadableText source

/-- The driver takes every text that the import of the rows sends it. -/
def Storable (policy : InventorySettings) (isIpv6 : String → Bool) (stores : String → Bool)
    (db : Db) (body : ByteArray) : Prop :=
  ∀ rows, readRows body = .ok rows → ∀ text ∈ importTexts policy isIpv6 db rows,
    stores text = true

/-- The rows are read, or the body is refused, unless the reader raises. -/
theorem readRows_cases (body : ByteArray) :
    (¬ Readable body ∧ ∃ e, readRows body = .error (.csv e)) ∨
      (Readable body ∧
        ((∃ e : Refusal, readRows body = .error (.refused e) ∧ e.Clean) ∨
          ∃ rows, readRows body = .ok rows)) := by
  rw [readRows]
  split
  · next hnone =>
    refine Or.inr ⟨fun source hsource => ?_, Or.inl ⟨_, rfl, Or.inl rfl⟩⟩
    rw [hnone] at hsource
    cases hsource
  · next source hsource =>
    have hreadable : ReadableText source → Readable body := by
      intro htext source' hsource'
      rw [hsource] at hsource'
      cases hsource'
      exact htext
    split
    · next e hheader =>
      exact Or.inl ⟨fun hr => (hr source hsource).header e hheader, e, rfl⟩
    · next hnone =>
      refine Or.inr ⟨hreadable ⟨fun e he => ?_, fun _ _ hsome => ?_⟩, Or.inl ⟨_, rfl, Or.inl rfl⟩⟩
      · rw [hnone] at he
        cases he
      · rw [hnone] at hsome
        cases hsome
    · next fieldnames lines hsome =>
      have hheader : ∀ e,
          Csv.Reader.next fieldSizeLimit {} (Csv.lines source.toList) ≠ .error e := by
        intro e he
        rw [hsome] at he
        cases he
      split
      · next hcolumns =>
        split
        · next e hrecords =>
          exact Or.inl ⟨fun hr => (hr source hsource).records _ _ hsome hcolumns e hrecords, e, rfl⟩
        · next records hrecords =>
          refine Or.inr ⟨hreadable ⟨hheader, fun _ _ hsome' _ e he => ?_⟩, Or.inr ⟨_, rfl⟩⟩
          rw [hsome] at hsome'
          cases hsome'
          rw [hrecords] at he
          cases he
      · next hcolumns =>
        refine Or.inr ⟨hreadable ⟨hheader, fun _ _ hsome' hcolumns' => ?_⟩,
          Or.inl ⟨_, rfl, Or.inl rfl⟩⟩
        rw [hsome] at hsome'
        cases hsome'
        exact absurd hcolumns' hcolumns

/-- The import adds a scope for every row of the body, or refuses the request and leaves
the inventory and the audit log as they are. -/
def AtomicImport (policy : InventorySettings) (isIpv6 : String → Bool) (db : Db)
    (body : ByteArray) (actor : String) (outcome : Except ImportError Db) : Prop :=
  match outcome with
  | .ok db' => ∃ rows scopes, readRows body = .ok rows ∧
      Imported policy isIpv6 db rows actor db' scopes
  | .error (.refused e) => e.Clean ∧ db.afterImport outcome = db
  | .error (.csv _) => False
  | .error .data => False

section
variable (policy : InventorySettings) (isIpv6 stores : String → Bool) {db : Db}
  (body : ByteArray) (actor : String) {ids : Nat → Uuid}

/-- What an import of a body comes to. -/
theorem importScopesCsv_cases (hids : FreshIds db ids) :
    ((¬ Readable body ∧ ∃ e, importScopesCsv policy isIpv6 stores db body actor ids =
        .error (.csv e)) ∨
      (¬ Storable policy isIpv6 stores db body ∧
        importScopesCsv policy isIpv6 stores db body actor ids = .error .data)) ∨
      (Readable body ∧ Storable policy isIpv6 stores db body ∧
        AtomicImport policy isIpv6 db body actor
          (importScopesCsv policy isIpv6 stores db body actor ids)) := by
  rcases readRows_cases body with ⟨hno, e, he⟩ | ⟨hreadable, ⟨e, he, hclean⟩ | ⟨rows, hrows⟩⟩
  · left; left
    rw [importScopesCsv, he]
    exact ⟨hno, e, rfl⟩
  · right
    refine ⟨hreadable, fun rows hrows => ?_, ?_⟩
    · rw [he] at hrows
      cases hrows
    · rw [importScopesCsv, he]
      exact ⟨hclean, rfl⟩
  · have hstorable : (importTexts policy isIpv6 db rows).all stores = true ↔
        Storable policy isIpv6 stores db body := by
      rw [List.all_eq_true]
      constructor
      · intro hall rows' hrows'
        rw [hrows] at hrows'
        cases hrows'
        exact hall
      · exact fun h => h rows hrows
    rw [importScopesCsv, hrows]
    dsimp only
    split
    · next hall =>
      refine Or.inr ⟨hreadable, hstorable.mp hall, ?_⟩
      rcases importScopes_cases policy isIpv6 hids rows actor with
        ⟨e, he, hclean⟩ | ⟨db', scopes, hok, himported⟩
      · rw [he]
        exact ⟨hclean, rfl⟩
      · rw [hok]
        exact ⟨rows, scopes, hrows, himported⟩
    · next hsome =>
      exact Or.inl (Or.inr ⟨fun h => hsome (hstorable.mpr h), rfl⟩)

theorem atomic_import_iff (hids : FreshIds db ids) :
    AtomicImport policy isIpv6 db body actor
        (importScopesCsv policy isIpv6 stores db body actor ids) ↔
      Readable body ∧ Storable policy isIpv6 stores db body := by
  constructor
  · intro hatomic
    rcases importScopesCsv_cases policy isIpv6 stores body actor hids with
      (⟨-, e, he⟩ | ⟨-, he⟩) | ⟨hreadable, hstorable, -⟩
    · rw [he] at hatomic
      exact hatomic.elim
    · rw [he] at hatomic
      exact hatomic.elim
    · exact ⟨hreadable, hstorable⟩
  · rintro ⟨hreadable, hstorable⟩
    rcases importScopesCsv_cases policy isIpv6 stores body actor hids with
      (⟨hno, -⟩ | ⟨hno, -⟩) | ⟨-, -, hatomic⟩
    · exact absurd hreadable hno
    · exact absurd hstorable hno
    · exact hatomic

variable {body} in
/-- The reader does not raise for a text within its limit whose carriage returns all end
lines. -/
theorem readable_of_terminated {source : String} (hsource : decodeSig body = some source)
    (hterminated : Csv.Terminated source.toList)
    (hlimit : source.toList.length ≤ fieldSizeLimit) : Readable body := by
  obtain ⟨all, hall⟩ := Csv.readAll_terminated hterminated hlimit
  rw [Csv.Reader.readAll_eq] at hall
  intro source' hsource'
  rw [hsource] at hsource'
  cases hsource'
  constructor
  · intro e he
    rw [he] at hall
    cases hall
  · intro fieldnames lines hsome _ e he
    rw [hsome] at hall
    dsimp only at hall
    rw [he] at hall
    cases hall

/-- Over a driver that takes every text, such a file is imported or refused. -/
theorem atomic_import_terminated (hids : FreshIds db ids) {source : String}
    (hsource : decodeSig body = some source) (hterminated : Csv.Terminated source.toList)
    (hlimit : source.toList.length ≤ fieldSizeLimit) (hstores : ∀ text, stores text = true) :
    AtomicImport policy isIpv6 db body actor
      (importScopesCsv policy isIpv6 stores db body actor ids) := by
  rcases importScopesCsv_cases policy isIpv6 stores body actor hids with
    (⟨hno, -⟩ | ⟨hno, -⟩) | ⟨-, -, hatomic⟩
  · exact absurd (readable_of_terminated hsource hterminated hlimit) hno
  · exact absurd (fun _ _ text _ => hstores text) hno
  · exact hatomic

end

namespace Demo

/-- A file with two kinds of line ends. -/
def mixedLineEnds : String := "name,cidr\nbranch-a,10.62.0.0/24\rbranch-b,10.62.1.0/24\n"

def branches : String := "name,cidr\nbranch-a,10.62.0.0/24\nbranch-b,10.62.1.0/24\n"

def importIds (i : Nat) : Uuid := String.ofList (List.replicate i 'i')

/-- PostgreSQL takes no NUL character. -/
def postgresStores (text : String) : Bool := text.toList.all fun c => c ≠ '\x00'

end Demo

theorem freshIds_import : FreshIds {} Demo.importIds where
  distinct := by
    intro i j hij
    have hlength := congrArg (fun s : String => s.toList.length) hij
    simpa [Demo.importIds] using hlength
  unused := fun _ => rfl

theorem readRows_branches : readRows Demo.branches.toUTF8 =
    .ok [⟨some "branch-a", some "10.62.0.0/24", none⟩,
      ⟨some "branch-b", some "10.62.1.0/24", none⟩] := by
  rw [readRows, decodeSig_toUTF8 (by decide +kernel)]
  decide +kernel

/-- Two branches are imported, in order. -/
theorem atomic_import_branches :
    ∃ db', importScopesCsv {} (fun _ => false) Demo.postgresStores {} Demo.branches.toUTF8 "manager"
        Demo.importIds = .ok db' ∧
      db'.scopes.rows.map (fun s => (s.name, s.cidr, s.zone, s.approved)) =
        [("branch-a", "10.62.0.0/24", "default", false),
          ("branch-b", "10.62.1.0/24", "default", false)] ∧
      AtomicImport {} (fun _ => false) {} Demo.branches.toUTF8 "manager" (.ok db') := by
  have hrun : (importScopesCsv {} (fun _ => false) Demo.postgresStores {} Demo.branches.toUTF8
      "manager" Demo.importIds).toOption.map (fun db' => db'.scopes.rows.map fun s =>
        (s.name, s.cidr, s.zone, s.approved)) =
      some [("branch-a", "10.62.0.0/24", "default", false),
        ("branch-b", "10.62.1.0/24", "default", false)] := by
    rw [importScopesCsv, readRows_branches]
    decide +kernel
  have hreadable : Readable Demo.branches.toUTF8 := by
    rcases readRows_cases Demo.branches.toUTF8 with ⟨-, e, he⟩ | ⟨hreadable, -⟩
    · rw [readRows_branches] at he
      cases he
    · exact hreadable
  have hstorable :
      Storable {} (fun _ => false) Demo.postgresStores {} Demo.branches.toUTF8 := by
    intro rows hread
    rw [readRows_branches] at hread
    cases hread
    decide +kernel
  have hatomic := (atomic_import_iff {} (fun _ => false) Demo.postgresStores Demo.branches.toUTF8
    "manager" freshIds_import).mpr ⟨hreadable, hstorable⟩
  obtain ⟨db', hok, hscopes⟩ := Option.map_eq_some_iff.mp hrun
  cases houtcome : importScopesCsv {} (fun _ => false) Demo.postgresStores {}
      Demo.branches.toUTF8 "manager" Demo.importIds with
  | error e =>
    rw [houtcome] at hok
    cases hok
  | ok db =>
    rw [houtcome] at hok hatomic
    cases hok
    exact ⟨db', rfl, hscopes, hatomic⟩

/-- The reader's exception leaves the import. -/
theorem mixed_line_ends_escape :
    ¬ AtomicImport {} (fun _ => false) {} Demo.mixedLineEnds.toUTF8 "manager"
      (importScopesCsv {} (fun _ => false) (fun _ => true) {} Demo.mixedLineEnds.toUTF8 "manager"
        Demo.importIds) := by
  have hrows : readRows Demo.mixedLineEnds.toUTF8 = .error (.csv .newLine) := by
    rw [readRows, decodeSig_toUTF8 (by decide +kernel)]
    decide +kernel
  rw [importScopesCsv, hrows]
  exact id

end TransportLookout
