/-
One replacement of the read model.

`materialize_current_exposures` deletes the rows of one scope and profile and
inserts one row for each open service of the run.  The lemmas here say what the
table is afterwards, pair by pair, and when the insert cannot fail.
-/
import TransportLookout.Services.Runs

namespace TransportLookout

open Relational

abbrev Observation := HostObservation × ServiceObservation

def Observation.key (x : Observation) : ServiceKey := (x.1.address, x.2.protocol, x.2.port)

namespace Db

/-- The current exposures of a scope and profile. -/
def inventory (db : Db) (p : Pair) : List CurrentExposure :=
  db.exposures.select fun e => e.pair = p

theorem mem_inventory {db : Db} {p : Pair} {e : CurrentExposure} :
    e ∈ db.inventory p ↔ e ∈ db.exposures.rows ∧ e.pair = p := by
  rw [inventory, Table.mem_select, decide_eq_true_eq]

theorem get_exposure {db : Db} {p : Pair} {k : ServiceKey} {e : CurrentExposure} :
    db.exposures.get (p, k) = some e ↔ e ∈ db.inventory p ∧ e.serviceKey = k := by
  rw [Table.get_eq_some, mem_inventory, key_currentExposure, Prod.mk.injEq, and_assoc]

section
variable {db db' : Db} {run : ScanRun} {scope : InventoryScope} {now t : DateTime}

theorem exposureRow_pair (db : Db) (scope : InventoryScope) (run : ScanRun) (t : DateTime)
    (x : Observation) : (db.exposureRow scope run t x).pair = run.pair := rfl

theorem materialize_rows (hscope : db.scopes.get run.inventoryScopeId = some scope)
    (ht : run.completedAt.getD now = t) (h : db.materializeCurrentExposures run now = some db') :
    db'.exposures.rows = (db.exposures.delete fun e => e.pair = run.pair).rows ++
      (db.openServices run.id).map (db.exposureRow scope run t) := by
  rw [materializeCurrentExposures, hscope] at h
  obtain ⟨exposures, happend, rfl⟩ := Option.map_eq_some_iff.mp h
  rw [Table.rows_append? happend, ht]

/-- The rows of the run's pair are those of its open services. -/
theorem materialize_inventory (hscope : db.scopes.get run.inventoryScopeId = some scope)
    (ht : run.completedAt.getD now = t) (h : db.materializeCurrentExposures run now = some db') :
    db'.inventory run.pair = (db.openServices run.id).map (db.exposureRow scope run t) := by
  rw [inventory, Table.select, materialize_rows hscope ht h, List.filter_append]
  have hold : (db.exposures.delete fun e => e.pair = run.pair).rows.filter
      (fun e => e.pair = run.pair) = [] := by
    rw [List.filter_eq_nil_iff]
    intro e he
    rw [(Table.mem_delete.mp he).2]
    exact Bool.false_ne_true
  have hnew : ((db.openServices run.id).map (db.exposureRow scope run t)).filter
      (fun e => e.pair = run.pair) = (db.openServices run.id).map (db.exposureRow scope run t) := by
    rw [List.filter_eq_self]
    intro e he
    obtain ⟨x, -, rfl⟩ := List.mem_map.mp he
    exact decide_eq_true (exposureRow_pair db scope run t x)
  rw [hold, hnew, List.nil_append]

/-- The rows of every other pair are kept. -/
theorem materialize_other (h : db.materializeCurrentExposures run now = some db') {p : Pair}
    (hp : p ≠ run.pair) : db'.inventory p = db.inventory p := by
  rw [materializeCurrentExposures] at h
  split at h
  · cases h
    rfl
  · obtain ⟨exposures, happend, rfl⟩ := Option.map_eq_some_iff.mp h
    rw [inventory, Table.select, Table.rows_append? happend, List.filter_append, Table.rows_delete,
      List.filter_filter]
    have hnew : ∀ {f : Observation → CurrentExposure} {l : List Observation},
        (∀ x, (f x).pair = run.pair) → (l.map f).filter (fun e => e.pair = p) = [] := by
      intro f l hf
      rw [List.filter_eq_nil_iff]
      intro e he
      obtain ⟨x, -, rfl⟩ := List.mem_map.mp he
      rw [decide_eq_true_eq, hf]
      exact fun heq => hp heq.symm
    rw [hnew fun x => rfl, List.append_nil]
    refine List.filter_congr fun e _ => ?_
    by_cases he : e.pair = p
    · rw [decide_eq_true he, decide_eq_false (he ▸ hp)]
      rfl
    · rw [decide_eq_false he, Bool.false_and]

/-- The insert fails only on a key observed twice. -/
theorem materialize_isSome (hkeys : ((db.openServices run.id).map Observation.key).Nodup)
    (now : DateTime) : (db.materializeCurrentExposures run now).isSome = true := by
  rw [materializeCurrentExposures]
  cases db.scopes.get run.inventoryScopeId with
  | none => rfl
  | some scope =>
    have hrows : (((db.exposures.delete fun e => e.pair = run.pair).rows ++
        (db.openServices run.id).map (db.exposureRow scope run (run.completedAt.getD now))).map
          Keyed.key).Nodup := by
      rw [List.map_append, List.nodup_append', List.map_map]
      refine ⟨(db.exposures.delete _).nodup, ?_, ?_⟩
      · -- the keys of the new rows are the pair with the keys observed
        have hmap : (db.openServices run.id).map (Keyed.key ∘
            db.exposureRow scope run (run.completedAt.getD now)) =
              ((db.openServices run.id).map Observation.key).map fun k => (run.pair, k) := by
          rw [List.map_map]
          rfl
        rw [hmap]
        exact hkeys.map fun k k' heq => (Prod.mk.inj heq).2
      · intro k hold hnew
        obtain ⟨e, he, rfl⟩ := List.mem_map.mp hold
        obtain ⟨x, -, heq⟩ := List.mem_map.mp hnew
        have hpair : e.pair = run.pair := (congrArg Prod.fst heq).symm
        exact absurd hpair (of_decide_eq_false (Table.mem_delete.mp he).2)
    dsimp only
    rw [Table.append?, dif_pos hrows]
    rfl

theorem inventory_nodup (db : Db) (p : Pair) :
    ((db.inventory p).map CurrentExposure.serviceKey).Nodup := by
  have hkeys : ((db.inventory p).map Keyed.key).Nodup :=
    (List.filter_sublist.map Keyed.key).nodup db.exposures.nodup
  have hmap : (db.inventory p).map Keyed.key =
      ((db.inventory p).map CurrentExposure.serviceKey).map fun k => (p, k) := by
    rw [List.map_map]
    refine List.map_congr_left fun e he => ?_
    rw [key_currentExposure, (mem_inventory.mp he).2]
    rfl
  rw [hmap] at hkeys
  exact hkeys.of_map _

end

/-! ## One finalization -/

/-- The finalization replaces the rows of its run's scope and profile. -/
structure Materializes (db : Db) (counts : TerminalCounts) (run : ScanRun)
    (scope : InventoryScope) : Prop where
  fires : counts.fires run = true
  failed : counts.failed = 0
  incomplete : counts.incomplete = 0
  scope : db.scopes.get run.inventoryScopeId = some scope

section
variable {db db' : Db} {counts : TerminalCounts} {run run' : ScanRun} {scope : InventoryScope}
  {actor : String} {now : DateTime}

theorem Materializes.finalizes (hm : db.Materializes counts run scope) (actor : String)
    (now : DateTime) :
    db.finalizeWith counts run actor now =
      ((db.flushRun run (counts.finalized run now)).materializeCurrentExposures
        (counts.finalized run now) now).map fun db =>
          (db.audit actor "run.finalized" "scan_run" run.id, counts.finalized run now) := by
  have hstatus : (counts.finalized run now).status = .completed := by
    rw [TerminalCounts.finalized, hm.failed]
    rfl
  rw [finalizeWith, if_pos hm.fires]
  dsimp only
  rw [refreshInventory, hstatus, if_neg (fun h => h rfl), if_pos hm.incomplete]

/-- The rows of the run's pair after the finalization. -/
theorem Materializes.inventory (hm : db.Materializes counts run scope)
    (h : db.finalizeWith counts run actor now = some (db', run')) :
    run' = counts.finalized run now ∧
      db'.inventory run.pair = (db.openServices run.id).map (db.exposureRow scope run' now) := by
  rw [hm.finalizes] at h
  obtain ⟨db₁, hmat, heq⟩ := Option.map_eq_some_iff.mp h
  cases heq
  have hscope : (db.flushRun run (counts.finalized run now)).scopes.get
    (counts.finalized run now).inventoryScopeId = some scope := hm.scope
  have hrows := materialize_inventory hscope rfl hmat
  exact ⟨rfl, hrows⟩

/-- A finalization keeps the rows of every pair but its run's. -/
theorem finalizeWith_other (h : db.finalizeWith counts run actor now = some (db', run'))
    {p : Pair} (hp : p ≠ run.pair) : db'.inventory p = db.inventory p := by
  rw [finalizeWith] at h
  split at h
  · obtain ⟨db₁, hrefresh, heq⟩ := Option.map_eq_some_iff.mp h
    cases heq
    show db₁.inventory p = _
    rw [refreshInventory] at hrefresh
    split at hrefresh
    · cases hrefresh
      rfl
    · split at hrefresh
      · exact materialize_other hrefresh hp
      · cases hrefresh
        rfl
  · cases h
    rfl

/-- With distinct keys observed a finalization goes through. -/
theorem Materializes.isSome (hm : db.Materializes counts run scope)
    (hkeys : ((db.openServices run.id).map Observation.key).Nodup) (actor : String)
    (now : DateTime) : ∃ db' run', db.finalizeWith counts run actor now = some (db', run') := by
  have hflushed : (((db.flushRun run (counts.finalized run now)).openServices
    (counts.finalized run now).id).map Observation.key).Nodup := hkeys
  obtain ⟨db₁, hmat⟩ := Option.isSome_iff_exists.mp (materialize_isSome hflushed now)
  exact ⟨_, _, by rw [hm.finalizes, hmat, Option.map_some]⟩

end

end Db

end TransportLookout
