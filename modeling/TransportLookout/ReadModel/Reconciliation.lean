/-
A reconciliation pass in one transaction.

A pass finalizes every active run whose shards are all terminal.  For one run the
others do not matter, as long as none of them replaces the same part of the read
model: `Beside` is what their finalizations leave alone.
-/
import TransportLookout.ReadModel.Materialization
import TransportLookout.System.RunRows

namespace TransportLookout

open Relational

namespace Db

/-- How often the run has been finalized, by the audit log. -/
def finalizations (db : Db) (runId : Uuid) : Nat :=
  db.audits.countP fun event => event.action = "run.finalized" && event.resourceId = runId

section
variable {db db' : Db} {counts : TerminalCounts} {run run' : ScanRun} {actor : String}
  {now : DateTime}

/-! ## One finalization -/

theorem finalizeWith_idle (h : counts.fires run = false) (actor : String) (now : DateTime) :
    db.finalizeWith counts run actor now = some (db, run) := by
  rw [finalizeWith, h]
  rfl

/-- A finalization fails only on a key observed twice. -/
theorem finalizeWith_total (hkeys : ((db.openServices run.id).map Observation.key).Nodup)
    (counts : TerminalCounts) (actor : String) (now : DateTime) :
    (db.finalizeWith counts run actor now).isSome = true := by
  rw [finalizeWith]
  split
  · rw [Option.isSome_map, refreshInventory]
    split
    · rfl
    · split
      · have hflushed : (((db.flushRun run (counts.finalized run now)).openServices
          (counts.finalized run now).id).map Observation.key).Nodup := hkeys
        exact materialize_isSome hflushed now
      · rfl
  · rfl

theorem refreshInventory_finalizations {incomplete : Nat}
    (h : db.refreshInventory incomplete run actor now = some db') (runId : Uuid) :
    db'.finalizations runId = db.finalizations runId := by
  rw [refreshInventory] at h
  split at h
  · cases h
    rfl
  · split at h
    · rw [materialize_frame h]
      rfl
    · cases h
      rw [finalizations, audit, List.countP_append]
      rfl

/-- A finalization that fires leaves one entry in the audit log. -/
theorem finalizeWith_finalizations (h : db.finalizeWith counts run actor now = some (db', run'))
    (runId : Uuid) :
    db'.finalizations runId =
      db.finalizations runId + if counts.fires run && run.id = runId then 1 else 0 := by
  rw [finalizeWith] at h
  split at h
  · next hfires =>
    obtain ⟨db₁, hrefresh, heq⟩ := Option.map_eq_some_iff.mp h
    cases heq
    have hbefore := refreshInventory_finalizations hrefresh runId
    rw [finalizations, audit, List.countP_append, List.countP_singleton,
      show db₁.audits.countP _ = db₁.finalizations runId from rfl, hbefore, hfires]
    rfl
  · next hidle =>
    cases h
    rw [Bool.eq_false_iff.mpr hidle]
    rfl

/-- The part of the read model a finalization that fires is about. -/
theorem finalizeWith_inventory (hfires : counts.fires run = true)
    (h : db.finalizeWith counts run actor now = some (db', run')) :
    db'.inventory run.pair =
      if counts.failed = 0 ∧ counts.incomplete = 0 then
        (db.scopes.get run.inventoryScopeId).elim (db.inventory run.pair) fun scope =>
          (db.openServices run.id).map (db.exposureRow scope (counts.finalized run now) now)
      else db.inventory run.pair := by
  cases hscope : db.scopes.get run.inventoryScopeId with
  | some scope =>
    by_cases hm : counts.failed = 0 ∧ counts.incomplete = 0
    · have hmat : db.Materializes counts run scope := ⟨hfires, hm.1, hm.2, hscope⟩
      obtain ⟨rfl, hrows⟩ := hmat.inventory h
      rw [hrows, if_pos hm]
      rfl
    · rw [if_neg hm]
      rcases exposures_finalizeWith h with hkept | ⟨-, hfailed, hincomplete, -⟩
      · rw [inventory, hkept]
        rfl
      · exact absurd ⟨hfailed, hincomplete⟩ hm
  | none =>
    have hkept : db'.exposures = db.exposures := by
      rcases exposures_finalizeWith h with hkept | ⟨-, -, -, hsome⟩
      · exact hkept
      · rw [hscope] at hsome
        cases hsome
    rw [inventory, hkept, Option.elim_none, ite_self]
    rfl

/-! ## The other runs of a pass -/

/-- What the finalization of another run leaves alone. -/
structure Beside (run : ScanRun) (db db' : Db) : Prop where
  frame : db' = { db with runs := db'.runs, exposures := db'.exposures, audits := db'.audits }
  row : db'.runs.get run.id = db.runs.get run.id
  active : ∀ other ∈ db'.activeRuns, other.id ≠ run.id → other ∈ db.activeRuns
  inventory : db'.inventory run.pair = db.inventory run.pair
  finalizations : db'.finalizations run.id = db.finalizations run.id

theorem Beside.refl (run : ScanRun) (db : Db) : Beside run db db :=
  ⟨rfl, rfl, fun _ h _ => h, rfl, rfl⟩

theorem Beside.trans {run : ScanRun} {db db₁ db₂ : Db} (h : Beside run db db₁)
    (h' : Beside run db₁ db₂) : Beside run db db₂ where
  frame := by
    rw [h'.frame, h.frame]
  row := h'.row.trans h.row
  active := fun other hother hne => h.active other (h'.active other hother hne) hne
  inventory := h'.inventory.trans h.inventory
  finalizations := h'.finalizations.trans h.finalizations

/-- The finalization of `other` cannot reach the read model of `run`, and goes
through. -/
def Harmless (db : Db) (run other : ScanRun) : Prop :=
  0 < (db.terminalCounts other.id).pending ∨
    (other.pair ≠ run.pair ∧ ((db.openServices other.id).map Observation.key).Nodup)

theorem Harmless.beside {run other : ScanRun} (hh : db.Harmless run other)
    (hb : Beside run db db') : db'.Harmless run other := by
  rw [hb.frame]
  exact hh

theorem finalize_beside {run other : ScanRun} (hne : other.id ≠ run.id)
    (hh : db.Harmless run other) (actor : String) (now : DateTime) :
    ∃ db' other', db.finalizeTerminalRun other actor now = some (db', other') ∧
      Beside run db db' := by
  rw [finalizeTerminalRun]
  cases hfires : (db.terminalCounts other.id).fires other with
  | false => exact ⟨db, other, finalizeWith_idle hfires actor now, .refl run db⟩
  | true =>
    obtain ⟨hpair, hkeys⟩ := hh.resolve_left
      (Nat.not_lt.mpr (Nat.le_of_eq (TerminalCounts.fires_iff.mp hfires).2))
    obtain ⟨⟨db', other'⟩, hfin⟩ := Option.isSome_iff_exists.mp
      (finalizeWith_total hkeys (db.terminalCounts other.id) actor now)
    refine ⟨db', other', hfin, ?_⟩
    obtain ⟨hno, -, -⟩ | ⟨-, rfl, hframe⟩ := finalizeWith_spec hfin
    · rw [hfires] at hno
      cases hno
    have hruns : db'.runs = (db.flushRun other
        ((db.terminalCounts other.id).finalized other now)).runs := by
      rw [hframe]
    refine ⟨?_, ?_, ?_, finalizeWith_other hfin hpair.symm, ?_⟩
    · rw [hframe]
      rfl
    · rw [hruns, get_flushRun]
      cases db.runs.get run.id with
      | none => rfl
      | some r => rw [Option.map_some, if_neg fun h => hne h.symm]
    · intro r hr hrne
      obtain ⟨hmem, hactive⟩ := Db.mem_activeRuns.mp hr
      have hget : db'.runs.get r.id = some r := Table.get_of_mem hmem
      rw [hruns, get_flushRun] at hget
      obtain ⟨r₀, hr₀, heq⟩ := Option.map_eq_some_iff.mp hget
      split at heq
      · -- the finalized run is active no more
        have hstatus := ScanRun.writeBack_finalized hfires now r₀
        rw [heq] at hstatus
        rw [hstatus] at hactive
        split at hactive
        · cases hactive
        · cases hactive
      · subst heq
        exact Db.mem_activeRuns.mpr ⟨Table.get_mem hr₀, hactive⟩
    · rw [finalizeWith_finalizations hfin]
      rw [decide_eq_false hne, Bool.and_false]
      rfl

/-- The pass over other runs only. -/
theorem reconcile_beside {run : ScanRun} (now : Uuid → DateTime) (others : List ScanRun)
    (hothers : ∀ other ∈ others, other.id ≠ run.id ∧ db.Harmless run other) :
    ∃ db', others.foldlM (fun db run =>
        (db.finalizeTerminalRun run "scheduler" (now run.id)).map Prod.fst) db = some db' ∧
      Beside run db db' := by
  induction others generalizing db with
  | nil => exact ⟨db, rfl, .refl run db⟩
  | cons other others ih =>
    obtain ⟨hne, hharmless⟩ := hothers other List.mem_cons_self
    obtain ⟨db₁, other', hfin, hbeside⟩ :=
      finalize_beside hne hharmless "scheduler" (now other.id)
    obtain ⟨db', hfold, hrest⟩ := ih fun o ho =>
      ⟨(hothers o (List.mem_cons_of_mem _ ho)).1,
        (hothers o (List.mem_cons_of_mem _ ho)).2.beside hbeside⟩
    refine ⟨db', ?_, hbeside.trans hrest⟩
    rw [List.foldlM_cons, hfin]
    exact hfold

/-- A pass that does not load the run. -/
theorem reconcile_inactive {run : ScanRun} (now : Uuid → DateTime)
    (hothers : ∀ other ∈ db.activeRuns, other.id ≠ run.id → db.Harmless run other)
    (hinactive : ∀ r ∈ db.activeRuns, r.id ≠ run.id) :
    ∃ db', db.reconcileTerminalRuns now = some db' ∧ Beside run db db' :=
  reconcile_beside now db.activeRuns fun other hother =>
    ⟨hinactive other hother, hothers other hother (hinactive other hother)⟩

/-- A pass reaches a run with the runs before it finalized, and goes on with those
after it. -/
theorem reconcile_active {run : ScanRun} (now : Uuid → DateTime)
    (hothers : ∀ other ∈ db.activeRuns, other.id ≠ run.id → db.Harmless run other)
    (hactive : run ∈ db.activeRuns) :
    ∃ db₁, Beside run db db₁ ∧
      ∀ db₂ run', db₁.finalizeTerminalRun run "scheduler" (now run.id) = some (db₂, run') →
        (∀ other ∈ db.activeRuns, other.id ≠ run.id → db₂.Harmless run other) →
        ∃ db', db.reconcileTerminalRuns now = some db' ∧ Beside run db₂ db' := by
  obtain ⟨before, after, hsplit⟩ := List.append_of_mem hactive
  have hnodup : (db.activeRuns.map ScanRun.id).Nodup := db.runs.nodup_keys _
  rw [hsplit, List.map_append, List.map_cons, List.nodup_middle, List.nodup_cons,
    List.mem_append, not_or] at hnodup
  obtain ⟨⟨hbefore, hafter⟩, -⟩ := hnodup
  have hne : ∀ {l : List ScanRun}, run.id ∉ l.map ScanRun.id → ∀ other ∈ l, other.id ≠ run.id :=
    fun hl other hother heq => hl (heq ▸ List.mem_map_of_mem hother)
  have hin : ∀ other, other ∈ before ∨ other ∈ after → other ∈ db.activeRuns := by
    intro other hother
    rw [hsplit, List.mem_append]
    exact hother.imp_right (List.mem_cons_of_mem run)
  obtain ⟨db₁, hfold, hbeside⟩ := reconcile_beside now before fun other hother =>
    ⟨hne hbefore other hother, hothers other (hin other (Or.inl hother))
      (hne hbefore other hother)⟩
  refine ⟨db₁, hbeside, fun db₂ run' hfin hharmless => ?_⟩
  obtain ⟨db', hfold', hbeside'⟩ := reconcile_beside now after fun other hother =>
    ⟨hne hafter other hother, hharmless other (hin other (Or.inr hother))
      (hne hafter other hother)⟩
  refine ⟨db', ?_, hbeside'⟩
  rw [reconcileTerminalRuns, hsplit, List.foldlM_append, hfold, Option.bind_eq_bind,
    Option.bind_some, List.foldlM_cons, hfin]
  exact hfold'

end

end Db

end TransportLookout
