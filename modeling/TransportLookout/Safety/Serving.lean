/-
The workers of a control plane.

Requests and scheduler passes run beside the workers.  They add runs, and shards that no
one has leased, and write no row that a session has written: `Db.Grows` is what they leave
of those tables.  What holds of the workers in runs of the system alone holds therefore in
runs of the control plane.
-/
import TransportLookout.Safety.Loaded
import TransportLookout.Safety.ResultFencing
import TransportLookout.System.Requests

namespace TransportLookout

open Relational Trace

/-! ## What requests and passes leave -/

structure Db.Grows (db db' : Db) : Prop where
  runs : ∀ k r, db.runs.get k = some r → db'.runs.get k = some r
  shards : ∀ k r, db.shards.get k = some r → db'.shards.get k = some r
  fresh : ∀ r ∈ db'.shards.rows, r ∈ db.shards.rows ∨
    (r.leaseToken = none ∧ r.status = .queued)
  hosts : db'.hosts = db.hosts
  services : db'.services = db.services
  discoveries : db'.discoveries = db.discoveries
  exposures : db'.exposures = db.exposures

namespace Db.Grows

variable {db db' db'' : Db}

/-- Only scopes, profiles and the audit log differ. -/
theorem of_inventory (h : db' = { db with
    scopes := db'.scopes, profiles := db'.profiles, audits := db'.audits }) : db.Grows db' := by
  rw [h]
  exact ⟨fun _ _ hr => hr, fun _ _ hr => hr, fun _ hr => Or.inl hr, rfl, rfl, rfl, rfl⟩

theorem trans (h : db.Grows db') (h' : db'.Grows db'') : db.Grows db'' where
  runs := fun k r hr => h'.runs k r (h.runs k r hr)
  shards := fun k r hr => h'.shards k r (h.shards k r hr)
  fresh := fun r hr => (h'.fresh r hr).elim (h.fresh r) Or.inr
  hosts := h'.hosts.trans h.hosts
  services := h'.services.trans h.services
  discoveries := h'.discoveries.trans h.discoveries
  exposures := h'.exposures.trans h.exposures

end Db.Grows

section
variable {d : Deployment} {db db' : Db} {schedules schedules' : Table ScanSchedule}

theorem created_grows {scope : InventoryScope} {profile : ScanProfile} {actor : String}
    {ids : RunIds} (h : Created d db scope profile actor ids db') : db.Grows db' := by
  obtain ⟨cidrs, -, hshards⟩ := h.shards
  refine ⟨fun _ _ hr => Table.get_append?_of_get h.runs hr,
    fun _ _ hr => Table.get_append?_of_get hshards hr, fun r hr => ?_, ?_, ?_, ?_, ?_⟩
  · rw [Table.rows_append? hshards] at hr
    rcases List.mem_append.mp hr with hold | hnew
    · exact Or.inl hold
    · obtain ⟨_, -, rfl⟩ := List.mem_map.mp hnew
      exact Or.inr ⟨rfl, rfl⟩
  all_goals
    rw [h.frame]
    rfl

theorem performed_grows {q : Request} (h : Performed d db schedules q db' schedules') :
    db.Grows db' := by
  cases h with
  | addRun _ _ hcreated => exact created_grows hcreated
  | _ => exact .of_inventory rfl

theorem control_grows {s s' : Control} {a : ControlAction} (h : s.step d a = some s')
    (ha : ∀ b, a ≠ .system b) :
    ∃ db, s'.base = { s.base with db := db } ∧ s.base.db.Grows db := by
  cases a with
  | request q =>
    obtain ⟨db, hok, hbase⟩ := control_request h
    exact ⟨db, hbase, performed_grows (perform_ok hok)⟩
  | dispatchDue now ids =>
    obtain ⟨db, hpass, hbase⟩ := control_dispatchDue h
    have hloop := dispatchLoop_rule (P := s.base.db.Grows) d now ids
      (fun db db' heq hg => hg.trans (.of_inventory (by rw [heq])))
      (fun _ _ _ _ _ _ _ _ hok hg => hg.trans (created_grows (createRunIn_created hok)))
      (dueSchedules s.schedules now) s.base.db s.schedules (.of_inventory rfl)
    rw [hpass] at hloop
    exact ⟨db, hbase, hloop⟩
  | system b => exact absurd rfl (ha b)

end

/-! ## The invariants of the workers -/

structure Serving (s : State) : Prop where
  copies : Copies s
  fenced : Fenced s
  loaded : ∀ e ∈ s.executions, Loaded s e
  signed : Signed s

theorem serving_start {db : Db} (hdb : ∀ r ∈ db.shards.rows, r.leaseToken = none) :
    Serving (State.start db) where
  copies := copies_start db
  fenced := fenced_start hdb
  loaded := fun _ he => absurd he List.not_mem_nil
  signed := signed_start db

section
variable {settings : Settings} {s s' : State} {a : Action} {db : Db}

theorem serving_step (hs : Serving s) (h : s.step settings a = some s') : Serving s' where
  copies := copies_step hs.copies h
  fenced := fenced_step hs.copies hs.fenced h
  loaded := loaded_step hs.copies hs.fenced hs.loaded h
  signed := signed_step hs.signed h

/-- A row with a lease was there before. -/
theorem Db.Grows.leased {db' : Db} (hg : db.Grows db') {k t : Uuid} {r : ScanShard}
    (hr : db'.shards.get k = some r) (ht : r.leaseToken = some t) : db.shards.get k = some r := by
  rcases hg.fresh r (Table.get_mem hr) with hold | ⟨hnone, -⟩
  · exact Table.get_eq_some.mpr ⟨hold, Table.get_key hr⟩
  · rw [hnone] at ht
    cases ht

theorem Db.Grows.owns {db' : Db} (hg : db.Grows db') {e : Execution} :
    e.owns db' = true ↔ e.owns db = true := by
  rw [Execution.owns, Db.currentLease_iff, Execution.owns, Db.currentLease_iff]
  constructor
  · rintro ⟨r, hr, hrunning, htoken⟩
    exact ⟨r, hg.leased hr htoken, hrunning, htoken⟩
  · rintro ⟨r, hr, hrunning, htoken⟩
    exact ⟨r, hg.shards _ r hr, hrunning, htoken⟩

theorem fenced_grows (hf : Fenced s) (hg : s.db.Grows db) : Fenced { s with db := db } where
  rows := fun k r t hr ht => hf.rows k r t (hg.leased hr ht) ht
  executions := hf.executions
  unique := fun k k' r r' t hr hr' ht ht' =>
    hf.unique k k' r r' t (hg.leased hr ht) (hg.leased hr' ht') ht ht'
  claimed := fun e he k r hr ht => hf.claimed e he k r (hg.leased hr ht) ht
  nodup := hf.nodup

theorem loaded_grows {e : Execution} (hl : Loaded s e) (hg : s.db.Grows db) :
    Loaded { s with db := db } e where
  claimed := hl.claimed
  shard := by
    intro l hload
    obtain ⟨r, hr, hrun⟩ := hl.shard l hload
    exact ⟨r, hg.shards _ r hr, hrun⟩
  run := hl.run
  started := hl.started
  attempts := by
    intro l r hload howns hr
    obtain ⟨r', hr', hrunning, htoken⟩ := Db.currentLease_iff.mp howns
    rw [show db.shards.get e.shardId = some r from hr] at hr'
    cases hr'
    exact hl.attempts l r hload (hg.owns.mp howns) (hg.leased hr htoken)

theorem serving_grows (hs : Serving s) (hg : s.db.Grows db) : Serving { s with db := db } where
  copies := ⟨hs.copies.stale, hs.copies.selected, hs.copies.cancelling, hs.copies.reconciling⟩
  fenced := fenced_grows hs.fenced hg
  loaded := fun e he => loaded_grows (hs.loaded e he) hg
  signed := ⟨hs.signed.hosts, hs.signed.discoveries, hs.signed.collecting⟩

end

theorem serving_control {d : Deployment} {s s' : Control} {a : ControlAction}
    (hs : Serving s.base) (h : s.step d a = some s') : Serving s'.base := by
  by_cases ha : ∃ b, a = .system b
  · obtain ⟨b, rfl⟩ := ha
    obtain ⟨-, hstep, -⟩ := control_system h
    exact serving_step hs hstep
  · obtain ⟨db, hbase, hg⟩ := control_grows h fun b hb => ha ⟨b, hb⟩
    rw [hbase]
    exact serving_grows hs hg

end TransportLookout
