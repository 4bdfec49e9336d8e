/-
Foreign keys.

A delete of a scope or a profile looks for runs and schedules only, and workers insert rows
for runs and shards they read long before.  `foreign_keys` says that no constraint of the
schema is violated in any state, so the code never depends on the database to refuse a
write, and that the branches of the worker for a run or a profile that is gone are never
taken.  For services it needs that a scan starts only while its lease is held.
-/
import TransportLookout.Safety.Anchored
import TransportLookout.Safety.Linking
import TransportLookout.System.Provenance

namespace TransportLookout

open Relational Trace

/-! ## Schedules -/

/-- Every schedule has its scope and its profile. -/
structure Scheduled (db : Db) (schedules : Table ScanSchedule) : Prop where
  scope : Refers schedules.rows ScanSchedule.inventoryScopeId db.scopes
  profile : Refers schedules.rows ScanSchedule.profileId db.profiles

section
variable {d : Deployment} {db db' : Db} {schedules schedules' : Table ScanSchedule}

theorem Scheduled.of_orders (hs : Scheduled db schedules) (hscopes : db'.scopes = db.scopes)
    (hprofiles : db'.profiles = db.profiles) (horders : ∀ r ∈ schedules'.rows,
      ∃ old ∈ schedules.rows, old.id = r.id ∧ old.order = r.order) :
    Scheduled db' schedules' where
  scope := by
    rw [hscopes]
    refine hs.scope.of_rows fun r hr => ?_
    obtain ⟨old, hold, -, horder⟩ := horders r hr
    exact ⟨old, hold, congrArg Order.inventoryScopeId horder⟩
  profile := by
    rw [hprofiles]
    refine hs.profile.of_rows fun r hr => ?_
    obtain ⟨old, hold, -, horder⟩ := horders r hr
    exact ⟨old, hold, congrArg Order.profileId horder⟩

theorem performed_scheduled (hs : Scheduled db schedules) {q : Request}
    (h : Performed d db schedules q db' schedules') : Scheduled db' schedules' := by
  cases h with
  | addScope _ hscopes => exact ⟨hs.scope.of_keys (.append? hscopes), hs.profile⟩
  | importScopes _ hscopes => exact ⟨hs.scope.of_keys (.append? hscopes), hs.profile⟩
  | @approveScope _ _ scope _ =>
    have hkeys := Table.KeepsKeys.modify db.scopes scope.id
      (fun s : InventoryScope => { s with approved := true }) fun _ => rfl
    exact ⟨hs.scope.of_keys hkeys, hs.profile⟩
  | @deleteScope _ _ scope _ _ hfree =>
    refine ⟨hs.scope.delete fun r hr target _ hkey => decide_eq_false fun hid => ?_, hs.profile⟩
    exact hfree r hr (hkey.symm.trans hid)
  | addProfile hprofiles => exact ⟨hs.scope, hs.profile.of_keys (.append? hprofiles)⟩
  | @deleteProfile _ _ profile _ _ hfree =>
    refine ⟨hs.scope, hs.profile.delete fun r hr target _ hkey => decide_eq_false fun hid => ?_⟩
    exact hfree r hr (hkey.symm.trans hid)
  | @addSchedule payload _ _ _ scope profile schedule _ hscope hprofile _ _ hnew hschedules =>
    have hscopes : db.scopes.get schedule.inventoryScopeId = some scope := by
      rw [hnew]
      exact Table.get_of_mem (Table.get_mem hscope)
    have hprofiles : db.profiles.get schedule.profileId = some profile := by
      rw [hnew]
      exact Table.get_of_mem (Table.get_mem hprofile)
    constructor
    · rw [Table.rows_append? hschedules]
      refine hs.scope.append fun r hr => ?_
      rw [List.mem_singleton.mp hr, show Table.get _ _ = some scope from hscopes]
      rfl
    · rw [Table.rows_append? hschedules]
      refine hs.profile.append fun r hr => ?_
      rw [List.mem_singleton.mp hr, show Table.get _ _ = some profile from hprofiles]
      rfl
  | disableSchedule => exact hs.of_orders rfl rfl fun _ => mem_disable
  | addRun _ _ hcreated =>
    refine hs.of_orders ?_ ?_ fun r hr => ⟨r, hr, rfl, rfl⟩
    · rw [hcreated.frame]
      rfl
    · rw [hcreated.frame]
      rfl

theorem scheduled_control {s s' : Control} {a : ControlAction}
    (hs : Scheduled s.base.db s.schedules) (h : s.step d a = some s') :
    Scheduled s'.base.db s'.schedules := by
  cases a with
  | request q =>
    obtain ⟨db, hok, hbase⟩ := control_request h
    rw [hbase]
    exact performed_scheduled hs (perform_ok hok)
  | dispatchDue now ids =>
    obtain ⟨db, hpass, hbase⟩ := control_dispatchDue h
    have hd := dispatchLoop_dispatched (d := d) now ids (dueSchedules s.schedules now) s.base.db
      s.schedules
    rw [hpass] at hd
    rw [hbase]
    exact hs.of_orders hd.scopes hd.profiles hd.schedules
  | system b =>
    obtain ⟨-, hstep, hschedules⟩ := control_system h
    obtain ⟨hscopes, hprofiles⟩ := inventory_step hstep
    rw [hschedules]
    exact hs.of_orders hscopes hprofiles fun r hr => ⟨r, hr, rfl, rfl⟩

end

/-! ## The control plane -/

structure Referencing (s : Control) : Prop where
  serving : Serving s.base
  rooting : Rooting s.base
  scheduled : Scheduled s.base.db s.schedules

theorem referencing_initial : Referencing Control.initial where
  serving := serving_start fun _ hr => absurd hr List.not_mem_nil
  rooting := {
    authorized := authorized_empty
    anchored := ⟨fun _ hx => absurd hx List.not_mem_nil, fun _ hx => absurd hx List.not_mem_nil,
      fun _ hx => absurd hx List.not_mem_nil, fun _ hr => absurd hr List.not_mem_nil⟩
    rooted := fun _ he => absurd he List.not_mem_nil
    copies := tracks_start SamePair _ }
  scheduled := ⟨.nil, .nil⟩

section
variable {d : Deployment} {s s' : Control} {a : ControlAction}

theorem referencing_step (hr : Referencing s) (h : s.step d a = some s') : Referencing s' where
  serving := serving_control hr.serving h
  rooting := by
    by_cases ha : ∃ b, a = .system b
    · obtain ⟨b, rfl⟩ := ha
      obtain ⟨hcreates, hstep, -⟩ := control_system h
      exact rooting_step hr.serving hr.rooting hcreates hstep
    · obtain ⟨db, hbase, hg⟩ := control_grows h fun b hb => ha ⟨b, hb⟩
      have hauthorized := authorized_step hr.rooting.authorized h
      rw [hbase] at hauthorized
      rw [hbase]
      exact rooting_grows hr.rooting hauthorized hg
  scheduled := scheduled_control hr.scheduled h

def Control.startsOwned (s : Control) : ControlAction → Bool
  | .system b => s.base.startsOwned b
  | _ => true

theorem linking_control (hs : Serving s.base) (hl : Linking s.base) (hk : s.startsOwned a = true)
    (h : s.step d a = some s') : Linking s'.base := by
  by_cases ha : ∃ b, a = .system b
  · obtain ⟨b, rfl⟩ := ha
    obtain ⟨-, hstep, -⟩ := control_system h
    exact linking_step hs hl hk hstep
  · obtain ⟨db, hbase, hg⟩ := control_grows h fun b hb => ha ⟨b, hb⟩
    rw [hbase]
    exact linking_grows hl hg

theorem Db.HasShard.shard {db : Db} {runId shardId : Uuid} (h : db.HasShard runId shardId) :
    (db.shards.get shardId).isSome = true := by
  obtain ⟨r, hr, -⟩ := h
  rw [hr]
  rfl

theorem Db.HasShard.run {db : Db} {runId shardId : Uuid} (ha : db.Authorized)
    (h : db.HasShard runId shardId) : (db.runs.get runId).isSome = true := by
  obtain ⟨r, hr, hsame⟩ := h
  obtain ⟨run, -, hrun, -⟩ := ha.shard r (Table.get_mem hr)
  rw [← hsame, hrun]
  rfl

/-- The scope and the profile of a run are there. -/
theorem authorized_pair {db : Db} (ha : db.Authorized) {k : Uuid} {run : ScanRun}
    (hrun : db.runs.get k = some run) :
    (db.scopes.get run.inventoryScopeId).isSome = true ∧
      (db.profiles.get run.profileId).isSome = true := by
  obtain ⟨scope, profile, hscope, -, hprofile, -⟩ := ha.run run (Table.get_mem hrun)
  rw [hscope, hprofile]
  exact ⟨rfl, rfl⟩

end

/-- The foreign keys of the schema, and what follows for the worker. -/
structure References (tr : List (Transition Control ControlAction)) (t : Control) : Prop where
  runScope : Refers t.base.db.runs.rows ScanRun.inventoryScopeId t.base.db.scopes
  runProfile : Refers t.base.db.runs.rows ScanRun.profileId t.base.db.profiles
  scheduleScope : Refers t.schedules.rows ScanSchedule.inventoryScopeId t.base.db.scopes
  scheduleProfile : Refers t.schedules.rows ScanSchedule.profileId t.base.db.profiles
  shardRun : Refers t.base.db.shards.rows ScanShard.runId t.base.db.runs
  hostRun : Refers t.base.db.hosts.rows HostObservation.runId t.base.db.runs
  hostShard : Refers t.base.db.hosts.rows HostObservation.shardId t.base.db.shards
  discoveryRun : Refers t.base.db.discoveries.rows DiscoveryObservation.runId t.base.db.runs
  discoveryShard :
    Refers t.base.db.discoveries.rows DiscoveryObservation.shardId t.base.db.shards
  exposureScope :
    Refers t.base.db.exposures.rows CurrentExposure.inventoryScopeId t.base.db.scopes
  exposureProfile : Refers t.base.db.exposures.rows CurrentExposure.profileId t.base.db.profiles
  exposureRun : Refers t.base.db.exposures.rows CurrentExposure.latestRunId t.base.db.runs
  serviceHost : Along Control.startsOwned tr →
    Refers t.base.db.services.rows ServiceObservation.hostObservationId t.base.db.hosts
  /-- An execution finds the run and the profile of its shard. -/
  loaded : ∀ e ∈ t.base.executions, e.pc = .loaded →
    e.run.isSome = true ∧ e.profile.isSome = true
  unfailed : ∀ r ∈ t.base.db.shards.rows, r.status ≠ .failed

/-- Whatever requests, scheduler passes and workers do, in any order. -/
theorem foreign_keys (d : Deployment) (tr : List (Transition Control ControlAction)) (t : Control)
    (h : Path (Control.step d) Control.initial tr t) : References tr t := by
  have ht : Referencing t := h.invariant (C := fun _ _ => true) referencing_initial
    (fun _ _ _ hr _ => referencing_step hr) fun _ _ => rfl
  have hauthorized := ht.rooting.authorized
  have hanchored := ht.rooting.anchored
  have hexposure : ∀ x ∈ t.base.db.exposures.rows, ∃ run,
      t.base.db.runs.get x.latestRunId = some run ∧ run.inventoryScopeId = x.inventoryScopeId ∧
        run.profileId = x.profileId := by
    intro x hx
    obtain ⟨run, hrun, hpair⟩ := hanchored.exposure x hx
    exact ⟨run, hrun, Prod.mk.inj hpair⟩
  constructor
  · exact fun run hrun => (authorized_pair hauthorized (Table.get_of_mem hrun)).1
  · exact fun run hrun => (authorized_pair hauthorized (Table.get_of_mem hrun)).2
  · exact ht.scheduled.scope
  · exact ht.scheduled.profile
  · exact fun r hr => Db.HasShard.run hauthorized ⟨r, Table.get_of_mem hr, rfl⟩
  · exact fun x hx => (hanchored.host x hx).run hauthorized
  · exact fun x hx => (hanchored.host x hx).shard
  · exact fun x hx => (hanchored.discovery x hx).run hauthorized
  · exact fun x hx => (hanchored.discovery x hx).shard
  · intro x hx
    obtain ⟨run, hrun, hscope, -⟩ := hexposure x hx
    exact hscope ▸ (authorized_pair hauthorized hrun).1
  · intro x hx
    obtain ⟨run, hrun, -, hprofile⟩ := hexposure x hx
    exact hprofile ▸ (authorized_pair hauthorized hrun).2
  · intro x hx
    obtain ⟨run, hrun, -⟩ := hexposure x hx
    exact Option.isSome_iff_exists.mpr ⟨run, hrun⟩
  · intro hk
    have hlinking : Serving t.base ∧ Linking t.base :=
      h.invariant (I := fun s : Control => Serving s.base ∧ Linking s.base)
        ⟨referencing_initial.serving, linking_start .nil⟩
        (fun _ _ _ hs hc hstep => ⟨serving_control hs.1 hstep,
          linking_control hs.1 hs.2 hc hstep⟩) hk
    exact hlinking.2.linked
  · intro e he hpc
    have hrooted := ht.rooting.rooted e he
    exact ⟨hrooted.loaded hpc, hrooted.profile (hrooted.loaded hpc)⟩
  · exact hanchored.unfailed

namespace Demo

/-- The first shard has one open service, which both scanners find. -/
def reporting : List WorkerAction :=
  [.exit, .recheck, .addDiscoveries [("10.0.0.5", "tcp", 443)], .storeDiscovery, .exit, .recheck,
    .addHost host [service], .storeConfirmation, .confirm]

/-- Both shards are scanned, and Masscan finds nothing in the second. -/
def reported : List Action :=
  publish 0 0 ++ [.sendTask 0 none, .settleEvent 0 0] ++ begin 0 "s1" "t1" 0 ++
    begin 1 "s2" "t2" 0 ++ reporting.map (Action.worker 0) ++
    [.exit, .recheck, .addDiscoveries [], .storeDiscovery, .confirm].map (Action.worker 1) ++
    finish 0 60 ++ finish 1 60

end Demo

/-- The service that the run has found is a current exposure, and everything is referred to. -/
theorem foreign_keys_confirmed :
    ∃ tr t, Path (Control.step {}) Control.initial tr t ∧ References tr t ∧
      Refers t.base.db.services.rows ServiceObservation.hostObservationId t.base.db.hosts ∧
      (t.base.db.hosts.rows.length, t.base.db.services.rows.length,
        t.base.db.discoveries.rows.length, t.base.db.exposures.rows.length) = (1, 1, 1, 1) := by
  have hrun : (runWhile (Control.step {}) Control.startsOwned Control.initial
      (Demo.scheduled ++ Demo.reported.map .system)).map (fun t =>
        (t.base.db.hosts.rows.length, t.base.db.services.rows.length,
          t.base.db.discoveries.rows.length, t.base.db.exposures.rows.length)) =
      some (1, 1, 1, 1) := by
    decide +kernel
  obtain ⟨tr, t, hp, halong, hobs⟩ := Path.of_runWhile_map hrun
  have hkeys := foreign_keys {} tr t hp
  exact ⟨tr, t, hp, hkeys, hkeys.serviceHost halong, hobs⟩

/-- The first execution of the shard lists the services, of which there are none yet, and is
lost; the second confirms its results before the first goes on. -/
def Demo.orphaning : List Action :=
  publish 0 0 ++ .deliver "s1" "t1" "worker" 0 ::
    [.loadShard, .loadRun, .clearServices].map (Action.worker 0) ++
    [.loadStale (seconds 3601), .commitRecovery 0, .countActive .fresh "run",
      .lease 1 ["t3", "t4"] ["e3", "e4"] (seconds 3601), .loadEvents 100, .sendTask 1 none,
      .settleEvent 1 (seconds 3601), .sendTask 1 none, .settleEvent 1 (seconds 3601)] ++
    begin 1 "s1" "t3" (seconds 3601) ++ reporting.map (Action.worker 1) ++
    finish 1 (seconds 3660) ++
    [.clearHosts, .clearDiscoveries, .start (seconds 3661)].map (Action.worker 0)

/-- Where an execution that has lost its lease starts, only the constraint keeps the host. -/
theorem unowned_start_orphans :
    ¬ ∀ (d : Deployment) (tr : List (Transition Control ControlAction)) (t : Control),
      Path (Control.step d) Control.initial tr t →
        Refers t.base.db.services.rows ServiceObservation.hostObservationId t.base.db.hosts := by
  intro hall
  have hrun : (runAll (Control.step {}) Control.initial
      (Demo.scheduled ++ Demo.orphaning.map .system)).map (fun t =>
        (t.base.db.hosts.rows, t.base.db.services.rows)) = some ([], [Demo.service]) := by
    decide +kernel
  obtain ⟨tr, t, hp, hobs⟩ := Path.of_runAll_map hrun
  obtain ⟨hhosts, hservices⟩ := Prod.mk.inj hobs
  have hrefers := hall {} tr t hp Demo.service (by rw [hservices]; exact List.mem_singleton_self _)
  obtain ⟨host, hget⟩ := Option.isSome_iff_exists.mp hrefers
  have hmem := Table.get_mem hget
  rw [hhosts] at hmem
  cases hmem

end TransportLookout
