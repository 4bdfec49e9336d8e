/-
Where the rows of the control plane come from.

A step that leaves a row behind found it, or is the request that makes such a row.
A run has one more origin: a scheduler pass creates it for whoever created the
schedule.  `Order` is what a run and its schedule have in common.
-/
import TransportLookout.System.Requests

namespace TransportLookout

open Relational Trace

/-- Who asked for a scan, of which scope and by which profile. -/
structure Order where
  actor : String
  inventoryScopeId : Uuid
  profileId : Uuid
deriving DecidableEq, Repr

def ScanRun.order (r : ScanRun) : Order := ⟨r.requestedBy, r.inventoryScopeId, r.profileId⟩

def ScanSchedule.order (s : ScanSchedule) : Order :=
  ⟨s.createdBy, s.inventoryScopeId, s.profileId⟩

/-! ## Requests -/

section
variable {d : Deployment} {db db' : Db} {schedules schedules' : Table ScanSchedule} {q : Request}

theorem performed_scopes (h : Performed d db schedules q db' schedules') {scope : InventoryScope}
    (hscope : scope ∈ db'.scopes.rows) (happroved : scope.approved = true) :
    scope ∈ db.scopes.rows ∨ ∃ actor, ∃ old ∈ db.scopes.rows,
      q = .approveScope scope.id actor ∧ scope = { old with approved := true } := by
  cases h with
  | addScope _ hscopes =>
    have hmem : scope ∈ db.scopes.rows ++ _ := Table.rows_append? hscopes ▸ hscope
    rcases List.mem_append.mp hmem with hold | hnew
    · exact Or.inl hold
    · cases List.mem_singleton.mp hnew
      cases happroved
  | importScopes _ hscopes =>
    have hmem : scope ∈ db.scopes.rows ++ _ := Table.rows_append? hscopes ▸ hscope
    rcases List.mem_append.mp hmem with hold | hnew
    · exact Or.inl hold
    · obtain ⟨i, hi, rfl⟩ := List.mem_mapIdx.mp hnew
      cases happroved
  | @approveScope scopeId actor found hfound =>
    obtain ⟨old, hold, hmap⟩ := List.mem_map.mp hscope
    split at hmap
    · next hid =>
      have hkey : found.id = scopeId := Table.get_key hfound
      have hold_id : old.id = scopeId := (of_decide_eq_true hid).trans hkey
      subst hmap
      refine Or.inr ⟨actor, old, hold, ?_, rfl⟩
      show Request.approveScope scopeId actor = .approveScope old.id actor
      rw [hold_id]
    · exact Or.inl (hmap ▸ hold)
  | deleteScope => exact Or.inl (List.mem_filter.mp hscope).1
  | addProfile | deleteProfile | addSchedule | disableSchedule => exact Or.inl hscope
  | addRun _ _ hcreated =>
    rw [hcreated.frame] at hscope
    exact Or.inl hscope

theorem performed_profiles (h : Performed d db schedules q db' schedules') {profile : ScanProfile}
    (hprofile : profile ∈ db'.profiles.rows) :
    profile ∈ db.profiles.rows ∨ ∃ payload actor version,
      q = .addProfile payload actor profile.id ∧
        profile = payload.profile profile.id version := by
  cases h with
  | @addProfile payload actor id profiles hprofiles =>
    have hmem : profile ∈ db.profiles.rows ++ _ := Table.rows_append? hprofiles ▸ hprofile
    rcases List.mem_append.mp hmem with hold | hnew
    · exact Or.inl hold
    · cases List.mem_singleton.mp hnew
      exact Or.inr ⟨payload, actor, _, rfl, rfl⟩
  | deleteProfile => exact Or.inl (List.mem_filter.mp hprofile).1
  | addScope | importScopes | approveScope | deleteScope | addSchedule | disableSchedule =>
    exact Or.inl hprofile
  | addRun _ _ hcreated =>
    rw [hcreated.frame] at hprofile
    exact Or.inl hprofile

theorem mem_disable {id : Uuid} {schedule : ScanSchedule}
    (h : schedule ∈ (disable schedules id).rows) :
    ∃ old ∈ schedules.rows, old.id = schedule.id ∧ old.order = schedule.order := by
  obtain ⟨old, hold, rfl⟩ := List.mem_map.mp h
  refine ⟨old, hold, ?_⟩
  split
  · exact ⟨rfl, rfl⟩
  · exact ⟨rfl, rfl⟩

theorem performed_schedules (h : Performed d db schedules q db' schedules')
    {schedule : ScanSchedule} (hschedule : schedule ∈ schedules'.rows) :
    (∃ old ∈ schedules.rows, old.id = schedule.id ∧ old.order = schedule.order) ∨
      ∃ payload actor now, q = .addSchedule payload actor schedule.id now ∧
        schedule.order = ⟨actor, payload.inventoryScopeId, payload.profileId⟩ := by
  cases h with
  | @addSchedule payload actor id now scope profile new _ hscope hprofile _ _ hnew hschedules =>
    have hmem : schedule ∈ schedules.rows ++ [new] := Table.rows_append? hschedules ▸ hschedule
    rcases List.mem_append.mp hmem with hold | hadded
    · exact Or.inl ⟨schedule, hold, rfl, rfl⟩
    · cases List.mem_singleton.mp hadded
      have hscopeId : scope.id = payload.inventoryScopeId := Table.get_key hscope
      have hprofileId : profile.id = payload.profileId := Table.get_key hprofile
      subst hnew
      exact Or.inr ⟨payload, actor, now, rfl, by rw [ScanSchedule.order, hscopeId, hprofileId]⟩
  | disableSchedule => exact Or.inl (mem_disable hschedule)
  | addScope | importScopes | approveScope | deleteScope | addProfile | deleteProfile | addRun =>
    exact Or.inl ⟨schedule, hschedule, rfl, rfl⟩

/-- The run that is created is the one that was asked for. -/
theorem created_runs {scope : InventoryScope} {profile : ScanProfile} {actor : String}
    {ids : RunIds} (h : Created d db scope profile actor ids db') {run : ScanRun}
    (hrun : run ∈ db'.runs.rows) :
    run ∈ db.runs.rows ∨ run.id = ids.runId ∧ run.order = ⟨actor, scope.id, profile.id⟩ := by
  rw [Table.rows_append? h.runs] at hrun
  rcases List.mem_append.mp hrun with hold | hnew
  · exact Or.inl hold
  · cases List.mem_singleton.mp hnew
    exact Or.inr ⟨rfl, rfl⟩

theorem performed_runs (h : Performed d db schedules q db' schedules') {run : ScanRun}
    (hrun : run ∈ db'.runs.rows) :
    run ∈ db.runs.rows ∨ ∃ scopeId profileId actor ids, q = .addRun scopeId profileId actor ids ∧
      run.id = ids.runId ∧ run.order = ⟨actor, scopeId, profileId⟩ := by
  cases h with
  | @addRun scopeId profileId actor ids scope profile _ hscope hprofile hcreated =>
    rcases created_runs hcreated hrun with hold | ⟨hid, horder⟩
    · exact Or.inl hold
    · have hscopeId : scope.id = scopeId := Table.get_key hscope
      have hprofileId : profile.id = profileId := Table.get_key hprofile
      rw [hscopeId, hprofileId] at horder
      exact Or.inr ⟨scopeId, profileId, actor, ids, rfl, hid, horder⟩
  | addScope | importScopes | approveScope | deleteScope | addProfile | deleteProfile
    | addSchedule | disableSchedule => exact Or.inl hrun

/-- A run that is created is queued. -/
theorem created_queued {scope : InventoryScope} {profile : ScanProfile} {actor : String}
    {ids : RunIds} (h : Created d db scope profile actor ids db') {run : ScanRun}
    (hrun : run ∈ db'.runs.rows) : run ∈ db.runs.rows ∨ run.status = .queued := by
  rw [Table.rows_append? h.runs] at hrun
  refine (List.mem_append.mp hrun).imp_right fun hnew => ?_
  rw [List.mem_singleton.mp hnew]

theorem performed_queued (h : Performed d db schedules q db' schedules') {run : ScanRun}
    (hrun : run ∈ db'.runs.rows) : run ∈ db.runs.rows ∨ run.status = .queued := by
  cases h with
  | addRun _ _ hcreated => exact created_queued hcreated hrun
  | addScope | importScopes | approveScope | deleteScope | addProfile | deleteProfile
    | addSchedule | disableSchedule => exact Or.inl hrun

/-! ## Scheduler passes -/

/-- What a pass does to the tables: it adds runs for the schedules it handles, and
writes neither scopes nor profiles, nor what a schedule orders. -/
structure Dispatched (due : List ScanSchedule) (db : Db) (schedules : Table ScanSchedule) (db' : Db)
    (schedules' : Table ScanSchedule) : Prop where
  scopes : db'.scopes = db.scopes
  profiles : db'.profiles = db.profiles
  runs : ∀ run ∈ db'.runs.rows, run ∈ db.runs.rows ∨ ∃ schedule ∈ due, run.order = schedule.order
  schedules : ∀ schedule ∈ schedules'.rows,
    ∃ old ∈ schedules.rows, old.id = schedule.id ∧ old.order = schedule.order

theorem Dispatched.cons {due : List ScanSchedule} {schedule : ScanSchedule} {db₁ : Db}
    {schedules₁ : Table ScanSchedule} (h : Dispatched due db₁ schedules₁ db' schedules')
    (hscopes : db₁.scopes = db.scopes)
    (hprofiles : db₁.profiles = db.profiles)
    (hruns : ∀ run ∈ db₁.runs.rows, run ∈ db.runs.rows ∨ run.order = schedule.order)
    (hschedules : ∀ r ∈ schedules₁.rows,
      ∃ old ∈ schedules.rows, old.id = r.id ∧ old.order = r.order) :
    Dispatched (schedule :: due) db schedules db' schedules' where
  scopes := h.scopes.trans hscopes
  profiles := h.profiles.trans hprofiles
  runs := by
    intro run hrun
    rcases h.runs run hrun with hrun | ⟨r, hr, horder⟩
    · rcases hruns run hrun with hold | horder
      · exact Or.inl hold
      · exact Or.inr ⟨schedule, List.mem_cons_self, horder⟩
    · exact Or.inr ⟨r, List.mem_cons_of_mem schedule hr, horder⟩
  schedules := by
    intro r hr
    obtain ⟨r₁, hr₁, hid₁, horder₁⟩ := h.schedules r hr
    obtain ⟨old, hold, hid, horder⟩ := hschedules r₁ hr₁
    exact ⟨old, hold, hid.trans hid₁, horder.trans horder₁⟩

theorem dispatchLoop_dispatched (now : DateTime) (ids : Uuid → RunIds) (due : List ScanSchedule)
    (db : Db) (schedules : Table ScanSchedule) :
    Dispatched due db schedules (dispatchLoop d.policy d.isIpv6 now ids due db schedules).1
      (dispatchLoop d.policy d.isIpv6 now ids due db schedules).2 := by
  induction due generalizing db schedules with
  | nil =>
    exact ⟨rfl, rfl, fun _ hrun => Or.inl hrun, fun r hr => ⟨r, hr, rfl, rfl⟩⟩
  | cons schedule due ih =>
    rw [dispatchLoop]
    split
    · have hrest := ih (db.auditDisabled schedule) (disable schedules schedule.id)
      exact hrest.cons rfl rfl (fun _ hrun => Or.inl hrun) fun _ => mem_disable
    · next scope profile hdispatch =>
      split
      · exact ⟨rfl, rfl, fun _ hrun => Or.inl hrun, fun r hr => ⟨r, hr, rfl, rfl⟩⟩
      · next db₁ hok =>
        obtain ⟨hscope, hprofile⟩ := dispatchable_eq_some hdispatch
        have hscopeId : scope.id = schedule.inventoryScopeId := Table.get_key hscope
        have hprofileId : profile.id = schedule.profileId := Table.get_key hprofile
        have hcreated := createRunIn_created hok
        refine (ih (db₁.auditDispatched schedule) _).cons ?_ ?_ ?_ ?_
        · rw [hcreated.frame]
          rfl
        · rw [hcreated.frame]
          rfl
        · intro run hrun
          rcases created_runs hcreated hrun with hold | ⟨-, horder⟩
          · exact Or.inl hold
          · rw [hscopeId, hprofileId] at horder
            exact Or.inr horder
        · intro r hr
          obtain ⟨old, hold, rfl⟩ := List.mem_map.mp hr
          refine ⟨old, hold, ?_⟩
          split
          · exact ⟨rfl, rfl⟩
          · exact ⟨rfl, rfl⟩

end

/-! ## Steps -/

section
variable {settings : Settings} {s s' : State} {a : Action}

/-- No step of the running system adds a run, or changes what one is of. -/
theorem runs_order (hcreates : a.creates = false) (h : s.step settings a = some s') {run : ScanRun}
    (hrun : run ∈ s'.db.runs.rows) :
    ∃ old ∈ s.db.runs.rows, old.id = run.id ∧ old.order = run.order := by
  have hflush : ∀ {loaded assigned : ScanRun},
      s'.db.runs = (s.db.flushRun loaded assigned).runs →
      ∃ old ∈ s.db.runs.rows, old.id = run.id ∧ old.order = run.order := by
    intro loaded assigned heq
    rw [heq] at hrun
    obtain ⟨old, hold, rfl⟩ := List.mem_map.mp hrun
    refine ⟨old, hold, ?_⟩
    split
    · exact ⟨rfl, rfl⟩
    · exact ⟨rfl, rfl⟩
  rcases runs_step h with heq | ⟨_, _, _, _, _, _, rfl, -⟩ | ⟨_, _, _, _, -, -, -, heq⟩ |
    ⟨_, _, _, -, -, heq⟩ | ⟨_, _, _, -, -, heq⟩
  · rw [heq] at hrun
    exact ⟨run, hrun, rfl, rfl⟩
  · cases hcreates
  · exact hflush heq
  · exact hflush heq
  · exact hflush heq

end

/-- A run is cancelled by the commit of a cancellation. -/
theorem run_cancelled {settings : Settings} {s s' : State} {a : Action}
    (h : s.step settings a = some s') {run : ScanRun} (hrun : run ∈ s'.db.runs.rows)
    (hstatus : run.status = .cancelled) :
    (∃ old ∈ s.db.runs.rows, old.id = run.id ∧ old.status = .cancelled) ∨
      ∃ c ∈ s.cancellations, c.run.id = run.id := by
  have hget : s'.db.runs.get run.id = some run := Table.get_of_mem hrun
  have hwrite : ∀ {loaded assigned old : RunStatus}, assigned ≠ .cancelled →
      Relational.writeBack loaded assigned old = .cancelled → old = .cancelled := by
    intro loaded assigned old hne hcancelled
    by_cases heq : assigned = loaded
    · rw [Relational.writeBack, if_pos heq] at hcancelled
      exact hcancelled
    · rw [writeBack_of_ne heq] at hcancelled
      exact absurd hcancelled hne
  cases hold : s.db.runs.get run.id with
  | none =>
    rw [(run_new h hold hget).1] at hstatus
    cases hstatus
  | some old =>
    have hid : old.id = run.id := Table.get_key hold
    obtain ⟨run', hrun', hcase⟩ := run_step h hold
    rw [hget] at hrun'
    cases hrun'
    rcases hcase with rfl | hstep
    · exact Or.inl ⟨run, Table.get_mem hold, rfl, hstatus⟩
    cases hstep with
    | start => exact Or.inl ⟨old, Table.get_mem hold, hid, hwrite RunStatus.noConfusion hstatus⟩
    | finalize _ hfires =>
      refine Or.inl ⟨old, Table.get_mem hold, hid, hwrite ?_ hstatus⟩
      rw [TerminalCounts.finalized]
      split
      · exact RunStatus.noConfusion
      · exact RunStatus.noConfusion
    | cancel hp hsame =>
      exact Or.inr ⟨_, List.mem_of_getElem? hp, hsame.trans hid⟩

section
variable {d : Deployment} {s s' : Control} {a : ControlAction}

theorem control_scopes (h : s.step d a = some s') {scope : InventoryScope}
    (hscope : scope ∈ s'.base.db.scopes.rows) (happroved : scope.approved = true) :
    scope ∈ s.base.db.scopes.rows ∨ ∃ actor, ∃ old ∈ s.base.db.scopes.rows,
      a = .request (.approveScope scope.id actor) ∧ scope = { old with approved := true } := by
  cases a with
  | request q =>
    obtain ⟨db, hok, hbase⟩ := control_request h
    rw [hbase] at hscope
    rcases performed_scopes (perform_ok hok) hscope happroved with hold | ⟨actor, old, hold, rfl, hr⟩
    · exact Or.inl hold
    · exact Or.inr ⟨actor, old, hold, rfl, hr⟩
  | dispatchDue now ids =>
    obtain ⟨db, hpass, hbase⟩ := control_dispatchDue h
    have hd := dispatchLoop_dispatched (d := d) now ids (dueSchedules s.schedules now) s.base.db
      s.schedules
    rw [hpass] at hd
    rw [hbase, hd.scopes] at hscope
    exact Or.inl hscope
  | system a =>
    obtain ⟨-, hstep, -⟩ := control_system h
    rw [(inventory_step hstep).1] at hscope
    exact Or.inl hscope

theorem control_profiles (h : s.step d a = some s') {profile : ScanProfile}
    (hprofile : profile ∈ s'.base.db.profiles.rows) :
    profile ∈ s.base.db.profiles.rows ∨ ∃ payload actor version,
      a = .request (.addProfile payload actor profile.id) ∧
        profile = payload.profile profile.id version := by
  cases a with
  | request q =>
    obtain ⟨db, hok, hbase⟩ := control_request h
    rw [hbase] at hprofile
    rcases performed_profiles (perform_ok hok) hprofile with hold | ⟨payload, actor, version, rfl, hr⟩
    · exact Or.inl hold
    · exact Or.inr ⟨payload, actor, version, rfl, hr⟩
  | dispatchDue now ids =>
    obtain ⟨db, hpass, hbase⟩ := control_dispatchDue h
    have hd := dispatchLoop_dispatched (d := d) now ids (dueSchedules s.schedules now) s.base.db
      s.schedules
    rw [hpass] at hd
    rw [hbase, hd.profiles] at hprofile
    exact Or.inl hprofile
  | system a =>
    obtain ⟨-, hstep, -⟩ := control_system h
    rw [(inventory_step hstep).2] at hprofile
    exact Or.inl hprofile

theorem control_schedules (h : s.step d a = some s') {schedule : ScanSchedule}
    (hschedule : schedule ∈ s'.schedules.rows) :
    (∃ old ∈ s.schedules.rows, old.id = schedule.id ∧ old.order = schedule.order) ∨
      ∃ payload actor now, a = .request (.addSchedule payload actor schedule.id now) ∧
        schedule.order = ⟨actor, payload.inventoryScopeId, payload.profileId⟩ := by
  cases a with
  | request q =>
    obtain ⟨db, hok, -⟩ := control_request h
    rcases performed_schedules (perform_ok hok) hschedule with hold | ⟨payload, actor, now, rfl, hr⟩
    · exact Or.inl hold
    · exact Or.inr ⟨payload, actor, now, rfl, hr⟩
  | dispatchDue now ids =>
    obtain ⟨db, hpass, -⟩ := control_dispatchDue h
    have hd := dispatchLoop_dispatched (d := d) now ids (dueSchedules s.schedules now) s.base.db
      s.schedules
    rw [hpass] at hd
    exact Or.inl (hd.schedules schedule hschedule)
  | system a =>
    obtain ⟨-, -, hsame⟩ := control_system h
    rw [hsame] at hschedule
    exact Or.inl ⟨schedule, hschedule, rfl, rfl⟩

theorem control_runs (h : s.step d a = some s') {run : ScanRun}
    (hrun : run ∈ s'.base.db.runs.rows) :
    (∃ old ∈ s.base.db.runs.rows, old.id = run.id ∧ old.order = run.order) ∨
      (∃ scopeId profileId actor ids, a = .request (.addRun scopeId profileId actor ids) ∧
        run.id = ids.runId ∧ run.order = ⟨actor, scopeId, profileId⟩) ∨
      ∃ schedule ∈ s.schedules.rows, run.order = schedule.order := by
  cases a with
  | request q =>
    obtain ⟨db, hok, hbase⟩ := control_request h
    rw [hbase] at hrun
    rcases performed_runs (perform_ok hok) hrun with hold | ⟨scopeId, profileId, actor, ids, rfl, hr⟩
    · exact Or.inl ⟨run, hold, rfl, rfl⟩
    · exact Or.inr (Or.inl ⟨scopeId, profileId, actor, ids, rfl, hr⟩)
  | dispatchDue now ids =>
    obtain ⟨db, hpass, hbase⟩ := control_dispatchDue h
    have hd := dispatchLoop_dispatched (d := d) now ids (dueSchedules s.schedules now) s.base.db
      s.schedules
    rw [hpass] at hd
    rw [hbase] at hrun
    rcases hd.runs run hrun with hold | ⟨schedule, hdue, horder⟩
    · exact Or.inl ⟨run, hold, rfl, rfl⟩
    · exact Or.inr (Or.inr ⟨schedule, (Table.mem_select.mp hdue).1, horder⟩)
  | system a =>
    obtain ⟨hcreates, hstep, -⟩ := control_system h
    exact Or.inl (runs_order hcreates hstep hrun)

theorem control_cancelled (h : s.step d a = some s') {run : ScanRun}
    (hrun : run ∈ s'.base.db.runs.rows) (hstatus : run.status = .cancelled) :
    (∃ old ∈ s.base.db.runs.rows, old.id = run.id ∧ old.status = .cancelled) ∨
      ∃ c ∈ s.base.cancellations, c.run.id = run.id := by
  have hnew : run ∈ s.base.db.runs.rows ∨ run.status = .queued →
      ∃ old ∈ s.base.db.runs.rows, old.id = run.id ∧ old.status = .cancelled := by
    rintro (hold | hqueued)
    · exact ⟨run, hold, rfl, hstatus⟩
    · rw [hqueued] at hstatus
      cases hstatus
  cases a with
  | request q =>
    obtain ⟨db, hok, hbase⟩ := control_request h
    rw [hbase] at hrun
    exact Or.inl (hnew (performed_queued (perform_ok hok) hrun))
  | dispatchDue now ids =>
    obtain ⟨db, hpass, hbase⟩ := control_dispatchDue h
    have hloop := dispatchLoop_rule
      (P := fun db => ∀ run ∈ db.runs.rows, run ∈ s.base.db.runs.rows ∨ run.status = .queued)
      d now ids (fun db db' heq hkept run hrun => hkept run (by rw [heq] at hrun; exact hrun))
      (fun _ _ _ _ _ _ _ _ hok hkept run hrun =>
        (created_queued (createRunIn_created hok) hrun).elim (hkept run) Or.inr)
      (dueSchedules s.schedules now) s.base.db s.schedules fun _ hold => Or.inl hold
    rw [hpass] at hloop
    rw [hbase] at hrun
    exact Or.inl (hnew (hloop run hrun))
  | system a =>
    obtain ⟨-, hstep, -⟩ := control_system h
    exact run_cancelled hstep hrun hstatus

/-- A cancellation in flight is of the run and the actor it was loaded with. -/
theorem control_cancellations (h : s.step d a = some s') {c : Cancellation}
    (hc : c ∈ s'.base.cancellations) :
    (∃ old ∈ s.base.cancellations, old.run.id = c.run.id ∧ old.actor = c.actor) ∨
      a = .system (.loadCancel c.run.id c.actor) := by
  cases a with
  | request q =>
    obtain ⟨db, -, hbase⟩ := control_request h
    rw [hbase] at hc
    exact Or.inl ⟨c, hc, rfl, rfl⟩
  | dispatchDue now ids =>
    obtain ⟨db, -, hbase⟩ := control_dispatchDue h
    rw [hbase] at hc
    exact Or.inl ⟨c, hc, rfl, rfl⟩
  | system a =>
    obtain ⟨-, hstep, -⟩ := control_system h
    rcases (step_effect hstep).cancellations with heq | ⟨runId, actor, run, rfl, hrun, -, heq⟩ |
      ⟨p, old, -, hold, heq⟩ | ⟨p, now, old, -, hold, heq⟩
    · rw [heq] at hc
      exact Or.inl ⟨c, hc, rfl, rfl⟩
    · rw [heq, List.mem_append] at hc
      rcases hc with hc | hc
      · exact Or.inl ⟨c, hc, rfl, rfl⟩
      · cases List.mem_singleton.mp hc
        have hid : run.id = runId := Table.get_key hrun
        rw [hid]
        exact Or.inr rfl
    · rw [heq] at hc
      rcases List.mem_or_eq_of_mem_set hc with hc | rfl
      · exact Or.inl ⟨c, hc, rfl, rfl⟩
      · exact Or.inl ⟨old, List.mem_of_getElem? hold, rfl, rfl⟩
    · rw [heq] at hc
      rcases List.mem_or_eq_of_mem_set hc with hc | rfl
      · exact Or.inl ⟨c, hc, rfl, rfl⟩
      · exact Or.inl ⟨old, List.mem_of_getElem? hold, rfl, rfl⟩

end

end TransportLookout
