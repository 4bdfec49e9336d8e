/-
The audit log is a journal.

`audit` appends an event in the transaction of the change it describes.  Over any
run the log says all that there is to know of what operators have set up: which
scopes exist, with which networks, and which are approved; which profiles, under
which versions; which schedules, and whether they are on; which runs were created,
for whom and by whom.  `Registry` is that view of the tables and `Registry.record`
reads one event.

A rename has no event, and there is none.  A change of a run's status has one that
`Registry.record` skips: sessions with stale copies write statuses, and the order of
their events need not be that of the statuses.

The users are no part of it: `current_user` writes the bootstrap user without an event.
`Control` has every request but `provision_user`, whose event says nothing about the
registry; `service_log_replays` is the result for all the routes.
-/
import TransportLookout.Library.Journal
import TransportLookout.Safety.Authorized
import TransportLookout.System.Api

namespace TransportLookout

open Relational Trace Journal

structure ScopeEntry where
  id : Uuid
  cidr : String
  approved : Bool
deriving DecidableEq, Repr

structure ProfileEntry where
  id : Uuid
  version : Nat
deriving DecidableEq, Repr

structure ScheduleEntry where
  id : Uuid
  intervalMinutes : Nat
  createdBy : String
  enabled : Bool
deriving DecidableEq, Repr

structure RunEntry where
  id : Uuid
  inventoryScopeId : Uuid
  profileId : Uuid
  requestedBy : String
deriving DecidableEq, Repr

structure Registry where
  scopes : List ScopeEntry := []
  profiles : List ProfileEntry := []
  schedules : List ScheduleEntry := []
  runs : List RunEntry := []
deriving DecidableEq, Repr

def InventoryScope.entry (s : InventoryScope) : ScopeEntry := ⟨s.id, s.cidr, s.approved⟩

def ScanProfile.entry (p : ScanProfile) : ProfileEntry := ⟨p.id, p.version⟩

def ScanSchedule.entry (s : ScanSchedule) : ScheduleEntry :=
  ⟨s.id, s.intervalMinutes, s.createdBy, s.enabled⟩

def ScanRun.entry (r : ScanRun) : RunEntry := ⟨r.id, r.inventoryScopeId, r.profileId, r.requestedBy⟩

/-- What the tables hold. -/
def Db.registry (db : Db) (schedules : Table ScanSchedule) : Registry where
  scopes := db.scopes.rows.map InventoryScope.entry
  profiles := db.profiles.rows.map ScanProfile.entry
  schedules := schedules.rows.map ScanSchedule.entry
  runs := db.runs.rows.map ScanRun.entry

/-! ## Reading an event -/

def AuditEvent.text (e : AuditEvent) (field : String) : String :=
  match e.detail.lookup field with
  | some (.text s) => s
  | _ => ""

def AuditEvent.number (e : AuditEvent) (field : String) : Nat :=
  match e.detail.lookup field with
  | some (.number n) => n
  | _ => 0

def Registry.record (r : Registry) (e : AuditEvent) : Registry :=
  match e.action with
  | "inventory_scope.created" | "inventory_scope.imported" =>
    { r with scopes := r.scopes ++ [⟨e.resourceId, e.text "cidr", false⟩] }
  | "inventory_scope.approved" =>
    { r with scopes := r.scopes.map fun s =>
        if s.id = e.resourceId then { s with approved := true } else s }
  | "inventory_scope.deleted" =>
    { r with scopes := r.scopes.filter fun s => s.id ≠ e.resourceId }
  | "scan_profile.created" =>
    { r with profiles := r.profiles ++ [⟨e.resourceId, e.number "version"⟩] }
  | "scan_profile.deleted" =>
    { r with profiles := r.profiles.filter fun p => p.id ≠ e.resourceId }
  | "schedule.created" =>
    { r with schedules :=
        r.schedules ++ [⟨e.resourceId, e.number "interval_minutes", e.actor, true⟩] }
  | "schedule.disabled" =>
    { r with schedules := r.schedules.map fun s =>
        if s.id = e.resourceId then { s with enabled := false } else s }
  | "run.created" =>
    { r with runs :=
        r.runs ++ [⟨e.resourceId, e.text "scope_id", e.text "profile_id", e.actor⟩] }
  | _ => r

/-- The events a run of the system writes besides those of `Registry.record`. -/
def AuditEvent.silent (e : AuditEvent) : Bool :=
  e.action ∈ ["schedule.dispatched", "run.cancelled", "run.finalized",
    "run.inventory_update_skipped", "shard.discovery.completed", "shard.confirmation.skipped"]

theorem record_silent {e : AuditEvent} (h : e.silent = true) (r : Registry) : r.record e = r := by
  simp only [AuditEvent.silent, decide_eq_true_eq, List.mem_cons, List.not_mem_nil,
    or_false] at h
  rcases h with h | h | h | h | h | h
  all_goals
    unfold Registry.record
    rw [h]
    rfl

/-- What the log and the tables are after a transaction. -/
def Db.journal (db : Db) (schedules : Table ScanSchedule) : Entry AuditEvent Registry :=
  ⟨db.audits, db.registry schedules⟩

abbrev Records (j j' : Entry AuditEvent Registry) : Prop := Extends Registry.record j j'

/-! ## Requests -/

section
variable {d : Deployment} {db db' : Db} {schedules schedules' : Table ScanSchedule}

/-- An import writes one event for each scope, none of which is approved. -/
theorem replay_imported {scopes : List InventoryScope} (h : ∀ s ∈ scopes, s.approved = false)
    (actor : String) (r : Registry) :
    replay Registry.record r (scopes.map (importEvent actor)) =
      { r with scopes := r.scopes ++ scopes.map InventoryScope.entry } := by
  induction scopes generalizing r with
  | nil =>
    rw [List.map_nil, List.map_nil, List.append_nil]
    rfl
  | cons scope scopes ih =>
    have hentry : scope.entry = ⟨scope.id, scope.cidr, false⟩ := by
      rw [InventoryScope.entry, h scope List.mem_cons_self]
    rw [List.map_cons, List.map_cons, List.append_cons, hentry]
    exact ih (fun s hs => h s (List.mem_cons_of_mem scope hs)) _

theorem map_disable (schedules : Table ScanSchedule) (id : Uuid) :
    (disable schedules id).rows.map ScanSchedule.entry =
      (schedules.rows.map ScanSchedule.entry).map fun s =>
        if s.id = id then { s with enabled := false } else s :=
  Table.map_modify ScanSchedule.entry schedules id (f := fun s => { s with enabled := false })
    (fun _ => rfl) (g := fun s => { s with enabled := false }) (n := ScheduleEntry.id)
    (fun _ => rfl) fun _ => rfl

theorem created_records {scope : InventoryScope} {profile : ScanProfile} {actor : String}
    {run : RunIds} (h : Created d db scope profile actor run db') :
    Records (db.journal schedules) (db'.journal schedules) := by
  rw [h.frame]
  exact .single rfl (congrArg (fun l => Registry.mk _ _ _ l) (Table.map_append? _ h.runs))

theorem performed_records {q : Request} (h : Performed d db schedules q db' schedules') :
    Records (db.journal schedules) (db'.journal schedules') := by
  cases h with
  | addScope _ hscopes =>
    exact .single rfl (congrArg (fun l => Registry.mk l _ _ _) (Table.map_append? _ hscopes))
  | @importScopes rows actor ids candidates scopes _ hscopes =>
    refine ⟨_, rfl, ?_⟩
    refine Eq.trans ?_ (replay_imported ?_ actor (db.registry schedules)).symm
    · exact congrArg (fun l => Registry.mk l _ _ _) (Table.map_append? _ hscopes)
    · intro scope hscope
      obtain ⟨i, hi, rfl⟩ := List.mem_mapIdx.mp hscope
      rfl
  | @approveScope _ _ scope _ =>
    have happrove := Table.map_modify InventoryScope.entry db.scopes scope.id
      (f := fun s => { s with approved := true }) (fun _ => rfl)
      (g := fun s => { s with approved := true }) (n := ScopeEntry.id) (fun _ => rfl)
      fun _ => rfl
    exact .single rfl (congrArg (fun l => Registry.mk l _ _ _) happrove)
  | @deleteScope _ _ scope =>
    have hdelete := Table.map_delete InventoryScope.entry db.scopes
      (p := fun s => s.id = scope.id) (q := fun s => s.id ≠ scope.id) fun _ => decide_not
    exact .single rfl (congrArg (fun l => Registry.mk l _ _ _) hdelete)
  | addProfile hprofiles =>
    exact .single rfl (congrArg (fun l => Registry.mk _ l _ _) (Table.map_append? _ hprofiles))
  | @deleteProfile _ _ profile =>
    have hdelete := Table.map_delete ScanProfile.entry db.profiles
      (p := fun p => p.id = profile.id) (q := fun p => p.id ≠ profile.id) fun _ => decide_not
    exact .single rfl (congrArg (fun l => Registry.mk _ l _ _) hdelete)
  | addSchedule _ _ _ _ hschedule hschedules =>
    subst hschedule
    exact .single rfl (congrArg (fun l => Registry.mk _ _ l _) (Table.map_append? _ hschedules))
  | disableSchedule =>
    exact .single rfl (congrArg (fun l => Registry.mk _ _ l _) (map_disable schedules _))
  | addRun _ _ hcreated => exact created_records hcreated

/-- Moving a schedule to its next instant is not seen. -/
theorem map_advance (schedules : Table ScanSchedule) (schedule : ScanSchedule) (now : DateTime) :
    (advance schedules schedule now).rows.map ScanSchedule.entry =
      schedules.rows.map ScanSchedule.entry :=
  Table.map_modify_eq ScanSchedule.entry schedules schedule.id _ fun _ => rfl

theorem dispatchLoop_records (now : DateTime) (ids : Uuid → RunIds) (due : List ScanSchedule)
    (db : Db) (schedules : Table ScanSchedule) :
    Records (db.journal schedules)
      ((dispatchLoop d.policy d.isIpv6 now ids due db schedules).1.journal
        (dispatchLoop d.policy d.isIpv6 now ids due db schedules).2) := by
  induction due generalizing db schedules with
  | nil => exact .refl _
  | cons schedule due ih =>
    rw [dispatchLoop]
    split
    · have hdisable : Records (db.journal schedules)
          ((db.auditDisabled schedule).journal (disable schedules schedule.id)) :=
        .single rfl (congrArg (fun l => Registry.mk _ _ l _) (map_disable schedules schedule.id))
      exact hdisable.trans (ih _ _)
    · split
      · exact .refl _
      · next db' hok =>
        have hadvance : Records (db'.journal schedules)
            ((db'.auditDispatched schedule).journal (advance schedules schedule now)) :=
          .single rfl (congrArg (fun l => Registry.mk _ _ l _) (map_advance schedules schedule now))
        exact (created_records (createRunIn_created hok)).trans (hadvance.trans (ih _ _))

end

/-! ## The running system -/

/-- The transaction from `db` to `db'` appends events that satisfy `P`. -/
def Db.Adds (P : AuditEvent → Prop) (db db' : Db) : Prop :=
  ∃ events, db'.audits = db.audits ++ events ∧ ∀ event ∈ events, P event

section
variable {P : AuditEvent → Prop}

theorem Db.Adds.of_eq {db db' : Db} (h : db'.audits = db.audits) : db.Adds P db' :=
  ⟨[], by rw [h, List.append_nil], fun _ hevent => absurd hevent List.not_mem_nil⟩

theorem Db.Adds.trans {db db' db'' : Db} (h : db.Adds P db') (h' : db'.Adds P db'') :
    db.Adds P db'' := by
  obtain ⟨events, haudits, hP⟩ := h
  obtain ⟨events', haudits', hP'⟩ := h'
  refine ⟨events ++ events', by rw [haudits', haudits, List.append_assoc], fun event hevent => ?_⟩
  exact (List.mem_append.mp hevent).elim (hP event) (hP' event)

theorem Db.Adds.single {db db' : Db} {event : AuditEvent} (h : db'.audits = db.audits ++ [event])
    (hP : P event) : db.Adds P db' :=
  ⟨[event], h, fun _ hmem => List.mem_singleton.mp hmem ▸ hP⟩

/-- The events of a finalization are about the run, by whoever finalizes it. -/
theorem adds_finalizeWith {db db' : Db} {counts : TerminalCounts} {run run' : ScanRun}
    {actor : String} {now : DateTime}
    (hP : ∀ action ∈ ["run.inventory_update_skipped", "run.finalized"], ∀ detail,
      P ⟨actor, action, "scan_run", run.id, detail⟩)
    (h : db.finalizeWith counts run actor now = some (db', run')) : db.Adds P db' := by
  rw [Db.finalizeWith] at h
  split at h
  · obtain ⟨db₁, hrefresh, heq⟩ := Option.map_eq_some_iff.mp h
    cases heq
    have hfirst : db.Adds P db₁ := by
      rw [Db.refreshInventory] at hrefresh
      split at hrefresh
      · cases hrefresh
        exact .of_eq rfl
      · split at hrefresh
        · refine .of_eq ?_
          rw [Db.materialize_frame hrefresh]
          rfl
        · cases hrefresh
          exact .single rfl (hP _ List.mem_cons_self _)
    exact hfirst.trans (.single rfl (hP _ (List.mem_cons_of_mem _ List.mem_cons_self) _))
  · cases h
    exact .of_eq rfl

theorem adds_flush {db db' : Db} {e : Execution} (he : ∀ event ∈ e.audits, P event)
    (h : e.flush db = some db') : ∃ events, db'.audits = db.audits ++ events ∧
      ∀ event ∈ events, P event := by
  obtain ⟨_, _, _, -, -, -, rfl⟩ := Execution.flush_frame h
  exact ⟨e.audits, rfl, he⟩

/-- The rule: what a step of the system appends is pending in a worker's session, says
that a run is finalized or cancelled, or is the one a run creation writes. -/
theorem adds_step {settings : Settings} {s s' : State} {a : Action}
    (hpending : ∀ e ∈ s.executions, ∀ event ∈ e.audits, P event)
    (hfinal : ∀ actor ∈ ["scheduler", "worker"],
      ∀ action ∈ ["run.inventory_update_skipped", "run.finalized"], ∀ runId detail,
        P ⟨actor, action, "scan_run", runId, detail⟩)
    (hcancel : ∀ c ∈ s.cancellations, P ⟨c.actor, "run.cancelled", "scan_run", c.run.id, []⟩)
    (hcreates : a.creates = false) (h : s.step settings a = some s') : s.db.Adds P s'.db := by
  have hworker : "worker" ∈ ["scheduler", "worker"] := by decide
  cases a with
  | createRun => cases hcreates
  | commitCancel p now =>
    obtain ⟨c, shards, hc, -, rfl⟩ := step_commitCancel h
    exact .single rfl (hcancel c (List.mem_of_getElem? hc))
  | finalizeNext p now =>
    obtain ⟨run, _, _, _, -, hfin, rfl⟩ := step_finalizeNext h
    exact adds_finalizeWith
      (fun action haction => hfinal "scheduler" List.mem_cons_self action haction run.id) hfin
  | worker i b =>
    obtain ⟨e, db', e', he, hstep, rfl⟩ := step_worker h
    have hmem := hpending e (List.mem_of_getElem? he)
    rcases Execution.step_cases hstep with ⟨rfl, -⟩ | hc
    · exact .of_eq rfl
    · cases hc with
      | abandon | start => exact .of_eq rfl
      | beat _ _ _ hflush _ _ | beatLost _ _ hflush _ _ =>
        obtain ⟨events, haudits, hevents⟩ := adds_flush hmem hflush
        exact ⟨events, haudits, hevents⟩
      | finish _ _ _ hflush hfin =>
        obtain ⟨events, haudits, hevents⟩ := adds_flush hmem hflush
        have hfinalize := adds_finalizeWith
          (fun action haction => hfinal "worker" hworker action haction _) hfin
        exact Db.Adds.trans ⟨events, haudits, hevents⟩ hfinalize
  | _ =>
    rw [queue_frame h rfl]
    exact .of_eq rfl

end

section
variable {settings : Settings} {s s' : State} {a : Action}

/-- The audit events a worker has pending say nothing about the registry. -/
def Execution.Silent (e : Execution) : Prop := ∀ event ∈ e.audits, event.silent = true

theorem silent_step (hs : ∀ e ∈ s.executions, e.Silent) (h : s.step settings a = some s') :
    ∀ e ∈ s'.executions, e.Silent := by
  refine executions_step h hs ?_ fun _ _ event hevent => absurd hevent List.not_mem_nil
  intro e he i b e' _ hstep event hevent
  rcases (Execution.step_change hstep).audits event hevent with hold | haction | haction
  · exact hs e he event hold
  · simp [AuditEvent.silent, haction]
  · simp [AuditEvent.silent, haction]

/-- Finalizations and cancellations say nothing about the registry either. -/
theorem silent_adds (hs : ∀ e ∈ s.executions, e.Silent) (hcreates : a.creates = false)
    (h : s.step settings a = some s') : s.db.Adds (fun e => e.silent = true) s'.db := by
  refine adds_step hs (fun actor _ action haction runId detail => ?_) (fun c _ => rfl) hcreates h
  rcases List.mem_cons.mp haction with rfl | haction
  · rfl
  · cases List.mem_singleton.mp haction
    rfl

/-- A run stays what it was created as. -/
theorem map_flushRun (db : Db) (loaded assigned : ScanRun) :
    (db.flushRun loaded assigned).runs.rows.map ScanRun.entry = db.runs.rows.map ScanRun.entry :=
  Table.map_modify_eq ScanRun.entry db.runs loaded.id (f := ScanRun.writeBack loaded assigned)
    (fun _ => rfl) fun _ => rfl

theorem registry_step (hcreates : a.creates = false) (h : s.step settings a = some s')
    (schedules : Table ScanSchedule) : s'.db.registry schedules = s.db.registry schedules := by
  obtain ⟨hscopes, hprofiles⟩ := inventory_step h
  have hruns : s'.db.runs.rows.map ScanRun.entry = s.db.runs.rows.map ScanRun.entry := by
    rcases runs_step h with heq | ⟨_, _, _, _, _, _, rfl, -⟩ | ⟨_, _, _, _, -, -, -, heq⟩ |
      ⟨_, _, _, -, -, heq⟩ | ⟨_, _, _, -, -, heq⟩
    · rw [heq]
    · cases hcreates
    · rw [heq, map_flushRun]
    · rw [heq, map_flushRun]
    · rw [heq, map_flushRun]
  rw [Db.registry, Db.registry, hscopes, hprofiles, hruns]

theorem system_records (hs : ∀ e ∈ s.executions, e.Silent) (hcreates : a.creates = false)
    (h : s.step settings a = some s') (schedules : Table ScanSchedule) :
    Records (s.db.journal schedules) (s'.db.journal schedules) := by
  obtain ⟨events, haudits, hsilent⟩ := silent_adds hs hcreates h
  refine .silent haudits (registry_step hcreates h schedules) fun event hevent v => ?_
  exact record_silent (hsilent event hevent) v

end

/-! ## Runs -/

def Control.journal (s : Control) : Entry AuditEvent Registry := s.base.db.journal s.schedules

def Control.Silent (s : Control) : Prop := ∀ e ∈ s.base.executions, e.Silent

def Service.journal (s : Service) : Entry AuditEvent Registry := s.control.journal

theorem control_records {d : Deployment} {s s' : Control} {a : ControlAction} (hs : s.Silent)
    (h : s.step d a = some s') : s'.Silent ∧ Records s.journal s'.journal := by
  cases a with
  | request q =>
    obtain ⟨db, hok, hbase⟩ := control_request h
    rw [Control.Silent, Control.journal, Control.journal, hbase]
    exact ⟨hs, performed_records (perform_ok hok)⟩
  | dispatchDue now ids =>
    obtain ⟨db, hpass, hbase⟩ := control_dispatchDue h
    rw [Control.Silent, Control.journal, Control.journal, hbase]
    refine ⟨hs, ?_⟩
    have hloop := dispatchLoop_records (d := d) now ids (dueSchedules s.schedules now) s.base.db
      s.schedules
    rw [hpass] at hloop
    exact hloop
  | system a =>
    obtain ⟨hcreates, hstep, hschedules⟩ := control_system h
    rw [Control.journal, Control.journal, hschedules]
    exact ⟨silent_step hs hstep, system_records hs hcreates hstep _⟩

/-- A call is a request or a provisioning, or it leaves the control plane alone. -/
theorem service_records {api : Api} {s s' : Service} {a : ServiceAction}
    (hs : s.control.Silent) (h : s.step api a = some s') :
    s'.control.Silent ∧ Records s.journal s'.journal := by
  cases a with
  | call c =>
    cases service_call h with
    | refused | known => exact ⟨hs, .refl _⟩
    | provisioned => exact ⟨hs, .single rfl rfl⟩
    | performed _ _ hstep => exact control_records hs hstep
  | internal a =>
    obtain ⟨-, hstep, -⟩ := service_internal h
    exact control_records hs hstep

theorem service_log_replays (api : Api) (users : Table User)
    (tr : List (Transition Service ServiceAction)) (t : Service)
    (h : Path (Service.step api) (Service.initial users) tr t) :
    Replayed Registry.record {} Service.journal tr t := by
  have hinitial : (Service.initial users).control.Silent := fun _ he => absurd he List.not_mem_nil
  exact path_replays h hinitial (fun _ _ _ => service_records) rfl

/-- The audit log says what the tables hold, and a part of it what they held. -/
theorem audit_log_replays (d : Deployment) (tr : List (Transition Control ControlAction))
    (t : Control) (h : Path (Control.step d) Control.initial tr t) :
    Replayed Registry.record {} Control.journal tr t :=
  path_replays h (fun _ he => absurd he List.not_mem_nil) (fun _ _ _ => control_records) rfl

/-- The log of a scheduled run, and what it says. -/
theorem audit_log_replays_scheduled :
    ∃ tr t, Path (Control.step {}) Control.initial tr t ∧
      Replayed Registry.record {} Control.journal tr t ∧
      t.base.db.audits.map AuditEvent.action =
        ["inventory_scope.created", "inventory_scope.approved", "scan_profile.created",
          "schedule.created", "run.created", "schedule.dispatched"] ∧
      t.journal.view =
        { scopes := [⟨"scope", "10.0.0.0/23", true⟩], profiles := [⟨"profile", 1⟩],
          schedules := [⟨"schedule", 60, "operator", true⟩],
          runs := [⟨"run", "scope", "profile", "operator"⟩] } := by
  have hrun : (runAll (Control.step {}) Control.initial Demo.scheduled).map
      (fun t => (t.base.db.audits.map AuditEvent.action, t.journal.view)) =
      some (["inventory_scope.created", "inventory_scope.approved", "scan_profile.created",
          "schedule.created", "run.created", "schedule.dispatched"],
        { scopes := [⟨"scope", "10.0.0.0/23", true⟩], profiles := [⟨"profile", 1⟩],
          schedules := [⟨"schedule", 60, "operator", true⟩],
          runs := [⟨"run", "scope", "profile", "operator"⟩] }) := by
    decide +kernel
  obtain ⟨tr, t, hp, hobs⟩ := Path.of_runAll_map hrun
  obtain ⟨haudits, hview⟩ := Prod.mk.inj hobs
  exact ⟨tr, t, hp, audit_log_replays {} tr t hp, haudits, hview⟩

end TransportLookout
