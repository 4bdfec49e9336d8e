/-
Who is behind an event.

The actor of an event is the subject of a user who asked for what it says, or the
scheduler or a worker that did it unasked.  The caller's session is long over when a
scheduler pass creates a run in the name of whoever set up the schedule, and a
cancellation commits after the request that loaded it; the name each of them writes
goes back to the call all the same.  A step appends to the log and takes nothing from it.
-/
import TransportLookout.Safety.Authority
import TransportLookout.Safety.Journal

namespace TransportLookout

open Relational Trace

/-- What the log says of a call by `subject`. -/
inductive Attests (subject : String) : Route → AuditEvent → Prop
  | provisioned {payload targetId} :
      Attests subject (.provisionUser payload.subject payload targetId)
        ⟨subject, "user.provisioned", "user", targetId,
          [("subject", .text payload.subject), ("role", .text payload.role.value)]⟩
  | scopeCreated {payload id detail} :
      Attests subject (.addScope payload id)
        ⟨subject, "inventory_scope.created", "inventory_scope", id, detail⟩
  | scopeImported {body ids i detail} :
      Attests subject (.importScopesCsv body ids)
        ⟨subject, "inventory_scope.imported", "inventory_scope", ids i, detail⟩
  | scopeApproved {scopeId} :
      Attests subject (.approveScope scopeId)
        ⟨subject, "inventory_scope.approved", "inventory_scope", scopeId, []⟩
  | scopeDeleted {scopeId detail} :
      Attests subject (.deleteScope scopeId)
        ⟨subject, "inventory_scope.deleted", "inventory_scope", scopeId, detail⟩
  | profileCreated {payload id detail} :
      Attests subject (.addProfile payload id)
        ⟨subject, "scan_profile.created", "scan_profile", id, detail⟩
  | profileDeleted {profileId detail} :
      Attests subject (.deleteProfile profileId)
        ⟨subject, "scan_profile.deleted", "scan_profile", profileId, detail⟩
  | scheduleCreated {payload id now} :
      Attests subject (.addSchedule payload id now)
        ⟨subject, "schedule.created", "scan_schedule", id,
          [("interval_minutes", .number payload.intervalMinutes)]⟩
  | scheduleDisabled {scheduleId} :
      Attests subject (.disableSchedule scheduleId)
        ⟨subject, "schedule.disabled", "scan_schedule", scheduleId, []⟩
  | runCreated {scopeId profileId ids} :
      Attests subject (.addRun scopeId profileId ids)
        ⟨subject, "run.created", "scan_run", ids.runId,
          [("scope_id", .text scopeId), ("profile_id", .text profileId)]⟩
  /-- A run of the schedule, whenever it was due. -/
  | runScheduled {payload id now runId} :
      Attests subject (.addSchedule payload id now)
        ⟨subject, "run.created", "scan_run", runId,
          [("scope_id", .text payload.inventoryScopeId), ("profile_id", .text payload.profileId)]⟩
  | runCancelled {runId} :
      Attests subject (.cancel runId) ⟨subject, "run.cancelled", "scan_run", runId, []⟩

/-- What the scheduler and the workers write in their own names. -/
def AuditEvent.automatic (e : AuditEvent) : Bool :=
  (e.actor, e.action) ∈ [("scheduler", "schedule.disabled"), ("scheduler", "schedule.dispatched"),
    ("scheduler", "run.inventory_update_skipped"), ("scheduler", "run.finalized"),
    ("worker", "shard.discovery.completed"), ("worker", "shard.confirmation.skipped"),
    ("worker", "run.inventory_update_skipped"), ("worker", "run.finalized")]

def Accounted (api : Api) (tr : List (Transition Service ServiceAction)) (e : AuditEvent) : Prop :=
  e.automatic = true ∨ Called api tr fun _ user route => Attests user.subject route e

theorem Db.Adds.imp {P Q : AuditEvent → Prop} {db db' : Db} (h : db.Adds P db')
    (himp : ∀ event, P event → Q event) : db.Adds Q db' := by
  obtain ⟨events, haudits, hevents⟩ := h
  exact ⟨events, haudits, fun event hevent => himp event (hevents event hevent)⟩

/-! ## Requests -/

/-- What a request writes is about the call it comes from. -/
theorem performed_attests {api : Api} {db db' : Db} {schedules schedules' : Table ScanSchedule}
    {q : Request} {actor : String} {route : Route}
    (h : Performed api.deployment db schedules q db' schedules')
    (hasks : Asks api actor route (.request q)) : db.Adds (Attests actor route) db' := by
  cases h with
  | addScope =>
    cases hasks
    exact .single rfl .scopeCreated
  | importScopes =>
    cases hasks
    refine ⟨_, rfl, fun event hevent => ?_⟩
    obtain ⟨scope, hscope, rfl⟩ := List.mem_map.mp hevent
    obtain ⟨i, hi, rfl⟩ := List.mem_mapIdx.mp hscope
    exact .scopeImported
  | approveScope hscope =>
    cases hasks
    have hid := Table.get_key hscope
    exact .single rfl (hid ▸ .scopeApproved)
  | deleteScope hscope =>
    cases hasks
    have hid := Table.get_key hscope
    exact .single rfl (hid ▸ .scopeDeleted)
  | addProfile =>
    cases hasks
    exact .single rfl .profileCreated
  | deleteProfile hprofile =>
    cases hasks
    have hid := Table.get_key hprofile
    exact .single rfl (hid ▸ .profileDeleted)
  | addSchedule _ _ _ _ hschedule =>
    cases hasks
    subst hschedule
    exact .single rfl .scheduleCreated
  | disableSchedule hschedule =>
    cases hasks
    have hid := Table.get_key hschedule
    exact .single rfl (hid ▸ .scheduleDisabled)
  | addRun hscope hprofile hcreated =>
    cases hasks
    have hscopeId := Table.get_key hscope
    have hprofileId := Table.get_key hprofile
    have haudits := congrArg Db.audits hcreated.frame
    exact .single haudits (hscopeId ▸ hprofileId ▸ .runCreated)

/-! ## What is written later -/

/-- The schedule was set up for this, by this user. -/
def Plans (schedule : ScanSchedule) (_ : Service) (user : User) (route : Route) : Prop :=
  ∃ payload now, route = .addSchedule payload schedule.id now ∧
    schedule.order = ⟨user.subject, payload.inventoryScopeId, payload.profileId⟩

section
variable {api : Api} {tr : List (Transition Service ServiceAction)}

theorem plans_runs {schedule : ScanSchedule} {scope : InventoryScope} {profile : ScanProfile}
    {runId : Uuid} (h : Called api tr (Plans schedule))
    (hscope : scope.id = schedule.inventoryScopeId) (hprofile : profile.id = schedule.profileId) :
    Accounted api tr ⟨schedule.createdBy, "run.created", "scan_run", runId,
      [("scope_id", .text scope.id), ("profile_id", .text profile.id)]⟩ := by
  refine Or.inr (h.imp fun s user route _ hplans => ?_)
  obtain ⟨payload, now, rfl, horder⟩ := hplans
  obtain ⟨hactor, hscopeId, hprofileId⟩ := Order.mk.inj horder
  rw [hscope, hprofile, hactor, hscopeId, hprofileId]
  exact .runScheduled

/-- A pass writes that a schedule was handled, and the runs in the name of its creator. -/
theorem dispatchLoop_accounts {d : Deployment} (now : DateTime) (ids : Uuid → RunIds)
    (due : List ScanSchedule) (hdue : ∀ schedule ∈ due, Called api tr (Plans schedule)) (db : Db)
    (schedules : Table ScanSchedule) :
    db.Adds (Accounted api tr) (dispatchLoop d.policy d.isIpv6 now ids due db schedules).1 := by
  induction due generalizing db schedules with
  | nil => exact .of_eq rfl
  | cons schedule due ih =>
    have hrest := ih fun r hr => hdue r (List.mem_cons_of_mem schedule hr)
    rw [dispatchLoop]
    split
    · have hdisabled : db.Adds (Accounted api tr) (db.auditDisabled schedule) :=
        .single rfl (Or.inl rfl)
      exact hdisabled.trans (hrest _ _)
    · next scope profile hdispatch =>
      split
      · exact .of_eq rfl
      · next db₁ hok =>
        obtain ⟨hscope, hprofile⟩ := dispatchable_eq_some hdispatch
        have hcreated : db.Adds (Accounted api tr) db₁ :=
          .single (congrArg Db.audits (createRunIn_created hok).frame)
            (plans_runs (hdue schedule List.mem_cons_self) (Table.get_key hscope)
              (Table.get_key hprofile))
        have hdispatched : db₁.Adds (Accounted api tr) (db₁.auditDispatched schedule) :=
          .single rfl (Or.inl rfl)
        exact hcreated.trans (hdispatched.trans (hrest _ _))

end

/-- Only the end of the discovery adds events to a session. -/
theorem Execution.Move.audits {settings : Settings} {db : Db} {e e' : Execution} {a : WorkerAction}
    (h : Execution.Move settings db e a e') (ha : a ≠ .storeDiscovery) :
    e'.audits = e.audits ∨ e'.audits = [] := by
  cases h with
  | storeDiscovery => exact absurd rfl ha
  | missing | lost => exact Or.inr rfl
  | _ => exact Or.inl rfl

theorem Execution.Commit.audits {db db' : Db} {e e' : Execution} {a : WorkerAction}
    (h : Execution.Commit db e a db' e') : e'.audits = e.audits ∨ e'.audits = [] := by
  cases h with
  | abandon | start => exact Or.inl rfl
  | beat _ _ _ _ he _ | beatLost _ _ _ he _ =>
    right
    rw [he]
    rfl
  | finish => exact Or.inr rfl

/-- A worker adds events to its session in its own name. -/
theorem Execution.step_automatic {settings : Settings} {db db' : Db} {e e' : Execution}
    {a : WorkerAction} (h : e.step db settings a = some (db', e')) :
    ∀ event ∈ e'.audits, event ∈ e.audits ∨ event.automatic = true := by
  by_cases ha : a = .storeDiscovery
  · -- `Move` keeps the actions of these events and not their actor
    subst ha
    intro event hevent
    simp only [Execution.step] at h
    split at h
    · split at h
      · cases h
        rcases List.mem_append.mp hevent with hold | hnew
        · exact Or.inl hold
        · simp only [List.mem_cons, List.not_mem_nil, or_false] at hnew
          rcases hnew with rfl | rfl
          · exact Or.inr rfl
          · exact Or.inr rfl
      · cases h
        rcases List.mem_append.mp hevent with hold | hnew
        · exact Or.inl hold
        · cases List.mem_singleton.mp hnew
          exact Or.inr rfl
    · cases h
  · have haudits : e'.audits = e.audits ∨ e'.audits = [] := by
      rcases Execution.step_cases h with ⟨-, hmove⟩ | hcommit
      · exact hmove.audits ha
      · exact hcommit.audits
    intro event hevent
    rcases haudits with hsame | hnone
    · rw [hsame] at hevent
      exact Or.inl hevent
    · rw [hnone] at hevent
      cases hevent

/-- What is still to be written down goes back to a call, or is automatic. -/
structure Accountable (api : Api) (tr : List (Transition Service ServiceAction)) (s : Control) :
    Prop where
  schedule : ∀ schedule ∈ s.schedules.rows, Called api tr (Plans schedule)
  pending : ∀ e ∈ s.base.executions, ∀ event ∈ e.audits, event.automatic = true

section
variable {api : Api} {tr : List (Transition Service ServiceAction)}

theorem Accountable.append {s : Control} (h : Accountable api tr s)
    (tr' : List (Transition Service ServiceAction)) : Accountable api (tr ++ tr') s where
  schedule := fun schedule hschedule => (h.schedule schedule hschedule).append tr'
  pending := h.pending

/-- The rule: a step of the control plane is accountable if a schedule that is added goes
back to a call, and so does a request that is performed. -/
theorem accountable_control {d : Deployment} {s s' : Control} {b : ControlAction}
    (ha : Accountable api tr s) (h : s.step d b = some s')
    (hplans : ∀ payload actor now schedule,
      b = .request (.addSchedule payload actor schedule.id now) →
      schedule.order = ⟨actor, payload.inventoryScopeId, payload.profileId⟩ →
      Called api tr (Plans schedule)) : Accountable api tr s' where
  schedule := by
    intro schedule hmem
    rcases control_schedules h hmem with ⟨old, hold, hid, horder⟩ |
      ⟨payload, actor, now, hb, horder⟩
    · refine (ha.schedule old hold).imp fun _ _ _ _ hplans => ?_
      rw [Plans, ← hid, ← horder]
      exact hplans
    · exact hplans payload actor now schedule hb horder
  pending := by
    cases b with
    | request q =>
      obtain ⟨db, -, hbase⟩ := control_request h
      rw [hbase]
      exact ha.pending
    | dispatchDue now ids =>
      obtain ⟨db, -, hbase⟩ := control_dispatchDue h
      rw [hbase]
      exact ha.pending
    | system a =>
      obtain ⟨-, hstep, -⟩ := control_system h
      refine executions_step hstep ha.pending ?_ fun _ _ event hevent =>
        absurd hevent List.not_mem_nil
      intro e he i b e' _ hworker event hevent
      rcases Execution.step_automatic hworker event hevent with hold | hnew
      · exact ha.pending e he event hold
      · exact hnew

/-- A step that is no request writes what is pending, or what a scheduler pass does. -/
theorem adds_control {d : Deployment} {s s' : Control} {b : ControlAction}
    (ha : Accountable api tr s)
    (hc : ∀ c ∈ s.base.cancellations, Called api tr (Cancels c.run.id c.actor))
    (hrequest : ∀ q, b ≠ .request q) (h : s.step d b = some s') :
    s.base.db.Adds (Accounted api tr) s'.base.db := by
  cases b with
  | request q => exact absurd rfl (hrequest q)
  | dispatchDue now ids =>
    obtain ⟨db, hpass, hbase⟩ := control_dispatchDue h
    have hdue : ∀ schedule ∈ dueSchedules s.schedules now, Called api tr (Plans schedule) :=
      fun schedule hdue => ha.schedule schedule (Table.mem_select.mp hdue).1
    have hloop := dispatchLoop_accounts (d := d) now ids _ hdue s.base.db s.schedules
    rw [hpass] at hloop
    rw [hbase]
    exact hloop
  | system a =>
    obtain ⟨hcreates, hstep, -⟩ := control_system h
    refine adds_step ?_ ?_ ?_ hcreates hstep
    · exact fun e he event hevent => Or.inl (ha.pending e he event hevent)
    · intro actor hactor action haction runId detail
      left
      simp only [List.mem_cons, List.not_mem_nil, or_false] at hactor haction
      rcases hactor with rfl | rfl
      all_goals rcases haction with rfl | rfl
      all_goals rfl
    · intro c hmem
      refine Or.inr ((hc c hmem).imp fun s user route _ hcancels => ?_)
      obtain ⟨hactor, rfl⟩ := hcancels
      rw [← hactor]
      exact .runCancelled

/-- One step: what it appends goes back to a call, which may be the step itself. -/
theorem accountable_step {s s' : Service} {a : ServiceAction} (ha : Accountable api tr s.control)
    (hc : Custody api tr s.control) (h : s.step api a = some s') :
    Accountable api (tr ++ [⟨s, a, s'⟩]) s'.control ∧
      s.control.base.db.Adds (Accounted api (tr ++ [⟨s, a, s'⟩])) s'.control.base.db := by
  have hkept := ha.append [⟨s, a, s'⟩]
  have hcancel := (hc.append [⟨s, a, s'⟩]).cancellation
  cases a with
  | internal b =>
    obtain ⟨hinternal, hstep, -⟩ := service_internal h
    have hrequest : ∀ q, b ≠ .request q := by
      rintro q rfl
      cases hinternal
    exact ⟨accountable_control hkept hstep fun _ _ _ _ hb => absurd hb (hrequest _),
      adds_control hkept hcancel hrequest hstep⟩
  | call c =>
    have hcalled : ∀ {user users} {P : Service → User → Route → Prop},
        c.Admitted api s.users user users → P s user c.route →
        Called api (tr ++ [⟨s, .call c, s'⟩]) P := fun huser hP =>
      ⟨_, List.mem_append_right tr (List.mem_singleton_self _), c, _, _, rfl, huser, hP⟩
    cases service_call h with
    | refused => exact ⟨hkept, .of_eq rfl⟩
    | known => exact ⟨hkept, .of_eq rfl⟩
    | provisioned huser hroute =>
      refine ⟨⟨hkept.schedule, hkept.pending⟩, .single rfl (Or.inr (hcalled huser ?_))⟩
      rw [hroute]
      exact .provisioned
    | @performed user users b control huser hb hstep =>
      have hasks := action_asks hb
      constructor
      · refine accountable_control hkept hstep fun payload actor now schedule hb horder =>
          hcalled huser ?_
        rw [hb] at hasks
        generalize c.route = route at hasks
        cases hasks
        exact ⟨payload, now, rfl, horder⟩
      · cases b with
        | request q =>
          obtain ⟨db, hok, hbase⟩ := control_request hstep
          have hattests := performed_attests (perform_ok hok) hasks
          rw [hbase]
          exact hattests.imp fun event hevent => Or.inr (hcalled huser hevent)
        | system b => exact adds_control hkept hcancel (by rintro q ⟨⟩) hstep
        | dispatchDue now ids => exact adds_control hkept hcancel (by rintro q ⟨⟩) hstep

theorem service_accountable {users₀ : Table User} {t : Service}
    (h : Path (Service.step api) (Service.initial users₀) tr t) :
    Accountable api tr t.control := by
  induction h with
  | nil =>
    exact ⟨fun _ hschedule => absurd hschedule List.not_mem_nil,
      fun _ he => absurd he List.not_mem_nil⟩
  | snoc hp hs ih => exact (accountable_step ih (service_custody hp).2 hs).1

end

/-- The log of a run: every step appends to it, and whatever is in it was asked for by
the user it names, or is what the scheduler and the workers do. -/
structure LogAccounts (api : Api) (tr : List (Transition Service ServiceAction)) (t : Service) :
    Prop where
  appends : ∀ l x r, tr = l ++ x :: r →
    x.pre.control.base.db.Adds (Accounted api (l ++ [x])) x.post.control.base.db
  account : ∀ e ∈ t.control.base.db.audits, Accounted api tr e

theorem log_accounts (api : Api) (users₀ : Table User)
    (tr : List (Transition Service ServiceAction)) (t : Service)
    (h : Path (Service.step api) (Service.initial users₀) tr t) : LogAccounts api tr t := by
  constructor
  · rintro l x r rfl
    obtain ⟨hl, hx, -⟩ := h.split
    exact (accountable_step (service_accountable hl) (service_custody hl).2 hx).2
  · induction h with
    | nil => exact fun _ he => absurd he List.not_mem_nil
    | @snoc tr s a s' hp hs ih =>
      intro e he
      obtain ⟨events, haudits, hevents⟩ :=
        (accountable_step (service_accountable hp) (service_custody hp).2 hs).2
      rw [haudits] at he
      rcases List.mem_append.mp he with hold | hnew
      · exact (ih e hold).imp id fun hcalled => hcalled.append _
      · exact hevents e hnew

/-- The operator's schedule, and a pass of the scheduler. -/
def Demo.planned : List ServiceAction :=
  [Demo.calls "manager" (.addScope { name := "office", cidr := "10.0.0.0/23" } "scope"),
    Demo.calls "admin" (.approveScope "scope"),
    Demo.calls "admin" (.addProfile { name := "wide", ports := "1-1024" } "profile"),
    Demo.calls "operator" (.addSchedule
      { name := "nightly", inventoryScopeId := "scope", profileId := "profile",
        intervalMinutes := 60, interval_ge := Nat.le_add_right 15 45 } "schedule" 0),
    .internal (.dispatchDue 0 fun _ => ⟨"run", fun i => if i = 0 then "s1" else "s2"⟩)]

/-- The run is created in the operator's name, while nobody is there to ask for it. -/
theorem log_accounts_planned :
    ∃ tr t, Path (Service.step Demo.api) (Service.initial Demo.users) tr t ∧
      LogAccounts Demo.api tr t ∧
      t.control.base.db.audits.map (fun e => (e.actor, e.action)) =
        [("manager", "inventory_scope.created"), ("admin", "inventory_scope.approved"),
          ("admin", "scan_profile.created"), ("operator", "schedule.created"),
          ("operator", "run.created"), ("scheduler", "schedule.dispatched")] := by
  have hrun : (runAll (Service.step Demo.api) (Service.initial Demo.users) Demo.planned).map
      (fun t => t.control.base.db.audits.map fun e => (e.actor, e.action)) =
      some [("manager", "inventory_scope.created"), ("admin", "inventory_scope.approved"),
          ("admin", "scan_profile.created"), ("operator", "schedule.created"),
          ("operator", "run.created"), ("scheduler", "schedule.dispatched")] := by
    decide +kernel
  obtain ⟨tr, t, hp, haudits⟩ := Path.of_runAll_map hrun
  exact ⟨tr, t, hp, log_accounts Demo.api Demo.users tr t hp, haudits⟩

end TransportLookout
