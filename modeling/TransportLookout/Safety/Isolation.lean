/-
One schedule's failure and the other schedules of a pass.

`DuePass` is `dispatch_due_schedules`, statement by statement, while the rest of the
system goes on: the dispatch that ends `create_run` is among its steps.  `uuid4` does
not repeat itself, so a run and its shards get ids no row has.  `create_run` is called
outside any `try`.  What it raises ends the pass, and the schedule stays due.
-/
import Mathlib.Algebra.Order.BigOperators.Group.List
import TransportLookout.System.Scheduling

namespace TransportLookout

open Relational Trace

/-! ## Ids -/

/-- No row has the ids. -/
structure RunIds.Fresh (ids : RunIds) (db : Db) : Prop where
  run : db.runs.get ids.runId = none
  shards : ∀ i, db.shards.get (ids.shardId i) = none
  distinct : Function.Injective ids.shardId

/-- Names longer than those there are. -/
def longName (n : Nat) : Uuid := String.ofList (List.replicate n 'x')

theorem length_longName (n : Nat) : (longName n).length = n := by
  simp only [longName, String.length_ofList, List.length_replicate]

theorem get_longName {ρ : Type} [Keyed ρ Uuid] (t : Table ρ) :
    ∃ n, ∀ m, n ≤ m → t.get (longName m) = none := by
  refine ⟨(t.rows.map fun r => (Keyed.key r : Uuid).length).sum + 1, fun m hm => ?_⟩
  refine Option.eq_none_iff_forall_ne_some.mpr fun r hr => ?_
  have hle := List.single_le_sum (fun _ _ => Nat.zero_le _) _
    (List.mem_map_of_mem (f := fun r : ρ => (Keyed.key r : Uuid).length) (Table.get_mem hr))
  rw [Table.get_key hr, length_longName] at hle
  omega

theorem exists_fresh (db : Db) : ∃ run : RunIds, run.Fresh db := by
  obtain ⟨n, hn⟩ := get_longName db.runs
  obtain ⟨m, hm⟩ := get_longName db.shards
  refine ⟨⟨longName n, fun i => longName (m + i)⟩, hn n (Nat.le_refl n),
    fun i => hm _ (Nat.le_add_right m i), fun i j hij => ?_⟩
  have hlength := congrArg String.length hij
  simp only [length_longName] at hlength
  omega

/-! ## A pass -/

/-- `DuePass d now standing due s t created stop`: from `s`, a pass that has created a run for
`standing` and not advanced it, with the schedules `due` still to handle, ends in `t`.  It
creates the runs `created` and ends with the exception `stop`, or normally. -/
inductive DuePass (d : Deployment) (now : DateTime) : Option ScanSchedule → List ScanSchedule →
    Control → Control → List ScheduledRun → Option Refusal → Prop
  | finished {s} : DuePass d now none [] s s [] none
  | system {standing due s base t created stop} (a : Action) (hcreates : a.creates = false)
      (hstep : s.base.step d.settings a = some base)
      (hrest : DuePass d now standing due { s with base := base } t created stop) :
      DuePass d now standing due s t created stop
  | disable {schedule due s t created stop}
      (htarget : dispatchable (s.base.db.scopes.get schedule.inventoryScopeId)
        (s.base.db.profiles.get schedule.profileId) = none)
      (hrest : DuePass d now none due
        { base := { s.base with db := s.base.db.auditDisabled schedule }
          schedules := disable s.schedules schedule.id } t created stop) :
      DuePass d now none (schedule :: due) s t created stop
  | raise {schedule due s scope profile} {run : RunIds} {e : Refusal} (hfresh : run.Fresh s.base.db)
      (htarget : dispatchable (s.base.db.scopes.get schedule.inventoryScopeId)
        (s.base.db.profiles.get schedule.profileId) = some (scope, profile))
      (hcreate : s.base.db.createRunIn d.policy d.isIpv6 scope profile schedule.createdBy run.runId
        run.shardId = .error e) :
      DuePass d now none (schedule :: due) s s [] (some e)
  | create {schedule due s scope profile db t created stop} {run : RunIds}
      (hfresh : run.Fresh s.base.db)
      (htarget : dispatchable (s.base.db.scopes.get schedule.inventoryScopeId)
        (s.base.db.profiles.get schedule.profileId) = some (scope, profile))
      (hcreate : s.base.db.createRunIn d.policy d.isIpv6 scope profile schedule.createdBy run.runId
        run.shardId = .ok db)
      (hrest : DuePass d now (some schedule) due { s with base := { s.base with db := db } } t
        created stop) :
      DuePass d now none (schedule :: due) s t
        (⟨run.runId, schedule.id, schedule.nextRunAt⟩ :: created) stop
  | advance {schedule due s t created stop}
      (hrest : DuePass d now none due
        { base := { s.base with db := s.base.db.auditDispatched schedule }
          schedules := advance s.schedules schedule now } t created stop) :
      DuePass d now (some schedule) due s t created stop

/-- A pass at `now`, which loads the due schedules in some order. -/
def Control.Dispatches (d : Deployment) (now : DateTime) (s t : Control)
    (created : List ScheduledRun) (stop : Option Refusal) : Prop :=
  ∃ due, due.Perm (dueSchedules s.schedules now) ∧ DuePass d now none due s t created stop

/-- `create_run` does not raise for the schedule, or is not called: `shard_cidr` cuts its scope. -/
def ScanSchedule.cuts (d : Deployment) (db : Db) (schedule : ScanSchedule) : Bool :=
  (dispatchable (db.scopes.get schedule.inventoryScopeId)
    (db.profiles.get schedule.profileId)).all fun (scope, _) =>
      match shardCidr d.policy d.isIpv6 scope.cidr with
      | .ok _ => true
      | .error _ => false

/-! ## Creating a run -/

section
variable {d : Deployment} {now : DateTime} {standing : Option ScanSchedule}
  {due : List ScanSchedule} {s t : Control} {created : List ScheduledRun} {stop : Option Refusal}

theorem createRun_fresh {db : Db} {scope : InventoryScope} {profile : ScanProfile}
    {ids : RunIds} (hfresh : ids.Fresh db) (happroved : scope.approved = true)
    (hzone : scope.zone = profile.zone) (actor : String) (cidrs : List String) :
    ∃ db', db.createRun scope profile actor ids.runId
      (cidrs.mapIdx fun i cidr => (ids.shardId i, cidr)) = .ok db' := by
  rw [Db.createRun, if_neg (by rw [happroved]; exact Bool.false_ne_true),
    if_neg (not_not_intro hzone)]
  obtain ⟨runs, hruns⟩ := Table.append?_of_fresh (t := db.runs)
    (l := [{ id := ids.runId, inventoryScopeId := scope.id, profileId := profile.id,
             requestedBy := actor }]) (List.nodup_singleton _)
    (List.forall_mem_singleton.mpr hfresh.run)
  obtain ⟨shards, hshards⟩ := Table.append?_of_fresh (t := db.shards)
    (l := (cidrs.mapIdx fun i cidr => (ids.shardId i, cidr)).map fun shard =>
      { id := shard.1, runId := ids.runId, cidr := shard.2, zone := scope.zone : ScanShard }) (by
      rw [List.map_map]
      exact Table.nodup_mapIdx (fun _ _ => rfl) hfresh.distinct) (fun r hr => by
      obtain ⟨shard, hshard, rfl⟩ := List.mem_map.mp hr
      obtain ⟨i, hi, rfl⟩ := List.mem_mapIdx.mp hshard
      exact hfresh.shards i)
  dsimp only
  rw [hruns, hshards]
  exact ⟨_, rfl⟩

/-- With new ids, `create_run` raises what `shard_cidr` raises. -/
theorem createRunIn_fresh {db : Db} {scope : InventoryScope} {profile : ScanProfile}
    {ids : RunIds} (hfresh : ids.Fresh db) (happroved : scope.approved = true)
    (hzone : scope.zone = profile.zone) (actor : String) :
    (∃ db', db.createRunIn d.policy d.isIpv6 scope profile actor ids.runId ids.shardId = .ok db') ↔
      ∃ cidrs, shardCidr d.policy d.isIpv6 scope.cidr = .ok cidrs := by
  constructor
  · rintro ⟨db', hok⟩
    obtain ⟨cidrs, hcidrs, -⟩ := Db.createRunIn_ok hok
    exact ⟨cidrs, hcidrs⟩
  · rintro ⟨cidrs, hcidrs⟩
    obtain ⟨db₀, hempty⟩ := createRun_fresh hfresh happroved hzone actor []
    obtain ⟨db', hok⟩ := createRun_fresh hfresh happroved hzone actor cidrs
    rw [List.mapIdx_nil] at hempty
    refine ⟨db', ?_⟩
    rw [Db.createRunIn, hempty]
    dsimp only
    rw [hcidrs]
    dsimp only
    rw [hok]

theorem dispatchable_checked {scope : Option InventoryScope} {profile : Option ScanProfile}
    {x : InventoryScope × ScanProfile} (h : dispatchable scope profile = some x) :
    x.1.approved = true ∧ x.1.zone = x.2.zone := by
  unfold dispatchable at h
  split at h
  · split at h
    · cases h
    · next hchecked =>
      cases h
      rw [Bool.or_eq_true, not_or, Bool.not_eq_true', Bool.not_eq_false, decide_eq_true_eq,
        not_not] at hchecked
      exact hchecked
  · cases h

theorem cuts_iff {db : Db} {schedule : ScanSchedule} {scope : InventoryScope}
    {profile : ScanProfile}
    (htarget : dispatchable (db.scopes.get schedule.inventoryScopeId)
      (db.profiles.get schedule.profileId) = some (scope, profile)) :
    schedule.cuts d db = true ↔ ∃ cidrs, shardCidr d.policy d.isIpv6 scope.cidr = .ok cidrs := by
  rw [ScanSchedule.cuts, htarget, Option.all_some]
  dsimp only
  cases shardCidr d.policy d.isIpv6 scope.cidr with
  | ok cidrs => exact iff_of_true rfl ⟨cidrs, rfl⟩
  | error e => exact iff_of_false Bool.false_ne_true (fun ⟨_, h⟩ => by cases h)

theorem cuts_frame {db db' : Db} (hscopes : db'.scopes = db.scopes)
    (hprofiles : db'.profiles = db.profiles) (schedule : ScanSchedule) :
    schedule.cuts d db' = schedule.cuts d db := by
  rw [ScanSchedule.cuts, hscopes, hprofiles, ScanSchedule.cuts]

/-- A created run joins those there are, and no scope or profile changes. -/
theorem createRunIn_rows {db db' : Db} {scope : InventoryScope} {profile : ScanProfile}
    {actor : String} {ids : RunIds}
    (h : db.createRunIn d.policy d.isIpv6 scope profile actor ids.runId ids.shardId = .ok db') :
    db'.scopes = db.scopes ∧ db'.profiles = db.profiles ∧
      (∃ run, db'.runs.get ids.runId = some run ∧ run.pair = (scope.id, profile.id)) ∧
      (∀ k run, db.runs.get k = some run → db'.runs.get k = some run) ∧
      ∀ k, k ≠ ids.runId → db.runs.get k = none → db'.runs.get k = none := by
  obtain ⟨cidrs, -, hok⟩ := Db.createRunIn_ok h
  obtain ⟨-, -, hruns, -, hframe⟩ := Db.createRun_ok hok
  have hrow := Table.get_append?_of_mem hruns (List.mem_singleton_self _)
  refine ⟨?_, ?_, ⟨_, hrow, rfl⟩, fun k run hrun => Table.get_append?_of_get hruns hrun, ?_⟩
  · rw [hframe]
  · rw [hframe]
  · intro k hk hnone
    refine Option.eq_none_iff_forall_ne_some.mpr fun run hrun => ?_
    rcases Table.get_append? hruns hrun with hold | ⟨hnew, -⟩
    · rw [hnone] at hold
      cases hold
    · cases List.mem_singleton.mp hnew
      exact hk (Table.get_key hrun).symm

/-! ## What a pass leaves alone -/

theorem DuePass.frame (h : DuePass d now standing due s t created stop) :
    t.base.db.scopes = s.base.db.scopes ∧ t.base.db.profiles = s.base.db.profiles := by
  induction h with
  | finished | raise => exact ⟨rfl, rfl⟩
  | system a hcreates hstep hrest ih =>
    obtain ⟨hscopes, hprofiles⟩ := inventory_step hstep
    exact ⟨ih.1.trans hscopes, ih.2.trans hprofiles⟩
  | disable _ _ ih | advance _ ih => exact ih
  | create _ _ hcreate _ ih =>
    obtain ⟨hscopes, hprofiles, -⟩ := createRunIn_rows hcreate
    exact ⟨ih.1.trans hscopes, ih.2.trans hprofiles⟩

/-- A run keeps its scope and its profile. -/
theorem DuePass.run_kept (h : DuePass d now standing due s t created stop) {k : Uuid}
    {run : ScanRun} (hrun : s.base.db.runs.get k = some run) :
    ∃ run', t.base.db.runs.get k = some run' ∧ run'.pair = run.pair := by
  induction h generalizing run with
  | finished | raise => exact ⟨run, hrun, rfl⟩
  | system a hcreates hstep hrest ih =>
    obtain ⟨run₁, hrun₁, hsame⟩ := run_step hstep hrun
    have hpair : run₁.pair = run.pair := by
      rcases hsame with rfl | hstep
      · rfl
      · exact hstep.pair
    obtain ⟨run', hrun', hpair'⟩ := ih hrun₁
    exact ⟨run', hrun', hpair'.trans hpair⟩
  | disable _ _ ih | advance _ ih => exact ih hrun
  | create _ _ hcreate _ ih =>
    obtain ⟨-, -, -, hkept, -⟩ := createRunIn_rows hcreate
    exact ih (hkept k run hrun)

theorem DuePass.created_new (h : DuePass d now standing due s t created stop) :
    (created.map ScheduledRun.runId).Nodup ∧
      ∀ r ∈ created, s.base.db.runs.get r.runId = none := by
  induction h with
  | finished | raise => exact ⟨List.nodup_nil, fun _ hr => absurd hr List.not_mem_nil⟩
  | @system _ _ s base _ _ _ a hcreates hstep hrest ih =>
    refine ⟨ih.1, fun r hr => Option.eq_none_iff_forall_ne_some.mpr fun run hrun => ?_⟩
    obtain ⟨run', hrun', -⟩ := run_step hstep hrun
    have hnone : base.db.runs.get r.runId = none := ih.2 r hr
    rw [hnone] at hrun'
    cases hrun'
  | disable _ _ ih | advance _ ih => exact ih
  | @create _ _ s _ _ db _ created _ ids hfresh _ hcreate _ ih =>
    obtain ⟨-, -, ⟨run, hrun, -⟩, hkept, -⟩ := createRunIn_rows hcreate
    have hnew : ∀ r ∈ created, db.runs.get r.runId = none := ih.2
    refine ⟨?_, fun r hr => ?_⟩
    · rw [List.map_cons]
      refine List.nodup_cons.mpr ⟨fun hin => ?_, ih.1⟩
      obtain ⟨r, hr, hid⟩ := List.mem_map.mp hin
      have hnone := hnew r hr
      rw [hid, hrun] at hnone
      cases hnone
    · rcases List.mem_cons.mp hr with rfl | hr
      · exact hfresh.run
      · refine Option.eq_none_iff_forall_ne_some.mpr fun run hrun => ?_
        have hnone := hnew r hr
        rw [hkept _ _ hrun] at hnone
        cases hnone

/-- Only the schedules it handles are changed by a pass, and of them those it gets through. -/
theorem DuePass.schedule_kept (h : DuePass d now standing due s t created stop) {k : Uuid}
    (hstanding : ∀ x, standing = some x → x.id ≠ k)
    (hdue : ∀ x ∈ due, x.id = k → x.cuts d s.base.db = false) :
    t.schedules.get k = s.schedules.get k := by
  induction h with
  | finished | raise => rfl
  | system a hcreates hstep hrest ih =>
    obtain ⟨hscopes, hprofiles⟩ := inventory_step hstep
    refine ih hstanding fun x hx hid => ?_
    rw [cuts_frame hscopes hprofiles]
    exact hdue x hx hid
  | @disable schedule _ s _ _ _ htarget _ ih =>
    have hne : k ≠ schedule.id := by
      intro hid
      have huncut := hdue schedule List.mem_cons_self hid.symm
      rw [ScanSchedule.cuts, htarget] at huncut
      cases huncut
    refine (ih (fun _ hnone => by cases hnone) fun x hx hid =>
      hdue x (List.mem_cons_of_mem _ hx) hid).trans ?_
    show (TransportLookout.disable s.schedules schedule.id).get k = s.schedules.get k
    rw [TransportLookout.disable, Table.get_modify]
    simp only [if_neg hne, Option.map_id']
  | @create schedule _ s scope profile _ _ _ _ ids hfresh htarget hcreate _ ih =>
    obtain ⟨hscopes, hprofiles, -⟩ := createRunIn_rows hcreate
    obtain ⟨happroved, hzone⟩ := dispatchable_checked htarget
    refine ih (fun x hx hid => ?_) fun x hx hid => ?_
    · cases hx
      have huncut := hdue schedule List.mem_cons_self hid
      have hcut := (cuts_iff htarget).mpr
        ((createRunIn_fresh hfresh happroved hzone _).mp ⟨_, hcreate⟩)
      rw [huncut] at hcut
      cases hcut
    · rw [cuts_frame hscopes hprofiles]
      exact hdue x (List.mem_cons_of_mem _ hx) hid
  | @advance schedule _ s _ _ _ _ ih =>
    have hne : k ≠ schedule.id := fun hid => hstanding schedule rfl hid.symm
    refine (ih (fun _ hnone => by cases hnone) hdue).trans ?_
    show (TransportLookout.advance s.schedules schedule now).get k = s.schedules.get k
    rw [TransportLookout.advance, Table.get_modify]
    simp only [if_neg hne, Option.map_id']

/-! ## How a pass ends -/

/-- A pass ends normally exactly when `create_run` raises for no schedule of it. -/
theorem DuePass.ends_iff (h : DuePass d now standing due s t created stop) :
    stop = none ↔ ∀ x ∈ due, x.cuts d s.base.db = true := by
  induction h with
  | finished => exact iff_of_true rfl fun _ hx => absurd hx List.not_mem_nil
  | system a hcreates hstep hrest ih =>
    obtain ⟨hscopes, hprofiles⟩ := inventory_step hstep
    refine ih.trans (forall₂_congr fun x _ => ?_)
    rw [cuts_frame hscopes hprofiles]
  | @disable schedule _ s _ _ _ htarget _ ih =>
    refine ih.trans ?_
    have hcut : schedule.cuts d s.base.db = true := by
      rw [ScanSchedule.cuts, htarget]
      rfl
    rw [List.forall_mem_cons]
    exact ⟨fun hrest => ⟨hcut, hrest⟩, fun hall => hall.2⟩
  | @raise schedule _ s _ _ _ _ hfresh htarget hcreate =>
    refine iff_of_false (fun hnone => by cases hnone) fun hall => ?_
    obtain ⟨happroved, hzone⟩ := dispatchable_checked htarget
    obtain ⟨db, hok⟩ := (createRunIn_fresh hfresh happroved hzone schedule.createdBy).mpr
      ((cuts_iff htarget).mp (hall schedule List.mem_cons_self))
    rw [hcreate] at hok
    cases hok
  | @create schedule _ s _ _ _ _ _ _ ids hfresh htarget hcreate _ ih =>
    obtain ⟨hscopes, hprofiles, -⟩ := createRunIn_rows hcreate
    obtain ⟨happroved, hzone⟩ := dispatchable_checked htarget
    have hcut := (cuts_iff htarget).mpr
      ((createRunIn_fresh hfresh happroved hzone _).mp ⟨_, hcreate⟩)
    rw [List.forall_mem_cons]
    refine ih.trans ⟨fun hrest => ⟨hcut, fun x hx => ?_⟩, fun hall x hx => ?_⟩
    · rw [← cuts_frame hscopes hprofiles]
      exact hrest x hx
    · rw [cuts_frame hscopes hprofiles]
      exact hall.2 x hx
  | advance _ ih => exact ih

theorem pass_exists (d : Deployment) (now : DateTime) (due : List ScanSchedule) (s : Control) :
    ∃ t created stop, DuePass d now none due s t created stop := by
  induction due generalizing s with
  | nil => exact ⟨s, [], none, .finished⟩
  | cons schedule due ih =>
    cases htarget : dispatchable (s.base.db.scopes.get schedule.inventoryScopeId)
        (s.base.db.profiles.get schedule.profileId) with
    | none =>
      obtain ⟨t, created, stop, hrest⟩ := ih { base := { s.base with
                                                  db := s.base.db.auditDisabled schedule }
                                               schedules := disable s.schedules schedule.id }
      exact ⟨t, created, stop, .disable htarget hrest⟩
    | some target =>
      obtain ⟨scope, profile⟩ := target
      obtain ⟨ids, hfresh⟩ := exists_fresh s.base.db
      cases hcreate : s.base.db.createRunIn d.policy d.isIpv6 scope profile schedule.createdBy
          ids.runId ids.shardId with
      | error e => exact ⟨s, [], some e, .raise hfresh htarget hcreate⟩
      | ok db =>
        obtain ⟨t, created, stop, hrest⟩ := ih { base := { s.base with
                                                    db := db.auditDispatched schedule }
                                                 schedules := advance s.schedules schedule now }
        exact ⟨t, _, stop, .create hfresh htarget hcreate (.advance hrest)⟩

/-! ## What a pass does for a schedule -/

/-- The schedule has its run, and is due at its next instant. -/
structure Served (now : DateTime) (schedule : ScanSchedule) (t : Control)
    (created : List ScheduledRun) : Prop where
  run : ∃ r ∈ created, r.scheduleId = schedule.id ∧ ∃ run, t.base.db.runs.get r.runId = some run ∧
    run.pair = (schedule.inventoryScopeId, schedule.profileId)
  next : (t.schedules.get schedule.id).map ScanSchedule.nextRunAt = some (schedule.nextRun now)

theorem DuePass.advanced {schedule : ScanSchedule}
    (h : DuePass d now (some schedule) due s t created none)
    (hdue : ∀ x ∈ due, x.id ≠ schedule.id)
    (hrow : (s.schedules.get schedule.id).isSome = true) :
    (t.schedules.get schedule.id).map ScanSchedule.nextRunAt = some (schedule.nextRun now) := by
  generalize hstanding : some schedule = standing at h
  generalize hstop : (none : Option Refusal) = stop at h
  induction h with
  | finished | disable | raise | create => cases hstanding
  | system _ _ _ _ ih => exact ih hdue hrow hstanding hstop
  | @advance _ _ s _ _ _ hrest =>
    cases hstanding
    have hkept := hrest.schedule_kept (k := schedule.id) (fun _ hnone => by cases hnone)
      fun x hx hid => absurd hid (hdue x hx)
    rw [hkept]
    refine (nextRunAt_advance s.schedules schedule now schedule.id).trans ?_
    obtain ⟨r, hr⟩ := Option.isSome_iff_exists.mp hrow
    rw [if_pos rfl, hr]
    rfl

theorem isSome_disable (schedules : Table ScanSchedule) (id k : Uuid) :
    ((disable schedules id).get k).isSome = (schedules.get k).isSome := by
  rw [disable, Table.get_modify, Option.isSome_map]

theorem isSome_advance (schedules : Table ScanSchedule) (schedule : ScanSchedule) (k : Uuid) :
    ((advance schedules schedule now).get k).isSome = (schedules.get k).isSome := by
  rw [advance, Table.get_modify, Option.isSome_map]

/-- A pass that ends normally has served every schedule that may be dispatched. -/
theorem DuePass.served (h : DuePass d now standing due s t created stop) (hstop : stop = none)
    (hdue : (due.map ScanSchedule.id).Nodup)
    (hrows : ∀ x ∈ due, (s.schedules.get x.id).isSome = true) {schedule : ScanSchedule}
    (hschedule : schedule ∈ due)
    (htarget : (dispatchable (s.base.db.scopes.get schedule.inventoryScopeId)
      (s.base.db.profiles.get schedule.profileId)).isSome = true) :
    Served now schedule t created := by
  induction h with
  | finished => exact absurd hschedule List.not_mem_nil
  | raise => cases hstop
  | system a hcreates hstep hrest ih =>
    obtain ⟨hscopes, hprofiles⟩ := inventory_step hstep
    refine ih hstop hdue hrows hschedule ?_
    dsimp only
    rw [hscopes, hprofiles]
    exact htarget
  | @disable other due s _ _ _ hother _ ih =>
    obtain ⟨-, hdue⟩ := List.nodup_cons.mp hdue
    rcases List.mem_cons.mp hschedule with rfl | hschedule
    · rw [hother] at htarget
      cases htarget
    · refine ih hstop hdue (fun x hx => ?_) hschedule htarget
      exact (isSome_disable _ _ _).trans (hrows x (List.mem_cons_of_mem _ hx))
  | @create other due s scope profile db t created _ ids _ hother hcreate hrest ih =>
    obtain ⟨hscopes, hprofiles, ⟨run, hrun, hpair⟩, -⟩ := createRunIn_rows hcreate
    obtain ⟨hnew, hdue⟩ := List.nodup_cons.mp hdue
    rcases List.mem_cons.mp hschedule with rfl | hschedule
    · subst hstop
      obtain ⟨hscope, hprofile⟩ := dispatchable_eq_some hother
      obtain ⟨run', hrun', hpair'⟩ := hrest.run_kept hrun
      have hids : (scope.id, profile.id) = (schedule.inventoryScopeId, schedule.profileId) :=
        congrArg₂ Prod.mk (Table.get_key hscope) (Table.get_key hprofile)
      refine ⟨⟨_, List.mem_cons_self, rfl, run', hrun', (hpair'.trans hpair).trans hids⟩, ?_⟩
      refine hrest.advanced (fun x hx hid => hnew ?_) (hrows schedule List.mem_cons_self)
      rw [← hid]
      exact List.mem_map_of_mem hx
    · have hserved := ih hstop hdue (fun x hx => hrows x (List.mem_cons_of_mem _ hx)) hschedule (by
        dsimp only
        rw [hscopes, hprofiles]
        exact htarget)
      obtain ⟨r, hr, hrow⟩ := hserved.run
      exact ⟨⟨r, List.mem_cons_of_mem _ hr, hrow⟩, hserved.next⟩
  | advance _ ih =>
    refine ih hstop hdue (fun x hx => ?_) hschedule htarget
    exact (isSome_advance _ _ _).trans (hrows x hx)

theorem nodup_due {now : DateTime} {schedules : Table ScanSchedule} {due : List ScanSchedule}
    (h : due.Perm (dueSchedules schedules now)) : (due.map ScanSchedule.id).Nodup :=
  (h.map ScanSchedule.id).nodup_iff.mpr (schedules.nodup_keys _)

theorem mem_due {now : DateTime} {schedules : Table ScanSchedule} {x : ScanSchedule} :
    x ∈ dueSchedules schedules now ↔
      schedules.get x.id = some x ∧ x.enabled = true ∧ x.nextRunAt ≤ now := by
  rw [dueSchedules, Table.mem_select, Bool.and_eq_true, decide_eq_true_eq]
  exact and_congr_left fun _ =>
    ⟨fun hmem => Table.get_of_mem hmem, fun hget => Table.get_mem hget⟩

end

/-! ## Isolation -/

/-- What a pass at `now` owes the due schedules, whatever becomes of any one of them. -/
structure Isolated (d : Deployment) (now : DateTime) (s : Control) : Prop where
  ends : ∀ t created stop, s.Dispatches d now t created stop → stop = none
  served : ∀ t created stop, s.Dispatches d now t created stop →
    (created.map ScheduledRun.runId).Nodup ∧
    ∀ schedule ∈ dueSchedules s.schedules now, schedule.cuts d s.base.db = true →
      (dispatchable (s.base.db.scopes.get schedule.inventoryScopeId)
        (s.base.db.profiles.get schedule.profileId)).isSome = true → Served now schedule t created
  later : ∀ t created stop, s.Dispatches d now t created stop →
    ∀ schedule ∈ dueSchedules s.schedules now, schedule.cuts d s.base.db = false →
      ∃ now', now ≤ now' ∧ ∃ u created', t.Dispatches d now' u created' none

/-- A schedule that `create_run` raises for is not moved, and is due in every later pass. -/
theorem raising_blocks (d : Deployment) (now : DateTime) (s t : Control)
    (created : List ScheduledRun) (stop : Option Refusal) (h : s.Dispatches d now t created stop)
    (schedule : ScanSchedule) (hdue : schedule ∈ dueSchedules s.schedules now)
    (hcuts : schedule.cuts d s.base.db = false) (now' : DateTime) (hlater : now ≤ now')
    (u : Control) (created' : List ScheduledRun) : ¬ t.Dispatches d now' u created' none := by
  rintro ⟨due', hperm', hpass'⟩
  obtain ⟨due, hperm, hpass⟩ := h
  obtain ⟨hget, henabled, hle⟩ := mem_due.mp hdue
  have hkept := hpass.schedule_kept (k := schedule.id) (fun _ hnone => by cases hnone)
    fun x hx hid => by
      obtain ⟨hx', -⟩ := mem_due.mp (hperm.mem_iff.mp hx)
      rw [hid, hget] at hx'
      cases hx'
      exact hcuts
  have hdue' : schedule ∈ due' :=
    hperm'.mem_iff.mpr (mem_due.mpr ⟨hkept.trans hget, henabled, Int.le_trans hle hlater⟩)
  obtain ⟨hscopes, hprofiles⟩ := hpass.frame
  have hcut := hpass'.ends_iff.mp rfl schedule hdue'
  rw [cuts_frame hscopes hprofiles, hcuts] at hcut
  cases hcut

namespace Demo

theorem hour_ge : 15 ≤ 60 := by decide

/-- Two schedules are due.  The scope of the first was stored under other settings. -/
def overdue : Control where
  base := State.start {
    scopes := ⟨[{ id := "wide", cidr := "10.0.0.0/15", approved := true },
      { id := "scope", cidr := "10.2.0.0/24", approved := true }], by decide⟩
    profiles := profiles }
  schedules := ⟨[
    { id := "first", name := "first", inventoryScopeId := "wide", profileId := "profile",
      intervalMinutes := 60, nextRunAt := 0, createdBy := "operator", interval_ge := hour_ge },
    { id := "second", name := "second", inventoryScopeId := "scope", profileId := "profile",
      intervalMinutes := 60, nextRunAt := 0, createdBy := "operator", interval_ge := hour_ge }],
    by decide⟩

end Demo

end TransportLookout
