/-
A schedule catches up without a burst.

One scheduler passes over the due schedules from time to time.  `Passes` is what it
does, with everything else that goes on between its passes.  However long it was
down, the `while` loop of a pass moves a schedule to the next of its instants, and
so a schedule is dispatched by the first pass of each of its slots.
-/
import TransportLookout.Library.Slots
import TransportLookout.Safety.Isolation

namespace TransportLookout

open Relational Slots

/-- The schedule may be dispatched: it is enabled, its scope is approved and has the zone of
its profile. -/
def ScanSchedule.valid (db : Db) (schedule : ScanSchedule) : Bool :=
  schedule.enabled && (dispatchable (db.scopes.get schedule.inventoryScopeId)
    (db.profiles.get schedule.profileId)).isSome

structure PassRecord where
  now : DateTime
  created : List ScheduledRun

/-- How often a pass has dispatched the schedule. -/
def PassRecord.dispatches (k : Uuid) (pass : PassRecord) : Nat :=
  pass.created.countP fun r => r.scheduleId = k

/-- `Passes d k s passes t`: the passes of one scheduler lead from `s` to `t`.  No pass is
earlier than one before it, each ends normally, and finds the schedule `k` valid. -/
inductive Passes (d : Deployment) (k : Uuid) (s : Control) : List PassRecord → Control → Prop
  | start : Passes d k s [] s
  | other {passes t u} (a : ControlAction) (h : Passes d k s passes t)
      (hdispatches : a.dispatches = false) (hstep : t.step d a = some u) : Passes d k s passes u
  | pass {passes t u now created} (h : Passes d k s passes t)
      (hlater : ∀ p ∈ passes, p.now ≤ now)
      (hvalid : ∀ x, t.schedules.get k = some x → x.valid t.base.db = true)
      (hpass : t.Dispatches d now u created none) : Passes d k s (passes ++ [⟨now, created⟩]) u

/-! ## The loop -/

/-- With fuel for every round, the loop of the model is the `while` loop. -/
theorem advances_catchUp {interval : Int} (hpos : 0 < interval) (now : DateTime) (fuel : Nat)
    (next : DateTime) (hfuel : (now - next).toNat < fuel ∨ now < next) :
    Advances interval now next (catchUp interval now fuel next) := by
  induction fuel generalizing next with
  | zero => exact .stop (hfuel.resolve_left (Nat.not_lt_zero _))
  | succ fuel ih =>
    rw [catchUp]
    split
    · next hle =>
      have hfuel' := Nat.le_of_lt_succ (hfuel.resolve_right (Int.not_lt.mpr hle))
      exact .round hle
        (ih (next + interval) ((round_lt hpos).imp_left fun h => Nat.lt_of_lt_of_le h hfuel'))
    · next hlt => exact .stop (Int.not_le.mp hlt)

theorem ScanSchedule.advances_nextRun (schedule : ScanSchedule) (now : DateTime) :
    Advances (minutes schedule.intervalMinutes) now
      (schedule.nextRunAt + minutes schedule.intervalMinutes) (schedule.nextRun now) :=
  advances_catchUp schedule.interval_pos now _ _ (round_lt schedule.interval_pos)

/-! ## What a pass does to one schedule -/

section
variable {d : Deployment} {now : DateTime} {standing : Option ScanSchedule}
  {due : List ScanSchedule} {s t u : Control} {created : List ScheduledRun}
  {stop : Option Refusal} {k : Uuid} {schedule : ScanSchedule}

/-- A pass creates a run for a schedule once at most, and only if it is due. -/
theorem DuePass.created_due (h : DuePass d now standing due s t created stop) :
    (created.map ScheduledRun.scheduleId).Sublist (due.map ScanSchedule.id) := by
  induction h with
  | finished => exact List.Sublist.refl _
  | raise => exact List.nil_sublist _
  | system _ _ _ _ ih | advance _ ih => exact ih
  | disable _ _ ih => exact ih.cons _
  | create _ _ _ _ ih => exact ih.cons_cons _

theorem intervalMinutes_modify (schedules : Table ScanSchedule) (id k : Uuid)
    {f : ScanSchedule → ScanSchedule} (hid : ∀ r, Keyed.key (f r) = (Keyed.key r : Uuid))
    (hf : ∀ r, (f r).intervalMinutes = r.intervalMinutes) :
    ((schedules.modify id f hid).get k).map ScanSchedule.intervalMinutes =
      (schedules.get k).map ScanSchedule.intervalMinutes := by
  rw [Table.get_modify, Option.map_map]
  congr 1
  funext r
  show ScanSchedule.intervalMinutes (if k = id then f r else r) = r.intervalMinutes
  split
  · exact hf r
  · rfl

theorem intervalMinutes_disable (schedules : Table ScanSchedule) (id k : Uuid) :
    ((disable schedules id).get k).map ScanSchedule.intervalMinutes =
      (schedules.get k).map ScanSchedule.intervalMinutes := by
  unfold disable
  exact intervalMinutes_modify schedules id k _ fun _ => rfl

theorem intervalMinutes_advance (schedules : Table ScanSchedule) (schedule : ScanSchedule)
    (k : Uuid) :
    ((advance schedules schedule now).get k).map ScanSchedule.intervalMinutes =
      (schedules.get k).map ScanSchedule.intervalMinutes := by
  unfold advance
  exact intervalMinutes_modify schedules schedule.id k _ fun _ => rfl

theorem DuePass.interval_kept (h : DuePass d now standing due s t created stop) (k : Uuid) :
    (t.schedules.get k).map ScanSchedule.intervalMinutes =
      (s.schedules.get k).map ScanSchedule.intervalMinutes := by
  induction h with
  | finished | raise => rfl
  | system _ _ _ _ ih | create _ _ _ _ ih => exact ih
  | disable _ _ ih => exact ih.trans (intervalMinutes_disable _ _ k)
  | advance _ ih => exact ih.trans (intervalMinutes_advance _ _ k)

/-- A pass that ends normally dispatches a valid schedule once if it is due, and moves it to
its next instant; it leaves one that is not due alone. -/
structure PassOf (now : DateTime) (schedule : ScanSchedule) (t : Control)
    (created : List ScheduledRun) : Prop where
  once : PassRecord.dispatches schedule.id ⟨now, created⟩ =
    if schedule.nextRunAt ≤ now then 1 else 0
  next : ∃ next, t.schedules.get schedule.id = some next ∧
    next.intervalMinutes = schedule.intervalMinutes ∧
    next.nextRunAt = if schedule.nextRunAt ≤ now then schedule.nextRun now else schedule.nextRunAt

theorem passOf_dispatches (hpass : s.Dispatches d now t created none)
    (hschedule : s.schedules.get k = some schedule) (hvalid : schedule.valid s.base.db = true) :
    PassOf now schedule t created := by
  have hid : schedule.id = k := Table.get_key hschedule
  subst hid
  obtain ⟨due, hperm, hpass⟩ := hpass
  obtain ⟨henabled, htarget⟩ := (Bool.and_eq_true _ _).mp hvalid
  have hnodup := (nodup_due hperm).sublist hpass.created_due
  have hinterval := hpass.interval_kept schedule.id
  rw [hschedule, Option.map_some] at hinterval
  obtain ⟨next, hnext, hsame⟩ := Option.map_eq_some_iff.mp hinterval
  have hcount : PassRecord.dispatches schedule.id ⟨now, created⟩ =
      (created.map ScheduledRun.scheduleId).count schedule.id := by
    rw [List.count, List.countP_map]
    rfl
  by_cases hdue : schedule.nextRunAt ≤ now
  · have hmem : schedule ∈ due := hperm.mem_iff.mpr (mem_due.mpr ⟨hschedule, henabled, hdue⟩)
    have hrows : ∀ x ∈ due, (s.schedules.get x.id).isSome = true := by
      intro x hx
      rw [(mem_due.mp (hperm.mem_iff.mp hx)).1]
      rfl
    have hserved := hpass.served rfl (nodup_due hperm) hrows hmem htarget
    obtain ⟨r, hr, hrid, -⟩ := hserved.run
    refine ⟨?_, next, hnext, hsame, ?_⟩
    · rw [hcount, if_pos hdue]
      exact List.count_eq_one_of_mem hnodup (hrid ▸ List.mem_map_of_mem hr)
    · have hnextRun := hserved.next
      rw [hnext] at hnextRun
      rw [if_pos hdue]
      exact Option.some.inj hnextRun
  · have hnot : ∀ x ∈ due, x.id ≠ schedule.id := by
      intro x hx hxid
      obtain ⟨hget, -, hle⟩ := mem_due.mp (hperm.mem_iff.mp hx)
      rw [hxid, hschedule] at hget
      cases hget
      exact hdue hle
    have hkept := hpass.schedule_kept (k := schedule.id) (fun _ hnone => by cases hnone)
      fun x hx hxid => absurd hxid (hnot x hx)
    refine ⟨?_, schedule, hkept.trans hschedule, rfl, ?_⟩
    · rw [hcount, if_neg hdue]
      refine List.count_eq_zero.mpr fun hin => ?_
      obtain ⟨x, hx, hxid⟩ := List.mem_map.mp (hpass.created_due.subset hin)
      exact hnot x hx hxid
    · rw [if_neg hdue]

/-! ## A run of passes -/

/-- Nothing but a pass moves a schedule. -/
theorem schedule_step {a : ControlAction} (hdispatches : a.dispatches = false)
    (h : s.step d a = some t) (hschedule : s.schedules.get k = some schedule) :
    ∃ enabled, t.schedules.get k = some { schedule with enabled := enabled } := by
  cases a with
  | request q =>
    obtain ⟨db, hq, -⟩ := control_request h
    exact perform_schedule hq hschedule
  | dispatchDue now ids => cases hdispatches
  | system a =>
    obtain ⟨-, -, hsame⟩ := control_system h
    exact ⟨schedule.enabled, by rw [hsame, hschedule]⟩

/-- The run lemma: the next instant of a schedule keeps track of the passes. -/
theorem passes_tracks {passes : List PassRecord} (h : Passes d k s passes t)
    {first : ScanSchedule} (hfirst : s.schedules.get k = some first) :
    (∃ schedule, t.schedules.get k = some schedule ∧
      schedule.intervalMinutes = first.intervalMinutes ∧
      Tracks first.nextRunAt (minutes first.intervalMinutes) (passes.map PassRecord.now)
        schedule.nextRunAt) ∧
    (passes.map (PassRecord.dispatches k)).sum =
      openings first.nextRunAt (minutes first.intervalMinutes) [] (passes.map PassRecord.now) := by
  induction h with
  | start => exact ⟨⟨first, hfirst, rfl, tracks_start⟩, rfl⟩
  | other a _ hdispatches hstep ih =>
    obtain ⟨⟨schedule, hschedule, hinterval, htracks⟩, hcount⟩ := ih
    obtain ⟨enabled, hkept⟩ := schedule_step hdispatches hstep hschedule
    exact ⟨⟨_, hkept, hinterval, htracks⟩, hcount⟩
  | @pass passes t u now created _ hlater hvalid hpass ih =>
    obtain ⟨⟨schedule, hschedule, hinterval, htracks⟩, hcount⟩ := ih
    have hid : schedule.id = k := Table.get_key hschedule
    have hof := passOf_dispatches hpass hschedule (hvalid schedule hschedule)
    have hlater' : ∀ e ∈ passes.map PassRecord.now, e ≤ now := by
      simpa using hlater
    have hpos := first.interval_pos
    have hdue := htracks.due_iff hpos hlater'
    obtain ⟨next, hnext, hsame, hnextRun⟩ := hof.next
    have honce := hof.once
    rw [hid] at hnext honce
    simp only [List.map_append, List.map_cons, List.map_nil, List.sum_append]
    rw [openings_concat, hcount]
    refine ⟨⟨next, hnext, hsame.trans hinterval, ?_⟩, ?_⟩
    · rw [hnextRun]
      split
      · next hle =>
        refine htracks.served hlater' hle ?_
        rw [← hinterval]
        exact schedule.advances_nextRun now
      · next hgt => exact htracks.waited (Int.not_le.mp hgt)
    · show _ + (PassRecord.dispatches k ⟨now, created⟩ + 0) = _
      rw [honce, List.nil_append]
      simp only [hdue, Nat.add_zero]

end

/-! ## Catching up -/

/-- What a pass at `now` over the valid schedule does after `passes`, the first of which found
it as `first`. -/
structure CatchesUp (k : Uuid) (first : ScanSchedule) (passes : List PassRecord)
    (schedule : ScanSchedule) (now : DateTime) (u : Control) (created : List ScheduledRun) :
    Prop where
  once : PassRecord.dispatches k ⟨now, created⟩ = if schedule.nextRunAt ≤ now then 1 else 0
  /-- The pass dispatches the schedule exactly when it is the first in its slot. -/
  opens : schedule.nextRunAt ≤ now ↔
    Opens first.nextRunAt (minutes first.intervalMinutes) (passes.map PassRecord.now) now
  /-- The loop ends, and leaves the schedule due within an interval. -/
  next : schedule.nextRunAt ≤ now → ∃ next, u.schedules.get k = some next ∧
    Advances (minutes first.intervalMinutes) now
      (schedule.nextRunAt + minutes first.intervalMinutes) next.nextRunAt ∧
    now < next.nextRunAt ∧ next.nextRunAt ≤ now + minutes first.intervalMinutes
  kept : now < schedule.nextRunAt →
    (u.schedules.get k).map ScanSchedule.nextRunAt = some schedule.nextRunAt

structure CaughtUp (d : Deployment) (k : Uuid) (first : ScanSchedule) (passes : List PassRecord)
    (t : Control) : Prop where
  grid : ∃ schedule, t.schedules.get k = some schedule ∧ ∃ n : Nat,
    schedule.nextRunAt = first.nextRunAt + n * minutes first.intervalMinutes
  pass : ∀ schedule now u created, t.schedules.get k = some schedule →
    schedule.valid t.base.db = true → (∀ p ∈ passes, p.now ≤ now) →
    t.Dispatches d now u created none → CatchesUp k first passes schedule now u created
  /-- As many dispatches as slots with a pass: no burst, and no slot is skipped. -/
  count : (passes.map (PassRecord.dispatches k)).sum =
    openings first.nextRunAt (minutes first.intervalMinutes) [] (passes.map PassRecord.now)

namespace Demo

def hourlySchedule : ScanSchedule :=
  { id := "schedule", name := "hourly", inventoryScopeId := "scope", profileId := "profile",
    intervalMinutes := 60, nextRunAt := 0, createdBy := "operator", interval_ge := hour_ge }

def hourly : Control where
  base := start
  schedules := ⟨[hourlySchedule], by decide⟩

def advanced : Table ScanSchedule := advance hourly.schedules hourlySchedule (minutes 200)

/-- A pass has dispatched the schedule. -/
def dispatched (db : Db) : Control where
  base := { start with db := db.auditDispatched hourlySchedule }
  schedules := advanced

end Demo

end TransportLookout
