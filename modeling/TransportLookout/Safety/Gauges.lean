/-
What the gauges show.

An operator watches the gauges and not the tables.  Each run and each shard is in one
series.  A gauge of something late compares an instant, and a comparison with NULL counts
nothing: `gauges_watch` says that none of the three can be blind, whatever the sessions of
the system wrote over each other, and that they fall to zero once the pass that clears
what is late has ended.  A pass that `create_run` stops leaves its gauge up.
-/
import TransportLookout.Safety.Instants
import TransportLookout.Safety.Isolation
import TransportLookout.Safety.Recoverable
import TransportLookout.Services.Metrics

namespace TransportLookout

open Relational Trace

/-! ## The instants of all rows -/

/-- The rows that a gauge or a recovery compares have the instants it needs. -/
structure Control.Timed (s : Control) : Prop where
  copies : Copies s.base
  stamping : Stamping s.base
  shard : ∀ r ∈ s.base.db.shards.rows, r.Timed

theorem timed_initial : Control.initial.Timed where
  copies := copies_start _
  stamping := ⟨fun _ hr => absurd hr List.not_mem_nil, tracks_start _ _⟩
  shard := fun _ hr => absurd hr List.not_mem_nil

/-- A run is created queued, and so are its shards. -/
theorem timed_created {d : Deployment} {db db' : Db} {scope : InventoryScope}
    {profile : ScanProfile} {actor : String} {ids : RunIds}
    (h : db.createRunIn d.policy d.isIpv6 scope profile actor ids.runId ids.shardId = .ok db')
    (hruns : ∀ r ∈ db.runs.rows, r.Stamped) (hshards : ∀ r ∈ db.shards.rows, r.Timed) :
    (∀ r ∈ db'.runs.rows, r.Stamped) ∧ ∀ r ∈ db'.shards.rows, r.Timed := by
  obtain ⟨cidrs, -, hcreated⟩ := Db.createRunIn_ok h
  obtain ⟨-, -, hrun, hshard, -⟩ := Db.createRun_ok hcreated
  constructor
  · intro r hr
    rw [Table.rows_append? hrun] at hr
    rcases List.mem_append.mp hr with hold | hnew
    · exact hruns r hold
    · cases List.mem_singleton.mp hnew
      refine ⟨fun hrunning => ?_, fun hterminal => ?_⟩
      · cases hrunning
      · cases hterminal
  · intro r hr
    rw [Table.rows_append? hshard] at hr
    rcases List.mem_append.mp hr with hold | hnew
    · exact hshards r hold
    · obtain ⟨shard, -, rfl⟩ := List.mem_map.mp hnew
      exact .of_idle rfl

theorem control_timed {d : Deployment} {s s' : Control} {a : ControlAction} (ht : s.Timed)
    (h : s.step d a = some s') : s'.Timed := by
  by_cases ha : ∃ b, a = .system b
  · obtain ⟨b, rfl⟩ := ha
    obtain ⟨hcreates, hstep, -⟩ := control_system h
    refine ⟨copies_step ht.copies hstep, stamping_step ht.copies ht.stamping hcreates hstep, ?_⟩
    have hrows : ∀ k r, s.base.db.shards.get k = some r → r.Timed := fun k r hr =>
      ht.shard r (Table.get_mem hr)
    exact fun r hr => timed_step ht.copies hrows hstep _ r (Table.get_of_mem hr)
  · obtain ⟨db, hbase, hrows, hshards, hruns⟩ := control_rule
      (P := fun db => (∀ r ∈ db.runs.rows, r.Stamped) ∧ (∀ r ∈ db.shards.rows, r.Timed) ∧
        ∀ k r, s.base.db.runs.get k = some r → db.runs.get k = some r) h (fun b hb => ha ⟨b, hb⟩)
      (fun db db' hkeeps hP => by
        rw [hkeeps.runs, hkeeps.shards]
        exact hP)
      (fun db db' scope profile actor run _ _ hok hP => by
        obtain ⟨hstamped, htimed⟩ := timed_created hok hP.1 hP.2.1
        obtain ⟨-, -, -, hkept, -⟩ := createRunIn_rows hok
        exact ⟨hstamped, htimed, fun k r hr => hkept k r (hP.2.2 k r hr)⟩)
      ⟨ht.stamping.row, ht.shard, fun _ _ hr => hr⟩
    constructor
    · rw [hbase]
      exact ⟨ht.copies.stale, ht.copies.selected, ht.copies.cancelling, ht.copies.reconciling⟩
    · rw [hbase]
      exact ⟨hrows, ht.stamping.copies.of_db fun copy hcopy => hcopy.of_runs hruns⟩
    · rw [hbase]
      exact hshards

theorem timed_path {d : Deployment} {tr : List (Transition Control ControlAction)} {t : Control}
    (h : Path (Control.step d) Control.initial tr t) : t.Timed :=
  h.invariant (C := fun _ _ => true) timed_initial (fun _ _ _ ht _ => control_timed ht)
    fun _ _ => rfl

/-! ## Passes that clear what is late -/

section
variable {settings : Settings} {db : Db} {now : DateTime}

/-- A row that is running after a recovery was not selected by it. -/
theorem running_unselected {r : ScanShard}
    (hr : r ∈ (db.flushShards (Db.staleShards settings db now) ScanShard.requeued).shards.rows)
    (hrunning : r.status = .running) : r ∈ db.shards.rows ∧ r ∉ Db.staleShards settings db now := by
  have hget := Table.get_of_mem hr
  rw [Db.get_flushShards] at hget
  obtain ⟨old, hold, -⟩ := Option.map_eq_some_iff.mp hget
  have hrow : db.shards.get (Keyed.key r) = some old := hold
  obtain ⟨r', hr', hcase⟩ :=
    Db.get_flushShards_cases (Db.staleShards settings db now) ScanShard.requeued hrow
  rw [Table.get_of_mem hr] at hr'
  cases hr'
  rcases hcase with rfl | ⟨l, hl, hid, rfl⟩
  · refine ⟨Table.get_mem hrow, fun hselected => ?_⟩
    obtain ⟨l, hl, -, hflushed⟩ := Db.get_flushShards_of_mem ScanShard.requeued hrow hselected
    rw [show (db.flushShards _ _).shards.get r.id = some r from Table.get_of_mem hr] at hflushed
    have hqueued := (ScanShard.writeBack_requeued (Db.mem_staleShards hl).2 r).1
    rw [← Option.some.inj hflushed, hrunning] at hqueued
    cases hqueued
  · have hqueued := (ScanShard.writeBack_requeued (Db.mem_staleShards hl).2 old).1
    rw [hrunning] at hqueued
    cases hqueued

theorem isBefore_mono {column : Option DateTime} {t t' : DateTime} (h : isBefore column t = true)
    (hle : t ≤ t') : isBefore column t' = true := by
  obtain ⟨instant, hcolumn, hlt⟩ := isBefore_iff.mp h
  exact isBefore_iff.mpr ⟨instant, hcolumn, Int.lt_of_lt_of_le hlt hle⟩

/-- Right after a recovery no worker is stale, by any clock that is not ahead of it. -/
theorem recovered_workers {clock : Clock} (hclock : clock.workers ≤ now) (runStaleSeconds : Nat)
    (schedules : Table ScanSchedule) :
    (collectOperationalMetrics settings runStaleSeconds
      (db.flushShards (Db.staleShards settings db now) ScanShard.requeued) schedules
      clock).staleWorkers = 0 := by
  refine Table.count_eq_zero.mpr fun r hr => ?_
  refine Bool.eq_false_iff.mpr fun hstale => ?_
  rw [Bool.and_eq_true, decide_eq_true_eq] at hstale
  obtain ⟨hrunning, hbefore⟩ := hstale
  obtain ⟨hrow, hunselected⟩ := running_unselected hr hrunning
  refine hunselected (Table.mem_select.mpr ⟨hrow, ?_⟩)
  have hlate := isBefore_mono hbefore (Int.sub_le_sub_right hclock _)
  rw [Bool.or_eq_true, Bool.and_eq_true, Bool.and_eq_true, decide_eq_true_eq, decide_eq_true_eq]
  exact Or.inr ⟨hrunning, hlate⟩

end

section
variable {d : Deployment} {now : DateTime} {standing : Option ScanSchedule}
  {due : List ScanSchedule} {s t : Control} {created : List ScheduledRun} {stop : Option Refusal}

/-- A pass that ends normally leaves no enabled schedule behind that is due at `now`. -/
theorem DuePass.clears (h : DuePass d now standing due s t created stop) (hstop : stop = none)
    (hdue : ∀ r ∈ s.schedules.rows, r.enabled = true → r.nextRunAt ≤ now →
      (∃ x ∈ due, x.id = r.id) ∨ ∃ x, standing = some x ∧ x.id = r.id) :
    ∀ r ∈ t.schedules.rows, r.enabled = true → now < r.nextRunAt := by
  induction h with
  | finished =>
    intro r hr henabled
    refine Int.not_le.mp fun hle => ?_
    rcases hdue r hr henabled hle with ⟨x, hx, -⟩ | ⟨x, hx, -⟩
    · cases hx
    · cases hx
  | system _ _ _ _ ih => exact ih hstop hdue
  | raise => cases hstop
  | @disable schedule due s t created stop _ _ ih =>
    refine ih hstop fun r hr henabled hle => ?_
    have hrow : r ∈ (s.schedules.modify schedule.id (fun s => { s with enabled := false })
      fun _ => rfl).rows := hr
    rcases Table.mem_modify hrow with ⟨hold, hne⟩ | ⟨old, -, -, rfl⟩
    · rcases hdue r hold henabled hle with ⟨x, hx, hid⟩ | ⟨x, hx, -⟩
      · rcases List.mem_cons.mp hx with rfl | hx
        · exact absurd hid.symm hne
        · exact Or.inl ⟨x, hx, hid⟩
      · cases hx
    · cases henabled
  | @create schedule due s _ _ _ _ _ _ _ _ _ _ _ ih =>
    refine ih hstop fun r hr henabled hle => ?_
    rcases hdue r hr henabled hle with ⟨x, hx, hid⟩ | ⟨x, hx, -⟩
    · rcases List.mem_cons.mp hx with rfl | hx
      · exact Or.inr ⟨x, rfl, hid⟩
      · exact Or.inl ⟨x, hx, hid⟩
    · cases hx
  | @advance schedule due s t created stop _ ih =>
    refine ih hstop fun r hr henabled hle => ?_
    have hrow : r ∈ (s.schedules.modify schedule.id
      (fun s => { s with nextRunAt := schedule.nextRun now }) fun _ => rfl).rows := hr
    rcases Table.mem_modify hrow with ⟨hold, hne⟩ | ⟨old, -, -, rfl⟩
    · rcases hdue r hold henabled hle with hrest | ⟨x, hx, hid⟩
      · exact Or.inl hrest
      · cases hx
        exact absurd hid.symm hne
    · exact absurd hle (Int.not_le.mpr (schedule.now_lt_nextRun now))

theorem passed_schedules (h : s.Dispatches d now t created none) {clock : Clock}
    (hclock : clock.schedules ≤ now) (settings : Settings) (runStaleSeconds : Nat) :
    (collectOperationalMetrics settings runStaleSeconds t.base.db t.schedules
      clock).overdueSchedules = 0 := by
  obtain ⟨due, hperm, hpass⟩ := h
  have hcleared := hpass.clears rfl fun r hr henabled hle => by
    refine Or.inl ⟨r, hperm.mem_iff.mpr ?_, rfl⟩
    exact mem_due.mpr ⟨Table.get_of_mem hr, henabled, hle⟩
  refine Table.count_eq_zero.mpr fun r hr => Bool.eq_false_iff.mpr fun hoverdue => ?_
  rw [Bool.and_eq_true, decide_eq_true_eq] at hoverdue
  have hlt := hcleared r hr hoverdue.1
  exact lt_irrefl now (hlt.trans (lt_of_lt_of_le hoverdue.2 hclock))

/-- The schedule that stops a pass stays overdue. -/
theorem stopped_schedules {e : Refusal} (h : s.Dispatches d now t created (some e))
    {clock : Clock} (hclock : now < clock.schedules) (settings : Settings)
    (runStaleSeconds : Nat) :
    0 < (collectOperationalMetrics settings runStaleSeconds t.base.db t.schedules
      clock).overdueSchedules := by
  obtain ⟨due, hperm, hpass⟩ := h
  have hraises : ∃ x ∈ due, x.cuts d s.base.db = false := by
    by_contra hnone
    have hcuts : ∀ x ∈ due, x.cuts d s.base.db = true := fun x hx =>
      Bool.eq_true_of_not_eq_false fun hfalse => hnone ⟨x, hx, hfalse⟩
    cases hpass.ends_iff.mpr hcuts
  obtain ⟨x, hx, hcuts⟩ := hraises
  obtain ⟨hget, henabled, hle⟩ := mem_due.mp (hperm.mem_iff.mp hx)
  have hkept := hpass.schedule_kept (k := x.id) (fun _ hnone => by cases hnone)
    fun y hy hid => by
      obtain ⟨hy', -⟩ := mem_due.mp (hperm.mem_iff.mp hy)
      rw [hid, hget] at hy'
      cases hy'
      exact hcuts
  refine List.countP_pos_iff.mpr ⟨x, Table.get_mem (hkept.trans hget), ?_⟩
  rw [Bool.and_eq_true, decide_eq_true_eq]
  exact ⟨henabled, Int.lt_of_le_of_lt hle hclock⟩

end

/-! ## What the gauges show -/

/-- A scrape of the state. -/
def Control.gauges (d : Deployment) (runStaleSeconds : Nat) (s : Control) (clock : Clock) :
    Gauges :=
  collectOperationalMetrics d.settings runStaleSeconds s.base.db s.schedules clock

structure Watch (d : Deployment) (runStaleSeconds : Nat) (t : Control) : Prop where
  /-- Every run and every shard is in one series. -/
  series : ∀ clock, ((t.gauges d runStaleSeconds clock).runs.map Prod.snd).sum =
      t.base.db.runs.rows.length ∧
    ((t.gauges d runStaleSeconds clock).shards.map Prod.snd).sum = t.base.db.shards.rows.length
  /-- What stays as it is shows in the end. -/
  seen : ∃ last : DateTime, ∀ clock : Clock, last < clock.workers → last < clock.schedules →
    last < clock.runs →
      (t.gauges d runStaleSeconds clock).staleWorkers =
          t.base.db.shards.count (fun s => s.status = .running) ∧
        (t.gauges d runStaleSeconds clock).overdueSchedules = t.schedules.count (fun s => s.enabled) ∧
        (t.gauges d runStaleSeconds clock).staleRuns =
          t.base.db.runs.count (fun r => r.status = .running)
  recovered : ∀ now u v, t.step d (.system (.loadStale now)) = some u →
    u.step d (.system (.commitRecovery t.base.recoveries.length)) = some v →
    ∀ clock : Clock, clock.workers ≤ now → (v.gauges d runStaleSeconds clock).staleWorkers = 0
  passed : ∀ now u created, t.Dispatches d now u created none →
    ∀ clock : Clock, clock.schedules ≤ now →
      (u.gauges d runStaleSeconds clock).overdueSchedules = 0
  stopped : ∀ now u created e, t.Dispatches d now u created (some e) →
    ∀ clock : Clock, now < clock.schedules →
      0 < (u.gauges d runStaleSeconds clock).overdueSchedules

/-- Past every instant that a row has, what compares instants looks at the status alone. -/
theorem count_late {ρ : Type} {κ : Type} [Keyed ρ κ] {t : Table ρ} {p q : ρ → Bool}
    (h : ∀ r ∈ t.rows, p r = true → q r = true) :
    t.count (fun r => p r && q r) = t.count p := by
  refine List.countP_congr fun r hr => ?_
  rw [Bool.and_eq_true]
  exact ⟨And.left, fun hp => ⟨hp, h r hr hp⟩⟩

theorem exists_last {ρ : Type} (rows : List ρ) (column : ρ → Option DateTime) :
    ∃ last : DateTime, ∀ r ∈ rows, ∀ t, column r = some t → t ≤ last := by
  obtain ⟨last, hlast⟩ := ((rows.filterMap column).toFinset).exists_le
  refine ⟨last, fun r hr t ht => hlast t (List.mem_toFinset.mpr ?_)⟩
  exact List.mem_filterMap.mpr ⟨r, hr, ht⟩

theorem isBefore_late {column : Option DateTime} {last now : DateTime}
    (hsome : column.isSome = true) (hlast : ∀ t, column = some t → t ≤ last) (hnow : last < now) :
    isBefore column now = true := by
  obtain ⟨t, ht⟩ := Option.isSome_iff_exists.mp hsome
  exact isBefore_iff.mpr ⟨t, ht, Int.lt_of_le_of_lt (hlast t ht) hnow⟩

/-- In every state that requests, scheduler passes and workers lead to. -/
theorem gauges_watch (d : Deployment) (runStaleSeconds : Nat)
    (tr : List (Transition Control ControlAction)) (t : Control)
    (h : Path (Control.step d) Control.initial tr t) : Watch d runStaleSeconds t := by
  have ht := timed_path h
  constructor
  · exact fun clock => ⟨sum_runs _ _ _ _ _, sum_shards _ _ _ _ _⟩
  · obtain ⟨beat, hbeat⟩ := exists_last t.base.db.shards.rows ScanShard.heartbeatAt
    obtain ⟨due, hdue⟩ := exists_last t.schedules.rows fun s => some s.nextRunAt
    obtain ⟨start, hstart⟩ := exists_last t.base.db.runs.rows ScanRun.startedAt
    refine ⟨max (beat + seconds d.settings.shardLeaseSeconds)
      (max due (start + seconds runStaleSeconds)), fun clock hworkers hschedules hruns => ?_⟩
    refine ⟨?_, ?_, ?_⟩
    · refine count_late fun r hr hrunning => ?_
      have hsome := ((ht.shard r hr).running (of_decide_eq_true hrunning)).2
      have hnow := (max_lt_iff.mp hworkers).1
      exact isBefore_late hsome (hbeat r hr) (Int.lt_sub_right_of_add_lt hnow)
    · refine count_late fun r hr _ => ?_
      have hnow := (max_lt_iff.mp (max_lt_iff.mp hschedules).2).1
      exact decide_eq_true (lt_of_le_of_lt (hdue r hr _ rfl) hnow)
    · refine count_late fun r hr hrunning => ?_
      have hsome := (ht.stamping.row r hr).running (of_decide_eq_true hrunning)
      have hnow := (max_lt_iff.mp (max_lt_iff.mp hruns).2).2
      exact isBefore_late hsome (hstart r hr) (Int.lt_sub_right_of_add_lt hnow)
  · intro now u v hload hcommit clock hclock
    obtain ⟨-, hload, -⟩ := control_system hload
    obtain ⟨-, hcommit, -⟩ := control_system hcommit
    have hu := step_loadStale hload
    obtain ⟨stale, hstale, hv⟩ := step_commitRecovery hcommit
    rw [hu, List.getElem?_append_right (Nat.le_refl _), Nat.sub_self] at hstale
    cases hstale
    rw [Control.gauges, hv, hu]
    exact recovered_workers hclock runStaleSeconds v.schedules
  · exact fun now u created hpass clock hclock => passed_schedules hpass hclock _ _
  · exact fun now u created e hpass clock hclock => stopped_schedules hpass hclock _ _

/-- The worker of the first shard is silent from its start on. -/
theorem gauges_watch_silent :
    ∃ tr t, Path (Control.step {}) Control.initial tr t ∧ Watch {} 7200 t ∧
      t.gauges {} 7200 ⟨seconds 3601, 1, seconds 7201⟩ =
        { runs := [(.queued, 0), (.running, 1), (.completed, 0), (.failed, 0), (.cancelled, 0)]
          shards := [(.queued, 0), (.leased, 1), (.running, 1), (.completed, 0), (.failed, 0),
            (.cancelled, 0), (.deadLetter, 0)]
          outboxPending := 1, staleWorkers := 1, currentExposures := 0, overdueSchedules := 0
          staleRuns := 1 } := by
  have hrun : (runAll (Control.step {}) Control.initial
      (Demo.scheduled ++ (Demo.publish 0 0 ++ Demo.begin 0 "s1" "t1" 0).map .system)).map
      (fun t => t.gauges {} 7200 ⟨seconds 3601, 1, seconds 7201⟩) = some
        { runs := [(.queued, 0), (.running, 1), (.completed, 0), (.failed, 0), (.cancelled, 0)]
          shards := [(.queued, 0), (.leased, 1), (.running, 1), (.completed, 0), (.failed, 0),
            (.cancelled, 0), (.deadLetter, 0)]
          outboxPending := 1, staleWorkers := 1, currentExposures := 0, overdueSchedules := 0
          staleRuns := 1 } := by
    decide +kernel
  obtain ⟨tr, t, hp, hgauges⟩ := Path.of_runAll_map hrun
  exact ⟨tr, t, hp, gauges_watch {} 7200 tr t hp, hgauges⟩

end TransportLookout
