/-
One run for each scheduled instant.

A pass creates the run in one commit and advances `next_run_at` in another, and
the first of them releases its locks.  Until the second one, every pass that
loads the schedule finds it due at the same instant.  What goes wrong is exactly
that: a run is created from a copy of the schedule that is out of date, or while
another pass stands between its two commits.
-/
import TransportLookout.System.Scheduling

namespace TransportLookout

open Relational Trace

namespace Scheduling

/-- The committed `next_run_at` of a schedule. -/
def nextRunAt (s : Scheduling) (k : Uuid) : Option DateTime :=
  (s.control.schedules.get k).map ScanSchedule.nextRunAt

/-- The schedule that pass `p` has created a run for, and not advanced. -/
def standing (s : Scheduling) (p : Nat) : Option ScanSchedule := s.passes[p]?.bind Pass.standing

/-- No two runs were created for one schedule at one instant. -/
def OncePerInstant (s : Scheduling) : Prop := s.instants.Nodup

/-- A run is created from a copy that is up to date, and no pass, running or
crashed, has created one for the schedule and not advanced it. -/
def upToDate (s : Scheduling) : SchedulingAction → Bool
  | .create p _ _ _ =>
    (s.passes[p]?.bind fun pass => pass.due.head?).all fun schedule =>
      s.nextRunAt schedule.id = some schedule.nextRunAt &&
        s.passes.all fun pass => pass.standing.all fun other => other.id ≠ schedule.id
  | _ => true

end Scheduling

def ScanSchedule.instant (schedule : ScanSchedule) : Uuid × DateTime :=
  (schedule.id, schedule.nextRunAt)

/-- Holds as long as every creation was up to date. -/
structure Timely (s : Scheduling) : Prop where
  /-- A copy is out of date only after its run has been created. -/
  loaded : ∀ pass ∈ s.passes, ∀ schedule ∈ pass.due,
    s.nextRunAt schedule.id = some schedule.nextRunAt ∨ schedule.instant ∈ s.instants
  standing : ∀ p schedule, s.standing p = some schedule →
    s.nextRunAt schedule.id = some schedule.nextRunAt ∧ schedule.instant ∈ s.instants
  alone : ∀ p q schedule other, s.standing p = some schedule → s.standing q = some other →
    schedule.id = other.id → p = q
  past : ∀ i ∈ s.instants, ∃ v, s.nextRunAt i.1 = some v ∧
    (i.2 < v ∨ (i.2 = v ∧ ∃ p schedule, s.standing p = some schedule ∧ schedule.id = i.1))

theorem timely_initial : Timely Scheduling.initial where
  loaded := fun _ hpass => absurd hpass List.not_mem_nil
  standing := fun _ _ h => by cases h
  alone := fun _ _ _ _ h => by cases h
  past := fun _ hi => absurd hi List.not_mem_nil

/-! ## What a step does to schedules and passes -/

section
variable {d : Deployment} {s s' : Scheduling}

theorem standing_set {passes : List Pass} {p : Nat} {pass : Pass} (hp : passes[p]? = some pass)
    (pass' : Pass) (q : Nat) :
    (passes.set p pass')[q]?.bind Pass.standing =
      if q = p then pass'.standing else passes[q]?.bind Pass.standing := by
  by_cases hq : q = p
  · subst hq
    rw [if_pos rfl, List.getElem?_set_self (List.getElem?_eq_some_iff.mp hp).1, Option.bind_some]
  · rw [if_neg hq, List.getElem?_set_ne fun h => hq h.symm]

theorem mem_due_set {passes : List Pass} {p : Nat} {pass pass' : Pass} {schedule : ScanSchedule}
    (hp : passes[p]? = some pass) (hdue : ∀ x ∈ pass'.due, x ∈ pass.due)
    (h : ∃ q ∈ passes.set p pass', schedule ∈ q.due) : ∃ q ∈ passes, schedule ∈ q.due := by
  obtain ⟨q, hq, hmem⟩ := h
  rcases List.mem_or_eq_of_mem_set hq with hq | rfl
  · exact ⟨q, hq, hmem⟩
  · exact ⟨pass, List.mem_of_getElem? hp, hdue schedule hmem⟩

theorem standing_some {pass : Pass} {schedule : ScanSchedule}
    (h : pass.standing = some schedule) : pass.due.head? = some schedule := by
  rw [Pass.standing] at h
  split at h
  · exact h
  · cases h

/-- A step that creates no run and advances no schedule. -/
structure Quiet (s s' : Scheduling) : Prop where
  created : s'.created = s.created
  nextRunAt : ∀ k v, s.nextRunAt k = some v → s'.nextRunAt k = some v
  standing : ∀ p, s'.standing p = s.standing p
  loaded : ∀ pass ∈ s'.passes, ∀ schedule ∈ pass.due,
    s.nextRunAt schedule.id = some schedule.nextRunAt ∨ ∃ q ∈ s.passes, schedule ∈ q.due

theorem quiet_other {a : ControlAction} (h : s.step d (.other a) = some s') : Quiet s s' := by
  obtain ⟨hdispatches, hstep, hpasses, hcreated⟩ := scheduling_other h
  refine ⟨hcreated, ?_, ?_, ?_⟩
  · intro k v hv
    obtain ⟨r, hr, rfl⟩ := Option.map_eq_some_iff.mp hv
    have hkept : ∃ r', s'.control.schedules.get k = some r' ∧ r'.nextRunAt = r.nextRunAt := by
      cases a with
      | request q =>
        obtain ⟨db, hok, -⟩ := control_request hstep
        exact perform_nextRunAt hok hr
      | dispatchDue => cases hdispatches
      | system a =>
        obtain ⟨-, -, hsame⟩ := control_system hstep
        exact ⟨r, hsame ▸ hr, rfl⟩
    obtain ⟨r', hr', hsame⟩ := hkept
    exact Option.map_eq_some_iff.mpr ⟨r', hr', hsame⟩
  · intro p
    rw [Scheduling.standing, hpasses]
    rfl
  · intro pass hpass schedule hmem
    exact Or.inr ⟨pass, hpasses ▸ hpass, hmem⟩

theorem quiet_load {now : DateTime} {skipped : List Uuid}
    (h : s.step d (.load now skipped) = some s') : Quiet s s' := by
  cases scheduling_load h
  refine ⟨rfl, fun _ _ hv => hv, ?_, ?_⟩
  · intro p
    show (s.passes ++ [_])[p]?.bind Pass.standing = s.passes[p]?.bind Pass.standing
    rw [List.getElem?_append]
    split
    · rfl
    · next hge =>
      rw [List.getElem?_eq_none (Nat.le_of_not_lt hge)]
      cases p - s.passes.length with
      | zero => rfl
      | succ n => rfl
  · intro pass hpass schedule hmem
    rcases List.mem_append.mp hpass with hpass | hpass
    · exact Or.inr ⟨pass, hpass, hmem⟩
    · cases List.mem_singleton.mp hpass
      have hrow := (Table.mem_select.mp (List.mem_of_mem_filter hmem)).1
      have hget : s.control.schedules.get schedule.id = some schedule := Table.get_of_mem hrow
      left
      rw [Scheduling.nextRunAt, hget]
      rfl

theorem quiet_disable {p : Nat} {scope : Option InventoryScope} {profile : Option ScanProfile}
    (h : s.step d (.disable p scope profile) = some s') : Quiet s s' := by
  obtain ⟨pass, schedule, hp, -, hcreated, rfl⟩ := scheduling_disable h
  refine ⟨rfl, ?_, ?_, ?_⟩
  · intro k v hv
    exact (nextRunAt_disable s.control.schedules schedule.id k).trans hv
  · intro q
    refine (standing_set hp _ q).trans ?_
    split
    · next hq =>
      rw [hq, Scheduling.standing, hp, Option.bind_some, Pass.standing, Pass.standing, hcreated]
      rfl
    · rfl
  · intro q hq x hmem
    exact Or.inr (mem_due_set hp (fun _ => List.mem_of_mem_tail) ⟨q, hq, hmem⟩)

theorem quiet_crash {p : Nat} (h : s.step d (.crash p) = some s') : Quiet s s' := by
  obtain ⟨pass, hp, rfl⟩ := scheduling_crash h
  refine ⟨rfl, fun _ _ hv => hv, ?_, ?_⟩
  · intro q
    refine (standing_set hp _ q).trans ?_
    split
    · next hq =>
      rw [hq, Scheduling.standing, hp]
      rfl
    · rfl
  · intro q hq x hmem
    have hdue : ∀ x ∈ { pass with locking := false, alive := false : Pass }.due, x ∈ pass.due :=
      fun _ hx => hx
    exact Or.inr (mem_due_set hp hdue ⟨q, hq, hmem⟩)

theorem timely_quiet (ht : Timely s) (hq : Quiet s s') : Timely s' := by
  have hinstants : s'.instants = s.instants := by
    rw [Scheduling.instants, hq.created]
    rfl
  constructor
  · intro pass hpass schedule hmem
    rw [hinstants]
    rcases hq.loaded pass hpass schedule hmem with hrow | ⟨q, hqmem, hdue⟩
    · exact Or.inl (hq.nextRunAt _ _ hrow)
    · exact (ht.loaded q hqmem schedule hdue).imp_left (hq.nextRunAt _ _)
  · intro p schedule hstanding
    rw [hq.standing] at hstanding
    rw [hinstants]
    exact (ht.standing p schedule hstanding).imp_left (hq.nextRunAt _ _)
  · intro p q schedule other hp hother
    rw [hq.standing] at hp hother
    exact ht.alone p q schedule other hp hother
  · intro i hi
    rw [hinstants] at hi
    obtain ⟨v, hv, hcase⟩ := ht.past i hi
    refine ⟨v, hq.nextRunAt _ _ hv, hcase.imp_right fun ⟨heq, p, schedule, hp, hid⟩ => ?_⟩
    exact ⟨heq, p, schedule, (hq.standing p).trans hp, hid⟩

/-! ## The two commits -/

theorem upToDate_create {p : Nat} {pass : Pass} {schedule : ScanSchedule}
    {scope : Option InventoryScope} {profile : Option ScanProfile} {run : RunIds}
    (hp : s.passes[p]? = some pass) (hhead : pass.due.head? = some schedule) :
    s.upToDate (.create p scope profile run) = true ↔
      s.nextRunAt schedule.id = some schedule.nextRunAt ∧
        ∀ q other, s.standing q = some other → other.id ≠ schedule.id := by
  rw [Scheduling.upToDate, hp, Option.bind_some, hhead, Option.all_some, Bool.and_eq_true,
    decide_eq_true_eq, List.all_eq_true]
  refine and_congr_right fun _ => ⟨fun h q other hq => ?_, fun h pass hpass => ?_⟩
  · obtain ⟨pass', hpass', hstanding⟩ := Option.bind_eq_some_iff.mp hq
    have hall := h pass' (List.mem_of_getElem? hpass')
    rw [hstanding, Option.all_some, decide_eq_true_eq] at hall
    exact hall
  · obtain ⟨q, hq⟩ := List.mem_iff_getElem?.mp hpass
    cases hstanding : pass.standing with
    | none => rfl
    | some other =>
      have hother : s.standing q = some other := by
        rw [Scheduling.standing, hq, Option.bind_some, hstanding]
      rw [Option.all_some, decide_eq_true_eq]
      exact h q other hother

/-- A creation repeats no instant exactly when it is up to date. -/
theorem once_create {p : Nat} {pass : Pass} {schedule : ScanSchedule}
    {scope : Option InventoryScope} {profile : Option ScanProfile} {run : RunIds}
    (ht : Timely s) (hp : s.passes[p]? = some pass) (hhead : pass.due.head? = some schedule) :
    schedule.instant ∉ s.instants ↔ s.upToDate (.create p scope profile run) = true := by
  rw [upToDate_create hp hhead]
  constructor
  · intro hnew
    have hrow : s.nextRunAt schedule.id = some schedule.nextRunAt :=
      (ht.loaded pass (List.mem_of_getElem? hp) schedule
        (List.mem_of_head? hhead)).resolve_right hnew
    refine ⟨hrow, fun q other hq hid => hnew ?_⟩
    obtain ⟨hother, hmem⟩ := ht.standing q other hq
    rw [hid, hrow, Option.some.injEq] at hother
    rw [ScanSchedule.instant, ← hid, hother]
    exact hmem
  · rintro ⟨hrow, hfree⟩ hmem
    obtain ⟨v, hv, hcase⟩ := ht.past _ hmem
    have hsame : v = schedule.nextRunAt := Option.some.inj (hv.symm.trans hrow)
    rcases hcase with hlt | ⟨-, q, other, hq, hid⟩
    · rw [hsame] at hlt
      exact Int.lt_irrefl _ hlt
    · exact hfree q other hq hid

theorem timely_create {p : Nat} {pass : Pass} {schedule : ScanSchedule} {db : Db} {runId : Uuid}
    (ht : Timely s) (hp : s.passes[p]? = some pass) (hhead : pass.due.head? = some schedule)
    (hrow : s.nextRunAt schedule.id = some schedule.nextRunAt)
    (hfree : ∀ q other, s.standing q = some other → other.id ≠ schedule.id)
    (hs' : s' = { s.commit db s.control.schedules p
        { pass with locking := false, created := true } with
      created := s.created ++ [⟨runId, schedule.id, schedule.nextRunAt⟩] }) : Timely s' := by
  have hnextRunAt : s'.nextRunAt = s.nextRunAt := by rw [hs']; rfl
  have hinstants : s'.instants = s.instants ++ [schedule.instant] := by
    rw [hs', Scheduling.instants, List.map_append]
    rfl
  have hstanding : ∀ q, s'.standing q = if q = p then some schedule else s.standing q := by
    intro q
    rw [hs']
    refine (standing_set hp _ q).trans ?_
    rw [Pass.standing, if_pos rfl, hhead]
    rfl
  have hold : ∀ {i}, i ∈ s.instants → i ∈ s'.instants := by
    intro i hi
    rw [hinstants]
    exact List.mem_append_left _ hi
  have hnew : schedule.instant ∈ s'.instants := by
    rw [hinstants]
    exact List.mem_append_right _ (List.mem_singleton_self _)
  constructor
  · intro q hq x hmem
    rw [hs'] at hq
    have hdue : ∀ x ∈ { pass with locking := false, created := true : Pass }.due, x ∈ pass.due :=
      fun _ hx => hx
    obtain ⟨q', hq', hmem'⟩ := mem_due_set hp hdue ⟨q, hq, hmem⟩
    rw [hnextRunAt]
    exact (ht.loaded q' hq' x hmem').imp_right hold
  · intro q x hq
    rw [hstanding] at hq
    rw [hnextRunAt]
    split at hq
    · cases hq
      exact ⟨hrow, hnew⟩
    · exact (ht.standing q x hq).imp_right hold
  · intro q q' x x' hq hq' hid
    rw [hstanding] at hq hq'
    split at hq
    · next hqp =>
      cases hq
      split at hq'
      · next hqp' => exact hqp.trans hqp'.symm
      · exact absurd hid.symm (hfree q' x' hq')
    · split at hq'
      · cases hq'
        exact absurd hid (hfree q x hq)
      · exact ht.alone q q' x x' hq hq' hid
  · intro i hi
    rw [hnextRunAt]
    rw [hinstants, List.mem_append] at hi
    rcases hi with hi | hi
    · obtain ⟨v, hv, hcase⟩ := ht.past i hi
      refine ⟨v, hv, ?_⟩
      rcases hcase with hlt | ⟨heq, q, x, hq, hid⟩
      · exact Or.inl hlt
      · refine Or.inr ⟨heq, q, x, ?_, hid⟩
        rw [hstanding, if_neg]
        · exact hq
        · rintro rfl
          -- the pass that creates stands at its schedule from now on, and at none before
          obtain ⟨pass', hpass', hsome⟩ := Option.bind_eq_some_iff.mp hq
          rw [hp] at hpass'
          cases hpass'
          have hx := standing_some hsome
          rw [hhead] at hx
          cases hx
          exact hfree q schedule hq rfl
    · cases List.mem_singleton.mp hi
      exact ⟨schedule.nextRunAt, hrow,
        Or.inr ⟨rfl, p, schedule, by rw [hstanding, if_pos rfl], rfl⟩⟩

/-- An advance moves its schedule past every instant a run was created for. -/
theorem timely_advance {p : Nat} (ht : Timely s) (h : s.step d (.advance p) = some s') :
    Timely s' := by
  obtain ⟨pass, schedule, hp, hstands, rfl⟩ := scheduling_advance h
  have hstandingp : s.standing p = some schedule := by
    rw [Scheduling.standing, hp, Option.bind_some, hstands]
  obtain ⟨hrow, hcreated⟩ := ht.standing p schedule hstandingp
  generalize hs' : s.commit _ _ p _ = s'
  have hinstants : s'.instants = s.instants := by rw [← hs']; rfl
  have hnextRunAt : ∀ k, s'.nextRunAt k =
      if k = schedule.id then some (schedule.nextRun pass.now) else s.nextRunAt k := by
    intro k
    rw [← hs']
    refine (nextRunAt_advance s.control.schedules schedule pass.now k).trans ?_
    split
    · next hk =>
      obtain ⟨r, hr, -⟩ := Option.map_eq_some_iff.mp hrow
      rw [hk, hr]
      rfl
    · rfl
  have hstanding : ∀ q, s'.standing q = if q = p then none else s.standing q := by
    intro q
    rw [← hs']
    exact standing_set hp _ q
  have helse : ∀ {q x}, s'.standing q = some x → s.standing q = some x ∧ x.id ≠ schedule.id := by
    intro q x hq
    rw [hstanding] at hq
    split at hq
    · cases hq
    · next hne =>
      exact ⟨hq, fun hid => hne (ht.alone q p x schedule hq hstandingp hid)⟩
  constructor
  · intro q hq x hmem
    rw [← hs'] at hq
    obtain ⟨q', hq', hmem'⟩ := mem_due_set hp (fun _ => List.mem_of_mem_tail) ⟨q, hq, hmem⟩
    rw [hinstants, hnextRunAt]
    rcases ht.loaded q' hq' x hmem' with hx | hx
    · by_cases hid : x.id = schedule.id
      · right
        have hsame : x.nextRunAt = schedule.nextRunAt := by
          rw [hid, hrow] at hx
          exact (Option.some.inj hx).symm
        rw [ScanSchedule.instant, hid, hsame]
        exact hcreated
      · rw [if_neg hid]
        exact Or.inl hx
    · exact Or.inr hx
  · intro q x hq
    obtain ⟨hq', hne⟩ := helse hq
    rw [hinstants, hnextRunAt, if_neg hne]
    exact ht.standing q x hq'
  · intro q q' x x' hq hq' hid
    exact ht.alone q q' x x' (helse hq).1 (helse hq').1 hid
  · intro i hi
    rw [hinstants] at hi
    obtain ⟨v, hv, hcase⟩ := ht.past i hi
    rw [hnextRunAt]
    by_cases hid : i.1 = schedule.id
    · rw [if_pos hid]
      have hlast : v = schedule.nextRunAt := by
        rw [hid, hrow] at hv
        exact (Option.some.inj hv).symm
      have hle : i.2 ≤ v := hcase.elim Int.le_of_lt fun heq => Int.le_of_eq heq.1
      refine ⟨_, rfl, Or.inl (Int.lt_of_le_of_lt hle ?_)⟩
      rw [hlast]
      exact schedule.lt_nextRun pass.now
    · rw [if_neg hid]
      refine ⟨v, hv, ?_⟩
      rcases hcase with hlt | ⟨heq, q, x, hq, hx⟩
      · exact Or.inl hlt
      · refine Or.inr ⟨heq, q, x, ?_, hx⟩
        rw [hstanding, if_neg]
        · exact hq
        · rintro rfl
          rw [hstandingp] at hq
          cases hq
          exact hid hx.symm

/-! ## Runs -/

theorem timely_step {a : SchedulingAction} (ht : Timely s) (hC : s.upToDate a = true)
    (h : s.step d a = some s') : Timely s' := by
  cases a with
  | other a => exact timely_quiet ht (quiet_other h)
  | load now skipped => exact timely_quiet ht (quiet_load h)
  | disable p scope profile => exact timely_quiet ht (quiet_disable h)
  | create p scope profile run =>
    obtain ⟨pass, schedule, db, hp, hhead, -, hs'⟩ := scheduling_create h
    obtain ⟨hrow, hfree⟩ := (upToDate_create hp hhead).mp hC
    exact timely_create ht hp hhead hrow hfree hs'
  | advance p => exact timely_advance ht h
  | crash p => exact timely_quiet ht (quiet_crash h)

theorem once_step {a : SchedulingAction} (ht : Timely s) (ho : s.OncePerInstant)
    (h : s.step d a = some s') : s'.OncePerInstant ↔ s.upToDate a = true := by
  have hsame : s'.created = s.created → s'.OncePerInstant := by
    intro heq
    rw [Scheduling.OncePerInstant, Scheduling.instants, heq]
    exact ho
  cases a with
  | other a => exact iff_of_true (hsame (quiet_other h).created) rfl
  | load now skipped => exact iff_of_true (hsame (quiet_load h).created) rfl
  | disable p scope profile => exact iff_of_true (hsame (quiet_disable h).created) rfl
  | create p scope profile run =>
    obtain ⟨pass, schedule, db, hp, hhead, -, rfl⟩ := scheduling_create h
    rw [← once_create ht hp hhead]
    show (List.map ScheduledRun.instant (s.created ++ _)).Nodup ↔ schedule.instant ∉ s.instants
    rw [List.map_append, List.map_singleton, ← List.concat_eq_append, List.nodup_concat]
    exact and_iff_left ho
  | advance p =>
    obtain ⟨_, _, -, -, rfl⟩ := scheduling_advance h
    exact iff_of_true (hsame rfl) rfl
  | crash p => exact iff_of_true (hsame (quiet_crash h).created) rfl

end

/-- Each schedule has one run at most for each of its instants throughout a run
of the system exactly when every run of a schedule is created up to date. -/
theorem once_per_instant (d : Deployment) (tr : List (Transition Scheduling SchedulingAction))
    (t : Scheduling) (h : Path (Scheduling.step d) Scheduling.initial tr t) :
    (∀ x ∈ tr, x.post.OncePerInstant) ↔ Along Scheduling.upToDate tr := by
  refine h.posts_iff_along_of (J := fun s => Timely s ∧ s.OncePerInstant)
    ⟨timely_initial, List.nodup_nil⟩ ?_ ?_
  · exact fun x hx hJ => once_step hJ.1 hJ.2 (h.step_of_mem hx)
  · intro x hx hJ hC
    exact ⟨timely_step hJ.1 hC (h.step_of_mem hx), (once_step hJ.1 hJ.2 (h.step_of_mem hx)).mpr hC⟩

/-- A pass is killed between its two commits, and the next one finds the schedule
due at the same instant. -/
theorem crashed_pass_repeats :
    ¬ ∀ (d : Deployment) (tr : List (Transition Scheduling SchedulingAction)) (t : Scheduling),
      Path (Scheduling.step d) Scheduling.initial tr t → t.OncePerInstant := by
  intro hall
  have hrun : (runAll (Scheduling.step {}) Scheduling.initial (Demo.inventory.map .other ++
      [.load 0 [], .create 0 none none ⟨"run", fun i => if i = 0 then "s1" else "s2"⟩, .crash 0,
        .load 0 [], .create 1 none none ⟨"again", fun i => if i = 0 then "s3" else "s4"⟩])).map
        Scheduling.instants = some [("schedule", 0), ("schedule", 0)] := by
    decide +kernel
  obtain ⟨tr, t, hp, hobs⟩ := Path.of_runAll_map hrun
  have honce := hall {} tr t hp
  rw [Scheduling.OncePerInstant, hobs] at honce
  exact absurd honce (by decide)

/-- The second pass starts while the first still locks the schedule, and the third
an hour later. -/
theorem once_per_instant_hourly :
    ∃ tr t, Path (Scheduling.step {}) Scheduling.initial tr t ∧
      (∀ x ∈ tr, x.post.OncePerInstant) ∧
      t.instants = [("schedule", 0), ("schedule", seconds 3600)] := by
  have hrun : (runWhile (Scheduling.step {}) Scheduling.upToDate Scheduling.initial
      (Demo.inventory.map .other ++ [.load 0 [], .load 0 [],
        .create 0 none none ⟨"run", fun i => if i = 0 then "s1" else "s2"⟩, .advance 0,
        .load (seconds 3600) [],
        .create 2 none none ⟨"next", fun i => if i = 0 then "s3" else "s4"⟩, .advance 2])).map
        Scheduling.instants = some [("schedule", 0), ("schedule", seconds 3600)] := by
    decide +kernel
  obtain ⟨tr, t, hp, halong, hobs⟩ := Path.of_runWhile_map hrun
  exact ⟨tr, t, hp, (once_per_instant {} tr t hp).mpr halong, hobs⟩

end TransportLookout
