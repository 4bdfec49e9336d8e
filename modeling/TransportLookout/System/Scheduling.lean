/-
Scheduler passes whose commits interleave.

A pass of `dispatch_due_schedules` loads the due schedules and locks them with
`FOR UPDATE SKIP LOCKED`.  Its first commit releases the locks of all of them,
whichever schedule it is for.  `create_run` commits, and the new `next_run_at` is
a second commit.  Between its commits a pass may stop for ever: the process is
killed, or `create_run` raises.

An UPDATE keyed by the primary key waits for a row another pass has locked.  The
scope and the profile may be objects that the session still holds from an earlier
schedule; no assumption is made on how old such a copy is.
-/
import TransportLookout.System.Operations

namespace TransportLookout

open Relational Trace

/-- A pass in flight: the schedules still to handle as it loaded them, the current
one first. -/
structure Pass where
  now : DateTime
  due : List ScanSchedule
  locking : Bool := true
  created : Bool := false
  alive : Bool := true

/-- The schedule a pass has created a run for, and not advanced. -/
def Pass.standing (pass : Pass) : Option ScanSchedule :=
  if pass.created then pass.due.head? else none

def Pass.locked (pass : Pass) : List Uuid :=
  if pass.locking then pass.due.map ScanSchedule.id else []

/-- A run some pass created, with the `next_run_at` it was created for. -/
structure ScheduledRun where
  runId : Uuid
  scheduleId : Uuid
  scheduledAt : DateTime
deriving DecidableEq, Repr

def ScheduledRun.instant (r : ScheduledRun) : Uuid × DateTime := (r.scheduleId, r.scheduledAt)

structure Scheduling where
  control : Control
  passes : List Pass := []
  created : List ScheduledRun := []

inductive SchedulingAction
  | other (a : ControlAction)
  | load (now : DateTime) (skipped : List Uuid)
  | disable (p : Nat) (scope : Option InventoryScope) (profile : Option ScanProfile)
  | create (p : Nat) (scope : Option InventoryScope) (profile : Option ScanProfile) (run : RunIds)
  | advance (p : Nat)
  | crash (p : Nat)

def ControlAction.dispatches : ControlAction → Bool
  | .dispatchDue .. => true
  | _ => false

/-- `session.get`: the object the session holds, or the row. -/
def getCached {ρ : Type} [Keyed ρ Uuid] (t : Table ρ) (copy : Option ρ) (k : Uuid) :
    Option ρ :=
  (copy.filter fun r => Keyed.key r = k).or (t.get k)

namespace Scheduling

def locked (s : Scheduling) : List Uuid := s.passes.flatMap Pass.locked

/-- What the passes other than `p` have locked. -/
def lockedBeside (s : Scheduling) (p : Nat) : List Uuid :=
  (s.passes.eraseIdx p).flatMap Pass.locked

def instants (s : Scheduling) : List (Uuid × DateTime) := s.created.map ScheduledRun.instant

/-- The scope and profile that pass finds for a schedule. -/
def target (s : Scheduling) (schedule : ScanSchedule) (scope : Option InventoryScope)
    (profile : Option ScanProfile) : Option (InventoryScope × ScanProfile) :=
  dispatchable (getCached s.control.base.db.scopes scope schedule.inventoryScopeId)
    (getCached s.control.base.db.profiles profile schedule.profileId)

/-- The due schedules that no other transaction has locked. -/
def unlockedDue (s : Scheduling) (now : DateTime) (skipped : List Uuid) : List ScanSchedule :=
  (dueSchedules s.control.schedules now).filter fun schedule => schedule.id ∉ skipped ++ s.locked

/-- A commit of pass `p`, which leaves the pass as `pass`. -/
def commit (s : Scheduling) (db : Db) (schedules : Table ScanSchedule) (p : Nat) (pass : Pass) :
    Scheduling :=
  { s with
    control := { base := { s.control.base with db := db }, schedules := schedules }
    passes := s.passes.set p pass }

def step (d : Deployment) (s : Scheduling) : SchedulingAction → Option Scheduling
  | .other a =>
    if a.dispatches then none
    else do
      let control ← s.control.step d a
      if ∀ k ∈ s.locked, control.schedules.get k = s.control.schedules.get k then
        some { s with control := control }
      else none
  | .load now skipped =>
    some { s with passes := s.passes ++ [{ now := now, due := s.unlockedDue now skipped }] }
  | .disable p scope profile => do
    let pass ← s.passes[p]?
    let schedule ← pass.due.head?
    if pass.alive ∧ !pass.created ∧ s.target schedule scope profile = none ∧
        schedule.id ∉ s.lockedBeside p then
      some (s.commit (s.control.base.db.auditDisabled schedule)
        (TransportLookout.disable s.control.schedules schedule.id) p
        { pass with due := pass.due.tail, locking := false })
    else none
  | .create p scope profile run => do
    let pass ← s.passes[p]?
    let schedule ← pass.due.head?
    let (scope, profile) ← s.target schedule scope profile
    if pass.alive ∧ !pass.created ∧ (s.control.base.db.scopes.get scope.id).isSome ∧
        (s.control.base.db.profiles.get profile.id).isSome then
      match s.control.base.db.createRunIn d.policy d.isIpv6 scope profile schedule.createdBy
          run.runId run.shardId with
      | .ok db =>
        some {
          s.commit db s.control.schedules p { pass with locking := false, created := true } with
          created := s.created ++ [⟨run.runId, schedule.id, schedule.nextRunAt⟩] }
      | .error _ => none
    else none
  | .advance p => do
    let pass ← s.passes[p]?
    let schedule ← pass.standing
    if pass.alive ∧ schedule.id ∉ s.lockedBeside p then
      some (s.commit (s.control.base.db.auditDispatched schedule)
        (TransportLookout.advance s.control.schedules schedule pass.now) p
        { pass with due := pass.due.tail, created := false })
    else none
  | .crash p => do
    let pass ← s.passes[p]?
    return { s with passes := s.passes.set p { pass with locking := false, alive := false } }

def initial : Scheduling := { control := Control.initial }

end Scheduling

/-! ## What a step can do -/

section
variable {d : Deployment} {s s' : Scheduling}

theorem scheduling_other {a : ControlAction} (h : s.step d (.other a) = some s') :
    a.dispatches = false ∧ s.control.step d a = some s'.control ∧ s'.passes = s.passes ∧
      s'.created = s.created := by
  simp only [Scheduling.step] at h
  split at h
  · cases h
  · next hdispatches =>
    obtain ⟨control, hcontrol, h⟩ := Option.bind_eq_some_iff.mp h
    split at h
    · cases h
      exact ⟨Bool.eq_false_iff.mpr hdispatches, hcontrol, rfl, rfl⟩
    · cases h

theorem scheduling_load {now : DateTime} {skipped : List Uuid}
    (h : s.step d (.load now skipped) = some s') :
    s' = { s with
      passes := s.passes ++ [{ now := now, due := s.unlockedDue now skipped }] } := by
  cases h
  rfl

theorem scheduling_disable {p : Nat} {scope : Option InventoryScope} {profile : Option ScanProfile}
    (h : s.step d (.disable p scope profile) = some s') :
    ∃ pass schedule, s.passes[p]? = some pass ∧ pass.due.head? = some schedule ∧
      pass.created = false ∧
      s' = s.commit (s.control.base.db.auditDisabled schedule)
        (disable s.control.schedules schedule.id) p
        { pass with due := pass.due.tail, locking := false } := by
  simp only [Scheduling.step] at h
  obtain ⟨pass, hp, h⟩ := Option.bind_eq_some_iff.mp h
  obtain ⟨schedule, hhead, h⟩ := Option.bind_eq_some_iff.mp h
  split at h
  · next hg =>
    cases h
    exact ⟨pass, schedule, hp, hhead, by simpa using hg.2.1, rfl⟩
  · cases h

theorem scheduling_create {p : Nat} {scope : Option InventoryScope} {profile : Option ScanProfile}
    {run : RunIds} (h : s.step d (.create p scope profile run) = some s') :
    ∃ pass schedule db, s.passes[p]? = some pass ∧ pass.due.head? = some schedule ∧
      pass.created = false ∧
      s' = { s.commit db s.control.schedules p { pass with locking := false, created := true } with
        created := s.created ++ [⟨run.runId, schedule.id, schedule.nextRunAt⟩] } := by
  simp only [Scheduling.step] at h
  obtain ⟨pass, hp, h⟩ := Option.bind_eq_some_iff.mp h
  obtain ⟨schedule, hhead, h⟩ := Option.bind_eq_some_iff.mp h
  obtain ⟨⟨scope, profile⟩, -, h⟩ := Option.bind_eq_some_iff.mp h
  split at h
  · next hg =>
    split at h
    · next db hdb =>
      cases h
      exact ⟨pass, schedule, db, hp, hhead, by simpa using hg.2.1, rfl⟩
    · cases h
  · cases h

theorem scheduling_advance {p : Nat} (h : s.step d (.advance p) = some s') :
    ∃ pass schedule, s.passes[p]? = some pass ∧ pass.standing = some schedule ∧
      s' = s.commit (s.control.base.db.auditDispatched schedule)
        (advance s.control.schedules schedule pass.now) p
        { pass with due := pass.due.tail, created := false } := by
  simp only [Scheduling.step] at h
  obtain ⟨pass, hp, h⟩ := Option.bind_eq_some_iff.mp h
  obtain ⟨schedule, hstanding, h⟩ := Option.bind_eq_some_iff.mp h
  split at h
  · cases h
    exact ⟨pass, schedule, hp, hstanding, rfl⟩
  · cases h

theorem scheduling_crash {p : Nat} (h : s.step d (.crash p) = some s') :
    ∃ pass, s.passes[p]? = some pass ∧
      s' = { s with passes := s.passes.set p { pass with locking := false, alive := false } } := by
  simp only [Scheduling.step] at h
  obtain ⟨pass, hp, h⟩ := Option.bind_eq_some_iff.mp h
  cases h
  exact ⟨pass, hp, rfl⟩

end

end TransportLookout
