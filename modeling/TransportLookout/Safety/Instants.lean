/-
The instants of a run.

A run that runs has a start, and one that is over has an end.  The write of each status
sets the instant that goes with it, but a session writes from a copy: where the copy has
the instant already, only the status is written.  The row has it too, since no write
takes an instant away, and `Stamping` carries that over to every copy in flight.
-/
import TransportLookout.Safety.Authorized
import TransportLookout.System.Tracking

namespace TransportLookout

open Relational Trace

/-- The columns that go with the status. -/
structure ScanRun.Stamped (r : ScanRun) : Prop where
  running : r.status = .running → r.startedAt.isSome = true
  terminal : r.status.terminal = true → r.completedAt.isSome = true

/-- The row has the instants that the copy has. -/
structure ScanRun.Covers (r copy : ScanRun) : Prop where
  started : copy.startedAt.isSome = true → r.startedAt.isSome = true
  completed : copy.completedAt.isSome = true → r.completedAt.isSome = true

theorem ScanRun.Covers.refl (r : ScanRun) : r.Covers r := ⟨fun h => h, fun h => h⟩

theorem ScanRun.Covers.trans {r r' copy : ScanRun} (h' : r'.Covers r) (h : r.Covers copy) :
    r'.Covers copy :=
  ⟨fun hs => h'.started (h.started hs), fun hs => h'.completed (h.completed hs)⟩

/-- Every run is stamped, and covers the copies of it that sessions hold. -/
structure Stamping (s : State) : Prop where
  row : ∀ r ∈ s.db.runs.rows, r.Stamped
  copies : s.Tracks ScanRun.Covers

/-! ## One write -/

/-- A column is not null after a write of a value, if it was not where the copy was not. -/
theorem isSome_writeBack {α : Type} [DecidableEq α] {loaded current : Option α} {v : α}
    (h : loaded.isSome = true → current.isSome = true) :
    (Relational.writeBack loaded (some v) current).isSome = true := by
  by_cases heq : some v = loaded
  · rw [← heq, writeBack_self]
    exact h (heq ▸ rfl)
  · rw [writeBack_of_ne heq]
    rfl

section
variable {r copy : ScanRun}

theorem covers_start (e : Execution) (db : Db) (now : DateTime) (hc : r.Covers copy)
    (hr : r.Stamped) :
    (ScanRun.writeBack copy (e.startCommit db copy now).2 r).Stamped ∧
      (ScanRun.writeBack copy (e.startCommit db copy now).2 r).Covers r ∧
      (ScanRun.writeBack copy (e.startCommit db copy now).2 r).Covers
        (e.startCommit db copy now).2 := by
  have hstarted : (ScanRun.writeBack copy (e.startCommit db copy now).2 r).startedAt.isSome =
      true := isSome_writeBack hc.started
  have hcompleted := ScanRun.completedAt_startCommit e db copy now r
  refine ⟨⟨fun _ => hstarted, fun hterminal => ?_⟩, ⟨fun _ => hstarted, fun hsome => ?_⟩,
    ⟨fun _ => hstarted, fun hsome => ?_⟩⟩
  · rw [ScanRun.status_startCommit] at hterminal
    split at hterminal
    · rw [hcompleted]
      exact hr.terminal hterminal
    · cases hterminal
  · rw [hcompleted]
    exact hsome
  · rw [hcompleted]
    exact hc.completed hsome

/-- A write of a terminal status and the instant that goes with it. -/
theorem covers_end {assigned : ScanRun} {now : DateTime} (hstarted : assigned.startedAt = copy.startedAt)
    (hcompleted : assigned.completedAt = some now) (hc : r.Covers copy)
    (hstatus : (ScanRun.writeBack copy assigned r).status.terminal = true) :
    (ScanRun.writeBack copy assigned r).Stamped ∧
      (ScanRun.writeBack copy assigned r).Covers r ∧
      (ScanRun.writeBack copy assigned r).Covers assigned := by
  have hkept : (ScanRun.writeBack copy assigned r).startedAt = r.startedAt := by
    show Relational.writeBack copy.startedAt assigned.startedAt r.startedAt = r.startedAt
    rw [hstarted, writeBack_self]
  have hsome : (ScanRun.writeBack copy assigned r).completedAt.isSome = true := by
    show (Relational.writeBack copy.completedAt assigned.completedAt r.completedAt).isSome = true
    rw [hcompleted]
    exact isSome_writeBack hc.completed
  refine ⟨⟨fun hrunning => ?_, fun _ => hsome⟩, ⟨fun h => ?_, fun _ => hsome⟩,
    ⟨fun h => ?_, fun _ => hsome⟩⟩
  · rw [hrunning] at hstatus
    cases hstatus
  · rw [hkept]
    exact h
  · rw [hkept]
    exact hc.started (hstarted ▸ h)

theorem covers_finalized {counts : TerminalCounts} (now : DateTime)
    (hfires : counts.fires copy = true) (hc : r.Covers copy) :
    (ScanRun.writeBack copy (counts.finalized copy now) r).Stamped ∧
      (ScanRun.writeBack copy (counts.finalized copy now) r).Covers r ∧
      (ScanRun.writeBack copy (counts.finalized copy now) r).Covers
        (counts.finalized copy now) := by
  refine covers_end rfl rfl hc ?_
  rw [ScanRun.writeBack_finalized hfires now r]
  split
  · rfl
  · rfl

theorem covers_cancelled (now : DateTime) (hactive : copy.status.terminal = false)
    (hc : r.Covers copy) :
    (ScanRun.writeBack copy (Db.cancelledRun copy now) r).Stamped ∧
      (ScanRun.writeBack copy (Db.cancelledRun copy now) r).Covers r ∧
      (ScanRun.writeBack copy (Db.cancelledRun copy now) r).Covers (Db.cancelledRun copy now) := by
  refine covers_end rfl rfl hc ?_
  rw [ScanRun.writeBack_cancelledRun hactive now r]
  rfl

end

/-! ## Steps -/

section
variable {settings : Settings} {s s' : State} {a : Action}

/-- What a step does to a row keeps its instants and stamps it. -/
theorem RunStep.stamped (hc : Copies s) (hs : Stamping s) {r r' : ScanRun}
    (hr : s.db.runs.get r.id = some r) (h : RunStep s a r r') : r'.Stamped ∧ r'.Covers r := by
  have hstamped := hs.row r (Table.get_mem hr)
  cases h with
  | @start i e now run _ he hrun hid =>
    have hcovers := (hs.copies.executing e (List.mem_of_getElem? he) run hrun).of_get (hid ▸ hr)
    obtain ⟨hnew, hkept, -⟩ := covers_start e s.db now hcovers hstamped
    exact ⟨hnew, hkept⟩
  | @finalize _ run counts now _ hf hfires hid =>
    have hcovers := (finalizing_tracks hs.copies hf).of_get (hid ▸ hr)
    obtain ⟨hnew, hkept, -⟩ := covers_finalized now hfires hcovers
    exact ⟨hnew, hkept⟩
  | @cancel p c now _ hp hid =>
    have hmem := List.mem_of_getElem? hp
    have hcovers := (hs.copies.cancelling c hmem).of_get (hid ▸ hr)
    obtain ⟨hnew, hkept, -⟩ := covers_cancelled now (hc.cancelling c hmem) hcovers
    exact ⟨hnew, hkept⟩

theorem tracking_covers (hc : Copies s) (hs : Stamping s) : Tracking ScanRun.Covers s a where
  load := .refl
  row := fun _ _ _ hr hstep hcovers => (hstep.stamped hc hs hr).2.trans hcovers
  start := fun e _ r now hr hcovers =>
    (covers_start e s.db now hcovers (hs.row r (Table.get_mem hr))).2.2
  finalize := fun _ _ _ now hfires hcovers => (covers_finalized now hfires hcovers).2.2

theorem stamping_step (hc : Copies s) (hs : Stamping s) (hcreates : a.creates = false)
    (h : s.step settings a = some s') : Stamping s' where
  row := by
    intro r' hmem
    have hr' : s'.db.runs.get r'.id = some r' := Table.get_of_mem hmem
    cases hr : s.db.runs.get r'.id with
    | none =>
      obtain ⟨-, _, _, _, _, rfl⟩ := run_new h hr hr'
      cases hcreates
    | some r =>
      obtain ⟨r₁, hr₁, hcase⟩ := run_step h hr
      rw [hr'] at hr₁
      cases hr₁
      rcases hcase with rfl | hstep
      · exact hs.row r' (Table.get_mem hr)
      · exact (hstep.stamped hc hs (Db.get_run_id hr)).1
  copies := tracks_step (tracking_covers hc hs) hs.copies h

end

end TransportLookout
