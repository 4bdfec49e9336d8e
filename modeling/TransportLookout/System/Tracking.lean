/-
What the copies in flight have in common with their rows.

A session writes a run back from the copy it loaded, while others rewrite the row.
`tracks_step` is the rule for a relation between rows and copies: it holds of a copy when
it is loaded, a write of the row by anyone keeps it, and so does the session's own write,
after which the copy is what was assigned.
-/
import TransportLookout.System.RunRows

namespace TransportLookout

open Relational Trace

/-- The row of the copy is there, and related to it. -/
def Db.Tracks (R : ScanRun → ScanRun → Prop) (db : Db) (copy : ScanRun) : Prop :=
  ∃ r, db.runs.get copy.id = some r ∧ R r copy

/-- Every copy of a run that a session holds. -/
structure State.Tracks (R : ScanRun → ScanRun → Prop) (s : State) : Prop where
  executing : ∀ e ∈ s.executions, ∀ run, e.run = some run → s.db.Tracks R run
  cancelling : ∀ c ∈ s.cancellations, s.db.Tracks R c.run
  reconciling : ∀ runs ∈ s.reconciliations, ∀ run ∈ runs, s.db.Tracks R run

section
variable {R : ScanRun → ScanRun → Prop} {db db' : Db} {copy r : ScanRun}

theorem Db.Tracks.of_get (h : db.Tracks R copy) (hr : db.runs.get copy.id = some r) :
    R r copy := by
  obtain ⟨r₀, hr₀, hrelated⟩ := h
  rw [hr] at hr₀
  cases hr₀
  exact hrelated

theorem Db.Tracks.self (hload : ∀ r, R r r) {k : Uuid} (h : db.runs.get k = some r) :
    db.Tracks R r :=
  ⟨r, Db.get_run_id h, hload r⟩

theorem Db.Tracks.of_runs (h : db.Tracks R copy)
    (hkept : ∀ k r, db.runs.get k = some r → db'.runs.get k = some r) : db'.Tracks R copy := by
  obtain ⟨r, hr, hrelated⟩ := h
  exact ⟨r, hkept _ r hr, hrelated⟩

/-- A row that is flushed is related to what the session assigned. -/
theorem Db.Tracks.flush {assigned : ScanRun} (hid : assigned.id = copy.id) (h : db.Tracks R copy)
    (hwrite : ∀ r, db.runs.get copy.id = some r → R r copy →
      R (ScanRun.writeBack copy assigned r) assigned) :
    (db.flushRun copy assigned).Tracks R assigned := by
  obtain ⟨r, hr, hrelated⟩ := h
  refine ⟨ScanRun.writeBack copy assigned r, ?_, hwrite r hr hrelated⟩
  rw [hid, Db.get_flushRun, hr, Option.map_some, if_pos rfl]

theorem State.Tracks.of_db {s : State} (h : s.Tracks R)
    (hkept : ∀ copy, s.db.Tracks R copy → db.Tracks R copy) : { s with db := db }.Tracks R where
  executing := fun e he run hrun => hkept run (h.executing e he run hrun)
  cancelling := fun c hc => hkept c.run (h.cancelling c hc)
  reconciling := fun runs hruns run hrun => hkept run (h.reconciling runs hruns run hrun)

end

theorem tracks_start (R : ScanRun → ScanRun → Prop) (db : Db) : (State.start db).Tracks R where
  executing := fun _ he => absurd he List.not_mem_nil
  cancelling := fun _ hc => absurd hc List.not_mem_nil
  reconciling := fun _ hruns => absurd hruns List.not_mem_nil

section
variable {settings : Settings} {s s' : State} {a : Action}

/-- The copy a finalization is made from. -/
theorem finalizing_copy {run : ScanRun} {counts : TerminalCounts}
    (h : s.finalizing a = some (run, counts)) :
    (∃ e ∈ s.executions, e.run = some run) ∨ ∃ runs ∈ s.reconciliations, run ∈ runs := by
  rcases finalizing_action h with ⟨i, now, rfl⟩ | ⟨p, now, rfl⟩
  · simp only [State.finalizing, Option.bind_eq_bind] at h
    obtain ⟨e, he, h⟩ := Option.bind_eq_some_iff.mp h
    obtain ⟨run₀, hrun, h⟩ := Option.bind_eq_some_iff.mp h
    split at h
    · obtain ⟨db, -, h⟩ := Option.bind_eq_some_iff.mp h
      split at h
      · cases h
        exact Or.inl ⟨e, List.mem_of_getElem? he, hrun⟩
      · cases h
    · cases h
  · simp only [State.finalizing, Option.bind_eq_bind] at h
    obtain ⟨run₀, hrun, h⟩ := Option.bind_eq_some_iff.mp h
    obtain ⟨runs, hruns, hhead⟩ := Option.bind_eq_some_iff.mp hrun
    split at h
    · cases h
      exact Or.inr ⟨runs, List.mem_of_getElem? hruns, List.mem_of_head? hhead⟩
    · cases h

variable {R : ScanRun → ScanRun → Prop}

theorem finalizing_tracks (ht : s.Tracks R) {run : ScanRun} {counts : TerminalCounts}
    (h : s.finalizing a = some (run, counts)) : s.db.Tracks R run := by
  rcases finalizing_copy h with ⟨e, he, hrun⟩ | ⟨runs, hruns, hmem⟩
  · exact ht.executing e he run hrun
  · exact ht.reconciling runs hruns run hmem

/-- What a relation has to be kept by: the writes of the row, and the two writes after
which a session goes on with what it assigned. -/
structure Tracking (R : ScanRun → ScanRun → Prop) (s : State) (a : Action) : Prop where
  load : ∀ r, R r r
  row : ∀ r r' copy, s.db.runs.get r.id = some r → RunStep s a r r' → R r copy → R r' copy
  start : ∀ (e : Execution) (run r : ScanRun) (now : DateTime), s.db.runs.get run.id = some r →
    R r run → R (ScanRun.writeBack run (e.startCommit s.db run now).2 r)
      (e.startCommit s.db run now).2
  finalize : ∀ (run r : ScanRun) (counts : TerminalCounts) (now : DateTime),
    counts.fires run = true → R r run →
      R (ScanRun.writeBack run (counts.finalized run now) r) (counts.finalized run now)

theorem Db.Tracks.step (hR : Tracking R s a) (h : s.step settings a = some s') {copy : ScanRun}
    (hcopy : s.db.Tracks R copy) : s'.db.Tracks R copy := by
  obtain ⟨r, hr, hrelated⟩ := hcopy
  obtain ⟨r', hr', rfl | hstep⟩ := run_step h hr
  · exact ⟨r', hr', hrelated⟩
  · exact ⟨r', hr', hR.row r r' copy (Db.get_run_id hr) hstep hrelated⟩

/-- The copy an execution holds after its own step. -/
theorem Execution.step_tracks {db' : Db} {e e' : Execution} {b : WorkerAction}
    (hR : Tracking R s a) (hold : ∀ run, e.run = some run → s.db.Tracks R run)
    (hkept : ∀ copy, s.db.Tracks R copy → db'.Tracks R copy)
    (h : e.step s.db settings b = some (db', e')) {run : ScanRun} (hrun : e'.run = some run) :
    db'.Tracks R run := by
  rcases (Execution.step_change h).run with hsame | ⟨-, hload⟩ |
    ⟨-, run₀, current, -, hcurrent, hload⟩ | ⟨now, run₀, rfl, hrun₀, hstart⟩ |
    ⟨now, run₀, run', rfl, hrun₀, hrun', -, -⟩
  · exact hkept run (hold run (hsame ▸ hrun))
  · rw [hload] at hrun
    obtain ⟨shard, -, hget⟩ := Option.bind_eq_some_iff.mp hrun
    exact hkept run (.self hR.load hget)
  · rw [hload] at hrun
    cases hrun
    exact hkept run (.self hR.load hcurrent)
  · rw [hstart] at hrun
    cases hrun
    cases Execution.step_start h with
    | start hpc hcopy =>
      rw [hrun₀] at hcopy
      cases hcopy
      exact Db.Tracks.flush rfl (hold run₀ hrun₀) fun r hr hrelated =>
        hR.start e run₀ r now hr hrelated
  · cases Execution.step_commitFinish h with
    | @finish o counts copy _ db₁ _ final hpc hcopy howns hflush hfin =>
      rw [hrun₀] at hcopy
      cases hcopy
      have hfinal : final = run := Option.some.inj hrun
      subst hfinal
      have hruns : db₁.runs = s.db.runs := by
        obtain ⟨_, _, _, -, -, -, rfl⟩ := Execution.flush_frame hflush
        rfl
      have htracks : db₁.Tracks R run₀ := by
        rw [Db.Tracks, hruns]
        exact hold run₀ hrun₀
      rcases Db.finalizeWith_spec hfin with ⟨-, -, hsame⟩ | ⟨hfires, hfinal, hdb⟩
      · rw [hsame]
        exact hkept run₀ (hold run₀ hrun₀)
      · have hflushed : (db₁.flushRun run₀ final).Tracks R final := by
          refine htracks.flush (by rw [hfinal]; rfl) fun r _ hrelated => ?_
          rw [hfinal]
          exact hR.finalize run₀ r _ now hfires hrelated
        rw [hdb]
        exact hflushed

/-- The rule: one step keeps the relation for every copy in flight. -/
theorem tracks_step (hR : Tracking R s a) (ht : s.Tracks R) (h : s.step settings a = some s') :
    s'.Tracks R := by
  have hkept : ∀ copy, s.db.Tracks R copy → s'.db.Tracks R copy := fun copy hcopy =>
    hcopy.step hR h
  constructor
  · refine executions_step h (fun e he run hrun => hkept run (ht.executing e he run hrun)) ?_
      fun _ _ run hrun => by cases hrun
    exact fun e he i b e' _ hstep run hrun =>
      Execution.step_tracks hR (ht.executing e he) hkept hstep hrun
  · refine cancellations_step h (fun c hc => hkept _ (ht.cancelling c hc)) ?_
      (fun c hc => hkept _ (ht.cancelling c hc)) fun c hc => hkept _ (ht.cancelling c hc)
    exact fun _ _ run hrun _ => hkept run (.self hR.load hrun)
  · refine reconciliations_step h (fun runs hruns run hrun =>
      hkept run (ht.reconciling runs hruns run hrun)) ?_ ?_
    · exact fun run hrun =>
        hkept run (.self hR.load (Table.get_of_mem (Db.mem_activeRuns.mp hrun).1))
    · exact fun _ _ hp run hrun =>
        hkept run (ht.reconciling _ hp run (List.mem_cons_of_mem _ hrun))

end

/-! ## The scope and the profile of a run -/

/-- The copies of a run have its scope and its profile. -/
def SamePair (r copy : ScanRun) : Prop := r.pair = copy.pair

section
variable {s : State} {a : Action}

theorem tracking_pair : Tracking SamePair s a where
  load := fun _ => rfl
  row := fun _ _ _ _ hstep hpair => hstep.pair.trans hpair
  start := fun _ _ _ _ _ hpair => hpair
  finalize := fun _ _ _ _ _ hpair => hpair

/-- Whichever copy a dispatch reads, it finds the profile of the row. -/
theorem sessionRun_profileId (ht : s.Tracks SamePair) {runId : Uuid} {session : Session}
    {run : ScanRun} (h : s.sessionRun runId session = some run) :
    ∃ r, s.db.runs.get runId = some r ∧ r.profileId = run.profileId := by
  cases session with
  | fresh => exact ⟨run, h, rfl⟩
  | creator =>
    obtain ⟨r, hr, rfl⟩ := Option.map_eq_some_iff.mp h
    exact ⟨r, hr, rfl⟩
  | worker i =>
    obtain ⟨hcopy, hid⟩ := Option.filter_eq_some_iff.mp h
    obtain ⟨e, he, hrun⟩ := Option.bind_eq_some_iff.mp hcopy
    obtain ⟨r, hr, hpair⟩ := ht.executing e (List.mem_of_getElem? he) run hrun
    rw [of_decide_eq_true hid] at hr
    exact ⟨r, hr, (Prod.mk.inj hpair).2⟩

end

end TransportLookout
