/-
What a step can do to a run row.

Three kinds of transaction write a run's status: the start of a scan, a
finalization that fires, and a cancellation.  Each writes back from the copy of
the run its session loaded.  `run_step` says that nothing else does.
-/
import TransportLookout.System.Copies

namespace TransportLookout

open Relational Trace

/-! ## Transactions that decide a run -/

/-- The finalization that fires in the step: the session's copy of the run and
what its queries returned. -/
def State.finalizing (s : State) : Action → Option (ScanRun × TerminalCounts)
  | .worker i (.commitFinish _) => do
    let e ← s.executions[i]?
    let run ← e.run
    match e.pc with
    | .finishing o counts => do
      let db ← e.flush (s.db.finishLease e.shardId e.leaseToken o)
      let counts := counts.getD (db.terminalCounts run.id)
      if counts.fires run then some (run, counts) else none
    | _ => none
  | .finalizeNext p _ => do
    let run ← s.reconciliations[p]?.bind List.head?
    let counts := s.db.terminalCounts run.id
    if counts.fires run then some (run, counts) else none
  | _ => none

/-- The copy of the run a cancellation commits from. -/
def State.cancelling (s : State) : Action → Option ScanRun
  | .commitCancel p _ => (s.cancellations[p]?).map Cancellation.run
  | _ => none

/-- The copy of the run an execution marks running.  A copy that says so already
is not written back. -/
def State.starting (s : State) : Action → Option ScanRun
  | .worker i (.start _) => do
    let e ← s.executions[i]?
    let run ← e.run
    if run.status = .running then none else some run
  | _ => none

/-- The run that the step finalizes or cancels. -/
def State.deciding (s : State) (a : Action) : Option Uuid :=
  ((s.finalizing a).map fun f => f.1.id) <|> (s.cancelling a).map ScanRun.id

/-- The finalization of the step replaces the read model of its run. -/
def State.replacing (s : State) (a : Action) : Option ScanRun :=
  (s.finalizing a).bind fun (run, counts) =>
    if counts.failed = 0 ∧ counts.incomplete = 0 ∧
        (s.db.scopes.get run.inventoryScopeId).isSome then some run
    else none

/-! ## Rows after each write -/

theorem Db.get_flushRun (db : Db) (loaded assigned : ScanRun) (k : Uuid) :
    (db.flushRun loaded assigned).runs.get k = (db.runs.get k).map fun r =>
      if k = loaded.id then ScanRun.writeBack loaded assigned r else r :=
  Table.get_modify db.runs k loaded.id (ScanRun.writeBack loaded assigned) fun _ => rfl

inductive RunStep (s : State) : Action → ScanRun → ScanRun → Prop
  | start {i e now run r} (he : s.executions[i]? = some e) (hrun : e.run = some run)
      (hid : run.id = r.id) :
      RunStep s (.worker i (.start now)) r (ScanRun.writeBack run (e.startCommit s.db run now).2 r)
  | finalize {a run counts now r} (hf : s.finalizing a = some (run, counts))
      (hfires : counts.fires run = true) (hid : run.id = r.id) :
      RunStep s a r (ScanRun.writeBack run (counts.finalized run now) r)
  | cancel {p c now r} (hp : s.cancellations[p]? = some c) (hid : c.run.id = r.id) :
      RunStep s (.commitCancel p now) r (ScanRun.writeBack c.run (Db.cancelledRun c.run now) r)

section
variable {settings : Settings} {s s' : State}

/-- The database a finalizing transaction of the step sees: the committed one, or
the one after the flush of a worker that finishes its shard. -/
def State.SeenBy (s : State) (db : Db) : Prop :=
  db = s.db ∨ ∃ e ∈ s.executions, ∃ o counts, e.pc = .finishing o counts ∧ e.owns s.db = true ∧
    e.flush (s.db.finishLease e.shardId e.leaseToken o) = some db

theorem State.SeenBy.frame {db : Db} (h : s.SeenBy db) :
    db.runs = s.db.runs ∧ db.scopes = s.db.scopes := by
  rcases h with rfl | ⟨e, -, o, counts, -, -, hflush⟩
  · exact ⟨rfl, rfl⟩
  · obtain ⟨_, _, _, -, -, -, rfl⟩ := Execution.flush_frame hflush
    exact ⟨rfl, rfl⟩

/-- A finalization in a step: what the transaction sees and what it commits.  Its
queries ran on what it sees, unless a worker counted the shards earlier. -/
theorem step_finalization {a : Action} (h : s.step settings a = some s')
    (ha : (∃ i now, a = .worker i (.commitFinish now)) ∨ ∃ p now, a = .finalizeNext p now) :
    ∃ (db : Db) (run : ScanRun) (counts : TerminalCounts) (actor : String) (now : DateTime)
      (run' : ScanRun), db.finalizeWith counts run actor now = some (s'.db, run') ∧ s.SeenBy db ∧
      (counts = db.terminalCounts run.id ∨
        ∃ e ∈ s.executions, ∃ o counted, e.pc = .finishing o (some counted)) ∧
      s.finalizing a = (if counts.fires run then some (run, counts) else none) := by
  rcases ha with ⟨i, now, rfl⟩ | ⟨p, now, rfl⟩
  · obtain ⟨e, db', e', he, hstep, rfl⟩ := step_worker h
    have hmem : e ∈ s.executions := List.mem_of_getElem? he
    cases Execution.step_commitFinish hstep with
    | @finish o counts run _ db₁ _ run' hpc hrun howns hflush hfin =>
      refine ⟨db₁, run, _, "worker", now, run', hfin,
        Or.inr ⟨e, hmem, o, counts, hpc, howns, hflush⟩, ?_, ?_⟩
      · cases counts with
        | none => exact Or.inl rfl
        | some counted => exact Or.inr ⟨e, hmem, o, counted, hpc⟩
      · simp only [State.finalizing, he, hrun, hpc, hflush, Option.bind_eq_bind, Option.bind_some]
  · obtain ⟨run, rest, db', run', hp, hfin, rfl⟩ := step_finalizeNext h
    refine ⟨s.db, run, _, "scheduler", now, run', hfin, Or.inl rfl, Or.inl rfl, ?_⟩
    simp only [State.finalizing, hp, Option.bind_eq_bind, Option.bind_some, List.head?_cons]

theorem finalizing_action {a : Action} {f : ScanRun × TerminalCounts}
    (h : s.finalizing a = some f) :
    (∃ i now, a = .worker i (.commitFinish now)) ∨ ∃ p now, a = .finalizeNext p now := by
  cases a with
  | worker i b =>
    cases b with
    | commitFinish now => exact Or.inl ⟨i, now, rfl⟩
    | _ => cases h
  | finalizeNext p now => exact Or.inr ⟨p, now, rfl⟩
  | _ => cases h

/-- A step that finalizes: its finalization fires and is what it commits. -/
theorem step_finalizing {a : Action} {run : ScanRun} {counts : TerminalCounts}
    (h : s.step settings a = some s') (hf : s.finalizing a = some (run, counts)) :
    counts.fires run = true ∧ ∃ (db : Db) (actor : String) (now : DateTime) (run' : ScanRun),
      db.finalizeWith counts run actor now = some (s'.db, run') ∧ s.SeenBy db ∧
      (counts = db.terminalCounts run.id ∨
        ∃ e ∈ s.executions, ∃ o counted, e.pc = .finishing o (some counted)) := by
  obtain ⟨db, run₀, counts₀, actor, now, run', hfin, hseen, hcounts, heq⟩ :=
    step_finalization h (finalizing_action hf)
  rw [hf] at heq
  split at heq
  · next hfires =>
    cases heq
    exact ⟨hfires, db, actor, now, run', hfin, hseen, hcounts⟩
  · cases heq

/-- The runs after a finalization: untouched, or flushed from the copy. -/
theorem finalization_runs {a : Action} (h : s.step settings a = some s')
    (ha : (∃ i now, a = .worker i (.commitFinish now)) ∨ ∃ p now, a = .finalizeNext p now) :
    s'.db.runs = s.db.runs ∨
      ∃ run counts now, s.finalizing a = some (run, counts) ∧ counts.fires run = true ∧
        s'.db.runs = (s.db.flushRun run (counts.finalized run now)).runs := by
  obtain ⟨db, run, counts, actor, now, run', hfin, hseen, -, heq⟩ := step_finalization h ha
  obtain ⟨hruns, -⟩ := hseen.frame
  rcases Db.finalizeWith_spec hfin with ⟨-, hdb, -⟩ | ⟨hfires, hrun', hdb⟩
  · left
    rw [hdb, hruns]
  · right
    refine ⟨run, counts, now, by rw [heq, if_pos hfires], hfires, ?_⟩
    rw [hdb, hrun', Db.flushRun, Db.flushRun, hruns]

theorem Execution.Commit.runs {db db' : Db} {e e' : Execution} {a : WorkerAction}
    (h : e.Commit db a db' e') :
    db'.runs = db.runs ∨ (∃ now, a = .commitFinish now) ∨
      ∃ now run, a = .start now ∧ e.run = some run ∧
        db'.runs = (db.flushRun run (e.startCommit db run now).2).runs := by
  cases h with
  | abandon => exact Or.inl rfl
  | @start run now hpc hrun => exact Or.inr (Or.inr ⟨now, run, rfl, hrun, rfl⟩)
  | beat _ _ _ hflush _ _ =>
    obtain ⟨_, _, _, _, _, _, rfl⟩ := flush_frame hflush
    exact Or.inl rfl
  | beatLost _ _ hflush _ _ =>
    obtain ⟨_, _, _, _, _, _, rfl⟩ := flush_frame hflush
    exact Or.inl rfl
  | @finish _ _ _ now => exact Or.inr (Or.inl ⟨now, rfl⟩)

/-- The runs after a step: untouched, one more, or flushed from a session's copy. -/
theorem runs_step {a : Action} (h : s.step settings a = some s') :
    s'.db.runs = s.db.runs ∨
    (∃ scopeId profileId actor runId shards run,
      a = .createRun scopeId profileId actor runId shards ∧ run.id = runId ∧
        run.status = .queued ∧ s.db.runs.append? [run] = some s'.db.runs) ∨
    (∃ i e now run, a = .worker i (.start now) ∧ s.executions[i]? = some e ∧ e.run = some run ∧
      s'.db.runs = (s.db.flushRun run (e.startCommit s.db run now).2).runs) ∨
    (∃ run counts now, s.finalizing a = some (run, counts) ∧ counts.fires run = true ∧
      s'.db.runs = (s.db.flushRun run (counts.finalized run now)).runs) ∨
    ∃ p now c, a = .commitCancel p now ∧ s.cancellations[p]? = some c ∧
      s'.db.runs = (s.db.flushRun c.run (Db.cancelledRun c.run now)).runs := by
  cases a with
  | createRun scopeId profileId actor runId shards =>
    obtain ⟨_, _, db, -, -, hdb, rfl⟩ := step_createRun h
    obtain ⟨-, -, hruns, -, -⟩ := Db.createRun_ok hdb
    exact Or.inr (Or.inl ⟨scopeId, profileId, actor, runId, shards, _, rfl, rfl, rfl, hruns⟩)
  | commitCancel p now =>
    obtain ⟨c, _, hp, -, rfl⟩ := step_commitCancel h
    exact Or.inr (Or.inr (Or.inr (Or.inr ⟨p, now, c, rfl, hp, rfl⟩)))
  | finalizeNext p now =>
    rcases finalization_runs h (Or.inr ⟨p, now, rfl⟩) with hsame | hfin
    · exact Or.inl hsame
    · exact Or.inr (Or.inr (Or.inr (Or.inl hfin)))
  | worker i b =>
    have h' := h
    obtain ⟨e, db', e', he, hstep, rfl⟩ := step_worker h
    rcases Execution.step_cases hstep with ⟨rfl, -⟩ | hc
    · exact Or.inl rfl
    rcases hc.runs with hsame | ⟨now, rfl⟩ | ⟨now, run, rfl, hrun, hruns⟩
    · exact Or.inl hsame
    · rcases finalization_runs h' (Or.inl ⟨i, now, rfl⟩) with hsame | hfin
      · exact Or.inl hsame
      · exact Or.inr (Or.inr (Or.inr (Or.inl hfin)))
    · exact Or.inr (Or.inr (Or.inl ⟨i, e, now, run, rfl, he, hrun, hruns⟩))
  | _ => exact Or.inl (by rw [queue_frame h rfl])

/-- A committed run outlives every step, kept or rewritten as `RunStep` says. -/
theorem run_step {a : Action} (h : s.step settings a = some s') {k : Uuid} {r : ScanRun}
    (hr : s.db.runs.get k = some r) :
    ∃ r', s'.db.runs.get k = some r' ∧ (r' = r ∨ RunStep s a r r') := by
  have hid : r.id = k := Table.get_key hr
  have hflush : ∀ {loaded assigned : ScanRun},
      s'.db.runs = (s.db.flushRun loaded assigned).runs →
      (loaded.id = r.id → RunStep s a r (ScanRun.writeBack loaded assigned r)) →
      ∃ r', s'.db.runs.get k = some r' ∧ (r' = r ∨ RunStep s a r r') := by
    intro loaded assigned heq hstep
    rw [heq, Db.get_flushRun, hr, Option.map_some]
    by_cases hk : k = loaded.id
    · rw [if_pos hk]
      exact ⟨_, rfl, Or.inr (hstep (hk.symm.trans hid.symm))⟩
    · rw [if_neg hk]
      exact ⟨r, rfl, Or.inl rfl⟩
  rcases runs_step h with heq | ⟨_, _, _, _, _, run, rfl, -, -, heq⟩ |
    ⟨i, e, now, run, rfl, he, hrun, heq⟩ | ⟨run, counts, now, hf, hfires, heq⟩ |
    ⟨p, now, c, rfl, hp, heq⟩
  · exact ⟨r, by rw [heq, hr], Or.inl rfl⟩
  · exact ⟨r, Table.get_append?_of_get heq hr, Or.inl rfl⟩
  · exact hflush heq fun hid => .start he hrun hid
  · exact hflush heq fun hid => .finalize hf hfires hid
  · exact hflush heq fun hid => .cancel hp hid

/-- Only a run creation adds a run, and it adds it queued. -/
theorem run_new {a : Action} (h : s.step settings a = some s') {k : Uuid} {r : ScanRun}
    (hnone : s.db.runs.get k = none) (hr : s'.db.runs.get k = some r) :
    r.status = .queued ∧ ∃ scopeId profileId actor shards,
      a = .createRun scopeId profileId actor k shards := by
  have hflush : ∀ {loaded assigned : ScanRun},
      s'.db.runs = (s.db.flushRun loaded assigned).runs → False := by
    intro loaded assigned heq
    rw [heq, Db.get_flushRun, hnone] at hr
    cases hr
  rcases runs_step h with heq | ⟨scopeId, profileId, actor, runId, shards, run, rfl, rfl, hq, heq⟩ |
    ⟨_, _, _, _, -, -, -, heq⟩ | ⟨_, _, _, -, -, heq⟩ | ⟨_, _, _, -, -, heq⟩
  · rw [heq, hnone] at hr
    cases hr
  · rcases Table.get_append? heq hr with hold | ⟨hnew, -⟩
    · rw [hnone] at hold
      cases hold
    · cases List.mem_singleton.mp hnew
      have hid : r.id = k := Table.get_key hr
      subst hid
      exact ⟨hq, scopeId, profileId, actor, shards, rfl⟩
  · exact (hflush heq).elim
  · exact (hflush heq).elim
  · exact (hflush heq).elim

/-- Only an operator writes scopes and profiles. -/
theorem inventory_step {a : Action} (h : s.step settings a = some s') :
    s'.db.scopes = s.db.scopes ∧ s'.db.profiles = s.db.profiles := by
  have hfinalize : ∀ {db db' : Db} {counts : TerminalCounts} {run run' : ScanRun} {actor : String}
      {now : DateTime}, db.finalizeWith counts run actor now = some (db', run') →
      db'.scopes = db.scopes ∧ db'.profiles = db.profiles := by
    intro db db' counts run run' actor now hfin
    rw [(Db.finalizeWith_frame hfin).1]
    exact ⟨rfl, rfl⟩
  cases a with
  | createRun scopeId profileId actor runId shards =>
    obtain ⟨_, _, db, -, -, hdb, rfl⟩ := step_createRun h
    obtain ⟨-, -, -, -, hframe⟩ := Db.createRun_ok hdb
    rw [hframe]
    exact ⟨rfl, rfl⟩
  | commitCancel p now =>
    obtain ⟨_, _, -, -, rfl⟩ := step_commitCancel h
    exact ⟨rfl, rfl⟩
  | finalizeNext p now =>
    obtain ⟨_, _, _, _, -, hfin, rfl⟩ := step_finalizeNext h
    exact hfinalize hfin
  | worker i b =>
    obtain ⟨e, db', e', he, hstep, rfl⟩ := step_worker h
    rcases Execution.step_cases hstep with ⟨rfl, -⟩ | hc
    · exact ⟨rfl, rfl⟩
    · cases hc with
      | abandon | start => exact ⟨rfl, rfl⟩
      | beat _ _ _ hflush _ _ | beatLost _ _ hflush _ _ =>
        obtain ⟨_, _, _, _, _, _, rfl⟩ := Execution.flush_frame hflush
        exact ⟨rfl, rfl⟩
      | finish _ _ _ hflush hfin =>
        obtain ⟨_, _, _, _, _, _, rfl⟩ := Execution.flush_frame hflush
        obtain ⟨hscopes, hprofiles⟩ := hfinalize hfin
        exact ⟨hscopes, hprofiles⟩
  | _ =>
    rw [queue_frame h rfl]
    exact ⟨rfl, rfl⟩

/-- A run stays with its scope and its profile. -/
theorem RunStep.pair {a : Action} {r r' : ScanRun} (h : RunStep s a r r') : r'.pair = r.pair := by
  cases h <;> rfl

/-- Every shard belongs to a run. -/
def Db.Housed (db : Db) : Prop := ∀ r ∈ db.shards.rows, (db.runs.get r.runId).isSome = true

/-- A new shard comes with its run. -/
theorem housed_step {a : Action} (hh : s.db.Housed) (h : s.step settings a = some s') :
    s'.db.Housed := by
  intro r' hr'
  rcases shard_cases h (Table.get_of_mem hr') with ⟨r, hr, hcase⟩ | hnew
  · have hrun : r'.runId = r.runId := by
      rcases hcase with rfl | hstep
      · rfl
      · exact hstep.runId
    obtain ⟨run, hget⟩ := Option.isSome_iff_exists.mp (hh r (Table.get_mem hr))
    obtain ⟨run', hget', -⟩ := run_step h hget
    rw [hrun, hget']
    rfl
  · obtain ⟨scopeId, profileId, actor, shards, rfl, -⟩ := hnew.created
    obtain ⟨_, _, db, -, -, hdb, rfl⟩ := step_createRun h
    obtain ⟨-, -, hruns, -, -⟩ := Db.createRun_ok hdb
    have hmem : ∃ run ∈ db.runs.rows, run.id = r'.runId := by
      rw [Table.rows_append? hruns]
      exact ⟨_, List.mem_append_right _ (List.mem_singleton_self _), rfl⟩
    obtain ⟨run, hrun, hid⟩ := hmem
    rw [← hid, show db.runs.get run.id = some run from Table.get_of_mem hrun]
    rfl

end

/-! ## Write-backs from loaded runs -/

theorem TerminalCounts.fires_iff {counts : TerminalCounts} {run : ScanRun} :
    counts.fires run = true ↔ run.status.terminal = false ∧ counts.pending = 0 := by
  rw [TerminalCounts.fires, Bool.and_eq_true, Bool.not_eq_true', decide_eq_true_eq]

/-- A finalization that fires leaves its run completed or failed. -/
theorem ScanRun.writeBack_finalized {counts : TerminalCounts} {run : ScanRun}
    (h : counts.fires run = true) (now : DateTime) (r : ScanRun) :
    (ScanRun.writeBack run (counts.finalized run now) r).status =
      if counts.failed ≠ 0 then .failed else .completed := by
  have hterm := (TerminalCounts.fires_iff.mp h).1
  have hne : (counts.finalized run now).status ≠ run.status := by
    intro heq
    rw [← heq] at hterm
    have : (if counts.failed ≠ 0 then RunStatus.failed else .completed).terminal = false := hterm
    split at this
    · cases this
    · cases this
  exact writeBack_of_ne hne _

theorem ScanRun.writeBack_cancelledRun {run : ScanRun} (h : run.status.terminal = false)
    (now : DateTime) (r : ScanRun) :
    (ScanRun.writeBack run (Db.cancelledRun run now) r).status = .cancelled := by
  have hne : (Db.cancelledRun run now).status ≠ run.status := by
    intro heq
    rw [← heq] at h
    cases h
  exact writeBack_of_ne hne _

theorem ScanRun.completedAt_startCommit (e : Execution) (db : Db) (run : ScanRun) (now : DateTime)
    (r : ScanRun) :
    (ScanRun.writeBack run (e.startCommit db run now).2 r).completedAt = r.completedAt :=
  writeBack_self _ _

theorem ScanRun.status_startCommit (e : Execution) (db : Db) (run : ScanRun) (now : DateTime)
    (r : ScanRun) :
    (ScanRun.writeBack run (e.startCommit db run now).2 r).status =
      if run.status = .running then r.status else .running := by
  show Relational.writeBack run.status .running r.status = _
  by_cases h : run.status = .running
  · rw [if_pos h, h, writeBack_self]
  · rw [if_neg h]
    exact writeBack_of_ne (fun heq => h heq.symm) _

/-! ## The read model -/

section
variable {settings : Settings} {s s' : State}

/-- A finalization writes the read model when it completes a fully covered run of
an existing scope, and never otherwise. -/
theorem Db.exposures_finalizeWith {db db' : Db} {counts : TerminalCounts} {run run' : ScanRun}
    {actor : String} {now : DateTime}
    (h : db.finalizeWith counts run actor now = some (db', run')) :
    db'.exposures = db.exposures ∨ (counts.fires run = true ∧ counts.failed = 0 ∧
      counts.incomplete = 0 ∧ (db.scopes.get run.inventoryScopeId).isSome) := by
  rw [Db.finalizeWith] at h
  by_cases hfires : counts.fires run = true
  · rw [if_pos hfires] at h
    obtain ⟨db₁, hrefresh, heq⟩ := Option.map_eq_some_iff.mp h
    cases heq
    rw [Db.refreshInventory] at hrefresh
    split at hrefresh
    · cases hrefresh
      exact Or.inl rfl
    · next hstatus =>
      have hfailed : counts.failed = 0 := by
        by_contra hne
        exact hstatus (show (if counts.failed ≠ 0 then RunStatus.failed else .completed) ≠
          .completed by rw [if_pos hne]; decide)
      split at hrefresh
      · next hincomplete =>
        rw [Db.materializeCurrentExposures] at hrefresh
        split at hrefresh
        · cases hrefresh
          exact Or.inl rfl
        · next scope hscope =>
          refine Or.inr ⟨hfires, hfailed, hincomplete, Option.isSome_iff_exists.mpr ⟨scope, ?_⟩⟩
          exact hscope
      · cases hrefresh
        exact Or.inl rfl
  · rw [if_neg hfires] at h
    cases h
    exact Or.inl rfl

theorem Execution.Commit.exposures {db db' : Db} {e e' : Execution} {a : WorkerAction}
    (h : e.Commit db a db' e') :
    db'.exposures = db.exposures ∨ ∃ now, a = .commitFinish now := by
  cases h with
  | abandon => exact Or.inl rfl
  | start => exact Or.inl rfl
  | beat _ _ _ hflush _ _ =>
    obtain ⟨_, _, _, _, _, _, rfl⟩ := flush_frame hflush
    exact Or.inl rfl
  | beatLost _ _ hflush _ _ =>
    obtain ⟨_, _, _, _, _, _, rfl⟩ := flush_frame hflush
    exact Or.inl rfl
  | @finish _ _ _ now => exact Or.inr ⟨now, rfl⟩

/-- Only a finalization that replaces the read model writes it. -/
theorem exposures_step {a : Action} (h : s.step settings a = some s') :
    s'.db.exposures = s.db.exposures ∨ ∃ run, s.replacing a = some run := by
  have hfinal : ((∃ i now, a = .worker i (.commitFinish now)) ∨ ∃ p now, a = .finalizeNext p now) →
      s'.db.exposures = s.db.exposures ∨ ∃ run, s.replacing a = some run := by
    intro ha
    obtain ⟨db, run, counts, actor, now, run', hfin, hseen, -, heq⟩ := step_finalization h ha
    have hsame : db.exposures = s.db.exposures := by
      rcases hseen with rfl | ⟨_, -, _, _, -, -, hflush⟩
      · rfl
      · obtain ⟨_, _, _, -, -, -, rfl⟩ := Execution.flush_frame hflush
        rfl
    rcases Db.exposures_finalizeWith hfin with hkept | ⟨hfires, hfailed, hincomplete, hscope⟩
    · exact Or.inl (hkept.trans hsame)
    · right
      refine ⟨run, ?_⟩
      rw [hseen.frame.2] at hscope
      rw [State.replacing, heq, if_pos hfires, Option.bind_some]
      exact if_pos ⟨hfailed, hincomplete, hscope⟩
  cases a with
  | createRun =>
    obtain ⟨_, _, _, -, -, hdb, rfl⟩ := step_createRun h
    obtain ⟨-, -, -, -, hframe⟩ := Db.createRun_ok hdb
    left
    show Db.exposures _ = _
    rw [hframe]
  | commitCancel =>
    obtain ⟨_, _, -, -, rfl⟩ := step_commitCancel h
    exact Or.inl rfl
  | finalizeNext p now => exact hfinal (Or.inr ⟨p, now, rfl⟩)
  | worker i b =>
    have hworker : (∃ now, b = .commitFinish now) → s'.db.exposures = s.db.exposures ∨
        ∃ run, s.replacing (.worker i b) = some run := by
      rintro ⟨now, rfl⟩
      exact hfinal (Or.inl ⟨i, now, rfl⟩)
    obtain ⟨_, _, _, -, hstep, rfl⟩ := step_worker h
    rcases Execution.step_cases hstep with ⟨rfl, -⟩ | hc
    · exact Or.inl rfl
    · exact hc.exposures.elim Or.inl hworker
  | _ => exact Or.inl (by rw [queue_frame h rfl])

end

/-! ## Cached runs -/

/-- Every run a session holds a copy of is committed. -/
structure Recorded (s : State) : Prop where
  executing : ∀ e ∈ s.executions, ∀ run, e.run = some run →
    ∃ r, s.db.runs.get run.id = some r
  cancelling : ∀ c ∈ s.cancellations, ∃ r, s.db.runs.get c.run.id = some r
  reconciling : ∀ runs ∈ s.reconciliations, ∀ run ∈ runs, ∃ r, s.db.runs.get run.id = some r

theorem recorded_start (db : Db) : Recorded (State.start db) where
  executing := fun _ h => absurd h List.not_mem_nil
  cancelling := fun _ h => absurd h List.not_mem_nil
  reconciling := fun _ h => absurd h List.not_mem_nil

theorem Db.get_run_id {db : Db} {k : Uuid} {run : ScanRun} (h : db.runs.get k = some run) :
    db.runs.get run.id = some run :=
  Table.get_of_mem (Table.get_mem h)

theorem recorded_step {settings : Settings} {s s' : State} {a : Action} (hr : Recorded s)
    (h : s.step settings a = some s') : Recorded s' := by
  have hkept : ∀ {id : Uuid}, (∃ r, s.db.runs.get id = some r) →
      ∃ r, s'.db.runs.get id = some r := by
    rintro id ⟨r, hget⟩
    obtain ⟨r', hr', -⟩ := run_step h hget
    exact ⟨r', hr'⟩
  refine ⟨?_, ?_, ?_⟩
  · refine executions_step h (fun e he run hrun => hkept (hr.executing e he run hrun)) ?_
      fun _ _ run hrun => by cases hrun
    intro e he i b e' _ hstep run hrun
    have hold := hr.executing e he
    rcases (Execution.step_change hstep).run with hsame | ⟨-, hload⟩ |
      ⟨-, run₀, current, -, hcurrent, hload⟩ | ⟨now, run₀, -, hrun₀, hstart⟩ |
      ⟨_, run₀, run', -, hrun₀, hrun', hid, -⟩
    · exact hkept (hold run (hsame ▸ hrun))
    · rw [hload] at hrun
      obtain ⟨shard, -, hget⟩ := Option.bind_eq_some_iff.mp hrun
      exact hkept ⟨run, Db.get_run_id hget⟩
    · rw [hload] at hrun
      cases hrun
      exact hkept ⟨_, Db.get_run_id hcurrent⟩
    · rw [hstart] at hrun
      cases hrun
      exact hkept (hold run₀ hrun₀)
    · rw [hrun'] at hrun
      cases hrun
      rw [hid]
      exact hkept (hold run₀ hrun₀)
  · refine cancellations_step h (fun c hc => hkept (hr.cancelling c hc)) ?_
      (fun c hc => hkept (hr.cancelling c hc)) fun c hc => hkept (hr.cancelling c hc)
    exact fun _ _ run hrun _ => hkept ⟨run, Db.get_run_id hrun⟩
  · refine reconciliations_step h (fun runs hruns run hrun =>
      hkept (hr.reconciling runs hruns run hrun)) ?_ ?_
    · exact fun run hrun => hkept ⟨run, Table.get_of_mem (Db.mem_activeRuns.mp hrun).1⟩
    · exact fun _ _ hp run hrun => hkept (hr.reconciling _ hp run (List.mem_cons_of_mem _ hrun))

theorem finalizing_recorded {s : State} {a : Action} {f : ScanRun × TerminalCounts}
    (hr : Recorded s) (h : s.finalizing a = some f) : ∃ r, s.db.runs.get f.1.id = some r := by
  rcases finalizing_action h with ⟨i, now, rfl⟩ | ⟨p, now, rfl⟩
  · simp only [State.finalizing, Option.bind_eq_bind] at h
    obtain ⟨e, he, h⟩ := Option.bind_eq_some_iff.mp h
    obtain ⟨run, hrun, h⟩ := Option.bind_eq_some_iff.mp h
    split at h
    · obtain ⟨db, -, h⟩ := Option.bind_eq_some_iff.mp h
      split at h
      · cases h
        exact hr.executing e (List.mem_of_getElem? he) run hrun
      · cases h
    · cases h
  · simp only [State.finalizing, Option.bind_eq_bind] at h
    obtain ⟨run, hrun, h⟩ := Option.bind_eq_some_iff.mp h
    obtain ⟨runs, hruns, hhead⟩ := Option.bind_eq_some_iff.mp hrun
    split at h
    · cases h
      exact hr.reconciling runs (List.mem_of_getElem? hruns) run (List.mem_of_head? hhead)
    · cases h

theorem cancelling_eq_some {s : State} {a : Action} {run : ScanRun}
    (h : s.cancelling a = some run) :
    ∃ p now c, a = .commitCancel p now ∧ s.cancellations[p]? = some c ∧ c.run = run := by
  cases a with
  | commitCancel p now =>
    obtain ⟨c, hc, hrun⟩ := Option.map_eq_some_iff.mp h
    exact ⟨p, now, c, rfl, hc, hrun⟩
  | _ => cases h

theorem deciding_eq_some {s : State} {a : Action} {id : Uuid} (h : s.deciding a = some id) :
    (∃ run counts, s.finalizing a = some (run, counts) ∧ run.id = id) ∨
      ∃ run, s.cancelling a = some run ∧ run.id = id := by
  rw [State.deciding] at h
  cases hf : s.finalizing a with
  | none =>
    rw [hf] at h
    exact Or.inr (Option.map_eq_some_iff.mp h)
  | some f =>
    rw [hf] at h
    cases h
    exact Or.inl ⟨f.1, f.2, rfl, rfl⟩

/-- The run a step decides is committed. -/
theorem deciding_recorded {s : State} {a : Action} {id : Uuid} (hr : Recorded s)
    (h : s.deciding a = some id) : ∃ r, s.db.runs.get id = some r := by
  rcases deciding_eq_some h with ⟨run, counts, hf, rfl⟩ | ⟨run, hc, rfl⟩
  · exact finalizing_recorded hr hf
  · obtain ⟨p, now, c, rfl, hp, rfl⟩ := cancelling_eq_some hc
    exact hr.cancelling c (List.mem_of_getElem? hp)

end TransportLookout
