/-
The exception handler of `execute_shard`.

The handler runs on the session the scan used, and never rolls it back.  When a
statement of that session raised, its transaction takes no further one, and the
handler's own UPDATE raises as well.  So do the computation of a retry instant
past the last `datetime` and an UPDATE whose error text the database does not
take.  Rows not flushed yet (the session flushes when a host is added, in the
heartbeat's commit and in the last one) are inserted by the handler's own commit
or fail it.  Either way nothing is committed and the task ends with its shard
still running.  Otherwise the UPDATE and the commit after it put the shard back
in the queue or dead-letter it.
-/
import TransportLookout.Library.Path
import TransportLookout.Library.Text
import TransportLookout.System.ShardRows

namespace TransportLookout

open Relational Trace

/-- The last instant a `datetime` holds. -/
def datetimeMax : DateTime := 253402300799999999

namespace Execution

/-- What the handler calls `finish_lease` with, for the shard it has cached. -/
def retryOutcome (settings : Settings) (error : String) (now : DateTime) (shard : ScanShard) :
    Outcome :=
  if shard.attempts ≥ settings.maxShardAttempts then .deadLetter error
  else .retry error (now + seconds (2 ^ shard.attempts * 30))

/-- The instant the retry waits for can be computed. -/
def retryFits (settings : Settings) (now : DateTime) (e : Execution) : Bool :=
  e.shard.all fun shard => shard.attempts ≥ settings.maxShardAttempts ||
    now + seconds (2 ^ shard.attempts * 30) ≤ datetimeMax

/-- The statements of the handler and the commit that follows it. -/
def handler (error : String) (now : DateTime) : List WorkerAction :=
  [.fail error, .finish now, .commitFinish now]

/-- `Execution.step` on the pair of the database and the execution. -/
def next (settings : Settings) (p : Db × Execution) (a : WorkerAction) :
    Option (Db × Execution) :=
  p.2.step p.1 settings a

end Execution

/-! ## What raises -/

/-- The statements of the `try` block that can raise.  `run` is the command itself:
`Popen`, the deadline, `communicate` and the exit code. -/
inductive Statement
  | run
  | refresh
  | currentLease
  | heartbeat
  | commit
  | parse
  | flush
  | storeArtifact
  | writeTargets
  | finishLease
deriving DecidableEq, Repr

/-- The statements the session sends to the database. -/
def Statement.session : Statement → Bool
  | .refresh | .currentLease | .heartbeat | .commit | .flush | .finishLease => true
  | .run | .parse | .storeArtifact | .writeTargets => false

/-- The statement is one of those that come next. -/
def Execution.reaches (e : Execution) (statement : Statement) : Bool :=
  match statement, e.pc with
  | .run, .polling _ | .run, .exited _ => true
  | .refresh, .polling _ | .writeTargets, .polling .nmap => true
  | .currentLease, .refreshed _ | .currentLease, .results => true
  | .heartbeat, .owned _ | .commit, .beating _ _ => true
  | .currentLease, .exited _ => !e.cancelled
  | .finishLease, .exited _ => e.cancelled
  | .parse, .recording _ | .flush, .recording .nmap | .storeArtifact, .recording .nmap => true
  | .storeArtifact, .discovered | .finishLease, .confirmed => true
  | _, _ => false

/-- An exception, as the handler reads it. -/
structure Exc where
  name : String
  stderr : Option String := none
  message : String := ""
deriving DecidableEq, Repr

/-- The error the handler records. -/
def Exc.text (exc : Exc) : String :=
  let detail := Text.strip (match exc.stderr with
    | some stderr => if stderr = "" then exc.message else stderr
    | none => exc.message)
  exc.name ++ ": " ++ if detail = "" then "no error detail" else detail

theorem Execution.inTry_of_reaches {e : Execution} {statement : Statement}
    (h : e.reaches statement = true) (hsession : statement.session = false) :
    e.pc.inTry = true := by
  cases hpc : e.pc with
  | polling | refreshed | owned | exited | recording | discovered | results | confirmed => rfl
  | beating =>
    -- the commit is the only statement there, and one of the session
    cases statement with
    | commit => cases hsession
    | _ => simp [Execution.reaches, hpc] at h
  | _ => cases statement <;> simp [Execution.reaches, hpc] at h

/-! ## What the finalizer counts -/

theorem Db.finalizeWith_isSome {db : Db} {counts : TerminalCounts} {run : ScanRun}
    {actor : String} {now : DateTime} (h : counts.fires run = true → counts.failed ≠ 0) :
    (db.finalizeWith counts run actor now).isSome = true := by
  rw [Db.finalizeWith]
  split
  · next hfires =>
    have hstatus : (counts.finalized run now).status ≠ .completed := by
      simp [TerminalCounts.finalized, h hfires]
    rw [Option.isSome_map, Db.refreshInventory, if_pos hstatus]
    rfl
  · rfl

theorem Db.pending_pos {db : Db} {r : ScanShard} (hr : r ∈ db.shards.rows)
    (hstatus : r.status.terminal = false) : 0 < (db.terminalCounts r.runId).pending :=
  List.countP_pos_iff.mpr ⟨r, hr, by simp [hstatus]⟩

theorem Db.failed_pos {db : Db} {r : ScanShard} (hr : r ∈ db.shards.rows)
    (hstatus : r.status = .deadLetter) : 0 < (db.terminalCounts r.runId).failed :=
  List.countP_pos_iff.mpr ⟨r, hr, by simp [hstatus]⟩

namespace Execution

variable {settings : Settings} {db : Db} {e : Execution}

/-- The pending rows are inserted whatever became of the shard. -/
theorem flush_shards {shards : Table ScanShard} :
    e.flush { db with shards := shards } = (e.flush db).map fun db' =>
      { db' with shards := shards } := by
  simp only [flush]
  cases db.hosts.append? e.hosts with
  | none => rfl
  | some hosts =>
    cases db.services.append? e.services with
    | none => rfl
    | some services =>
      cases db.discoveries.append? e.discoveries with
      | none => rfl
      | some discoveries => rfl

/-- The row of an owner once `finish_lease` has matched it. -/
theorem get_finishLease_of_owns {r : ScanShard} (o : Outcome) (howns : e.owns db = true)
    (hrow : db.shards.get e.shardId = some r) :
    (db.finishLease e.shardId e.leaseToken o).shards.get e.shardId = some (r.finish o) := by
  obtain ⟨q, hq, hrunning, htoken⟩ := Db.currentLease_iff.mp howns
  rw [hrow] at hq
  cases hq
  have hheld : r.held e.shardId e.leaseToken .running = true :=
    ScanShard.held_iff.mpr ⟨Table.get_key hrow, hrunning, htoken⟩
  rw [Db.get_finishLease, hrow, Option.map_some, if_pos hheld]

theorem step_commitFinish_of (settings : Settings) {o : Outcome} {run run' : ScanRun}
    {db₁ db' : Db} {now : DateTime}
    (hpc : e.pc = .finishing o none) (hrun : e.run = some run) (howns : e.owns db = true)
    (hflush : e.flush (db.finishLease e.shardId e.leaseToken o) = some db₁)
    (hfin : db₁.finalizeWith (db₁.terminalCounts run.id) run "worker" now = some (db', run')) :
    e.step db settings (.commitFinish now) =
      some (db', { e.flushed with pc := .finished o.status, run := some run' }) := by
  rw [commitFinish_eq hpc hrun howns hflush, Option.getD_none, hfin, Option.map_some]

/-- A shard the handler has put back or dead-lettered keeps its run from completing. -/
theorem retry_finalizes {run : ScanRun} {shard r : ScanShard} {error : String} {now : DateTime}
    (actor : String) (now' : DateTime) (hrow : db.shards.get e.shardId =
      some (r.finish (retryOutcome settings error now shard))) (hid : run.id = r.runId) :
    (db.finalizeWith (db.terminalCounts run.id) run actor now').isSome = true := by
  have hmem := Table.get_mem hrow
  refine Db.finalizeWith_isSome fun hfires => ?_
  rw [TerminalCounts.fires, Bool.and_eq_true, decide_eq_true_eq] at hfires
  rw [hid] at hfires ⊢
  rw [retryOutcome] at hmem
  split at hmem
  · have hpos := Db.failed_pos hmem rfl
    exact Nat.ne_of_gt hpos
  · have hpos := Db.pending_pos hmem rfl
    exact absurd hfires.2 (Nat.ne_of_gt hpos)

/-- The handler of an owner goes through when its pending rows can be inserted. -/
theorem handler_steps (settings : Settings) (error : String) (now : DateTime) {run : ScanRun}
    {shard r : ScanShard} (htry : e.pc.inTry = true) (hshard : e.shard = some shard)
    (hrun : e.run = some run) (howns : e.owns db = true)
    (hrow : db.shards.get e.shardId = some r) (hid : run.id = r.runId)
    (hflush : (e.flush db).isSome = true) :
    ∃ db' e', runAll (next settings) (db, e) (handler error now) = some (db', e') ∧
      db'.shards.get e.shardId = some (r.finish (retryOutcome settings error now shard)) := by
  obtain ⟨o, ho⟩ : ∃ o, o = retryOutcome settings error now shard := ⟨_, rfl⟩
  have hfail : e.step db settings (.fail error) = some (db, { e with pc := .failing error }) := by
    simp [step, htry]
  have hfinish : { e with pc := .failing error }.step db settings (.finish now) =
      some (db, { e with pc := .finishing o none }) := by
    have hout : ({ e with pc := .failing error } : Execution).outcome settings now = some o := by
      simp only [outcome, hshard, ho, retryOutcome]
      split <;> rfl
    have howns' : ({ e with pc := .failing error } : Execution).owns db = true := howns
    simp only [step, hout, howns', if_true]
  obtain ⟨db₀, hdb₀⟩ := Option.isSome_iff_exists.mp hflush
  let db₁ : Db := { db₀ with shards := (db.finishLease e.shardId e.leaseToken o).shards }
  have hflushed : e.flush (db.finishLease e.shardId e.leaseToken o) = some db₁ := by
    rw [Db.finishLease, flush_shards, hdb₀]
    rfl
  have hrow₁ : db₁.shards.get e.shardId = some (r.finish o) := get_finishLease_of_owns o howns hrow
  obtain ⟨⟨db', run'⟩, hfin⟩ := Option.isSome_iff_exists.mp
    (retry_finalizes "worker" now (ho ▸ hrow₁) hid)
  have hcommit := step_commitFinish_of settings
    (e := { e with pc := .finishing o none }) rfl hrun howns hflushed hfin
  refine ⟨db', { e.flushed with pc := .finished o.status, run := some run' }, ?_, ?_⟩
  · simp only [handler, runAll, next, hfail, Option.bind_some, hfinish, hcommit]
    rfl
  · rw [← ho]
    rcases Db.finalizeWith_spec hfin with ⟨-, rfl, -⟩ | ⟨-, -, hdb'⟩
    · exact hrow₁
    · rw [hdb']
      exact hrow₁

end Execution

/-! ## The handler in the system -/

section
variable {settings : Settings} {s : State} {i : Nat} {e : Execution}

/-- Steps of one execution, as steps of the system. -/
theorem runAll_worker (he : s.executions[i]? = some e) (bs : List WorkerAction) :
    runAll (State.step settings) s (bs.map (Action.worker i)) =
      (runAll (Execution.next settings) (s.db, e) bs).map fun p =>
        { s with db := p.1, executions := s.executions.set i p.2 } := by
  have hlt := (List.getElem?_eq_some_iff.mp he).1
  induction bs generalizing s e with
  | nil =>
    have hsame : s.executions.set i e = s.executions := by
      rw [← (List.getElem?_eq_some_iff.mp he).2, List.set_getElem_self]
    simp only [List.map_nil, runAll, Option.map_some, hsame]
  | cons b bs ih =>
    simp only [List.map_cons, runAll, State.step, he, Option.bind_eq_bind, Option.bind_some,
      Execution.next]
    cases e.step s.db settings b with
    | none => rfl
    | some p =>
      have hset : (s.executions.set i p.2)[i]? = some p.2 := List.getElem?_set_self hlt
      have hlen : i < (s.executions.set i p.2).length := by simpa using hlt
      have hrest := ih (s := { s with db := p.1, executions := s.executions.set i p.2 }) hset hlen
      simp only [List.set_set] at hrest
      exact hrest

/-- What the handler of an owner commits. -/
theorem handler_commits (settings : Settings) (error : String) (now : DateTime) {run : ScanRun}
    {shard r : ScanShard} (he : s.executions[i]? = some e) (htry : e.pc.inTry = true)
    (hshard : e.shard = some shard) (hrun : e.run = some run) (howns : e.owns s.db = true)
    (hrow : s.db.shards.get e.shardId = some r) (hid : run.id = r.runId)
    (hflush : (e.flush s.db).isSome = true) :
    ∃ s', runAll (State.step settings) s ((Execution.handler error now).map (Action.worker i)) =
      some s' ∧ s'.db.shards.get e.shardId =
        some (r.finish (Execution.retryOutcome settings error now shard)) := by
  obtain ⟨db', e', hsteps, hrow'⟩ := Execution.handler_steps settings error now htry
    hshard hrun howns hrow hid hflush
  rw [runAll_worker he, hsteps]
  exact ⟨_, rfl, hrow'⟩

end

end TransportLookout
