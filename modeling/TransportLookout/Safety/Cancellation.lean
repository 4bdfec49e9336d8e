/-
Cancellation closes the queue of a run.

Here a cancellation and a recovery are atomic, each reading and writing in one
step; every other transaction keeps its own steps.  A cancellation leaves no
shard of its run queued or leased, and a dispatch leases queued shards only.
What can fill the queue of a cancelled run again is a shard that was running
when it was cancelled: re-queued by a recovery, or by its worker's retry.
-/
import TransportLookout.Safety.Outbox
import TransportLookout.System.RunRows

namespace TransportLookout

open Relational Trace

/-- The steps of a recovery and of a cancellation. -/
def Action.partOfOperation : Action → Bool
  | .loadStale .. | .commitRecovery .. | .loadCancel .. | .selectCancel .. | .commitCancel .. =>
    true
  | _ => false

inductive Operation
  | single (a : Action)
  | recover (now : DateTime)
  | cancel (runId : Uuid) (actor : String) (now : DateTime)
deriving DecidableEq, Repr

/-- One operation: its steps without interruption. -/
def State.operate (settings : Settings) (s : State) : Operation → Option State
  | .single a => if a.partOfOperation then none else s.step settings a
  | .recover now =>
    runAll (State.step settings) s [.loadStale now, .commitRecovery s.recoveries.length]
  | .cancel runId actor now =>
    runAll (State.step settings) s [.loadCancel runId actor, .selectCancel s.cancellations.length,
      .commitCancel s.cancellations.length now]

def Pc.requeues : Pc → Bool
  | .finishing o _ => o.status = .queued
  | _ => false

def Db.runCancelled (db : Db) (runId : Uuid) : Bool :=
  (db.runs.get runId).any fun run => run.status = .cancelled

/-- No recovery and no retry puts a shard of a cancelled run back in the queue. -/
def State.leavesCancelled (settings : Settings) (s : State) : Operation → Bool
  | .recover now => (Db.staleShards settings s.db now).all fun l => !s.db.runCancelled l.runId
  | .single (.worker i (.commitFinish _)) => (s.executions[i]?).all fun e =>
      !e.pc.requeues || (s.db.shards.get e.shardId).all fun r => !s.db.runCancelled r.runId
  | _ => true

section
variable {settings : Settings} {s s' : State}

theorem operate_single {a : Action} (h : s.operate settings (.single a) = some s') :
    a.partOfOperation = false ∧ s.step settings a = some s' := by
  rw [State.operate] at h
  split at h
  · cases h
  · next hpart => exact ⟨Bool.eq_false_iff.mpr hpart, h⟩

/-- A recovery flushes exactly what it finds stale in the same state. -/
theorem operate_recover {now : DateTime} (h : s.operate settings (.recover now) = some s') :
    s'.db = s.db.flushShards (Db.staleShards settings s.db now) ScanShard.requeued := by
  rw [State.operate] at h
  obtain ⟨s₁, h₁, h⟩ := Option.bind_eq_some_iff.mp h
  obtain ⟨s₂, h₂, h⟩ := Option.bind_eq_some_iff.mp h
  cases h
  cases step_loadStale h₁
  obtain ⟨stale, hp, rfl⟩ := step_commitRecovery h₂
  rw [List.getElem?_append_right (Nat.le_refl _), Nat.sub_self] at hp
  cases hp
  rfl

theorem operate_cancel {runId : Uuid} {actor : String} {now : DateTime}
    (h : s.operate settings (.cancel runId actor now) = some s') :
    ∃ run, s.db.runs.get runId = some run ∧ run.status.terminal = false ∧
      s'.db = s.db.commitCancellation run (s.db.cancellableShards run.id) actor now := by
  rw [State.operate] at h
  obtain ⟨s₁, h₁, h⟩ := Option.bind_eq_some_iff.mp h
  obtain ⟨s₂, h₂, h⟩ := Option.bind_eq_some_iff.mp h
  obtain ⟨s₃, h₃, h⟩ := Option.bind_eq_some_iff.mp h
  cases h
  obtain ⟨run, hrun, hterm, rfl⟩ := step_loadCancel h₁
  obtain ⟨c, hc, -, rfl⟩ := step_selectCancel h₂
  rw [List.getElem?_append_right (Nat.le_refl _), Nat.sub_self] at hc
  cases hc
  obtain ⟨c', shards, hc', hphase, rfl⟩ := step_commitCancel h₃
  rw [List.getElem?_set_self (by rw [List.length_append]; exact Nat.lt_succ_self _)] at hc'
  cases hc'
  cases hphase
  exact ⟨run, hrun, hterm, rfl⟩

/-- An operation is a stretch of the system's own steps. -/
theorem operate_path {op : Operation} (h : s.operate settings op = some s') :
    ∃ tr, Path (State.step settings) s tr s' := by
  cases op with
  | single a => exact ⟨_, Path.single (operate_single h).2⟩
  | recover now =>
    obtain ⟨tr, hp, -⟩ := Path.of_runAll (show runAll (State.step settings) s _ = some s' from h)
    exact ⟨tr, hp⟩
  | cancel runId actor now =>
    obtain ⟨tr, hp, -⟩ := Path.of_runAll (show runAll (State.step settings) s _ = some s' from h)
    exact ⟨tr, hp⟩

theorem operations_path {tr : List (Transition State Operation)} {t : State}
    (h : Path (State.operate settings) s tr t) :
    ∃ tr', Path (State.step settings) s tr' t := by
  induction h with
  | nil => exact ⟨[], Path.nil⟩
  | snoc _ hs ih =>
    obtain ⟨tr₁, h₁⟩ := ih
    obtain ⟨tr₂, h₂⟩ := operate_path hs
    exact ⟨tr₁ ++ tr₂, h₁.trans h₂⟩

end

/-! ## Running shards -/

/-- A running shard is run by an execution that holds its token. -/
def Attended (s : State) : Prop :=
  ∀ k r, s.db.shards.get k = some r → r.status = .running →
    ∃ e ∈ s.executions, e.shardId = k ∧ r.leaseToken = some e.leaseToken

section
variable {settings : Settings} {s s' : State} {a : Action}

theorem attended_step (hc : Copies s) (hi : Intents s) (ha : Attended s)
    (h : s.step settings a = some s') : Attended s' := by
  have hkept : ∀ {k : Uuid} {token : Option Uuid},
      (∃ e ∈ s.executions, e.shardId = k ∧ token = some e.leaseToken) →
      ∃ e ∈ s'.executions, e.shardId = k ∧ token = some e.leaseToken := by
    rintro k token ⟨e, he, hshard, htoken⟩
    obtain ⟨e', he', hshard', htoken'⟩ := executes_step h ⟨e, he, hshard, rfl⟩
    exact ⟨e', he', hshard', by rw [htoken', htoken]⟩
  intro k r' hr' hrunning
  rcases shard_cases h hr' with ⟨r, hr, rfl | hstep⟩ | hnew
  · exact hkept (ha k r' hr hrunning)
  · cases hstep with
    | lease => cases hrunning
    | bind hp _ hphase => exact absurd hphase (hi.fenced hp _)
    | recover hp hl _ =>
      have hstatus := hc.stale _ (List.mem_of_getElem? hp) _ hl
      rw [(ScanShard.writeBack_requeued hstatus r).1] at hrunning
      cases hrunning
    | cancel hp hl _ =>
      have hstatus := (hc.selected _ (List.mem_of_getElem? hp) _ hl).1
      rw [ScanShard.writeBack_cancelled hstatus] at hrunning
      cases hrunning
    | @claim shardId token workerId now _ hsent hheld =>
      obtain ⟨hid, -, htoken⟩ := ScanShard.held_iff.mp hheld
      have hk : shardId = k := hid.symm.trans (Table.get_key hr)
      subst hk
      obtain ⟨-, ⟨hnone, -⟩ | ⟨db, hdb, rfl⟩⟩ := step_deliver h
      · have hsome := Db.claimLease_of_held hr hheld workerId now
        rw [hnone] at hsome
        cases hsome
      · refine ⟨{ shardId := shardId, leaseToken := token }, ?_, rfl, htoken⟩
        exact List.mem_append_right _ (List.mem_singleton_self _)
    | beat => exact hkept (ha k r hr hrunning)
    | @finish _ _ _ o => cases o <;> cases hrunning
  · rw [hnew.blank] at hrunning
    cases hrunning

theorem attended_run {scopes : Table InventoryScope} {profiles : Table ScanProfile}
    {tr : List (Transition State Action)} {t : State}
    (h : Run settings (State.initial scopes profiles) tr t) : Attended t := by
  have hinv : (Copies t ∧ Intents t) ∧ Attended t :=
    Path.invariant (I := fun s => (Copies s ∧ Intents s) ∧ Attended s) (C := fun _ _ => true) h
      ⟨⟨copies_start _, intents_start scopes profiles⟩,
        fun _ _ hr => absurd (Table.get_mem hr) List.not_mem_nil⟩
      (fun _ _ _ ⟨⟨hc, hi⟩, ha⟩ _ hs =>
        ⟨⟨copies_step hc hs, intents_step hc hi hs⟩, attended_step hc hi ha hs⟩) fun _ _ => rfl
  exact hinv.2

end

/-! ## The queue of a cancelled run -/

/-- No shard of a cancelled run is queued or leased. -/
def Closed (db : Db) : Prop :=
  ∀ k r, db.shards.get k = some r → db.runCancelled r.runId = true →
    r.status ≠ .queued ∧ r.status ≠ .leased

section
variable {settings : Settings} {s s' : State}

theorem Db.runCancelled_iff {db : Db} {id : Uuid} :
    db.runCancelled id = true ↔ ∃ run, db.runs.get id = some run ∧ run.status = .cancelled := by
  rw [Db.runCancelled, Option.any_eq_true]
  constructor
  · rintro ⟨run, hrun, hstatus⟩
    exact ⟨run, hrun, of_decide_eq_true hstatus⟩
  · rintro ⟨run, hrun, hstatus⟩
    exact ⟨run, hrun, decide_eq_true hstatus⟩

/-- Only a cancellation makes a run cancelled. -/
theorem runCancelled_before {a : Action} (h : s.step settings a = some s')
    (hpart : a.partOfOperation = false) {id : Uuid} (hc : s'.db.runCancelled id = true) :
    s.db.runCancelled id = true := by
  obtain ⟨r', hr', hcancelled⟩ := Db.runCancelled_iff.mp hc
  rw [Db.runCancelled_iff]
  cases hr : s.db.runs.get id with
  | none =>
    rw [(run_new h hr hr').1] at hcancelled
    cases hcancelled
  | some r =>
    refine ⟨r, rfl, ?_⟩
    obtain ⟨r'', hr'', hcase⟩ := run_step h hr
    rw [hr'] at hr''
    cases hr''
    rcases hcase with rfl | hstep
    · exact hcancelled
    cases hstep with
    | start he hrun hid =>
      rw [ScanRun.status_startCommit] at hcancelled
      split at hcancelled
      · exact hcancelled
      · cases hcancelled
    | finalize hf hfires hid =>
      rw [ScanRun.writeBack_finalized hfires] at hcancelled
      split at hcancelled <;> cases hcancelled
    | cancel => cases hpart

/-- A new shard's run is not cancelled. -/
theorem newShard_open {a : Action} (h : s.step settings a = some s') {r : ScanShard}
    (hnew : NewShard s a r) : s'.db.runCancelled r.runId = false := by
  obtain ⟨scopeId, profileId, actor, shards, rfl, -⟩ := hnew.created
  by_contra hc
  have hbefore := runCancelled_before h rfl (Bool.eq_true_of_not_eq_false hc)
  obtain ⟨run, hrun, -⟩ := Db.runCancelled_iff.mp hbefore
  obtain ⟨scope, profile, db, -, -, hdb, rfl⟩ := step_createRun h
  obtain ⟨-, -, hruns, -, -⟩ := Db.createRun_ok hdb
  obtain ⟨added, hid, hadded⟩ : ∃ added : ScanRun, added.id = r.runId ∧ added.status = .queued ∧
      s.db.runs.append? [added] = some db.runs := ⟨_, rfl, rfl, hruns⟩
  obtain ⟨hqueued, hadded⟩ := hadded
  -- both rows would have the id of the new run
  obtain ⟨run', hrun', hstatus⟩ := Db.runCancelled_iff.mp (Bool.eq_true_of_not_eq_false hc)
  have hmem : added ∈ db.runs.rows := by
    rw [Table.rows_append? hadded]
    exact List.mem_append_right _ (List.mem_singleton_self _)
  have hget : db.runs.get r.runId = some added := by
    rw [← hid]
    exact Table.get_of_mem hmem
  rw [show db.runs.get r.runId = some run' from hrun'] at hget
  cases hget
  rw [hqueued] at hstatus
  cases hstatus

theorem closed_single {a : Action} (hclosed : Closed s.db)
    (hpart : a.partOfOperation = false) (hok : s.leavesCancelled settings (.single a) = true)
    (h : s.step settings a = some s') : Closed s'.db := by
  intro k r' hr' hcancelled
  rcases shard_cases h hr' with ⟨r, hr, hcase⟩ | hnew
  · have hrun : r'.runId = r.runId := by
      rcases hcase with rfl | hstep
      · rfl
      · exact hstep.runId
    have hbefore := runCancelled_before h hpart hcancelled
    rw [hrun] at hbefore
    obtain ⟨hq, hl⟩ := hclosed k r hr hbefore
    rcases hcase with rfl | hstep
    · exact ⟨hq, hl⟩
    cases hstep with
    | lease _ _ _ _ hchosen _ => exact absurd (Db.mem_dispatchableShards hchosen).2.2 hq
    | bind =>
      rw [ScanShard.writeBack_bound]
      exact ⟨hq, hl⟩
    | recover => cases hpart
    | cancel => cases hpart
    | claim _ hheld => exact absurd (ScanShard.held_iff.mp hheld).2.1 hl
    | beat => exact ⟨hq, hl⟩
    | @finish i e b o _ he ho hheld =>
      have hnot : o.status ≠ .queued := by
        rcases ho with ⟨-, -, hout⟩ | ⟨now, counts, rfl, hpc⟩
        · exact Execution.abandonOutcome_status hout
        · intro hqueued
          have hid : r.id = e.shardId := (ScanShard.held_iff.mp hheld).1
          rw [State.leavesCancelled, he, Option.all_some, hpc, Pc.requeues,
            decide_eq_true hqueued, ← hid, show s.db.shards.get r.id = some r from
              Table.get_of_mem (Table.get_mem hr), Option.all_some, hbefore] at hok
          cases hok
      cases o with
      | retry => exact absurd rfl hnot
      | _ =>
        constructor
        · intro h
          cases h
        · intro h
          cases h
  · have hopen := newShard_open h hnew
    rw [hopen] at hcancelled
    cases hcancelled

theorem closed_recover {now : DateTime} (hclosed : Closed s.db)
    (hok : s.leavesCancelled settings (.recover now) = true)
    (h : s.operate settings (.recover now) = some s') : Closed s'.db := by
  have hdb := operate_recover h
  intro k r' hr' hcancelled
  have hruns : s'.db.runs = s.db.runs := by
    rw [hdb]
    rfl
  rw [Db.runCancelled, hruns] at hcancelled
  rw [hdb, Db.get_flushShards] at hr'
  obtain ⟨r, hr, heq⟩ := Option.map_eq_some_iff.mp hr'
  split at heq
  · next l hfind =>
    subst heq
    have hmem := List.mem_of_find?_eq_some hfind
    have hid : l.id = r.id := by simpa using List.find?_some hfind
    have hrow : l = r :=
      s.db.shards.eq_of_key (Db.mem_staleShards hmem).1 (Table.get_mem hr) hid
    have hopen := List.all_eq_true.mp hok l hmem
    rw [hrow, Db.runCancelled, show (s.db.runs.get r.runId).any _ = true from hcancelled] at hopen
    cases hopen
  · subst heq
    exact hclosed k r hr hcancelled

theorem closed_cancel {runId : Uuid} {actor : String} {now : DateTime} (hclosed : Closed s.db)
    (h : s.operate settings (.cancel runId actor now) = some s') : Closed s'.db := by
  obtain ⟨run, hrun, hterm, hdb⟩ := operate_cancel h
  intro k r' hr' hcancelled
  have hget : s'.db.shards.get k = ((s.db.flushRun run (Db.cancelledRun run now)).flushShards
      (s.db.cancellableShards run.id) fun s => { s with status := .cancelled }).shards.get k := by
    rw [hdb]
    rfl
  rw [hget, Db.get_flushShards] at hr'
  obtain ⟨r, hr, heq⟩ := Option.map_eq_some_iff.mp hr'
  split at heq
  · next l hfind =>
    subst heq
    have hstatus := (Db.mem_cancellableShards.mp (List.mem_of_find?_eq_some hfind)).2.2
    rw [ScanShard.writeBack_cancelled hstatus]
    constructor
    · intro h
      cases h
    · intro h
      cases h
  · next hfind =>
    subst heq
    by_cases hsame : r.runId = run.id
    · -- a queued or leased shard of the run is on the list
      have hnone : ¬ (r.status = .queued ∨ r.status = .leased) := by
        intro hwait
        have hlisted : r ∈ s.db.cancellableShards run.id :=
          Db.mem_cancellableShards.mpr ⟨Table.get_mem hr, hsame, hwait⟩
        have hno := List.find?_eq_none.mp hfind r hlisted
        exact hno (by simp)
      exact not_or.mp hnone
    · refine hclosed k r hr ?_
      have hruns : s'.db.runs = (s.db.flushRun run (Db.cancelledRun run now)).runs := by
        rw [hdb]
        rfl
      rw [Db.runCancelled, hruns, Db.get_flushRun] at hcancelled
      simp only [if_neg hsame, Option.map_id'] at hcancelled
      exact hcancelled

theorem closed_step {op : Operation} (hclosed : Closed s.db)
    (hok : s.leavesCancelled settings op = true) (h : s.operate settings op = some s') :
    Closed s'.db := by
  cases op with
  | single a =>
    obtain ⟨hpart, hstep⟩ := operate_single h
    exact closed_single hclosed hpart hok hstep
  | recover now => exact closed_recover hclosed hok h
  | cancel runId actor now => exact closed_cancel hclosed h

end

/-- Every shard of a cancelled run is running under its worker or terminal, so
none is queued or leased. -/
def QueueClosed (s : State) : Prop :=
  ∀ k r, s.db.shards.get k = some r → s.db.runCancelled r.runId = true →
    r.status ≠ .queued ∧ r.status ≠ .leased ∧
      (r.status.terminal = true ∨ (r.status = .running ∧
        ∃ e ∈ s.executions, e.shardId = k ∧ r.leaseToken = some e.leaseToken))

theorem queue_closed (settings : Settings) (scopes : Table InventoryScope)
    (profiles : Table ScanProfile) (tr : List (Transition State Operation)) (t : State)
    (h : Path (State.operate settings) (State.initial scopes profiles) tr t)
    (hok : Along (State.leavesCancelled settings) tr) : QueueClosed t := by
  have hclosed : Closed t.db :=
    h.invariant (I := fun s => Closed s.db)
      (fun _ _ hr => absurd (Table.get_mem hr) List.not_mem_nil)
      (fun _ _ _ hc hok hs => closed_step hc hok hs) hok
  obtain ⟨tr', hpath⟩ := operations_path h
  intro k r hr hcancelled
  obtain ⟨hq, hl⟩ := hclosed k r hr hcancelled
  refine ⟨hq, hl, ?_⟩
  cases hstatus : r.status with
  | queued => exact absurd hstatus hq
  | leased => exact absurd hstatus hl
  | running => exact Or.inr ⟨rfl, attended_run hpath k r hr hstatus⟩
  | completed | failed | cancelled | deadLetter => exact Or.inl rfl

/-- The worker of the running shard is lost after the cancellation, and the shard
is back in the queue of a run that is never dispatched again. -/
theorem recovery_reopens_queue :
    ¬ ∀ (settings : Settings) (scopes : Table InventoryScope) (profiles : Table ScanProfile)
      (tr : List (Transition State Operation)) (t : State),
      Path (State.operate settings) (State.initial scopes profiles) tr t → QueueClosed t := by
  intro hall
  have hrun : (runAll (State.operate {}) Demo.start (Demo.running.map .single ++
      [.cancel "run" "operator" 1, .recover (seconds 7200)])).map (fun t =>
        ((t.db.shards.get "s1").map fun r => (r.runId, r.status), t.db.runCancelled "run")) =
      some (some ("run", .queued), true) := by
    decide +kernel
  obtain ⟨tr, t, hp, hobs⟩ := Path.of_runAll_map hrun
  obtain ⟨hshard, hcancelled⟩ := Prod.mk.inj hobs
  obtain ⟨r, hr, hrow⟩ := Option.map_eq_some_iff.mp hshard
  obtain ⟨hrunId, hqueued⟩ := Prod.mk.inj hrow
  exact (hall {} _ _ tr t hp "s1" r hr (hrunId ▸ hcancelled)).1 hqueued

/-- The running shard is finished by its worker after the cancellation, and a
recovery finds nothing to do. -/
theorem queue_closed_finished :
    ∃ tr t, Path (State.operate {}) Demo.start tr t ∧ QueueClosed t ∧
      t.db.shards.rows.map ScanShard.status = [.completed, .cancelled] := by
  have hrun : (runWhile (State.operate {}) (State.leavesCancelled {}) Demo.start
      (Demo.running.map .single ++ [.cancel "run" "operator" 1] ++ (Demo.scan 0).map .single ++
        (Demo.finish 0 2).map .single ++ [.recover (seconds 7200)])).map
          (fun t => t.db.shards.rows.map ScanShard.status) = some [.completed, .cancelled] := by
    decide +kernel
  obtain ⟨tr, t, hp, hok, hobs⟩ := Path.of_runWhile_map hrun
  exact ⟨tr, t, hp, queue_closed {} _ _ tr t hp hok, hobs⟩

end TransportLookout
