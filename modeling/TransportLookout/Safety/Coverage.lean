/-
A run that completes has scanned its whole scope.

The finalizer takes a cancelled shard for a settled one, so a run may complete
over shards nobody scanned unless cancelled shards are found in cancelled runs
only.  That is the invariant here.  A cancellation cancels shards together with
their run; a worker cancels its shard after it has seen the run cancelled; and
the run stays cancelled as long as no transaction writes its status from an older
copy, which is `State.keepsCancelled`.
-/
import TransportLookout.System.RunRows

namespace TransportLookout

open Relational Trace

/-- No start and no finalization writes over a cancelled run. -/
def State.keepsCancelled (s : State) (a : Action) : Bool :=
  ((s.starting a).all fun run => (s.db.runs.get run.id).all fun r => r.status ≠ .cancelled) &&
    (s.finalizing a).all fun f => (s.db.runs.get f.1.id).all fun r => r.status ≠ .cancelled

/-- A transaction's queries and its commit are one step. -/
def Action.transactional : Action → Bool
  | .worker _ .countShards => false
  | _ => true

def State.RunCancelled (s : State) (id : Uuid) : Prop :=
  ∃ r, s.db.runs.get id = some r ∧ r.status = .cancelled

/-- What an execution holds, against the committed rows. -/
structure Cached (s : State) (e : Execution) : Prop where
  claimed : e.pc = .claimed → e.run = none ∧ e.cancelled = false
  shard : ∀ l, e.shard = some l → ∃ r, s.db.shards.get e.shardId = some r ∧ r.runId = l.runId
  run : ∀ run, e.run = some run → ∃ l, e.shard = some l ∧ run.id = l.runId
  shardLoaded : e.pc = .shardLoaded → e.shard.isSome = true
  loaded : e.pc = .loaded → e.run.isSome = true
  saw : ∀ run, e.run = some run → run.status = .cancelled → s.RunCancelled run.id
  flagged : e.cancelled = true → ∃ l, e.shard = some l ∧ s.RunCancelled l.runId
  finishing : ∀ o counts, e.pc = .finishing o counts →
    counts = none ∧ (o.status = .cancelled → e.cancelled = true)

structure Covered (s : State) : Prop where
  copies : Copies s
  recorded : Recorded s
  /-- Every shard belongs to a committed run. -/
  owned : ∀ k r, s.db.shards.get k = some r → ∃ run, s.db.runs.get r.runId = some run
  cancelled : ∀ k r, s.db.shards.get k = some r → r.status = .cancelled → s.RunCancelled r.runId
  cached : ∀ e ∈ s.executions, Cached s e
  selected : ∀ c ∈ s.cancellations, ∀ l ∈ c.phase.shards,
    ∃ r, s.db.shards.get l.id = some r ∧ r.runId = c.run.id

theorem covered_start (scopes : Table InventoryScope) (profiles : Table ScanProfile) :
    Covered (State.initial scopes profiles) where
  copies := copies_start _
  recorded := recorded_start _
  owned := fun _ _ hr => absurd (Table.get_mem hr) List.not_mem_nil
  cancelled := fun _ _ hr => absurd (Table.get_mem hr) List.not_mem_nil
  cached := fun _ he => absurd he List.not_mem_nil
  selected := fun _ hc => absurd hc List.not_mem_nil

section
variable {settings : Settings} {s s' : State} {a : Action} {r r' : ScanShard}

/-- A cancelled run stays cancelled. -/
theorem runCancelled_step (hc : Copies s) (h : s.step settings a = some s')
    (hk : s.keepsCancelled a = true) {id : Uuid} (hrun : s.RunCancelled id) :
    s'.RunCancelled id := by
  obtain ⟨r, hr, hcancelled⟩ := hrun
  have hid : r.id = id := Table.get_key hr
  rw [State.keepsCancelled, Bool.and_eq_true] at hk
  have hnot : ∀ {id' : Uuid}, id' = r.id →
      ((s.db.runs.get id').all fun r => decide (r.status ≠ .cancelled)) = true → False := by
    rintro id' rfl hall
    rw [hid, hr, Option.all_some, decide_eq_true_eq] at hall
    exact hall hcancelled
  obtain ⟨r', hr', rfl | hstep⟩ := run_step h hr
  · exact ⟨r', hr', hcancelled⟩
  refine ⟨r', hr', ?_⟩
  cases hstep with
  | @start i e now run _ he hrun hid' =>
    rw [ScanRun.status_startCommit]
    by_cases hrunning : run.status = .running
    · rw [if_pos hrunning, hcancelled]
    · have hs : s.starting (.worker i (.start now)) = some run := by
        simp only [State.starting, he, hrun, Option.bind_eq_bind, Option.bind_some,
          if_neg hrunning]
      rw [hs] at hk
      exact (hnot hid' hk.1).elim
  | @finalize _ run counts now _ hf hfires hid' =>
    rw [hf] at hk
    exact (hnot hid' hk.2).elim
  | @cancel p c now _ hp hid' =>
    exact ScanRun.writeBack_cancelledRun (hc.cancelling c (List.mem_of_getElem? hp)) now r

/-- A cancellation's commit leaves its run cancelled. -/
theorem cancel_runCancelled (hcov : Covered s) {p : Nat} {now : DateTime} {c : Cancellation}
    (h : s.step settings (.commitCancel p now) = some s') (hp : s.cancellations[p]? = some c) :
    s'.RunCancelled c.run.id := by
  obtain ⟨c', shards, hp', -, rfl⟩ := step_commitCancel h
  rw [hp] at hp'
  cases hp'
  have hmem := List.mem_of_getElem? hp
  obtain ⟨r, hr⟩ := hcov.recorded.cancelling c hmem
  refine ⟨ScanRun.writeBack c.run (Db.cancelledRun c.run now) r, ?_,
    ScanRun.writeBack_cancelledRun (hcov.copies.cancelling c hmem) now r⟩
  show (s.db.flushRun c.run (Db.cancelledRun c.run now)).runs.get c.run.id = _
  rw [Db.get_flushRun, hr, Option.map_some, if_pos rfl]

/-- A worker cancels its shard only after it has seen its run cancelled. -/
theorem concludes_cancelled (hcov : Covered s) {e : Execution} (he : e ∈ s.executions)
    {b : WorkerAction} {o : Outcome} (hc : e.Concludes b o) (ho : o.status = .cancelled) :
    ∃ l, e.shard = some l ∧ s.RunCancelled l.runId := by
  have hcached := hcov.cached e he
  rcases hc with ⟨-, hpc, hout⟩ | ⟨now, counts, -, hpc⟩
  · obtain ⟨run, hrun⟩ := Option.isSome_iff_exists.mp (hcached.loaded hpc)
    rw [Execution.abandonOutcome, hrun] at hout
    dsimp only at hout
    split at hout
    · next hstatus =>
      obtain ⟨l, hl, hid⟩ := hcached.run run hrun
      exact ⟨l, hl, hid ▸ hcached.saw run hrun hstatus⟩
    · split at hout
      · cases hout
        cases ho
      · cases hout
  · exact hcached.flagged ((hcached.finishing o counts hpc).2 ho)

theorem cancelled_step (hcov : Covered s) (hk : s.keepsCancelled a = true)
    (h : s.step settings a = some s') {k : Uuid} (hr' : s'.db.shards.get k = some r')
    (hcancelled : r'.status = .cancelled) : s'.RunCancelled r'.runId := by
  have hkept : ∀ {id}, s.RunCancelled id → s'.RunCancelled id :=
    fun hrun => runCancelled_step hcov.copies h hk hrun
  rcases shard_cases h hr' with ⟨r, hr, rfl | hstep⟩ | hnew
  · exact hkept (hcov.cancelled k r' hr hcancelled)
  · rw [hstep.runId]
    cases hstep with
    | lease => cases hcancelled
    | bind =>
      rw [ScanShard.writeBack_bound] at hcancelled
      exact hkept (hcov.cancelled k r hr hcancelled)
    | recover hp hl _ =>
      have hstatus := hcov.copies.stale _ (List.mem_of_getElem? hp) _ hl
      rw [(ScanShard.writeBack_requeued hstatus r).1] at hcancelled
      cases hcancelled
    | cancel hp hl hid =>
      obtain ⟨q, hq, hrun⟩ := hcov.selected _ (List.mem_of_getElem? hp) _ hl
      rw [Db.get_id hr hid] at hq
      cases hq
      rw [hrun]
      exact cancel_runCancelled hcov h hp
    | claim => cases hcancelled
    | beat => exact hkept (hcov.cancelled k r hr hcancelled)
    | @finish i e b o _ he ho hheld =>
      have hmem : e ∈ s.executions := List.mem_of_getElem? he
      have hstatus : o.status = .cancelled := by
        cases o with
        | cancelled => rfl
        | _ => cases hcancelled
      obtain ⟨l, hl, hrun⟩ := concludes_cancelled hcov hmem ho hstatus
      obtain ⟨q, hq, hqrun⟩ := (hcov.cached e hmem).shard l hl
      have hsame : q = r := by
        have hid := (ScanShard.held_iff.mp hheld).1
        have hk : k = e.shardId := (Table.get_key hr).symm.trans hid
        rw [← hk, hr] at hq
        exact (Option.some.inj hq).symm
      rw [← hsame, hqrun]
      exact hkept hrun
  · rw [hnew.blank] at hcancelled
    cases hcancelled

theorem cached_kept (hcov : Covered s) (hk : s.keepsCancelled a = true)
    (h : s.step settings a = some s') {e : Execution} (hc : Cached s e) : Cached s' e where
  claimed := hc.claimed
  shard := by
    intro l hl
    obtain ⟨r, hr, hrun⟩ := hc.shard l hl
    obtain ⟨r', hr', hsame⟩ := shard_runId h hr
    exact ⟨r', hr', hsame.trans hrun⟩
  run := hc.run
  shardLoaded := hc.shardLoaded
  loaded := hc.loaded
  saw := fun run hrun hstatus => runCancelled_step hcov.copies h hk (hc.saw run hrun hstatus)
  flagged := by
    intro hflag
    obtain ⟨l, hl, hrun⟩ := hc.flagged hflag
    exact ⟨l, hl, runCancelled_step hcov.copies h hk hrun⟩
  finishing := hc.finishing

/-- A run a step leaves in the cache as cancelled is cancelled in the database. -/
theorem cached_cancelled {e e' : Execution} {b : WorkerAction}
    (hc : Cached s e) (hstep : e.step s.db settings b = some (s'.db, e')) {run : ScanRun}
    (hrun : e'.run = some run) (hstatus : run.status = .cancelled) : s.RunCancelled run.id := by
  rcases (Execution.step_change hstep).run with hsame | ⟨-, hload⟩ |
    ⟨-, _, current, -, hcurrent, hload⟩ | ⟨now, run₀, -, -, hstart⟩ |
    ⟨_, run₀, run', -, hrun₀, hrun', hid, hkept⟩
  · exact hc.saw run (hsame ▸ hrun) hstatus
  · rw [hload] at hrun
    obtain ⟨l, -, hget⟩ := Option.bind_eq_some_iff.mp hrun
    exact ⟨run, Db.get_run_id hget, hstatus⟩
  · rw [hload] at hrun
    cases hrun
    exact ⟨_, Db.get_run_id hcurrent, hstatus⟩
  · rw [hstart] at hrun
    cases hrun
    cases hstatus
  · rw [hrun'] at hrun
    cases hrun
    rw [hid]
    exact hc.saw run₀ hrun₀ (hkept hstatus)

theorem cached_step (hcov : Covered s) (hk : s.keepsCancelled a = true)
    (ha : a.transactional = true) (h : s.step settings a = some s') :
    ∀ e ∈ s'.executions, Cached s' e := by
  refine executions_step h (fun e he => cached_kept hcov hk h (hcov.cached e he)) ?_ ?_
  · rintro e he i b e' rfl hstep
    have hc := hcov.cached e he
    have hchange := Execution.step_change hstep
    have hkept : ∀ {id}, s.RunCancelled id → s'.RunCancelled id :=
      fun hrun => runCancelled_step hcov.copies h hk hrun
    refine ⟨fun hpc => absurd hpc hchange.claimed, ?_, ?_, hchange.shardLoaded, ?_, ?_, ?_, ?_⟩
    · intro l hl
      rw [(Execution.step_lease hstep).1]
      have hrow : ∃ r, s.db.shards.get e.shardId = some r ∧ r.runId = l.runId := by
        rcases hchange.shard with hsame | ⟨-, -, -, hload⟩
        · exact hc.shard l (hsame ▸ hl)
        · rw [hload] at hl
          exact ⟨l, hl, rfl⟩
      obtain ⟨r, hr, hrun⟩ := hrow
      obtain ⟨r', hr', hsame⟩ := shard_runId h hr
      exact ⟨r', hr', hsame.trans hrun⟩
    · exact fun _ => hchange.run_of_shard (fun hpc => (hc.claimed hpc).1) hc.run
    · intro hpc
      obtain ⟨hpc', hload⟩ := hchange.loaded hpc
      obtain ⟨l, hl⟩ := Option.isSome_iff_exists.mp (hc.shardLoaded hpc')
      obtain ⟨r, hr, hrun⟩ := hc.shard l hl
      obtain ⟨run, hget⟩ := hcov.owned _ r hr
      rw [hload, hl, Option.bind_some, ← hrun, hget]
      rfl
    · exact fun run hrun hstatus => hkept (cached_cancelled hc hstep hrun hstatus)
    · intro hflag
      rcases hchange.cancelled with hsame | ⟨-, -, run, hrun, hstatus⟩
      · rw [hsame] at hflag
        obtain ⟨l, hl, hrun⟩ := hc.flagged hflag
        rcases hchange.shard with hshard | ⟨-, hpc, -, -⟩
        · exact ⟨l, hshard.trans hl, hkept hrun⟩
        · rw [(hc.claimed hpc).2] at hflag
          cases hflag
      · obtain ⟨l, hl, hid⟩ := hc.run run hrun
        have hshard := hchange.shard_kept (fun hpc => (hc.claimed hpc).1) hrun
        exact ⟨l, hshard.trans hl, hid ▸ hkept (hc.saw run hrun hstatus)⟩
    · intro o counts hpc
      obtain ⟨-, hsame, ⟨rfl, -⟩ | ⟨now, -, hout, hcounts⟩⟩ := hchange.finishing o counts hpc
      · cases ha
      · exact ⟨hcounts, fun ho => hsame.trans (Execution.outcome_cancelled hout ho)⟩
  · intro shardId token
    refine ⟨fun _ => ⟨rfl, rfl⟩, ?_, ?_, ?_, ?_, ?_, ?_, ?_⟩
    · exact fun l hl => by cases hl
    · exact fun run hrun => by cases hrun
    · exact fun hpc => by cases hpc
    · exact fun hpc => by cases hpc
    · exact fun run hrun => by cases hrun
    · exact fun hflag => by cases hflag
    · exact fun o counts hpc => by cases hpc

theorem owned_step (hcov : Covered s) (h : s.step settings a = some s') {k : Uuid}
    (hr' : s'.db.shards.get k = some r') : ∃ run, s'.db.runs.get r'.runId = some run := by
  have hhoused : s.db.Housed := fun r hr =>
    Option.isSome_iff_exists.mpr (hcov.owned r.id r (Table.get_of_mem hr))
  exact Option.isSome_iff_exists.mp (housed_step hhoused h r' (Table.get_mem hr'))

theorem selected_step (hcov : Covered s) (h : s.step settings a = some s') :
    ∀ c ∈ s'.cancellations, ∀ l ∈ c.phase.shards,
      ∃ r, s'.db.shards.get l.id = some r ∧ r.runId = c.run.id := by
  have hkept : ∀ {l : ScanShard} {id : Uuid}, (∃ r, s.db.shards.get l.id = some r ∧ r.runId = id) →
      ∃ r, s'.db.shards.get l.id = some r ∧ r.runId = id := by
    rintro l id ⟨r, hr, hrun⟩
    obtain ⟨r', hr', hsame⟩ := shard_runId h hr
    exact ⟨r', hr', hsame.trans hrun⟩
  refine cancellations_step h (fun c hc l hl => hkept (hcov.selected c hc l hl)) ?_ ?_ ?_
  · exact fun _ _ _ _ _ _ hl => absurd hl List.not_mem_nil
  · intro c _ l hl
    obtain ⟨hrow, hrun, -⟩ := Db.mem_cancellableShards.mp hl
    exact hkept ⟨l, Table.get_of_mem hrow, hrun⟩
  · exact fun _ _ _ hl => absurd hl List.not_mem_nil

theorem covered_step (hcov : Covered s) (hk : s.keepsCancelled a = true)
    (ha : a.transactional = true) (h : s.step settings a = some s') : Covered s' where
  copies := copies_step hcov.copies h
  recorded := recorded_step hcov.recorded h
  owned := fun _ _ hr => owned_step hcov h hr
  cancelled := fun _ _ hr hc => cancelled_step hcov hk h hr hc
  cached := cached_step hcov hk ha h
  selected := selected_step hcov h

/-- What the finalizer's counts say of each shard. -/
theorem Db.settled_of_counts {db : Db} {id : Uuid} (hpending : (db.terminalCounts id).pending = 0)
    (hfailed : (db.terminalCounts id).failed = 0) {q : ScanShard} (hq : q ∈ db.shards.rows)
    (hrun : q.runId = id) : q.status = .completed ∨ q.status = .cancelled := by
  have hterm := Table.count_eq_zero.mp hpending q hq
  have hok := Table.count_eq_zero.mp hfailed q hq
  rw [decide_eq_true hrun, Bool.true_and] at hterm hok
  cases hstatus : q.status with
  | completed => exact Or.inl rfl
  | cancelled => exact Or.inr rfl
  | failed | deadLetter =>
    rw [hstatus] at hok
    cases hok
  | queued | leased | running =>
    rw [hstatus] at hterm
    cases hterm

/-- A replacement finds every shard settled and leaves its run completed. -/
theorem replacing_settled (hcov : Covered s) (h : s.step settings a = some s') {run : ScanRun}
    (hrep : s.replacing a = some run) :
    (∀ k q, s'.db.shards.get k = some q → q.runId = run.id →
      q.status = .completed ∨ q.status = .cancelled) ∧
    ∃ r, s'.db.runs.get run.id = some r ∧ r.status = .completed := by
  obtain ⟨⟨run₀, counts⟩, hf, hif⟩ := Option.bind_eq_some_iff.mp hrep
  dsimp only at hif
  split at hif
  · next hclean =>
    cases hif
    obtain ⟨hfailed, -, -⟩ := hclean
    obtain ⟨hfires, db, actor, now, run', hfin, hseen, hcounts⟩ := step_finalizing h hf
    have hpending : counts.pending = 0 := (TerminalCounts.fires_iff.mp hfires).2
    have hown : counts = db.terminalCounts run.id := by
      rcases hcounts with heq | ⟨e, he, o, counted, hpc⟩
      · exact heq
      · cases ((hcov.cached e he).finishing o _ hpc).1
    rcases Db.finalizeWith_spec hfin with ⟨hno, -, -⟩ | ⟨-, rfl, hdb⟩
    · rw [hfires] at hno
      cases hno
    · constructor
      · intro k q hq hrun
        have hshards : s'.db.shards = db.shards := by
          rw [hdb]
          rfl
        rw [hown] at hpending hfailed
        exact Db.settled_of_counts hpending hfailed (hshards ▸ Table.get_mem hq) hrun
      · obtain ⟨r, hr⟩ := finalizing_recorded hcov.recorded hf
        refine ⟨ScanRun.writeBack run (counts.finalized run now) r, ?_, ?_⟩
        · rw [hdb]
          show (db.flushRun run (counts.finalized run now)).runs.get run.id = _
          rw [Db.get_flushRun, hseen.frame.1, hr, Option.map_some, if_pos rfl]
        · rw [ScanRun.writeBack_finalized hfires, if_neg (not_not.mpr hfailed)]
  · cases hif

/-- The step lemma: a replacement is made by a run whose shards are all completed. -/
theorem replacing_completed (hcov : Covered s) (hcov' : Covered s')
    (h : s.step settings a = some s') {run : ScanRun} (hrep : s.replacing a = some run) {k : Uuid}
    {q : ScanShard} (hq : s'.db.shards.get k = some q) (hrun : q.runId = run.id) :
    q.status = .completed := by
  obtain ⟨hsettled, r, hr, hcompleted⟩ := replacing_settled hcov h hrep
  rcases hsettled k q hq hrun with hdone | hcancelled
  · exact hdone
  · obtain ⟨r', hr', hstatus⟩ := hcov'.cancelled k q hq hcancelled
    rw [hrun, hr] at hr'
    cases hr'
    rw [hcompleted] at hstatus
    cases hstatus

end

/-- Every replacement of the read model in the run is made for a run whose shards
are all completed, and nothing else changes the read model. -/
structure CoverageSafe (tr : List (Transition State Action)) : Prop where
  completed : ∀ x ∈ tr, ∀ run, x.pre.replacing x.act = some run → ∀ k q,
    x.post.db.shards.get k = some q → q.runId = run.id → q.status = .completed
  replaced : ∀ x ∈ tr, x.post.db.exposures ≠ x.pre.db.exposures →
    ∃ run, x.pre.replacing x.act = some run

theorem coverage_safe (settings : Settings) (scopes : Table InventoryScope)
    (profiles : Table ScanProfile) (tr : List (Transition State Action)) (t : State)
    (h : Run settings (State.initial scopes profiles) tr t)
    (ha : ∀ x ∈ tr, x.act.transactional = true) (hk : Along State.keepsCancelled tr) :
    CoverageSafe tr := by
  have hat : ∀ x ∈ tr, Covered x.pre ∧ Covered x.post := by
    intro x hx
    refine h.invariant_at (I := Covered) (C := fun s a => s.keepsCancelled a && a.transactional)
      (covered_start scopes profiles) ?_ ?_ hx
    · intro s a s' hcov hC hs
      rw [Bool.and_eq_true] at hC
      exact covered_step hcov hC.1 hC.2 hs
    · intro y hy
      exact Bool.and_eq_true_iff.mpr ⟨hk y hy, ha y hy⟩
  refine ⟨?_, ?_⟩
  · intro x hx run hrep k q hq hrun
    obtain ⟨hpre, hpost⟩ := hat x hx
    exact replacing_completed hpre hpost (h.step_of_mem hx) hrep hq hrun
  · intro x hx hne
    exact (exposures_step (h.step_of_mem hx)).resolve_left hne

/-- The operator cancels after the worker's last refresh: the second shard is
never scanned, and the run replaces the read model. -/
theorem cancelled_run_replaces :
    ¬ ∀ (settings : Settings) (scopes : Table InventoryScope) (profiles : Table ScanProfile)
      (tr : List (Transition State Action)) (t : State),
      Run settings (State.initial scopes profiles) tr t →
        (∀ x ∈ tr, x.act.transactional = true) → CoverageSafe tr := by
  intro hall
  have hrun : ((runWhile (State.step {}) (fun _ a => a.transactional) Demo.start (Demo.running ++
      Demo.scan 0 ++ Demo.cancel 0 1 ++ [.worker 0 (.finish 2)])).bind fun t =>
        (t.step {} (.worker 0 (.commitFinish 2))).map fun u =>
          (t.replacing (.worker 0 (.commitFinish 2)), u.db.shards.get "s2")) =
      some (some { id := "run", inventoryScopeId := "scope", profileId := "profile",
                   status := .running, requestedBy := "operator", startedAt := some 0 },
        some { id := "s2", runId := "run", cidr := "10.0.1.0/24", zone := "default",
               status := .cancelled }) := by
    decide +kernel
  obtain ⟨tr, t, u, hp, halong, hobs⟩ := Path.of_runWhile_step hrun
  obtain ⟨hrep, hs2⟩ := Prod.mk.inj hobs
  have htrans : ∀ x ∈ tr ++ [⟨t, .worker 0 (.commitFinish 2), u⟩], x.act.transactional = true := by
    intro x hx
    rcases List.mem_append.mp hx with hx | hx
    · exact halong x hx
    · cases List.mem_singleton.mp hx
      rfl
  have hdone := (hall {} _ _ _ _ hp htrans).completed _
    (List.mem_append_right _ (List.mem_singleton_self _)) _ hrep "s2" _ hs2 rfl
  cases hdone

/-- Both shards are scanned, and the second worker's commit replaces the read
model. -/
theorem coverage_safe_completed :
    ∃ tr t, Run {} Demo.start tr t ∧ CoverageSafe tr ∧
      (t.db.runs.get "run").map ScanRun.status = some .completed := by
  have hrun : (runWhile (State.step {}) (fun s a => s.keepsCancelled a && a.transactional)
      Demo.start (Demo.running ++ Demo.scan 0 ++ Demo.finish 0 1 ++ Demo.dispatch 1 "t2" "e2" 2 ++
      Demo.publish 1 2 ++ Demo.begin 1 "s2" "t2" 2 ++ Demo.scan 1 ++ Demo.finish 1 3)).map
        (fun t => (t.db.runs.get "run").map ScanRun.status) = some (some .completed) := by
    decide +kernel
  obtain ⟨tr, t, hp, halong, hobs⟩ := Path.of_runWhile_map hrun
  have htrans : ∀ x ∈ tr, x.act.transactional = true :=
    fun x hx => (Bool.and_eq_true_iff.mp (halong x hx)).2
  have hkeeps : Along State.keepsCancelled tr :=
    fun x hx => (Bool.and_eq_true_iff.mp (halong x hx)).1
  exact ⟨tr, t, hp, coverage_safe {} _ _ tr t hp htrans hkeeps, hobs⟩

end TransportLookout
