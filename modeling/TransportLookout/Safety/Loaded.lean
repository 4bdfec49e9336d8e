/-
What an execution has loaded.

The session reads its shard and its run once and works with the copies.  They
belong together, an execution that scans has both, and while it owns its shard
the copy has the attempts of the row.
-/
import TransportLookout.Safety.Fencing
import TransportLookout.System.RunRows
import TransportLookout.Worker.Results

namespace TransportLookout

open Relational Trace

structure Loaded (s : State) (e : Execution) : Prop where
  claimed : e.pc = .claimed → e.run = none
  shard : ∀ l, e.shard = some l → ∃ r, s.db.shards.get e.shardId = some r ∧ r.runId = l.runId
  run : ∀ run, e.run = some run → ∃ l, e.shard = some l ∧ run.id = l.runId
  started : e.pc.started = true → e.run.isSome = true
  attempts : ∀ l r, e.shard = some l → e.owns s.db = true →
    s.db.shards.get e.shardId = some r → l.attempts = r.attempts

section
variable {settings : Settings} {s s' : State} {a : Action}

/-- The row of an execution that owns it keeps its attempts. -/
theorem owned_attempts (hc : Copies s) (hf : Fenced s) (h : s.step settings a = some s')
    {e : Execution} (he : e ∈ s.executions) (hown : e.owns s'.db = true) {r' : ScanShard}
    (hr' : s'.db.shards.get e.shardId = some r') :
    ∃ r, s.db.shards.get e.shardId = some r ∧ e.owns s.db = true ∧ r'.attempts = r.attempts := by
  obtain ⟨q', hq', hrunning, ht⟩ := Db.currentLease_iff.mp hown
  rw [hr'] at hq'
  cases hq'
  obtain ⟨r, hr, hold, hqt, hrow⟩ := owned_row hc hf h he hr' hrunning ht
  refine ⟨r, hr, Db.currentLease_iff.mpr ⟨r, hr, hold, hqt⟩, ?_⟩
  rcases hrow with rfl | ⟨_, _, _, -, rfl⟩ <;> rfl

/-- The attempts an execution has cached are those of its row while it owns it. -/
theorem cached_attempts (hc : Copies s) (hf : Fenced s)
    (hcached : ∀ e ∈ s.executions, ∀ l r, e.shard = some l → e.owns s.db = true →
      s.db.shards.get e.shardId = some r → l.attempts = r.attempts)
    (h : s.step settings a = some s') :
    ∀ e ∈ s'.executions, ∀ l r, e.shard = some l → e.owns s'.db = true →
      s'.db.shards.get e.shardId = some r → l.attempts = r.attempts := by
  intro e' he' l r' hl hown hr'
  obtain ⟨i, hi⟩ := List.mem_iff_getElem?.mp he'
  rcases execution_cases h hi with ⟨he, -⟩ | ⟨e, b, he, rfl, hstep⟩ | ⟨_, _, -, -, -, hnew⟩
  · have hmem : e' ∈ s.executions := List.mem_of_getElem? he
    obtain ⟨r, hr, hpre, hkeep⟩ := owned_attempts hc hf h hmem hown hr'
    rw [hcached e' hmem l r hl hpre hr, hkeep]
  · obtain ⟨hshard, htoken⟩ := Execution.step_lease hstep
    have hmem : e ∈ s.executions := List.mem_of_getElem? he
    have hown' : e.owns s'.db = true := by
      rw [Execution.owns, ← hshard, ← htoken]
      exact hown
    rw [hshard] at hr'
    obtain ⟨r, hr, hpre, hkeep⟩ := owned_attempts hc hf h hmem hown' hr'
    rw [hkeep]
    rcases (Execution.step_change hstep).shard with hsame | ⟨-, -, -, hload⟩
    · exact hcached e hmem l r (hsame ▸ hl) hpre hr
    · rw [hload, hr] at hl
      cases hl
      rfl
  · rw [hnew] at hl
    cases hl

/-- An execution that scans has its run. -/
theorem started_run {e e' : Execution} {b : WorkerAction} {db : Db} (hl : Loaded s e)
    (hstep : e.step s.db settings b = some (db, e')) (hstarted : e'.pc.started = true) :
    e'.run.isSome = true := by
  rcases (Execution.step_recording hstep).started hstarted with hpc | ⟨now, rfl⟩
  · have hsome := hl.started hpc
    rcases (Execution.step_change hstep).run with hsame | ⟨rfl, -⟩ | ⟨-, _, _, -, -, hrun⟩ |
      ⟨_, _, -, -, hrun⟩ | ⟨_, _, _, -, -, hrun, -⟩
    · rw [hsame]
      exact hsome
    · -- the run is loaded before the scan starts
      rcases Execution.step_cases hstep with ⟨-, hmove⟩ | hcommit
      · cases hmove with
        | lost => cases hstarted
        | loadRun hbefore =>
          rw [hbefore] at hpc
          cases hpc
      · cases hcommit
    · rw [hrun]
      rfl
    · rw [hrun]
      rfl
    · rw [hrun]
      rfl
  · cases Execution.step_start hstep with
    | start => rfl

theorem loaded_step (hc : Copies s) (hf : Fenced s) (hl : ∀ e ∈ s.executions, Loaded s e)
    (h : s.step settings a = some s') : ∀ e ∈ s'.executions, Loaded s' e := by
  have hattempts := cached_attempts hc hf (fun e he => (hl e he).attempts) h
  have hrow : ∀ {e : Execution} {runId : Uuid},
      (∃ r, s.db.shards.get e.shardId = some r ∧ r.runId = runId) →
      ∃ r, s'.db.shards.get e.shardId = some r ∧ r.runId = runId := by
    rintro e runId ⟨r, hr, hrun⟩
    obtain ⟨r', hr', hsame⟩ := shard_runId h hr
    exact ⟨r', hr', hsame.trans hrun⟩
  intro e' he'
  obtain ⟨i, hi⟩ := List.mem_iff_getElem?.mp he'
  rcases execution_cases h hi with ⟨he, -⟩ | ⟨e, b, he, rfl, hstep⟩ | ⟨_, _, -, -, -, hnew⟩
  · have hkept := hl e' (List.mem_of_getElem? he)
    exact ⟨hkept.claimed, fun l hload => hrow (hkept.shard l hload), hkept.run, hkept.started,
      hattempts e' he'⟩
  · have hkept := hl e (List.mem_of_getElem? he)
    have hchange := Execution.step_change hstep
    refine ⟨fun hpc => absurd hpc hchange.claimed, ?_,
      fun _ => hchange.run_of_shard hkept.claimed hkept.run, ?_, hattempts e' he'⟩
    · intro l hload
      rw [(Execution.step_lease hstep).1]
      rcases hchange.shard with hsame | ⟨-, -, -, hget⟩
      · exact hrow (hkept.shard l (hsame ▸ hload))
      · rw [hget] at hload
        exact hrow ⟨l, hload, rfl⟩
    · exact fun hstarted => started_run hkept hstep hstarted
  · rw [hnew]
    refine ⟨fun _ => rfl, ?_, ?_, ?_, ?_⟩
    · exact fun _ hload => by cases hload
    · exact fun _ hrun => by cases hrun
    · exact fun hpc => by cases hpc
    · exact fun _ _ hload => by cases hload

theorem loaded_run {scopes : Table InventoryScope} {profiles : Table ScanProfile}
    {tr : List (Transition State Action)} {t : State}
    (h : Run settings (State.initial scopes profiles) tr t) : ∀ e ∈ t.executions, Loaded t e := by
  have hinv : (Copies t ∧ Fenced t) ∧ ∀ e ∈ t.executions, Loaded t e :=
    h.invariant (I := fun s => (Copies s ∧ Fenced s) ∧ ∀ e ∈ s.executions, Loaded s e)
      (C := fun _ _ => true)
      ⟨⟨copies_start _, fenced_start fun _ hr => absurd hr List.not_mem_nil⟩,
        fun _ he => absurd he List.not_mem_nil⟩
      (fun _ _ _ ⟨⟨hc, hf⟩, hl⟩ _ hs =>
        ⟨⟨copies_step hc hs, fenced_step hc hf hs⟩, loaded_step hc hf hl hs⟩) fun _ _ => rfl
  exact hinv.2

end

end TransportLookout
