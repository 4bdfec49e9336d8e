/-
What sessions in flight hold.

A recovery, a cancellation and a reconciliation act on rows they loaded earlier.
`Copies` says in which statuses those rows were loaded.  The rows themselves may
have moved on; the lemmas after it say what a write-back from such a copy leaves
behind, whatever the row had become.
-/
import TransportLookout.Library.Path
import TransportLookout.System.ShardRows

namespace TransportLookout

open Relational Trace

/-- Runs of the system, each step a statement or a commit of some session. -/
abbrev Run (settings : Settings) := Path (State.step settings)

/-- The statuses in which the sessions in flight loaded their rows. -/
structure Copies (s : State) : Prop where
  stale : ∀ stale ∈ s.recoveries, ∀ l ∈ stale, l.status = .leased ∨ l.status = .running
  selected : ∀ c ∈ s.cancellations, ∀ l ∈ c.phase.shards,
    (l.status = .queued ∨ l.status = .leased) ∧ l.runId = c.run.id
  cancelling : ∀ c ∈ s.cancellations, c.run.status.terminal = false
  reconciling : ∀ runs ∈ s.reconciliations, ∀ run ∈ runs, run.status.terminal = false

theorem Db.mem_staleShards {settings : Settings} {db : Db} {now : DateTime} {l : ScanShard}
    (h : l ∈ Db.staleShards settings db now) :
    l ∈ db.shards.rows ∧ (l.status = .leased ∨ l.status = .running) := by
  obtain ⟨hl, hp⟩ := Table.mem_select.mp h
  rw [Bool.or_eq_true, Bool.and_eq_true, Bool.and_eq_true, decide_eq_true_eq,
    decide_eq_true_eq] at hp
  exact ⟨hl, hp.imp And.left And.left⟩

theorem Db.mem_cancellableShards {db : Db} {runId : Uuid} {l : ScanShard} :
    l ∈ db.cancellableShards runId ↔
      l ∈ db.shards.rows ∧ l.runId = runId ∧ (l.status = .queued ∨ l.status = .leased) := by
  rw [Db.cancellableShards, Table.mem_select, Bool.and_eq_true, Bool.or_eq_true,
    decide_eq_true_eq, decide_eq_true_eq, decide_eq_true_eq]

theorem Db.mem_activeRuns {db : Db} {run : ScanRun} :
    run ∈ db.activeRuns ↔ run ∈ db.runs.rows ∧ run.status.terminal = false := by
  rw [Db.activeRuns, Table.mem_select, Bool.not_eq_true']

theorem copies_start (db : Db) : Copies (State.start db) where
  stale := fun _ h => absurd h List.not_mem_nil
  selected := fun _ h => absurd h List.not_mem_nil
  cancelling := fun _ h => absurd h List.not_mem_nil
  reconciling := fun _ h => absurd h List.not_mem_nil

section
variable {settings : Settings} {s s' : State}

theorem copies_step {a : Action} (hc : Copies s) (h : s.step settings a = some s') :
    Copies s' where
  stale := by
    refine recoveries_step h hc.stale ?_ fun _ hl => absurd hl List.not_mem_nil
    exact fun now l hl => (Db.mem_staleShards hl).2
  selected := by
    refine cancellations_step h hc.selected ?_ ?_ ?_
    · exact fun _ _ _ _ _ _ hl => absurd hl List.not_mem_nil
    · intro c _ l hl
      obtain ⟨-, hrun, hstatus⟩ := Db.mem_cancellableShards.mp hl
      exact ⟨hstatus, hrun⟩
    · exact fun _ _ _ hl => absurd hl List.not_mem_nil
  cancelling :=
    cancellations_step h hc.cancelling (fun _ _ _ _ hterm => hterm) hc.cancelling hc.cancelling
  reconciling := by
    refine reconciliations_step h hc.reconciling (fun run hrun => (Db.mem_activeRuns.mp hrun).2) ?_
    exact fun _ _ hp r hr => hc.reconciling _ hp r (List.mem_cons_of_mem _ hr)

theorem copies_run {db : Db} {tr t} (h : Run settings (State.start db) tr t) : Copies t :=
  Path.invariant (C := fun _ _ => true) h (copies_start db)
    (fun _ _ _ hc _ hs => copies_step hc hs) fun _ _ => rfl

theorem copies_at {db : Db} {tr t} {x : Transition State Action}
    (h : Run settings (State.start db) tr t) (hx : x ∈ tr) : Copies x.pre := by
  obtain ⟨_, _, _, hpre, _, _⟩ := h.split_of_mem hx
  exact copies_run hpre

/-! ## Write-backs from loaded shards -/

/-- A re-queued row: its status is lost, its attempts are not. -/
theorem ScanShard.writeBack_requeued {l : ScanShard} (hl : l.status = .leased ∨ l.status = .running)
    (r : ScanShard) :
    (ScanShard.writeBack l l.requeued r).status = .queued ∧
      (ScanShard.writeBack l l.requeued r).attempts = r.attempts := by
  have hne : ShardStatus.queued ≠ l.status := by
    rcases hl with hl | hl <;> rw [hl] <;> decide
  exact ⟨writeBack_of_ne hne _, writeBack_self _ _⟩

theorem ScanShard.writeBack_cancelled {l : ScanShard}
    (hl : l.status = .queued ∨ l.status = .leased) (r : ScanShard) :
    ScanShard.writeBack l { l with status := .cancelled } r = { r with status := .cancelled } := by
  have hne : ShardStatus.cancelled ≠ l.status := by
    rcases hl with hl | hl <;> rw [hl] <;> decide
  simp only [ScanShard.writeBack, writeBack_self, writeBack_of_ne hne]

theorem ScanShard.writeBack_bound (l r : ScanShard) (token : Uuid) :
    ScanShard.writeBack l { l with leaseToken := some token } r =
      { r with leaseToken := Relational.writeBack l.leaseToken (some token) r.leaseToken } := by
  simp only [ScanShard.writeBack, writeBack_self]

end

end TransportLookout
