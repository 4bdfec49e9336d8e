/-
Terminal shard statuses.

A worker's UPDATE names the status it expects and a dispatch locks the rows it
selects, so neither can touch a terminal row.  A recovery and a cancellation
flush the rows they loaded by primary key alone.  A row that became terminal
after the load is overwritten, and by nothing else.
-/
import TransportLookout.System.Copies

namespace TransportLookout

open Relational Trace

/-- No session is about to write back over a row that became terminal since it
was loaded. -/
def State.unraced (s : State) : Action → Bool
  | .commitRecovery p => ∀ stale ∈ s.recoveries[p]?, ∀ l ∈ stale,
      ∀ r ∈ s.db.shards.get l.id, r.status.terminal = false
  | .commitCancel p _ => ∀ c ∈ s.cancellations[p]?, ∀ l ∈ c.phase.shards,
      ∀ r ∈ s.db.shards.get l.id, r.status.terminal = true → r.status = .cancelled
  | _ => true

/-- The step leaves the status of every terminal shard as it was. -/
def TerminalKept (x : Transition State Action) : Prop :=
  ∀ k r, x.pre.db.shards.get k = some r → r.status.terminal = true →
    ∃ r', x.post.db.shards.get k = some r' ∧ r'.status = r.status

section
variable {settings : Settings} {s s' : State}

/-- A row a recovery lists is queued after its commit. -/
theorem recovery_requeues {p : Nat} {stale : List ScanShard} {l r : ScanShard} (hc : Copies s)
    (h : s.step settings (.commitRecovery p) = some s') (hp : s.recoveries[p]? = some stale)
    (hl : l ∈ stale) (hr : s.db.shards.get l.id = some r) :
    ∃ r', s'.db.shards.get l.id = some r' ∧ r'.status = .queued := by
  obtain ⟨stale', hp', rfl⟩ := step_commitRecovery h
  rw [hp] at hp'
  cases hp'
  obtain ⟨l', hl', -, hget⟩ := Db.get_flushShards_of_mem ScanShard.requeued hr hl
  have hstatus := hc.stale stale (List.mem_of_getElem? hp) l' hl'
  exact ⟨_, hget, (ScanShard.writeBack_requeued hstatus r).1⟩

theorem cancellation_cancels {p : Nat} {now : DateTime} {c : Cancellation} {l r : ScanShard}
    (hc : Copies s) (h : s.step settings (.commitCancel p now) = some s')
    (hp : s.cancellations[p]? = some c) (hl : l ∈ c.phase.shards)
    (hr : s.db.shards.get l.id = some r) :
    s'.db.shards.get l.id = some { r with status := .cancelled } := by
  obtain ⟨c', shards, hp', hphase, rfl⟩ := step_commitCancel h
  rw [hp] at hp'
  cases hp'
  have hselected : c.phase.shards = shards := by rw [hphase]; rfl
  rw [hselected] at hl
  have hrun : (s.db.flushRun c.run (Db.cancelledRun c.run now)).shards.get l.id = some r := hr
  obtain ⟨l', hl', -, hget⟩ :=
    Db.get_flushShards_of_mem (fun s => { s with status := .cancelled }) hrun hl
  have hstatus := (hc.selected c (List.mem_of_getElem? hp) l' (hselected ▸ hl')).1
  rw [ScanShard.writeBack_cancelled hstatus] at hget
  exact hget

/-- The step lemma: no other kind of step rewrites the status of a terminal row. -/
theorem terminal_step {a : Action} (hc : Copies s) (h : s.step settings a = some s')
    (hu : s.unraced a = true) : TerminalKept ⟨s, a, s'⟩ := by
  intro k r hr hterm
  obtain ⟨r', hr', rfl | hstep⟩ := shard_step h hr
  · exact ⟨r', hr', rfl⟩
  refine ⟨r', hr', ?_⟩
  have hlive : ∀ {status : ShardStatus}, r.status = status → status.terminal = false → False := by
    intro status hs hf
    rw [hs, hf] at hterm
    cases hterm
  cases hstep with
  | lease _ _ _ _ hchosen _ => exact (hlive (Db.mem_dispatchableShards hchosen).2.2 rfl).elim
  | bind => rw [ScanShard.writeBack_bound]
  | recover hp hl hid =>
    have hlisted := of_decide_eq_true hu _ hp _ hl r (Db.get_id hr hid)
    rw [hlisted] at hterm
    cases hterm
  | cancel hp hl hid =>
    have hcancelled := of_decide_eq_true hu _ hp _ hl r (Db.get_id hr hid) hterm
    have hstatus := (hc.selected _ (List.mem_of_getElem? hp) _ hl).1
    rw [ScanShard.writeBack_cancelled hstatus, hcancelled]
  | claim _ hheld => exact (hlive (ScanShard.held_iff.mp hheld).2.1 rfl).elim
  | beat => rfl
  | finish _ _ hheld => exact (hlive (ScanShard.held_iff.mp hheld).2.1 rfl).elim

/-- A run keeps the status of every terminal shard exactly when none of its
write-backs lands on a row that became terminal after the load. -/
theorem terminal_absorbing (settings : Settings) (db : Db) (tr : List (Transition State Action))
    (t : State) (h : Run settings (State.start db) tr t) :
    (∀ x ∈ tr, TerminalKept x) ↔ Along State.unraced tr := by
  constructor
  · intro hkept x hx
    have hc := copies_at h hx
    have hs := h.step_of_mem hx
    obtain ⟨s, a, s'⟩ := x
    have hkeep := hkept _ hx
    cases a with
    | commitRecovery p =>
      refine decide_eq_true fun stale hp l hl r hr => ?_
      by_contra hterm
      obtain ⟨r', hr', hqueued⟩ := recovery_requeues hc hs hp hl hr
      obtain ⟨r'', hr'', hsame⟩ := hkeep l.id r hr (by simpa using hterm)
      rw [show s'.db.shards.get l.id = some r' from hr'] at hr''
      cases hr''
      rw [← hsame, hqueued] at hterm
      exact hterm rfl
    | commitCancel p now =>
      refine decide_eq_true fun c hp l hl r hr hterm => ?_
      have hget := cancellation_cancels hc hs hp hl hr
      obtain ⟨r', hr', hsame⟩ := hkeep l.id r hr hterm
      rw [show s'.db.shards.get l.id = _ from hget] at hr'
      cases hr'
      exact hsame.symm
    | _ => rfl
  · intro hu x hx
    exact terminal_step (copies_at h hx) (h.step_of_mem hx) (hu x hx)

end

/-- The worker completes the shard between the two halves of a recovery. -/
theorem recovery_requeues_completed :
    ¬ ∀ (settings : Settings) (db : Db) (tr : List (Transition State Action)) (t : State),
      Run settings (State.start db) tr t → ∀ x ∈ tr, TerminalKept x := by
  intro hall
  have hrun : ((runAll (State.step {}) Demo.start (Demo.running ++ Demo.scan 0 ++
      [.loadStale (seconds 7200)] ++ Demo.finish 0 (seconds 7200))).bind fun t =>
        (t.step {} (.commitRecovery 0)).map fun u =>
          ((t.db.shards.get "s1").map ScanShard.status,
            (u.db.shards.get "s1").map ScanShard.status)) =
      some (some .completed, some .queued) := by
    decide +kernel
  obtain ⟨tr, t, u, hp, hobs⟩ := Path.of_runAll_step hrun
  obtain ⟨hpre, hpost⟩ := Prod.mk.inj hobs
  obtain ⟨r, hr, hcompleted⟩ := Option.map_eq_some_iff.mp hpre
  obtain ⟨r', hr', hsame⟩ := hall {} _ _ _ hp ⟨t, .commitRecovery 0, u⟩
    (List.mem_append_right _ (List.mem_singleton_self _)) "s1" r hr (by rw [hcompleted]; rfl)
  rw [show u.db.shards.get "s1" = some r' from hr', Option.map_some, hsame, hcompleted] at hpost
  cases hpost

/-- A recovery of a lost execution and a cancellation that race with nothing. -/
theorem terminal_absorbing_unraced :
    ∃ tr t, Run {} Demo.start tr t ∧ (∀ x ∈ tr, TerminalKept x) ∧
      t.db.shards.rows.map ScanShard.status = [.cancelled, .cancelled] := by
  have hrun : (runWhile (State.step {}) State.unraced Demo.start (Demo.running ++
      [.loadStale (seconds 7200), .commitRecovery 0, .loadCancel "run" "operator",
        .selectCancel 0, .commitCancel 0 (seconds 7201)])).map
          (fun t => t.db.shards.rows.map ScanShard.status) = some [.cancelled, .cancelled] := by
    decide +kernel
  obtain ⟨tr, t, hp, hunraced, hobs⟩ := Path.of_runWhile_map hrun
  exact ⟨tr, t, hp, (terminal_absorbing {} _ tr t hp).mpr hunraced, hobs⟩

end TransportLookout
