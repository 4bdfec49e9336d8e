/-
What sessions record, and what it refers to.

A worker inserts what it found for a shard and a run it read long before, and a
finalization replaces the exposures of a run from a copy of it.  `Rooting` says that the
rows they name are there: the observations are of a run and one of its shards, the
exposures of the scope and the profile of their run.  A worker that has loaded its shard
finds the run and the profile, so no shard ends failed for a profile that is missing.
-/
import TransportLookout.Safety.Authorized
import TransportLookout.Safety.Serving
import TransportLookout.System.Tracking

namespace TransportLookout

open Relational Trace

/-! ## What the rows refer to -/

/-- The shard is one of the run. -/
def Db.HasShard (db : Db) (runId shardId : Uuid) : Prop :=
  ∃ r, db.shards.get shardId = some r ∧ r.runId = runId

/-- What sessions write.  An observation names the run of its shard, and an exposure the
scope and the profile of its run. -/
structure Db.Anchored (db : Db) : Prop where
  host : ∀ x ∈ db.hosts.rows, db.HasShard x.runId x.shardId
  discovery : ∀ x ∈ db.discoveries.rows, db.HasShard x.runId x.shardId
  exposure : ∀ x ∈ db.exposures.rows, ∃ run, db.runs.get x.latestRunId = some run ∧
    run.pair = x.pair
  unfailed : ∀ r ∈ db.shards.rows, r.status ≠ .failed

/-- What an execution has loaded and holds back. -/
structure Execution.Rooted (db : Db) (e : Execution) : Prop where
  shardLoaded : e.pc = .shardLoaded → e.shard.isSome = true
  loaded : e.pc = .loaded → e.run.isSome = true
  profile : e.run.isSome = true → e.profile.isSome = true
  hosts : ∀ x ∈ e.hosts, db.HasShard x.runId x.shardId
  discoveries : ∀ x ∈ e.discoveries, db.HasShard x.runId x.shardId
  unfailed : ∀ counts, e.pc ≠ .finishing .failed counts

structure Rooting (s : State) : Prop where
  authorized : s.db.Authorized
  anchored : s.db.Anchored
  rooted : ∀ e ∈ s.executions, e.Rooted s.db
  copies : s.Tracks SamePair

section
variable {db db' : Db} {e e' : Execution} {runId shardId : Uuid}

theorem Db.HasShard.kept (h : db.HasShard runId shardId)
    (hkept : ∀ k r, db.shards.get k = some r →
      ∃ r', db'.shards.get k = some r' ∧ r'.runId = r.runId) : db'.HasShard runId shardId := by
  obtain ⟨r, hr, hrun⟩ := h
  obtain ⟨r', hr', hsame⟩ := hkept shardId r hr
  exact ⟨r', hr', hsame.trans hrun⟩

theorem Execution.Rooted.kept (h : e.Rooted db)
    (hkept : ∀ runId shardId, db.HasShard runId shardId → db'.HasShard runId shardId) :
    e.Rooted db' where
  shardLoaded := h.shardLoaded
  loaded := h.loaded
  profile := h.profile
  hosts := fun x hx => hkept _ _ (h.hosts x hx)
  discoveries := fun x hx => hkept _ _ (h.discoveries x hx)
  unfailed := h.unfailed

theorem Loaded.hasShard {s : State} (hl : Loaded s e) {run : ScanRun} (hrun : e.run = some run) :
    s.db.HasShard run.id e.shardId := by
  obtain ⟨l, hload, hid⟩ := hl.run run hrun
  obtain ⟨r, hr, hsame⟩ := hl.shard l hload
  exact ⟨r, hr, hsame.trans hid.symm⟩

end

/-! ## An execution -/

section
variable {settings : Settings} {db db' : Db} {e e' : Execution} {b : WorkerAction}

/-- The profile is read with the run. -/
theorem Execution.step_profile (h : e.step db settings b = some (db', e')) :
    (e'.profile = e.profile ∧ (e'.run.isSome = true → e.run.isSome = true)) ∨
      (e.pc = .shardLoaded ∧ e'.run = (e.shard.bind fun shard => db.runs.get shard.runId) ∧
        e'.profile = e'.run.bind fun run => db.profiles.get run.profileId) := by
  have hsome : ∀ {run : ScanRun}, e.run = some run → e.run.isSome = true := by
    intro run hrun
    rw [hrun]
    rfl
  rcases step_cases h with ⟨-, hmove⟩ | hc
  · cases hmove with
    | loadRun hpc hrun => exact Or.inr ⟨hpc, hrun, rfl⟩
    | refresh _ hrun => exact Or.inl ⟨rfl, fun _ => hsome hrun⟩
    | _ => exact Or.inl ⟨rfl, id⟩
  · cases hc with
    | abandon => exact Or.inl ⟨rfl, id⟩
    | start _ hrun => exact Or.inl ⟨rfl, fun _ => hsome hrun⟩
    | beat _ hrun _ _ he _ | beatLost _ hrun _ he _ =>
      exact Or.inl ⟨by rw [he]; rfl, fun _ => hsome hrun⟩
    | finish _ hrun => exact Or.inl ⟨rfl, fun _ => hsome hrun⟩

/-- Every observation is recorded for the shard, and for the run that is cached. -/
theorem Execution.step_reports (h : e.step db settings b = some (db', e')) :
    (∀ x ∈ e'.hosts, x ∈ e.hosts ∨ ∃ run, e.run = some run ∧ x.runId = run.id ∧
      x.shardId = e.shardId) ∧
    ∀ x ∈ e'.discoveries, x ∈ e.discoveries ∨ ∃ run, e.run = some run ∧ x.runId = run.id ∧
      x.shardId = e.shardId := by
  rcases step_cases h with ⟨-, hmove⟩ | hc
  · cases hmove with
    | missing | lost =>
      exact ⟨fun x hx => absurd hx List.not_mem_nil, fun x hx => absurd hx List.not_mem_nil⟩
    | @addDiscoveries run observations rows _ hrun hrows =>
      refine ⟨fun x hx => Or.inl hx, fun x hx => (List.mem_append.mp hx).imp_right fun hnew => ?_⟩
      rw [hrows] at hnew
      obtain ⟨_, -, rfl⟩ := List.mem_map.mp hnew
      exact ⟨run, hrun, rfl, rfl⟩
    | @addHost run host services _ hrun =>
      refine ⟨fun x hx => (List.mem_append.mp hx).imp_right fun hnew => ?_, fun x hx => Or.inl hx⟩
      cases List.mem_singleton.mp hnew
      exact ⟨run, hrun, rfl, rfl⟩
    | _ => exact ⟨fun x hx => Or.inl hx, fun x hx => Or.inl hx⟩
  · cases hc with
    | abandon | start => exact ⟨fun x hx => Or.inl hx, fun x hx => Or.inl hx⟩
    | beat _ _ _ _ he _ | beatLost _ _ _ he _ =>
      rw [he]
      exact ⟨fun x hx => absurd hx List.not_mem_nil, fun x hx => absurd hx List.not_mem_nil⟩
    | finish =>
      exact ⟨fun x hx => absurd hx List.not_mem_nil, fun x hx => absurd hx List.not_mem_nil⟩

/-- A scan ends in no outcome that says its profile is missing. -/
theorem outcome_unfailed {now : DateTime} {o : Outcome} (h : e.outcome settings now = some o) :
    o ≠ .failed := by
  rintro rfl
  rw [Execution.outcome] at h
  split at h
  · split at h
    · cases h
    · cases h
  · cases h
  · split at h
    · split at h
      · cases h
      · cases h
    · cases h
  · cases h

/-- An execution that has its run and its profile gives up a cancelled run only. -/
theorem Execution.Rooted.abandons (hr : e.Rooted db) {o : Outcome}
    (h : e.abandonOutcome = some o) : o ≠ .failed := by
  rintro rfl
  rw [Execution.abandonOutcome] at h
  split at h
  · cases h
  · next run hrun =>
    split at h
    · cases h
    · split at h
      · next hnone =>
        have hprofile := hr.profile (by rw [hrun]; rfl)
        rw [Option.isNone_iff_eq_none.mp hnone] at hprofile
        cases hprofile
      · cases h

theorem Execution.Rooted.concludes (hr : e.Rooted db) {o : Outcome} (h : e.Concludes b o) :
    o ≠ .failed := by
  rcases h with ⟨-, -, habandon⟩ | ⟨now, counts, -, hpc⟩
  · exact hr.abandons habandon
  · rintro rfl
    exact hr.unfailed counts hpc

theorem Execution.step_unfailed (hu : ∀ counts, e.pc ≠ .finishing .failed counts)
    (h : e.step db settings b = some (db', e')) : ∀ counts, e'.pc ≠ .finishing .failed counts := by
  intro counts hpc
  obtain ⟨-, -, ⟨-, hbefore⟩ | ⟨now, -, ho, -⟩⟩ := (Execution.step_change h).finishing _ _ hpc
  · exact hu none hbefore
  · exact outcome_unfailed ho rfl

end

section
variable {settings : Settings} {s s' : State} {a : Action}

/-- The rows that the run of a shard refers to are there. -/
theorem authorized_shard (ha : s.db.Authorized) {e : Execution} (hl : Loaded s e) {l : ScanShard}
    (hload : e.shard = some l) :
    ∃ run profile, s.db.runs.get l.runId = some run ∧
      s.db.profiles.get run.profileId = some profile := by
  obtain ⟨r, hr, hsame⟩ := hl.shard l hload
  obtain ⟨run, -, hrun, -⟩ := ha.shard r (Table.get_mem hr)
  obtain ⟨-, profile, -, -, hprofile, -⟩ := ha.run run (Table.get_mem hrun)
  rw [hsame] at hrun
  exact ⟨run, profile, hrun, hprofile⟩

theorem rooted_worker (ha : s.db.Authorized) {e e' : Execution} {b : WorkerAction} {db : Db}
    (hl : Loaded s e) (hr : e.Rooted s.db) (h : e.step s.db settings b = some (db, e')) :
    e'.Rooted s.db := by
  have hchange := Execution.step_change h
  obtain ⟨hhosts, hdiscoveries⟩ := Execution.step_reports h
  have hloaded : ∀ {run : Option ScanRun}, e.pc = .shardLoaded →
      (run = e.shard.bind fun shard => s.db.runs.get shard.runId) →
      ∃ current profile, run = some current ∧
        s.db.profiles.get current.profileId = some profile := by
    rintro run hpc rfl
    obtain ⟨l, hload⟩ := Option.isSome_iff_exists.mp (hr.shardLoaded hpc)
    obtain ⟨current, profile, hcurrent, hprofile⟩ := authorized_shard ha hl hload
    exact ⟨current, profile, by rw [hload, Option.bind_some, hcurrent], hprofile⟩
  refine ⟨hchange.shardLoaded, fun hpc => ?_, fun hsome => ?_, fun x hx => ?_, fun x hx => ?_,
    Execution.step_unfailed hr.unfailed h⟩
  · obtain ⟨hbefore, hrun⟩ := hchange.loaded hpc
    obtain ⟨current, _, hcurrent, -⟩ := hloaded hbefore hrun
    rw [hcurrent]
    rfl
  · rcases Execution.step_profile h with ⟨hsame, hold⟩ | ⟨hpc, hrun, hprofile⟩
    · rw [hsame]
      exact hr.profile (hold hsome)
    · obtain ⟨current, profile, hcurrent, hget⟩ := hloaded hpc hrun
      rw [hprofile, hcurrent, Option.bind_some, hget]
      rfl
  · rcases hhosts x hx with hold | ⟨run, hrun, hid, hshard⟩
    · exact hr.hosts x hold
    · rw [hid, hshard]
      exact hl.hasShard hrun
  · rcases hdiscoveries x hx with hold | ⟨run, hrun, hid, hshard⟩
    · exact hr.discoveries x hold
    · rw [hid, hshard]
      exact hl.hasShard hrun

theorem rooted_step (ha : s.db.Authorized) (hl : ∀ e ∈ s.executions, Loaded s e)
    (hr : ∀ e ∈ s.executions, e.Rooted s.db) (h : s.step settings a = some s') :
    ∀ e ∈ s'.executions, e.Rooted s'.db := by
  have hkept : ∀ runId shardId, s.db.HasShard runId shardId → s'.db.HasShard runId shardId :=
    fun _ _ hhas => hhas.kept fun _ _ hget => shard_runId h hget
  refine executions_step h (fun e he => (hr e he).kept hkept) ?_ ?_
  · exact fun e he i b e' _ hstep => (rooted_worker ha (hl e he) (hr e he) hstep).kept hkept
  · refine fun _ _ => ⟨fun hpc => ?_, fun hpc => ?_, fun hrun => ?_, ?_, ?_, fun _ hpc => ?_⟩
    · cases hpc
    · cases hpc
    · cases hrun
    · exact fun _ hx => absurd hx List.not_mem_nil
    · exact fun _ hx => absurd hx List.not_mem_nil
    · cases hpc

/-! ## The rows that a step writes -/

/-- An observation is inserted from what an execution holds back. -/
theorem observed_step (h : s.step settings a = some s') :
    (∀ x ∈ s'.db.hosts.rows, x ∈ s.db.hosts.rows ∨ ∃ e ∈ s.executions, x ∈ e.hosts) ∧
      ∀ x ∈ s'.db.discoveries.rows, x ∈ s.db.discoveries.rows ∨
        ∃ e ∈ s.executions, x ∈ e.discoveries := by
  by_cases ha : ∃ i b, a = .worker i b
  · obtain ⟨i, b, rfl⟩ := ha
    obtain ⟨e, db, e', he, hstep, rfl⟩ := step_worker h
    have hmem : e ∈ s.executions := List.mem_of_getElem? he
    rcases Execution.step_cases hstep with ⟨rfl, -⟩ | hc
    · exact ⟨fun x hx => Or.inl hx, fun x hx => Or.inl hx⟩
    rcases hc.results with ⟨hhosts, -, hdiscoveries⟩ |
      ⟨_, -, -, -, hhosts, -, hdiscoveries⟩ | ⟨-, -, hhosts, -, hdiscoveries⟩
    · refine ⟨fun x hx => Or.inl ?_, fun x hx => Or.inl ?_⟩
      · exact hhosts ▸ hx
      · exact hdiscoveries ▸ hx
    · refine ⟨fun x hx => Or.inl ?_, fun x hx => Or.inl ?_⟩
      · rw [hhosts] at hx
        exact (Table.mem_delete.mp hx).1
      · rw [hdiscoveries] at hx
        exact (Table.mem_delete.mp hx).1
    · refine ⟨fun x hx => ?_, fun x hx => ?_⟩
      · rw [Table.rows_append? hhosts] at hx
        exact (List.mem_append.mp hx).imp_right fun hnew => ⟨e, hmem, hnew⟩
      · rw [Table.rows_append? hdiscoveries] at hx
        exact (List.mem_append.mp hx).imp_right fun hnew => ⟨e, hmem, hnew⟩
  · obtain ⟨hhosts, -, hdiscoveries⟩ := results_frame h fun i b hab => ha ⟨i, b, hab⟩
    rw [hhosts, hdiscoveries]
    exact ⟨fun x hx => Or.inl hx, fun x hx => Or.inl hx⟩

/-- A finalization writes exposures of its run. -/
theorem Db.exposed_finalizeWith {db db' : Db} {counts : TerminalCounts} {run run' : ScanRun}
    {actor : String} {now : DateTime} (h : db.finalizeWith counts run actor now = some (db', run'))
    {x : CurrentExposure} (hx : x ∈ db'.exposures.rows) :
    x ∈ db.exposures.rows ∨
      (counts.fires run = true ∧ x.latestRunId = run.id ∧ x.pair = run.pair) := by
  rw [Db.finalizeWith] at h
  split at h
  · next hfires =>
    obtain ⟨db₁, hrefresh, heq⟩ := Option.map_eq_some_iff.mp h
    cases heq
    rw [Db.refreshInventory] at hrefresh
    split at hrefresh
    · cases hrefresh
      exact Or.inl hx
    split at hrefresh
    · rw [Db.materializeCurrentExposures] at hrefresh
      split at hrefresh
      · cases hrefresh
        exact Or.inl hx
      · obtain ⟨exposures, happend, rfl⟩ := Option.map_eq_some_iff.mp hrefresh
        have hmem : x ∈ exposures.rows := hx
        rw [Table.rows_append? happend] at hmem
        rcases List.mem_append.mp hmem with hold | hnew
        · exact Or.inl (Table.mem_delete.mp hold).1
        · obtain ⟨_, -, rfl⟩ := List.mem_map.mp hnew
          exact Or.inr ⟨hfires, rfl, rfl⟩
    · cases hrefresh
      exact Or.inl hx
  · cases h
    exact Or.inl hx

theorem exposed_step (h : s.step settings a = some s') {x : CurrentExposure}
    (hx : x ∈ s'.db.exposures.rows) :
    x ∈ s.db.exposures.rows ∨ ∃ run counts, s.finalizing a = some (run, counts) ∧
      x.latestRunId = run.id ∧ x.pair = run.pair := by
  rcases exposures_step h with hsame | ⟨run, hreplaces⟩
  · exact Or.inl (hsame ▸ hx)
  · obtain ⟨⟨_, counts⟩, hfinal, -⟩ := Option.bind_eq_some_iff.mp hreplaces
    obtain ⟨db, run, counts, actor, now, run', hfin, hseen, -, heq⟩ :=
      step_finalization h (finalizing_action hfinal)
    have hframe : db.exposures = s.db.exposures := by
      rcases hseen with rfl | ⟨_, -, _, _, -, -, hflush⟩
      · rfl
      · obtain ⟨_, _, _, -, -, -, rfl⟩ := Execution.flush_frame hflush
        rfl
    rcases Db.exposed_finalizeWith hfin hx with hold | ⟨hfires, hid, hpair⟩
    · exact Or.inl (hframe ▸ hold)
    · rw [if_pos hfires] at heq
      exact Or.inr ⟨run, counts, heq, hid, hpair⟩

/-- No step leaves a shard failed. -/
theorem unfailed_step (hc : Copies s) (hr : Rooting s) (h : s.step settings a = some s') :
    ∀ r ∈ s'.db.shards.rows, r.status ≠ .failed := by
  intro r' hr' hfailed
  rcases shard_cases h (Table.get_of_mem hr') with ⟨r, hget, rfl | hstep⟩ | hnew
  · exact hr.anchored.unfailed r' (Table.get_mem hget) hfailed
  · have hold := hr.anchored.unfailed r (Table.get_mem hget)
    cases hstep with
    | lease => cases hfailed
    | bind =>
      rw [ScanShard.writeBack_bound] at hfailed
      exact hold hfailed
    | recover hp hl hid =>
      rw [(ScanShard.writeBack_requeued (hc.stale _ (List.mem_of_getElem? hp) _ hl) r).1] at hfailed
      cases hfailed
    | cancel hp hl hid =>
      rw [ScanShard.writeBack_cancelled (hc.selected _ (List.mem_of_getElem? hp) _ hl).1] at hfailed
      cases hfailed
    | claim => cases hfailed
    | beat => exact hold hfailed
    | @finish i e b o _ he hconcludes hheld =>
      have ho : o ≠ .failed := (hr.rooted e (List.mem_of_getElem? he)).concludes hconcludes
      cases o <;> first | exact ho rfl | cases hfailed
  · rw [hnew.blank] at hfailed
    cases hfailed

theorem anchored_step (hc : Copies s) (hr : Rooting s) (h : s.step settings a = some s') :
    s'.db.Anchored where
  host := by
    intro x hx
    refine Db.HasShard.kept ?_ fun _ _ hget => shard_runId h hget
    rcases (observed_step h).1 x hx with hold | ⟨e, he, hpending⟩
    · exact hr.anchored.host x hold
    · exact (hr.rooted e he).hosts x hpending
  discovery := by
    intro x hx
    refine Db.HasShard.kept ?_ fun _ _ hget => shard_runId h hget
    rcases (observed_step h).2 x hx with hold | ⟨e, he, hpending⟩
    · exact hr.anchored.discovery x hold
    · exact (hr.rooted e he).discoveries x hpending
  exposure := by
    intro x hx
    obtain ⟨run, hrun, hpair⟩ : ∃ run, s.db.runs.get x.latestRunId = some run ∧
        run.pair = x.pair := by
      rcases exposed_step h hx with hold | ⟨run, counts, hfinal, hid, hpair⟩
      · exact hr.anchored.exposure x hold
      · obtain ⟨r, hget, hsame⟩ := finalizing_tracks hr.copies hfinal
        rw [hid, hpair]
        exact ⟨r, hget, hsame⟩
    obtain ⟨run', hrun', rfl | hstep⟩ := run_step h hrun
    · exact ⟨run', hrun', hpair⟩
    · exact ⟨run', hrun', hstep.pair.trans hpair⟩
  unfailed := unfailed_step hc hr h

theorem rooting_step (hs : Serving s) (hr : Rooting s) (hcreates : a.creates = false)
    (h : s.step settings a = some s') : Rooting s' where
  authorized := authorized_system hr.authorized hcreates h
  anchored := anchored_step hs.copies hr h
  rooted := rooted_step hr.authorized hs.loaded hr.rooted h
  copies := tracks_step tracking_pair hr.copies h

theorem rooting_grows (hr : Rooting s) {db : Db} (hauthorized : db.Authorized)
    (hg : s.db.Grows db) : Rooting { s with db := db } where
  authorized := hauthorized
  anchored := by
    have hkept : ∀ runId shardId, s.db.HasShard runId shardId → db.HasShard runId shardId :=
      fun _ _ hhas => hhas.kept fun k r hget => ⟨r, hg.shards k r hget, rfl⟩
    refine ⟨fun x hx => hkept _ _ ?_, fun x hx => hkept _ _ ?_, fun x hx => ?_, fun r hget => ?_⟩
    · exact hr.anchored.host x (hg.hosts ▸ hx)
    · exact hr.anchored.discovery x (hg.discoveries ▸ hx)
    · obtain ⟨run, hrun, hpair⟩ := hr.anchored.exposure x (hg.exposures ▸ hx)
      exact ⟨run, hg.runs _ run hrun, hpair⟩
    · rcases hg.fresh r hget with hold | ⟨-, hqueued⟩
      · exact hr.anchored.unfailed r hold
      · rw [hqueued]
        decide
  rooted := fun e he => (hr.rooted e he).kept fun _ _ hhas =>
    hhas.kept fun k r hget => ⟨r, hg.shards k r hget, rfl⟩
  copies := hr.copies.of_db fun _ hcopy => hcopy.of_runs hg.runs

end

end TransportLookout
