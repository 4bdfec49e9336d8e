/-
An execution that nothing disturbs.

From its claim to its last commit an execution takes steps of its own only.  If its shard is
still leased to it, the scanner ends and the run can be finalized, the shard is completed.
Here the scanners find nothing; what earlier attempts found for the shard goes with the commit
that starts the scan.
-/
import TransportLookout.Safety.Advances
import TransportLookout.Safety.Resuming

namespace TransportLookout

open Relational Trace

/-- The steps of one execution, beside no other session. -/
def Execution.moves (settings : Settings) (x : Db × Execution) (b : WorkerAction) :
    Option (Db × Execution) :=
  x.2.step x.1 settings b

/-- What an execution can do by itself at the instant `now`. -/
abbrev Execution.Moves (settings : Settings) (now : DateTime) :=
  Reaches (Execution.moves settings) fun b => decide (∀ t ∈ b.time, t = now)

section
variable {settings : Settings} {now : DateTime} {x y : Db × Execution} {b : WorkerAction}

theorem Execution.Moves.of_untimed (now : DateTime) (h : Execution.moves settings x b = some y)
    (htime : b.time = none) : Execution.Moves settings now x y :=
  .of_step h (by rw [htime]; rfl)

theorem Execution.Moves.of_timed (h : Execution.moves settings x b = some y)
    (htime : b.time = some now) : Execution.Moves settings now x y :=
  .of_step h (by simp [htime])

end

section
variable (settings : Settings) (now : DateTime) {s : State} {db db' : Db} {e e' : Execution}

/-- What an execution can do it does as one of the sessions of the system. -/
theorem resumes_worker {i : Nat} (he : s.executions[i]? = some e)
    (h : Execution.Moves settings now (s.db, e) (db', e')) :
    Resumes settings now s { s with db := db', executions := s.executions.set i e' } := by
  have hlt : i < s.executions.length := (List.getElem?_eq_some_iff.mp he).1
  have hself : s.executions.set i e = s.executions := by
    obtain ⟨_, rfl⟩ := List.getElem?_eq_some_iff.mp he
    exact List.set_getElem_self hlt
  have hmap : Resumes settings now { s with executions := s.executions.set i e }
      { s with db := db', executions := s.executions.set i e' } := by
    refine Reaches.map (f := fun x => { s with db := x.1, executions := s.executions.set i x.2 })
      (g := Action.worker i) (fun x b y _ hstep => ?_) (fun _ hb => ?_) h
    · rw [Execution.moves] at hstep
      simp [State.step, List.getElem?_set_self hlt, hstep]
    · exact Action.resumes_iff.mpr ⟨rfl, of_decide_eq_true hb⟩
  rw [hself] at hmap
  exact hmap

/-- What an execution of the shard can do before it has recorded anything. -/
structure Execution.Scans (k token : Uuid) (run : ScanRun) (e : Execution) : Prop where
  shardId : e.shardId = k
  leaseToken : e.leaseToken = token
  run : e.run = some run
  cancelled : e.cancelled = false
  discoveries : e.discoveries = []
  hosts : e.hosts = []
  services : e.services = []

variable {k token : Uuid} {run : ScanRun}

theorem move_clearServices (db : Db) (hpc : e.pc = .loaded) (hnone : e.abandonOutcome = none) :
    ∃ ids, Execution.moves settings (db, e) .clearServices =
      some (db, { e with pc := .servicesCleared, doomedServices := ids }) :=
  ⟨_, if_pos ⟨hpc, hnone⟩⟩

theorem move_clearHosts (db : Db) (hpc : e.pc = .servicesCleared) :
    ∃ ids, Execution.moves settings (db, e) .clearHosts =
      some (db, { e with pc := .hostsCleared, doomedHosts := ids }) :=
  ⟨_, if_pos hpc⟩

theorem move_clearDiscoveries (db : Db) (hpc : e.pc = .hostsCleared) :
    ∃ keys, Execution.moves settings (db, e) .clearDiscoveries =
      some (db, { e with pc := .cleared, doomedDiscoveries := keys }) :=
  ⟨_, if_pos hpc⟩

theorem move_storeDiscovery (db : Db) (hpc : e.pc = .discovered) (hrun : e.run = some run)
    (hnothing : e.discoveries = []) :
    ∃ key audits, Execution.moves settings (db, e) .storeDiscovery =
      some (db, { e with pc := .results, discoveryArtifactKey := key, audits := audits }) := by
  have hcandidates : (e.discoveries.map DiscoveryObservation.address).dedup = [] := by
    rw [hnothing]
    rfl
  exact ⟨_, _, by simp only [Execution.moves, Execution.step, hpc, hrun]; exact if_pos hcandidates⟩

/-- From the claim to the commit that starts the scan. -/
theorem reaches_cleared {r : ScanShard} {profile : ScanProfile} (hr : db.shards.get k = some r)
    (hrun : db.runs.get r.runId = some run) (hcancelled : run.status ≠ .cancelled)
    (hprofile : db.profiles.get run.profileId = some profile) (token : Uuid) :
    ∃ e, Execution.Moves settings now (db, { shardId := k, leaseToken := token }) (db, e) ∧
      e.pc = .cleared ∧ e.Scans k token run := by
  obtain ⟨e₁, he₁⟩ : ∃ e₁ : Execution, e₁ =
      { shardId := k, leaseToken := token, pc := .loaded, shard := some r, run := some run,
        profile := some profile } := ⟨_, rfl⟩
  have hload : runAll (Execution.moves settings) (db, { shardId := k, leaseToken := token })
      [.loadShard, .loadRun] = some (db, e₁) := by
    simp [runAll, Execution.moves, Execution.step, hr, hrun, hprofile, he₁]
  have hnone : e₁.abandonOutcome = none := by
    simp [Execution.abandonOutcome, he₁, hcancelled]
  obtain ⟨services, hservices⟩ := move_clearServices settings db
    (e := e₁) (by rw [he₁]) hnone
  obtain ⟨hosts, hhosts⟩ := move_clearHosts settings db
    (e := { e₁ with pc := .servicesCleared, doomedServices := services }) rfl
  obtain ⟨discoveries, hdiscoveries⟩ := move_clearDiscoveries settings db
    (e := { e₁ with pc := .hostsCleared, doomedServices := services, doomedHosts := hosts }) rfl
  have hcleared := (Execution.Moves.of_untimed now hservices rfl).trans
    ((Execution.Moves.of_untimed now hhosts rfl).trans
      (Execution.Moves.of_untimed now hdiscoveries rfl))
  refine ⟨_, (Reaches.of_runAll hload (by simp [WorkerAction.time])).trans hcleared, rfl, ?_⟩
  rw [he₁]
  exact ⟨rfl, rfl, rfl, rfl, rfl, rfl, rfl⟩

/-- The scan ends, and it has found nothing. -/
theorem reaches_confirmed (db : Db) (h : e.Scans k token run) {stage : Stage}
    (hpc : e.pc = .polling stage) (howns : db.currentLease k token = true) :
    ∃ e', Execution.Moves settings now (db, e) (db, e') ∧
      e'.pc = .confirmed ∧ e'.Scans k token run := by
  cases stage with
  | masscan =>
    have hscan : runAll (Execution.moves settings) (db, e)
        [.exit, .recheck, .addDiscoveries []] = some (db, { e with pc := .discovered }) := by
      simp [runAll, Execution.moves, Execution.step, Execution.owns, hpc, h.cancelled, h.shardId,
        h.leaseToken, howns, h.run]
    obtain ⟨key, audits, hstore⟩ := move_storeDiscovery settings db
      (e := { e with pc := .discovered }) rfl h.run h.discoveries
    have hconfirm : Execution.moves settings
        (db, { e with pc := .results, discoveryArtifactKey := key, audits := audits }) .confirm =
          some (db,
            { e with pc := .confirmed, discoveryArtifactKey := key, audits := audits }) := by
      simp [Execution.moves, Execution.step, Execution.owns, h.shardId, h.leaseToken, howns]
    have hstored := (Execution.Moves.of_untimed now hstore rfl).trans
      (Execution.Moves.of_untimed now hconfirm rfl)
    refine ⟨_, (Reaches.of_runAll hscan (by simp [WorkerAction.time])).trans hstored, rfl, ?_⟩
    exact ⟨h.shardId, h.leaseToken, h.run, h.cancelled, h.discoveries, h.hosts, h.services⟩
  | nmap =>
    have hscan : runAll (Execution.moves settings) (db, e)
        [.exit, .recheck, .storeConfirmation, .confirm] = some (db, { e with
          pc := .confirmed
          artifactKey := some (Db.artifactKey run.id e.shardId "nmap" e.leaseToken) }) := by
      simp [runAll, Execution.moves, Execution.step, Execution.owns, hpc, h.cancelled, h.shardId,
        h.leaseToken, howns, h.run]
    refine ⟨_, Reaches.of_runAll hscan (by simp [WorkerAction.time]), rfl, ?_⟩
    exact ⟨h.shardId, h.leaseToken, h.run, h.cancelled, h.discoveries, h.hosts, h.services⟩

/-- With nothing to insert a flush writes its audit events. -/
theorem flush_nothing (h : e.Scans k token run) :
    e.flush db = some { db with audits := db.audits ++ e.audits } := by
  simp only [Execution.flush, h.hosts, h.services, h.discoveries, Table.append?_eq_self.mpr,
    Option.bind_eq_bind, Option.bind_some]
  rfl

/-- What the last transaction of a scan that found nothing has written before it finalizes. -/
def Db.Completes (db : Db) (k token : Uuid) (db₁ : Db) : Prop :=
  ∃ artifactKey discoveryArtifactKey audits,
    db₁ = { db.finishLease k token (.completed artifactKey discoveryArtifactKey) with
      audits := audits }

theorem Db.Completes.get (h : db.Completes k token db') :
    ∃ o : Outcome, o.status = .completed ∧ ∀ k', db'.shards.get k' = (db.shards.get k').map fun r =>
      if r.held k token .running then r.finish o else r := by
  obtain ⟨artifactKey, discoveryArtifactKey, audits, rfl⟩ := h
  exact ⟨_, rfl, Db.get_finishLease db k token (.completed artifactKey discoveryArtifactKey)⟩

theorem Db.Completes.frame (h : db.Completes k token db') :
    db' = { db with shards := db'.shards, audits := db'.audits } := by
  obtain ⟨_, _, _, rfl⟩ := h
  rfl

theorem advances_completed (h : db.Completes k token db') : db.Advances db' := by
  obtain ⟨o, ho, hget⟩ := h.get
  have hshards : db.shards.Evolves ScanShard.Advances db'.shards := by
    refine .of_get hget fun _ r _ => ?_
    split
    · next hheld =>
      obtain ⟨-, hrunning, -⟩ := ScanShard.held_iff.mp hheld
      exact .of_active (by cases o <;> rfl) (by rw [hrunning]; rfl) (Or.inr ho)
    · exact .refl r
  rw [h.frame] at hshards ⊢
  exact .of_runs hshards rfl (.refl _) (.refl _)

/-- The commit that completes the shard, where the run can be finalized with it. -/
theorem reaches_finished (h : e.Scans k token run) (hpc : e.pc = .confirmed)
    (howns : db.currentLease k token = true)
    (hfinal : ∀ db₁, db.Completes k token db₁ →
      ∃ x, db₁.finalizeWith (db₁.terminalCounts run.id) run "worker" now = some x) :
    ∃ e' db₁ db' run', Execution.Moves settings now (db, e) (db', e') ∧
      db.Completes k token db₁ ∧
      db₁.finalizeWith (db₁.terminalCounts run.id) run "worker" now = some (db', run') := by
  obtain ⟨o, ho⟩ : ∃ o, o = Outcome.completed e.artifactKey e.discoveryArtifactKey := ⟨_, rfl⟩
  have hfinish : Execution.moves settings (db, e) (.finish now) =
      some (db, { e with pc := .finishing o none }) := by
    simp [Execution.moves, Execution.step, Execution.outcome, Execution.owns, hpc, h.shardId,
      h.leaseToken, howns, ho]
  have hscans : Execution.Scans k token run { e with pc := .finishing o none } :=
    ⟨h.shardId, h.leaseToken, h.run, h.cancelled, h.discoveries, h.hosts, h.services⟩
  obtain ⟨db₁, hdb₁⟩ : ∃ db₁ : Db, db₁ = { db.finishLease k token o with
    audits := (db.finishLease k token o).audits ++ e.audits } := ⟨_, rfl⟩
  have hcompletes : db.Completes k token db₁ := ⟨_, _, _, ho ▸ hdb₁⟩
  obtain ⟨⟨db', run'⟩, hx⟩ := hfinal db₁ hcompletes
  have hflush : Execution.flush (db.finishLease e.shardId e.leaseToken o)
      { e with pc := .finishing o none } = some db₁ := by
    rw [show db.finishLease e.shardId e.leaseToken o = db.finishLease k token o by
      rw [h.shardId, h.leaseToken], hdb₁]
    exact flush_nothing hscans
  have howned : Execution.owns db { e with pc := .finishing o none } = true := by
    rw [Execution.owns, hscans.shardId, hscans.leaseToken, howns]
  have hcommit : Execution.moves settings (db, { e with pc := .finishing o none })
      (.commitFinish now) = _ := Execution.commitFinish_eq rfl hscans.run howned hflush now
  rw [Option.getD_none, hx, Option.map_some] at hcommit
  have hmoves := (Execution.Moves.of_timed hfinish rfl).trans (Execution.Moves.of_timed hcommit rfl)
  exact ⟨_, db₁, db', run', hmoves, hcompletes, hx⟩

/-- The commit that starts the scan. -/
theorem move_start (db : Db) (h : e.Scans k token run) (hpc : e.pc = .cleared) :
    Execution.moves settings (db, e) (.start now) = some ((e.startCommit db run now).1,
      { e with pc := .polling e.firstStage, run := some (e.startCommit db run now).2 }) := by
  simp only [Execution.moves, Execution.step, hpc, h.run]

/-- Where the copy is the row, the row is what the session goes on with. -/
theorem get_startCommit (hrow : db.runs.get run.id = some run) :
    (e.startCommit db run now).1.runs.get run.id = some (e.startCommit db run now).2 := by
  have hget := Db.get_flushRun db run (e.startCommit db run now).2 run.id
  rw [hrow, Option.map_some, if_pos rfl] at hget
  refine Eq.trans hget (congrArg some ?_)
  simp [ScanRun.writeBack, Execution.startCommit]

/-- A shard that has been claimed can be completed. -/
theorem resumes_completion {i : Nat} {r : ScanShard} {profile : ScanProfile}
    (he : s.executions[i]? = some { shardId := k, leaseToken := token })
    (hr : s.db.shards.get k = some r) (hrunning : r.status = .running)
    (htoken : r.leaseToken = some token) (hrun : s.db.runs.get r.runId = some run)
    (hactive : run.status.terminal = false)
    (hprofile : s.db.profiles.get run.profileId = some profile)
    (hrefresh : s.db.Refreshable run.id) :
    ∃ t, Resumes settings now s t ∧ s.db.Advances t.db ∧
      ∃ r', t.db.shards.get k = some r' ∧ r'.status = .completed := by
  have hcancelled : run.status ≠ .cancelled := by
    intro h
    rw [h] at hactive
    cases hactive
  have hrow : s.db.runs.get run.id = some run := Db.get_run_id hrun
  obtain ⟨e₁, hcleared, hpc₁, hscans₁⟩ :=
    reaches_cleared settings now hr hrun hcancelled hprofile token
  -- the start of the scan
  have hstart := move_start settings now s.db hscans₁ hpc₁
  obtain ⟨⟨db₀, run₀⟩, hcommit⟩ : ∃ x, x = e₁.startCommit s.db run now := ⟨_, rfl⟩
  have hadvances₀ : s.db.Advances db₀ := by
    have hadvances : s.db.Advances (e₁.startCommit s.db run now).1 := advances_started hrow hactive
    rw [← hcommit] at hadvances
    exact hadvances
  rw [← hcommit] at hstart
  have hshards₀ : db₀.shards = s.db.shards := by
    rw [show db₀ = (e₁.startCommit s.db run now).1 from congrArg Prod.fst hcommit]
    rfl
  have howns : db₀.currentLease k token = true :=
    Db.currentLease_iff.mpr ⟨r, by rw [hshards₀, hr], hrunning, htoken⟩
  -- the scan and the last commit
  obtain ⟨e₂, hconfirmed, hpc₂, hscans₂⟩ := reaches_confirmed settings now db₀
    (e := { e₁ with pc := .polling e₁.firstStage, run := some run₀ })
    ⟨hscans₁.shardId, hscans₁.leaseToken, rfl, hscans₁.cancelled, hscans₁.discoveries,
      hscans₁.hosts, hscans₁.services⟩ rfl howns
  have hid₀ : run₀.id = run.id := by
    rw [show run₀ = (e₁.startCommit s.db run now).2 from congrArg Prod.snd hcommit]
    rfl
  have hrow₀ : db₀.runs.get run₀.id = some run₀ := by
    have hget := get_startCommit now (e := e₁) hrow
    rw [← hcommit] at hget
    rw [hid₀]
    exact hget
  obtain ⟨e₃, db₁, db', run', hfinished, hcompletes, hfinal⟩ :=
    reaches_finished settings now hscans₂ hpc₂ howns fun db₁ hcompletes => by
      refine finalizes_of_refreshable ?_ "worker" now
      rw [hid₀]
      exact hrefresh.advances (hadvances₀.trans (advances_completed hcompletes))
  have hrow₁ : db₁.runs.get run₀.id = some run₀ := by
    rw [hcompletes.frame]
    exact hrow₀
  have hadvances := (hadvances₀.trans (advances_completed hcompletes)).trans
    (advances_finalized hrow₁ hfinal)
  have hstarted := Execution.Moves.of_timed hstart rfl
  refine ⟨_, resumes_worker settings now he (hcleared.trans (hstarted.trans
    (hconfirmed.trans hfinished))), hadvances, ?_⟩
  obtain ⟨o, ho, hget⟩ := hcompletes.get
  refine ⟨r.finish o, ?_, ho⟩
  rw [(Db.finalizeWith_frame hfinal).1]
  show db₁.shards.get k = _
  have hheld : r.held k token .running = true :=
    ScanShard.held_iff.mpr ⟨Table.get_key hr, hrunning, htoken⟩
  rw [hget k, hshards₀, hr, Option.map_some, if_pos hheld]

end

end TransportLookout
