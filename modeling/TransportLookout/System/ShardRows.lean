/-
What a step can do to a shard row.

`ShardStep` lists every rewrite of a committed `ScanShard` row, with the guard
the code checks and the copy it writes from.  `shard_step` says the list is
complete: a row is kept by a step or rewritten in one of these ways.  Every
invariant of the lease protocol is derived from it, and none unfolds the step
function again.
-/
import TransportLookout.System.Steps

namespace TransportLookout

open Relational

/-! ## Rows after each write -/

theorem Db.get_flushShards (db : Db) (loaded : List ScanShard) (assign : ScanShard → ScanShard)
    (k : Uuid) :
    (db.flushShards loaded assign).shards.get k = (db.shards.get k).map fun r =>
      match loaded.find? fun l => l.id = r.id with
      | some l => ScanShard.writeBack l (assign l) r
      | none => r := by
  exact Table.get_update db.shards _ (fun r => by split <;> rfl) k

theorem Db.get_finishLease (db : Db) (shardId token : Uuid) (o : Outcome) (k : Uuid) :
    (db.finishLease shardId token o).shards.get k = (db.shards.get k).map fun r =>
      if r.held shardId token .running then r.finish o else r := by
  rw [Db.finishLease, Table.get_updateWhere]

theorem Db.get_heartbeat (db : Db) (shardId token : Uuid) (now : DateTime) (k : Uuid) :
    (db.heartbeat shardId token now).shards.get k = (db.shards.get k).map fun r =>
      if r.held shardId token .running then { r with heartbeatAt := some now } else r := by
  rw [Db.heartbeat, Table.get_updateWhere]

theorem ScanShard.held_iff {shardId token : Uuid} {status : ShardStatus} {r : ScanShard} :
    r.held shardId token status = true ↔
      r.id = shardId ∧ r.status = status ∧ r.leaseToken = some token := by
  simp [ScanShard.held, and_assoc]

theorem Db.currentLease_iff {db : Db} {shardId token : Uuid} :
    db.currentLease shardId token = true ↔
      ∃ r, db.shards.get shardId = some r ∧ r.status = .running ∧ r.leaseToken = some token := by
  rw [Db.currentLease, List.any_eq_true]
  constructor
  · rintro ⟨r, hr, hheld⟩
    obtain ⟨hid, hstatus, htoken⟩ := ScanShard.held_iff.mp hheld
    exact ⟨r, Table.get_eq_some.mpr ⟨hr, hid⟩, hstatus, htoken⟩
  · rintro ⟨r, hr, hstatus, htoken⟩
    exact ⟨r, Table.get_mem hr, ScanShard.held_iff.mpr ⟨Table.get_key hr, hstatus, htoken⟩⟩

theorem Db.claimLease_eq_some {db db' : Db} {shardId token : Uuid} {workerId : String}
    {now : DateTime} (h : db.claimLease shardId token workerId now = some db') :
    (∃ r, db.shards.get shardId = some r ∧ r.held shardId token .leased = true) ∧
      db' = { db with shards := db'.shards } ∧
      ∀ k, db'.shards.get k = (db.shards.get k).map fun r =>
        if r.held shardId token .leased then r.claimed workerId now else r := by
  rw [Db.claimLease] at h
  split at h
  · next hcount =>
    cases h
    refine ⟨?_, rfl, fun k => ?_⟩
    rotate_left
    · exact Table.get_updateWhere db.shards _ (fun s => s.claimed workerId now) (fun _ => rfl) k
    have hpos : 0 < db.shards.rows.countP (ScanShard.held shardId token .leased) := by
      rw [show db.shards.rows.countP _ = 1 from hcount]
      exact Nat.one_pos
    obtain ⟨r, hr, hheld⟩ := List.countP_pos_iff.mp hpos
    exact ⟨r, Table.get_eq_some.mpr ⟨hr, (ScanShard.held_iff.mp hheld).1⟩, hheld⟩
  · cases h

/-- A claim succeeds when its row is leased under its token. -/
theorem Db.claimLease_of_held {db : Db} {shardId token : Uuid} {r : ScanShard}
    (hr : db.shards.get shardId = some r) (hheld : r.held shardId token .leased = true)
    (workerId : String) (now : DateTime) :
    (db.claimLease shardId token workerId now).isSome = true := by
  have hone : db.shards.count (ScanShard.held shardId token .leased) = 1 := by
    apply Nat.le_antisymm
    · exact Table.count_le_one fun q _ hq => (ScanShard.held_iff.mp hq).1
    · exact List.countP_pos_iff.mpr ⟨r, Table.get_mem hr, hheld⟩
  rw [Db.claimLease, if_pos hone]
  rfl

theorem Db.leaseShards_eq_some {settings : Settings} {db db' : Db} {now : DateTime}
    {leases : List (Uuid × Uuid)} {eventIds : List Uuid}
    (h : Db.leaseShards settings db now leases eventIds = some db') :
    db.outbox.append? (leases.zipWith (fun l id => Db.leaseEvent now l.1 l.2 id) eventIds) =
        some db'.outbox ∧
      db' = { db with shards := db'.shards, outbox := db'.outbox } ∧
      ∀ k, db'.shards.get k = (db.shards.get k).map fun r =>
        match leases.lookup r.id with
        | some token => Db.leaseShard settings now token r
        | none => r := by
  rw [Db.leaseShards] at h
  obtain ⟨outbox, houtbox, rfl⟩ := Option.map_eq_some_iff.mp h
  refine ⟨houtbox, rfl, fun k => ?_⟩
  exact Table.get_update db.shards _ (fun s => by split <;> rfl) k

theorem Db.createRun_ok {db db' : Db} {scope : InventoryScope} {profile : ScanProfile}
    {actor : String} {runId : Uuid} {shards : List (Uuid × String)}
    (h : db.createRun scope profile actor runId shards = .ok db') :
    scope.approved = true ∧ scope.zone = profile.zone ∧
      db.runs.append? [
        { id := runId, inventoryScopeId := scope.id, profileId := profile.id,
          requestedBy := actor }] = some db'.runs ∧
      db.shards.append? (shards.map fun shard =>
        { id := shard.1, runId := runId, cidr := shard.2, zone := scope.zone : ScanShard }) =
          some db'.shards ∧
      db' = { db with runs := db'.runs, shards := db'.shards, audits := db'.audits } := by
  rw [Db.createRun] at h
  split at h
  · cases h
  · next ha =>
    split at h
    · cases h
    · next hz =>
      dsimp only at h
      split at h
      · next runs shards hruns hshards =>
        cases h
        exact ⟨by simpa using ha, not_not.mp hz, hruns, hshards, rfl⟩
      · cases h

theorem Db.createRun_audits {db db' : Db} {scope : InventoryScope} {profile : ScanProfile}
    {actor : String} {runId : Uuid} {shards : List (Uuid × String)}
    (h : db.createRun scope profile actor runId shards = .ok db') :
    ∃ event, db'.audits = db.audits ++ [event] ∧ event.action = "run.created" := by
  rw [Db.createRun] at h
  split at h
  · cases h
  · split at h
    · cases h
    · dsimp only at h
      split at h
      · cases h
        exact ⟨_, rfl, rfl⟩
      · cases h

/-! ## The other tables -/

/-- The steps that write shards and events and no other table. -/
def Action.queues : Action → Bool
  | .createRun .. | .commitCancel .. | .finalizeNext .. | .worker .. => false
  | _ => true

theorem queue_frame {settings : Settings} {s s' : State} {a : Action}
    (h : s.step settings a = some s') (ha : a.queues = true) :
    s'.db = { s.db with shards := s'.db.shards, outbox := s'.db.outbox } := by
  by_cases hw : a.writes = false
  · rw [(step_reads h hw).1]
  cases a with
  | lease =>
    obtain ⟨_, _, -, -, -, -, -, hdb, rfl⟩ := step_lease h
    exact (Db.leaseShards_eq_some hdb).2.1
  | dropEvent =>
    obtain ⟨_, _, _, _, -, -, -, rfl⟩ := step_dropEvent h
    rfl
  | bindToken =>
    obtain ⟨_, _, _, _, -, -, -, -, -, rfl⟩ := step_bindToken h
    rfl
  | settleEvent =>
    obtain ⟨_, _, _, -, -, ⟨-, rfl⟩ | ⟨_, -, rfl⟩⟩ := step_settleEvent h
    · rfl
    · rfl
  | commitRecovery =>
    obtain ⟨_, -, rfl⟩ := step_commitRecovery h
    rfl
  | deliver =>
    obtain ⟨-, ⟨-, rfl⟩ | ⟨_, hdb, rfl⟩⟩ := step_deliver h
    · rfl
    · obtain ⟨-, hframe, -⟩ := Db.claimLease_eq_some hdb
      rw [hframe]
  | createRun | commitCancel | finalizeNext | worker => cases ha
  | _ => exact absurd rfl hw

/-! ## The commits of an execution -/

/-- `finish_lease` is called with outcome `o`. -/
def Execution.Concludes (e : Execution) (a : WorkerAction) (o : Outcome) : Prop :=
  (a = .abandon ∧ e.pc = .loaded ∧ e.abandonOutcome = some o) ∨
    ∃ now counts, a = .commitFinish now ∧ e.pc = .finishing o counts

theorem Execution.Commit.shards {db db' : Db} {e e' : Execution} {a : WorkerAction}
    (h : e.Commit db a db' e') :
    db'.shards = db.shards ∨
      (∃ now, e.owns db = true ∧
        db'.shards = (db.heartbeat e.shardId e.leaseToken now).shards) ∨
      ∃ o, e.Concludes a o ∧ e.owns db = true ∧
        db'.shards = (db.finishLease e.shardId e.leaseToken o).shards := by
  cases h with
  | abandon hpc ho howns => exact Or.inr (Or.inr ⟨_, Or.inl ⟨rfl, hpc, ho⟩, howns, rfl⟩)
  | start hpc hrun => exact Or.inl rfl
  | @beat stage now run _ _ hpc hrun howns hflush he hpc' =>
    obtain ⟨_, _, _, _, _, _, rfl⟩ := flush_frame hflush
    exact Or.inr (Or.inl ⟨now, howns, rfl⟩)
  | beatLost hpc hrun hflush he hpc' =>
    obtain ⟨_, _, _, _, _, _, rfl⟩ := flush_frame hflush
    exact Or.inl rfl
  | @finish o counts run now db₁ _ run' hpc hrun howns hflush hfin =>
    right
    right
    refine ⟨o, Or.inr ⟨now, counts, rfl, hpc⟩, howns, ?_⟩
    obtain ⟨_, _, _, _, _, _, rfl⟩ := flush_frame hflush
    rcases Db.finalizeWith_spec hfin with ⟨-, rfl, -⟩ | ⟨-, -, hdb⟩
    · rfl
    · rw [hdb]
      rfl

theorem Execution.Commit.outbox {db db' : Db} {e e' : Execution} {a : WorkerAction}
    (h : e.Commit db a db' e') : db'.outbox = db.outbox := by
  cases h with
  | abandon | start => rfl
  | beat _ _ _ hflush _ _ =>
    obtain ⟨_, _, _, _, _, _, rfl⟩ := flush_frame hflush
    rfl
  | beatLost _ _ hflush _ _ =>
    obtain ⟨_, _, _, _, _, _, rfl⟩ := flush_frame hflush
    rfl
  | finish _ _ _ hflush hfin =>
    obtain ⟨_, _, _, _, _, _, rfl⟩ := flush_frame hflush
    rcases Db.finalizeWith_spec hfin with ⟨-, rfl, -⟩ | ⟨-, -, hdb⟩
    · rfl
    · rw [hdb]
      rfl

/-! ## The step relation on rows -/

inductive ShardStep (settings : Settings) (s : State) : Action → ScanShard → ScanShard → Prop
  | lease {p tokens eventIds now d token r} (hd : s.dispatches[p]? = some d)
      (hlen : tokens.length = (s.db.dispatchableShards d.runId now d.capacity).length)
      (hnodup : tokens.Nodup) (hfresh : ∀ t ∈ tokens, t ∉ s.issued)
      (hr : r ∈ s.db.dispatchableShards d.runId now d.capacity)
      (hl : (((s.db.dispatchableShards d.runId now d.capacity).map ScanShard.id).zip
        tokens).lookup r.id = some token) :
      ShardStep settings s (.lease p tokens eventIds now) r (Db.leaseShard settings now token r)
  | bind {p token pub e rest loaded r} (hp : s.publications[p]? = some pub)
      (hpending : pub.pending = e :: rest) (hphase : pub.phase = .looked (some loaded))
      (hstatus : loaded.status = .leased) (hfresh : token ∉ s.issued) (hid : loaded.id = r.id) :
      ShardStep settings s (.bindToken p token) r
        (ScanShard.writeBack loaded { loaded with leaseToken := some token } r)
  | recover {p stale loaded r} (hp : s.recoveries[p]? = some stale) (hl : loaded ∈ stale)
      (hid : loaded.id = r.id) :
      ShardStep settings s (.commitRecovery p) r (ScanShard.writeBack loaded loaded.requeued r)
  | cancel {p now c loaded r} (hp : s.cancellations[p]? = some c)
      (hl : loaded ∈ c.phase.shards) (hid : loaded.id = r.id) :
      ShardStep settings s (.commitCancel p now) r
        (ScanShard.writeBack loaded { loaded with status := .cancelled } r)
  | claim {shardId token workerId now r} (hsent : (shardId, token) ∈ s.sent)
      (hheld : r.held shardId token .leased = true) :
      ShardStep settings s (.deliver shardId token workerId now) r (r.claimed workerId now)
  | beat {i e a now r} (he : s.executions[i]? = some e)
      (hheld : r.held e.shardId e.leaseToken .running = true) :
      ShardStep settings s (.worker i a) r { r with heartbeatAt := some now }
  | finish {i e a o r} (he : s.executions[i]? = some e) (hc : e.Concludes a o)
      (hheld : r.held e.shardId e.leaseToken .running = true) :
      ShardStep settings s (.worker i a) r (r.finish o)

/-- A row the step of a run creation adds. -/
structure NewShard (s : State) (a : Action) (r : ScanShard) : Prop where
  created : ∃ scopeId profileId actor shards,
    a = .createRun scopeId profileId actor r.runId shards ∧ (r.id, r.cidr) ∈ shards
  blank : r = { id := r.id, runId := r.runId, cidr := r.cidr, zone := r.zone }

section
variable {settings : Settings} {s s' : State}

theorem Db.mem_dispatchableShards {db : Db} {runId : Uuid} {now : DateTime} {capacity : Nat}
    {r : ScanShard} (h : r ∈ db.dispatchableShards runId now capacity) :
    r ∈ db.shards.rows ∧ r.runId = runId ∧ r.status = .queued := by
  rw [Db.dispatchableShards] at h
  have hsel := (List.mem_insertionSort _).mp (List.mem_of_mem_take h)
  obtain ⟨hr, hp⟩ := Table.mem_select.mp hsel
  rw [Bool.and_eq_true, Bool.and_eq_true, decide_eq_true_eq, decide_eq_true_eq] at hp
  exact ⟨hr, hp.1.1, hp.1.2⟩

/-- A row a write-back lists is rewritten from the copy listed. -/
theorem Db.get_flushShards_cases {db : Db} (loaded : List ScanShard)
    (assign : ScanShard → ScanShard) {k : Uuid} {r : ScanShard} (hr : db.shards.get k = some r) :
    ∃ r', (db.flushShards loaded assign).shards.get k = some r' ∧
      (r' = r ∨ ∃ l ∈ loaded, l.id = r.id ∧ r' = ScanShard.writeBack l (assign l) r) := by
  rw [Db.get_flushShards, hr, Option.map_some]
  cases hf : loaded.find? fun l => l.id = r.id with
  | none => exact ⟨r, rfl, Or.inl rfl⟩
  | some l =>
    have hid : l.id = r.id := by simpa using List.find?_some hf
    exact ⟨_, rfl, Or.inr ⟨l, List.mem_of_find?_eq_some hf, hid, rfl⟩⟩

theorem Db.get_id {db : Db} {k : Uuid} {l r : ScanShard} (hr : db.shards.get k = some r)
    (hid : l.id = r.id) : db.shards.get l.id = some r := by
  rw [hid]
  exact Table.get_of_mem (Table.get_mem hr)

theorem Db.get_flushShards_of_mem {db : Db} {loaded : List ScanShard}
    (assign : ScanShard → ScanShard) {l r : ScanShard} (hr : db.shards.get l.id = some r)
    (hl : l ∈ loaded) :
    ∃ l' ∈ loaded, l'.id = l.id ∧
      (db.flushShards loaded assign).shards.get l.id =
        some (ScanShard.writeBack l' (assign l') r) := by
  have hid : r.id = l.id := Table.get_key hr
  have hsome : (loaded.find? fun l' => l'.id = r.id).isSome := by
    rw [List.find?_isSome]
    exact ⟨l, hl, by rw [hid, decide_eq_true_eq]⟩
  obtain ⟨l', hf⟩ := Option.isSome_iff_exists.mp hsome
  have hid' : l'.id = r.id := by simpa using List.find?_some hf
  refine ⟨l', List.mem_of_find?_eq_some hf, hid'.trans hid, ?_⟩
  rw [Db.get_flushShards, hr, Option.map_some, hf]

/-- A committed row outlives every step, kept or rewritten as `ShardStep` says. -/
theorem shard_step {a : Action} (h : s.step settings a = some s') {k : Uuid} {r : ScanShard}
    (hr : s.db.shards.get k = some r) :
    ∃ r', s'.db.shards.get k = some r' ∧ (r' = r ∨ ShardStep settings s a r r') := by
  by_cases hw : a.writes = false
  · rw [(step_reads h hw).1]
    exact ⟨r, hr, Or.inl rfl⟩
  cases a with
  | createRun =>
    obtain ⟨_, _, db, -, -, hdb, rfl⟩ := step_createRun h
    obtain ⟨-, -, -, hshards, -⟩ := Db.createRun_ok hdb
    exact ⟨r, Table.get_append?_of_get hshards hr, Or.inl rfl⟩
  | lease p tokens eventIds now =>
    obtain ⟨d, db, hd, hlen, -, hnodup, hfresh, hdb, rfl⟩ := step_lease h
    obtain ⟨-, -, hget⟩ := Db.leaseShards_eq_some hdb
    rw [hget, hr, Option.map_some]
    cases hl : (((s.db.dispatchableShards d.runId now d.capacity).map ScanShard.id).zip
        tokens).lookup r.id with
    | none => exact ⟨r, rfl, Or.inl rfl⟩
    | some token =>
      obtain ⟨c, hc, hid⟩ := List.mem_map.mp (List.of_mem_zip (mem_of_lookup_eq_some hl)).1
      have hcr : c = r :=
        s.db.shards.eq_of_key (Db.mem_dispatchableShards hc).1 (Table.get_mem hr) hid
      exact ⟨_, rfl, Or.inr (.lease hd hlen hnodup hfresh (hcr ▸ hc) hl)⟩
  | dropEvent =>
    obtain ⟨_, _, _, _, -, -, -, rfl⟩ := step_dropEvent h
    exact ⟨r, hr, Or.inl rfl⟩
  | bindToken p token =>
    obtain ⟨pub, e, rest, shard, hp, hpending, hphase, hstatus, hfresh, rfl⟩ := step_bindToken h
    obtain ⟨r', hr', hcase⟩ := Db.get_flushShards_cases [shard]
      (fun shard => { shard with leaseToken := some token }) hr
    refine ⟨r', hr', hcase.imp id ?_⟩
    rintro ⟨l, hl, hid, rfl⟩
    cases List.mem_singleton.mp hl
    exact .bind hp hpending hphase hstatus hfresh hid
  | settleEvent =>
    obtain ⟨_, _, _, -, -, ⟨-, rfl⟩ | ⟨_, -, rfl⟩⟩ := step_settleEvent h
    · exact ⟨r, hr, Or.inl rfl⟩
    · exact ⟨r, hr, Or.inl rfl⟩
  | commitRecovery p =>
    obtain ⟨stale, hp, rfl⟩ := step_commitRecovery h
    obtain ⟨r', hr', hcase⟩ := Db.get_flushShards_cases stale ScanShard.requeued hr
    refine ⟨r', hr', hcase.imp id ?_⟩
    rintro ⟨l, hl, hid, rfl⟩
    exact .recover hp hl hid
  | commitCancel p now =>
    obtain ⟨c, shards, hp, hphase, rfl⟩ := step_commitCancel h
    have hrun : (s.db.flushRun c.run (Db.cancelledRun c.run now)).shards.get k = some r := hr
    obtain ⟨r', hr', hcase⟩ := Db.get_flushShards_cases shards
      (fun s => { s with status := .cancelled }) hrun
    refine ⟨r', hr', hcase.imp id ?_⟩
    rintro ⟨l, hl, hid, rfl⟩
    exact .cancel hp (by rw [hphase]; exact hl) hid
  | finalizeNext =>
    obtain ⟨run, _, db, run', -, hfin, rfl⟩ := step_finalizeNext h
    refine ⟨r, ?_, Or.inl rfl⟩
    rcases Db.finalizeWith_spec hfin with ⟨-, rfl, -⟩ | ⟨-, -, hdb⟩
    · exact hr
    · rw [hdb]
      exact hr
  | deliver shardId token workerId now =>
    obtain ⟨hsent, ⟨-, rfl⟩ | ⟨db, hdb, rfl⟩⟩ := step_deliver h
    · exact ⟨r, hr, Or.inl rfl⟩
    · obtain ⟨-, -, hget⟩ := Db.claimLease_eq_some hdb
      rw [hget, hr, Option.map_some]
      by_cases hheld : r.held shardId token .leased = true
      · rw [if_pos hheld]
        exact ⟨_, rfl, Or.inr (.claim hsent hheld)⟩
      · rw [if_neg hheld]
        exact ⟨r, rfl, Or.inl rfl⟩
  | worker i a =>
    obtain ⟨e, db, e', he, hstep, rfl⟩ := step_worker h
    rcases Execution.step_cases hstep with ⟨rfl, -⟩ | hc
    · exact ⟨r, hr, Or.inl rfl⟩
    rcases hc.shards with hsame | ⟨now, -, hbeat⟩ | ⟨o, ho, -, hfinish⟩
    · rw [hsame]
      exact ⟨r, hr, Or.inl rfl⟩
    · rw [hbeat, Db.get_heartbeat, hr, Option.map_some]
      by_cases hheld : r.held e.shardId e.leaseToken .running = true
      · rw [if_pos hheld]
        exact ⟨_, rfl, Or.inr (.beat he hheld)⟩
      · rw [if_neg hheld]
        exact ⟨r, rfl, Or.inl rfl⟩
    · rw [hfinish, Db.get_finishLease, hr, Option.map_some]
      by_cases hheld : r.held e.shardId e.leaseToken .running = true
      · rw [if_pos hheld]
        exact ⟨_, rfl, Or.inr (.finish he ho hheld)⟩
      · rw [if_neg hheld]
        exact ⟨r, rfl, Or.inl rfl⟩
  | _ => exact absurd rfl hw

/-- Only a run creation adds rows. -/
theorem shard_new {a : Action} (h : s.step settings a = some s') {k : Uuid} {r : ScanShard}
    (hnone : s.db.shards.get k = none) (hr : s'.db.shards.get k = some r) : NewShard s a r := by
  have hmap : ∀ {f : ScanShard → ScanShard},
      s'.db.shards.get k = (s.db.shards.get k).map f → NewShard s a r := by
    intro f hf
    rw [hf, hnone] at hr
    cases hr
  have hsame : s'.db.shards = s.db.shards → NewShard s a r := by
    intro heq
    rw [heq, hnone] at hr
    cases hr
  by_cases hw : a.writes = false
  · exact hsame (by rw [(step_reads h hw).1])
  cases a with
  | createRun scopeId profileId actor runId shards =>
    obtain ⟨_, _, db, -, -, hdb, rfl⟩ := step_createRun h
    obtain ⟨-, -, -, hshards, -⟩ := Db.createRun_ok hdb
    rcases Table.get_append? hshards hr with hold | ⟨hnew, -⟩
    · rw [hnone] at hold
      cases hold
    · obtain ⟨shard, hmem, rfl⟩ := List.mem_map.mp hnew
      exact ⟨⟨scopeId, profileId, actor, shards, rfl, hmem⟩, rfl⟩
  | lease =>
    obtain ⟨_, _, -, -, -, -, -, hdb, rfl⟩ := step_lease h
    obtain ⟨-, -, hget⟩ := Db.leaseShards_eq_some hdb
    exact hmap (hget k)
  | dropEvent =>
    obtain ⟨_, _, _, _, -, -, -, rfl⟩ := step_dropEvent h
    exact hsame rfl
  | bindToken =>
    obtain ⟨_, _, _, _, -, -, -, -, -, rfl⟩ := step_bindToken h
    exact hmap (Db.get_flushShards _ _ _ k)
  | settleEvent =>
    obtain ⟨_, _, _, -, -, ⟨-, rfl⟩ | ⟨_, -, rfl⟩⟩ := step_settleEvent h
    · exact hsame rfl
    · exact hsame rfl
  | commitRecovery =>
    obtain ⟨_, -, rfl⟩ := step_commitRecovery h
    exact hmap (Db.get_flushShards _ _ _ k)
  | commitCancel =>
    obtain ⟨c, _, -, -, rfl⟩ := step_commitCancel h
    exact hmap (Db.get_flushShards (s.db.flushRun c.run (Db.cancelledRun c.run _)) _ _ k)
  | finalizeNext =>
    obtain ⟨_, _, _, _, -, hfin, rfl⟩ := step_finalizeNext h
    rcases Db.finalizeWith_spec hfin with ⟨-, rfl, -⟩ | ⟨-, -, hdb⟩
    · exact hsame rfl
    · exact hsame (by rw [hdb]; rfl)
  | deliver =>
    obtain ⟨-, ⟨-, rfl⟩ | ⟨_, hdb, rfl⟩⟩ := step_deliver h
    · exact hsame rfl
    · obtain ⟨-, -, hget⟩ := Db.claimLease_eq_some hdb
      exact hmap (hget k)
  | worker =>
    obtain ⟨e, _, _, -, hstep, rfl⟩ := step_worker h
    rcases Execution.step_cases hstep with ⟨rfl, -⟩ | hc
    · exact hsame rfl
    rcases hc.shards with heq | ⟨now, -, hbeat⟩ | ⟨o, -, -, hfinish⟩
    · exact hsame heq
    · exact hmap (by rw [hbeat]; exact Db.get_heartbeat _ _ _ _ k)
    · exact hmap (by rw [hfinish]; exact Db.get_finishLease _ _ _ _ k)
  | _ => exact absurd rfl hw

/-- A row after a step was there before it, kept or rewritten, or is new. -/
theorem shard_cases {a : Action} (h : s.step settings a = some s') {k : Uuid} {r' : ScanShard}
    (hr' : s'.db.shards.get k = some r') :
    (∃ r, s.db.shards.get k = some r ∧ (r' = r ∨ ShardStep settings s a r r')) ∨
      NewShard s a r' := by
  cases hr : s.db.shards.get k with
  | none => exact Or.inr (shard_new h hr hr')
  | some r =>
    left
    obtain ⟨r'', hr'', hcase⟩ := shard_step h hr
    rw [hr'] at hr''
    cases hr''
    exact ⟨r, rfl, hcase⟩

/-- A shard stays in its run. -/
theorem ShardStep.runId {a : Action} {r r' : ScanShard} (h : ShardStep settings s a r r') :
    r'.runId = r.runId := by
  cases h with
  | @finish _ _ _ o => cases o <;> rfl
  | _ => rfl

theorem shard_runId {a : Action} (h : s.step settings a = some s') {k : Uuid} {r : ScanShard}
    (hr : s.db.shards.get k = some r) :
    ∃ r', s'.db.shards.get k = some r' ∧ r'.runId = r.runId := by
  obtain ⟨r', hr', rfl | hstep⟩ := shard_step h hr
  · exact ⟨r', hr', rfl⟩
  · exact ⟨r', hr', hstep.runId⟩

end

end TransportLookout
