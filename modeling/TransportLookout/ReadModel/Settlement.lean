/-
The shards of a run finish in any order.

Every shard of the run has an execution about to finish it, with its outcome and
the rows it has recorded.  The transaction of an execution that finishes, and a
reconciliation pass, are one step each.  Whichever transaction is the last, what
the run and the read model become is a function of the executions, and not of
their order: `settledStatus` and `settledInventory`.
-/
import TransportLookout.ReadModel.Reconciliation
import TransportLookout.Worker.Handler

namespace TransportLookout

open Relational Trace

/-- The statements with which an execution leaves its shard. -/
def Execution.conclusion (e : Execution) (t now : DateTime) : List WorkerAction :=
  if e.pc = .loaded then [.abandon] else [.finish t, .commitFinish now]

/-- The outcome of an execution whose outcome does not depend on the time. -/
def Execution.assigned (settings : Settings) (e : Execution) : Outcome :=
  (if e.pc = .loaded then e.abandonOutcome else e.outcome settings 0).getD .failed

inductive Settle
  | conclude (e : Execution) (t now : DateTime)
  | reconcile (now : Uuid → DateTime)

def Settle.execution : Settle → Option Execution
  | .conclude e _ _ => some e
  | .reconcile _ => none

def Settle.step (settings : Settings) (db : Db) : Settle → Option Db
  | .conclude e t now =>
    (runAll (Execution.next settings) (db, e) (e.conclusion t now)).map Prod.fst
  | .reconcile now => db.reconcileTerminalRuns now

/-! ## What is settled -/

/-- A shard once the executions have finished. -/
def ScanShard.concluded (settings : Settings) (executions : List Execution) (r : ScanShard) :
    ScanShard :=
  ((executions.find? fun e => e.shardId = r.id).map fun e =>
    r.finish (e.assigned settings)).getD r

def openServicesOf (hosts : List HostObservation) (services : List ServiceObservation)
    (runId : Uuid) : List Observation :=
  hosts.flatMap fun host =>
    (services.filter fun service =>
      service.hostObservationId = host.id && host.runId = runId &&
        host.state = "up" && service.state = "open").map fun service => (host, service)

theorem Db.openServices_eq (db : Db) (runId : Uuid) :
    db.openServices runId = openServicesOf db.hosts.rows db.services.rows runId := rfl

section
variable (settings : Settings) (db : Db) (run : ScanRun) (executions : List Execution)

/-- The shards of the run at the end. -/
def settledShards : List ScanShard :=
  (db.shards.rows.filter fun r => r.runId = run.id).map (ScanShard.concluded settings executions)

def settledStatus : RunStatus :=
  if (settledShards settings db run executions).any fun r =>
      r.status = .failed || r.status = .deadLetter then .failed
  else .completed

/-- Some shard has discovery candidates and no Nmap artifact. -/
def settledIncomplete : Bool :=
  (settledShards settings db run executions).any fun r => r.artifactKey.isNone &&
    (db.discoveries.rows ++ executions.flatMap Execution.discoveries).any fun o =>
      o.shardId = r.id

/-- The rows of the run's pair at the end, for a run completed at `t`. -/
def settledInventory (t : DateTime) : List CurrentExposure :=
  if settledStatus settings db run executions = .completed ∧
      settledIncomplete settings db run executions = false then
    (db.scopes.get run.inventoryScopeId).elim (db.inventory run.pair) fun scope =>
      (openServicesOf (db.hosts.rows ++ executions.flatMap Execution.hosts)
        (db.services.rows ++ executions.flatMap Execution.services) run.id).map
          (db.exposureRow scope run t)
  else db.inventory run.pair

end

/-- A session's copy of the run: it may be older than a change from queued to running. -/
structure ScanRun.CopyOf (run copy : ScanRun) : Prop where
  id : copy.id = run.id
  pair : copy.pair = run.pair
  completedAt : copy.completedAt = run.completedAt
  active : copy.status.terminal = false

/-- An execution that owns a shard of the run and is about to finish it. -/
structure Execution.Concluding (settings : Settings) (db : Db) (run : ScanRun) (e : Execution) :
    Prop where
  shard : ∃ r, db.shards.get e.shardId = some r ∧ r.runId = run.id ∧
    r.held e.shardId e.leaseToken .running = true
  terminal : (e.assigned settings).status.terminal = true
  outcome : (e.pc = .loaded ∧ e.abandonOutcome = some (e.assigned settings) ∧
      e.hosts = [] ∧ e.services = [] ∧ e.discoveries = []) ∨
    (e.pc ≠ .loaded ∧ (∀ t, e.outcome settings t = some (e.assigned settings)) ∧
      ∃ copy, e.run = some copy ∧ run.CopyOf copy)
  hosts : ∀ h ∈ e.hosts, h.runId = run.id
  services : ∀ s ∈ e.services, ∃ h ∈ e.hosts, s.hostObservationId = h.id
  audits : ∀ event ∈ e.audits, event.action ≠ "run.finalized"

/-- Each shard of an active run is assigned an execution, or has finished before. -/
structure Assigned (settings : Settings) (db : Db) (run : ScanRun) (executions : List Execution) :
    Prop where
  row : db.runs.get run.id = some run
  active : run.status.terminal = false
  covered : ∀ r ∈ db.shards.rows, r.runId = run.id →
    r.status.terminal = true ∨ ∃ e ∈ executions, e.shardId = r.id
  single : (executions.map Execution.shardId).Nodup
  concluding : ∀ e ∈ executions, e.Concluding settings db run
  hosts : ((db.hosts.rows ++ executions.flatMap Execution.hosts).map HostObservation.id).Nodup
  services :
    ((db.services.rows ++ executions.flatMap Execution.services).map ServiceObservation.id).Nodup
  discoveries : ((db.discoveries.rows ++ executions.flatMap Execution.discoveries).map
    Keyed.key).Nodup
  /-- No key is observed twice within the run. -/
  keys : ((openServicesOf (db.hosts.rows ++ executions.flatMap Execution.hosts)
    (db.services.rows ++ executions.flatMap Execution.services) run.id).map Observation.key).Nodup
  /-- No other run's finalization replaces this part of the read model, or fails. -/
  others : ∀ other ∈ db.activeRuns, other.id ≠ run.id → db.Harmless run other

/-! ## Rows of shards -/

section
variable {settings : Settings} {executions done rest : List Execution} {e : Execution}
  {r : ScanShard}

theorem concluded_of_notMem (h : ∀ e ∈ done, e.shardId ≠ r.id) :
    r.concluded settings done = r := by
  have hnone : done.find? (fun e => e.shardId = r.id) = none := by
    rw [List.find?_eq_none]
    exact fun e he => by simpa using h e he
  rw [ScanShard.concluded, hnone]
  rfl

theorem concluded_of_mem (hnodup : (done.map Execution.shardId).Nodup) (he : e ∈ done)
    (hid : e.shardId = r.id) : r.concluded settings done = r.finish (e.assigned settings) := by
  cases hfind : done.find? fun e => e.shardId = r.id with
  | none =>
    have hno := List.find?_eq_none.mp hfind e he
    exact absurd (decide_eq_true hid) hno
  | some e' =>
    have hid' : e'.shardId = r.id := by simpa using List.find?_some hfind
    have hsame : e' = e :=
      List.inj_on_of_nodup_map hnodup (List.mem_of_find?_eq_some hfind) he (hid'.trans hid.symm)
    rw [ScanShard.concluded, hfind, hsame]
    rfl

theorem concluded_cases (settings : Settings) (done : List Execution) (r : ScanShard) :
    r.concluded settings done = r ∨
      ∃ e ∈ done, e.shardId = r.id ∧
        r.concluded settings done = r.finish (e.assigned settings) := by
  cases hfind : done.find? fun e => e.shardId = r.id with
  | none =>
    left
    rw [ScanShard.concluded, hfind]
    rfl
  | some e =>
    have hid : e.shardId = r.id := by simpa using List.find?_some hfind
    refine Or.inr ⟨e, List.mem_of_find?_eq_some hfind, hid, ?_⟩
    rw [ScanShard.concluded, hfind]
    rfl

theorem finish_frame (r : ScanShard) (o : Outcome) :
    (r.finish o).id = r.id ∧ (r.finish o).runId = r.runId := by
  cases o <;> exact ⟨rfl, rfl⟩

theorem concluded_frame (settings : Settings) (done : List Execution) (r : ScanShard) :
    (r.concluded settings done).id = r.id ∧ (r.concluded settings done).runId = r.runId := by
  rcases concluded_cases settings done r with heq | ⟨e, -, -, heq⟩
  · rw [heq]
    exact ⟨rfl, rfl⟩
  · rw [heq]
    exact finish_frame r _

/-- The order in which executions finished does not matter. -/
theorem concluded_perm (hnodup : (executions.map Execution.shardId).Nodup)
    (hperm : done.Perm executions) (r : ScanShard) :
    r.concluded settings done = r.concluded settings executions := by
  rcases concluded_cases settings executions r with heq | ⟨e, he, hid, heq⟩
  · rcases concluded_cases settings done r with heq' | ⟨e, he, hid, heq'⟩
    · rw [heq, heq']
    · rw [heq', concluded_of_mem hnodup (hperm.mem_iff.mp he) hid]
  · rw [heq, concluded_of_mem ((hperm.map _).nodup_iff.mpr hnodup) (hperm.mem_iff.mpr he) hid]

theorem concluded_snoc (h : ∀ x ∈ done, x.shardId ≠ e.shardId) (r : ScanShard) :
    r.concluded settings (done ++ [e]) =
      if r.id = e.shardId then r.finish (e.assigned settings) else r.concluded settings done := by
  by_cases hid : r.id = e.shardId
  · have hnone : done.find? (fun x => x.shardId = r.id) = none := by
      rw [List.find?_eq_none]
      exact fun x hx => by simpa [hid] using h x hx
    rw [if_pos hid, ScanShard.concluded, List.find?_append, hnone, Option.none_or,
      List.find?_singleton, decide_eq_true hid.symm]
    rfl
  · have hnone : [e].find? (fun x => x.shardId = r.id) = none := by
      rw [List.find?_singleton, decide_eq_false fun heq => hid heq.symm]
      rfl
    rw [if_neg hid, ScanShard.concluded, List.find?_append, hnone, Option.or_none]
    rfl

end

/-! ## Executions that have finished -/

/-- Where the executions `done` have finished, and `rest` have not. -/
structure Settling (settings : Settings) (db₀ : Db) (run : ScanRun)
    (executions done rest : List Execution) (db : Db) : Prop where
  split : (done ++ rest).Perm executions
  scopes : db.scopes = db₀.scopes
  shards : db.shards.rows = db₀.shards.rows.map (ScanShard.concluded settings done)
  hosts : db.hosts.rows = db₀.hosts.rows ++ done.flatMap Execution.hosts
  services : db.services.rows = db₀.services.rows ++ done.flatMap Execution.services
  discoveries : db.discoveries.rows = db₀.discoveries.rows ++ done.flatMap Execution.discoveries
  others : ∀ other ∈ db.activeRuns, other.id ≠ run.id → other ∈ db₀.activeRuns

/-- The run is as it was. -/
structure Unfinalized (db₀ : Db) (run : ScanRun) (db : Db) : Prop where
  row : db.runs.get run.id = some run
  inventory : db.inventory run.pair = db₀.inventory run.pair
  finalizations : db.finalizations run.id = db₀.finalizations run.id

/-- The run has been finalized once, at `t`, with what its executions settle. -/
structure Finalized (settings : Settings) (db₀ : Db) (run : ScanRun) (executions : List Execution)
    (t : DateTime) (db : Db) : Prop where
  row : db.runs.get run.id = some { run with
    status := settledStatus settings db₀ run executions, completedAt := some t }
  inventory : (db.inventory run.pair).Perm (settledInventory settings db₀ run executions t)
  finalizations : db.finalizations run.id = db₀.finalizations run.id + 1

section
variable {settings : Settings} {db₀ db db' : Db} {run : ScanRun}
  {executions done rest : List Execution} {e : Execution}

theorem settling_start (ha : Assigned settings db run executions) :
    Settling settings db run executions [] executions db ∧ Unfinalized db run db := by
  refine ⟨⟨.refl _, rfl, ?_, ?_, ?_, ?_, fun _ h _ => h⟩, ⟨ha.row, rfl, rfl⟩⟩
  · exact (List.map_id _).symm.trans
      (List.map_congr_left fun r _ => (concluded_of_notMem fun e he => by cases he).symm)
  · exact (List.append_nil _).symm
  · exact (List.append_nil _).symm
  · exact (List.append_nil _).symm

theorem Settling.single (ha : Assigned settings db₀ run executions)
    (hs : Settling settings db₀ run executions done rest db) :
    ((done ++ rest).map Execution.shardId).Nodup :=
  (hs.split.map _).nodup_iff.mpr ha.single

/-- The shard of an execution that has not finished is as it was. -/
theorem Settling.shard (ha : Assigned settings db₀ run executions)
    (hs : Settling settings db₀ run executions done rest db) (he : e ∈ rest) :
    e.Concluding settings db run := by
  have hc := ha.concluding e (hs.split.mem_iff.mp (List.mem_append_right _ he))
  obtain ⟨r, hr, hrun, hheld⟩ := hc.shard
  have hother : ∀ x ∈ done, x.shardId ≠ r.id := by
    intro x hx heq
    have hnodup := hs.single ha
    rw [List.map_append, List.nodup_append'] at hnodup
    refine hnodup.2.2 (List.mem_map_of_mem hx) ?_
    rw [heq, show r.id = e.shardId from Table.get_key hr]
    exact List.mem_map_of_mem he
  refine { hc with shard := ⟨r, Table.get_eq_some.mpr ⟨?_, Table.get_key hr⟩, hrun, hheld⟩ }
  rw [hs.shards]
  exact List.mem_map.mpr ⟨r, Table.get_mem hr, concluded_of_notMem hother⟩

theorem Execution.Concluding.owns (hc : e.Concluding settings db run) : e.owns db = true := by
  obtain ⟨r, hr, -, hheld⟩ := hc.shard
  obtain ⟨-, hrunning, htoken⟩ := ScanShard.held_iff.mp hheld
  exact Db.currentLease_iff.mpr ⟨r, hr, hrunning, htoken⟩

/-- The rows after the UPDATE of an execution that finishes. -/
theorem Settling.finishLease (ha : Assigned settings db₀ run executions)
    (hs : Settling settings db₀ run executions done (e :: rest) db) :
    (db.finishLease e.shardId e.leaseToken (e.assigned settings)).shards.rows =
      db₀.shards.rows.map (ScanShard.concluded settings (done ++ [e])) := by
  obtain ⟨q, hq, -, hheld⟩ := (hs.shard ha List.mem_cons_self).shard
  have hother : ∀ x ∈ done, x.shardId ≠ e.shardId := by
    intro x hx heq
    have hnodup := hs.single ha
    rw [List.map_append, List.nodup_append'] at hnodup
    refine hnodup.2.2 (List.mem_map_of_mem hx) ?_
    rw [heq]
    exact List.mem_map_of_mem List.mem_cons_self
  show (db.shards.rows.map _) = _
  rw [hs.shards, List.map_map]
  refine List.map_congr_left fun r hr => ?_
  rw [concluded_snoc hother, Function.comp_apply]
  by_cases hid : r.id = e.shardId
  · have hsame : r.concluded settings done = r :=
      concluded_of_notMem fun x hx => hid ▸ hother x hx
    have hqr : db.shards.get e.shardId = some r := by
      refine Table.get_eq_some.mpr ⟨?_, hid⟩
      rw [hs.shards]
      exact List.mem_map.mpr ⟨r, hr, hsame⟩
    rw [hq] at hqr
    cases hqr
    rw [if_pos hid, hsame, if_pos hheld]
  · have hnot : (r.concluded settings done).held e.shardId e.leaseToken .running = false := by
      refine Bool.eq_false_iff.mpr fun hheld => hid ?_
      rw [← (concluded_frame settings done r).1]
      exact (ScanShard.held_iff.mp hheld).1
    rw [if_neg hid, if_neg (Bool.eq_false_iff.mp hnot)]

/-! ## What the finalizer counts -/

theorem Settling.pending_pos (ha : Assigned settings db₀ run executions)
    (hs : Settling settings db₀ run executions done rest db) (he : e ∈ rest) :
    0 < (db.terminalCounts run.id).pending := by
  obtain ⟨r, hr, hrun, hheld⟩ := (hs.shard ha he).shard
  rw [← hrun]
  refine Db.pending_pos (Table.get_mem hr) ?_
  rw [(ScanShard.held_iff.mp hheld).2.1]
  rfl

/-- Once every execution has finished, they have in some order. -/
theorem Settling.perm (hs : Settling settings db₀ run executions done [] db) :
    done.Perm executions := by
  have hsplit := hs.split
  rw [List.append_nil] at hsplit
  exact hsplit

/-- The shards of the run once every execution has finished. -/
theorem Settling.settled (ha : Assigned settings db₀ run executions)
    (hs : Settling settings db₀ run executions done [] db) :
    db.shards.rows.filter (fun r => r.runId = run.id) =
      settledShards settings db₀ run executions := by
  have hrows : db.shards.rows = db₀.shards.rows.map (ScanShard.concluded settings executions) := by
    rw [hs.shards]
    exact List.map_congr_left fun r _ => concluded_perm ha.single hs.perm r
  rw [hrows, List.filter_map, settledShards]
  congr 1
  refine List.filter_congr fun r _ => ?_
  rw [Function.comp_apply, (concluded_frame settings executions r).2]

theorem Settling.pending_zero (ha : Assigned settings db₀ run executions)
    (hs : Settling settings db₀ run executions done [] db) :
    (db.terminalCounts run.id).pending = 0 := by
  refine Table.count_eq_zero.mpr fun r hr => Bool.eq_false_iff.mpr fun hpending => ?_
  rw [Bool.and_eq_true, decide_eq_true_eq, Bool.not_eq_true'] at hpending
  have hmem : r ∈ settledShards settings db₀ run executions := by
    rw [← hs.settled ha]
    exact List.mem_filter.mpr ⟨hr, decide_eq_true hpending.1⟩
  obtain ⟨q, hq, rfl⟩ := List.mem_map.mp hmem
  obtain ⟨hqmem, hqrun⟩ := List.mem_filter.mp hq
  rcases ha.covered q hqmem (of_decide_eq_true hqrun) with hterm | ⟨e, he, hid⟩
  · rcases concluded_cases settings executions q with heq | ⟨e, he, -, heq⟩
    · rw [heq, hterm] at hpending
      exact Bool.noConfusion hpending.2
    · have hterm' := (ha.concluding e he).terminal
      rw [heq] at hpending
      exact absurd (hterm'.symm.trans hpending.2) (by decide)
  · have hterm := (ha.concluding e he).terminal
    rw [concluded_of_mem ha.single he hid] at hpending
    exact absurd (hterm.symm.trans hpending.2) (by decide)

theorem Settling.failed_zero (ha : Assigned settings db₀ run executions)
    (hs : Settling settings db₀ run executions done [] db) :
    (db.terminalCounts run.id).failed = 0 ↔
      settledStatus settings db₀ run executions = .completed := by
  have hcount : (db.terminalCounts run.id).failed =
      (settledShards settings db₀ run executions).countP fun r =>
        r.status = .failed || r.status = .deadLetter := by
    rw [← hs.settled ha, List.countP_filter]
    exact List.countP_congr fun r _ => by rw [Bool.and_comm]
  rw [hcount, List.countP_eq_zero, settledStatus]
  cases hany : (settledShards settings db₀ run executions).any fun r =>
      r.status = .failed || r.status = .deadLetter with
  | true =>
    obtain ⟨r, hr, hfailed⟩ := List.any_eq_true.mp hany
    exact iff_of_false (fun hall => hall r hr hfailed) (by decide)
  | false => exact iff_of_true (fun r hr => List.any_eq_false.mp hany r hr) rfl

theorem Settling.incomplete_zero (ha : Assigned settings db₀ run executions)
    (hs : Settling settings db₀ run executions done [] db) :
    (db.terminalCounts run.id).incomplete = 0 ↔
      settledIncomplete settings db₀ run executions = false := by
  have hperm : db.discoveries.rows.Perm
      (db₀.discoveries.rows ++ executions.flatMap Execution.discoveries) := by
    rw [hs.discoveries]
    exact List.Perm.append_left _ (List.Perm.flatMap_right _ hs.perm)
  have hcount : (db.terminalCounts run.id).incomplete =
      (settledShards settings db₀ run executions).countP fun r => r.artifactKey.isNone &&
        (db₀.discoveries.rows ++ executions.flatMap Execution.discoveries).any fun o =>
          o.shardId = r.id := by
    rw [← hs.settled ha, List.countP_filter]
    refine List.countP_congr fun r _ => ?_
    rw [hperm.any_eq]
    rw [Bool.and_comm (r.artifactKey.isNone && _), Bool.and_assoc]
  rw [hcount, List.countP_eq_zero, settledIncomplete, List.any_eq_false]

/-! ## What the finalizer reads -/

theorem openServicesOf_perm {hosts hosts' : List HostObservation}
    {services services' : List ServiceObservation} (hh : hosts.Perm hosts')
    (hs : services.Perm services') (runId : Uuid) :
    (openServicesOf hosts services runId).Perm (openServicesOf hosts' services' runId) :=
  (List.Perm.flatMap_right _ hh).trans
    (List.Perm.flatMap_left _ fun _ _ => (hs.filter _).map _)

theorem Settling.observed (hs : Settling settings db₀ run executions done [] db) :
    (db.openServices run.id).Perm
      (openServicesOf (db₀.hosts.rows ++ executions.flatMap Execution.hosts)
        (db₀.services.rows ++ executions.flatMap Execution.services) run.id) := by
  rw [Db.openServices_eq, hs.hosts, hs.services]
  exact openServicesOf_perm (List.Perm.append_left _ (List.Perm.flatMap_right _ hs.perm))
    (List.Perm.append_left _ (List.Perm.flatMap_right _ hs.perm)) run.id

/-- A row is made from the run and from the rows it replaces. -/
theorem exposureRow_congr {copy : ScanRun} (hcopy : run.CopyOf copy)
    (hinventory : db.inventory run.pair = db₀.inventory run.pair) (scope : InventoryScope)
    (counts : TerminalCounts) (t now : DateTime) (x : Observation) :
    db.exposureRow scope (counts.finalized copy now) t x = db₀.exposureRow scope run t x := by
  have hget : ∀ k, db.exposures.get (run.pair, k) = db₀.exposures.get (run.pair, k) := by
    intro k
    ext1 e
    rw [Db.get_exposure, Db.get_exposure, hinventory]
  obtain ⟨hscope, hprofile⟩ := Prod.mk.inj hcopy.pair
  have hpair : (counts.finalized copy now).pair = run.pair := hcopy.pair
  have hid : (counts.finalized copy now).id = run.id := hcopy.id
  have hscopeId : (counts.finalized copy now).inventoryScopeId = run.inventoryScopeId := hscope
  have hprofileId : (counts.finalized copy now).profileId = run.profileId := hprofile
  obtain ⟨host, service⟩ := x
  simp only [Db.exposureRow, hpair, hid, hscopeId, hprofileId, hget]

/-- Shards and services of other runs are not touched. -/
theorem Settling.harmless (ha : Assigned settings db₀ run executions)
    (hs : Settling settings db₀ run executions done rest db) {other : ScanRun}
    (hother : other ∈ db₀.activeRuns) (hne : other.id ≠ run.id) : db.Harmless run other := by
  have hin : ∀ e ∈ done, e.Concluding settings db₀ run := fun e he =>
    ha.concluding e (hs.split.mem_iff.mp (List.mem_append_left _ he))
  rcases ha.others other hother hne with hpending | ⟨hpair, hkeys⟩
  · left
    have hsame : (db.terminalCounts other.id).pending = (db₀.terminalCounts other.id).pending := by
      show List.countP _ db.shards.rows = List.countP _ db₀.shards.rows
      rw [hs.shards, List.countP_map]
      refine List.countP_congr fun r hr => ?_
      rw [Function.comp_apply]
      rcases concluded_cases settings done r with heq | ⟨e, he, hid, -⟩
      · rw [heq]
      · -- the shard of an execution is the run's
        obtain ⟨q, hq, hrun, -⟩ := (hin e he).shard
        have hqr : q = r :=
          db₀.shards.eq_of_key (Table.get_mem hq) hr ((Table.get_key hq).trans hid)
        have hrrun : r.runId ≠ other.id := fun heq => hne (heq.symm.trans (hqr ▸ hrun))
        rw [(concluded_frame settings done r).2, decide_eq_false hrrun, Bool.false_and,
          Bool.false_and]
    rw [hsame]
    exact hpending
  · right
    refine ⟨hpair, ?_⟩
    have hsame : db.openServices other.id = db₀.openServices other.id := by
      rw [Db.openServices_eq, Db.openServices_eq, hs.hosts, hs.services, openServicesOf,
        List.flatMap_append]
      have hnew : (done.flatMap Execution.hosts).flatMap (fun host =>
          ((db₀.services.rows ++ done.flatMap Execution.services).filter fun service =>
            service.hostObservationId = host.id && host.runId = other.id && host.state = "up" &&
              service.state = "open").map fun service => (host, service)) = [] := by
        rw [List.flatMap_eq_nil_iff]
        intro host hhost
        obtain ⟨e, he, hmem⟩ := List.mem_flatMap.mp hhost
        have hrun : host.runId ≠ other.id :=
          fun heq => hne (heq.symm.trans ((hin e he).hosts host hmem))
        rw [List.map_eq_nil_iff, List.filter_eq_nil_iff]
        intro service _
        simp [hrun]
      rw [hnew, List.append_nil]
      refine List.flatMap_congr fun host hhost => ?_
      rw [List.filter_append]
      have hnone : (done.flatMap Execution.services).filter (fun service =>
          service.hostObservationId = host.id && host.runId = other.id && host.state = "up" &&
            service.state = "open") = [] := by
        rw [List.filter_eq_nil_iff]
        intro service hservice hyes
        obtain ⟨e, he, hmem⟩ := List.mem_flatMap.mp hservice
        obtain ⟨h, hh, hid⟩ := (hin e he).services service hmem
        have hnodup := ha.hosts
        rw [List.map_append, List.nodup_append'] at hnodup
        refine hnodup.2.2 (List.mem_map_of_mem hhost) (List.mem_map.mpr ⟨h, ?_, ?_⟩)
        · exact List.mem_flatMap.mpr ⟨e, hs.split.mem_iff.mp (List.mem_append_left _ he), hh⟩
        · rw [← hid]
          simpa using (Bool.and_eq_true_iff.mp (Bool.and_eq_true_iff.mp
            (Bool.and_eq_true_iff.mp hyes).1).1).1
      rw [hnone, List.append_nil]
    rw [hsame]
    exact hkeys

/-! ## One step -/

/-- The finalization that fires once every execution has finished. -/
theorem Settling.finalize (ha : Assigned settings db₀ run executions)
    (hs : Settling settings db₀ run executions done [] db) (hu : Unfinalized db₀ run db)
    {copy : ScanRun} (hcopy : run.CopyOf copy) (actor : String) (now : DateTime) :
    ∃ db' run', db.finalizeTerminalRun copy actor now = some (db', run') ∧
      Settling settings db₀ run executions done [] db' ∧
      Finalized settings db₀ run executions now db' := by
  have hfires : (db.terminalCounts run.id).fires copy = true :=
    TerminalCounts.fires_iff.mpr ⟨hcopy.active, hs.pending_zero ha⟩
  have hkeys : ((db.openServices copy.id).map Observation.key).Nodup := by
    rw [hcopy.id]
    exact (hs.observed.map _).nodup_iff.mpr ha.keys
  rw [Db.finalizeTerminalRun, hcopy.id]
  obtain ⟨⟨db', run'⟩, hfin⟩ := Option.isSome_iff_exists.mp
    (Db.finalizeWith_total hkeys (db.terminalCounts run.id) actor now)
  refine ⟨db', run', hfin, ?_⟩
  obtain ⟨hno, -, -⟩ | ⟨-, rfl, hframe⟩ := Db.finalizeWith_spec hfin
  · rw [hfires] at hno
    cases hno
  have hruns : db'.runs = (db.flushRun copy
      ((db.terminalCounts run.id).finalized copy now)).runs := by
    rw [hframe]
  have hrow : db'.runs.get run.id = some (ScanRun.writeBack copy
      ((db.terminalCounts run.id).finalized copy now) run) := by
    rw [hruns, Db.get_flushRun, hu.row, Option.map_some, if_pos hcopy.id.symm]
  constructor
  · refine ⟨hs.split, ?_, ?_, ?_, ?_, ?_, ?_⟩
    · rw [hframe]
      exact hs.scopes
    · rw [hframe]
      exact hs.shards
    · rw [hframe]
      exact hs.hosts
    · rw [hframe]
      exact hs.services
    · rw [hframe]
      exact hs.discoveries
    · intro other hother hne
      obtain ⟨hmem, hactive⟩ := Db.mem_activeRuns.mp hother
      have hget : db'.runs.get other.id = some other := Table.get_of_mem hmem
      rw [hruns, Db.get_flushRun] at hget
      obtain ⟨r, hr, heq⟩ := Option.map_eq_some_iff.mp hget
      rw [if_neg fun hid => hne (hid.trans hcopy.id)] at heq
      subst heq
      exact hs.others r (Db.mem_activeRuns.mpr ⟨Table.get_mem hr, hactive⟩) hne
  · constructor
    · rw [hrow]
      have hstatus := ScanRun.writeBack_finalized hfires now run
      have hsettled : (if (db.terminalCounts run.id).failed ≠ 0 then RunStatus.failed
          else .completed) = settledStatus settings db₀ run executions := by
        have hzero := hs.failed_zero ha
        by_cases hfailed : (db.terminalCounts run.id).failed = 0
        · rw [if_neg (not_not.mpr hfailed), hzero.mp hfailed]
        · rw [if_pos hfailed, settledStatus]
          by_cases hany : ((settledShards settings db₀ run executions).any fun r =>
              r.status = .failed || r.status = .deadLetter) = true
          · rw [if_pos hany]
          · refine absurd (hzero.mpr ?_) hfailed
            rw [settledStatus, if_neg hany]
      rw [hsettled] at hstatus
      have hstarted : Relational.writeBack copy.startedAt copy.startedAt run.startedAt =
          run.startedAt := writeBack_self _ _
      have hcompleted : Relational.writeBack copy.completedAt (some now) run.completedAt =
          some now := by
        rw [← hcopy.completedAt]
        exact writeBack_current _ _
      rw [← hstatus, ← hcompleted]
      exact congrArg some (congrArg (fun x => { run with
        status :=
          (ScanRun.writeBack copy ((db.terminalCounts run.id).finalized copy now) run).status
        startedAt := x
        completedAt := Relational.writeBack copy.completedAt (some now) run.completedAt }) hstarted)
    · have hinventory := Db.finalizeWith_inventory hfires hfin
      have hcounts : ((db.terminalCounts run.id).failed = 0 ∧
          (db.terminalCounts run.id).incomplete = 0) ↔
          (settledStatus settings db₀ run executions = .completed ∧
            settledIncomplete settings db₀ run executions = false) :=
        and_congr (hs.failed_zero ha) (hs.incomplete_zero ha)
      rw [hcopy.pair, hcopy.id, hu.inventory, (Prod.mk.inj hcopy.pair).1, hs.scopes] at hinventory
      rw [hinventory, settledInventory]
      simp only [hcounts]
      split
      · cases db₀.scopes.get run.inventoryScopeId with
        | none => exact .refl _
        | some scope =>
          have hrows : ∀ x, db.exposureRow scope
              ((db.terminalCounts run.id).finalized copy now) now x =
                db₀.exposureRow scope run now x :=
            exposureRow_congr hcopy hu.inventory scope _ now now
          simp only [Option.elim_some, funext hrows]
          exact hs.observed.map _
      · exact .refl _
    · rw [Db.finalizeWith_finalizations hfin, hfires, hcopy.id, decide_eq_true rfl,
        hu.finalizations]
      rfl

/-- What is known of an executions' rows: a part of distinct keys has distinct keys. -/
theorem nodup_prefix {α β : Type} {l : List α} {f : Execution → List α} {key : α → β}
    (hsplit : (done ++ e :: rest).Perm executions)
    (h : ((l ++ executions.flatMap f).map key).Nodup) :
    ((l ++ done.flatMap f ++ f e).map key).Nodup := by
  have hperm : (l ++ executions.flatMap f).Perm
      (l ++ done.flatMap f ++ f e ++ rest.flatMap f) := by
    have hflat := (hsplit.flatMap_right f).symm
    rw [List.flatMap_append, List.flatMap_cons] at hflat
    simpa only [List.append_assoc] using hflat.append_left l
  have hnodup := (hperm.map key).nodup_iff.mp h
  rw [List.map_append] at hnodup
  exact (List.nodup_append'.mp hnodup).1

/-- The rows of an execution that finishes can be inserted. -/
theorem Settling.flush (ha : Assigned settings db₀ run executions)
    (hs : Settling settings db₀ run executions done (e :: rest) db) :
    ∃ db₁, e.flush (db.finishLease e.shardId e.leaseToken (e.assigned settings)) = some db₁ ∧
      Settling settings db₀ run executions (done ++ [e]) rest db₁ ∧ db₁.runs = db.runs ∧
      db₁.exposures = db.exposures ∧ db₁.audits = db.audits ++ e.audits := by
  have hhosts : ((db.hosts.rows ++ e.hosts).map HostObservation.id).Nodup := by
    rw [hs.hosts]
    exact nodup_prefix hs.split ha.hosts
  have hservices : ((db.services.rows ++ e.services).map ServiceObservation.id).Nodup := by
    rw [hs.services]
    exact nodup_prefix hs.split ha.services
  have hdiscoveries : ((db.discoveries.rows ++ e.discoveries).map Keyed.key).Nodup := by
    rw [hs.discoveries]
    exact nodup_prefix hs.split ha.discoveries
  obtain ⟨hosts, hh⟩ := Option.isSome_iff_exists.mp (Table.append?_isSome.mpr hhosts)
  obtain ⟨services, hsv⟩ := Option.isSome_iff_exists.mp (Table.append?_isSome.mpr hservices)
  obtain ⟨discoveries, hd⟩ := Option.isSome_iff_exists.mp (Table.append?_isSome.mpr hdiscoveries)
  refine ⟨{ db.finishLease e.shardId e.leaseToken (e.assigned settings) with
    hosts := hosts, services := services, discoveries := discoveries,
    audits := db.audits ++ e.audits }, ?_, ?_, rfl, rfl, rfl⟩
  · rw [Execution.flush]
    show (db.hosts.append? e.hosts).bind _ = _
    rw [hh, Option.bind_some]
    show (db.services.append? e.services).bind _ = _
    rw [hsv, Option.bind_some]
    show (db.discoveries.append? e.discoveries).bind _ = _
    rw [hd]
    rfl
  · refine ⟨?_, hs.scopes, hs.finishLease ha, ?_, ?_, ?_, hs.others⟩
    · rw [List.append_assoc]
      exact hs.split
    · show hosts.rows = _
      rw [Table.rows_append? hh, hs.hosts, List.flatMap_append, List.flatMap_singleton,
        List.append_assoc]
    · show services.rows = _
      rw [Table.rows_append? hsv, hs.services, List.flatMap_append, List.flatMap_singleton,
        List.append_assoc]
    · show discoveries.rows = _
      rw [Table.rows_append? hd, hs.discoveries, List.flatMap_append, List.flatMap_singleton,
        List.append_assoc]

theorem countP_finalized {audits : List AuditEvent} (runId : Uuid)
    (h : ∀ event ∈ audits, event.action ≠ "run.finalized") :
    audits.countP (fun event => event.action = "run.finalized" && event.resourceId = runId) =
      0 := by
  rw [List.countP_eq_zero]
  intro event hevent hyes
  exact h event hevent (of_decide_eq_true (Bool.and_eq_true_iff.mp hyes).1)

/-- The transaction of an execution that finishes its shard. -/
theorem Settling.conclude (ha : Assigned settings db₀ run executions)
    (hs : Settling settings db₀ run executions done (e :: rest) db)
    (hu : Unfinalized db₀ run db) (t now : DateTime) :
    ∃ db', Settle.step settings db (.conclude e t now) = some db' ∧
      Settling settings db₀ run executions (done ++ [e]) rest db' ∧
      (Unfinalized db₀ run db' ∨
        (rest = [] ∧ Finalized settings db₀ run executions now db')) := by
  have hc := hs.shard ha List.mem_cons_self
  have howns := hc.owns
  obtain ⟨db₁, hflush, hs₁, hruns, hexposures, haudits⟩ := hs.flush ha
  have hu₁ : Unfinalized db₀ run db₁ := by
    refine ⟨?_, ?_, ?_⟩
    · rw [hruns]
      exact hu.row
    · rw [Db.inventory, hexposures]
      exact hu.inventory
    · rw [Db.finalizations, haudits, List.countP_append, countP_finalized run.id hc.audits]
      exact hu.finalizations
  rcases hc.outcome with ⟨hpc, habandon, hhosts, hservices, hdiscoveries⟩ |
    ⟨hpc, houtcome, copy, hrun, hcopy⟩
  · -- the profile or the run is gone: no finalizer, and nothing recorded
    refine ⟨db.finishLease e.shardId e.leaseToken (e.assigned settings), ?_, ?_, Or.inl ?_⟩
    · rw [Settle.step, Execution.conclusion, if_pos hpc]
      simp only [runAll, Execution.next, Execution.step, if_pos hpc, habandon, if_pos howns,
        Option.bind_some, Option.map_some]
    · refine ⟨hs₁.split, hs.scopes, hs.finishLease ha, ?_, ?_, ?_, hs.others⟩
      · rw [List.flatMap_append, List.flatMap_singleton, hhosts, List.append_nil]
        exact hs.hosts
      · rw [List.flatMap_append, List.flatMap_singleton, hservices, List.append_nil]
        exact hs.services
      · rw [List.flatMap_append, List.flatMap_singleton, hdiscoveries, List.append_nil]
        exact hs.discoveries
    · exact ⟨hu.row, hu.inventory, hu.finalizations⟩
  · have hfinish : e.step db settings (.finish t) =
        some (db, { e with pc := .finishing (e.assigned settings) none }) := by
      simp only [Execution.step, houtcome t, if_pos howns]
    have hcommit : ∀ db' run', db₁.finalizeTerminalRun copy "worker" now = some (db', run') →
        Settle.step settings db (.conclude e t now) = some db' := by
      intro db' run' hfin
      have hlast := Execution.step_commitFinish_of settings
        (e := { e with pc := .finishing (e.assigned settings) none }) rfl hrun howns hflush hfin
      rw [Settle.step, Execution.conclusion, if_neg hpc]
      simp only [runAll, Execution.next, hfinish, Option.bind_some, hlast, Option.map_some]
    cases rest with
    | nil =>
      obtain ⟨db', run', hfin, hs', hf'⟩ := hs₁.finalize ha hu₁ hcopy "worker" now
      exact ⟨db', hcommit db' run' hfin, hs', Or.inr ⟨rfl, hf'⟩⟩
    | cons x rest =>
      have hidle : (db₁.terminalCounts copy.id).fires copy = false := by
        have hpos := hs₁.pending_pos ha List.mem_cons_self
        rw [hcopy.id]
        refine Bool.eq_false_iff.mpr fun hfires => ?_
        rw [(TerminalCounts.fires_iff.mp hfires).2] at hpos
        exact Nat.lt_irrefl 0 hpos
      exact ⟨db₁, hcommit db₁ copy (Db.finalizeWith_idle hidle "worker" now), hs₁, Or.inl hu₁⟩

theorem Settling.beside (hs : Settling settings db₀ run executions done rest db)
    (hb : Db.Beside run db db') : Settling settings db₀ run executions done rest db' := by
  refine ⟨hs.split, ?_, ?_, ?_, ?_, ?_, ?_⟩
  · rw [hb.frame]
    exact hs.scopes
  · rw [hb.frame]
    exact hs.shards
  · rw [hb.frame]
    exact hs.hosts
  · rw [hb.frame]
    exact hs.services
  · rw [hb.frame]
    exact hs.discoveries
  · exact fun other hother hne => hs.others other (hb.active other hother hne) hne

theorem Unfinalized.beside (hu : Unfinalized db₀ run db) (hb : Db.Beside run db db') :
    Unfinalized db₀ run db' :=
  ⟨hb.row.trans hu.row, hb.inventory.trans hu.inventory, hb.finalizations.trans hu.finalizations⟩

theorem Finalized.beside {t : DateTime} (hf : Finalized settings db₀ run executions t db)
    (hb : Db.Beside run db db') : Finalized settings db₀ run executions t db' where
  row := hb.row.trans hf.row
  inventory := by
    rw [hb.inventory]
    exact hf.inventory
  finalizations := hb.finalizations.trans hf.finalizations

theorem settledStatus_terminal (settings : Settings) (db : Db) (run : ScanRun)
    (executions : List Execution) : (settledStatus settings db run executions).terminal = true := by
  rw [settledStatus]
  split
  · rfl
  · rfl

/-- A pass once every execution has finished leaves the run finalized. -/
theorem Settling.reconcile_last (ha : Assigned settings db₀ run executions)
    (hs : Settling settings db₀ run executions done [] db)
    (hphase : Unfinalized db₀ run db ∨ ∃ t, Finalized settings db₀ run executions t db)
    (now : Uuid → DateTime) :
    ∃ db', db.reconcileTerminalRuns now = some db' ∧
      Settling settings db₀ run executions done [] db' ∧
      ∃ t, Finalized settings db₀ run executions t db' := by
  have hothers : ∀ other ∈ db.activeRuns, other.id ≠ run.id → db.Harmless run other :=
    fun other hother hne => hs.harmless ha (hs.others other hother hne) hne
  rcases hphase with hu | ⟨t, hf⟩
  · have hactive : run ∈ db.activeRuns := Db.mem_activeRuns.mpr ⟨Table.get_mem hu.row, ha.active⟩
    obtain ⟨db₁, hbeside, hpass⟩ := Db.reconcile_active now hothers hactive
    obtain ⟨db₂, run', hfin, hs₂, hf₂⟩ := (hs.beside hbeside).finalize ha (hu.beside hbeside)
      ⟨rfl, rfl, rfl, ha.active⟩ "scheduler" (now run.id)
    obtain ⟨db', hreconcile, hbeside'⟩ := hpass db₂ run' hfin fun other hother hne =>
      hs₂.harmless ha (hs.others other hother hne) hne
    exact ⟨db', hreconcile, hs₂.beside hbeside', _, hf₂.beside hbeside'⟩
  · have hinactive : ∀ r ∈ db.activeRuns, r.id ≠ run.id := by
      intro r hr hid
      obtain ⟨hmem, hterm⟩ := Db.mem_activeRuns.mp hr
      have hget : db.runs.get run.id = some r := Table.get_eq_some.mpr ⟨hmem, hid⟩
      rw [hf.row] at hget
      cases hget
      exact absurd ((settledStatus_terminal settings db₀ run executions).symm.trans hterm)
        (by decide)
    obtain ⟨db', hreconcile, hbeside⟩ := Db.reconcile_inactive now hothers hinactive
    exact ⟨db', hreconcile, hs.beside hbeside, t, hf.beside hbeside⟩

/-- A pass before that leaves the run as it was. -/
theorem Settling.reconcile_early (ha : Assigned settings db₀ run executions)
    (hs : Settling settings db₀ run executions done (e :: rest) db)
    (hu : Unfinalized db₀ run db) (now : Uuid → DateTime) :
    ∃ db', db.reconcileTerminalRuns now = some db' ∧
      Settling settings db₀ run executions done (e :: rest) db' ∧ Unfinalized db₀ run db' := by
  have hothers : ∀ other ∈ db.activeRuns, other.id ≠ run.id → db.Harmless run other :=
    fun other hother hne => hs.harmless ha (hs.others other hother hne) hne
  have hactive : run ∈ db.activeRuns := Db.mem_activeRuns.mpr ⟨Table.get_mem hu.row, ha.active⟩
  obtain ⟨db₁, hbeside, hpass⟩ := Db.reconcile_active now hothers hactive
  have hs₁ := hs.beside hbeside
  have hidle : (db₁.terminalCounts run.id).fires run = false := by
    have hpos := hs₁.pending_pos ha List.mem_cons_self
    refine Bool.eq_false_iff.mpr fun hfires => ?_
    rw [(TerminalCounts.fires_iff.mp hfires).2] at hpos
    exact Nat.lt_irrefl 0 hpos
  obtain ⟨db', hreconcile, hbeside'⟩ := hpass db₁ run
    (Db.finalizeWith_idle hidle "scheduler" (now run.id)) fun other hother hne =>
      hs₁.harmless ha (hs.others other hother hne) hne
  exact ⟨db', hreconcile, hs₁.beside hbeside', (hu.beside hbeside).beside hbeside'⟩

/-! ## Orders -/

/-- The steps of an order, one after the other. -/
theorem settle_run (ha : Assigned settings db₀ run executions) (order : List Settle)
    (hs : Settling settings db₀ run executions done (order.filterMap Settle.execution) db)
    (hphase : Unfinalized db₀ run db ∨ (order.filterMap Settle.execution = [] ∧
      ∃ t, Finalized settings db₀ run executions t db)) :
    ∃ done' db', runAll (Settle.step settings) db order = some db' ∧
      Settling settings db₀ run executions done' [] db' ∧
      (Unfinalized db₀ run db' ∨ ∃ t, Finalized settings db₀ run executions t db') := by
  induction order generalizing done db with
  | nil => exact ⟨done, db, rfl, hs, hphase.imp_right And.right⟩
  | cons a order ih =>
    cases a with
    | conclude e t now =>
      have hu := hphase.resolve_right fun h => List.cons_ne_nil _ _ h.1
      obtain ⟨db₁, hstep, hs₁, hphase₁⟩ := hs.conclude ha hu t now
      obtain ⟨done', db', hrun, hfinal⟩ := ih hs₁
        (hphase₁.imp_right fun h => ⟨h.1, now, h.2⟩)
      refine ⟨done', db', ?_, hfinal⟩
      rw [runAll, hstep, Option.bind_some]
      exact hrun
    | reconcile now =>
      have hpass : ∃ db₁, db.reconcileTerminalRuns now = some db₁ ∧
          Settling settings db₀ run executions done (order.filterMap Settle.execution) db₁ ∧
          (Unfinalized db₀ run db₁ ∨ (order.filterMap Settle.execution = [] ∧
            ∃ t, Finalized settings db₀ run executions t db₁)) := by
        have hs' : Settling settings db₀ run executions done
          (order.filterMap Settle.execution) db := hs
        cases hrest : order.filterMap Settle.execution with
        | nil =>
          rw [hrest] at hs'
          obtain ⟨db₁, hreconcile, hs₁, hf⟩ := hs'.reconcile_last ha
            (hphase.imp_right And.right) now
          exact ⟨db₁, hreconcile, hs₁, Or.inr ⟨rfl, hf⟩⟩
        | cons e rest =>
          rw [hrest] at hs'
          have hu := hphase.resolve_right fun h => by
            have hnil : order.filterMap Settle.execution = [] := h.1
            rw [hrest] at hnil
            cases hnil
          obtain ⟨db₁, hreconcile, hs₁, hu₁⟩ := hs'.reconcile_early ha hu now
          exact ⟨db₁, hreconcile, hs₁, Or.inl hu₁⟩
      obtain ⟨db₁, hreconcile, hs₁, hphase₁⟩ := hpass
      obtain ⟨done', db', hrun, hfinal⟩ := ih hs₁ hphase₁
      refine ⟨done', db', ?_, hfinal⟩
      rw [runAll, Settle.step, hreconcile, Option.bind_some]
      exact hrun

end

/-- Every order in which the executions finish, with passes anywhere and one at the
end, goes through and finalizes the run once, with the status and the read model
that the executions settle. -/
theorem settled_in_any_order (settings : Settings) (db : Db) (run : ScanRun)
    (executions : List Execution) (ha : Assigned settings db run executions)
    (order : List Settle) (horder : (order.filterMap Settle.execution).Perm executions)
    (last : Uuid → DateTime) :
    ∃ db' t, runAll (Settle.step settings) db (order ++ [.reconcile last]) = some db' ∧
      Finalized settings db run executions t db' := by
  obtain ⟨hstart, hu⟩ := settling_start ha
  have hs : Settling settings db run executions [] (order.filterMap Settle.execution) db :=
    { hstart with split := horder }
  obtain ⟨done, db₁, hrun, hs₁, hphase⟩ := settle_run ha order hs (Or.inl hu)
  obtain ⟨db', hreconcile, -, t, hf⟩ := hs₁.reconcile_last ha hphase last
  refine ⟨db', t, ?_, hf⟩
  rw [runAll_append hrun, runAll, Settle.step, hreconcile]
  rfl

/-! ## Two shards, one with an open service -/

namespace Demo

def settlingRun : ScanRun :=
  { id := "run", inventoryScopeId := "scope", profileId := "profile", status := .running,
    requestedBy := "operator" }

def settlingShard (id token : Uuid) : ScanShard :=
  { id, runId := "run", cidr := "10.0.0.0/24", zone := "default", status := .running,
    attempts := 3, leaseToken := some token }

def settling : Db where
  scopes := scopes
  profiles := profiles
  runs := ⟨[settlingRun], by decide⟩
  shards := ⟨[settlingShard "s1" "t1", settlingShard "s2" "t2"], by decide⟩

def confirmed : Execution :=
  { shardId := "s1", leaseToken := "t1", pc := .confirmed, run := some settlingRun,
    hosts := [{ id := "h1", runId := "run", shardId := "s1", address := "10.0.0.1",
                state := "up" }]
    services := [{ id := "v1", hostObservationId := "h1", protocol := "tcp", port := 443,
                   state := "open" }]
    artifactKey := some "a" }

def confirmedEmpty : Execution :=
  { shardId := "s2", leaseToken := "t2", pc := .confirmed, run := some settlingRun,
    artifactKey := some "b" }

theorem assigned : Assigned {} settling settlingRun [confirmed, confirmedEmpty] where
  row := by decide
  active := rfl
  covered := by decide
  single := by decide
  concluding := by
    intro e he
    rcases List.mem_pair.mp he with rfl | rfl
    · exact ⟨⟨settlingShard "s1" "t1", by decide⟩, by decide,
        Or.inr ⟨by decide, fun _ => rfl, settlingRun, rfl, rfl, rfl, rfl, rfl⟩,
        by decide, by decide, by decide⟩
    · exact ⟨⟨settlingShard "s2" "t2", by decide⟩, by decide,
        Or.inr ⟨by decide, fun _ => rfl, settlingRun, rfl, rfl, rfl, rfl, rfl⟩,
        by decide, by decide, by decide⟩
  hosts := by decide
  services := by decide
  discoveries := by decide
  keys := by decide
  others := by
    have honly : ∀ other ∈ settling.activeRuns, other.id = settlingRun.id := by decide
    exact fun other hother hne => absurd (honly other hother) hne

end Demo

example : settledStatus {} Demo.settling Demo.settlingRun
    [Demo.confirmed, Demo.confirmedEmpty] = .completed := by decide

/-- The second shard first, with a pass before, between and after the two. -/
theorem settled_in_any_order_two :
    ∃ db t, runAll (Settle.step {}) Demo.settling
        ([.reconcile fun _ => 0, .conclude Demo.confirmedEmpty 1 1, .reconcile fun _ => 2,
          .conclude Demo.confirmed 3 3] ++ [.reconcile fun _ => 4]) = some db ∧
      Finalized {} Demo.settling Demo.settlingRun [Demo.confirmed, Demo.confirmedEmpty] t db := by
  refine settled_in_any_order {} Demo.settling Demo.settlingRun
    [Demo.confirmed, Demo.confirmedEmpty] Demo.assigned _ ?_ fun _ => 4
  exact List.Perm.swap _ _ _

end TransportLookout
