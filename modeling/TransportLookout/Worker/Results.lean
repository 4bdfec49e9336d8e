/-
The observations an execution records.

An execution deletes what earlier attempts at its shard recorded, in the commit
that starts its scan, and inserts its own rows later.  `Recording` says what a
step does to the rows it holds back until a commit, and to the lists of rows its
DELETE statements matched.
-/
import TransportLookout.Worker

namespace TransportLookout

open Relational

/-- The scan has started and is not over. -/
def Pc.started : Pc → Bool
  | .polling _ | .refreshed _ | .owned _ | .beating _ _ | .exited _ | .recording _ | .discovered
  | .results | .confirmed | .failing _ | .finishing _ _ => true
  | _ => false

/-- Where the next commit inserts what is pending. -/
def Pc.flushing : Pc → Bool
  | .beating _ _ | .finishing _ _ => true
  | _ => false

/-- Where the DELETE statements have listed the rows of the shard. -/
def Pc.cleans : Pc → Bool
  | .hostsCleared | .cleared => true
  | _ => false

/-- Where hosts and services may be pending. -/
def Pc.collecting : Pc → Bool
  | .recording .nmap | .results | .confirmed | .failing _ | .finishing _ _ => true
  | _ => false

namespace Execution

/-- The shard's row carries the token of the execution.  Once it does not, the
execution is superseded. -/
def holds (e : Execution) (db : Db) : Bool :=
  db.shards.rows.any fun s => s.id = e.shardId && s.leaseToken = some e.leaseToken

/-- The row bears the shard and the token of the execution. -/
def Signs (e : Execution) (shardId : Uuid) (leaseToken : Option Uuid) : Prop :=
  shardId = e.shardId ∧ leaseToken = some e.leaseToken

structure Recording (db : Db) (e : Execution) (a : WorkerAction) (e' : Execution) : Prop where
  hosts : ∀ h ∈ e'.hosts, h ∈ e.hosts ∨ e.Signs h.shardId h.leaseToken := by
    intro h hmem
    first | exact Or.inl hmem | cases hmem
  discoveries : ∀ o ∈ e'.discoveries, o ∈ e.discoveries ∨ e.Signs o.shardId o.leaseToken := by
    intro o hmem
    first | exact Or.inl hmem | cases hmem
  collecting : e'.pc.collecting = false →
    (e'.hosts = [] ∧ e'.services = []) ∨
      (e.pc.collecting = false ∧ e'.hosts = e.hosts ∧ e'.services = e.services) := by
    intro h
    first | exact Or.inl ⟨rfl, rfl⟩ | cases h
  hostsCleared : e'.pc = .hostsCleared →
    e'.doomedHosts = (db.hosts.select fun h => h.shardId = e.shardId).map HostObservation.id := by
    intro h
    cases h
  cleared : e'.pc = .cleared → e.pc = .hostsCleared ∧ e'.doomedHosts = e.doomedHosts ∧
    e'.doomedDiscoveries =
      (db.discoveries.select fun o => o.shardId = e.shardId).map Keyed.key := by
    intro h
    cases h
  started : e'.pc.started = true → e.pc.started = true ∨ ∃ now, a = .start now := by
    intro h
    cases h

variable {db db' : Db} {e e' : Execution} {settings : Settings} {a : WorkerAction}

theorem not_hostsCleared {pc : Pc} {P : Prop} (h : pc.cleans = false) (hpc : pc = .hostsCleared) :
    P := by
  rw [hpc] at h
  cases h

theorem not_cleared {pc : Pc} {P : Prop} (h : pc.cleans = false) (hpc : pc = .cleared) : P := by
  rw [hpc] at h
  cases h

theorem Recording.stopped : Recording db e a e.stop := {}

/-- A step that moves on and leaves the pending rows alone. -/
theorem Recording.moved {pc : Pc} (hpc : e.pc = pc) (hhosts : e'.hosts = e.hosts)
    (hservices : e'.services = e.services) (hdiscoveries : e'.discoveries = e.discoveries)
    (hcollecting : pc.collecting = false ∨ e'.pc.collecting = true)
    (hcleans : e'.pc.cleans = false) (hstarted : pc.started = true ∨ e'.pc.started = false) :
    Recording db e a e' := by
  subst hpc
  refine ⟨fun h hh => Or.inl (hhosts ▸ hh), fun o ho => Or.inl (hdiscoveries ▸ ho), ?_,
    not_hostsCleared hcleans, not_cleared hcleans, ?_⟩
  · intro hno
    rcases hcollecting with hpc | hyes
    · exact Or.inr ⟨hpc, hhosts, hservices⟩
    · rw [hyes] at hno
      cases hno
  · intro hyes
    rcases hstarted with hpc | hno
    · exact Or.inl hpc
    · rw [hno] at hyes
      cases hyes

theorem outcome_started {o : Outcome} {now : DateTime} (h : e.outcome settings now = some o) :
    e.pc.started = true := by
  rw [Execution.outcome] at h
  split at h
  · next hpc => rw [hpc]; rfl
  · next hpc => rw [hpc]; rfl
  · next hpc => rw [hpc]; rfl
  · cases h

theorem started_of_inTry {pc : Pc} (h : pc.inTry = true) : pc.started = true := by
  cases pc <;> first | rfl | cases h

/-- The commit after a heartbeat leads to no program point at which rows are doomed. -/
theorem cleans_of_beat {pc : Pc} {stage : Stage} {P Q : Prop}
    (h : pc = .exited stage ∧ P ∨ pc = .polling stage ∧ Q) : pc.cleans = false := by
  rcases h with ⟨rfl, -⟩ | ⟨rfl, -⟩
  · rfl
  · rfl

theorem Recording.beat {stage : Stage} {beat : Option DateTime} {P Q : Prop}
    (hbeating : e.pc = .beating stage beat)
    (he : e' = { e.flushed with pc := e'.pc, cancelled := e'.cancelled })
    (hpc : e'.pc = .exited stage ∧ P ∨ e'.pc = .polling stage ∧ Q) : Recording db e a e' := by
  have hcleans : e'.pc.cleans = false := cleans_of_beat hpc
  refine ⟨?_, ?_, fun _ => Or.inl ⟨by rw [he]; rfl, by rw [he]; rfl⟩, not_hostsCleared hcleans,
    not_cleared hcleans, fun _ => Or.inl (by rw [hbeating]; rfl)⟩
  · intro x hx
    rw [he] at hx
    cases hx
  · intro x hx
    rw [he] at hx
    cases hx

theorem step_recording (h : e.step db settings a = some (db', e')) : Recording db e a e' := by
  rcases step_cases h with ⟨-, hmove⟩ | hc
  · cases hmove with
    | missing | lost => exact .stopped
    | loadShard hpc _ => exact .moved hpc rfl rfl rfl (Or.inl rfl) rfl (Or.inr rfl)
    | loadRun hpc _ => exact .moved hpc rfl rfl rfl (Or.inl rfl) rfl (Or.inr rfl)
    | clearServices hpc _ _ _ => exact .moved hpc rfl rfl rfl (Or.inl rfl) rfl (Or.inr rfl)
    | clearHosts hpc hdoomed =>
      exact {
        collecting := fun _ => Or.inr ⟨by rw [hpc]; rfl, rfl, rfl⟩
        hostsCleared := fun _ => hdoomed }
    | clearDiscoveries hpc hdoomed =>
      exact {
        collecting := fun _ => Or.inr ⟨by rw [hpc]; rfl, rfl, rfl⟩
        cleared := fun _ => ⟨hpc, rfl, hdoomed⟩ }
    | refresh hpc _ _ => exact .moved hpc rfl rfl rfl (Or.inl rfl) rfl (Or.inl rfl)
    | checkLease hpc _ => exact .moved hpc rfl rfl rfl (Or.inl rfl) rfl (Or.inl rfl)
    | heartbeat hpc => exact .moved hpc rfl rfl rfl (Or.inl rfl) rfl (Or.inl rfl)
    | exit hpc => exact .moved hpc rfl rfl rfl (Or.inl rfl) rfl (Or.inl rfl)
    | recheck hpc _ _ => exact .moved hpc rfl rfl rfl (Or.inl rfl) rfl (Or.inl rfl)
    | addDiscoveries hpc _ hrows =>
      refine {
        discoveries := fun o ho => ?_
        collecting := fun _ => Or.inr ⟨by rw [hpc]; rfl, rfl, rfl⟩
        started := fun _ => Or.inl (by rw [hpc]; rfl) }
      rcases List.mem_append.mp ho with hold | hnew
      · exact Or.inl hold
      · rw [hrows] at hnew
        obtain ⟨_, -, rfl⟩ := List.mem_map.mp hnew
        exact Or.inr ⟨rfl, rfl⟩
    | storeDiscovery hpc _ hnext _ _ =>
      split at hnext
      · subst hnext
        exact .moved hpc rfl rfl rfl (Or.inl rfl) rfl (Or.inl rfl)
      · subst hnext
        exact .moved hpc rfl rfl rfl (Or.inl rfl) rfl (Or.inl rfl)
    | addHost hpc _ =>
      refine ⟨?_, fun _ ho => Or.inl ho, ?_, ?_, ?_, fun hs => Or.inl hs⟩
      · intro x hx
        rcases List.mem_append.mp hx with hold | hnew
        · exact Or.inl hold
        · cases List.mem_singleton.mp hnew
          exact Or.inr ⟨rfl, rfl⟩
      · intro hno
        rw [show e.pc.collecting = true from by rw [hpc]; rfl] at hno
        cases hno
      · intro h
        rw [hpc] at h
        cases h
      · intro h
        rw [hpc] at h
        cases h
    | storeConfirmation hpc _ _ => exact .moved hpc rfl rfl rfl (Or.inr rfl) rfl (Or.inl rfl)
    | confirm hpc _ => exact .moved hpc rfl rfl rfl (Or.inr rfl) rfl (Or.inl rfl)
    | fail htry => exact .moved rfl rfl rfl rfl (Or.inr rfl) rfl (Or.inl (started_of_inTry htry))
    | finish ho _ => exact .moved rfl rfl rfl rfl (Or.inr rfl) rfl (Or.inl (outcome_started ho))
    | countShards hpc _ _ => exact { started := fun _ => Or.inl (by rw [hpc]; rfl) }
  · cases hc with
    | abandon hpc =>
      exact { collecting := fun _ => Or.inr ⟨by rw [hpc]; rfl, rfl, rfl⟩ }
    | start hpc hrun =>
      exact {
        collecting := fun _ => Or.inr ⟨by rw [hpc]; rfl, rfl, rfl⟩
        started := fun _ => Or.inr ⟨_, rfl⟩ }
    | beat hbeating _ _ _ he hpc => exact .beat hbeating he hpc
    | beatLost hbeating _ _ he hpc => exact .beat hbeating he hpc
    | finish => exact {}

/-- Nothing follows the last commit. -/
theorem step_finished {status : ShardStatus} (hpc : e.pc = .finished status) :
    e.step db settings a = none := by
  cases a <;> simp [step, outcome, hpc, Pc.inTry]

theorem holds_iff : e.holds db = true ↔
    ∃ r, db.shards.get e.shardId = some r ∧ r.leaseToken = some e.leaseToken := by
  rw [holds, List.any_eq_true]
  constructor
  · rintro ⟨r, hr, hp⟩
    rw [Bool.and_eq_true, decide_eq_true_eq, decide_eq_true_eq] at hp
    exact ⟨r, Table.get_eq_some.mpr ⟨hr, hp.1⟩, hp.2⟩
  · rintro ⟨r, hr, htoken⟩
    refine ⟨r, Table.get_mem hr, ?_⟩
    rw [Bool.and_eq_true, decide_eq_true_eq, decide_eq_true_eq]
    exact ⟨Table.get_key hr, htoken⟩

/-! ## The three tables after a commit -/

/-- What a commit does to the observations: nothing, the deletes of a start, or
the insert of what is pending. -/
theorem Commit.results (h : e.Commit db a db' e') :
    (db'.hosts = db.hosts ∧ db'.services = db.services ∧ db'.discoveries = db.discoveries) ∨
    (∃ now, a = .start now ∧ e.pc = .cleared ∧ e'.pc = .polling e.firstStage ∧
      db'.hosts = db.hosts.delete (fun h => h.id ∈ e.doomedHosts) ∧
      db'.services = db.services.delete (fun s => s.id ∈ e.doomedServices) ∧
      db'.discoveries = db.discoveries.delete fun o => Keyed.key o ∈ e.doomedDiscoveries) ∨
    (e.pc.flushing = true ∧ e'.pc.cleans = false ∧
      db.hosts.append? e.hosts = some db'.hosts ∧
      db.services.append? e.services = some db'.services ∧
      db.discoveries.append? e.discoveries = some db'.discoveries) := by
  cases h with
  | abandon => exact Or.inl ⟨rfl, rfl, rfl⟩
  | @start run now hpc hrun => exact Or.inr (Or.inl ⟨now, rfl, hpc, rfl, rfl, rfl, rfl⟩)
  | beat hpc hrun howns hflush he hpc' =>
    obtain ⟨_, _, _, hhosts, hservices, hdiscoveries, rfl⟩ := flush_frame hflush
    exact Or.inr (Or.inr ⟨by rw [hpc]; rfl, cleans_of_beat hpc', hhosts, hservices,
      hdiscoveries⟩)
  | beatLost hpc hrun hflush he hpc' =>
    obtain ⟨_, _, _, hhosts, hservices, hdiscoveries, rfl⟩ := flush_frame hflush
    exact Or.inr (Or.inr ⟨by rw [hpc]; rfl, cleans_of_beat hpc', hhosts, hservices,
      hdiscoveries⟩)
  | finish hpc hrun howns hflush hfin =>
    obtain ⟨_, _, _, hhosts, hservices, hdiscoveries, rfl⟩ := flush_frame hflush
    refine Or.inr (Or.inr ⟨by rw [hpc]; rfl, rfl, ?_⟩)
    rcases Db.finalizeWith_spec hfin with ⟨-, rfl, -⟩ | ⟨-, -, hdb⟩
    · exact ⟨hhosts, hservices, hdiscoveries⟩
    · rw [hdb]
      exact ⟨hhosts, hservices, hdiscoveries⟩

end Execution

end TransportLookout
