/-
Which observations a completed shard has.

A lease whose token has left the shard's row is superseded.  Two commits of an
execution do not ask whether its lease is: the one that starts the scan, and the
commit after a heartbeat whose UPDATE matched no row.  `State.fencesResults` is
the condition that such commits come to nothing.  Under it every observation a
step adds is signed by the execution that holds the shard, and the deletes of a
start leave the shard with none, so the rows of a shard in progress, and of a
completed one, all bear one token.
-/
import TransportLookout.Worker.Results
import TransportLookout.System.RunRows
import TransportLookout.Safety.Outbox
import TransportLookout.Safety.Fencing

namespace TransportLookout

open Relational Trace

/-- What a superseded execution may still commit: a start whose DELETE statements
matched nothing that is left and whose run is running already, and a heartbeat
with nothing discovered. -/
def Execution.harmless (db : Db) (e : Execution) : WorkerAction → Bool
  | .start _ =>
    (∀ h ∈ db.hosts.rows, h.id ∉ e.doomedHosts) ∧
      (∀ s ∈ db.services.rows, s.id ∉ e.doomedServices) ∧
      (∀ o ∈ db.discoveries.rows, Keyed.key o ∉ e.doomedDiscoveries) ∧
      ∀ run ∈ e.run, run.status = .running ∨
        ∀ r ∈ db.runs.get run.id, r.status = .running
  | .commitHeartbeat => e.discoveries = []
  | _ => true

def State.fencesResults (s : State) : Action → Bool
  | .worker i b => (s.executions[i]?).all fun e => e.holds s.db || e.harmless s.db b
  | _ => true

/-- No observation is inserted or deleted and no run changes its status. -/
structure ResultsKept (db db' : Db) : Prop where
  hosts : db'.hosts = db.hosts
  services : db'.services = db.services
  discoveries : db'.discoveries = db.discoveries
  status : ∀ id, (db'.runs.get id).map ScanRun.status = (db.runs.get id).map ScanRun.status

/-- The step is not a superseded execution's, or it leaves the results alone. -/
def SupersededSilent (x : Transition State Action) : Prop :=
  ∀ i b e, x.act = .worker i b → x.pre.executions[i]? = some e → e.holds x.pre.db = false →
    ResultsKept x.pre.db x.post.db

/-- Every observation of the shard bears the token, a service its host's. -/
structure Db.Bears (db : Db) (shardId token : Uuid) : Prop where
  hosts : ∀ h ∈ db.hosts.rows, h.shardId = shardId → h.leaseToken = some token
  discoveries : ∀ o ∈ db.discoveries.rows, o.shardId = shardId → o.leaseToken = some token

/-- A completed shard has been completed by an execution whose token it and its
observations carry. -/
def State.CompletedBySigner (s : State) : Prop :=
  ∀ k r, s.db.shards.get k = some r → r.status = .completed →
    ∃ e ∈ s.executions, e.shardId = k ∧ r.leaseToken = some e.leaseToken ∧
      e.pc = .finished .completed ∧ s.db.Bears k e.leaseToken

/-! ## Steps -/

section
variable {settings : Settings} {s s' : State} {a : Action}

/-- Only executions write observations. -/
theorem results_frame (h : s.step settings a = some s') (ha : ∀ i b, a ≠ .worker i b) :
    s'.db.hosts = s.db.hosts ∧ s'.db.services = s.db.services ∧
      s'.db.discoveries = s.db.discoveries := by
  cases a with
  | createRun =>
    obtain ⟨_, _, _, -, -, hdb, rfl⟩ := step_createRun h
    obtain ⟨-, -, -, -, hframe⟩ := Db.createRun_ok hdb
    rw [hframe]
    exact ⟨rfl, rfl, rfl⟩
  | commitCancel =>
    obtain ⟨_, _, -, -, rfl⟩ := step_commitCancel h
    exact ⟨rfl, rfl, rfl⟩
  | finalizeNext =>
    obtain ⟨_, _, _, _, -, hfin, rfl⟩ := step_finalizeNext h
    rw [(Db.finalizeWith_frame hfin).1]
    exact ⟨rfl, rfl, rfl⟩
  | worker i b => exact absurd rfl (ha i b)
  | _ =>
    rw [queue_frame h rfl]
    exact ⟨rfl, rfl, rfl⟩

theorem holds_of_owns {db : Db} {e : Execution} (h : e.owns db = true) : e.holds db = true := by
  obtain ⟨r, hr, -, htoken⟩ := Db.currentLease_iff.mp h
  exact Execution.holds_iff.mpr ⟨r, hr, htoken⟩

/-- A token that has left a row does not come back. -/
theorem holds_back (hf : Fenced s) (h : s.step settings a = some s') {e : Execution}
    (he : e ∈ s.executions) (hholds : e.holds s'.db = true) : e.holds s.db = true := by
  obtain ⟨r', hr', htoken⟩ := Execution.holds_iff.mp hholds
  rcases token_origin h hr' htoken with ⟨r, hr, hold⟩ | ⟨hfresh, -⟩
  · exact Execution.holds_iff.mpr ⟨r, hr, hold⟩
  · exact absurd (hf.executions e he) hfresh

/-- An execution that holds its shard after a step of its own held it before. -/
theorem holds_stepped (hf : Fenced s) (h : s.step settings a = some s') {e e' : Execution}
    {b : WorkerAction} {db : Db} (he : e ∈ s.executions)
    (hstep : e.step s.db settings b = some (db, e')) (hholds : e'.holds s'.db = true) :
    e.holds s.db = true := by
  obtain ⟨hshard, htoken⟩ := Execution.step_lease hstep
  refine holds_back hf h he ?_
  rw [Execution.holds, ← hshard, ← htoken]
  exact hholds

/-- Two executions that hold one shard are the same. -/
theorem holder_unique (hf : Fenced s) {i j : Nat} {e e' : Execution}
    (he : s.executions[i]? = some e) (he' : s.executions[j]? = some e')
    (hholds : e.holds s.db = true) (hholds' : e'.holds s.db = true)
    (hshard : e.shardId = e'.shardId) : i = j := by
  obtain ⟨r, hr, htoken⟩ := Execution.holds_iff.mp hholds
  obtain ⟨r', hr', htoken'⟩ := Execution.holds_iff.mp hholds'
  rw [← hshard, hr] at hr'
  cases hr'
  exact hf.index he he' (Option.some.inj (htoken.symm.trans htoken'))

/-- An execution that is over stays as it is. -/
theorem finished_kept (h : s.step settings a = some s') {i : Nat} {e : Execution}
    {status : ShardStatus} (he : s.executions[i]? = some e) (hpc : e.pc = .finished status) :
    s'.executions[i]? = some e := by
  obtain ⟨e', he', rfl | ⟨b, -, hstep⟩⟩ := execution_next h he
  · exact he'
  · rw [Execution.step_finished hpc] at hstep
    cases hstep

/-! ## What is pending -/

/-- What executions hold back until a commit is signed by them. -/
structure Signed (s : State) : Prop where
  hosts : ∀ e ∈ s.executions, ∀ h ∈ e.hosts, e.Signs h.shardId h.leaseToken
  discoveries : ∀ e ∈ s.executions, ∀ o ∈ e.discoveries, e.Signs o.shardId o.leaseToken
  collecting : ∀ e ∈ s.executions, e.pc.collecting = false → e.hosts = [] ∧ e.services = []

theorem signed_start (db : Db) : Signed (State.start db) where
  hosts := fun _ h => absurd h List.not_mem_nil
  discoveries := fun _ h => absurd h List.not_mem_nil
  collecting := fun _ h => absurd h List.not_mem_nil

theorem signed_step (hs : Signed s) (h : s.step settings a = some s') : Signed s' := by
  have hsame : ∀ {e e' : Execution} {shardId : Uuid} {token : Option Uuid},
      e'.shardId = e.shardId ∧ e'.leaseToken = e.leaseToken → e.Signs shardId token →
        e'.Signs shardId token := by
    rintro e e' shardId token ⟨hshard, htoken⟩ ⟨rfl, rfl⟩
    exact ⟨hshard.symm, by rw [htoken]⟩
  refine ⟨?_, ?_, ?_⟩
  · refine executions_step h hs.hosts ?_ fun _ _ x hx => absurd hx List.not_mem_nil
    intro e he i b e' _ hstep x hx
    apply hsame (Execution.step_lease hstep)
    rcases (Execution.step_recording hstep).hosts x hx with hold | hsigns
    · exact hs.hosts e he x hold
    · exact hsigns
  · refine executions_step h hs.discoveries ?_ fun _ _ x hx => absurd hx List.not_mem_nil
    intro e he i b e' _ hstep x hx
    apply hsame (Execution.step_lease hstep)
    rcases (Execution.step_recording hstep).discoveries x hx with hold | hsigns
    · exact hs.discoveries e he x hold
    · exact hsigns
  · refine executions_step h hs.collecting ?_ fun _ _ _ => ⟨rfl, rfl⟩
    intro e he i b e' _ hstep hpc
    rcases (Execution.step_recording hstep).collecting hpc with hnone | ⟨hold, hhosts, hservices⟩
    · exact hnone
    · rw [hhosts, hservices]
      exact hs.collecting e he hold

/-! ## Superseded executions -/

/-- A start keeps the statuses of the runs exactly when it has nothing to change. -/
theorem start_status {db : Db} {e : Execution} {run : ScanRun} {now : DateTime} :
    (∀ id, ((e.startCommit db run now).1.runs.get id).map ScanRun.status =
        (db.runs.get id).map ScanRun.status) ↔
      (run.status = .running ∨ ∀ r ∈ db.runs.get run.id, r.status = .running) := by
  have hget : ∀ id, (e.startCommit db run now).1.runs.get id = (db.runs.get id).map fun r =>
      if id = run.id then ScanRun.writeBack run (e.startCommit db run now).2 r else r :=
    fun id => Db.get_flushRun db run _ id
  constructor
  · intro hall
    by_cases hrunning : run.status = .running
    · exact Or.inl hrunning
    · refine Or.inr fun r hr => ?_
      have hid := hall run.id
      rw [hget, show db.runs.get run.id = some r from hr, Option.map_some, Option.map_some,
        if_pos rfl, Option.map_some, ScanRun.status_startCommit, if_neg hrunning] at hid
      exact (Option.some.inj hid).symm
  · intro hcase id
    rw [hget]
    cases hr : db.runs.get id with
    | none => rfl
    | some r =>
      rw [Option.map_some, Option.map_some, Option.map_some]
      by_cases hid : id = run.id
      · subst hid
        rw [if_pos rfl, ScanRun.status_startCommit]
        rcases hcase with hrunning | hall
        · rw [if_pos hrunning]
        · rw [hall r hr, ite_self]
      · rw [if_neg hid]

/-- The step lemma of the first half: of the steps of a superseded execution the
harmless ones are those that leave the results alone. -/
theorem superseded_step (hs : Signed s) {e e' : Execution} {db : Db} {b : WorkerAction}
    (he : e ∈ s.executions) (hlost : e.holds s.db = false)
    (h : e.step s.db settings b = some (db, e')) :
    ResultsKept s.db db ↔ e.harmless s.db b = true := by
  have hnot : e.owns s.db = true → False := by
    intro howns
    rw [holds_of_owns howns] at hlost
    cases hlost
  have hidle : ∀ {b}, e.harmless s.db b = true → db = s.db →
      (ResultsKept s.db db ↔ e.harmless s.db b = true) := by
    rintro b hb rfl
    exact iff_of_true ⟨rfl, rfl, rfl, fun _ => rfl⟩ hb
  cases b with
  | start now =>
    cases Execution.step_start h with
    | @start run _ hpc hrun =>
      rw [Execution.harmless, decide_eq_true_iff, hrun]
      constructor
      · intro hkept
        refine ⟨fun x hx => ?_, fun x hx => ?_, fun x hx => ?_, ?_⟩
        · exact of_decide_eq_false (Table.delete_eq_self.mp hkept.hosts x hx)
        · exact of_decide_eq_false (Table.delete_eq_self.mp hkept.services x hx)
        · exact of_decide_eq_false (Table.delete_eq_self.mp hkept.discoveries x hx)
        · intro run' hrun'
          cases hrun'
          exact start_status.mp hkept.status
      · rintro ⟨hhosts, hservices, hdiscoveries, hrunning⟩
        exact {
          hosts := Table.delete_eq_self.mpr fun x hx => decide_eq_false (hhosts x hx)
          services := Table.delete_eq_self.mpr fun x hx => decide_eq_false (hservices x hx)
          discoveries := Table.delete_eq_self.mpr fun x hx => decide_eq_false (hdiscoveries x hx)
          status := start_status.mpr (hrunning run rfl) }
  | commitHeartbeat =>
    cases Execution.step_commitHeartbeat h with
    | beat _ _ howns => exact (hnot howns).elim
    | beatLost hpc _ hflush =>
      obtain ⟨hhosts, hservices⟩ := hs.collecting e he (by rw [hpc]; rfl)
      obtain ⟨hosts, services, discoveries, hh, hv, hd, rfl⟩ := Execution.flush_frame hflush
      rw [hhosts, Table.append?_eq_self.mpr rfl] at hh
      rw [hservices, Table.append?_eq_self.mpr rfl] at hv
      rw [Execution.harmless, decide_eq_true_iff]
      constructor
      · intro hkept
        rw [show discoveries = s.db.discoveries from hkept.discoveries] at hd
        exact Table.append?_eq_self.mp hd
      · intro hnone
        rw [hnone, Table.append?_eq_self.mpr rfl] at hd
        cases hh
        cases hv
        cases hd
        exact ⟨rfl, rfl, rfl, fun _ => rfl⟩
  | commitFinish now =>
    cases Execution.step_commitFinish h with
    | finish _ _ howns => exact (hnot howns).elim
  | abandon =>
    rcases Execution.step_cases h with ⟨heq, -⟩ | hc
    · exact hidle rfl heq
    · cases hc with
      | abandon _ _ howns => exact (hnot howns).elim
  | _ =>
    rcases Execution.step_cases h with ⟨heq, -⟩ | hc
    · exact hidle rfl heq
    · cases hc

theorem silent_iff (hs : Signed s) (h : s.step settings a = some s') :
    SupersededSilent ⟨s, a, s'⟩ ↔ s.fencesResults a = true := by
  constructor
  · intro hsilent
    cases a with
    | worker i b =>
      obtain ⟨e, db, e', he, hexec, hs'⟩ := step_worker h
      rw [State.fencesResults, he, Option.all_some]
      by_cases hholds : e.holds s.db = true
      · rw [hholds, Bool.true_or]
      · have hlost : e.holds s.db = false := Bool.eq_false_iff.mpr hholds
        have hkept : ResultsKept s.db s'.db := hsilent i b e rfl he hlost
        rw [hs'] at hkept
        rw [(superseded_step hs (List.mem_of_getElem? he) hlost hexec).mp hkept, Bool.or_true]
    | _ => rfl
  · rintro hk i b e rfl he hlost
    obtain ⟨e₁, db, e', he₁, hexec, rfl⟩ := step_worker h
    rw [show s.executions[i]? = some e from he] at he₁
    cases he₁
    rw [State.fencesResults, he, Option.all_some, hlost, Bool.false_or] at hk
    exact (superseded_step hs (List.mem_of_getElem? he) hlost hexec).mpr hk

/-! ## Rows a step adds -/

/-- The step is a commit of execution `i`, which holds its shard, and inserts what
is pending. -/
structure Inserts (s : State) (a : Action) (s' : State) (i : Nat) (e : Execution) : Prop where
  act : ∃ b, a = .worker i b
  execution : s.executions[i]? = some e
  holds : e.holds s.db = true
  flushing : e.pc.flushing = true
  after : ∀ e' ∈ s'.executions[i]?, e'.pc.cleans = false

/-- Only the holder of a shard inserts observations of it. -/
theorem Inserts.holder (hf : Fenced s) {i j : Nat} {e e' : Execution} {shardId : Uuid}
    {token : Option Uuid} (hi : Inserts s a s' i e) (hsigns : e.Signs shardId token)
    (he' : s.executions[j]? = some e') (hholds' : e'.holds s.db = true)
    (hshard : shardId = e'.shardId) : Inserts s a s' j e' ∧ token = some e'.leaseToken := by
  obtain ⟨hsame, htoken⟩ := hsigns
  have hij : i = j := holder_unique hf hi.execution he' hi.holds hholds' (hsame.symm.trans hshard)
  subst hij
  rw [hi.execution] at he'
  cases he'
  exact ⟨hi, htoken⟩

theorem inserted (hs : Signed s) (hk : s.fencesResults a = true)
    (h : s.step settings a = some s') :
    (∀ x ∈ s'.db.hosts.rows, x ∈ s.db.hosts.rows ∨
      ∃ i e, Inserts s a s' i e ∧ e.Signs x.shardId x.leaseToken) ∧
    ∀ x ∈ s'.db.discoveries.rows, x ∈ s.db.discoveries.rows ∨
      ∃ i e, Inserts s a s' i e ∧ e.Signs x.shardId x.leaseToken := by
  by_cases ha : ∃ i b, a = .worker i b
  rotate_left
  · obtain ⟨hhosts, -, hdiscoveries⟩ := results_frame h fun i b hab => ha ⟨i, b, hab⟩
    rw [hhosts, hdiscoveries]
    exact ⟨fun x hx => Or.inl hx, fun x hx => Or.inl hx⟩
  obtain ⟨i, b, rfl⟩ := ha
  obtain ⟨e, db, e', he, hstep, rfl⟩ := step_worker h
  have hmem : e ∈ s.executions := List.mem_of_getElem? he
  by_cases hholds : e.holds s.db = true
  rotate_left
  · -- what a superseded execution commits leaves the observations alone
    have hlost : e.holds s.db = false := Bool.eq_false_iff.mpr hholds
    have hharmless : e.harmless s.db b = true := by
      rw [State.fencesResults, he, Option.all_some, hlost, Bool.false_or] at hk
      exact hk
    obtain ⟨hhosts, -, hdiscoveries, -⟩ := (superseded_step hs hmem hlost hstep).mpr hharmless
    refine ⟨fun x hx => Or.inl ?_, fun x hx => Or.inl ?_⟩
    · rw [← hhosts]
      exact hx
    · rw [← hdiscoveries]
      exact hx
  rcases Execution.step_cases hstep with ⟨rfl, -⟩ | hc
  · exact ⟨fun x hx => Or.inl hx, fun x hx => Or.inl hx⟩
  rcases hc.results with ⟨hhosts, -, hdiscoveries⟩ | ⟨now, -, -, -, hhosts, -, hdiscoveries⟩ |
    ⟨hflushing, hcleans, hhosts, -, hdiscoveries⟩
  · refine ⟨fun x hx => Or.inl ?_, fun x hx => Or.inl ?_⟩
    · rw [← hhosts]
      exact hx
    · rw [← hdiscoveries]
      exact hx
  · refine ⟨fun x hx => Or.inl ?_, fun x hx => Or.inl ?_⟩
    · rw [show ({ s with db := db, executions := s.executions.set i e' } : State).db.hosts =
        _ from hhosts] at hx
      exact (Table.mem_delete.mp hx).1
    · rw [show ({ s with db := db, executions := s.executions.set i e' } : State).db.discoveries =
        _ from hdiscoveries] at hx
      exact (Table.mem_delete.mp hx).1
  · have hi : Inserts s (.worker i b)
        { s with db := db, executions := s.executions.set i e' } i e := by
      refine ⟨⟨b, rfl⟩, he, hholds, hflushing, fun e₁ he₁ => ?_⟩
      rw [show ({ s with db := db, executions := s.executions.set i e' } : State).executions[i]? =
        some e' from List.getElem?_set_self (List.getElem?_eq_some_iff.mp he).1] at he₁
      cases he₁
      exact hcleans
    refine ⟨fun x hx => ?_, fun x hx => ?_⟩
    · rcases List.mem_append.mp (Table.rows_append? hhosts ▸ hx) with hold | hnew
      · exact Or.inl hold
      · exact Or.inr ⟨i, e, hi, hs.hosts e hmem x hnew⟩
    · rcases List.mem_append.mp (Table.rows_append? hdiscoveries ▸ hx) with hold | hnew
      · exact Or.inl hold
      · exact Or.inr ⟨i, e, hi, hs.discoveries e hmem x hnew⟩

/-- The observations of a shard after a step, seen by the execution that held it
before: they were there, or the execution has just inserted them. -/
theorem held_rows (hf : Fenced s) (hs : Signed s) (hk : s.fencesResults a = true)
    (h : s.step settings a = some s') {j : Nat} {e : Execution} (he : s.executions[j]? = some e)
    (hholds : e.holds s.db = true) :
    (∀ x ∈ s'.db.hosts.rows, x.shardId = e.shardId → x ∈ s.db.hosts.rows ∨
      (Inserts s a s' j e ∧ x.leaseToken = some e.leaseToken)) ∧
    ∀ x ∈ s'.db.discoveries.rows, x.shardId = e.shardId → x ∈ s.db.discoveries.rows ∨
      (Inserts s a s' j e ∧ x.leaseToken = some e.leaseToken) := by
  obtain ⟨hhosts, hdiscoveries⟩ := inserted hs hk h
  refine ⟨fun x hx hshard => ?_, fun x hx hshard => ?_⟩
  · rcases hhosts x hx with hold | ⟨i, e₁, hi, hsigns⟩
    · exact Or.inl hold
    · exact Or.inr (hi.holder hf hsigns he hholds hshard)
  · rcases hdiscoveries x hx with hold | ⟨i, e₁, hi, hsigns⟩
    · exact Or.inl hold
    · exact Or.inr (hi.holder hf hsigns he hholds hshard)

/-- Rows that bear the token of the shard's holder go on doing so. -/
theorem bears_step (hf : Fenced s) (hs : Signed s) (hk : s.fencesResults a = true)
    (h : s.step settings a = some s') {j : Nat} {e : Execution} (he : s.executions[j]? = some e)
    (hholds : e.holds s.db = true) (hbears : s.db.Bears e.shardId e.leaseToken) :
    s'.db.Bears e.shardId e.leaseToken := by
  obtain ⟨hhosts, hdiscoveries⟩ := held_rows hf hs hk h he hholds
  refine ⟨fun x hx hshard => ?_, fun x hx hshard => ?_⟩
  · rcases hhosts x hx hshard with hold | ⟨-, htoken⟩
    · exact hbears.hosts x hold hshard
    · exact htoken
  · rcases hdiscoveries x hx hshard with hold | ⟨-, htoken⟩
    · exact hbears.discoveries x hold hshard
    · exact htoken

/-! ## The invariant -/

structure Attributed (s : State) : Prop where
  doomedHosts : ∀ e ∈ s.executions, e.holds s.db = true →
    e.pc = .hostsCleared ∨ e.pc = .cleared →
      ∀ x ∈ s.db.hosts.rows, x.shardId = e.shardId → x.id ∈ e.doomedHosts
  doomedDiscoveries : ∀ e ∈ s.executions, e.holds s.db = true → e.pc = .cleared →
    ∀ x ∈ s.db.discoveries.rows, x.shardId = e.shardId → Keyed.key x ∈ e.doomedDiscoveries
  started : ∀ e ∈ s.executions, e.holds s.db = true → e.pc.started = true →
    s.db.Bears e.shardId e.leaseToken
  completed : s.CompletedBySigner

theorem attributed_start (scopes : Table InventoryScope) (profiles : Table ScanProfile) :
    Attributed (State.initial scopes profiles) where
  doomedHosts := fun _ h => absurd h List.not_mem_nil
  doomedDiscoveries := fun _ h => absurd h List.not_mem_nil
  started := fun _ h => absurd h List.not_mem_nil
  completed := fun _ _ hr => absurd (Table.get_mem hr) List.not_mem_nil

/-- The lists of doomed rows cover the shard until the start commits. -/
theorem doomed_step (hf : Fenced s) (hs : Signed s) (hat : Attributed s)
    (hk : s.fencesResults a = true) (h : s.step settings a = some s') :
    ∀ e' ∈ s'.executions, e'.holds s'.db = true →
      (e'.pc = .hostsCleared ∨ e'.pc = .cleared →
        ∀ x ∈ s'.db.hosts.rows, x.shardId = e'.shardId → x.id ∈ e'.doomedHosts) ∧
      (e'.pc = .cleared →
        ∀ x ∈ s'.db.discoveries.rows, x.shardId = e'.shardId →
          Keyed.key x ∈ e'.doomedDiscoveries) := by
  intro e' he' hholds'
  obtain ⟨j, hj⟩ := List.mem_iff_getElem?.mp he'
  rcases execution_cases h hj with ⟨he, ha⟩ | ⟨e, b, he, rfl, hstep⟩ | ⟨_, _, -, -, -, hnew⟩
  · have hmem : e' ∈ s.executions := List.mem_of_getElem? he
    have hholds : e'.holds s.db = true := holds_back hf h hmem hholds'
    obtain ⟨hhosts, hdiscoveries⟩ := held_rows hf hs hk h he hholds
    refine ⟨fun hpc x hx hshard => ?_, fun hpc x hx hshard => ?_⟩
    · rcases hhosts x hx hshard with hold | ⟨hi, -⟩
      · exact hat.doomedHosts e' hmem hholds hpc x hold hshard
      · exact absurd hi.act fun ⟨b, hab⟩ => ha b hab
    · rcases hdiscoveries x hx hshard with hold | ⟨hi, -⟩
      · exact hat.doomedDiscoveries e' hmem hholds hpc x hold hshard
      · exact absurd hi.act fun ⟨b, hab⟩ => ha b hab
  · have hmem : e ∈ s.executions := List.mem_of_getElem? he
    obtain ⟨hshard', htoken'⟩ := Execution.step_lease hstep
    have hholds : e.holds s.db = true := holds_stepped hf h hmem hstep hholds'
    obtain ⟨hhosts, hdiscoveries⟩ := held_rows hf hs hk h he hholds
    have hrec := Execution.step_recording hstep
    rw [hshard']
    -- an insert does not lead to a state in which rows are doomed
    refine ⟨fun hpc x hx hshard => ?_, fun hpc x hx hshard => ?_⟩
    · rcases hhosts x hx hshard with hold | ⟨hi, -⟩
      · rcases hpc with hpc | hpc
        · rw [hrec.hostsCleared hpc]
          refine List.mem_map.mpr ⟨x, Table.mem_select.mpr ⟨hold, ?_⟩, rfl⟩
          exact decide_eq_true hshard
        · obtain ⟨hbefore, hdoomed, -⟩ := hrec.cleared hpc
          rw [hdoomed]
          exact hat.doomedHosts e hmem hholds (Or.inl hbefore) x hold hshard
      · have hcleans := hi.after e' hj
        rcases hpc with hpc | hpc
        · exact Execution.not_hostsCleared hcleans hpc
        · exact Execution.not_cleared hcleans hpc
    · rcases hdiscoveries x hx hshard with hold | ⟨hi, -⟩
      · obtain ⟨-, -, hdoomed⟩ := hrec.cleared hpc
        rw [hdoomed]
        refine List.mem_map.mpr ⟨x, Table.mem_select.mpr ⟨hold, ?_⟩, rfl⟩
        exact decide_eq_true hshard
      · exact Execution.not_cleared (hi.after e' hj) hpc
  · rw [hnew]
    refine ⟨fun hpc => ?_, fun hpc => by cases hpc⟩
    rcases hpc with hpc | hpc
    · cases hpc
    · cases hpc

/-- The start of the holder leaves its shard without observations. -/
theorem start_bears (hat : Attributed s) {e e' : Execution} {db : Db} {now : DateTime}
    (he : e ∈ s.executions) (hholds : e.holds s.db = true)
    (h : e.step s.db settings (.start now) = some (db, e')) :
    db.Bears e.shardId e.leaseToken := by
  cases Execution.step_start h with
  | start hpc hrun =>
    refine ⟨fun x hx hshard => ?_, fun x hx hshard => ?_⟩
    · obtain ⟨hold, hkept⟩ := Table.mem_delete.mp hx
      exact absurd (hat.doomedHosts e he hholds (Or.inr hpc) x hold hshard)
        (of_decide_eq_false hkept)
    · obtain ⟨hold, hkept⟩ := Table.mem_delete.mp hx
      exact absurd (hat.doomedDiscoveries e he hholds hpc x hold hshard)
        (of_decide_eq_false hkept)

theorem started_step (hf : Fenced s) (hs : Signed s) (hat : Attributed s)
    (hk : s.fencesResults a = true) (h : s.step settings a = some s') :
    ∀ e' ∈ s'.executions, e'.holds s'.db = true → e'.pc.started = true →
      s'.db.Bears e'.shardId e'.leaseToken := by
  intro e' he' hholds' hstarted
  obtain ⟨j, hj⟩ := List.mem_iff_getElem?.mp he'
  rcases execution_cases h hj with ⟨he, -⟩ | ⟨e, b, he, rfl, hstep⟩ | ⟨_, _, -, -, -, hnew⟩
  · have hmem : e' ∈ s.executions := List.mem_of_getElem? he
    have hholds : e'.holds s.db = true := holds_back hf h hmem hholds'
    exact bears_step hf hs hk h he hholds (hat.started e' hmem hholds hstarted)
  · have hmem : e ∈ s.executions := List.mem_of_getElem? he
    obtain ⟨hshard', htoken'⟩ := Execution.step_lease hstep
    have hholds : e.holds s.db = true := holds_stepped hf h hmem hstep hholds'
    rw [hshard', htoken']
    rcases (Execution.step_recording hstep).started hstarted with hbefore | ⟨now, rfl⟩
    · exact bears_step hf hs hk h he hholds (hat.started e hmem hholds hbefore)
    · exact start_bears hat hmem hholds hstep
  · rw [hnew] at hstarted
    cases hstarted

theorem Execution.Concludes.completed {e : Execution} {b : WorkerAction} {o : Outcome}
    (h : e.Concludes b o) (ho : o.status = .completed) :
    ∃ now counts, b = .commitFinish now ∧ e.pc = .finishing o counts := by
  rcases h with ⟨-, -, hout⟩ | hfinish
  · rcases Execution.abandonOutcome_cases hout with rfl | rfl
    · cases ho
    · cases ho
  · exact hfinish

/-- A shard becomes completed by the last commit of the execution that holds it. -/
theorem ShardStep.completed (hc : Copies s) (hi : Intents s) {r r' : ScanShard}
    (h : ShardStep settings s a r r') (hcompleted : r'.status = .completed) :
    ∃ i e o now counts, a = .worker i (.commitFinish now) ∧ s.executions[i]? = some e ∧
      e.pc = .finishing o counts ∧ o.status = .completed ∧
      r.held e.shardId e.leaseToken .running = true ∧ r' = r.finish o := by
  cases h with
  | lease => cases hcompleted
  | bind hp _ hphase => exact absurd hphase (hi.fenced hp _)
  | recover hp hl _ =>
    have hstatus := hc.stale _ (List.mem_of_getElem? hp) _ hl
    rw [(ScanShard.writeBack_requeued hstatus r).1] at hcompleted
    cases hcompleted
  | cancel hp hl _ =>
    have hstatus := (hc.selected _ (List.mem_of_getElem? hp) _ hl).1
    rw [ScanShard.writeBack_cancelled hstatus] at hcompleted
    cases hcompleted
  | claim => cases hcompleted
  | beat he hheld =>
    have hrunning := (ScanShard.held_iff.mp hheld).2.1
    rw [show r.status = .completed from hcompleted] at hrunning
    cases hrunning
  | finish he ho hheld =>
    obtain ⟨now, counts, rfl, hpc⟩ := ho.completed hcompleted
    exact ⟨_, _, _, now, counts, rfl, he, hpc, hcompleted, hheld, rfl⟩

/-- A completed row was there before the step, or the execution that holds it
has just ended. -/
theorem completed_row (hc : Copies s) (hi : Intents s) (h : s.step settings a = some s')
    {k : Uuid} {r' : ScanShard} (hr' : s'.db.shards.get k = some r')
    (hcompleted : r'.status = .completed) :
    s.db.shards.get k = some r' ∨
      ∃ (i : Nat) (e e' : Execution) (r : ScanShard) (artifactKey : Option String)
        (discoveryArtifactKey : Option String) (now : DateTime) (counts : Option TerminalCounts),
        s.executions[i]? = some e ∧ s'.executions[i]? = some e' ∧
        e.step s.db settings (.commitFinish now) = some (s'.db, e') ∧ e.shardId = k ∧
        e.pc = .finishing (.completed artifactKey discoveryArtifactKey) counts ∧
        e'.pc = .finished .completed ∧ s.db.shards.get k = some r ∧
        r.leaseToken = some e.leaseToken ∧
        r' = r.finish (.completed artifactKey discoveryArtifactKey) := by
  rcases shard_cases h hr' with ⟨r, hr, rfl | hstep⟩ | hnew
  · exact Or.inl hr
  · right
    obtain ⟨i, e, o, now, counts, rfl, he, hpc, ho, hheld, rfl⟩ := hstep.completed hc hi hcompleted
    obtain ⟨hid, -, htoken⟩ := ScanShard.held_iff.mp hheld
    obtain ⟨artifactKey, discoveryArtifactKey, rfl⟩ : ∃ a d, o = .completed a d := by
      cases o with
      | completed a d => exact ⟨a, d, rfl⟩
      | _ => cases ho
    obtain ⟨e₁, db, e', he₁, hexec, rfl⟩ := step_worker h
    rw [he] at he₁
    cases he₁
    have hpc' : e'.pc = .finished .completed := by
      cases Execution.step_commitFinish hexec with
      | finish hpc₁ =>
        rw [hpc] at hpc₁
        cases hpc₁
        rfl
    have hlt := (List.getElem?_eq_some_iff.mp he).1
    exact ⟨i, e, e', r, _, _, now, counts, he, List.getElem?_set_self hlt, hexec,
      hid.symm.trans (Table.get_key hr), hpc, hpc', hr, htoken, rfl⟩
  · rw [hnew.blank] at hcompleted
    cases hcompleted

theorem completed_step (hc : Copies s) (hf : Fenced s) (hi : Intents s) (hs : Signed s)
    (hat : Attributed s) (hk : s.fencesResults a = true) (h : s.step settings a = some s') :
    s'.CompletedBySigner := by
  intro k r' hr' hcompleted
  rcases completed_row hc hi h hr' hcompleted with hr |
    ⟨i, e, e', r, _, _, now, counts, he, he', hexec, rfl, hpc, hpc', hr, htoken, rfl⟩
  · obtain ⟨e, he, rfl, htoken, hpc, hbears⟩ := hat.completed k r' hr hcompleted
    obtain ⟨j, hj⟩ := List.mem_iff_getElem?.mp he
    have hholds : e.holds s.db = true := Execution.holds_iff.mpr ⟨r', hr, htoken⟩
    exact ⟨e, List.mem_of_getElem? (finished_kept h hj hpc), rfl, htoken, hpc,
      bears_step hf hs hk h hj hholds hbears⟩
  · have hmem : e ∈ s.executions := List.mem_of_getElem? he
    have hholds : e.holds s.db = true := Execution.holds_iff.mpr ⟨r, hr, htoken⟩
    have hbears := bears_step hf hs hk h he hholds
      (hat.started e hmem hholds (by rw [hpc]; rfl))
    obtain ⟨hshard', htoken'⟩ := Execution.step_lease hexec
    refine ⟨e', List.mem_of_getElem? he', hshard', ?_, hpc', ?_⟩
    · rw [htoken', ← htoken]
      rfl
    · rw [htoken']
      exact hbears

theorem attributed_step (hc : Copies s) (hf : Fenced s) (hi : Intents s) (hs : Signed s)
    (hat : Attributed s) (hk : s.fencesResults a = true) (h : s.step settings a = some s') :
    Attributed s' where
  doomedHosts := fun e he hholds => (doomed_step hf hs hat hk h e he hholds).1
  doomedDiscoveries := fun e he hholds => (doomed_step hf hs hat hk h e he hholds).2
  started := started_step hf hs hat hk h
  completed := completed_step hc hf hi hs hat hk h

end

/-! ## Runs -/

structure ResultFencing (tr : List (Transition State Action)) (t : State) : Prop where
  silent : ∀ x ∈ tr, SupersededSilent x
  completed : t.CompletedBySigner

section
variable {settings : Settings} {scopes : Table InventoryScope} {profiles : Table ScanProfile}
  {tr : List (Transition State Action)} {t : State}

theorem signed_at (h : Run settings (State.initial scopes profiles) tr t)
    {x : Transition State Action} (hx : x ∈ tr) : Signed x.pre :=
  (h.invariant_at (I := Signed) (C := fun _ _ => true) (signed_start _)
    (fun _ _ _ hs _ hstep => signed_step hs hstep) (fun _ _ => rfl) hx).1

theorem attributed_run (h : Run settings (State.initial scopes profiles) tr t)
    (hk : Along State.fencesResults tr) : Attributed t := by
  have hinv := h.invariant
    (I := fun s => Copies s ∧ Fenced s ∧ Intents s ∧ Signed s ∧ Attributed s)
    (C := State.fencesResults) ?_ ?_ hk
  · exact hinv.2.2.2.2
  · exact ⟨copies_start _, fenced_start fun r hr => absurd hr List.not_mem_nil,
      intents_start scopes profiles, signed_start _, attributed_start scopes profiles⟩
  · rintro s a s' ⟨hc, hf, hi, hs, hat⟩ hfences hstep
    exact ⟨copies_step hc hstep, fenced_step hc hf hstep, intents_step hc hi hstep,
      signed_step hs hstep, attributed_step hc hf hi hs hat hfences hstep⟩

end

/-- Results are fenced in a run exactly when the commits that superseded
executions make in it are harmless. -/
theorem result_fencing (settings : Settings) (scopes : Table InventoryScope)
    (profiles : Table ScanProfile) (tr : List (Transition State Action)) (t : State)
    (h : Run settings (State.initial scopes profiles) tr t) :
    ResultFencing tr t ↔ Along State.fencesResults tr := by
  constructor
  · intro hfencing x hx
    exact (silent_iff (signed_at h hx) (h.step_of_mem hx)).mp (hfencing.silent x hx)
  · intro hk
    refine ⟨fun x hx => ?_, (attributed_run h hk).completed⟩
    exact (silent_iff (signed_at h hx) (h.step_of_mem hx)).mpr (hk x hx)

namespace Demo

/-- The deployment with a two-stage profile. -/
def twoStage : State := State.initial scopes
  { rows := [{ id := "profile", scannerMode := .masscanThenNmap, maxConcurrentShards := 1 }]
    nodup := by decide }

def host : HostObservation :=
  { id := "h1", runId := "run", shardId := "s1", address := "10.0.0.5", state := "up" }

/-- The execution of `t1` is lost and its shard leased again, under `t2`. -/
def replace (now : DateTime) : List Action :=
  [.loadStale now, .commitRecovery 0] ++ dispatch 1 "t2" "e2" now ++ publish 1 now ++
    begin 1 "s1" "t2" now

end Demo

/-- The first execution has its discoveries pending and has passed the ownership
check when it is replaced; its heartbeat matches no row and is committed. -/
theorem superseded_heartbeat_inserts :
    ¬ ∀ (settings : Settings) (scopes : Table InventoryScope) (profiles : Table ScanProfile)
      (tr : List (Transition State Action)) (t : State),
      Run settings (State.initial scopes profiles) tr t → ResultFencing tr t := by
  intro hall
  have hrun : (runAll (State.step {}) Demo.twoStage (Demo.running ++
      [.exit, .recheck, .addDiscoveries [("10.0.0.5", "tcp", 443)], .storeDiscovery, .refresh,
        .checkLease].map (Action.worker 0) ++
      Demo.replace (seconds 7200) ++
      [.heartbeat (seconds 7201), .commitHeartbeat].map (Action.worker 0) ++
      [.exit, .recheck, .addDiscoveries [], .storeDiscovery, .confirm].map (Action.worker 1) ++
      Demo.finish 1 (seconds 7202))).map (fun t =>
        ((t.db.shards.get "s1").map fun r => (r.status, r.leaseToken), t.db.discoveries.rows)) =
      some (some (.completed, some "t2"),
        [{ runId := "run", shardId := "s1", leaseToken := some "t1", address := "10.0.0.5",
           protocol := "tcp", port := 443 }]) := by
    decide +kernel
  obtain ⟨tr, t, hp, hobs⟩ := Path.of_runAll_map hrun
  obtain ⟨hrow, hdiscoveries⟩ := Prod.mk.inj hobs
  obtain ⟨r, hr, hcols⟩ := Option.map_eq_some_iff.mp hrow
  obtain ⟨hcompleted, htoken⟩ := Prod.mk.inj hcols
  obtain ⟨e, -, -, hsigner, -, hbears⟩ :=
    (hall {} _ _ _ _ hp).completed "s1" r hr hcompleted
  have hstale := hbears.discoveries _ (by rw [hdiscoveries]; exact List.mem_singleton_self _) rfl
  rw [← hsigner, htoken] at hstale
  exact absurd hstale (by decide)

/-- The first execution finds itself replaced at its next ownership check; the
second one completes the shard. -/
theorem result_fencing_replaced :
    ∃ tr t, Run {} Demo.start tr t ∧ ResultFencing tr t ∧
      t.db.hosts.rows.map (fun h => h.leaseToken) = [some "t2"] := by
  have hrun : (runWhile (State.step {}) State.fencesResults Demo.start (Demo.running ++
      Demo.replace (seconds 7200) ++ [.refresh, .checkLease].map (Action.worker 0) ++
      [.exit, .recheck, .addHost Demo.host [], .storeConfirmation, .confirm].map
        (Action.worker 1) ++
      Demo.finish 1 (seconds 7202))).map (fun t => t.db.hosts.rows.map fun h => h.leaseToken) =
      some [some "t2"] := by
    decide +kernel
  obtain ⟨tr, t, hp, halong, hobs⟩ := Path.of_runWhile_map hrun
  exact ⟨tr, t, hp, (result_fencing {} _ _ tr t hp).mpr halong, hobs⟩

end TransportLookout
