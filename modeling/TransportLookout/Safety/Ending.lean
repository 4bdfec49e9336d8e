/-
How an execution ends, whatever its scanner has left behind.

An owner whose task ends has put its shard back in the queue or finished it, unless
the database raised where the task could not recover.  `Scanning.storable` is the
condition that it does not: the columns take the rows of the documents, no candidate
is in the table already, the retry instant is a `datetime`, and a run that is
finalized into the read model has no service key twice.
-/
import TransportLookout.ReadModel.Reconciliation
import TransportLookout.Safety.Flushes
import TransportLookout.Safety.Loaded

namespace TransportLookout

open Relational Trace

def Pc.ended : Pc → Bool
  | .finished _ | .stopped => true
  | _ => false

/-- The task of execution `i` has ended. -/
def Scanning.ended (s : Scanning) (i : Nat) : Bool :=
  i ∈ s.crashed || (s.base.executions[i]?).any fun e => e.pc.ended

/-- What an execution may leave its shard as. -/
def ShardStatus.left : ShardStatus → Bool
  | .completed | .queued | .deadLetter | .cancelled => true
  | _ => false

/-- The step leaves no shard running whose owner it ends, and no reconciliation pass
ends on an exception. -/
structure Ends (x : Transition Scanning ScanAction) : Prop where
  shards : ∀ i e, x.pre.base.executions[i]? = some e → e.pc.started = true →
    x.pre.ended i = false → e.owns x.pre.base.db = true → x.post.ended i = true →
      ∃ r, x.post.base.db.shards.get e.shardId = some r ∧ r.status.left = true
  passes : x.post.aborted = x.pre.aborted

/-- The run is not materialized, or no open service of it has the key of another. -/
def Db.exposesOnce (db : Db) (counts : TerminalCounts) (run : ScanRun) : Bool :=
  !(counts.fires run && counts.failed = 0 && counts.incomplete = 0 &&
      (db.scopes.get run.inventoryScopeId).isSome) ||
    decide ((db.openServices run.id).map Observation.key).Nodup

namespace Execution

/-- The rows a document adds can be flushed host by host.  The services of the last
host wait for the next flush. -/
def hostsStorable (p : Platform) (db : Db) (e : Execution) (hosts : List ScannedHost) : Bool :=
  hosts.isEmpty || (e.insertable p db && hosts.all (ScannedHost.fits p) &&
    hosts.dropLast.all fun host => host.services.all (ScannedService.fits p))

def storable (p : Platform) (settings : Settings) (db : Db) (e : Execution)
    (a : WorkerAction) : Bool :=
  match a, e.pc with
  | .commitHeartbeat, .beating _ _ => e.insertable p db
  | .finish now, .failing _ => e.retryFits settings now
  | .countShards, .finishing _ none => e.insertable p db
  | .commitFinish _, .finishing o counts =>
    e.insertable p db && e.run.all fun run =>
      (e.flush (db.finishLease e.shardId e.leaseToken o)).all fun db' =>
        db'.exposesOnce (counts.getD (db'.terminalCounts run.id)) run
  | _, _ => true

end Execution

def Scanning.storable (p : Platform) (settings : Settings) (s : Scanning) : ScanAction → Bool
  | .single (.worker i a) => (s.base.executions[i]?).all fun e =>
      !e.owns s.base.db || e.storable p settings s.base.db a
  | .single (.finalizeNext q _) => (s.base.reconciliations[q]?).all fun runs =>
      runs.head?.all fun run => s.base.db.exposesOnce (s.base.db.terminalCounts run.id) run
  | .readConfirmation i document _ _ => (s.base.executions[i]?).all fun e =>
      !e.owns s.base.db || e.hostsStorable p s.base.db (normalizeNmapXml p.int document).1
  | _ => true

/-! ## The finalizer -/

section
variable {p : Platform} {db db' : Db} {counts : TerminalCounts} {run run' : ScanRun}
  {actor : String} {now : DateTime}

theorem finalizeWith_isSome_iff (actor : String) (now : DateTime) :
    (db.finalizeWith counts run actor now).isSome = true ↔
      ∀ scope, db.Materializes counts run scope →
        ((db.openServices run.id).map Observation.key).Nodup := by
  constructor
  · intro hsome scope hm
    obtain ⟨x, hx⟩ := Option.isSome_iff_exists.mp hsome
    rw [hm.finalizes] at hx
    obtain ⟨db₁, hmat, -⟩ := Option.map_eq_some_iff.mp hx
    have hscope : (db.flushRun run (counts.finalized run now)).scopes.get
      (counts.finalized run now).inventoryScopeId = some scope := hm.scope
    rw [Db.materializeCurrentExposures, hscope] at hmat
    obtain ⟨exposures, happend, -⟩ := Option.map_eq_some_iff.mp hmat
    have hnodup := Table.append?_isSome.mp (Option.isSome_iff_exists.mpr ⟨exposures, happend⟩)
    rw [List.map_append, List.map_map] at hnodup
    have hpaired : (((db.openServices run.id).map Observation.key).map
        fun k => (run.pair, k)).Nodup := by
      rw [List.map_map]
      exact (List.nodup_append'.mp hnodup).2.1
    exact hpaired.of_map _
  · intro hkeys
    rw [Db.finalizeWith]
    split
    · next hfires =>
      rw [Option.isSome_map, Db.refreshInventory]
      split
      · rfl
      · next hstatus =>
        have hfailed : counts.failed = 0 := by
          by_contra hne
          refine hstatus ?_
          rw [TerminalCounts.finalized, if_pos hne]
          exact RunStatus.noConfusion
        split
        · next hincomplete =>
          cases hscope : db.scopes.get run.inventoryScopeId with
          | none =>
            have hnone : (db.flushRun run (counts.finalized run now)).scopes.get
              (counts.finalized run now).inventoryScopeId = none := hscope
            rw [Db.materializeCurrentExposures, hnone]
            rfl
          | some scope =>
            have hflushed : (((db.flushRun run (counts.finalized run now)).openServices
                (counts.finalized run now).id).map Observation.key).Nodup :=
              hkeys scope ⟨hfires, hfailed, hincomplete, hscope⟩
            exact Db.materialize_isSome hflushed now
        · rfl
    · rfl

theorem exposesOnce_iff : db.exposesOnce counts run = true ↔
    ∀ scope, db.Materializes counts run scope →
      ((db.openServices run.id).map Observation.key).Nodup := by
  rw [Db.exposesOnce, Bool.or_eq_true, decide_eq_true_iff, Bool.not_eq_true']
  constructor
  · rintro (hno | hyes) scope hm
    · rw [hm.fires, hm.failed, hm.incomplete, hm.scope] at hno
      cases hno
    · exact hyes
  · intro hall
    by_cases hfires : counts.fires run = true
    · by_cases hm : counts.failed = 0 ∧ counts.incomplete = 0
      · cases hscope : db.scopes.get run.inventoryScopeId with
        | none => exact Or.inl (by simp)
        | some scope => exact Or.inr (hall scope ⟨hfires, hm.1, hm.2, hscope⟩)
      · left
        rw [not_and_or] at hm
        rcases hm with hm | hm
        · simp [hm]
        · simp [hm]
    · exact Or.inl (by simp [hfires])

/-! ## Columns -/

/-- The rows of the tables fit their columns. -/
structure Fitting (p : Platform) (db : Db) : Prop where
  hosts : ∀ h ∈ db.hosts.rows, h.fits p = true
  services : ∀ s ∈ db.services.rows, s.fits p = true
  exposures : db.exposuresFit p = true

theorem exposureRow_fits {host : HostObservation} {service : ServiceObservation}
    (hhost : host.fits p = true) (hservice : service.fits p = true) (scope : InventoryScope)
    (t : DateTime) : (db.exposureRow scope run t (host, service)).fits p = true := by
  simp only [HostObservation.fits, Bool.and_eq_true] at hhost
  simp only [ServiceObservation.fits, ServiceObservation.scanned, ScannedService.fits,
    Bool.and_eq_true] at hservice
  obtain ⟨⟨haddress, -⟩, -⟩ := hhost
  obtain ⟨⟨⟨⟨⟨hprotocol, hport⟩, -⟩, hname⟩, hproduct⟩, hversion⟩ := hservice
  simp only [Db.exposureRow, CurrentExposure.fits, Bool.and_eq_true]
  exact ⟨⟨⟨⟨⟨haddress, hprotocol⟩, hport⟩, hname⟩, hproduct⟩, hversion⟩

theorem mem_openServices {host : HostObservation} {service : ServiceObservation} {runId : Uuid}
    (h : (host, service) ∈ db.openServices runId) :
    host ∈ db.hosts.rows ∧ service ∈ db.services.rows := by
  obtain ⟨host', hhost, hmem⟩ := List.mem_flatMap.mp h
  obtain ⟨service', hservice, heq⟩ := List.mem_map.mp hmem
  cases heq
  exact ⟨hhost, List.mem_of_mem_filter hservice⟩

/-- What the finalizer writes fits where what it reads does. -/
theorem Fitting.finalize (hf : Fitting p db)
    (h : db.finalizeWith counts run actor now = some (db', run')) : Fitting p db' := by
  have htables : db'.hosts = db.hosts ∧ db'.services = db.services := by
    rw [(Db.finalizeWith_frame h).1]
    exact ⟨rfl, rfl⟩
  refine ⟨?_, ?_, ?_⟩
  · rw [htables.1]
    exact hf.hosts
  · rw [htables.2]
    exact hf.services
  · have hold := List.all_eq_true.mp hf.exposures
    refine List.all_eq_true.mpr fun x hx => ?_
    rcases Db.exposures_finalizeWith h with hkept | ⟨hfires, hfailed, hincomplete, hscope⟩
    · exact hold x (hkept ▸ hx)
    · obtain ⟨scope, hscope⟩ := Option.isSome_iff_exists.mp hscope
      have hm : db.Materializes counts run scope := ⟨hfires, hfailed, hincomplete, hscope⟩
      have hin : x ∈ db'.inventory x.pair := Db.mem_inventory.mpr ⟨hx, rfl⟩
      by_cases hpair : x.pair = run.pair
      · rw [hpair, (hm.inventory h).2] at hin
        obtain ⟨⟨host, service⟩, hopen, rfl⟩ := List.mem_map.mp hin
        obtain ⟨hhost, hservice⟩ := mem_openServices hopen
        exact exposureRow_fits (hf.hosts host hhost) (hf.services service hservice) scope now
      · rw [Db.finalizeWith_other h hpair] at hin
        exact hold x (Db.mem_inventory.mp hin).1

theorem Fitting.flush {e : Execution} (hf : Fitting p db) (hrows : e.rowsFit p = true)
    (h : e.flush db = some db') : Fitting p db' := by
  obtain ⟨hosts, services, discoveries, hhosts, hservices, -, rfl⟩ := Execution.flush_frame h
  rw [Execution.rowsFit, Bool.and_eq_true, Bool.and_eq_true, List.all_eq_true,
    List.all_eq_true] at hrows
  refine ⟨?_, ?_, hf.exposures⟩
  · intro x hx
    have hx' : x ∈ hosts.rows := hx
    rw [Table.rows_append? hhosts] at hx'
    exact (List.mem_append.mp hx').elim (hf.hosts x) (hrows.1.1 x)
  · intro x hx
    have hx' : x ∈ services.rows := hx
    rw [Table.rows_append? hservices] at hx'
    exact (List.mem_append.mp hx').elim (hf.services x) (hrows.1.2 x)

theorem Fitting.worker {settings : Settings} {e e' : Execution} {a : WorkerAction}
    (hf : Fitting p db) (h : e.step db settings a = some (db', e'))
    (hr : e.raises p settings db a = false) : Fitting p db' := by
  rcases Execution.step_cases h with ⟨rfl, -⟩ | hc
  · exact hf
  · cases hc with
    | abandon => exact ⟨hf.hosts, hf.services, hf.exposures⟩
    | start =>
      refine ⟨fun x hx => hf.hosts x ?_, fun x hx => hf.services x ?_, hf.exposures⟩
      · exact List.mem_of_mem_filter hx
      · exact List.mem_of_mem_filter hx
    | @beat _ now _ _ _ hpc _ howns hflush =>
      have hacc := (raises_commitHeartbeat hpc).mp hr (Or.inr howns)
      rw [Execution.accepted, Bool.and_eq_true] at hacc
      have hf₁ : Fitting p (db.heartbeat e.shardId e.leaseToken now) :=
        ⟨hf.hosts, hf.services, hf.exposures⟩
      exact hf₁.flush hacc.1 hflush
    | beatLost hpc _ hflush =>
      have hacc := (raises_commitHeartbeat hpc).mp hr (Or.inl rfl)
      rw [Execution.accepted, Bool.and_eq_true] at hacc
      exact hf.flush hacc.1 hflush
    | @finish o _ _ _ _ _ _ hpc _ howns hflush hfin =>
      have hacc := ((raises_commitFinish hpc).mp hr howns).1
      rw [Execution.accepted, Bool.and_eq_true] at hacc
      have hf₁ : Fitting p (db.finishLease e.shardId e.leaseToken o) :=
        ⟨hf.hosts, hf.services, hf.exposures⟩
      exact (hf₁.flush hacc.1 hflush).finalize hfin

theorem Fitting.other {settings : Settings} {s s' : State} {a : Action} (hf : Fitting p s.db)
    (h : s.step settings a = some s') (hworker : ∀ i b, a ≠ .worker i b) : Fitting p s'.db := by
  obtain ⟨hhosts, hservices, -⟩ := results_frame h hworker
  cases a with
  | worker i b => exact absurd rfl (hworker i b)
  | finalizeNext q now =>
    obtain ⟨run, rest, db, run', -, hfin, rfl⟩ := step_finalizeNext h
    exact hf.finalize hfin
  | _ =>
    have hexposures : s'.db.exposures = s.db.exposures := by
      rcases exposures_step h with hsame | ⟨run, hrun⟩
      · exact hsame
      · obtain ⟨f, hfinal, -⟩ := Option.bind_eq_some_iff.mp hrun
        cases hfinal
    refine ⟨?_, ?_, ?_⟩
    · rw [hhosts]
      exact hf.hosts
    · rw [hservices]
      exact hf.services
    · rw [Db.exposuresFit, hexposures]
      exact hf.exposures

end

/-! ## What every state of a run satisfies -/

theorem outcome_left {settings : Settings} {e : Execution} {o : Outcome} {now : DateTime}
    (h : e.outcome settings now = some o) : o.status.left = true := by
  rw [Execution.outcome] at h
  split at h
  · split at h
    · cases h
      rfl
    · cases h
  · cases h
    rfl
  · split at h
    · split at h
      · cases h
        rfl
      · cases h
        rfl
    · cases h
  · cases h

structure Scanned (p : Platform) (s : Scanning) : Prop where
  copies : Copies s.base
  fenced : Fenced s.base
  loaded : ∀ e ∈ s.base.executions, Loaded s.base e
  finishing : ∀ e ∈ s.base.executions, ∀ o counts, e.pc = .finishing o counts →
    o.status.left = true
  drawn : Drawn s
  candidates : ∀ e ∈ s.base.executions, e.Candidates
  fitting : Fitting p s.base.db

section
variable {p : Platform} {settings : Settings} {s s' : Scanning} {a : ScanAction}

theorem scanned_initial (p : Platform) (scopes : Table InventoryScope)
    (profiles : Table ScanProfile) : Scanned p (Scanning.initial scopes profiles) where
  copies := copies_start _
  fenced := fenced_start fun _ hr => absurd hr List.not_mem_nil
  loaded := fun _ he => absurd he List.not_mem_nil
  finishing := fun _ he => absurd he List.not_mem_nil
  drawn := drawn_initial scopes profiles
  candidates := fun _ he => absurd he List.not_mem_nil
  fitting := ⟨fun _ h => absurd h List.not_mem_nil, fun _ h => absurd h List.not_mem_nil, rfl⟩

theorem finishing_step {s s' : State} {a : Action}
    (hfin : ∀ e ∈ s.executions, ∀ o counts, e.pc = .finishing o counts → o.status.left = true)
    (h : s.step settings a = some s') :
    ∀ e ∈ s'.executions, ∀ o counts, e.pc = .finishing o counts → o.status.left = true := by
  refine executions_step h hfin ?_ fun _ _ _ _ hpc => by cases hpc
  intro e he i b e' _ hstep o counts hpc
  obtain ⟨-, -, hcase⟩ := (Execution.step_change hstep).finishing o counts hpc
  rcases hcase with ⟨-, hbefore⟩ | ⟨now, -, hout, -⟩
  · exact hfin e he o none hbefore
  · exact outcome_left hout

theorem fitting_step (hs : Scanned p s) (h : s.step p settings a = some s') :
    Fitting p s'.base.db := by
  cases a with
  | single a =>
    cases a with
    | worker i b =>
      obtain ⟨e, he, -, -, ⟨-, rfl⟩ | ⟨hr, base, hbase, rfl⟩⟩ := scanning_worker h
      · exact hs.fitting
      · obtain ⟨e₀, db, e', he₀, hstep, rfl⟩ := step_worker hbase
        rw [he] at he₀
        cases he₀
        exact hs.fitting.worker hstep hr
    | finalizeNext q now =>
      obtain ⟨run, rest, -, -, ⟨base, hbase, -, rfl⟩ | ⟨-, rfl⟩⟩ := scanning_finalizeNext h
      · exact hs.fitting.other hbase fun _ _ hab => by cases hab
      · exact hs.fitting
    | _ =>
      obtain ⟨base, hbase, rfl⟩ := scanning_single h (fun _ _ hab => by cases hab)
        fun _ _ hab => by cases hab
      exact hs.fitting.other hbase fun _ _ hab => by cases hab
  | readDiscovery i document =>
    obtain ⟨e, b, base, -, -, -, hbase, rfl, hcase⟩ := scanning_readDiscovery h
    obtain ⟨e₀, db, e', -, hstep, rfl⟩ := step_worker hbase
    refine hs.fitting.worker hstep ?_
    rcases hcase with ⟨_, -, rfl⟩ | ⟨_, -, -, rfl⟩
    · unfold Execution.raises
      split <;> first | rfl | contradiction
    · unfold Execution.raises
      split <;> first | rfl | contradiction
  | readConfirmation i document drawn stored =>
    obtain ⟨e, he, -, -, -, -, -, ⟨-, rfl⟩ | ⟨e₁, db, e', hrows, hlast, rfl⟩⟩ :=
      scanning_readConfirmation h
    · exact hs.fitting
    · have hsame : db = s.base.db := by
        cases hor : (normalizeNmapXml p.int document).2.or stored with
        | none =>
          rw [hor] at hlast
          rcases Execution.step_cases hlast with ⟨hdb, -⟩ | hc
          · exact hdb
          · cases hc
        | some error =>
          rw [hor] at hlast
          rcases Execution.step_cases hlast with ⟨hdb, -⟩ | hc
          · exact hdb
          · cases hc
      rw [hsame]
      exact hs.fitting

theorem scanned_step (hs : Scanned p s) (h : s.step p settings a = some s') : Scanned p s' := by
  obtain ⟨tr, hp⟩ := scanning_path h
  have hbase := hp.invariant (C := fun _ _ => true)
    (I := fun s => ((Copies s ∧ Fenced s) ∧ ∀ e ∈ s.executions, Loaded s e) ∧
      ∀ e ∈ s.executions, ∀ o counts, e.pc = .finishing o counts → o.status.left = true)
    ⟨⟨⟨hs.copies, hs.fenced⟩, hs.loaded⟩, hs.finishing⟩
    (fun _ _ _ ⟨⟨⟨hc, hf⟩, hl⟩, hfin⟩ _ hstep =>
      ⟨⟨⟨copies_step hc hstep, fenced_step hc hf hstep⟩, loaded_step hc hf hl hstep⟩,
        finishing_step hfin hstep⟩) fun _ _ => rfl
  exact ⟨hbase.1.1.1, hbase.1.1.2, hbase.1.2, hbase.2, drawn_step hs.drawn h,
    candidates_step hs.candidates h, fitting_step hs h⟩

/-- The rows of a document can be flushed exactly when its hosts are storable. -/
theorem normalize_iff (settings : Settings) (hs : Scanned p s) {i : Nat} {e : Execution}
    {run : ScanRun} {hosts : List ScannedHost} {drawn : List (Uuid × List Uuid)}
    (he : s.base.executions[i]? = some e) (hpc : e.pc = .recording .nmap) (hrun : e.run = some run)
    (hsuits : Suits hosts drawn) (hnodup : (drawnIds drawn).Nodup)
    (hfresh : ∀ id ∈ drawnIds drawn, id ∉ s.used) :
    (e.normalize p settings s.base.db (identified hosts drawn)).isSome = true ↔
      e.hostsStorable p s.base.db hosts = true := by
  have hids := hs.drawn.fresh he hsuits hnodup hfresh
  have hscanned := identified_scanned hsuits
  generalize identified hosts drawn = rows at hids hscanned
  subst hscanned
  rw [normalize_isSome hpc hrun (hs.candidates e (List.mem_of_getElem? he)) hids,
    Execution.hostsStorable]
  simp only [Bool.or_eq_true, Bool.and_eq_true, List.isEmpty_iff, List.map_eq_nil_iff,
    List.all_map, ← List.map_dropLast, List.all_eq_true, Function.comp_apply, and_assoc,
    HostObservation.scanned]
  rfl

/-! ## What raises -/

/-- An owner's statement raises exactly when it is not storable. -/
theorem raises_iff (hs : Scanned p s) {i : Nat} {e : Execution} {a : WorkerAction}
    (he : s.base.executions[i]? = some e) (howns : e.owns s.base.db = true) :
    e.raises p settings s.base.db a = false ↔ e.storable p settings s.base.db a = true := by
  have hmem := List.mem_of_getElem? he
  have haccepted := accepted_iff (p := p) (hs.drawn.nodup.sublist (rowIds_sublist he))
    (hs.candidates e hmem)
  unfold Execution.storable
  split
  · next hpc => rw [raises_commitHeartbeat hpc, ← haccepted]; simp [howns]
  · next hpc => exact raises_finish hpc
  · next hpc => rw [raises_countShards hpc, haccepted]
  · next now o counts hpc =>
    obtain ⟨run, hrun⟩ := Option.isSome_iff_exists.mp
      ((hs.loaded e hmem).started (by rw [hpc]; rfl))
    have hfinal : ∀ db₁, e.flush (s.base.db.finishLease e.shardId e.leaseToken o) = some db₁ →
        e.accepted p s.base.db = true →
        ((e.step s.base.db settings (.commitFinish now)).any (fun x => x.1.exposuresFit p) = true ↔
          db₁.exposesOnce (counts.getD (db₁.terminalCounts run.id)) run = true) := by
      intro db₁ hflush hacc
      rw [Execution.accepted, Bool.and_eq_true] at hacc
      have hf : Fitting p (s.base.db.finishLease e.shardId e.leaseToken o) :=
        ⟨hs.fitting.hosts, hs.fitting.services, hs.fitting.exposures⟩
      rw [Execution.commitFinish_eq hpc hrun howns hflush, exposesOnce_iff,
        ← finalizeWith_isSome_iff "worker" now]
      cases hfin : db₁.finalizeWith (counts.getD (db₁.terminalCounts run.id)) run "worker" now with
      | none => exact iff_of_false (fun h => by cases h) fun h => by cases h
      | some x => exact iff_of_true ((hf.flush hacc.1 hflush).finalize hfin).exposures rfl
    have hflushed : e.accepted p s.base.db = true →
        ∃ db₁, e.flush (s.base.db.finishLease e.shardId e.leaseToken o) = some db₁ := by
      intro hacc
      rw [Execution.accepted, Bool.and_eq_true] at hacc
      obtain ⟨db₁, hflush⟩ := Option.isSome_iff_exists.mp hacc.2
      rw [Db.finishLease, Execution.flush_shards, hflush]
      exact ⟨_, rfl⟩
    rw [raises_commitFinish hpc, Bool.and_eq_true, ← haccepted, hrun, Option.all_some]
    constructor
    · intro h
      obtain ⟨hacc, hany⟩ := h howns
      obtain ⟨db₁, hflush⟩ := hflushed hacc
      rw [hflush, Option.all_some]
      exact ⟨hacc, (hfinal db₁ hflush hacc).mp hany⟩
    · rintro ⟨hacc, hall⟩ -
      obtain ⟨db₁, hflush⟩ := hflushed hacc
      rw [hflush, Option.all_some] at hall
      exact ⟨hacc, (hfinal db₁ hflush hacc).mpr hall⟩
  · next hbeat hfinish hcount hcommit =>
    unfold Execution.raises
    split
    · next hpc => exact absurd hpc (hbeat _ _ rfl)
    · next hpc => exact absurd hpc (hfinish _ _ rfl)
    · next hpc => exact absurd hpc (hcount _ rfl)
    · next hpc => exact absurd hpc (hcommit _ _ _ rfl)
    · exact iff_of_true rfl rfl

/-! ## Steps -/

/-- A started execution that ends without an exception while it owns its shard has
written its outcome. -/
theorem step_ended {db db' : Db} {e e' : Execution} {a : WorkerAction}
    (h : e.step db settings a = some (db', e')) (hstarted : e.pc.started = true)
    (howns : e.owns db = true) (hover : e'.pc.ended = true) :
    ∃ o counts r, e.pc = .finishing o counts ∧ db.shards.get e.shardId = some r ∧
      db'.shards.get e.shardId = some (r.finish o) := by
  rcases Execution.step_cases h with ⟨-, hmove⟩ | hc
  · cases hmove with
    | missing hpc =>
      rw [hpc] at hstarted
      cases hstarted
    | lost hlost =>
      rw [howns] at hlost
      cases hlost
    | storeDiscovery _ _ hnext =>
      split at hnext
      · rw [hnext] at hover
        cases hover
      · rw [hnext] at hover
        cases hover
    | addHost hpc =>
      have hover' : e.pc.ended = true := hover
      rw [hpc] at hover'
      cases hover'
    | _ => cases hover
  · cases hc with
    | abandon hpc =>
      rw [hpc] at hstarted
      cases hstarted
    | start => cases hover
    | beat _ _ _ _ _ hpc =>
      rcases hpc with ⟨hpc, -⟩ | ⟨hpc, -⟩
      · rw [hpc] at hover
        cases hover
      · rw [hpc] at hover
        cases hover
    | beatLost _ _ _ _ hpc =>
      rcases hpc with ⟨hpc, -⟩ | ⟨hpc, -⟩
      · rw [hpc] at hover
        cases hover
      · rw [hpc] at hover
        cases hover
    | @finish o counts run now db₁ _ run' hpc _ _ hflush hfin =>
      obtain ⟨r, hr, -, -⟩ := Db.currentLease_iff.mp howns
      refine ⟨o, counts, r, hpc, hr, ?_⟩
      have hrow := Execution.get_finishLease_of_owns o howns hr
      obtain ⟨_, _, _, -, -, -, rfl⟩ := Execution.flush_frame hflush
      rw [(Db.finalizeWith_frame hfin).1]
      exact hrow

theorem started_not_ended {pc : Pc} (h : pc.started = true) : pc.ended = false := by
  cases pc <;> first | rfl | cases h

theorem ended_eq_false {i : Nat} {e : Execution} (he : s.base.executions[i]? = some e)
    (hstarted : e.pc.started = true) : s.ended i = false ↔ i ∉ s.crashed := by
  rw [Scanning.ended, he, Option.any_some, started_not_ended hstarted, Bool.or_false,
    decide_eq_false_iff_not]

/-- A step of the base system ends executions only by their own last commit. -/
theorem ends_base {base : State} {b : Action} (hs : Scanned p s)
    (h : s.base.step settings b = some base) : Ends ⟨s, a, { s with base := base }⟩ := by
  refine ⟨fun i e he hstarted hrunning howns hended => ?_, rfl⟩
  obtain ⟨e', he', rfl | ⟨c, -, hstep⟩⟩ := execution_next h he
  · exact absurd hended (Bool.eq_false_iff.mp ((ended_eq_false he' hstarted).mpr
      ((ended_eq_false he hstarted).mp hrunning)))
  · have hover : e'.pc.ended = true := by
      have hin := (ended_eq_false he hstarted).mp hrunning
      have hended' : ({ s with base := base } : Scanning).ended i = true := hended
      rw [Scanning.ended, Bool.or_eq_true, decide_eq_true_eq] at hended'
      have hany := hended'.resolve_left hin
      rw [show ({ s with base := base } : Scanning).base.executions[i]? = some e' from he'] at hany
      exact hany
    obtain ⟨o, counts, r, hpc, -, hrow⟩ := step_ended hstep hstarted howns hover
    refine ⟨r.finish o, hrow, ?_⟩
    have hleft := hs.finishing e (List.mem_of_getElem? he) o counts hpc
    cases o <;> exact hleft

/-- An exception that ends the task of an owner leaves the shard running. -/
theorem ends_crash {i : Nat} {e : Execution} (he : s.base.executions[i]? = some e)
    (hstarted : e.pc.started = true) (hin : i ∉ s.crashed) :
    Ends ⟨s, a, s.crash i⟩ ↔ e.owns s.base.db = false := by
  constructor
  · intro hends
    refine Bool.eq_false_iff.mpr fun howns => ?_
    have hended : (s.crash i).ended i = true := by
      rw [Scanning.ended, Scanning.crash, decide_eq_true List.mem_cons_self, Bool.true_or]
    obtain ⟨r, hr, hleft⟩ := hends.shards i e he hstarted ((ended_eq_false he hstarted).mpr hin)
      howns hended
    obtain ⟨q, hq, hrunning, -⟩ := Db.currentLease_iff.mp howns
    have hsame : s.base.db.shards.get e.shardId = some r := hr
    rw [hq] at hsame
    cases hsame
    rw [hrunning] at hleft
    cases hleft
  · intro hlost
    refine ⟨fun j e' he' hstarted' hrunning howns hended => ?_, rfl⟩
    by_cases hij : j = i
    · subst hij
      rw [he] at he'
      cases he'
      rw [hlost] at howns
      cases howns
    · have hin' : j ∉ (s.crash i).crashed := by
        rw [Scanning.crash, List.mem_cons, not_or]
        exact ⟨hij, (ended_eq_false he' hstarted').mp hrunning⟩
      have hkept := (ended_eq_false (s := s.crash i) he' hstarted').mpr hin'
      exact absurd hended (Bool.eq_false_iff.mp hkept)

theorem raises_started {db : Db} {e : Execution} {b : WorkerAction}
    (h : e.raises p settings db b = true) : e.pc.started = true := by
  unfold Execution.raises at h
  split at h
  · next hpc => rw [hpc]; rfl
  · next hpc => rw [hpc]; rfl
  · next hpc => rw [hpc]; rfl
  · next hpc => rw [hpc]; rfl
  · cases h

/-- The execution that has read Nmap's document goes on. -/
theorem recorded_pc {db db' : Db} {e e' : Execution} {run : ScanRun} {error : Option String}
    (hpc : e.pc = .recording .nmap) (hrun : e.run = some run)
    (h : e.step db settings (recorded error) = some (db', e')) : e'.pc.ended = false := by
  obtain ⟨-, ⟨text, rfl⟩ | ⟨-, rfl⟩⟩ := step_recorded hpc hrun h
  · rfl
  · rfl

/-- The step lemma. -/
theorem ends_iff (hs : Scanned p s) (h : s.step p settings a = some s') :
    Ends ⟨s, a, s'⟩ ↔ s.storable p settings a = true := by
  cases a with
  | single a =>
    cases a with
    | worker i b =>
      obtain ⟨e, he, hin, hrecords, hcase⟩ := scanning_worker h
      have hstorable : s.storable p settings (.single (.worker i b)) = true ↔
          (e.owns s.base.db = true → e.raises p settings s.base.db b = false) := by
        rw [Scanning.storable, he, Option.all_some, Bool.or_eq_true, Bool.not_eq_true']
        by_cases howns : e.owns s.base.db = true
        · rw [raises_iff hs he howns]
          simp [howns]
        · simp [howns]
      rw [hstorable]
      rcases hcase with ⟨hraises, rfl⟩ | ⟨hraises, base, hbase, rfl⟩
      · rw [ends_crash he (raises_started hraises) hin, hraises]
        simp
      · exact iff_of_true (ends_base hs hbase) fun _ => hraises
    | finalizeNext q now =>
      obtain ⟨run, rest, hruns, hin, hcase⟩ := scanning_finalizeNext h
      rw [Scanning.storable, hruns, Option.all_some, List.head?_cons, Option.all_some,
        exposesOnce_iff, ← finalizeWith_isSome_iff "scheduler" now]
      rcases hcase with ⟨base, hbase, -, rfl⟩ | ⟨hnone, rfl⟩
      · obtain ⟨run', rest', db, run'', hruns', hfin, -⟩ := step_finalizeNext hbase
        rw [hruns] at hruns'
        cases hruns'
        refine iff_of_true (ends_base hs hbase) ?_
        exact Option.isSome_iff_exists.mpr ⟨_, hfin⟩
      · refine iff_of_false (fun hends => ?_) fun hsome => ?_
        · have hpasses : q :: s.aborted = s.aborted := hends.passes
          exact List.cons_ne_self _ _ hpasses
        · obtain ⟨⟨db, run'⟩, hfin⟩ := Option.isSome_iff_exists.mp hsome
          have hbase : s.base.step settings (.finalizeNext q now) =
              some { s.base with
                db := db, reconciliations := s.base.reconciliations.set q rest } := by
            simp only [State.step, hruns, Option.bind_eq_bind, Option.bind_some,
              Db.finalizeTerminalRun, hfin]
            rfl
          have hfit := (hs.fitting.finalize hfin).exposures
          exact absurd ((hnone _ hbase).symm.trans hfit) (by decide)
    | _ =>
      obtain ⟨base, hbase, rfl⟩ := scanning_single h (fun _ _ hab => by cases hab)
        fun _ _ hab => by cases hab
      exact iff_of_true (ends_base hs hbase) rfl
  | readDiscovery i document =>
    obtain ⟨e, b, base, -, -, -, hbase, rfl, -⟩ := scanning_readDiscovery h
    exact iff_of_true (ends_base hs hbase) rfl
  | readConfirmation i document drawn stored =>
    obtain ⟨e, he, hpc, hin, hsuits, hnodup, hfresh, hcase⟩ := scanning_readConfirmation h
    have hmem := List.mem_of_getElem? he
    have hstarted : e.pc.started = true := by
      rw [hpc]
      rfl
    obtain ⟨run, hrun⟩ := Option.isSome_iff_exists.mp ((hs.loaded e hmem).started hstarted)
    have hnormalize := normalize_iff settings hs he hpc hrun hsuits hnodup hfresh
    rw [Scanning.storable, he, Option.all_some, Bool.or_eq_true, Bool.not_eq_true', ← hnormalize]
    rcases hcase with ⟨hnone, rfl⟩ | ⟨e₁, db, e', hrows, hlast, rfl⟩
    · rw [ends_crash he hstarted hin, hnone]
      simp
    · rw [hrows]
      refine iff_of_true ⟨fun j e₀ he₀ hstarted₀ hrunning howns hended => ?_, rfl⟩ (Or.inr rfl)
      have hin₀ := (ended_eq_false he₀ hstarted₀).mp hrunning
      have hany := (Bool.or_eq_true_iff.mp hended).resolve_left fun hcrashed =>
        hin₀ (of_decide_eq_true hcrashed)
      have hset : ((s.base.executions.set i e')[j]?).any (fun e => e.pc.ended) = true := hany
      by_cases hij : i = j
      · subst hij
        rw [he] at he₀
        cases he₀
        have hframe := normalize_rows hpc hrun hrows
        have hpc₁ : e₁.pc = .recording .nmap := by
          rw [hframe]
          exact hpc
        have hrun₁ : e₁.run = some run := by
          rw [hframe]
          exact hrun
        rw [List.getElem?_set_self (List.getElem?_eq_some_iff.mp he).1, Option.any_some,
          recorded_pc hpc₁ hrun₁ hlast] at hset
        cases hset
      · rw [List.getElem?_set_ne hij, he₀, Option.any_some, started_not_ended hstarted₀] at hset
        cases hset

end

/-! ## An execution left alone -/

/-- What the scanners of an execution leave behind, the ids drawn for the rows, and
what becomes of the upload of Nmap's artifact. -/
structure Readings where
  discovery : Document
  confirmation : Document
  drawn : List (Uuid × List Uuid)
  stored : Option String
  now : DateTime

/-- The statement an execution comes to once its scanner process has exited. -/
def Execution.following (r : Readings) (i : Nat) (e : Execution) : ScanAction :=
  match e.pc with
  | .polling _ => .single (.worker i .exit)
  | .refreshed _ => .single (.worker i .checkLease)
  | .owned _ => .single (.worker i (.heartbeat r.now))
  | .beating _ _ => .single (.worker i .commitHeartbeat)
  | .exited _ => .single (.worker i (if e.cancelled then .finish r.now else .recheck))
  | .recording .masscan => .readDiscovery i r.discovery
  | .recording .nmap => .readConfirmation i r.confirmation r.drawn r.stored
  | .discovered => .single (.worker i .storeDiscovery)
  | .results => .single (.worker i .confirm)
  | .confirmed | .failing _ => .single (.worker i (.finish r.now))
  | _ => .single (.worker i (.commitFinish r.now))

def Scanning.following (r : Readings) (i : Nat) (s : Scanning) : ScanAction :=
  (s.base.executions[i]?).elim (.single .loadActive) (Execution.following r i)

/-- How many statements are left at most. -/
def Pc.rank : Pc → Nat
  | .refreshed .masscan => 16
  | .owned .masscan => 15
  | .beating .masscan _ => 14
  | .polling .masscan => 13
  | .exited .masscan => 12
  | .recording .masscan => 11
  | .discovered => 10
  | .refreshed .nmap => 9
  | .owned .nmap => 8
  | .beating .nmap _ => 7
  | .polling .nmap => 6
  | .exited .nmap => 5
  | .recording .nmap => 4
  | .results => 3
  | .confirmed | .failing _ => 2
  | _ => 1

def Scanning.rank (i : Nat) (s : Scanning) : Nat :=
  (s.base.executions[i]?).elim 0 fun e => e.pc.rank

/-- Execution `i` scans and owns its shard, and ids are there for the rows it will
add. -/
structure Alone (p : Platform) (r : Readings) (i : Nat) (s : Scanning) (e : Execution) :
    Prop where
  scanned : Scanned p s
  execution : s.base.executions[i]? = some e
  started : e.pc.started = true
  owns : e.owns s.base.db = true
  running : i ∉ s.crashed
  suits : Suits (normalizeNmapXml p.int r.confirmation).1 r.drawn
  nodup : (drawnIds r.drawn).Nodup
  fresh : 4 ≤ e.pc.rank → ∀ id ∈ drawnIds r.drawn, id ∉ s.used

/-- The next statement has been taken: the task has ended, or less is left of it. -/
def Proceeds (p : Platform) (settings : Settings) (r : Readings) (i : Nat) (s : Scanning)
    (e : Execution) (a : ScanAction) : Prop :=
  ∃ s', s.step p settings a = some s' ∧ (s'.ended i = false →
    ∃ e', Alone p r i s' e' ∧ e'.pc.rank < e.pc.rank)

section
variable {p : Platform} {settings : Settings} {r : Readings} {i : Nat} {s : Scanning}
  {e : Execution}

theorem ended_crash (s : Scanning) (i : Nat) : (s.crash i).ended i = true := by
  rw [Scanning.ended, Scanning.crash, decide_eq_true List.mem_cons_self, Bool.true_or]

/-- A step of the base system that execution `i` takes. -/
theorem Alone.advance (ha : Alone p r i s e) {a : ScanAction} {b : WorkerAction} {db : Db}
    {e' : Execution} (hstep : e.step s.base.db settings b = some (db, e'))
    (h : s.step p settings a = s.advance settings i b)
    (hnext : e'.pc.ended = false →
      e'.pc.started = true ∧ e'.owns db = true ∧ e'.pc.rank < e.pc.rank) :
    Proceeds p settings r i s e a := by
  have hbase : s.base.step settings (.worker i b) =
      some { s.base with db := db, executions := s.base.executions.set i e' } := by
    simp only [State.step, ha.execution, Option.bind_eq_bind, Option.bind_some, hstep]
    rfl
  rw [Scanning.advance, hbase, Option.map_some] at h
  have hset : (s.base.executions.set i e')[i]? = some e' :=
    List.getElem?_set_self (List.getElem?_eq_some_iff.mp ha.execution).1
  refine ⟨_, h, fun hrunning => ?_⟩
  have hover : e'.pc.ended = false := by
    rw [Scanning.ended, Bool.or_eq_false_iff] at hrunning
    have hany : ((s.base.executions.set i e')[i]?).any (fun e => e.pc.ended) = false :=
      hrunning.2
    rw [hset] at hany
    exact hany
  obtain ⟨hstarted, howns, hlt⟩ := hnext hover
  exact ⟨e', ⟨scanned_step ha.scanned h, hset, hstarted, howns, ha.running, ha.suits, ha.nodup,
    fun hle => ha.fresh (Nat.le_trans hle (Nat.le_of_lt hlt))⟩, hlt⟩

/-- A statement of execution `i` that may raise. -/
theorem Alone.worker (ha : Alone p r i s e) {b : WorkerAction} (hrecords : b.records = false)
    (hnext : e.raises p settings s.base.db b = false →
      ∃ db e', e.step s.base.db settings b = some (db, e') ∧ (e'.pc.ended = false →
        e'.pc.started = true ∧ e'.owns db = true ∧ e'.pc.rank < e.pc.rank)) :
    Proceeds p settings r i s e (.single (.worker i b)) := by
  have hguard : ¬ (i ∈ s.crashed ∨ b.records = true) := by
    rw [hrecords]
    exact fun h => h.elim ha.running fun h => by cases h
  have hstep : s.step p settings (.single (.worker i b)) =
      if e.raises p settings s.base.db b then some (s.crash i) else s.advance settings i b := by
    simp only [Scanning.step, ha.execution, Option.bind_eq_bind, Option.bind_some, if_neg hguard]
  by_cases hraises : e.raises p settings s.base.db b = true
  · rw [if_pos hraises] at hstep
    refine ⟨_, hstep, fun hrunning => ?_⟩
    rw [ended_crash] at hrunning
    cases hrunning
  · rw [if_neg hraises] at hstep
    obtain ⟨db, e', hmove, hafter⟩ := hnext (Bool.eq_false_iff.mpr hraises)
    exact ha.advance hmove hstep hafter

/-- An owner whose heartbeat is committed still owns its shard. -/
theorem owns_beat {db db' : Db} {e' : Execution}
    (h : e.step db settings .commitHeartbeat = some (db', e')) (howns : e.owns db = true) :
    e'.owns db' = true := by
  obtain ⟨hshard, htoken⟩ := Execution.step_lease h
  rw [Execution.owns, hshard, htoken]
  obtain ⟨r, hr, hrunning, htoken⟩ := Db.currentLease_iff.mp howns
  cases Execution.step_commitHeartbeat h with
  | @beat stage now run _ _ hpc hrun _ hflush he hpc' =>
    obtain ⟨_, _, _, -, -, -, rfl⟩ := Execution.flush_frame hflush
    have hrow := Db.get_heartbeat db e.shardId e.leaseToken now e.shardId
    rw [hr, Option.map_some] at hrow
    refine Db.currentLease_iff.mpr ⟨_, hrow, ?_, ?_⟩
    · split <;> exact hrunning
    · split <;> exact htoken
  | beatLost hpc hrun hflush he hpc' =>
    obtain ⟨_, _, _, -, -, -, rfl⟩ := Execution.flush_frame hflush
    exact howns

theorem Alone.beat (ha : Alone p r i s e) {stage : Stage} {beat : Option DateTime}
    (hpc : e.pc = .beating stage beat) :
    Proceeds p settings r i s e (.single (.worker i .commitHeartbeat)) := by
  obtain ⟨run, hrun⟩ := Option.isSome_iff_exists.mp
    ((ha.scanned.loaded e (List.mem_of_getElem? ha.execution)).started ha.started)
  refine ha.worker rfl fun hraises => ?_
  have hacc := (raises_commitHeartbeat hpc).mp hraises (Or.inr ha.owns)
  rw [Execution.accepted, Bool.and_eq_true] at hacc
  obtain ⟨db₁, hflush⟩ := Option.isSome_iff_exists.mp hacc.2
  have hflush' : ∀ now, e.flush (s.base.db.heartbeat e.shardId e.leaseToken now) =
      some { db₁ with
        shards := (s.base.db.heartbeat e.shardId e.leaseToken now).shards } := by
    intro now
    rw [Db.heartbeat, Execution.flush_shards, hflush]
    rfl
  obtain ⟨⟨db', e'⟩, hstep⟩ : ∃ x, e.step s.base.db settings .commitHeartbeat = some x := by
    simp only [Execution.step, hpc, hrun]
    cases beat with
    | none =>
      dsimp only
      rw [hflush]
      exact ⟨_, rfl⟩
    | some now =>
      dsimp only
      rw [if_pos ha.owns, hflush']
      exact ⟨_, rfl⟩
  refine ⟨db', e', hstep, fun _ => ?_⟩
  have howns := owns_beat hstep ha.owns
  have hnext : e'.pc = .exited stage ∨ e'.pc = .polling stage := by
    cases Execution.step_commitHeartbeat hstep with
    | beat hpc₀ _ _ _ _ hpc' =>
      rw [hpc] at hpc₀
      cases hpc₀
      exact hpc'.imp And.left And.left
    | beatLost hpc₀ _ _ _ hpc' =>
      rw [hpc] at hpc₀
      cases hpc₀
      exact hpc'.imp And.left And.left
  rcases hnext with hpc' | hpc'
  · rw [hpc, hpc']
    exact ⟨rfl, howns, by cases stage <;> simp [Pc.rank]⟩
  · rw [hpc, hpc']
    exact ⟨rfl, howns, by cases stage <;> simp [Pc.rank]⟩

/-- The UPDATE that writes the outcome. -/
theorem Alone.finish (ha : Alone p r i s e) {now : DateTime}
    (hrank : 2 ≤ e.pc.rank)
    (hout : e.raises p settings s.base.db (.finish now) = false →
      ∃ o, e.outcome settings now = some o) :
    Proceeds p settings r i s e (.single (.worker i (.finish now))) := by
  refine ha.worker rfl fun hraises => ?_
  obtain ⟨o, ho⟩ := hout hraises
  refine ⟨s.base.db, { e with pc := .finishing o none }, ?_, fun _ => ⟨rfl, ha.owns, hrank⟩⟩
  simp only [Execution.step, ho, ha.owns, if_true]

/-- The last commit. -/
theorem Alone.commit (ha : Alone p r i s e) {o : Outcome} {counts : Option TerminalCounts}
    {now : DateTime} (hpc : e.pc = .finishing o counts) :
    Proceeds p settings r i s e (.single (.worker i (.commitFinish now))) := by
  refine ha.worker rfl fun hraises => ?_
  obtain ⟨-, hany⟩ := (raises_commitFinish hpc).mp hraises ha.owns
  obtain ⟨⟨db, e'⟩, hstep, -⟩ := (Option.any_eq_true _ _).mp hany
  refine ⟨db, e', hstep, fun hover => ?_⟩
  cases Execution.step_commitFinish hstep with
  | finish => cases hover

/-- A statement that only moves the program counter. -/
theorem Alone.move (ha : Alone p r i s e) (pc : Pc) {b : WorkerAction}
    (hrecords : b.records = false)
    (hstep : e.step s.base.db settings b = some (s.base.db, { e with pc := pc }))
    (hstarted : pc.started = true) (hrank : pc.rank < e.pc.rank) :
    Proceeds p settings r i s e (.single (.worker i b)) :=
  ha.worker hrecords fun _ => ⟨s.base.db, _, hstep, fun _ => ⟨hstarted, ha.owns, hrank⟩⟩

/-- Reading Nmap's document. -/
theorem Alone.confirmation (ha : Alone p r i s e) (hpc : e.pc = .recording .nmap) :
    Proceeds p settings r i s e (.readConfirmation i r.confirmation r.drawn r.stored) := by
  have hl := ha.scanned.loaded e (List.mem_of_getElem? ha.execution)
  obtain ⟨run, hrun⟩ := Option.isSome_iff_exists.mp (hl.started ha.started)
  have hfresh := ha.fresh (by rw [hpc]; decide)
  have hguard : e.pc = .recording .nmap ∧ i ∉ s.crashed ∧
      Suits (normalizeNmapXml p.int r.confirmation).1 r.drawn ∧ (drawnIds r.drawn).Nodup ∧
        ∀ id ∈ drawnIds r.drawn, id ∉ s.used :=
    ⟨hpc, ha.running, ha.suits, ha.nodup, hfresh⟩
  cases hrows : e.normalize p settings s.base.db
      (identified (normalizeNmapXml p.int r.confirmation).1 r.drawn) with
  | none =>
    have hstep : s.step p settings (.readConfirmation i r.confirmation r.drawn r.stored) =
        some (s.crash i) := by
      simp only [Scanning.step, ha.execution, Option.bind_eq_bind, Option.bind_some, hrows]
      exact if_pos hguard
    refine ⟨_, hstep, fun hrunning => ?_⟩
    rw [ended_crash] at hrunning
    cases hrunning
  | some e₁ =>
    have hstep : s.step p settings (.readConfirmation i r.confirmation r.drawn r.stored) =
        (e₁.step s.base.db settings
          (recorded ((normalizeNmapXml p.int r.confirmation).2.or r.stored))).map fun x =>
            { s with
              base := { s.base with db := x.1, executions := s.base.executions.set i x.2 }
              used := s.used ++ drawnIds r.drawn } := by
      simp only [Scanning.step, ha.execution, Option.bind_eq_bind, Option.bind_some, hrows]
      exact if_pos hguard
    have hframe := normalize_rows hpc hrun hrows
    have hpc₁ : e₁.pc = .recording .nmap := by
      rw [hframe]
      exact hpc
    have hrun₁ : e₁.run = some run := by
      rw [hframe]
      exact hrun
    have howns₁ : e₁.owns s.base.db = true := by
      rw [hframe]
      exact ha.owns
    obtain ⟨e', hlast, hstarted, howns, hrank⟩ : ∃ e', e₁.step s.base.db settings
        (recorded ((normalizeNmapXml p.int r.confirmation).2.or r.stored)) =
          some (s.base.db, e') ∧ e'.pc.started = true ∧ e'.owns s.base.db = true ∧
            e'.pc.rank < 4 := by
      cases (normalizeNmapXml p.int r.confirmation).2.or r.stored with
      | none =>
        simp only [recorded, Execution.step, hpc₁, hrun₁]
        exact ⟨_, rfl, rfl, howns₁, by simp [Pc.rank]⟩
      | some error =>
        simp only [recorded, Execution.step, hpc₁, Pc.inTry, if_true]
        exact ⟨_, rfl, rfl, howns₁, by simp [Pc.rank]⟩
    rw [hlast, Option.map_some] at hstep
    refine ⟨_, hstep, fun _ => ⟨e', ⟨scanned_step ha.scanned hstep, ?_, hstarted, howns,
      ha.running, ha.suits, ha.nodup, fun hle => ?_⟩, ?_⟩⟩
    · exact List.getElem?_set_self (List.getElem?_eq_some_iff.mp ha.execution).1
    · exact absurd hrank (Nat.not_lt.mpr hle)
    · rw [hpc]
      exact hrank

/-- Reading Masscan's document. -/
theorem Alone.discovery (ha : Alone p r i s e) (hpc : e.pc = .recording .masscan) :
    Proceeds p settings r i s e (.readDiscovery i r.discovery) := by
  have hl := ha.scanned.loaded e (List.mem_of_getElem? ha.execution)
  obtain ⟨run, hrun⟩ := Option.isSome_iff_exists.mp (hl.started ha.started)
  cases hdocument : readMasscanXml p.int r.discovery with
  | error error =>
    have hstep : e.step s.base.db settings (.fail error) =
        some (s.base.db, { e with pc := .failing error }) := by
      simp only [Execution.step, hpc, Pc.inTry, if_true]
    refine ha.advance hstep ?_ fun _ => ⟨rfl, ha.owns, ?_⟩
    · simp only [Scanning.step, if_neg ha.running, ha.execution, Option.map_some, hpc, hdocument]
    · rw [hpc]
      simp [Pc.rank]
  | ok observations =>
    obtain ⟨e', hstep, hpc', howns⟩ : ∃ e', e.step s.base.db settings
        (.addDiscoveries observations) = some (s.base.db, e') ∧ e'.pc = .discovered ∧
          e'.owns s.base.db = true := by
      simp only [Execution.step, hpc, hrun]
      exact ⟨_, rfl, rfl, ha.owns⟩
    refine ha.advance hstep ?_ fun _ => ?_
    · simp only [Scanning.step, if_neg ha.running, ha.execution, Option.map_some, hpc, hdocument]
    · rw [hpc, hpc']
      exact ⟨rfl, howns, by decide⟩

/-- The upload of Masscan's artifact. -/
theorem Alone.storeDiscovery (ha : Alone p r i s e) (hpc : e.pc = .discovered) :
    Proceeds p settings r i s e (.single (.worker i .storeDiscovery)) := by
  have hl := ha.scanned.loaded e (List.mem_of_getElem? ha.execution)
  obtain ⟨run, hrun⟩ := Option.isSome_iff_exists.mp (hl.started ha.started)
  obtain ⟨e', hstep, hnext, howns⟩ : ∃ e', e.step s.base.db settings .storeDiscovery =
      some (s.base.db, e') ∧ (e'.pc = .results ∨ e'.pc = .polling .nmap) ∧
        e'.owns s.base.db = true := by
    simp only [Execution.step, hpc, hrun]
    split
    · exact ⟨_, rfl, Or.inl rfl, ha.owns⟩
    · exact ⟨_, rfl, Or.inr rfl, ha.owns⟩
  refine ha.worker rfl fun _ => ⟨s.base.db, e', hstep, fun _ => ?_⟩
  rcases hnext with hpc' | hpc'
  · rw [hpc, hpc']
    exact ⟨rfl, howns, by decide⟩
  · rw [hpc, hpc']
    exact ⟨rfl, howns, by decide⟩

/-- Whatever its scanners leave, an owner has a next statement, and less is left after
it. -/
theorem Alone.proceeds (settings : Settings) (ha : Alone p r i s e) :
    Proceeds p settings r i s e (e.following r i) := by
  have hstarted := ha.started
  unfold Execution.following
  cases hpc : e.pc with
  | polling stage =>
    refine ha.move (.exited stage) rfl ?_ rfl ?_
    · simp only [Execution.step, hpc]
    · rw [hpc]
      cases stage <;> decide
  | refreshed stage =>
    refine ha.move (.owned stage) rfl ?_ rfl ?_
    · simp only [Execution.step, hpc, ha.owns, if_true]
    · rw [hpc]
      cases stage <;> decide
  | owned stage =>
    refine ha.move (.beating stage (some r.now)) rfl ?_ rfl ?_
    · simp only [Execution.step, hpc, ha.owns, if_true]
    · rw [hpc]
      cases stage <;> simp [Pc.rank]
  | beating stage beat => exact ha.beat hpc
  | exited stage =>
    by_cases hcancelled : e.cancelled = true
    · dsimp only
      rw [if_pos hcancelled]
      refine ha.finish ?_ fun _ => ⟨.cancelled, ?_⟩
      · rw [hpc]
        cases stage <;> decide
      · simp only [Execution.outcome, hpc, hcancelled, if_true]
    · dsimp only
      rw [if_neg hcancelled]
      refine ha.move (.recording stage) rfl ?_ rfl ?_
      · simp only [Execution.step, hpc, ha.owns, if_neg hcancelled, if_true]
      · rw [hpc]
        cases stage <;> decide
  | recording stage =>
    cases stage with
    | masscan => exact ha.discovery hpc
    | nmap => exact ha.confirmation hpc
  | discovered => exact ha.storeDiscovery hpc
  | results =>
    refine ha.move .confirmed rfl ?_ rfl ?_
    · simp only [Execution.step, hpc, ha.owns, if_true]
    · rw [hpc]
      decide
  | confirmed =>
    refine ha.finish ?_ fun _ => ⟨.completed e.artifactKey e.discoveryArtifactKey, ?_⟩
    · rw [hpc]
      decide
    · simp only [Execution.outcome, hpc]
  | failing error =>
    have hl := ha.scanned.loaded e (List.mem_of_getElem? ha.execution)
    obtain ⟨run, hrun⟩ := Option.isSome_iff_exists.mp (hl.started ha.started)
    obtain ⟨shard, hshard, -⟩ := hl.run run hrun
    refine ha.finish ?_ fun _ => ?_
    · rw [hpc]
      simp [Pc.rank]
    · simp only [Execution.outcome, hpc, hshard]
      split <;> exact ⟨_, rfl⟩
  | finishing o counts => exact ha.commit hpc
  | _ =>
    rw [hpc] at hstarted
    cases hstarted

/-- Left alone, an owner ends. -/
theorem Alone.ends (ha : Alone p r i s e) (settings : Settings) :
    ∃ tr u, Path (Scanning.step p settings) s tr u ∧
      (∀ x ∈ tr, x.act = x.pre.following r i) ∧ u.ended i = true ∧
      tr.length ≤ e.pc.rank + 1 := by
  have hrank : Scanning.rank i s = e.pc.rank := by
    rw [Scanning.rank, ha.execution]
    rfl
  rw [← hrank]
  refine Path.ends_of_rank (I := fun s => ∃ e, Alone p r i s e) ?_ ⟨e, ha⟩
  rintro s ⟨e, ha⟩ -
  obtain ⟨s', hstep, hafter⟩ := ha.proceeds settings
  have hfollowing : s.following r i = e.following r i := by
    rw [Scanning.following, ha.execution]
    rfl
  rw [hfollowing]
  refine ⟨s', hstep, fun hrunning => ?_⟩
  obtain ⟨e', ha', hlt⟩ := hafter hrunning
  refine ⟨⟨e', ha'⟩, ?_⟩
  rw [Scanning.rank, Scanning.rank, ha.execution, ha'.execution]
  exact hlt

end

/-- Every owner's task comes to its end, whatever its scanners leave behind. -/
def Scanning.GoesOn (p : Platform) (settings : Settings) (s : Scanning) : Prop :=
  ∀ (r : Readings) (i : Nat) (e : Execution), s.base.executions[i]? = some e →
    e.pc.started = true → e.owns s.base.db = true → i ∉ s.crashed →
    Suits (normalizeNmapXml p.int r.confirmation).1 r.drawn → (drawnIds r.drawn).Nodup →
    (∀ id ∈ drawnIds r.drawn, id ∉ s.used) →
      ∃ tr u, Path (Scanning.step p settings) s tr u ∧
        (∀ x ∈ tr, x.act = x.pre.following r i) ∧ u.ended i = true

namespace Demo

def port (number : String) : Element :=
  .node "port" [("protocol", "tcp"), ("portid", number)]
    [.node "state" [("state", "open")] [], .node "service" [("name", "https")] []]

/-- Nmap's document for a host with the given ports open. -/
def report (ports : List String) : Document :=
  .ok (.node "nmaprun" [] [.node "host" [] [
    .node "status" [("state", "up")] [],
    .node "address" [("addr", "10.0.0.5"), ("addrtype", "ipv4")] [],
    .node "ports" [] (ports.map port)]])

/-- A run of one shard, whose scanner has exited. -/
def exited : List ScanAction :=
  (.createRun "scope" "profile" "operator" "run" [("s1", "10.0.0.0/24")] ::
    (dispatch 0 "t1" "e1" 0 ++ publish 0 0 ++ begin 0 "s1" "t1" 0 ++
      [.exit, .recheck].map (Action.worker 0))).map .single

def confirming : List ScanAction := [.confirm, .finish 1].map fun a => .single (.worker 0 a)

end Demo

end TransportLookout
