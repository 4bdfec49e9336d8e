/-
When the database takes the rows an execution holds back.

Rows get their ids from `uuid4`, and the candidates of one document are distinct.
So a flush fails only where a value does not fit its column, or where a candidate
is in the table already: `Execution.insertable`.
-/
import TransportLookout.Safety.ResultFencing
import TransportLookout.System.Scanning

namespace TransportLookout

open Relational Trace

/-! ## Ids of rows -/

def Db.rowIds (db : Db) : List Uuid :=
  db.hosts.rows.map HostObservation.id ++ db.services.rows.map ServiceObservation.id

def Execution.rowIds (e : Execution) : List Uuid :=
  e.hosts.map HostObservation.id ++ e.services.map ServiceObservation.id

/-- The ids a step hands out. -/
def WorkerAction.rowIds : WorkerAction → List Uuid
  | .addHost host services => host.id :: services.map ServiceObservation.id
  | _ => []

def Action.rowIds : Action → List Uuid
  | .worker _ a => a.rowIds
  | _ => []

def State.rowIds (s : State) : List Uuid := s.db.rowIds ++ s.executions.flatMap Execution.rowIds

section
variable {settings : Settings}

theorem Execution.Commit.pending {db db' : Db} {e e' : Execution} {a : WorkerAction}
    (h : e.Commit db a db' e') :
    (e'.hosts = e.hosts ∧ e'.services = e.services ∧ e'.discoveries = e.discoveries ∧
      ∃ p q, db'.hosts = db.hosts.delete p ∧ db'.services = db.services.delete q) ∨
    (e'.hosts = [] ∧ e'.services = [] ∧ e'.discoveries = [] ∧
      db'.hosts.rows = db.hosts.rows ++ e.hosts ∧
      db'.services.rows = db.services.rows ++ e.services) := by
  cases h with
  | abandon =>
    refine Or.inl ⟨rfl, rfl, rfl, fun _ => false, fun _ => false, ?_, ?_⟩
    · exact (Table.delete_eq_self.mpr fun _ _ => rfl).symm
    · exact (Table.delete_eq_self.mpr fun _ _ => rfl).symm
  | start => exact Or.inl ⟨rfl, rfl, rfl, _, _, rfl, rfl⟩
  | beat _ _ _ hflush he _ =>
    obtain ⟨_, _, _, hhosts, hservices, -, rfl⟩ := flush_frame hflush
    rw [he]
    exact Or.inr ⟨rfl, rfl, rfl, Table.rows_append? hhosts, Table.rows_append? hservices⟩
  | beatLost _ _ hflush he _ =>
    obtain ⟨_, _, _, hhosts, hservices, -, rfl⟩ := flush_frame hflush
    rw [he]
    exact Or.inr ⟨rfl, rfl, rfl, Table.rows_append? hhosts, Table.rows_append? hservices⟩
  | finish _ _ _ hflush hfin =>
    obtain ⟨_, _, _, hhosts, hservices, -, rfl⟩ := flush_frame hflush
    refine Or.inr ⟨rfl, rfl, rfl, ?_⟩
    rw [(Db.finalizeWith_frame hfin).1]
    exact ⟨Table.rows_append? hhosts, Table.rows_append? hservices⟩

theorem Execution.Move.pending {db : Db} {e e' : Execution} {a : WorkerAction}
    (h : e.Move settings db a e') :
    (e'.hosts = e.hosts ∧ e'.services = e.services) ∨ (e'.hosts = [] ∧ e'.services = []) ∨
      ∃ host services, a = .addHost host services ∧
        e'.rowIds = e.hosts.map HostObservation.id ++ [host.id] ++
          (e.services.map ServiceObservation.id ++ services.map ServiceObservation.id) := by
  cases h with
  | missing => exact Or.inr (Or.inl ⟨rfl, rfl⟩)
  | lost => exact Or.inr (Or.inl ⟨rfl, rfl⟩)
  | @addHost run host services =>
    refine Or.inr (Or.inr ⟨host, services, rfl, ?_⟩)
    rw [Execution.rowIds, List.map_append, List.map_append, List.map_map]
    rfl
  | _ => exact Or.inl ⟨rfl, rfl⟩

/-- No step makes an id occur more often than it hands it out. -/
theorem Execution.count_rowIds {db db' : Db} {e e' : Execution} {a : WorkerAction}
    (h : e.step db settings a = some (db', e')) (id : Uuid) :
    db'.rowIds.count id + e'.rowIds.count id ≤
      db.rowIds.count id + e.rowIds.count id + a.rowIds.count id := by
  rcases step_cases h with ⟨rfl, hmove⟩ | hc
  · rcases hmove.pending with ⟨hhosts, hservices⟩ | ⟨hhosts, hservices⟩ |
      ⟨host, services, rfl, hids⟩
    · rw [Execution.rowIds, hhosts, hservices, ← Execution.rowIds]
      omega
    · rw [show e'.rowIds = [] by rw [Execution.rowIds, hhosts, hservices]; rfl]
      simp only [List.count_nil]
      omega
    · rw [hids]
      simp only [Execution.rowIds, WorkerAction.rowIds, List.count_append, List.count_cons,
        List.count_nil]
      omega
  · rcases hc.pending with ⟨hhosts, hservices, -, p, q, hdeleted, hdeleted'⟩ |
      ⟨hhosts, hservices, -, hrows, hrows'⟩
    · have hle : (db'.hosts.rows.map HostObservation.id).count id ≤
          (db.hosts.rows.map HostObservation.id).count id := by
        rw [hdeleted]
        exact (List.filter_sublist.map _).count_le id
      have hle' : (db'.services.rows.map ServiceObservation.id).count id ≤
          (db.services.rows.map ServiceObservation.id).count id := by
        rw [hdeleted']
        exact (List.filter_sublist.map _).count_le id
      simp only [Db.rowIds, Execution.rowIds, hhosts, hservices, List.count_append]
      omega
    · simp only [Db.rowIds, Execution.rowIds, hhosts, hservices, hrows, hrows', List.map_append,
        List.map_nil, List.count_append, List.count_nil]
      omega

theorem count_flatMap_set {α : Type} {l : List α} {i : Nat} {x : α} (f : α → List Uuid)
    (hx : l[i]? = some x) (y : α) (id : Uuid) :
    ((l.set i y).flatMap f).count id + (f x).count id =
      (l.flatMap f).count id + (f y).count id := by
  obtain ⟨hlt, rfl⟩ := List.getElem?_eq_some_iff.mp hx
  have hlt' : i < (l.set i y).length := by simpa using hlt
  have hold := ((List.getElem_cons_eraseIdx_perm hlt).flatMap_right f).count_eq id
  have hnew := ((List.getElem_cons_eraseIdx_perm hlt').flatMap_right f).count_eq id
  rw [List.getElem_set_self, List.eraseIdx_set_eq] at hnew
  rw [List.flatMap_cons, List.count_append] at hold hnew
  omega

theorem count_rowIds {s s' : State} {a : Action} (h : s.step settings a = some s') (id : Uuid) :
    s'.rowIds.count id ≤ s.rowIds.count id + a.rowIds.count id := by
  have hother : (∀ i b, a ≠ .worker i b) → s'.db.rowIds = s.db.rowIds := by
    intro ha
    obtain ⟨hhosts, hservices, -⟩ := results_frame h ha
    rw [Db.rowIds, hhosts, hservices]
    rfl
  rcases (step_effect h).executions with heq | ⟨shardId, token, _, _, rfl, -, heq⟩ |
    ⟨i, b, e, e', rfl, he, hstep, heq⟩
  · cases a with
    | worker i b =>
      obtain ⟨e, db, e', he, hstep, rfl⟩ := step_worker h
      have hle := Execution.count_rowIds hstep id
      have hset := count_flatMap_set Execution.rowIds he e' id
      simp only [State.rowIds, Action.rowIds, List.count_append]
      omega
    | _ =>
      rw [State.rowIds, State.rowIds, heq, hother fun _ _ hab => by cases hab]
      exact Nat.le_add_right _ _
  · rw [State.rowIds, State.rowIds, heq, hother (fun _ _ hab => by cases hab), List.flatMap_append,
      List.flatMap_singleton]
    simp only [List.count_append]
    exact Nat.le_add_right _ _
  · have hle := Execution.count_rowIds hstep id
    have hset := count_flatMap_set Execution.rowIds he e' id
    rw [State.rowIds, State.rowIds, heq]
    simp only [Action.rowIds, List.count_append]
    omega

theorem count_rowIds_runAll {s s' : State} {as : List Action}
    (h : runAll (State.step settings) s as = some s') (id : Uuid) :
    s'.rowIds.count id ≤ s.rowIds.count id + (as.flatMap Action.rowIds).count id := by
  induction as generalizing s with
  | nil =>
    cases h
    exact Nat.le_add_right _ _
  | cons a as ih =>
    rw [runAll] at h
    obtain ⟨s₁, hstep, hrest⟩ := Option.bind_eq_some_iff.mp h
    have hfirst := count_rowIds hstep id
    have htail := ih hrest
    rw [List.flatMap_cons, List.count_append]
    omega

end

/-- A document's rows get the ids drawn for it. -/
theorem count_identified {hosts : List ScannedHost} {drawn : List (Uuid × List Uuid)}
    (hsuits : Suits hosts drawn) (id : Uuid) :
    ((identified hosts drawn).flatMap fun x =>
      x.1.id :: x.2.map ServiceObservation.id).count id = (drawnIds drawn).count id := by
  have hrows : ∀ rows : List (HostObservation × List ServiceObservation),
      (rows.flatMap fun x => x.1.id :: x.2.map ServiceObservation.id).count id =
        (rows.map fun x => x.1.id).count id +
          (rows.flatMap fun x => x.2.map ServiceObservation.id).count id := by
    intro rows
    induction rows with
    | nil => rfl
    | cons row rows ih =>
      simp only [List.map_cons, List.flatMap_cons, List.count_append, List.count_cons, ih]
      omega
  rw [hrows, identified_hosts hsuits, identified_services hsuits, drawnIds, List.count_append]

theorem rowIds_confirmation (rows : List (HostObservation × List ServiceObservation))
    (error : Option String) (i : Nat) :
    ((confirmationSteps rows error).map (Action.worker i)).flatMap Action.rowIds =
      rows.flatMap fun x => x.1.id :: x.2.map ServiceObservation.id := by
  have hlast : (Action.worker i (recorded error)).rowIds = [] := by
    cases error <;> rfl
  rw [confirmationSteps, List.map_append, List.flatMap_append, List.map_map, List.flatMap_map,
    List.map_singleton, List.flatMap_singleton, hlast, List.append_nil]
  rfl

/-- No id has been handed out twice. -/
structure Drawn (s : Scanning) : Prop where
  nodup : s.base.rowIds.Nodup
  used : ∀ id ∈ s.base.rowIds, id ∈ s.used

theorem drawn_initial (scopes : Table InventoryScope) (profiles : Table ScanProfile) :
    Drawn (Scanning.initial scopes profiles) :=
  ⟨List.nodup_nil, fun _ h => absurd h List.not_mem_nil⟩

section
variable {p : Platform} {settings : Settings} {s s' : Scanning} {a : ScanAction}

/-- A step hands out ids that were not used. -/
theorem Drawn.extend (hd : Drawn s) {base : State} {ids : List Uuid} (hnodup : ids.Nodup)
    (hfresh : ∀ id ∈ ids, id ∉ s.used)
    (hle : ∀ id, base.rowIds.count id ≤ s.base.rowIds.count id + ids.count id) :
    base.rowIds.Nodup ∧ ∀ id ∈ base.rowIds, id ∈ s.used ++ ids := by
  refine ⟨List.nodup_iff_count_le_one.mpr fun id => ?_, fun id hid => ?_⟩
  · have hone := List.nodup_iff_count_le_one.mp hd.nodup id
    have hone' := List.nodup_iff_count_le_one.mp hnodup id
    have hsum := hle id
    by_cases hin : id ∈ ids
    · have hzero : s.base.rowIds.count id = 0 :=
        List.count_eq_zero.mpr fun hmem => hfresh id hin (hd.used id hmem)
      omega
    · have hzero : ids.count id = 0 := List.count_eq_zero.mpr hin
      omega
  · have hsum := hle id
    have hpos := List.count_pos_iff.mpr hid
    by_cases hin : id ∈ ids
    · exact List.mem_append_right _ hin
    · have hzero : ids.count id = 0 := List.count_eq_zero.mpr hin
      refine List.mem_append_left _ (hd.used id (List.count_pos_iff.mp ?_))
      omega

theorem Drawn.base_step (hd : Drawn s) {base : State} {b : Action}
    (h : s.base.step settings b = some base) (hb : b.rowIds = []) :
    Drawn { s with base := base } := by
  have hle : ∀ id, base.rowIds.count id ≤ s.base.rowIds.count id + ([] : List Uuid).count id := by
    intro id
    have hcount := count_rowIds h id
    rw [hb] at hcount
    exact hcount
  have hext := hd.extend List.nodup_nil (fun _ h => absurd h List.not_mem_nil) hle
  rw [List.append_nil] at hext
  exact ⟨hext.1, hext.2⟩

theorem rowIds_of_records {b : WorkerAction} (h : b.records = false) : b.rowIds = [] := by
  cases b <;> first | rfl | cases h

theorem drawn_step (hd : Drawn s) (h : s.step p settings a = some s') : Drawn s' := by
  cases scans_of_step h with
  | crash | abort => exact ⟨hd.nodup, hd.used⟩
  | @single b base hrecords hbase =>
    refine hd.base_step hbase ?_
    cases b with
    | worker i b => exact rowIds_of_records (hrecords i b rfl)
    | _ => rfl
  | discovery hbase hread =>
    rcases hread with ⟨_, -, rfl⟩ | ⟨_, -, -, rfl⟩
    · exact hd.base_step hbase rfl
    · exact hd.base_step hbase rfl
  | confirmation he _ hsuits hnodup hfresh hrows hlast =>
    have hext := hd.extend hnodup hfresh fun id => by
      have hcount := count_rowIds_runAll (readConfirmation_base he hrows hlast) id
      rw [rowIds_confirmation, count_identified hsuits] at hcount
      exact hcount
    exact ⟨hext.1, hext.2⟩

/-- The ids of the rows of an execution and of the tables. -/
theorem rowIds_sublist {i : Nat} {e : Execution} (he : s.base.executions[i]? = some e) :
    (s.base.db.rowIds ++ e.rowIds).Sublist s.base.rowIds := by
  refine List.Sublist.append_left ?_ _
  rw [List.flatMap_def]
  exact List.sublist_flatten_of_mem (List.mem_map_of_mem (List.mem_of_getElem? he))

/-- The ids drawn for a document are none of those. -/
theorem Drawn.fresh (hd : Drawn s) {i : Nat} {e : Execution} {hosts : List ScannedHost}
    {drawn : List (Uuid × List Uuid)} (he : s.base.executions[i]? = some e)
    (hsuits : Suits hosts drawn) (hnodup : (drawnIds drawn).Nodup)
    (hfresh : ∀ id ∈ drawnIds drawn, id ∉ s.used) :
    (s.base.db.rowIds ++ (e.rowIds ++ (identified hosts drawn).flatMap fun x =>
      x.1.id :: x.2.map ServiceObservation.id)).Nodup := by
  rw [← List.append_assoc, List.nodup_append']
  refine ⟨hd.nodup.sublist (rowIds_sublist he), ?_, ?_⟩
  · refine List.nodup_iff_count_le_one.mpr fun id => ?_
    rw [count_identified hsuits]
    exact List.nodup_iff_count_le_one.mp hnodup id
  · intro id hold hnew
    rw [← List.count_pos_iff, count_identified hsuits, List.count_pos_iff] at hnew
    exact hfresh id hnew (hd.used id ((rowIds_sublist he).subset hold))

end

/-! ## Candidates -/

/-- Masscan's results have not been recorded. -/
def Pc.undiscovered : Pc → Bool
  | .claimed | .shardLoaded | .loaded | .servicesCleared | .hostsCleared | .cleared
  | .polling .masscan | .refreshed .masscan | .owned .masscan | .beating .masscan _
  | .exited .masscan | .recording .masscan => true
  | _ => false

namespace Execution

/-- The candidates an execution holds back are distinct. -/
structure Candidates (e : Execution) : Prop where
  nodup : (e.discoveries.map Keyed.key).Nodup
  undiscovered : e.pc.undiscovered = true → e.discoveries = []

variable {settings : Settings} {db db' : Db} {e e' : Execution} {a : WorkerAction}

theorem Candidates.empty (h : e.discoveries = []) : e.Candidates := by
  refine ⟨?_, fun _ => h⟩
  rw [h]
  exact List.nodup_nil

theorem Candidates.moved {pc : Pc} (hc : e.Candidates) (hpc : e.pc = pc)
    (hsame : e'.discoveries = e.discoveries)
    (hback : e'.pc.undiscovered = true → pc.undiscovered = true) : e'.Candidates := by
  subst hpc
  refine ⟨?_, fun h => ?_⟩
  · rw [hsame]
    exact hc.nodup
  · rw [hsame]
    exact hc.undiscovered (hback h)

theorem Candidates.step (hc : e.Candidates) (h : e.step db settings a = some (db', e'))
    (ha : ∀ observations, a = .addDiscoveries observations → observations.Nodup) :
    e'.Candidates := by
  rcases step_cases h with ⟨-, hmove⟩ | hcommit
  · cases hmove with
    | missing => exact .empty rfl
    | lost => exact .empty rfl
    | loadShard hpc => exact hc.moved hpc rfl fun _ => rfl
    | loadRun hpc => exact hc.moved hpc rfl fun _ => rfl
    | clearServices hpc => exact hc.moved hpc rfl fun _ => rfl
    | clearHosts hpc => exact hc.moved hpc rfl fun _ => rfl
    | clearDiscoveries hpc => exact hc.moved hpc rfl fun _ => rfl
    | @refresh stage _ _ hpc => exact hc.moved hpc rfl (by cases stage <;> exact id)
    | @checkLease stage hpc => exact hc.moved hpc rfl (by cases stage <;> exact id)
    | @heartbeat stage _ hpc => exact hc.moved hpc rfl (by cases stage <;> exact id)
    | @exit stage hpc => exact hc.moved hpc rfl (by cases stage <;> exact id)
    | @recheck stage hpc => exact hc.moved hpc rfl (by cases stage <;> exact id)
    | @addDiscoveries run observations rows hpc _ hrows =>
      have hnone : e.discoveries = [] := hc.undiscovered (by rw [hpc]; rfl)
      refine ⟨?_, fun h => by cases h⟩
      show ((e.discoveries ++ rows).map Keyed.key).Nodup
      rw [hnone, List.nil_append, hrows, List.map_map]
      refine (ha observations rfl).map ?_
      intro x y hxy
      exact (Prod.mk.inj hxy).2
    | storeDiscovery hpc _ hnext =>
      split at hnext
      · exact hc.moved hpc rfl fun h => by rw [hnext] at h; cases h
      · exact hc.moved hpc rfl fun h => by rw [hnext] at h; cases h
    | addHost hpc => exact hc.moved hpc rfl fun h => by rw [← hpc]; exact h
    | storeConfirmation hpc => exact hc.moved hpc rfl fun h => by cases h
    | confirm hpc => exact hc.moved hpc rfl fun h => by cases h
    | fail => exact hc.moved rfl rfl fun h => by cases h
    | finish => exact hc.moved rfl rfl fun h => by cases h
    | countShards hpc => exact hc.moved hpc rfl fun h => by cases h
  · rcases hcommit.pending with ⟨-, -, hsame, -⟩ | ⟨-, -, hnone, -⟩
    · cases hcommit with
      | abandon hpc => exact hc.moved hpc rfl fun h => by cases h
      | start hpc => exact hc.moved hpc rfl fun _ => rfl
      | beat _ _ _ _ he => exact .empty (by rw [he]; rfl)
      | beatLost _ _ _ he => exact .empty (by rw [he]; rfl)
      | finish => exact .empty rfl
    · exact .empty hnone

end Execution

section
variable {p : Platform} {settings : Settings} {s s' : Scanning} {a : ScanAction}

theorem candidates_base {base : State} {b : Action}
    (hc : ∀ e ∈ s.base.executions, e.Candidates) (h : s.base.step settings b = some base)
    (hb : ∀ i observations, b = .worker i (.addDiscoveries observations) → observations.Nodup) :
    ∀ e ∈ base.executions, e.Candidates := by
  refine executions_step h hc ?_ fun _ _ => .empty rfl
  intro e he i c e' hact hstep
  exact (hc e he).step hstep fun observations hobs => hb i observations (hobs ▸ hact)

/-- The steps of a script that record no candidates. -/
theorem candidates_runAll {s s' : State} {as : List Action}
    (hc : ∀ e ∈ s.executions, e.Candidates)
    (ha : ∀ i observations, Action.worker i (.addDiscoveries observations) ∉ as)
    (h : runAll (State.step settings) s as = some s') : ∀ e ∈ s'.executions, e.Candidates := by
  induction as generalizing s with
  | nil =>
    cases h
    exact hc
  | cons b as ih =>
    rw [runAll] at h
    obtain ⟨s₁, hstep, hrest⟩ := Option.bind_eq_some_iff.mp h
    refine ih ?_ (fun i observations hmem => ha i observations (List.mem_cons_of_mem _ hmem)) hrest
    refine candidates_base (s := { base := s }) hc hstep fun i observations hb => ?_
    exact absurd (hb ▸ List.mem_cons_self) (ha i observations)

theorem candidates_step (hc : ∀ e ∈ s.base.executions, e.Candidates)
    (h : s.step p settings a = some s') : ∀ e ∈ s'.base.executions, e.Candidates := by
  cases scans_of_step h with
  | crash | abort => exact hc
  | single hrecords hbase =>
    refine candidates_base hc hbase fun i observations hb => ?_
    cases hrecords i _ hb
  | discovery hbase hread =>
    refine candidates_base hc hbase fun _ observations hb => ?_
    rcases hread with ⟨_, -, rfl⟩ | ⟨_, -, hnodup, rfl⟩
    · cases hb
    · cases hb
      exact hnodup
  | confirmation he _ _ _ _ hrows hlast =>
    refine candidates_runAll hc ?_ (readConfirmation_base he hrows hlast)
    intro j observations hmem
    obtain ⟨b, hb, heq⟩ := List.mem_map.mp hmem
    cases heq
    rcases List.mem_append.mp hb with hadd | hrec
    · obtain ⟨_, -, heq⟩ := List.mem_map.mp hadd
      cases heq
    · have heq := List.mem_singleton.mp hrec
      revert heq
      cases Option.or _ _ <;> exact nofun

/-! ## When a flush goes through -/

/-- The columns take the pending rows, and no pending candidate is in the table. -/
def Execution.insertable (p : Platform) (db : Db) (e : Execution) : Bool :=
  e.rowsFit p && e.discoveries.all fun o => (db.discoveries.get (Keyed.key o)).isNone

theorem flush_isSome {db : Db} {e : Execution} :
    (e.flush db).isSome = true ↔ (db.hosts.append? e.hosts).isSome = true ∧
      (db.services.append? e.services).isSome = true ∧
      (db.discoveries.append? e.discoveries).isSome = true := by
  rw [Execution.flush]
  cases db.hosts.append? e.hosts with
  | none => exact iff_of_false (fun h => by cases h) fun h => by cases h.1
  | some hosts =>
    cases db.services.append? e.services with
    | none => exact iff_of_false (fun h => by cases h) fun h => by cases h.2.1
    | some services =>
      cases db.discoveries.append? e.discoveries with
      | none => exact iff_of_false (fun h => by cases h) fun h => by cases h.2.2
      | some discoveries => exact iff_of_true rfl ⟨rfl, rfl, rfl⟩

theorem accepted_iff {db : Db} {e : Execution} (hids : (db.rowIds ++ e.rowIds).Nodup)
    (hc : e.Candidates) : e.accepted p db = true ↔ e.insertable p db = true := by
  have hhosts : ((db.hosts.rows ++ e.hosts).map HostObservation.id).Nodup := by
    rw [List.map_append]
    refine hids.sublist ?_
    exact (List.sublist_append_left _ _).append (List.sublist_append_left _ _)
  have hservices : ((db.services.rows ++ e.services).map ServiceObservation.id).Nodup := by
    rw [List.map_append]
    refine hids.sublist ?_
    exact (List.sublist_append_right _ _).append (List.sublist_append_right _ _)
  have hdiscoveries : (db.discoveries.append? e.discoveries).isSome = true ↔
      (e.discoveries.all fun o => (db.discoveries.get (Keyed.key o)).isNone) = true := by
    rw [Table.append?_isSome_iff_fresh hc.nodup, List.all_eq_true]
    simp only [Option.isNone_iff_eq_none]
  rw [Execution.accepted, Execution.insertable, Bool.and_eq_true, Bool.and_eq_true, flush_isSome,
    Table.append?_isSome, Table.append?_isSome, ← hdiscoveries]
  exact ⟨fun h => ⟨h.1, h.2.2.2⟩, fun h => ⟨h.1, hhosts, hservices, h.2⟩⟩

end

/-! ## Recording a document -/

/-- An execution that has added a host. -/
def Execution.withHost (e : Execution) (run : ScanRun) (host : HostObservation)
    (services : List ServiceObservation) : Execution :=
  { e with
    hosts := e.hosts ++
      [{ host with runId := run.id, shardId := e.shardId, leaseToken := some e.leaseToken }]
    services := e.services ++
      services.map fun service => { service with hostObservationId := host.id } }

def Execution.withHosts (e : Execution) (run : ScanRun)
    (rows : List (HostObservation × List ServiceObservation)) : Execution :=
  { e with
    hosts := e.hosts ++ rows.map fun x =>
      { x.1 with runId := run.id, shardId := e.shardId, leaseToken := some e.leaseToken }
    services := e.services ++ rows.flatMap fun x =>
      x.2.map fun service => { service with hostObservationId := x.1.id } }

section
variable {p : Platform} {settings : Settings} {db : Db} {e : Execution} {run : ScanRun}
  {host : HostObservation} {services : List ServiceObservation}
  {rows : List (HostObservation × List ServiceObservation)}

theorem step_addHost (hpc : e.pc = .recording .nmap) (hrun : e.run = some run) :
    e.step db settings (.addHost host services) = some (db, e.withHost run host services) := by
  simp only [Execution.step, hpc, hrun, Execution.withHost]

/-- The loop adds the rows and touches nothing else. -/
theorem normalize_rows {e' : Execution} (hpc : e.pc = .recording .nmap) (hrun : e.run = some run)
    (h : e.normalize p settings db rows = some e') : e' = e.withHosts run rows := by
  induction rows generalizing e with
  | nil =>
    cases h
    simp only [Execution.withHosts, List.map_nil, List.flatMap_nil, List.append_nil]
  | cons row rows ih =>
    obtain ⟨host, services⟩ := row
    rw [Execution.normalize, step_addHost hpc hrun, step_addHost hpc hrun] at h
    simp only [Option.bind_eq_bind, Option.bind_some] at h
    split at h
    · rw [ih (e := e.withHost run host services) hpc hrun h]
      simp only [Execution.withHosts, Execution.withHost, List.map_cons, List.flatMap_cons,
        List.append_assoc, List.cons_append, List.nil_append]
    · cases h

/-- The statement that ends the recording. -/
theorem step_recorded {db' : Db} {e' : Execution} {error : Option String}
    (hpc : e.pc = .recording .nmap) (hrun : e.run = some run)
    (h : e.step db settings (recorded error) = some (db', e')) :
    db' = db ∧ ((∃ text, e' = { e with pc := .failing text }) ∨
      error = none ∧ e' = { e with
        pc := .results
        artifactKey := some (Db.artifactKey run.id e.shardId "nmap" e.leaseToken) }) := by
  cases error with
  | none =>
    simp only [recorded, Execution.step, hpc, hrun] at h
    cases h
    exact ⟨rfl, Or.inr ⟨rfl, by rw [hrun]⟩⟩
  | some text =>
    simp only [recorded, Execution.step, hpc, Pc.inTry, if_true] at h
    cases h
    exact ⟨rfl, Or.inl ⟨text, rfl⟩⟩

theorem rowIds_withHost : (e.withHost run host services).rowIds.Perm
    (e.rowIds ++ host.id :: services.map ServiceObservation.id) := by
  rw [List.perm_iff_count]
  intro id
  simp only [Execution.rowIds, Execution.withHost, List.map_append, List.map_map, List.map_cons,
    List.map_nil, List.count_append, List.count_cons, List.count_nil]
  have hsame : services.map (ServiceObservation.id ∘ fun service =>
      { service with hostObservationId := host.id }) = services.map ServiceObservation.id := rfl
  rw [hsame]
  omega

theorem insertable_withHost : (e.withHost run host services).insertable p db = true ↔
    e.insertable p db = true ∧ host.fits p = true ∧ ∀ s ∈ services, s.fits p = true := by
  have hhost : HostObservation.fits p { host with
      runId := run.id, shardId := e.shardId, leaseToken := some e.leaseToken } = host.fits p := rfl
  have hservices : (services.map fun service =>
      { service with hostObservationId := host.id }).all (ServiceObservation.fits p) =
        services.all (ServiceObservation.fits p) := by
    rw [List.all_map]
    rfl
  simp only [Execution.insertable, Execution.rowsFit, Execution.withHost, List.all_append,
    List.all_cons, List.all_nil, Bool.and_true, hhost, hservices, Bool.and_eq_true,
    ← List.all_eq_true]
  constructor
  · rintro ⟨⟨⟨⟨hh, hfit⟩, hs, hsfit⟩, ho⟩, hd⟩
    exact ⟨⟨⟨⟨hh, hs⟩, ho⟩, hd⟩, hfit, hsfit⟩
  · rintro ⟨⟨⟨⟨hh, hs⟩, ho⟩, hd⟩, hfit, hsfit⟩
    exact ⟨⟨⟨⟨hh, hfit⟩, hs, hsfit⟩, ho⟩, hd⟩

/-- The loop goes through when every flush in it does: each host is flushed with the
services of the hosts before it. -/
theorem normalize_isSome (hpc : e.pc = .recording .nmap) (hrun : e.run = some run)
    (hc : e.Candidates) (hids : (db.rowIds ++ (e.rowIds ++
      rows.flatMap fun x => x.1.id :: x.2.map ServiceObservation.id)).Nodup) :
    (e.normalize p settings db rows).isSome = true ↔ rows = [] ∨
      (e.insertable p db = true ∧ (∀ x ∈ rows, x.1.fits p = true) ∧
        ∀ x ∈ rows.dropLast, ∀ s ∈ x.2, s.fits p = true) := by
  induction rows generalizing e with
  | nil => exact iff_of_true rfl (Or.inl rfl)
  | cons row rows ih =>
    obtain ⟨host, services⟩ := row
    rw [List.flatMap_cons] at hids
    have hadded : (e.withHost run host []).accepted p db = true ↔
        e.insertable p db = true ∧ host.fits p = true := by
      have hc' : (e.withHost run host []).Candidates := ⟨hc.nodup, hc.undiscovered⟩
      rw [accepted_iff ?_ hc', insertable_withHost]
      · exact ⟨fun h => ⟨h.1, h.2.1⟩, fun h => ⟨h.1, h.2, fun s hs => by cases hs⟩⟩
      · have hperm : (e.withHost run host []).rowIds.Perm (e.rowIds ++ [host.id]) :=
          rowIds_withHost
        refine (hperm.append_left db.rowIds).nodup_iff.mpr (hids.sublist ?_)
        refine List.Sublist.append_left (List.Sublist.append_left ?_ _) _
        exact List.singleton_sublist.mpr (List.mem_append_left _ List.mem_cons_self)
    rw [Execution.normalize, step_addHost hpc hrun]
    simp only [Option.bind_eq_bind, Option.bind_some, step_addHost hpc hrun]
    by_cases hacc : (e.withHost run host []).accepted p db = true
    · obtain ⟨hinsert, hfit⟩ := hadded.mp hacc
      have hids' : (db.rowIds ++ ((e.withHost run host services).rowIds ++
          rows.flatMap fun x => x.1.id :: x.2.map ServiceObservation.id)).Nodup := by
        have hperm : (e.withHost run host services).rowIds.Perm
            (e.rowIds ++ host.id :: services.map ServiceObservation.id) := rowIds_withHost
        refine ((hperm.append_right _).append_left db.rowIds).nodup_iff.mpr ?_
        rw [List.append_assoc]
        exact hids
      have hc' : (e.withHost run host services).Candidates := ⟨hc.nodup, hc.undiscovered⟩
      rw [if_pos hacc, ih (e := e.withHost run host services) hpc hrun hc' hids',
        insertable_withHost]
      cases rows with
      | nil =>
        refine iff_of_true (Or.inl rfl) (Or.inr ⟨hinsert, ?_, fun x hx => by cases hx⟩)
        intro x hx
        cases List.mem_singleton.mp hx
        exact hfit
      | cons next rows =>
        have hne : ∀ {x : HostObservation × List ServiceObservation} {l}, ¬ x :: l = [] :=
          List.cons_ne_nil _ _
        simp only [hne, false_or, hinsert, hfit, true_and, List.dropLast_cons_cons,
          List.forall_mem_cons, and_assoc, and_left_comm]
    · rw [if_neg hacc]
      refine iff_of_false (fun h => by cases h) ?_
      rintro (hnil | ⟨hinsert, hfit, -⟩)
      · cases hnil
      · exact hacc (hadded.mpr ⟨hinsert, hfit _ List.mem_cons_self⟩)

end

end TransportLookout
