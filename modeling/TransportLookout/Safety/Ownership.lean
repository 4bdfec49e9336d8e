/-
Which shard an observation belongs to.

`uuid4` does not repeat itself, so an id belongs to the shard of the execution it
was drawn for.  `Owned` follows the ids through the tables, the rows executions hold
back and the rows their DELETE statements matched.  An execution therefore leaves
the observations of every other shard as they are, superseded or not.
-/
import TransportLookout.Safety.Flushes
import TransportLookout.Safety.Loaded

namespace TransportLookout

open Relational Trace

/-! ## The rows of a shard -/

namespace Db

variable (db : Db) (shardId : Uuid)

def hostsOf : List HostObservation := db.hosts.select fun h => h.shardId = shardId

/-- The services reached through their host rows. -/
def servicesOf : List ServiceObservation :=
  db.services.select fun s => s.hostObservationId ∈ (db.hostsOf shardId).map HostObservation.id

def discoveriesOf : List DiscoveryObservation := db.discoveries.select fun o => o.shardId = shardId

end Db

/-- The observations of the shard are the same rows in both. -/
structure SameObservations (shardId : Uuid) (db db' : Db) : Prop where
  hosts : db'.hostsOf shardId = db.hostsOf shardId
  services : db'.servicesOf shardId = db.servicesOf shardId
  discoveries : db'.discoveriesOf shardId = db.discoveriesOf shardId

/-! ## Owners of ids -/

/-- The ids drawn so far, each with the shard it was drawn for. -/
structure Owners where
  used : List Uuid
  shard : Uuid → Uuid

namespace Owners

def Has (o : Owners) (shardId id : Uuid) : Prop := id ∈ o.used ∧ o.shard id = shardId

def draw (o : Owners) (shardId : Uuid) (ids : List Uuid) : Owners where
  used := o.used ++ ids
  shard := fun id => if id ∈ ids then shardId else o.shard id

variable {o : Owners} {shardId shardId' id : Uuid} {ids : List Uuid}

theorem Has.unique (h : o.Has shardId id) (h' : o.Has shardId' id) : shardId = shardId' :=
  h.2.symm.trans h'.2

theorem Has.draw (h : o.Has shardId id) (hfresh : ∀ id ∈ ids, id ∉ o.used) :
    (o.draw shardId' ids).Has shardId id := by
  have hnew : id ∉ ids := fun hin => hfresh id hin h.1
  exact ⟨List.mem_append_left _ h.1, (if_neg hnew).trans h.2⟩

theorem draw_has (hid : id ∈ ids) : (o.draw shardId ids).Has shardId id :=
  ⟨List.mem_append_right _ hid, if_pos hid⟩

end Owners

structure Db.Owned (o : Owners) (db : Db) : Prop where
  hosts : ∀ h ∈ db.hosts.rows, o.Has h.shardId h.id
  services : ∀ s ∈ db.services.rows, ∃ k, o.Has k s.id ∧ o.Has k s.hostObservationId

structure Execution.Owned (o : Owners) (e : Execution) : Prop where
  hosts : ∀ h ∈ e.hosts, h.shardId = e.shardId ∧ o.Has e.shardId h.id
  services : ∀ s ∈ e.services, o.Has e.shardId s.id ∧ o.Has e.shardId s.hostObservationId
  discoveries : ∀ d ∈ e.discoveries, d.shardId = e.shardId
  doomedHosts : ∀ id ∈ e.doomedHosts, o.Has e.shardId id
  doomedServices : ∀ id ∈ e.doomedServices, o.Has e.shardId id
  doomedDiscoveries : ∀ key ∈ e.doomedDiscoveries, key.1 = e.shardId

structure State.Owned (o : Owners) (s : State) : Prop where
  db : s.db.Owned o
  executions : ∀ e ∈ s.executions, e.Owned o

section
variable {o : Owners} {db db' : Db} {e e' : Execution} {settings : Settings} {a : WorkerAction}

theorem Db.Owned.draw {shardId : Uuid} {ids : List Uuid} (h : db.Owned o)
    (hfresh : ∀ id ∈ ids, id ∉ o.used) : db.Owned (o.draw shardId ids) where
  hosts := fun x hx => (h.hosts x hx).draw hfresh
  services := fun x hx => by
    obtain ⟨k, hid, hhost⟩ := h.services x hx
    exact ⟨k, hid.draw hfresh, hhost.draw hfresh⟩

theorem Execution.Owned.draw {shardId : Uuid} {ids : List Uuid} (h : e.Owned o)
    (hfresh : ∀ id ∈ ids, id ∉ o.used) : e.Owned (o.draw shardId ids) where
  hosts := fun x hx => ⟨(h.hosts x hx).1, (h.hosts x hx).2.draw hfresh⟩
  services := fun x hx => ⟨(h.services x hx).1.draw hfresh, (h.services x hx).2.draw hfresh⟩
  discoveries := h.discoveries
  doomedHosts := fun id hid => (h.doomedHosts id hid).draw hfresh
  doomedServices := fun id hid => (h.doomedServices id hid).draw hfresh
  doomedDiscoveries := h.doomedDiscoveries

/-! ## What one step keeps -/

theorem Db.Owned.of_tables (h : db.Owned o) (hhosts : db'.hosts = db.hosts)
    (hservices : db'.services = db.services) : db'.Owned o where
  hosts := by
    rw [hhosts]
    exact h.hosts
  services := by
    rw [hservices]
    exact h.services

theorem Execution.Commit.owned (hdb : db.Owned o) (he : e.Owned o) (h : e.Commit db a db' e') :
    db'.Owned o := by
  rcases h.results with ⟨hhosts, hservices, -⟩ | ⟨now, -, -, -, hhosts, hservices, -⟩ |
    ⟨-, -, hhosts, hservices, -⟩
  · exact hdb.of_tables hhosts hservices
  · refine ⟨fun x hx => ?_, fun x hx => ?_⟩
    · rw [hhosts] at hx
      exact hdb.hosts x (Table.mem_delete.mp hx).1
    · rw [hservices] at hx
      exact hdb.services x (Table.mem_delete.mp hx).1
  · refine ⟨fun x hx => ?_, fun x hx => ?_⟩
    · rw [Table.rows_append? hhosts] at hx
      rcases List.mem_append.mp hx with hold | hnew
      · exact hdb.hosts x hold
      · obtain ⟨hshard, hhas⟩ := he.hosts x hnew
        rw [hshard]
        exact hhas
    · rw [Table.rows_append? hservices] at hx
      rcases List.mem_append.mp hx with hold | hnew
      · exact hdb.services x hold
      · exact ⟨e.shardId, he.services x hnew⟩

theorem Execution.Owned.flushed (h : e.Owned o) : e.flushed.Owned o :=
  { h with
    hosts := fun _ hx => absurd hx List.not_mem_nil
    services := fun _ hx => absurd hx List.not_mem_nil
    discoveries := fun _ hx => absurd hx List.not_mem_nil }

theorem Execution.Owned.stop (h : e.Owned o) : e.stop.Owned o :=
  { h with
    hosts := fun _ hx => absurd hx List.not_mem_nil
    services := fun _ hx => absurd hx List.not_mem_nil
    discoveries := fun _ hx => absurd hx List.not_mem_nil }

/-- An execution that goes on to another program point. -/
theorem Execution.Owned.moved (h : e.Owned o) (pc : Pc) (cancelled : Bool) (run : Option ScanRun) :
    Execution.Owned o { e with pc := pc, cancelled := cancelled, run := run } :=
  { h with }

theorem Execution.owned_step (hdb : db.Owned o) (he : e.Owned o) (ha : a.rowIds = [])
    (h : e.step db settings a = some (db', e')) : db'.Owned o ∧ e'.Owned o := by
  rcases step_cases h with ⟨rfl, hmove⟩ | hc
  · refine ⟨hdb, ?_⟩
    cases hmove with
    | missing | lost => exact he.stop
    | @clearServices hostIds doomed _ _ hhosts hdoomed =>
      refine { he with doomedServices := fun id hid => ?_ }
      have hin : id ∈ doomed := hid
      rw [hdoomed] at hin
      obtain ⟨x, hx, rfl⟩ := List.mem_map.mp hin
      obtain ⟨hmem, hlinked⟩ := Table.mem_select.mp hx
      have hlinked := of_decide_eq_true hlinked
      rw [hhosts] at hlinked
      obtain ⟨host, hhost, heq⟩ := List.mem_map.mp hlinked
      obtain ⟨hhost, hshard⟩ := Table.mem_select.mp hhost
      obtain ⟨k, hhas, hlink⟩ := hdb.services x hmem
      have howner := hdb.hosts host hhost
      rw [heq] at howner
      rw [← of_decide_eq_true hshard, howner.unique hlink]
      exact hhas
    | @clearHosts doomed _ hdoomed =>
      refine { he with doomedHosts := fun id hid => ?_ }
      have hin : id ∈ doomed := hid
      rw [hdoomed] at hin
      obtain ⟨x, hx, rfl⟩ := List.mem_map.mp hin
      obtain ⟨hmem, hshard⟩ := Table.mem_select.mp hx
      rw [← of_decide_eq_true hshard]
      exact hdb.hosts x hmem
    | @clearDiscoveries doomed _ hdoomed =>
      refine { he with doomedDiscoveries := fun key hkey => ?_ }
      have hin : key ∈ doomed := hkey
      rw [hdoomed] at hin
      obtain ⟨x, hx, rfl⟩ := List.mem_map.mp hin
      exact of_decide_eq_true (Table.mem_select.mp hx).2
    | @addDiscoveries run observations rows _ _ hrows =>
      refine { he with discoveries := fun x hx => ?_ }
      rcases List.mem_append.mp hx with hold | hnew
      · exact he.discoveries x hold
      · rw [hrows] at hnew
        obtain ⟨_, -, rfl⟩ := List.mem_map.mp hnew
        rfl
    | addHost => cases ha
    | _ => exact { he with }
  · refine ⟨hc.owned hdb he, ?_⟩
    cases hc with
    | abandon | start => exact { he with }
    | beat _ _ _ _ hnext | beatLost _ _ _ hnext =>
      rw [hnext]
      exact he.flushed.moved _ _ _
    | finish => exact { he.flushed with }

/-! ## What one step leaves alone -/

/-- Only observations of the shard differ. -/
structure Apart (o : Owners) (shardId : Uuid) (db db' : Db) : Prop where
  hosts : ∀ k, k ≠ shardId → db'.hostsOf k = db.hostsOf k
  services : ∀ q : Uuid → Bool, (∀ id, q id = true → o.shard id ≠ shardId) →
    db'.services.select (fun s => q s.hostObservationId) =
      db.services.select fun s => q s.hostObservationId
  discoveries : ∀ k, k ≠ shardId → db'.discoveriesOf k = db.discoveriesOf k

theorem Apart.of_tables {shardId : Uuid} (hhosts : db'.hosts = db.hosts)
    (hservices : db'.services = db.services) (hdiscoveries : db'.discoveries = db.discoveries) :
    Apart o shardId db db' where
  hosts := fun k _ => by rw [Db.hostsOf, hhosts, Db.hostsOf]
  services := fun q _ => by rw [hservices]
  discoveries := fun k _ => by rw [Db.discoveriesOf, hdiscoveries, Db.discoveriesOf]

/-- No observation of another shard is touched. -/
theorem Apart.same {shardId k : Uuid} (h : Apart o shardId db db') (hdb : db.Owned o)
    (hk : k ≠ shardId) : SameObservations k db db' where
  hosts := h.hosts k hk
  services := by
    rw [Db.servicesOf, Db.servicesOf, h.hosts k hk]
    refine h.services (fun id => id ∈ (db.hostsOf k).map HostObservation.id) fun id hid => ?_
    obtain ⟨x, hx, rfl⟩ := List.mem_map.mp (of_decide_eq_true hid)
    obtain ⟨hmem, hshard⟩ := Table.mem_select.mp hx
    rw [(hdb.hosts x hmem).2, of_decide_eq_true hshard]
    exact hk
  discoveries := h.discoveries k hk

theorem Execution.Commit.apart (hdb : db.Owned o) (he : e.Owned o) (h : e.Commit db a db' e') :
    Apart o e.shardId db db' := by
  rcases h.results with ⟨hhosts, hservices, hdiscoveries⟩ |
    ⟨now, -, -, -, hhosts, hservices, hdiscoveries⟩ | ⟨-, -, hhosts, hservices, hdiscoveries⟩
  · exact .of_tables hhosts hservices hdiscoveries
  · refine ⟨fun k hk => ?_, fun q hq => ?_, fun k hk => ?_⟩
    · rw [Db.hostsOf, hhosts]
      refine Table.select_delete fun x hx hshard => decide_eq_false fun hin => hk ?_
      rw [← of_decide_eq_true hshard]
      exact (hdb.hosts x hx).unique (he.doomedHosts x.id hin)
    · rw [hservices]
      refine Table.select_delete fun x hx hlink => decide_eq_false fun hin => hq _ hlink ?_
      obtain ⟨k, hid, hhost⟩ := hdb.services x hx
      rw [hhost.2]
      exact hid.unique (he.doomedServices x.id hin)
    · rw [Db.discoveriesOf, hdiscoveries]
      refine Table.select_delete fun x hx hshard => decide_eq_false fun hin => hk ?_
      rw [← of_decide_eq_true hshard]
      exact he.doomedDiscoveries _ hin
  · refine ⟨fun k hk => ?_, fun q hq => ?_, fun k hk => ?_⟩
    · refine Table.select_append? hhosts fun x hx => decide_eq_false fun hshard => hk ?_
      rw [← hshard]
      exact (he.hosts x hx).1
    · refine Table.select_append? hservices fun x hx => Bool.eq_false_iff.mpr fun hlink => ?_
      exact hq _ hlink (he.services x hx).2.2
    · refine Table.select_append? hdiscoveries fun x hx => decide_eq_false fun hshard => hk ?_
      rw [← hshard]
      exact he.discoveries x hx

theorem Execution.apart_step (hdb : db.Owned o) (he : e.Owned o)
    (h : e.step db settings a = some (db', e')) : Apart o e.shardId db db' := by
  rcases step_cases h with ⟨rfl, -⟩ | hc
  · exact .of_tables rfl rfl rfl
  · exact hc.apart hdb he

end

/-! ## Documents -/

section
variable {o : Owners} {hosts : List ScannedHost} {drawn : List (Uuid × List Uuid)}
  {x : HostObservation × List ServiceObservation}

theorem identified_host_id (hsuits : Suits hosts drawn) (hx : x ∈ identified hosts drawn) :
    x.1.id ∈ drawnIds drawn := by
  refine List.mem_append_left _ ?_
  rw [← identified_hosts hsuits]
  exact List.mem_map.mpr ⟨x, hx, rfl⟩

theorem identified_service_id (hsuits : Suits hosts drawn) (hx : x ∈ identified hosts drawn)
    {s : ServiceObservation} (hs : s ∈ x.2) : s.id ∈ drawnIds drawn := by
  refine List.mem_append_right _ ?_
  rw [← identified_services hsuits]
  exact List.mem_flatMap.mpr ⟨x, hx, List.mem_map_of_mem hs⟩

/-- The rows of a document go to the shard their ids are drawn for. -/
theorem Execution.Owned.withHosts {e : Execution} {run : ScanRun}
    {rows : List (HostObservation × List ServiceObservation)} (h : e.Owned o)
    (hhosts : ∀ x ∈ rows, o.Has e.shardId x.1.id)
    (hservices : ∀ x ∈ rows, ∀ s ∈ x.2, o.Has e.shardId s.id) :
    (e.withHosts run rows).Owned o :=
  { h with
    hosts := fun y hy => by
      rcases List.mem_append.mp hy with hold | hnew
      · exact h.hosts y hold
      · obtain ⟨x, hx, rfl⟩ := List.mem_map.mp hnew
        exact ⟨rfl, hhosts x hx⟩
    services := fun y hy => by
      rcases List.mem_append.mp hy with hold | hnew
      · exact h.services y hold
      · obtain ⟨x, hx, hin⟩ := List.mem_flatMap.mp hnew
        obtain ⟨s, hs, rfl⟩ := List.mem_map.mp hin
        exact ⟨hservices x hx s hs, hhosts x hx⟩ }

end

/-! ## Runs -/

section
variable {p : Platform} {settings : Settings}

theorem owned_base {o : Owners} {s s' : State} {a : Action} (hs : s.Owned o)
    (h : s.step settings a = some s') (ha : a.rowIds = []) : s'.Owned o := by
  refine ⟨?_, ?_⟩
  · cases a with
    | worker i b =>
      obtain ⟨e, db, e', he, hstep, rfl⟩ := step_worker h
      exact (Execution.owned_step hs.db (hs.executions e (List.mem_of_getElem? he)) ha hstep).1
    | _ =>
      obtain ⟨hhosts, hservices, -⟩ := results_frame h fun _ _ hab => by cases hab
      exact hs.db.of_tables hhosts hservices
  · refine executions_step h hs.executions ?_ ?_
    · intro e he i b e' hab hstep
      rw [hab] at ha
      exact (Execution.owned_step hs.db (hs.executions e he) ha hstep).2
    · intro shardId leaseToken
      constructor <;> exact fun _ h => absurd h List.not_mem_nil

variable {s s' : Scanning} {a : ScanAction}

theorem scanning_owned {o : Owners} (hs : s.base.Owned o) (hused : o.used = s.used)
    (hl : ∀ e ∈ s.base.executions, Loaded s.base e) (h : s.step p settings a = some s') :
    ∃ o, s'.base.Owned o ∧ o.used = s'.used := by
  cases scans_of_step h with
  | crash | abort => exact ⟨o, hs, hused⟩
  | @single b base hrecords hbase =>
    refine ⟨o, owned_base hs hbase ?_, hused⟩
    cases b with
    | worker i b => exact rowIds_of_records (hrecords i b rfl)
    | _ => rfl
  | discovery hbase hread =>
    refine ⟨o, owned_base hs hbase ?_, hused⟩
    rcases hread with ⟨_, -, rfl⟩ | ⟨_, -, -, rfl⟩
    · rfl
    · rfl
  | @confirmation i document drawn stored e e₁ db e' he hpc hsuits _ hfresh hrows hlast =>
    rw [← hused] at hfresh
    have hmem := List.mem_of_getElem? he
    obtain ⟨run, hrun⟩ := Option.isSome_iff_exists.mp ((hl e hmem).started (by rw [hpc]; rfl))
    have hrecorded : e₁.Owned (o.draw e.shardId (drawnIds drawn)) := by
      rw [normalize_rows hpc hrun hrows]
      refine ((hs.executions e hmem).draw hfresh).withHosts (fun x hx => ?_) fun x hx y hy => ?_
      · exact Owners.draw_has (identified_host_id hsuits hx)
      · exact Owners.draw_has (identified_service_id hsuits hx hy)
    have hids : (recorded ((normalizeNmapXml p.int document).2.or stored)).rowIds = [] := by
      cases (normalizeNmapXml p.int document).2.or stored <;> rfl
    obtain ⟨hdb, he'⟩ := Execution.owned_step (hs.db.draw hfresh) hrecorded hids hlast
    refine ⟨o.draw e.shardId (drawnIds drawn), ⟨hdb, fun x hx => ?_⟩,
      congrArg (· ++ drawnIds drawn) hused⟩
    rcases List.mem_or_eq_of_mem_set hx with hx | rfl
    · exact (hs.executions x hx).draw hfresh
    · exact he'

variable {scopes : Table InventoryScope} {profiles : Table ScanProfile}
  {tr : List (Transition Scanning ScanAction)} {t : Scanning}

theorem scanning_owners
    (h : Path (Scanning.step p settings) (Scanning.initial scopes profiles) tr t) :
    ∃ o : Owners, t.base.Owned o ∧ o.used = t.used := by
  induction h with
  | nil =>
    refine ⟨⟨[], fun id => id⟩, ⟨⟨?_, ?_⟩, ?_⟩, rfl⟩
    · exact fun _ h => absurd h List.not_mem_nil
    · exact fun _ h => absurd h List.not_mem_nil
    · exact fun _ h => absurd h List.not_mem_nil
  | snoc hp hs ih =>
    obtain ⟨o, ho, hused⟩ := ih
    obtain ⟨tr', hbase⟩ := scanning_run hp
    exact scanning_owned ho hused (loaded_run hbase) hs

/-- Only the execution that takes the step can change observations, and only those of
its shard. -/
theorem scanning_apart {o : Owners} (hs : s.base.Owned o) (h : s.step p settings a = some s') :
    (∃ i e, a.execution = some i ∧ s.base.executions[i]? = some e ∧
      Apart o e.shardId s.base.db s'.base.db) ∨
    ∀ k, Apart o k s.base.db s'.base.db := by
  cases scans_of_step h with
  | crash | abort => exact Or.inr fun _ => .of_tables rfl rfl rfl
  | @single b base _ hbase =>
    cases b with
    | worker i b =>
      obtain ⟨e, db, e', he, hstep, rfl⟩ := step_worker hbase
      have howned := hs.executions e (List.mem_of_getElem? he)
      exact Or.inl ⟨i, e, rfl, he, Execution.apart_step hs.db howned hstep⟩
    | _ =>
      obtain ⟨hhosts, hservices, hdiscoveries⟩ := results_frame hbase fun _ _ hab => by cases hab
      exact Or.inr fun _ => .of_tables hhosts hservices hdiscoveries
  | discovery hbase =>
    obtain ⟨e, db, e', he, hstep, rfl⟩ := step_worker hbase
    have howned := hs.executions e (List.mem_of_getElem? he)
    exact Or.inl ⟨_, e, rfl, he, Execution.apart_step hs.db howned hstep⟩
  | confirmation _ _ _ _ _ _ hlast =>
    refine Or.inr fun _ => ?_
    obtain ⟨rfl, -⟩ | hc := Execution.step_cases hlast
    · exact .of_tables rfl rfl rfl
    · revert hc
      cases Option.or _ _ <;> exact nofun

end

end TransportLookout
