/-
Authorized targets only.

The policy is checked in several places, at several times: a scope is approved
after it is imported, a schedule is checked when it is created and again when it
is due, a deletion looks for runs and schedules.  Together they keep one
invariant of the tables, `Db.Authorized`, and a worker hands a scanner only what
the invariant covers.
-/
import TransportLookout.System.Operations
import Mathlib.Data.List.Dedup

namespace TransportLookout

open Relational Trace

/-- Every run has an approved scope and a profile of its zone, and every shard is
a part of the scope of its run. -/
structure Db.Authorized (db : Db) : Prop where
  run : ∀ run ∈ db.runs.rows, ∃ scope profile,
    db.scopes.get run.inventoryScopeId = some scope ∧ scope.approved = true ∧
      db.profiles.get run.profileId = some profile ∧ scope.zone = profile.zone
  shard : ∀ r ∈ db.shards.rows, ∃ run scope, db.runs.get r.runId = some run ∧
    db.scopes.get run.inventoryScopeId = some scope ∧ r.zone = scope.zone ∧
      Ipv4.inside r.cidr scope.cidr = true

/-- The text denotes addresses of an approved scope. -/
def Db.Approves (db : Db) (target : String) : Prop :=
  ∃ scope ∈ db.scopes.rows, scope.approved = true ∧ Ipv4.inside target scope.cidr = true

/-! ## The operations -/

theorem authorized_empty : (State.initial .empty .empty).db.Authorized where
  run := fun _ hrun => absurd hrun List.not_mem_nil
  shard := fun _ hr => absurd hr List.not_mem_nil

section
variable {db db' : Db}

theorem authorized_keeps (h : db.Authorized) (hk : db.Keeps db') : db'.Authorized where
  run := by
    intro run hrun
    rw [hk.runs] at hrun
    obtain ⟨scope, profile, hscope, happroved, hprofile, hzone⟩ := h.run run hrun
    obtain ⟨scope', hscope', -, hzone', happroved'⟩ := hk.scope run hrun scope hscope
    exact ⟨scope', profile, hscope', happroved' happroved, hk.profile run hrun profile hprofile,
      hzone'.trans hzone⟩
  shard := by
    intro r hr
    rw [hk.shards] at hr
    obtain ⟨run, scope, hrun, hscope, hzone, hinside⟩ := h.shard r hr
    obtain ⟨scope', hscope', hcidr, hzone', -⟩ := hk.scope run (Table.get_mem hrun) scope hscope
    refine ⟨run, scope', ?_, hscope', hzone.trans hzone'.symm, ?_⟩
    · rw [hk.runs]
      exact hrun
    · rw [hcidr]
      exact hinside

theorem mem_mapIdx_cidr {cidrs : List String} {ids : Nat → Uuid} {pair : Uuid × String}
    (h : pair ∈ cidrs.mapIdx fun i cidr => (ids i, cidr)) : pair.2 ∈ cidrs := by
  obtain ⟨i, hi, rfl⟩ := List.mem_mapIdx.mp h
  exact List.getElem_mem hi

/-- The checks of a run creation are those of the invariant. -/
theorem authorized_createRun {policy : InventorySettings} {isIpv6 : String → Bool}
    {scope : InventoryScope} {profile : ScanProfile} {actor : String} {runId : Uuid}
    {ids : Nat → Uuid} (ha : db.Authorized) (hscope : scope ∈ db.scopes.rows)
    (hprofile : profile ∈ db.profiles.rows)
    (h : db.createRunIn policy isIpv6 scope profile actor runId ids = .ok db') :
    db'.Authorized := by
  obtain ⟨cidrs, hcidrs, hcreate⟩ := Db.createRunIn_ok h
  obtain ⟨happroved, hzone, hadded, hshards, hframe⟩ := Db.createRun_ok hcreate
  obtain ⟨created, hid, hscopeId, hprofileId, hruns⟩ : ∃ run : ScanRun, run.id = runId ∧
      run.inventoryScopeId = scope.id ∧ run.profileId = profile.id ∧
        db.runs.append? [run] = some db'.runs := ⟨_, rfl, rfl, rfl, hadded⟩
  have hscopes : db'.scopes = db.scopes := by rw [hframe]
  have hprofiles : db'.profiles = db.profiles := by rw [hframe]
  have hgetScope : db.scopes.get created.inventoryScopeId = some scope := by
    rw [hscopeId]
    exact Table.get_of_mem hscope
  have hgetProfile : db.profiles.get created.profileId = some profile := by
    rw [hprofileId]
    exact Table.get_of_mem hprofile
  have hget : db'.runs.get runId = some created := by
    refine Table.get_eq_some.mpr ⟨?_, hid⟩
    rw [Table.rows_append? hruns]
    exact List.mem_append_right _ (List.mem_singleton_self _)
  constructor
  · intro run hrun
    rw [hscopes, hprofiles]
    rw [Table.rows_append? hruns, List.mem_append] at hrun
    rcases hrun with hrun | hrun
    · exact ha.run run hrun
    · cases List.mem_singleton.mp hrun
      exact ⟨scope, profile, hgetScope, happroved, hgetProfile, hzone⟩
  · intro r hr
    rw [hscopes]
    rw [Table.rows_append? hshards, List.mem_append] at hr
    rcases hr with hr | hr
    · obtain ⟨run, scope₁, hrun, hscope₁, hrest⟩ := ha.shard r hr
      exact ⟨run, scope₁, Table.get_append?_of_get hruns hrun, hscope₁, hrest⟩
    · obtain ⟨pair, hpair, rfl⟩ := List.mem_map.mp hr
      have hinside := shardCidr_inside hcidrs pair.2 (mem_mapIdx_cidr hpair)
      exact ⟨created, scope, hget, hgetScope, rfl, hinside⟩

/-- The zone and the network of a shard are those it was created with. -/
theorem ShardStep.cidr {settings : Settings} {s : State} {a : Action} {r r' : ScanShard}
    (h : ShardStep settings s a r r') : r'.cidr = r.cidr ∧ r'.zone = r.zone := by
  cases h with
  | @finish _ _ _ o => cases o <;> exact ⟨rfl, rfl⟩
  | _ => exact ⟨rfl, rfl⟩

theorem authorized_system {settings : Settings} {s s' : State} {a : Action}
    (ha : s.db.Authorized) (hcreates : a.creates = false) (h : s.step settings a = some s') :
    s'.db.Authorized := by
  obtain ⟨hscopes, hprofiles⟩ := inventory_step h
  have hkept : ∀ {k run}, s.db.runs.get k = some run →
      ∃ run', s'.db.runs.get k = some run' ∧ run'.pair = run.pair := by
    intro k run hrun
    obtain ⟨run', hrun', rfl | hstep⟩ := run_step h hrun
    · exact ⟨run', hrun', rfl⟩
    · exact ⟨run', hrun', hstep.pair⟩
  constructor
  · intro run' hrun'
    have hget' : s'.db.runs.get run'.id = some run' := Table.get_of_mem hrun'
    cases hget : s.db.runs.get run'.id with
    | none =>
      obtain ⟨-, _, _, _, _, rfl⟩ := run_new h hget hget'
      cases hcreates
    | some run =>
      obtain ⟨run₁, hrun₁, hpair⟩ := hkept hget
      rw [hget'] at hrun₁
      cases hrun₁
      obtain ⟨hscope, hprofile⟩ := Prod.mk.inj hpair
      rw [hscopes, hprofiles, hscope, hprofile]
      exact ha.run run (Table.get_mem hget)
  · intro r' hr'
    rcases shard_cases h (Table.get_of_mem hr') with ⟨r, hr, hcase⟩ | hnew
    · obtain ⟨run, scope, hrun, hscope, hzone, hinside⟩ := ha.shard r (Table.get_mem hr)
      obtain ⟨run', hrun', hpair⟩ := hkept hrun
      have hsame : r'.runId = r.runId ∧ r'.cidr = r.cidr ∧ r'.zone = r.zone := by
        rcases hcase with rfl | hstep
        · exact ⟨rfl, rfl, rfl⟩
        · exact ⟨hstep.runId, hstep.cidr⟩
      rw [hscopes, hsame.1, hsame.2.1, hsame.2.2]
      refine ⟨run', scope, hrun', ?_, hzone, hinside⟩
      rw [(Prod.mk.inj hpair).1]
      exact hscope
    · obtain ⟨_, _, _, _, rfl, -⟩ := hnew.created
      cases hcreates

end

theorem authorized_step {d : Deployment} {s s' : Control} {a : ControlAction}
    (ha : s.base.db.Authorized) (h : s.step d a = some s') : s'.base.db.Authorized := by
  cases a with
  | request q =>
    obtain ⟨db, hok, hbase⟩ := control_request h
    rw [hbase]
    rcases perform_cases hok with hkeeps | ⟨scope, profile, actor, run, hscope, hprofile, hcreate⟩
    · exact authorized_keeps ha hkeeps
    · exact authorized_createRun ha hscope hprofile hcreate
  | dispatchDue now ids =>
    obtain ⟨db, hpass, hbase⟩ := control_dispatchDue h
    rw [hbase]
    have hloop := dispatchLoop_rule d now ids (fun _ db' heq h => authorized_keeps h (heq ▸ {}))
      (fun _ _ _ _ _ _ hscope hprofile hok h => authorized_createRun h hscope hprofile hok)
      (dueSchedules s.schedules now) s.base.db s.schedules ha
    rw [hpass] at hloop
    exact hloop
  | system a =>
    obtain ⟨hcreates, hstep, -⟩ := control_system h
    exact authorized_system ha hcreates hstep

/-! ## What a scanner is given -/

/-- The network of the first scanner command. -/
def Execution.network (e : Execution) : WorkerAction → Option String
  | .start _ => e.shard.map ScanShard.cidr
  | _ => none

/-- The addresses in the file of the second scanner command. -/
def Execution.candidates (e : Execution) : WorkerAction → List String
  | .storeDiscovery => (e.discoveries.map DiscoveryObservation.address).dedup
  | _ => []

/-- Masscan reports only addresses inside the network it was given. -/
def Execution.reportsInside (e : Execution) : WorkerAction → Bool
  | .addDiscoveries observations =>
    observations.all fun o => e.shard.any fun shard => Ipv4.inside o.1 shard.cidr
  | _ => true

namespace Control

/-- The execution that takes the step, and its action. -/
def executing (s : Control) : ControlAction → Option (Execution × WorkerAction)
  | .system (.worker i b) => (s.base.executions[i]?).map fun e => (e, b)
  | _ => none

def network (s : Control) (a : ControlAction) : Option String :=
  (s.executing a).bind fun x => x.1.network x.2

def candidates (s : Control) (a : ControlAction) : List String :=
  ((s.executing a).map fun x => x.1.candidates x.2).getD []

def reportsInside (s : Control) (a : ControlAction) : Bool :=
  (s.executing a).all fun x => x.1.reportsInside x.2

theorem executing_eq_some {s : Control} {a : ControlAction} {x : Execution × WorkerAction}
    (h : s.executing a = some x) :
    ∃ i, a = .system (.worker i x.2) ∧ s.base.executions[i]? = some x.1 := by
  cases a with
  | system a =>
    cases a with
    | worker i b =>
      obtain ⟨e, he, rfl⟩ := Option.map_eq_some_iff.mp h
      exact ⟨i, rfl, he⟩
    | _ => cases h
  | _ => cases h

end Control

/-- The shard an execution has loaded is a row with the same network. -/
structure Execution.Placed (db : Db) (e : Execution) : Prop where
  claimed : e.pc = .claimed → e.discoveries = []
  shard : ∀ l, e.shard = some l → ∃ r, db.shards.get e.shardId = some r ∧ r.cidr = l.cidr

/-- What Masscan found is inside the network of the shard. -/
def Execution.Within (e : Execution) : Prop :=
  ∀ o ∈ e.discoveries, ∃ l, e.shard = some l ∧ Ipv4.inside o.address l.cidr = true

theorem Execution.step_discoveries {db db' : Db} {e e' : Execution} {settings : Settings}
    {b : WorkerAction} (h : e.step db settings b = some (db', e')) :
    (∀ o ∈ e'.discoveries, o ∈ e.discoveries) ∨
      ∃ observations, b = .addDiscoveries observations ∧ e'.shard = e.shard ∧
        ∀ o ∈ e'.discoveries, o ∈ e.discoveries ∨ ∃ x ∈ observations, o.address = x.1 := by
  rcases step_cases h with ⟨-, hmove⟩ | hc
  · cases hmove with
    | missing | lost => exact Or.inl fun o ho => absurd ho List.not_mem_nil
    | @addDiscoveries run observations rows _ _ hrows =>
      refine Or.inr ⟨observations, rfl, rfl, fun o ho => (List.mem_append.mp ho).imp_right ?_⟩
      intro ho
      rw [hrows] at ho
      obtain ⟨x, hx, rfl⟩ := List.mem_map.mp ho
      exact ⟨x, hx, rfl⟩
    | _ => exact Or.inl fun o ho => ho
  · left
    intro o ho
    cases hc with
    | abandon | start => exact ho
    | beat _ _ _ _ he _ | beatLost _ _ _ he _ =>
      rw [he] at ho
      cases ho
    | finish => cases ho

section
variable {settings : Settings} {s s' : State} {a : Action}

theorem placed_step (hp : ∀ e ∈ s.executions, e.Placed s.db) (h : s.step settings a = some s') :
    ∀ e ∈ s'.executions, e.Placed s'.db := by
  have hkept : ∀ {k r}, s.db.shards.get k = some r →
      ∃ r', s'.db.shards.get k = some r' ∧ r'.cidr = r.cidr := by
    intro k r hr
    obtain ⟨r', hr', rfl | hstep⟩ := shard_step h hr
    · exact ⟨r', hr', rfl⟩
    · exact ⟨r', hr', hstep.cidr.1⟩
  have hrow : ∀ {k cidr}, (∃ r, s.db.shards.get k = some r ∧ r.cidr = cidr) →
      ∃ r, s'.db.shards.get k = some r ∧ r.cidr = cidr := by
    rintro k cidr ⟨r, hr, rfl⟩
    exact hkept hr
  refine executions_step h
    (fun e he => ⟨(hp e he).claimed, fun l hl => hrow ((hp e he).shard l hl)⟩) ?_
    fun _ _ => ⟨fun _ => rfl, fun _ hl => by cases hl⟩
  intro e he i b e' _ hstep
  have hchange := Execution.step_change hstep
  refine ⟨fun hpc => absurd hpc hchange.claimed, fun l hl => ?_⟩
  rw [(Execution.step_lease hstep).1]
  rcases hchange.shard with hsame | ⟨-, -, -, hload⟩
  · exact hrow ((hp e he).shard l (hsame ▸ hl))
  · rw [hload] at hl
    exact hkept hl

theorem within_report {e e' : Execution} {b : WorkerAction} {db db' : Db} (hp : e.Placed db)
    (hw : e.Within) (hreport : e.reportsInside b = true)
    (h : e.step db settings b = some (db', e')) : e'.Within := by
  intro o ho
  rcases Execution.step_discoveries h with hold | ⟨observations, rfl, hshard, hnew⟩
  · have hmem := hold o ho
    rcases (Execution.step_change h).shard with hsame | ⟨-, hpc, -, -⟩
    · rw [hsame]
      exact hw o hmem
    · rw [hp.claimed hpc] at hmem
      cases hmem
  · rw [hshard]
    rcases hnew o ho with hmem | ⟨x, hx, haddress⟩
    · exact hw o hmem
    · have hinside := List.all_eq_true.mp hreport x hx
      obtain ⟨l, hl, hlinside⟩ := (Option.any_eq_true _ _).mp hinside
      rw [haddress]
      exact ⟨l, hl, hlinside⟩

/-- A network inside that of a loaded shard is approved. -/
theorem approves_placed {e : Execution} {l : ScanShard} {target : String}
    (ha : s.db.Authorized) (hp : e.Placed s.db) (hl : e.shard = some l)
    (hinside : Ipv4.inside target l.cidr = true ∨ target = l.cidr) : s.db.Approves target := by
  obtain ⟨r, hr, hcidr⟩ := hp.shard l hl
  obtain ⟨run, scope, hrun, hscope, -, hshard⟩ := ha.shard r (Table.get_mem hr)
  obtain ⟨scope', -, hscope', happroved, -, -⟩ := ha.run run (Table.get_mem hrun)
  rw [hscope] at hscope'
  cases hscope'
  refine ⟨scope, Table.get_mem hscope, happroved, ?_⟩
  rw [hcidr] at hshard
  rcases hinside with hinside | rfl
  · exact Ipv4.inside_trans hinside hshard
  · exact hshard

end

/-! ## Runs -/

structure Placing (s : Control) : Prop where
  authorized : s.base.db.Authorized
  placed : ∀ e ∈ s.base.executions, e.Placed s.base.db

section
variable {d : Deployment} {s s' : Control} {a : ControlAction}

theorem Execution.Placed.of_shards {db db' : Db} {e : Execution} (h : e.Placed db)
    (hkept : ∀ k r, db.shards.get k = some r → db'.shards.get k = some r) : e.Placed db' where
  claimed := h.claimed
  shard := by
    intro l hl
    obtain ⟨r, hr, hcidr⟩ := h.shard l hl
    exact ⟨r, hkept _ r hr, hcidr⟩

/-- A request and a pass only add shards, and start no execution. -/
theorem control_shards (h : s.step d a = some s') (ha : ∀ b, a ≠ .system b) :
    s'.base.executions = s.base.executions ∧
      ∀ k r, s.base.db.shards.get k = some r → s'.base.db.shards.get k = some r := by
  have hcreate : ∀ {db db' : Db} {scope : InventoryScope} {profile : ScanProfile} {actor : String}
      {runId : Uuid} {ids : Nat → Uuid},
      db.createRunIn d.policy d.isIpv6 scope profile actor runId ids = .ok db' →
      ∀ k r, db.shards.get k = some r → db'.shards.get k = some r := by
    intro db db' scope profile actor runId ids hok k r hr
    obtain ⟨cidrs, -, hcreated⟩ := Db.createRunIn_ok hok
    obtain ⟨-, -, -, hshards, -⟩ := Db.createRun_ok hcreated
    exact Table.get_append?_of_get hshards hr
  cases a with
  | request q =>
    obtain ⟨db, hok, hbase⟩ := control_request h
    rw [hbase]
    refine ⟨rfl, fun k r hr => ?_⟩
    rcases perform_cases hok with hkeeps | ⟨_, _, _, _, -, -, hcreated⟩
    · rw [hkeeps.shards]
      exact hr
    · exact hcreate hcreated k r hr
  | dispatchDue now ids =>
    obtain ⟨db, hpass, hbase⟩ := control_dispatchDue h
    rw [hbase]
    refine ⟨rfl, fun k r hr => ?_⟩
    have hget := dispatchLoop_rule (P := fun db => db.shards.get k = some r) d now ids
      (fun _ _ heq h => by rw [heq]; exact h)
      (fun _ _ _ _ _ _ _ _ hok h => hcreate hok k r h)
      (dueSchedules s.schedules now) s.base.db s.schedules hr
    rw [hpass] at hget
    exact hget
  | system b => exact absurd rfl (ha b)

theorem placing_step (hs : Placing s) (h : s.step d a = some s') : Placing s' where
  authorized := authorized_step hs.authorized h
  placed := by
    by_cases ha : ∃ b, a = .system b
    · obtain ⟨b, rfl⟩ := ha
      obtain ⟨-, hstep, -⟩ := control_system h
      exact placed_step hs.placed hstep
    · obtain ⟨hexecutions, hshards⟩ := control_shards h fun b hb => ha ⟨b, hb⟩
      rw [hexecutions]
      exact fun e he => (hs.placed e he).of_shards hshards

theorem within_control (hs : Placing s) (hw : ∀ e ∈ s.base.executions, e.Within)
    (hreport : s.reportsInside a = true) (h : s.step d a = some s') :
    ∀ e ∈ s'.base.executions, e.Within := by
  by_cases ha : ∃ b, a = .system b
  · obtain ⟨b, rfl⟩ := ha
    obtain ⟨-, hstep, -⟩ := control_system h
    intro e' he'
    obtain ⟨i, hi⟩ := List.mem_iff_getElem?.mp he'
    rcases execution_cases hstep hi with ⟨he, -⟩ | ⟨e, c, he, rfl, hworker⟩ | ⟨_, _, -, -, -, hnew⟩
    · exact hw e' (List.mem_of_getElem? he)
    · have hmem : e ∈ s.base.executions := List.mem_of_getElem? he
      rw [Control.reportsInside, Control.executing, he] at hreport
      exact within_report (hs.placed e hmem) (hw e hmem) hreport hworker
    · rw [hnew]
      exact fun o ho => absurd ho List.not_mem_nil
  · obtain ⟨hexecutions, -⟩ := control_shards h fun b hb => ha ⟨b, hb⟩
    rw [hexecutions]
    exact hw

theorem approves_network (hs : Placing s) {cidr : String} (hcidr : s.network a = some cidr) :
    s.base.db.Approves cidr := by
  obtain ⟨⟨e, b⟩, hx, hnetwork⟩ := Option.bind_eq_some_iff.mp hcidr
  obtain ⟨i, -, he⟩ := Control.executing_eq_some hx
  cases b with
  | start now =>
    obtain ⟨l, hl, rfl⟩ := Option.map_eq_some_iff.mp hnetwork
    exact approves_placed hs.authorized (hs.placed e (List.mem_of_getElem? he)) hl (Or.inr rfl)
  | _ => cases hnetwork

theorem approves_candidates (hs : Placing s) (hw : ∀ e ∈ s.base.executions, e.Within)
    {address : String} (haddress : address ∈ s.candidates a) : s.base.db.Approves address := by
  rw [Control.candidates] at haddress
  cases hx : s.executing a with
  | none =>
    rw [hx] at haddress
    cases haddress
  | some x =>
    obtain ⟨e, b⟩ := x
    obtain ⟨i, -, he⟩ := Control.executing_eq_some hx
    have hmem : e ∈ s.base.executions := List.mem_of_getElem? he
    rw [hx, Option.map_some, Option.getD_some] at haddress
    cases b with
    | storeDiscovery =>
      obtain ⟨o, ho, rfl⟩ := List.mem_map.mp (List.mem_dedup.mp haddress)
      obtain ⟨l, hl, hinside⟩ := hw e hmem o ho
      exact approves_placed hs.authorized (hs.placed e hmem) hl (Or.inl hinside)
    | _ => cases haddress

end

/-- Every shard row, and every target of a scanner command, is authorized. -/
structure AuthorizedOnly (tr : List (Transition Control ControlAction)) (t : Control) : Prop where
  shard : ∀ r ∈ t.base.db.shards.rows, ∃ run scope profile,
    t.base.db.runs.get r.runId = some run ∧
    t.base.db.scopes.get run.inventoryScopeId = some scope ∧ scope.approved = true ∧
    t.base.db.profiles.get run.profileId = some profile ∧
    Ipv4.inside r.cidr scope.cidr = true ∧ r.zone = scope.zone ∧ r.zone = profile.zone
  network : ∀ x ∈ tr, ∀ cidr, x.pre.network x.act = some cidr → x.pre.base.db.Approves cidr
  candidate : Along Control.reportsInside tr →
    ∀ x ∈ tr, ∀ address ∈ x.pre.candidates x.act, x.pre.base.db.Approves address

theorem authorized_only (d : Deployment) (tr : List (Transition Control ControlAction))
    (t : Control) (h : Path (Control.step d) Control.initial tr t) : AuthorizedOnly tr t := by
  have hinitial : Placing Control.initial :=
    ⟨authorized_empty, fun _ he => absurd he List.not_mem_nil⟩
  have hplacing : ∀ x ∈ tr, Placing x.pre := fun x hx =>
    (h.invariant_at (C := fun _ _ => true) hinitial (fun _ _ _ hs _ => placing_step hs)
      (fun _ _ => rfl) hx).1
  have hend : Placing t :=
    h.invariant (C := fun _ _ => true) hinitial (fun _ _ _ hs _ => placing_step hs) fun _ _ => rfl
  constructor
  · intro r hr
    obtain ⟨run, scope, hrun, hscope, hzone, hinside⟩ := hend.authorized.shard r hr
    obtain ⟨scope', profile, hscope', happroved, hprofile, hsame⟩ :=
      hend.authorized.run run (Table.get_mem hrun)
    rw [hscope] at hscope'
    cases hscope'
    exact ⟨run, scope, profile, hrun, hscope, happroved, hprofile, hinside, hzone,
      hzone.trans hsame⟩
  · exact fun x hx cidr hcidr => approves_network (hplacing x hx) hcidr
  · intro halong x hx address haddress
    have hwithin := h.invariant_at
      (I := fun s => Placing s ∧ ∀ e ∈ s.base.executions, e.Within)
      ⟨hinitial, fun _ he => absurd he List.not_mem_nil⟩
      (fun _ _ _ hs hreport hstep =>
        ⟨placing_step hs.1 hstep, within_control hs.1 hs.2 hreport hstep⟩) halong hx
    exact approves_candidates hwithin.1.1 hwithin.1.2 haddress

namespace Demo

def scheduled : List ControlAction :=
  inventory ++ [.dispatchDue 0 fun _ => ⟨"run", fun i => if i = 0 then "s1" else "s2"⟩,
    .system (.countActive .creator "run"), .system (.lease 0 ["t1", "t2"] ["e1", "e2"] 0)]

def discovery : List ControlAction :=
  (publish 0 0 ++ begin 0 "s1" "t1" 0 ++ [.exit, .recheck,
    .addDiscoveries [("10.0.0.7", "tcp", 443), ("10.0.0.7", "tcp", 80)]].map
      (Action.worker 0)).map .system

end Demo

/-- The scheduled run is cut in two, and the address Masscan found is scanned. -/
theorem authorized_only_scheduled :
    ∃ tr t u, Path (Control.step {}) Control.initial
        (tr ++ [⟨t, .system (.worker 0 .storeDiscovery), u⟩]) u ∧
      AuthorizedOnly (tr ++ [⟨t, .system (.worker 0 .storeDiscovery), u⟩]) u ∧
      t.candidates (.system (.worker 0 .storeDiscovery)) = ["10.0.0.7"] ∧
      u.base.db.shards.rows.map ScanShard.cidr = ["10.0.0.0/24", "10.0.1.0/24"] ∧
      t.base.db.Approves "10.0.0.7" := by
  have hrun : ((runWhile (Control.step {}) Control.reportsInside Control.initial
      (Demo.scheduled ++ Demo.discovery)).bind fun t =>
        (Control.step {} t (.system (.worker 0 .storeDiscovery))).map fun u =>
          (t.candidates (.system (.worker 0 .storeDiscovery)),
            u.base.db.shards.rows.map ScanShard.cidr)) =
      some (["10.0.0.7"], ["10.0.0.0/24", "10.0.1.0/24"]) := by
    decide +kernel
  obtain ⟨tr, t, u, hp, halong, hobs⟩ := Path.of_runWhile_step hrun
  obtain ⟨hcandidates, hcidrs⟩ := Prod.mk.inj hobs
  have honly := authorized_only {} _ u hp
  refine ⟨tr, t, u, hp, honly, hcandidates, hcidrs, ?_⟩
  have hreports : Along Control.reportsInside
      (tr ++ [⟨t, .system (.worker 0 .storeDiscovery), u⟩]) := by
    intro x hx
    rcases List.mem_append.mp hx with hx | hx
    · exact halong x hx
    · cases List.mem_singleton.mp hx
      cases he : t.base.executions[0]? with
      | none => simp [Control.reportsInside, Control.executing, he]
      | some e => simp [Control.reportsInside, Control.executing, he, Execution.reportsInside]
  refine honly.candidate hreports _ (List.mem_append_right _ (List.mem_singleton_self _)) _ ?_
  rw [hcandidates]
  exact List.mem_singleton_self _

end TransportLookout
