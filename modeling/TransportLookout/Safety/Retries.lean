/-
What a completed shard shows of its earlier attempts.

The scan stage starts with a commit that deletes what the shard has, so an execution
whose shard no other execution acts on leaves the rows of the documents it has read
and nothing else.  `Reflects` is that invariant: what the tables hold of the shard,
with what the execution holds back, are the rows of its readings.  Two executions
with the same readings thus leave the same observations and artifact keys, up to ids
and tokens, whatever attempts came before.
-/
import TransportLookout.Safety.Artifacts
import TransportLookout.Safety.Ending
import TransportLookout.Safety.Ownership

namespace TransportLookout

open Relational Trace

/-! ## Rows up to ids and tokens -/

def HostObservation.nameless (h : HostObservation) : HostObservation :=
  { h with id := "", leaseToken := none }

def ServiceObservation.nameless (s : ServiceObservation) : ServiceObservation :=
  { s with id := "", hostObservationId := "" }

def DiscoveryObservation.nameless (o : DiscoveryObservation) : DiscoveryObservation :=
  { o with leaseToken := none }

/-- The hosts of the shard, each with its services. -/
def reportedHosts (hosts : List HostObservation) (services : List ServiceObservation)
    (shardId : Uuid) : List (HostObservation × List ServiceObservation) :=
  (hosts.filter fun h => h.shardId = shardId).map fun h =>
    (h.nameless, (services.filter fun s => s.hostObservationId = h.id).map
      ServiceObservation.nameless)

def reportedDiscoveries (discoveries : List DiscoveryObservation) (shardId : Uuid) :
    List DiscoveryObservation :=
  (discoveries.filter fun o => o.shardId = shardId).map DiscoveryObservation.nameless

structure Report where
  hosts : List (HostObservation × List ServiceObservation)
  discoveries : List DiscoveryObservation
deriving DecidableEq

def Db.report (db : Db) (shardId : Uuid) : Report where
  hosts := reportedHosts db.hosts.rows db.services.rows shardId
  discoveries := reportedDiscoveries db.discoveries.rows shardId

/-- The same with the rows the execution holds back. -/
def Execution.report (e : Execution) (db : Db) : Report where
  hosts := reportedHosts (db.hosts.rows ++ e.hosts) (db.services.rows ++ e.services) e.shardId
  discoveries := reportedDiscoveries (db.discoveries.rows ++ e.discoveries) e.shardId

/-! ## Readings -/

/-- A document an execution has read. -/
inductive Reading
  | discovery (document : Document)
  | confirmation (document : Document)

namespace Reading

def stage : Reading → Stage
  | .discovery _ => .masscan
  | .confirmation _ => .nmap

variable (p : Platform)

def hosts : Reading → List ScannedHost
  | .discovery _ => []
  | .confirmation document => (normalizeNmapXml p.int document).1

def candidates : Reading → List (String × String × Int)
  | .discovery document => (readMasscanXml p.int document).toOption.getD []
  | .confirmation _ => []

end Reading

def ScannedHost.reported (runId shardId : Uuid) (h : ScannedHost) :
    HostObservation × List ServiceObservation :=
  ({ h.row "" with runId := runId, shardId := shardId }, h.services.map fun s => s.row "")

/-- The rows the documents stand for. -/
def documented (p : Platform) (runId shardId : Uuid) (l : List Reading) : Report where
  hosts := (l.flatMap (Reading.hosts p)).map (ScannedHost.reported runId shardId)
  discoveries := (l.flatMap (Reading.candidates p)).map fun (address, protocol, port) =>
    { runId, shardId, address, protocol, port }

/-- The key of the stage's artifact, where its document has been read. -/
def documentedKey (e : Execution) (runId : Uuid) (l : List Reading) (stage : Stage) :
    Option String :=
  if l.any fun r => r.stage = stage then
    some (Db.artifactKey runId e.shardId stage.name e.leaseToken)
  else none

/-- What execution `i` reads in the step. -/
def ScanAction.reading (i : Nat) : ScanAction → Option Reading
  | .readDiscovery j document => if j = i then some (.discovery document) else none
  | .readConfirmation j document _ _ => if j = i then some (.confirmation document) else none
  | _ => none

def readings (i : Nat) (tr : List (Transition Scanning ScanAction)) : List Reading :=
  tr.filterMap fun x => x.act.reading i

/-! ## The invariant of an execution -/

def Pc.unstarted : Pc → Bool
  | .claimed | .shardLoaded | .loaded | .servicesCleared | .hostsCleared | .cleared => true
  | _ => false

/-- The scan has started, and has not been given up. -/
def Pc.scanned : Pc → Bool
  | .finished .completed => true
  | pc => pc.started

/-- On the way to a completed shard, with the artifact of every document read stored. -/
def Pc.stored : Pc → Bool
  | .polling _ | .refreshed _ | .owned _ | .beating _ _ | .exited _ | .recording _
  | .results | .confirmed => true
  | .finishing o _ => o.status = .completed
  | .finished status => status = .completed
  | _ => false

theorem scanned_of_stored {pc : Pc} (h : pc.stored = true) : pc.scanned = true := by
  cases pc with
  | finished status => cases status <;> first | rfl | cases h
  | _ => first | rfl | cases h

structure Reflects (p : Platform) (db : Db) (e : Execution) (l : List Reading) : Prop where
  blank : e.pc.unstarted = true → l = [] ∧ e.hosts = [] ∧ e.services = [] ∧
    e.discoveries = [] ∧ e.artifactKey = none ∧ e.discoveryArtifactKey = none
  doomedHosts : e.pc.cleans = true →
    ∀ x ∈ db.hosts.rows, x.shardId = e.shardId → x.id ∈ e.doomedHosts
  doomedDiscoveries : e.pc = .cleared →
    ∀ x ∈ db.discoveries.rows, x.shardId = e.shardId → Keyed.key x ∈ e.doomedDiscoveries
  report : e.pc.scanned = true →
    ∃ run, e.run = some run ∧ e.report db = documented p run.id e.shardId l
  keys : e.pc.stored = true → ∀ run, e.run = some run →
    e.artifactKey = documentedKey e run.id l .nmap ∧
      e.discoveryArtifactKey = documentedKey e run.id l .masscan
  discovered : e.pc = .discovered → (l.any fun r => r.stage = .masscan) = true ∧
    ∀ run, e.run = some run → e.artifactKey = documentedKey e run.id l .nmap
  row : e.pc = .finished .completed → ∃ r, db.shards.get e.shardId = some r ∧
    r.artifactKey = e.artifactKey ∧ r.discoveryArtifactKey = e.discoveryArtifactKey

section
variable {p : Platform} {settings : Settings} {db db' : Db} {e e' : Execution} {l : List Reading}
  {a : WorkerAction}

/-- Program points with nothing to say. -/
theorem Reflects.ended (h : e.pc = .stopped ∨ ∃ status, e.pc = .finished status ∧
    status ≠ .completed) : Reflects p db e l := by
  rcases h with hpc | ⟨status, hpc, hne⟩
  · constructor <;> rw [hpc] <;> exact nofun
  · have hscanned : (Pc.finished status).scanned = false := by
      cases status <;> first | rfl | exact absurd rfl hne
    constructor
    · rw [hpc]
      exact nofun
    · rw [hpc]
      exact nofun
    · rw [hpc]
      exact nofun
    · rw [hpc, hscanned]
      exact nofun
    · rw [hpc, Pc.stored, decide_eq_false hne]
      exact nofun
    · rw [hpc]
      exact nofun
    · intro hfin
      rw [hpc] at hfin
      exact absurd (Pc.finished.inj hfin) hne

/-- From `pc'` nothing follows that does not follow from `pc`. -/
def Pc.keeps (pc pc' : Pc) : Bool :=
  (!pc'.unstarted || pc.unstarted) && (!pc'.scanned || pc.scanned) &&
    (!pc'.stored || pc.stored) && !pc'.cleans && pc' ≠ .discovered && pc' ≠ .finished .completed

theorem scanned_of_started {pc : Pc} (h : pc.started = true) : pc.scanned = true := by
  cases pc <;> first | rfl | cases h

theorem keeps_finishing {pc : Pc} {o : Outcome} {counts : Option TerminalCounts}
    (hscanned : pc.scanned = true) (hstored : o.status = .completed → pc.stored = true) :
    pc.keeps (.finishing o counts) = true := by
  have hkeeps : pc.keeps (.finishing o counts) =
      (!(decide (o.status = .completed)) || pc.stored) := by
    rw [Pc.keeps, hscanned]
    simp [Pc.unstarted, Pc.cleans, Pc.stored]
  rw [hkeeps]
  by_cases hcompleted : o.status = .completed
  · rw [hstored hcompleted, Bool.or_true]
  · rw [decide_eq_false hcompleted]
    rfl

/-- A step that moves on and leaves the rows and the keys alone. -/
theorem Reflects.moved {pc pc' : Pc} (h : Reflects p db e l) (hpc : e.pc = pc)
    (hpc' : e'.pc = pc') (hkeeps : pc.keeps pc' = true) (hreport : e'.report db = e.report db)
    (hlease : e'.shardId = e.shardId ∧ e'.leaseToken = e.leaseToken)
    (hpending : e'.hosts = e.hosts ∧ e'.services = e.services ∧ e'.discoveries = e.discoveries)
    (hkeys : e'.artifactKey = e.artifactKey ∧ e'.discoveryArtifactKey = e.discoveryArtifactKey)
    (hrun : pc'.scanned = true → e'.run.map ScanRun.id = e.run.map ScanRun.id) :
    Reflects p db e' l := by
  subst hpc
  subst hpc'
  obtain ⟨hshard, htoken⟩ := hlease
  obtain ⟨hhosts, hservices, hdiscoveries⟩ := hpending
  simp only [Pc.keeps, Bool.and_eq_true, Bool.or_eq_true, Bool.not_eq_true',
    decide_eq_true_eq] at hkeeps
  obtain ⟨⟨⟨⟨⟨hunstarted, hscanned⟩, hstored⟩, hcleans⟩, hdiscovered⟩, hfinished⟩ := hkeeps
  have hback : ∀ {b b' : Bool}, b' = false ∨ b = true → b' = true → b = true := by
    rintro b b' (hb' | hb) h
    · rw [hb'] at h
      cases h
    · exact hb
  refine ⟨fun hpc => ?_, fun hpc => ?_, fun hpc => ?_, fun hpc => ?_, fun hpc run hsome => ?_,
    fun hpc => absurd hpc hdiscovered, fun hpc => absurd hpc hfinished⟩
  · rw [hhosts, hservices, hdiscoveries, hkeys.1, hkeys.2]
    exact h.blank (hback hunstarted hpc)
  · rw [hpc] at hcleans
    cases hcleans
  · rw [hpc] at hcleans
    cases hcleans
  · obtain ⟨run, hsome, hrows⟩ := h.report (hback hscanned hpc)
    have hmap := hrun hpc
    rw [hsome, Option.map_some] at hmap
    obtain ⟨run', hsome', hid⟩ := Option.map_eq_some_iff.mp hmap
    exact ⟨run', hsome', by rw [hreport, hrows, hid, hshard]⟩
  · have hmap := hrun (scanned_of_stored hpc)
    rw [hsome, Option.map_some] at hmap
    obtain ⟨run₀, hsome₀, hid⟩ := Option.map_eq_some_iff.mp hmap.symm
    have hold := h.keys (hback hstored hpc) run₀ hsome₀
    rw [hkeys.1, hkeys.2, hold.1, hold.2, hid, documentedKey, documentedKey, documentedKey,
      documentedKey, hshard, htoken]
    exact ⟨rfl, rfl⟩

/-! ## Statements of the execution -/

theorem report_flushed (hhosts : db'.hosts.rows = db.hosts.rows ++ e.hosts)
    (hservices : db'.services.rows = db.services.rows ++ e.services)
    (hdiscoveries : db'.discoveries.rows = db.discoveries.rows ++ e.discoveries)
    (hflushed : e'.hosts = [] ∧ e'.services = [] ∧ e'.discoveries = [])
    (hshard : e'.shardId = e.shardId) : e'.report db' = e.report db := by
  obtain ⟨hh, hs, hd⟩ := hflushed
  rw [Execution.report, Execution.report, hhosts, hservices, hdiscoveries, hh, hs, hd, hshard]
  simp only [List.append_nil]

/-- A commit inserts what is pending, or it is the one that starts the scan. -/
theorem Execution.Commit.flushes (h : e.Commit db a db' e') :
    (∃ o, a = .abandon ∧ e'.pc = .finished o ∧ o ≠ .completed) ∨
    (∃ now run, a = .start now ∧ e.pc = .cleared ∧ e.run = some run ∧
      db' = (e.startCommit db run now).1 ∧
      e' = { e with pc := .polling e.firstStage, run := some (e.startCommit db run now).2 }) ∨
    (db'.hosts.rows = db.hosts.rows ++ e.hosts ∧
      db'.services.rows = db.services.rows ++ e.services ∧
      db'.discoveries.rows = db.discoveries.rows ++ e.discoveries ∧
      (e'.hosts = [] ∧ e'.services = [] ∧ e'.discoveries = []) ∧
      (e'.shardId = e.shardId ∧ e'.leaseToken = e.leaseToken) ∧
      (e'.artifactKey = e.artifactKey ∧ e'.discoveryArtifactKey = e.discoveryArtifactKey) ∧
      e'.run.map ScanRun.id = e.run.map ScanRun.id ∧
      ((∃ stage beat, e.pc = .beating stage beat ∧
          (e'.pc = .exited stage ∨ e'.pc = .polling stage)) ∨
        ∃ o counts, e.pc = .finishing o counts ∧ e'.pc = .finished o.status ∧
          ∃ r, db.shards.get e.shardId = some r ∧
            db'.shards.get e.shardId = some (r.finish o))) := by
  cases h with
  | @abandon o hpc ho howns =>
    refine Or.inl ⟨o.status, rfl, rfl, ?_⟩
    rcases abandonOutcome_cases ho with rfl | rfl
    · decide
    · decide
  | @start run now hpc hrun => exact Or.inr (Or.inl ⟨now, run, rfl, hpc, hrun, rfl, rfl⟩)
  | @beat stage now run _ _ hpc hrun howns hflush he hnext =>
    obtain ⟨_, _, _, hhosts, hservices, hdiscoveries, rfl⟩ := flush_frame hflush
    refine Or.inr (Or.inr ⟨Table.rows_append? hhosts, Table.rows_append? hservices,
      Table.rows_append? hdiscoveries, ?_, ?_, ?_, ?_, Or.inl ⟨stage, _, hpc, ?_⟩⟩)
    · rw [he]
      exact ⟨rfl, rfl, rfl⟩
    · rw [he]
      exact ⟨rfl, rfl⟩
    · rw [he]
      exact ⟨rfl, rfl⟩
    · rw [he]
      rfl
    · exact hnext.imp And.left And.left
  | @beatLost stage run _ _ hpc hrun hflush he hnext =>
    obtain ⟨_, _, _, hhosts, hservices, hdiscoveries, rfl⟩ := flush_frame hflush
    refine Or.inr (Or.inr ⟨Table.rows_append? hhosts, Table.rows_append? hservices,
      Table.rows_append? hdiscoveries, ?_, ?_, ?_, ?_, Or.inl ⟨stage, _, hpc, ?_⟩⟩)
    · rw [he]
      exact ⟨rfl, rfl, rfl⟩
    · rw [he]
      exact ⟨rfl, rfl⟩
    · rw [he]
      exact ⟨rfl, rfl⟩
    · rw [he]
      rfl
    · exact hnext.imp And.left And.left
  | @finish o counts run now db₁ _ run' hpc hrun howns hflush hfin =>
    obtain ⟨r, hr, -, -⟩ := Db.currentLease_iff.mp howns
    have hrow := get_finishLease_of_owns o howns hr
    obtain ⟨_, _, _, hhosts, hservices, hdiscoveries, rfl⟩ := flush_frame hflush
    obtain ⟨hframe, hid⟩ := Db.finalizeWith_frame hfin
    have hrun' : (some run').map ScanRun.id = e.run.map ScanRun.id := by
      rw [hrun, Option.map_some, Option.map_some, hid]
    refine Or.inr (Or.inr ?_)
    rw [hframe]
    exact ⟨Table.rows_append? hhosts, Table.rows_append? hservices,
      Table.rows_append? hdiscoveries, ⟨rfl, rfl, rfl⟩, ⟨rfl, rfl⟩, ⟨rfl, rfl⟩, hrun',
      Or.inr ⟨o, counts, hpc, rfl, r, hr, hrow⟩⟩

/-- The commit that starts the scan leaves nothing of earlier attempts. -/
theorem Reflects.start {run : ScanRun} {now : DateTime} (h : Reflects p db e l)
    (hpc : e.pc = .cleared) : Reflects p (e.startCommit db run now).1
      { e with pc := .polling e.firstStage, run := some (e.startCommit db run now).2 } l := by
  obtain ⟨hl, hhosts, hservices, hdiscoveries, hkey, hkey'⟩ := h.blank (by rw [hpc]; rfl)
  have hnone : ∀ {α : Type} {P : Prop} {x : α}, x ∈ ([] : List α) → P :=
    fun hx => absurd hx List.not_mem_nil
  have hreport : (Execution.report { e with
        pc := .polling e.firstStage, run := some (e.startCommit db run now).2 }
      (e.startCommit db run now).1) = ⟨[], []⟩ := by
    have hall : ((e.startCommit db run now).1.hosts.rows ++ e.hosts).filter
        (fun x => x.shardId = e.shardId) = [] := by
      rw [hhosts, List.append_nil]
      refine List.filter_eq_nil_iff.mpr fun x hx hshard => ?_
      obtain ⟨hold, hkept⟩ := Table.mem_delete.mp hx
      exact of_decide_eq_false hkept
        (h.doomedHosts (by rw [hpc]; rfl) x hold (of_decide_eq_true hshard))
    have hall' : ((e.startCommit db run now).1.discoveries.rows ++ e.discoveries).filter
        (fun x => x.shardId = e.shardId) = [] := by
      rw [hdiscoveries, List.append_nil]
      refine List.filter_eq_nil_iff.mpr fun x hx hshard => ?_
      obtain ⟨hold, hkept⟩ := Table.mem_delete.mp hx
      exact of_decide_eq_false hkept (h.doomedDiscoveries hpc x hold (of_decide_eq_true hshard))
    rw [Execution.report, reportedHosts, reportedDiscoveries]
    dsimp only
    rw [hall, hall']
    rfl
  refine ⟨nofun, nofun, nofun, fun _ => ⟨_, rfl, ?_⟩, fun _ run' hrun' => ?_, nofun, nofun⟩
  · rw [hreport, hl]
    rfl
  · rw [hl]
    exact ⟨hkey, hkey'⟩

theorem outcome_of_completed {o : Outcome} {now : DateTime} (h : e.outcome settings now = some o)
    (ho : o.status = .completed) : e.pc = .confirmed := by
  rw [Execution.outcome] at h
  split at h
  · split at h
    · cases h
      cases ho
    · cases h
  · next hpc => exact hpc
  · split at h
    · split at h
      · cases h
        cases ho
      · cases h
        cases ho
    · cases h
  · cases h

theorem Reflects.flushed (h : Reflects p db e l) (hreport : e'.report db' = e.report db)
    (hlease : e'.shardId = e.shardId ∧ e'.leaseToken = e.leaseToken)
    (hkeys : e'.artifactKey = e.artifactKey ∧ e'.discoveryArtifactKey = e.discoveryArtifactKey)
    (hrun : e'.run.map ScanRun.id = e.run.map ScanRun.id)
    (hstored : e'.pc.stored = true → e.pc.stored = true) (hscanned : e.pc.scanned = true)
    (hpc : e'.pc.unstarted = false ∧ e'.pc.cleans = false ∧ e'.pc ≠ .discovered)
    (hrow : e'.pc = .finished .completed → ∃ r, db'.shards.get e'.shardId = some r ∧
      r.artifactKey = e'.artifactKey ∧ r.discoveryArtifactKey = e'.discoveryArtifactKey) :
    Reflects p db' e' l := by
  obtain ⟨hunstarted, hcleans, hdiscovered⟩ := hpc
  obtain ⟨run, hsome, hrows⟩ := h.report hscanned
  have hsome' : ∃ run', e'.run = some run' ∧ run'.id = run.id := by
    rw [hsome, Option.map_some] at hrun
    exact Option.map_eq_some_iff.mp hrun
  obtain ⟨run', hrun', hid⟩ := hsome'
  refine ⟨fun hb => ?_, fun hc => ?_, fun hc => ?_, fun _ => ⟨run', hrun', ?_⟩,
    fun hs run₁ hrun₁ => ?_, fun hd => absurd hd hdiscovered, hrow⟩
  · rw [hunstarted] at hb
    cases hb
  · rw [hcleans] at hc
    cases hc
  · rw [hc] at hcleans
    cases hcleans
  · rw [hreport, hrows, hid, hlease.1]
  · rw [hrun'] at hrun₁
    cases hrun₁
    have hold := h.keys (hstored hs) run hsome
    rw [hkeys.1, hkeys.2, hold.1, hold.2, hid, documentedKey, documentedKey, documentedKey,
      documentedKey, hlease.1, hlease.2]
    exact ⟨rfl, rfl⟩

/-- A statement that reads no document. -/
theorem Reflects.step (h : Reflects p db e l) (hnames : e.NamesKeys) (ha : a.records = false)
    (hstep : e.step db settings a = some (db', e')) : Reflects p db' e' l := by
  rcases Execution.step_cases hstep with ⟨rfl, hmove⟩ | hcommit
  · cases hmove with
    | missing | lost => exact .ended (Or.inl rfl)
    | loadShard hpc => exact h.moved hpc rfl rfl rfl ⟨rfl, rfl⟩ ⟨rfl, rfl, rfl⟩ ⟨rfl, rfl⟩ nofun
    | loadRun hpc => exact h.moved hpc rfl rfl rfl ⟨rfl, rfl⟩ ⟨rfl, rfl, rfl⟩ ⟨rfl, rfl⟩ nofun
    | clearServices hpc =>
      exact h.moved hpc rfl rfl rfl ⟨rfl, rfl⟩ ⟨rfl, rfl, rfl⟩ ⟨rfl, rfl⟩ nofun
    | @clearHosts doomed hpc hdoomed =>
      refine ⟨fun _ => h.blank (by rw [hpc]; rfl), fun _ x hx hshard => ?_, nofun, nofun, nofun,
        nofun, nofun⟩
      show x.id ∈ doomed
      rw [hdoomed]
      exact List.mem_map_of_mem (Table.mem_select.mpr ⟨hx, decide_eq_true hshard⟩)
    | @clearDiscoveries doomed hpc hdoomed =>
      refine ⟨fun _ => h.blank (by rw [hpc]; rfl), fun _ => h.doomedHosts (by rw [hpc]; rfl),
        fun _ x hx hshard => ?_, nofun, nofun, nofun, nofun⟩
      show Keyed.key x ∈ doomed
      rw [hdoomed]
      exact List.mem_map_of_mem (Table.mem_select.mpr ⟨hx, decide_eq_true hshard⟩)
    | @refresh stage run current hpc hrun hcurrent =>
      refine h.moved hpc rfl (by cases stage <;> rfl) rfl ⟨rfl, rfl⟩ ⟨rfl, rfl, rfl⟩ ⟨rfl, rfl⟩
        fun _ => ?_
      rw [hrun]
      exact congrArg some (Table.get_key hcurrent)
    | @checkLease stage hpc =>
      exact h.moved hpc rfl (by cases stage <;> rfl) rfl ⟨rfl, rfl⟩ ⟨rfl, rfl, rfl⟩ ⟨rfl, rfl⟩
        fun _ => rfl
    | @heartbeat stage _ hpc =>
      exact h.moved hpc rfl (by cases stage <;> rfl) rfl ⟨rfl, rfl⟩ ⟨rfl, rfl, rfl⟩ ⟨rfl, rfl⟩
        fun _ => rfl
    | @exit stage hpc =>
      exact h.moved hpc rfl (by cases stage <;> rfl) rfl ⟨rfl, rfl⟩ ⟨rfl, rfl, rfl⟩ ⟨rfl, rfl⟩
        fun _ => rfl
    | @recheck stage hpc =>
      exact h.moved hpc rfl (by cases stage <;> rfl) rfl ⟨rfl, rfl⟩ ⟨rfl, rfl, rfl⟩ ⟨rfl, rfl⟩
        fun _ => rfl
    | @storeDiscovery run pc key events hpc hrun hnext hkey =>
      obtain ⟨hread, hartifact⟩ := h.discovered hpc
      have hpc' : pc = .results ∨ pc = .polling .nmap := by
        split at hnext
        · exact Or.inl hnext
        · exact Or.inr hnext
      obtain ⟨run₀, hrun₀, hrows⟩ := h.report (by rw [hpc]; rfl)
      have hkeys : e.artifactKey = documentedKey e run.id l .nmap ∧
          some key = documentedKey e run.id l .masscan := by
        refine ⟨hartifact run hrun, ?_⟩
        rw [documentedKey, if_pos hread, hkey]
        rfl
      rcases hpc' with rfl | rfl
      · refine ⟨nofun, nofun, nofun, fun _ => ⟨run₀, hrun₀, hrows⟩, fun _ run₁ hrun₁ => ?_, nofun,
          nofun⟩
        rw [hrun] at hrun₁
        cases hrun₁
        exact hkeys
      · refine ⟨nofun, nofun, nofun, fun _ => ⟨run₀, hrun₀, hrows⟩, fun _ run₁ hrun₁ => ?_, nofun,
          nofun⟩
        rw [hrun] at hrun₁
        cases hrun₁
        exact hkeys
    | confirm hpc =>
      exact h.moved hpc rfl rfl rfl ⟨rfl, rfl⟩ ⟨rfl, rfl, rfl⟩ ⟨rfl, rfl⟩ fun _ => rfl
    | fail htry =>
      refine h.moved rfl rfl ?_ rfl ⟨rfl, rfl⟩ ⟨rfl, rfl, rfl⟩ ⟨rfl, rfl⟩ fun _ => rfl
      revert htry
      cases e.pc <;> exact fun htry => by first | rfl | cases htry
    | @finish now o ho howns =>
      have hscanned := scanned_of_started (Execution.outcome_started ho)
      refine h.moved rfl rfl (keeps_finishing hscanned fun hcompleted => ?_) rfl ⟨rfl, rfl⟩
        ⟨rfl, rfl, rfl⟩ ⟨rfl, rfl⟩ fun _ => rfl
      rw [outcome_of_completed ho hcompleted]
      rfl
    | @countShards o run db₁ hpc hrun =>
      exact h.moved hpc rfl (keeps_finishing rfl decide_eq_true) rfl ⟨rfl, rfl⟩ ⟨rfl, rfl, rfl⟩
        ⟨rfl, rfl⟩ fun _ => rfl
    | addDiscoveries | addHost | storeConfirmation => cases ha
  · rcases hcommit.flushes with ⟨status, -, hpc', hne⟩ | ⟨now, run, -, hpc, -, rfl, rfl⟩ |
      ⟨hhosts, hservices, hdiscoveries, hflushed, hlease, hkeys, hrun, hpcs⟩
    · exact .ended (Or.inr ⟨status, hpc', hne⟩)
    · exact h.start hpc
    · have hreport := report_flushed hhosts hservices hdiscoveries hflushed hlease.1
      rcases hpcs with ⟨stage, beat, hpc, hpc'⟩ | ⟨o, counts, hpc, hpc', r, hr, hr'⟩
      · rcases hpc' with hpc' | hpc'
        · refine h.flushed hreport hlease hkeys hrun (fun _ => ?_) ?_ ?_ fun hf => ?_
          · rw [hpc]
            rfl
          · rw [hpc]
            rfl
          · rw [hpc']
            exact ⟨rfl, rfl, nofun⟩
          · rw [hpc'] at hf
            cases hf
        · refine h.flushed hreport hlease hkeys hrun (fun _ => ?_) ?_ ?_ fun hf => ?_
          · rw [hpc]
            rfl
          · rw [hpc]
            rfl
          · rw [hpc']
            exact ⟨rfl, rfl, nofun⟩
          · rw [hpc'] at hf
            cases hf
      · refine h.flushed hreport hlease hkeys hrun (fun hs => ?_) ?_ ?_ fun hf => ?_
        · rw [hpc'] at hs
          rw [hpc]
          exact hs
        · rw [hpc]
          rfl
        · rw [hpc']
          exact ⟨rfl, rfl, nofun⟩
        · rw [hpc'] at hf
          have hcompleted := Pc.finished.inj hf
          rw [hlease.1, hkeys.1, hkeys.2]
          refine ⟨r.finish o, hr', ?_⟩
          cases o with
          | completed artifactKey discoveryArtifactKey =>
            obtain ⟨rfl, rfl⟩ := hnames _ _ _ hpc
            exact ⟨rfl, rfl⟩
          | _ => cases hcompleted

/-! ## Reading a document -/

theorem documented_append (p : Platform) (runId shardId : Uuid) (l l' : List Reading) :
    documented p runId shardId (l ++ l') =
      ⟨(documented p runId shardId l).hosts ++ (documented p runId shardId l').hosts,
        (documented p runId shardId l).discoveries ++
          (documented p runId shardId l').discoveries⟩ := by
  simp only [documented, List.flatMap_append, List.map_append]

theorem documentedKey_other {r : Reading} {runId : Uuid} {stage : Stage} (h : r.stage ≠ stage) :
    documentedKey e runId (l ++ [r]) stage = documentedKey e runId l stage := by
  rw [documentedKey, documentedKey, List.any_append, List.any_cons, decide_eq_false h,
    List.any_nil, Bool.or_false, Bool.or_false]

theorem documentedKey_read {r : Reading} {runId : Uuid} {stage : Stage} (h : r.stage = stage) :
    documentedKey e runId (l ++ [r]) stage =
      some (Db.artifactKey runId e.shardId stage.name e.leaseToken) := by
  rw [documentedKey, List.any_append, List.any_cons, decide_eq_true h, Bool.true_or, Bool.or_true,
    if_pos rfl]

/-- An execution that gives up after reading. -/
theorem Reflects.failed {r : Reading} {text : String} (h : Reflects p db e l)
    (htry : e.pc.inTry = true) (hhosts : r.hosts p = []) (hcandidates : r.candidates p = []) :
    Reflects p db { e with pc := .failing text } (l ++ [r]) := by
  obtain ⟨run, hrun, hrows⟩ := h.report (scanned_of_started (Execution.started_of_inTry htry))
  refine ⟨nofun, nofun, nofun, fun _ => ⟨run, hrun, ?_⟩, nofun, nofun, nofun⟩
  rw [documented_append, ← hrows]
  simp only [documented, List.flatMap_singleton, hhosts, hcandidates, List.map_nil,
    List.append_nil]
  rfl

/-- Masscan's document. -/
theorem Reflects.discovery {document : Document} (h : Reflects p db e l)
    (hread : (∃ error, readMasscanXml p.int document = .error error ∧ a = .fail error) ∨
      ∃ observations, readMasscanXml p.int document = .ok observations ∧
        observations.Nodup ∧ a = .addDiscoveries observations)
    (hstep : e.step db settings a = some (db', e')) :
    Reflects p db' e' (l ++ [.discovery document]) := by
  rcases hread with ⟨error, herror, rfl⟩ | ⟨observations, hok, -, rfl⟩
  · rcases Execution.step_cases hstep with ⟨rfl, hmove⟩ | hcommit
    · cases hmove with
      | lost => exact .ended (Or.inl rfl)
      | fail htry =>
        refine h.failed htry rfl ?_
        rw [Reading.candidates, herror]
        rfl
    · cases hcommit
  · rcases Execution.step_cases hstep with ⟨rfl, hmove⟩ | hcommit
    · cases hmove with
      | lost => exact .ended (Or.inl rfl)
      | @addDiscoveries run _ rows hpc hrun hrows =>
        obtain ⟨run₀, hrun₀, hreport⟩ := h.report (by rw [hpc]; rfl)
        rw [hrun] at hrun₀
        cases hrun₀
        refine ⟨nofun, nofun, nofun, fun _ => ⟨run, hrun, ?_⟩, nofun, fun _ => ⟨?_, ?_⟩, nofun⟩
        · rw [documented_append, ← hreport, Execution.report, Execution.report]
          refine congrArg₂ Report.mk ?_ ?_
          · exact (List.append_nil _).symm
          · have hall : rows.filter (fun o => o.shardId = e.shardId) = rows := by
              refine List.filter_eq_self.mpr fun o ho => decide_eq_true ?_
              rw [hrows] at ho
              obtain ⟨_, -, rfl⟩ := List.mem_map.mp ho
              rfl
            have hnameless : rows.map DiscoveryObservation.nameless =
                (documented p run.id e.shardId [.discovery document]).discoveries := by
              simp only [documented, List.flatMap_singleton, Reading.candidates, hok, hrows,
                List.map_map]
              rfl
            rw [← hnameless, reportedDiscoveries, ← List.append_assoc, List.filter_append, hall,
              List.map_append, reportedDiscoveries]
        · rw [List.any_append]
          exact Bool.or_true _
        · intro run₁ hrun₁
          have hne : (Reading.discovery document).stage ≠ .nmap := nofun
          rw [documentedKey_other hne]
          exact (h.keys (by rw [hpc]; rfl) run₁ hrun₁).1
    · cases hcommit

/-- Hosts that no service of the others belongs to. -/
theorem reportedHosts_append {hosts hosts' : List HostObservation}
    {services services' : List ServiceObservation} {shardId : Uuid}
    (h : ∀ x ∈ hosts, x.shardId = shardId → ∀ s ∈ services', s.hostObservationId ≠ x.id)
    (h' : ∀ x ∈ hosts', x.shardId = shardId → ∀ s ∈ services, s.hostObservationId ≠ x.id) :
    reportedHosts (hosts ++ hosts') (services ++ services') shardId =
      reportedHosts hosts services shardId ++ reportedHosts hosts' services' shardId := by
  rw [reportedHosts, List.filter_append, List.map_append, reportedHosts, reportedHosts]
  have hnone : ∀ {l : List ServiceObservation} {x : HostObservation},
      (∀ s ∈ l, s.hostObservationId ≠ x.id) →
        l.filter (fun s => s.hostObservationId = x.id) = [] := by
    intro l x hl
    exact List.filter_eq_nil_iff.mpr fun s hs hid => hl s hs (of_decide_eq_true hid)
  refine congrArg₂ _ (List.map_congr_left fun x hx => ?_) (List.map_congr_left fun x hx => ?_)
  · obtain ⟨hmem, hshard⟩ := List.mem_filter.mp hx
    rw [List.filter_append, hnone (h x hmem (of_decide_eq_true hshard)), List.append_nil]
  · obtain ⟨hmem, hshard⟩ := List.mem_filter.mp hx
    rw [List.filter_append, hnone (h' x hmem (of_decide_eq_true hshard)), List.nil_append]

/-- The rows a document adds are reported as it has them. -/
theorem reportedHosts_rows (runId shardId : Uuid) (token : Option Uuid)
    {rows : List (HostObservation × List ServiceObservation)}
    (hnodup : (rows.map fun x => x.1.id).Nodup) :
    reportedHosts
        (rows.map fun x => { x.1 with runId := runId, shardId := shardId, leaseToken := token })
        (rows.flatMap fun x => x.2.map fun s => { s with hostObservationId := x.1.id }) shardId =
      (rows.map fun x => x.1.scanned x.2).map (ScannedHost.reported runId shardId) := by
  induction rows with
  | nil => rfl
  | cons row rows ih =>
    obtain ⟨hnew, htail⟩ := List.nodup_cons.mp hnodup
    have hcons : ∀ {α : Type} (x : α) (l : List α), x :: l = [x] ++ l := fun _ _ => rfl
    rw [List.map_cons, List.flatMap_cons, hcons, reportedHosts_append, ih htail, List.map_cons,
      List.map_cons, hcons (ScannedHost.reported runId shardId (row.1.scanned row.2))]
    · congr 1
      have hall : (row.2.map fun s => { s with hostObservationId := row.1.id }).filter
          (fun s => s.hostObservationId = row.1.id) =
            row.2.map fun s => { s with hostObservationId := row.1.id } := by
        refine List.filter_eq_self.mpr fun s hs => decide_eq_true ?_
        obtain ⟨_, -, rfl⟩ := List.mem_map.mp hs
        rfl
      simp only [reportedHosts, List.filter_cons, decide_true, if_true, List.filter_nil,
        List.map_cons, List.map_nil, hall, List.map_map]
      simp only [ScannedHost.reported, HostObservation.scanned, List.map_map]
      rfl
    · intro x hx _ s hs
      cases List.mem_singleton.mp hx
      obtain ⟨y, hy, hin⟩ := List.mem_flatMap.mp hs
      obtain ⟨_, -, rfl⟩ := List.mem_map.mp hin
      intro hid
      exact hnew (List.mem_map.mpr ⟨y, hy, hid⟩)
    · intro x hx _ s hs
      obtain ⟨y, hy, rfl⟩ := List.mem_map.mp hx
      obtain ⟨_, -, rfl⟩ := List.mem_map.mp hs
      intro hid
      exact hnew (List.mem_map.mpr ⟨y, hy, hid.symm⟩)

/-- The rows of a document join those there are, since its ids are new. -/
theorem report_withHosts {o : Owners} (run : ScanRun) {hosts : List ScannedHost}
    {drawn : List (Uuid × List Uuid)} (hdb : db.Owned o) (he : e.Owned o)
    (hsuits : Suits hosts drawn) (hnodup : (drawnIds drawn).Nodup)
    (hfresh : ∀ id ∈ drawnIds drawn, id ∉ o.used) :
    (e.withHosts run (identified hosts drawn)).report db =
      ⟨(e.report db).hosts ++ hosts.map (ScannedHost.reported run.id e.shardId),
        (e.report db).discoveries⟩ := by
  have hids : ((identified hosts drawn).map fun x => x.1.id).Nodup := by
    rw [identified_hosts hsuits]
    exact (List.nodup_append'.mp hnodup).1
  have hrows := reportedHosts_rows run.id e.shardId (some e.leaseToken) hids
  rw [identified_scanned hsuits] at hrows
  rw [Execution.report, Execution.report]
  refine congrArg₂ Report.mk ?_ rfl
  simp only [Execution.withHosts, ← List.append_assoc]
  rw [reportedHosts_append, hrows]
  · intro x hx _ s hs hid
    obtain ⟨y, hy, hin⟩ := List.mem_flatMap.mp hs
    obtain ⟨_, -, rfl⟩ := List.mem_map.mp hin
    have hused : x.id ∈ o.used := by
      rcases List.mem_append.mp hx with hold | hpending
      · exact (hdb.hosts x hold).1
      · exact (he.hosts x hpending).2.1
    refine hfresh y.1.id (identified_host_id hsuits hy) ?_
    rw [show y.1.id = x.id from hid]
    exact hused
  · intro x hx _ s hs hid
    obtain ⟨y, hy, rfl⟩ := List.mem_map.mp hx
    have hused : s.hostObservationId ∈ o.used := by
      rcases List.mem_append.mp hs with hold | hpending
      · obtain ⟨_, -, hlink⟩ := hdb.services s hold
        exact hlink.1
      · exact (he.services s hpending).2.1
    rw [hid] at hused
    exact hfresh y.1.id (identified_host_id hsuits hy) hused

/-- Nmap's document. -/
theorem Reflects.confirmation {o : Owners} {document : Document} {drawn : List (Uuid × List Uuid)}
    {stored : Option String} {e₁ : Execution} (h : Reflects p db e l) (hdb : db.Owned o)
    (he : e.Owned o) (hpc : e.pc = .recording .nmap)
    (hsuits : Suits (normalizeNmapXml p.int document).1 drawn) (hnodup : (drawnIds drawn).Nodup)
    (hfresh : ∀ id ∈ drawnIds drawn, id ∉ o.used)
    (hrows : e.normalize p settings db
      (identified (normalizeNmapXml p.int document).1 drawn) = some e₁)
    (hlast : e₁.step db settings
      (recorded ((normalizeNmapXml p.int document).2.or stored)) = some (db', e')) :
    db' = db ∧ Reflects p db' e' (l ++ [.confirmation document]) := by
  obtain ⟨run, hrun, hreport⟩ := h.report (by rw [hpc]; rfl)
  obtain ⟨hkey, hkey'⟩ := h.keys (by rw [hpc]; rfl) run hrun
  have hadded := report_withHosts run hdb he hsuits hnodup hfresh
  rw [normalize_rows hpc hrun hrows] at hlast
  have hall : (e.withHosts run (identified (normalizeNmapXml p.int document).1 drawn)).report db =
      documented p run.id e.shardId (l ++ [.confirmation document]) := by
    rw [hadded, hreport, documented_append]
    simp only [documented, List.flatMap_singleton, Reading.hosts, Reading.candidates, List.map_nil,
      List.append_nil]
  have hpc₁ : (e.withHosts run (identified (normalizeNmapXml p.int document).1 drawn)).pc =
    .recording .nmap := hpc
  obtain ⟨rfl, ⟨text, rfl⟩ | ⟨-, rfl⟩⟩ := step_recorded hpc₁ hrun hlast
  · exact ⟨rfl, nofun, nofun, nofun, fun _ => ⟨run, hrun, hall⟩, nofun, nofun, nofun⟩
  · refine ⟨rfl, nofun, nofun, nofun, fun _ => ⟨run, hrun, hall⟩, fun _ run₁ hrun₁ => ?_, nofun,
      nofun⟩
    have hsame : e.run = some run₁ := hrun₁
    rw [hrun] at hsame
    cases hsame
    have hstage : (Reading.confirmation document).stage = .nmap := rfl
    have hne : (Reading.confirmation document).stage ≠ .masscan := nofun
    rw [documentedKey_read hstage, documentedKey_other hne]
    exact ⟨rfl, hkey'⟩

/-! ## Statements of other sessions -/

theorem hosts_of_select {o : Owners} {k : Uuid} (h : Apart o k db db') (hk : e.shardId ≠ k) :
    db'.hosts.rows.filter (fun x => x.shardId = e.shardId) =
      db.hosts.rows.filter fun x => x.shardId = e.shardId := h.hosts e.shardId hk

/-- Another shard's statements leave what the tables hold of this one. -/
theorem report_apart {o : Owners} {k : Uuid} (h : Apart o k db db') (hdb : db.Owned o)
    (he : e.Owned o) (hk : e.shardId ≠ k) : e.report db' = e.report db := by
  rw [Execution.report, Execution.report]
  refine congrArg₂ Report.mk ?_ ?_
  · rw [reportedHosts, reportedHosts, List.filter_append, hosts_of_select h hk,
      ← List.filter_append]
    refine List.map_congr_left fun x hx => ?_
    obtain ⟨hmem, hshard⟩ := List.mem_filter.mp hx
    have howner : o.shard x.id = e.shardId := by
      rcases List.mem_append.mp hmem with hold | hpending
      · rw [(hdb.hosts x hold).2, of_decide_eq_true hshard]
      · exact (he.hosts x hpending).2.2
    have hservices : db'.services.rows.filter (fun s => s.hostObservationId = x.id) =
        db.services.rows.filter fun s => s.hostObservationId = x.id := by
      refine h.services (fun id => id = x.id) fun id hid => ?_
      rw [of_decide_eq_true hid, howner]
      exact hk
    rw [List.filter_append, hservices, ← List.filter_append]
  · have hdiscoveries : db'.discoveries.rows.filter (fun x => x.shardId = e.shardId) =
        db.discoveries.rows.filter fun x => x.shardId = e.shardId := h.discoveries e.shardId hk
    rw [reportedDiscoveries, reportedDiscoveries, List.filter_append, hdiscoveries,
      ← List.filter_append]

/-- What the execution sees of its shard is as it was. -/
theorem Reflects.frame (h : Reflects p db e l) (hreport : e.report db' = e.report db)
    (hhosts : db'.hostsOf e.shardId = db.hostsOf e.shardId)
    (hdiscoveries : db'.discoveriesOf e.shardId = db.discoveriesOf e.shardId)
    (hrow : ∀ r, db.shards.get e.shardId = some r → ∃ r', db'.shards.get e.shardId = some r' ∧
      r'.artifactKey = r.artifactKey ∧ r'.discoveryArtifactKey = r.discoveryArtifactKey) :
    Reflects p db' e l := by
  refine ⟨h.blank, fun hpc x hx hshard => ?_, fun hpc x hx hshard => ?_, fun hpc => ?_, h.keys,
    h.discovered, fun hpc => ?_⟩
  · have hin : x ∈ db'.hostsOf e.shardId := Table.mem_select.mpr ⟨hx, decide_eq_true hshard⟩
    rw [hhosts] at hin
    exact h.doomedHosts hpc x (Table.mem_select.mp hin).1 hshard
  · have hin : x ∈ db'.discoveriesOf e.shardId :=
      Table.mem_select.mpr ⟨hx, decide_eq_true hshard⟩
    rw [hdiscoveries] at hin
    exact h.doomedDiscoveries hpc x (Table.mem_select.mp hin).1 hshard
  · rw [hreport]
    exact h.report hpc
  · obtain ⟨r, hr, hkey, hkey'⟩ := h.row hpc
    obtain ⟨r', hr', hsame, hsame'⟩ := hrow r hr
    exact ⟨r', hr', hsame.trans hkey, hsame'.trans hkey'⟩

end

/-- Only the executions of a shard write the keys of its row. -/
theorem row_keys {settings : Settings} {s s' : State} {a : Action} {k : Uuid} {r : ScanShard}
    (h : s.step settings a = some s') (hr : s.db.shards.get k = some r)
    (hother : ∀ i b e, a = .worker i b → s.executions[i]? = some e → e.shardId ≠ k) :
    ∃ r', s'.db.shards.get k = some r' ∧ r'.artifactKey = r.artifactKey ∧
      r'.discoveryArtifactKey = r.discoveryArtifactKey := by
  obtain ⟨r', hr', rfl | hstep⟩ := shard_step h hr
  · exact ⟨r', hr', rfl, rfl⟩
  · refine ⟨r', hr', ?_⟩
    cases hstep with
    | finish he _ hheld =>
      refine absurd ?_ (hother _ _ _ rfl he)
      rw [← (ScanShard.held_iff.mp hheld).1]
      exact Table.get_key hr
    | bind | recover | cancel => exact ⟨writeBack_self _ _, writeBack_self _ _⟩
    | _ => exact ⟨rfl, rfl⟩

/-! ## Runs -/

/-- Execution `i` is the last of the shard. -/
def Scanning.Last (s : Scanning) (k : Uuid) (i : Nat) : Prop :=
  ∀ j e, s.base.executions[j]? = some e → e.shardId = k → j ≤ i

/-- No execution of the shard acts once another has claimed it after it. -/
def Scanning.takesTurns (k : Uuid) (s : Scanning) (a : ScanAction) : Bool :=
  a.execution.all fun i => (s.base.executions[i]?).all fun e =>
    e.shardId ≠ k || (s.base.executions.drop (i + 1)).all fun e' => e'.shardId ≠ k

section
variable {p : Platform} {settings : Settings} {s s' : Scanning} {a : ScanAction} {k : Uuid}

theorem last_of_turn (hturn : s.takesTurns k a = true) {i : Nat} {e : Execution}
    (hact : a.execution = some i) (he : s.base.executions[i]? = some e) (hk : e.shardId = k) :
    s.Last k i := by
  intro j e' he' hk'
  rw [Scanning.takesTurns, hact, Option.all_some, he, Option.all_some, Bool.or_eq_true,
    decide_eq_true_eq] at hturn
  by_contra hlt
  have hmem : e' ∈ s.base.executions.drop (i + 1) := by
    refine List.mem_iff_getElem?.mpr ⟨j - (i + 1), ?_⟩
    rw [List.getElem?_drop, ← he']
    congr 1
    omega
  have hall := List.all_eq_true.mp (hturn.resolve_left fun hne => hne hk) e' hmem
  exact of_decide_eq_true hall hk'

theorem reading_execution {i : Nat} {r : Reading} (h : a.reading i = some r) :
    a.execution = some i := by
  cases a with
  | single => cases h
  | readDiscovery j =>
    rw [ScanAction.reading] at h
    split at h
    · next hj =>
      rw [hj]
      rfl
    · cases h
  | readConfirmation j =>
    rw [ScanAction.reading] at h
    split at h
    · next hj =>
      rw [hj]
      rfl
    · cases h

theorem reading_none {i : Nat} (h : a.execution ≠ some i) : a.reading i = none := by
  refine Option.eq_none_iff_forall_ne_some.mpr fun r hr => h (reading_execution hr)

/-- No step drops an execution, and it keeps its shard. -/
theorem scanning_kept (h : s.step p settings a = some s') {i : Nat} {e : Execution}
    (he : s.base.executions[i]? = some e) :
    ∃ e', s'.base.executions[i]? = some e' ∧ e'.shardId = e.shardId := by
  obtain ⟨tr, hp⟩ := scanning_path h
  refine hp.kept (Q := fun t => ∃ e', t.executions[i]? = some e' ∧ e'.shardId = e.shardId) ?_
    ⟨e, he, rfl⟩
  rintro x hx ⟨e₁, he₁, hshard₁⟩
  obtain ⟨e₂, he₂, hshard₂, -⟩ := execution_kept (hp.step_of_mem hx) he₁
  exact ⟨e₂, he₂, hshard₂.trans hshard₁⟩

theorem last_of_step (h : s.step p settings a = some s') {i : Nat} (hlast : s'.Last k i) :
    s.Last k i := by
  intro j e he hk
  obtain ⟨e', he', hshard⟩ := scanning_kept h he
  exact hlast j e' he' (hshard.trans hk)

theorem execution_of_act (h : s.step p settings a = some s') {i : Nat}
    (hact : a.execution = some i) : ∃ e, s.base.executions[i]? = some e := by
  cases a with
  | single a =>
    cases a with
    | worker j b =>
      cases hact
      obtain ⟨e, he, -⟩ := scanning_worker h
      exact ⟨e, he⟩
    | _ => cases hact
  | readDiscovery j document =>
    cases hact
    obtain ⟨e, _, _, he, -⟩ := scanning_readDiscovery h
    exact ⟨e, he⟩
  | readConfirmation j document drawn stored =>
    cases hact
    obtain ⟨e, he, -⟩ := scanning_readConfirmation h
    exact ⟨e, he⟩

theorem Reflects.fresh {db : Db} {shardId leaseToken : Uuid} :
    Reflects p db { shardId, leaseToken } [] :=
  ⟨fun _ => ⟨rfl, rfl, rfl, rfl, rfl, rfl⟩, nofun, nofun, nofun, nofun, nofun, nofun⟩

/-- The last execution of the shard reflects what it has read, `l`, until it crashes. -/
structure Reflected (p : Platform) (k : Uuid) (s : Scanning) (l : Nat → List Reading) : Prop where
  unread : ∀ i, s.base.executions[i]? = none → l i = []
  last : ∀ i e, s.base.executions[i]? = some e → e.shardId = k → s.Last k i → i ∉ s.crashed →
    Reflects p s.base.db e (l i)

variable {o : Owners} {l : Nat → List Reading}

/-- A statement of the base system, seen by the last execution. -/
theorem reflects_base {base : State} {b : Action} {i : Nat} {e' : Execution}
    {reading : Option Reading} (hr : Reflected p k s l) (ho : s.base.Owned o)
    (hbase : s.base.step settings b = some base)
    (hturn : ∀ j c e, b = .worker j c → s.base.executions[j]? = some e → e.shardId = k →
      s.Last k j)
    (he' : base.executions[i]? = some e') (hk : e'.shardId = k) (hlast : s.Last k i)
    (hin : i ∉ s.crashed) (hreading : (∀ c, b ≠ .worker i c) → reading = none)
    (hown : ∀ c e, b = .worker i c → e ∈ s.base.executions →
      e.step s.base.db settings c = some (base.db, e') → Reflects p s.base.db e (l i) →
        Reflects p base.db e' (l i ++ reading.toList)) :
    Reflects p base.db e' (l i ++ reading.toList) := by
  rcases execution_cases hbase he' with ⟨he, hb⟩ | ⟨e, c, he, hb, hstep⟩ |
    ⟨_, _, hi, hb, -, hnew⟩
  · have hmem := List.mem_of_getElem? he
    have hold := hr.last i e' he hk hlast hin
    have hother : ∀ j c e, b = .worker j c → s.base.executions[j]? = some e → e.shardId ≠ k := by
      intro j c e hact hej hshard
      refine hb c ?_
      rw [hact, Nat.le_antisymm (hlast j e hej hshard) (hturn j c e hact hej hshard i e' he hk)]
    rw [hreading hb, Option.toList_none, List.append_nil]
    have hrow : ∀ r, s.base.db.shards.get e'.shardId = some r → ∃ r',
        base.db.shards.get e'.shardId = some r' ∧ r'.artifactKey = r.artifactKey ∧
          r'.discoveryArtifactKey = r.discoveryArtifactKey := by
      rw [hk]
      exact fun r hrow => row_keys hbase hrow hother
    by_cases hw : ∃ j c, b = .worker j c
    · obtain ⟨j, c, rfl⟩ := hw
      obtain ⟨e, db, e₁, hej, hstep, rfl⟩ := step_worker hbase
      have happart := Execution.apart_step ho.db (ho.executions e (List.mem_of_getElem? hej)) hstep
      have hne : e'.shardId ≠ e.shardId := fun hsame => hother j c e rfl hej (hsame ▸ hk)
      exact hold.frame (report_apart happart ho.db (ho.executions e' hmem) hne)
        (happart.hosts _ hne) (happart.discoveries _ hne) hrow
    · obtain ⟨hhosts, hservices, hdiscoveries⟩ :=
        results_frame hbase fun j c hact => hw ⟨j, c, hact⟩
      refine hold.frame ?_ ?_ ?_ hrow
      · rw [Execution.report, Execution.report, hhosts, hservices, hdiscoveries]
      · rw [Db.hostsOf, Db.hostsOf, hhosts]
      · rw [Db.discoveriesOf, Db.discoveriesOf, hdiscoveries]
  · have hshard := (Execution.step_lease hstep).1
    exact hown c e hb (List.mem_of_getElem? he) hstep
      (hr.last i e he (hshard.symm.trans hk) hlast hin)
  · have hnone : s.base.executions[i]? = none := by
      rw [hi]
      exact List.getElem?_eq_none (Nat.le_refl _)
    rw [hr.unread i hnone, hreading (fun c hact => ?_), hnew]
    · exact .fresh
    · rw [hact] at hb
      cases hb

theorem reflected_step (hr : Reflected p k s l) (ho : s.base.Owned o) (hused : o.used = s.used)
    (hnames : ∀ e ∈ s.base.executions, e.NamesKeys) (hturn : s.takesTurns k a = true)
    (h : s.step p settings a = some s') :
    Reflected p k s' fun i => l i ++ (a.reading i).toList where
  unread := fun i hnone => by
    have hbefore : s.base.executions[i]? = none := by
      refine Option.eq_none_iff_forall_ne_some.mpr fun e he => ?_
      obtain ⟨e', he', -⟩ := scanning_kept h he
      rw [hnone] at he'
      cases he'
    have hreading : a.reading i = none := reading_none fun hact => by
      obtain ⟨e, he⟩ := execution_of_act h hact
      rw [hbefore] at he
      cases he
    rw [hr.unread i hbefore, hreading]
    rfl
  last := fun i e' he' hk hlast' hin => by
    have hlast := last_of_step h hlast'
    cases scans_of_step h with
    | @crash _ j hact =>
      obtain ⟨hne, hin⟩ := not_or.mp (fun hmem => hin (List.mem_cons.mpr hmem))
      have hreading : a.reading i = none := reading_none fun hact' => hne <| by
        rw [hact] at hact'
        exact (Option.some.inj hact').symm
      rw [hreading, Option.toList_none, List.append_nil]
      exact hr.last i e' he' hk hlast hin
    | abort =>
      rw [show (ScanAction.single _).reading i = none from rfl, Option.toList_none,
        List.append_nil]
      exact hr.last i e' he' hk hlast hin
    | @single b base hrecords hbase =>
      refine reflects_base hr ho hbase (fun j c e hb he hk => ?_) he' hk hlast hin (fun _ => rfl)
        fun c e hb hmem hstep hold => ?_
      · rw [hb] at hturn
        exact last_of_turn hturn rfl he hk
      · rw [show (ScanAction.single b).reading i = none from rfl, Option.toList_none,
          List.append_nil]
        exact hold.step (hnames e hmem) (hrecords i c hb) hstep
    | @discovery j document b base hbase hread =>
      refine reflects_base hr ho hbase (fun j' c e hb he hk => ?_) he' hk hlast hin (fun hb => ?_)
        fun c e hb hmem hstep hold => ?_
      · cases hb
        exact last_of_turn hturn rfl he hk
      · exact if_neg fun hij => hb b (by rw [hij])
      · cases hb
        rw [ScanAction.reading, if_pos rfl]
        exact hold.discovery hread hstep
    | @confirmation j document drawn stored e e₁ db e₂ he hpc hsuits hnodup hfresh hrows hlast₁ =>
      rw [← hused] at hfresh
      have hmem := List.mem_of_getElem? he
      by_cases hij : j = i
      · subst hij
        have hset : (s.base.executions.set j e₂)[j]? = some e' := he'
        rw [List.getElem?_set_self (List.getElem?_eq_some_iff.mp he).1] at hset
        cases hset
        have hshard : e'.shardId = e.shardId := by
          obtain ⟨e₃, he₃, hsame⟩ := scanning_kept h he
          rw [he'] at he₃
          cases he₃
          exact hsame
        have hold := hr.last j e he (hshard ▸ hk) hlast hin
        rw [ScanAction.reading, if_pos rfl]
        exact (hold.confirmation ho.db (ho.executions e hmem) hpc hsuits hnodup hfresh hrows
          hlast₁).2
      · have hsame : s.base.executions[i]? = some e' := (List.getElem?_set_ne hij).symm.trans he'
        have hdb : db = s.base.db := by
          obtain ⟨rfl, -⟩ | hc := Execution.step_cases hlast₁
          · rfl
          · revert hc
            cases Option.or _ _ <;> exact nofun
        rw [ScanAction.reading, if_neg hij, Option.toList_none, List.append_nil]
        show Reflects p db e' (l i)
        rw [hdb]
        exact hr.last i e' hsame hk hlast hin

/-! ## Executions an exception has ended -/

theorem running_of_act (h : s.step p settings a = some s') {i : Nat}
    (hact : a.execution = some i) : i ∉ s.crashed := by
  cases a with
  | single a =>
    cases a with
    | worker j b =>
      cases hact
      obtain ⟨e, -, hin, -⟩ := scanning_worker h
      exact hin
    | _ => cases hact
  | readDiscovery j document =>
    cases hact
    obtain ⟨e, _, _, -, -, hin, -⟩ := scanning_readDiscovery h
    exact hin
  | readConfirmation j document drawn stored =>
    cases hact
    obtain ⟨e, -, -, hin, -⟩ := scanning_readConfirmation h
    exact hin

/-- An exception ends a task in the middle of its scan. -/
theorem started_of_crash (h : s.step p settings a = some s') {i : Nat} (hin : i ∉ s.crashed)
    (hin' : i ∈ s'.crashed) : ∃ e, s'.base.executions[i]? = some e ∧ e.pc.started = true := by
  have hnew : ∀ {j}, i ∈ (s.crash j).crashed → i = j := fun hmem =>
    (List.mem_cons.mp hmem).resolve_right hin
  cases a with
  | single a =>
    cases a with
    | worker j b =>
      obtain ⟨e, he, -, -, ⟨hraises, rfl⟩ | ⟨-, base, -, rfl⟩⟩ := scanning_worker h
      · rw [hnew hin']
        exact ⟨e, he, raises_started hraises⟩
      · exact absurd hin' hin
    | finalizeNext q now =>
      obtain ⟨run, rest, -, -, ⟨base, -, -, rfl⟩ | ⟨-, rfl⟩⟩ := scanning_finalizeNext h
      · exact absurd hin' hin
      · exact absurd hin' hin
    | _ =>
      obtain ⟨base, -, rfl⟩ := scanning_single h (fun _ _ hab => by cases hab)
        fun _ _ hab => by cases hab
      exact absurd hin' hin
  | readDiscovery j document =>
    obtain ⟨e, b, base, -, -, -, -, rfl, -⟩ := scanning_readDiscovery h
    exact absurd hin' hin
  | readConfirmation j document drawn stored =>
    obtain ⟨e, he, hpc, -, -, -, -, ⟨-, rfl⟩ | ⟨e₁, db, e', -, -, rfl⟩⟩ :=
      scanning_readConfirmation h
    · rw [hnew hin']
      exact ⟨e, he, by rw [hpc]; rfl⟩
    · exact absurd hin' hin

/-- Only its own steps change an execution. -/
theorem scanning_other (h : s.step p settings a = some s') {i : Nat} {e : Execution}
    (hact : a.execution ≠ some i) (he : s.base.executions[i]? = some e) :
    s'.base.executions[i]? = some e := by
  have hnext : ∀ {b : Action} {base : State}, s.base.step settings b = some base →
      (∀ c, b ≠ .worker i c) → base.executions[i]? = some e := by
    intro b base hbase hother
    obtain ⟨e', he', rfl | ⟨c, hb, -⟩⟩ := execution_next hbase he
    · exact he'
    · exact absurd hb (hother c)
  cases scans_of_step h with
  | crash | abort => exact he
  | single _ hbase =>
    refine hnext hbase fun c hb => hact ?_
    rw [hb]
    rfl
  | discovery hbase =>
    refine hnext hbase fun c hb => hact ?_
    cases hb
    rfl
  | confirmation =>
    exact (List.getElem?_set_ne fun hij => hact (congrArg some hij)).trans he

theorem crashed_step (hs : ∀ i ∈ s.crashed, ∃ e, s.base.executions[i]? = some e ∧
    e.pc.started = true) (h : s.step p settings a = some s') :
    ∀ i ∈ s'.crashed, ∃ e, s'.base.executions[i]? = some e ∧ e.pc.started = true := by
  intro i hin'
  by_cases hin : i ∈ s.crashed
  · obtain ⟨e, he, hstarted⟩ := hs i hin
    exact ⟨e, scanning_other h (fun hact => running_of_act h hact hin) he, hstarted⟩
  · exact started_of_crash h hin hin'

end

/-! ## Whole runs -/

section
variable {p : Platform} {settings : Settings} {scopes : Table InventoryScope}
  {profiles : Table ScanProfile} {tr : List (Transition Scanning ScanAction)} {t : Scanning}
  {k : Uuid}

theorem readings_snoc (i : Nat) (tr : List (Transition Scanning ScanAction)) (s s' : Scanning)
    (a : ScanAction) : readings i (tr ++ [⟨s, a, s'⟩]) = readings i tr ++ (a.reading i).toList := by
  rw [readings, List.filterMap_append, readings, List.filterMap_cons]
  cases a.reading i <;> rfl

/-- What the last execution of a shard has read is what there is of the shard. -/
theorem reflected_run (h : Path (Scanning.step p settings) (Scanning.initial scopes profiles) tr t)
    (hturns : Along (Scanning.takesTurns k) tr) :
    Reflected p k t (fun i => readings i tr) ∧
      ∀ i ∈ t.crashed, ∃ e, t.base.executions[i]? = some e ∧ e.pc.started = true := by
  induction h with
  | nil =>
    exact ⟨⟨fun _ _ => rfl, fun _ _ he => by cases he⟩, fun _ hin => absurd hin List.not_mem_nil⟩
  | @snoc u v tr a hp hs ih =>
    obtain ⟨hr, hcrashed⟩ := ih fun x hx => hturns x (List.mem_append_left _ hx)
    obtain ⟨o, ho, hused⟩ := scanning_owners hp
    obtain ⟨tr', hbase⟩ := scanning_run hp
    have hturn : u.takesTurns k a = true :=
      hturns ⟨u, a, v⟩ (List.mem_append_right _ (List.mem_singleton_self _))
    refine ⟨?_, crashed_step hcrashed hs⟩
    have hstep := reflected_step hr ho hused (keys_recorded_run hbase).namesKeys hturn hs
    have hreadings : (fun i => readings i (tr ++ [⟨u, a, v⟩])) =
        fun i => readings i tr ++ (a.reading i).toList :=
      funext fun i => readings_snoc i tr u v a
    rw [hreadings]
    exact hstep

/-- The execution is the last of its shard, and has completed it. -/
structure Scanning.Completed (t : Scanning) (k : Uuid) (i : Nat) (e : Execution) (r : ScanShard) :
    Prop where
  execution : t.base.executions[i]? = some e
  shard : e.shardId = k
  last : t.Last k i
  finished : e.pc = .finished .completed
  row : t.base.db.shards.get k = some r

/-- The artifacts of the same stage, each under the token of its execution. -/
def SameKey (runId shardId token token' : Uuid) (stage : Stage) (key key' : Option String) : Prop :=
  (key = none ∧ key' = none) ∨
    (key = some (Db.artifactKey runId shardId stage.name token) ∧
      key' = some (Db.artifactKey runId shardId stage.name token'))

/-- A completed execution holds no rows back. -/
theorem completed_empty {tr : List (Transition State Action)} {t : State}
    (h : Run settings (State.initial scopes profiles) tr t) :
    ∀ e ∈ t.executions, e.pc = .finished .completed →
      e.hosts = [] ∧ e.services = [] ∧ e.discoveries = [] := by
  refine h.invariant (I := fun s => ∀ e ∈ s.executions, e.pc = .finished .completed →
      e.hosts = [] ∧ e.services = [] ∧ e.discoveries = [])
    (C := fun _ _ => true) (fun _ he => absurd he List.not_mem_nil) ?_ fun _ _ => rfl
  intro s a s' hs _ hstep
  refine executions_step hstep hs (fun e he i b e' _ hexec hpc => ?_) fun _ _ hpc => by cases hpc
  rcases Execution.step_cases hexec with ⟨-, hmove⟩ | hcommit
  · cases hmove with
    | @storeDiscovery _ pc _ _ _ _ hnext =>
      have hfinished : pc = .finished .completed := hpc
      split at hnext
      · cases hfinished.symm.trans hnext
      · cases hfinished.symm.trans hnext
    | addHost hrecording => cases hrecording.symm.trans hpc
    | _ => cases hpc
  · rcases hcommit.flushes with ⟨status, -, hpc', hne⟩ | ⟨_, _, -, -, -, -, rfl⟩ |
      ⟨-, -, -, hflushed, -⟩
    · rw [hpc'] at hpc
      exact absurd (Pc.finished.inj hpc) hne
    · cases hpc
    · exact hflushed

/-- What a completed shard shows is what its last execution has read. -/
theorem Scanning.Completed.shows {i : Nat} {e : Execution} {r : ScanShard}
    (h : Path (Scanning.step p settings) (Scanning.initial scopes profiles) tr t)
    (hturns : Along (Scanning.takesTurns k) tr) (hc : t.Completed k i e r) :
    t.base.db.report k = documented p r.runId k (readings i tr) ∧
      r.artifactKey = documentedKey e r.runId (readings i tr) .nmap ∧
      r.discoveryArtifactKey = documentedKey e r.runId (readings i tr) .masscan := by
  obtain ⟨hr, hcrashed⟩ := reflected_run h hturns
  obtain ⟨tr', hbase⟩ := scanning_run h
  have hmem := List.mem_of_getElem? hc.execution
  have hin : i ∉ t.crashed := by
    intro hin
    obtain ⟨e₁, he₁, hstarted⟩ := hcrashed i hin
    rw [hc.execution] at he₁
    cases he₁
    rw [hc.finished] at hstarted
    cases hstarted
  have hreflects := hr.last i e hc.execution hc.shard hc.last hin
  obtain ⟨run, hrun, hreport⟩ := hreflects.report (by rw [hc.finished]; rfl)
  obtain ⟨hkey, hkey'⟩ := hreflects.keys (by rw [hc.finished]; rfl) run hrun
  obtain ⟨r₁, hr₁, hrow, hrow'⟩ := hreflects.row hc.finished
  have hid : run.id = r.runId := by
    have hloaded := loaded_run hbase e hmem
    obtain ⟨shard, hshard, hid⟩ := hloaded.run run hrun
    obtain ⟨r₂, hr₂, hrunId⟩ := hloaded.shard shard hshard
    rw [hc.shard, hc.row] at hr₂
    cases hr₂
    exact hid.trans hrunId.symm
  rw [hc.shard, hc.row] at hr₁
  cases hr₁
  obtain ⟨hhosts, hservices, hdiscoveries⟩ := completed_empty hbase e hmem hc.finished
  rw [Execution.report, hhosts, hservices, hdiscoveries, List.append_nil, List.append_nil,
    List.append_nil, hc.shard, hid] at hreport
  rw [hid] at hkey hkey'
  exact ⟨hreport, hrow.trans hkey, hrow'.trans hkey'⟩

theorem sameKey {e e' : Execution} {runId : Uuid} (l : List Reading) (stage : Stage)
    (hk : e.shardId = k) (hk' : e'.shardId = k) :
    SameKey runId k e.leaseToken e'.leaseToken stage (documentedKey e runId l stage)
      (documentedKey e' runId l stage) := by
  rw [documentedKey, documentedKey, hk, hk']
  split
  · exact Or.inr ⟨rfl, rfl⟩
  · exact Or.inl ⟨rfl, rfl⟩

/-- Where a shard has one execution, it takes turns. -/
theorem turns_of_sole (h : Path (Scanning.step p settings) (Scanning.initial scopes profiles) tr t)
    {i : Nat} (hsole : ∀ j e, t.base.executions[j]? = some e → e.shardId = k → j = i) :
    Along (Scanning.takesTurns k) tr := by
  intro x hx
  obtain ⟨l, r, rfl, -, hs, hrest⟩ := h.split_of_mem hx
  have hlater : ∀ j e, x.pre.base.executions[j]? = some e → e.shardId = k → j = i := by
    intro j e he hk
    obtain ⟨e₁, he₁, hshard₁⟩ := scanning_kept hs he
    obtain ⟨e₂, he₂, hshard₂⟩ := hrest.kept
      (Q := fun u => ∃ e', u.base.executions[j]? = some e' ∧ e'.shardId = k)
      (fun y hy ⟨e', he', hk'⟩ => by
        obtain ⟨e'', he'', hshard⟩ := scanning_kept (hrest.step_of_mem hy) he'
        exact ⟨e'', he'', hshard.trans hk'⟩) ⟨e₁, he₁, hshard₁.trans hk⟩
    exact hsole j e₂ he₂ hshard₂
  rw [Scanning.takesTurns]
  refine Option.all_eq_true _ _ |>.mpr fun j _ => Option.all_eq_true _ _ |>.mpr fun e he => ?_
  by_cases hk : e.shardId = k
  · refine Bool.or_eq_true_iff.mpr (Or.inr (List.all_eq_true.mpr fun e' he' => decide_eq_true ?_))
    intro hk'
    obtain ⟨n, hn⟩ := List.mem_iff_getElem?.mp he'
    rw [List.getElem?_drop] at hn
    have hfirst := hlater j e he hk
    have hsecond := hlater _ e' hn hk'
    omega
  · rw [decide_eq_true hk]
    rfl

end

/-- The outcome of a retried shard, beside the one a single execution produces. -/
structure Transparent (tr : List (Transition Scanning ScanAction)) (t t' : Scanning) (k : Uuid)
    (e e' : Execution) (r r' : ScanShard) : Prop where
  report : t.base.db.report k = t'.base.db.report k
  artifactKey : SameKey r.runId k e.leaseToken e'.leaseToken .nmap r.artifactKey r'.artifactKey
  discoveryArtifactKey : SameKey r.runId k e.leaseToken e'.leaseToken .masscan
    r.discoveryArtifactKey r'.discoveryArtifactKey
  others : ∀ x ∈ tr, ∀ i x', x.act.execution = some i → x.pre.base.executions[i]? = some x' →
    x'.shardId = k → ∀ k', k' ≠ k → SameObservations k' x.pre.base.db x.post.base.db

/-- However the earlier executions of a shard failed, its last one leaves what a single
execution that reads the same documents leaves. -/
theorem retries_transparent (p : Platform) (settings settings' : Settings)
    (scopes scopes' : Table InventoryScope) (profiles profiles' : Table ScanProfile)
    (tr tr' : List (Transition Scanning ScanAction)) (t t' : Scanning) (k : Uuid) (i i' : Nat)
    (e e' : Execution) (r r' : ScanShard)
    (h : Path (Scanning.step p settings) (Scanning.initial scopes profiles) tr t)
    (h' : Path (Scanning.step p settings') (Scanning.initial scopes' profiles') tr' t')
    (hturns : Along (Scanning.takesTurns k) tr) (hc : t.Completed k i e r)
    (hc' : t'.Completed k i' e' r')
    (hsole : ∀ j x, t'.base.executions[j]? = some x → x.shardId = k → j = i')
    (hrun : r.runId = r'.runId) (hread : readings i tr = readings i' tr') :
    Transparent tr t t' k e e' r r' := by
  obtain ⟨hreport, hkey, hdiscovery⟩ := hc.shows h hturns
  obtain ⟨hreport', hkey', hdiscovery'⟩ := hc'.shows h' (turns_of_sole h' hsole)
  rw [← hread, ← hrun] at hreport' hkey' hdiscovery'
  refine ⟨hreport.trans hreport'.symm, ?_, ?_, fun x hx j x' hact hj hk k' hne => ?_⟩
  · rw [hkey, hkey']
    exact sameKey _ _ hc.shard hc'.shard
  · rw [hdiscovery, hdiscovery']
    exact sameKey _ _ hc.shard hc'.shard
  · obtain ⟨l, rest, rfl, hp, hs, -⟩ := h.split_of_mem hx
    obtain ⟨o, ho, -⟩ := scanning_owners hp
    rcases scanning_apart ho hs with ⟨j', x₁, hact', hj', hapart⟩ | hapart
    · rw [hact] at hact'
      cases hact'
      rw [hj] at hj'
      cases hj'
      rw [hk] at hapart
      exact hapart.same ho.db hne
    · exact (hapart k).same ho.db hne

namespace Demo

/-- The first attempt at the shard ends after its results are read and its storage raises,
with the rows it has added. -/
def retried : List ScanAction :=
  exited ++ [.readConfirmation 0 (report ["443"]) [("h0", ["v0"])] (some "S3Error: timeout")] ++
    (finish 0 0 ++ dispatch 1 "t2" "e2" (seconds 60) ++ publish 1 (seconds 60) ++
      begin 1 "s1" "t2" (seconds 60) ++ [.exit, .recheck].map (Action.worker 1)).map .single

def completing (i : Nat) (now : DateTime) (drawn : List (Uuid × List Uuid)) : List ScanAction :=
  .readConfirmation i (report ["80", "443"]) drawn none ::
    [.confirm, .finish now, .commitFinish now].map fun a => .single (.worker i a)

/-- Each execution's shard and where it is. -/
def places (t : Scanning) : List (Uuid × Pc) :=
  t.base.executions.map fun e => (e.shardId, e.pc)

theorem completed_of_places {t : Scanning} {k : Uuid} {r : ScanShard} (places : List (Uuid × Pc))
    (h : Demo.places t = places ++ [(k, .finished .completed)])
    (hrow : t.base.db.shards.get k = some r) : ∃ e, t.Completed k places.length e r := by
  have hlength : t.base.executions.length = places.length + 1 := by
    have hlength := congrArg List.length h
    rwa [Demo.places, List.length_map, List.length_append] at hlength
  have hlast : (Demo.places t)[places.length]? = some (k, .finished .completed) := by
    rw [h, List.getElem?_append_right (Nat.le_refl _), Nat.sub_self]
    rfl
  rw [Demo.places, List.getElem?_map] at hlast
  obtain ⟨e, he, hplace⟩ := Option.map_eq_some_iff.mp hlast
  obtain ⟨hshard, hpc⟩ := Prod.mk.inj hplace
  refine ⟨e, he, hshard, fun j x hx _ => ?_, hpc, hrow⟩
  have hlt := (List.getElem?_eq_some_iff.mp hx).1
  omega

end Demo

/-- The first attempt leaves a host, and the second completes the shard. -/
theorem retries_transparent_retried :
    ∃ tr t tr' t' e e' r r',
      Path (Scanning.step Demo.platform {}) (Scanning.initial Demo.scopes Demo.profiles) tr t ∧
      Path (Scanning.step Demo.platform {}) (Scanning.initial Demo.scopes Demo.profiles) tr' t' ∧
      Demo.places t = [("s1", .finished .queued), ("s1", .finished .completed)] ∧
      Demo.places t' = [("s1", .finished .completed)] ∧
      Transparent tr t t' "s1" e e' r r' := by
  have hrun : (runWhile (Scanning.step Demo.platform {}) (Scanning.takesTurns "s1")
      (Scanning.initial Demo.scopes Demo.profiles)
      (Demo.retried ++ Demo.completing 1 (seconds 60) [("h1", ["v1", "v2"])])).map
      (fun t => (Demo.places t, (t.base.db.shards.get "s1").map ScanShard.runId)) =
      some ([("s1", .finished .queued), ("s1", .finished .completed)], some "run") := by
    decide +kernel
  have hrun' : (runAll (Scanning.step Demo.platform {})
      (Scanning.initial Demo.scopes Demo.profiles)
      (Demo.exited ++ Demo.completing 0 1 [("h0", ["v0", "v1"])])).map
      (fun t => (Demo.places t, (t.base.db.shards.get "s1").map ScanShard.runId)) =
      some ([("s1", .finished .completed)], some "run") := by
    decide +kernel
  obtain ⟨t, ht, hobs⟩ := Option.map_eq_some_iff.mp hrun
  obtain ⟨t', ht', hobs'⟩ := Option.map_eq_some_iff.mp hrun'
  obtain ⟨tr, hp, hturns, hacts⟩ := Path.of_runWhile ht
  obtain ⟨tr', hp', hacts'⟩ := Path.of_runAll ht'
  obtain ⟨hplaces, hrow⟩ := Prod.mk.inj hobs
  obtain ⟨hplaces', hrow'⟩ := Prod.mk.inj hobs'
  obtain ⟨r, hr, hid⟩ := Option.map_eq_some_iff.mp hrow
  obtain ⟨r', hr', hid'⟩ := Option.map_eq_some_iff.mp hrow'
  obtain ⟨e, hc⟩ := Demo.completed_of_places [("s1", .finished .queued)] hplaces hr
  obtain ⟨e', hc'⟩ := Demo.completed_of_places [] hplaces' hr'
  have hread : readings 1 tr = readings 0 tr' := by
    have hview : ∀ i (tr : List (Transition Scanning ScanAction)), readings i tr =
        (tr.map Transition.act).filterMap (ScanAction.reading i) := by
      intro i tr
      rw [readings, List.filterMap_map]
      rfl
    rw [hview, hview, hacts, hacts']
    rfl
  have hsole : ∀ j x, t'.base.executions[j]? = some x → x.shardId = "s1" → j = 0 :=
    fun j x hx hk => Nat.le_zero.mp (hc'.last j x hx hk)
  exact ⟨tr, t, tr', t', e, e', r, r', hp, hp', hplaces, hplaces',
    retries_transparent Demo.platform {} {} _ _ _ _ tr tr' t t' "s1" 1 0 e e' r r' hp hp' hturns
      hc hc' hsole (hid.trans hid'.symm) hread⟩

end TransportLookout
