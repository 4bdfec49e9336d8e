/-
Executions and the documents they read.

The rows an execution records come from documents here, and the database takes a
row only when its columns can hold the values.  Rows are sent to the database when
Nmap's results add a host, in a heartbeat's commit, when the finalizer counts and
in the last commit.  An exception the database raises there ends the task: inside
the `try` block the handler works on the same session, which raises again, and the
last commit is outside it.  So does a retry instant past the last `datetime`.  The
task's transaction is lost, its index joins `crashed`, and its shard stays as it is.

`uuid4` does not repeat itself, so the ids of rows are drawn outside `used`.
-/
import TransportLookout.System.Steps
import TransportLookout.Worker.Documents
import TransportLookout.Worker.Handler

namespace TransportLookout

open Relational Trace

/-- The conversion of port numbers, and which values the database takes in a
column of type `String(n)` and of type `Integer`. -/
structure Platform where
  int : String → Except String Int
  takesText : Nat → String → Bool
  takesInteger : Int → Bool

section
variable (p : Platform)

def ScannedService.fits (s : ScannedService) : Bool :=
  p.takesText 8 s.protocol && p.takesInteger s.port && p.takesText 32 s.state &&
    s.service.all (p.takesText 128) && s.product.all (p.takesText 255) &&
    s.version.all (p.takesText 128)

def ScannedHost.fits (h : ScannedHost) : Bool :=
  p.takesText 64 h.address && p.takesText 32 h.state && h.hostname.all (p.takesText 255)

def ServiceObservation.fits (s : ServiceObservation) : Bool := s.scanned.fits p

def HostObservation.fits (h : HostObservation) : Bool :=
  p.takesText 64 h.address && p.takesText 32 h.state && h.hostname.all (p.takesText 255)

def DiscoveryObservation.fits (o : DiscoveryObservation) : Bool :=
  p.takesText 64 o.address && p.takesText 8 o.protocol && p.takesInteger o.port

/-- The columns of the read model that a document fills. -/
def CurrentExposure.fits (e : CurrentExposure) : Bool :=
  p.takesText 64 e.address && p.takesText 8 e.protocol && p.takesInteger e.port &&
    e.service.all (p.takesText 128) && e.product.all (p.takesText 255) &&
    e.version.all (p.takesText 128)

def Db.exposuresFit (db : Db) : Bool := db.exposures.rows.all (CurrentExposure.fits p)

namespace Execution

/-- The columns of the pending rows take their values. -/
def rowsFit (e : Execution) : Bool :=
  e.hosts.all (HostObservation.fits p) && e.services.all (ServiceObservation.fits p) &&
    e.discoveries.all (DiscoveryObservation.fits p)

/-- A flush goes through. -/
def accepted (db : Db) (e : Execution) : Bool := e.rowsFit p && (e.flush db).isSome

/-- The loop of `normalize_nmap_xml`: each host is flushed, its services are not. -/
def normalize (settings : Settings) (db : Db) (e : Execution) :
    List (HostObservation × List ServiceObservation) → Option Execution
  | [] => some e
  | (host, services) :: rows => do
    let (_, added) ← e.step db settings (.addHost host [])
    if added.accepted p db then do
      let (_, e') ← e.step db settings (.addHost host services)
      e'.normalize settings db rows
    else none

/-- The statement raises and the task ends. -/
def raises (settings : Settings) (db : Db) (e : Execution) (a : WorkerAction) : Bool :=
  match a, e.pc with
  | .commitHeartbeat, .beating _ beat => (beat.isNone || e.owns db) && !e.accepted p db
  | .finish now, .failing _ => !e.retryFits settings now
  | .countShards, .finishing _ none => !e.accepted p db
  | .commitFinish _, .finishing _ _ =>
    e.owns db && !(e.accepted p db && (e.step db settings a).any fun x => x.1.exposuresFit p)
  | _, _ => false

end Execution

end

/-- The steps by which results are recorded; here they are part of reading a document. -/
def WorkerAction.records : WorkerAction → Bool
  | .addDiscoveries _ | .addHost _ _ | .storeConfirmation => true
  | _ => false

/-- The ids drawn for the rows of a document. -/
def drawnIds (drawn : List (Uuid × List Uuid)) : List Uuid :=
  drawn.map Prod.fst ++ drawn.flatMap Prod.snd

/-- What ends the recording of Nmap's results. -/
def recorded (error : Option String) : WorkerAction :=
  match error with
  | some error => .fail error
  | none => .storeConfirmation

structure Scanning where
  base : State
  used : List Uuid := []
  /-- The executions an exception has ended, and the reconciliation passes. -/
  crashed : List Nat := []
  aborted : List Nat := []

inductive ScanAction
  | single (a : Action)
  | readDiscovery (i : Nat) (document : Document)
  | readConfirmation (i : Nat) (document : Document) (drawn : List (Uuid × List Uuid))
      (stored : Option String)

/-- The execution that takes the step. -/
def ScanAction.execution : ScanAction → Option Nat
  | .single (.worker i _) | .readDiscovery i _ | .readConfirmation i _ _ _ => some i
  | _ => none

namespace Scanning

def crash (s : Scanning) (i : Nat) : Scanning := { s with crashed := i :: s.crashed }

/-- A step of execution `i`. -/
def advance (settings : Settings) (s : Scanning) (i : Nat) (a : WorkerAction) : Option Scanning :=
  (s.base.step settings (.worker i a)).map fun base => { s with base := base }

def step (p : Platform) (settings : Settings) (s : Scanning) : ScanAction → Option Scanning
  | .single (.worker i a) => do
    let e ← s.base.executions[i]?
    if i ∈ s.crashed ∨ a.records then none
    else if e.raises p settings s.base.db a then some (s.crash i)
    else s.advance settings i a
  | .single (.finalizeNext q now) => do
    let runs ← s.base.reconciliations[q]?
    if runs = [] ∨ q ∈ s.aborted then none
    else
      match s.base.step settings (.finalizeNext q now) with
      | some base =>
        if base.db.exposuresFit p then some { s with base := base }
        else some { s with aborted := q :: s.aborted }
      | none => some { s with aborted := q :: s.aborted }
  | .single a => (s.base.step settings a).map fun base => { s with base := base }
  | .readDiscovery i document =>
    if i ∈ s.crashed then none
    else
      -- an error in the document is raised where Masscan's results are recorded
      match s.base.executions[i]?.map Execution.pc, readMasscanXml p.int document with
      | some (.recording .masscan), .error error => s.advance settings i (.fail error)
      | some (.recording .masscan), .ok observations =>
        s.advance settings i (.addDiscoveries observations)
      | _, _ => none
  | .readConfirmation i document drawn stored => do
    let e ← s.base.executions[i]?
    let (hosts, error) := normalizeNmapXml p.int document
    if e.pc = .recording .nmap ∧ i ∉ s.crashed ∧ Suits hosts drawn ∧ (drawnIds drawn).Nodup ∧
        ∀ id ∈ drawnIds drawn, id ∉ s.used then
      match e.normalize p settings s.base.db (identified hosts drawn) with
      | none => some (s.crash i)
      | some e' =>
        -- the upload of the artifact may raise where the document did not
        (e'.step s.base.db settings (recorded (error.or stored))).map fun (db, e'') =>
          { s with
            base := { s.base with db := db, executions := s.base.executions.set i e'' }
            used := s.used ++ drawnIds drawn }
    else none

def initial (scopes : Table InventoryScope) (profiles : Table ScanProfile) : Scanning :=
  { base := State.initial scopes profiles }

end Scanning

/-! ## Inversion -/

section
variable {p : Platform} {settings : Settings} {s s' : Scanning} {i : Nat}

/-! What a statement needs not to raise, at the program point it belongs to. -/

theorem raises_commitHeartbeat {db : Db} {e : Execution} {stage : Stage} {beat : Option DateTime}
    (hpc : e.pc = .beating stage beat) : e.raises p settings db .commitHeartbeat = false ↔
      (beat = none ∨ e.owns db = true → e.accepted p db = true) := by
  unfold Execution.raises
  rw [hpc]
  cases beat with
  | none => simp
  | some now => simp

theorem raises_finish {db : Db} {e : Execution} {error : String} {now : DateTime}
    (hpc : e.pc = .failing error) :
    e.raises p settings db (.finish now) = false ↔ e.retryFits settings now = true := by
  unfold Execution.raises
  rw [hpc]
  simp

theorem raises_countShards {db : Db} {e : Execution} {o : Outcome}
    (hpc : e.pc = .finishing o none) :
    e.raises p settings db .countShards = false ↔ e.accepted p db = true := by
  unfold Execution.raises
  rw [hpc]
  simp

theorem raises_commitFinish {db : Db} {e : Execution} {o : Outcome}
    {counts : Option TerminalCounts} {now : DateTime} (hpc : e.pc = .finishing o counts) :
    e.raises p settings db (.commitFinish now) = false ↔
      (e.owns db = true → e.accepted p db = true ∧
        (e.step db settings (.commitFinish now)).any (fun x => x.1.exposuresFit p) = true) := by
  unfold Execution.raises
  rw [hpc]
  simp

/-- The hosts of a document are recorded by steps of the execution. -/
theorem normalize_steps {db : Db} {e e' : Execution}
    {rows : List (HostObservation × List ServiceObservation)}
    (h : e.normalize p settings db rows = some e') :
    runAll (Execution.next settings) (db, e) (rows.map fun x => .addHost x.1 x.2) =
      some (db, e') := by
  induction rows generalizing e with
  | nil =>
    cases h
    rfl
  | cons row rows ih =>
    obtain ⟨host, services⟩ := row
    rw [Execution.normalize] at h
    obtain ⟨⟨db₀, added⟩, -, h⟩ := Option.bind_eq_some_iff.mp h
    dsimp only at h
    split at h
    · obtain ⟨⟨db₁, e₁⟩, hadd, h⟩ := Option.bind_eq_some_iff.mp h
      have hsame : db₁ = db := by
        rcases Execution.step_cases hadd with ⟨hdb, -⟩ | hc
        · exact hdb
        · cases hc
      subst hsame
      rw [List.map_cons, runAll, Execution.next, hadd, Option.bind_some]
      exact ih h
    · cases h

theorem scanning_worker {a : WorkerAction}
    (h : s.step p settings (.single (.worker i a)) = some s') :
    ∃ e, s.base.executions[i]? = some e ∧ i ∉ s.crashed ∧ a.records = false ∧
      ((e.raises p settings s.base.db a = true ∧ s' = s.crash i) ∨
        (e.raises p settings s.base.db a = false ∧
          ∃ base, s.base.step settings (.worker i a) = some base ∧
            s' = { s with base := base })) := by
  simp only [Scanning.step] at h
  obtain ⟨e, he, h⟩ := Option.bind_eq_some_iff.mp h
  split at h
  · cases h
  · next hg =>
    obtain ⟨hin, hrecords⟩ := not_or.mp hg
    refine ⟨e, he, hin, Bool.eq_false_iff.mpr hrecords, ?_⟩
    split at h
    · next hraises =>
      cases h
      exact Or.inl ⟨hraises, rfl⟩
    · next hraises =>
      obtain ⟨base, hbase, rfl⟩ := Option.map_eq_some_iff.mp h
      exact Or.inr ⟨Bool.eq_false_iff.mpr hraises, base, hbase, rfl⟩

theorem scanning_finalizeNext {q : Nat} {now : DateTime}
    (h : s.step p settings (.single (.finalizeNext q now)) = some s') :
    ∃ run rest, s.base.reconciliations[q]? = some (run :: rest) ∧ q ∉ s.aborted ∧
      ((∃ base, s.base.step settings (.finalizeNext q now) = some base ∧
          base.db.exposuresFit p = true ∧ s' = { s with base := base }) ∨
        ((∀ base, s.base.step settings (.finalizeNext q now) = some base →
            base.db.exposuresFit p = false) ∧ s' = { s with aborted := q :: s.aborted })) := by
  simp only [Scanning.step] at h
  obtain ⟨runs, hruns, h⟩ := Option.bind_eq_some_iff.mp h
  split at h
  · cases h
  · next hg =>
    obtain ⟨hne, hin⟩ := not_or.mp hg
    obtain ⟨run, rest, rfl⟩ := List.exists_cons_of_ne_nil hne
    refine ⟨run, rest, hruns, hin, ?_⟩
    split at h
    · next base hbase =>
      split at h
      · next hfit =>
        cases h
        exact Or.inl ⟨base, hbase, hfit, rfl⟩
      · next hfit =>
        cases h
        refine Or.inr ⟨fun base' hbase' => ?_, rfl⟩
        rw [hbase] at hbase'
        cases hbase'
        exact Bool.eq_false_iff.mpr hfit
    · next hnone =>
      cases h
      refine Or.inr ⟨fun base hbase => ?_, rfl⟩
      rw [hnone] at hbase
      cases hbase

theorem scanning_single {a : Action} (h : s.step p settings (.single a) = some s')
    (hworker : ∀ i b, a ≠ .worker i b) (hfinal : ∀ q now, a ≠ .finalizeNext q now) :
    ∃ base, s.base.step settings a = some base ∧ s' = { s with base := base } := by
  have hplain : s.step p settings (.single a) =
      (s.base.step settings a).map fun base => { s with base := base } := by
    cases a with
    | worker i b => exact absurd rfl (hworker i b)
    | finalizeNext q now => exact absurd rfl (hfinal q now)
    | _ => rfl
  rw [hplain] at h
  obtain ⟨base, hbase, rfl⟩ := Option.map_eq_some_iff.mp h
  exact ⟨base, hbase, rfl⟩

/-- Reading Masscan's document fails, or records candidates no two of which agree. -/
theorem scanning_readDiscovery {document : Document}
    (h : s.step p settings (.readDiscovery i document) = some s') :
    ∃ e a base, s.base.executions[i]? = some e ∧ e.pc = .recording .masscan ∧ i ∉ s.crashed ∧
      s.base.step settings (.worker i a) = some base ∧ s' = { s with base := base } ∧
      ((∃ error, readMasscanXml p.int document = .error error ∧ a = .fail error) ∨
        ∃ observations, readMasscanXml p.int document = .ok observations ∧
          observations.Nodup ∧ a = .addDiscoveries observations) := by
  simp only [Scanning.step] at h
  split at h
  · cases h
  · next hin =>
    split at h
    · next error hpc hread =>
      obtain ⟨e, he, hpc⟩ := Option.map_eq_some_iff.mp hpc
      obtain ⟨base, hbase, rfl⟩ := Option.map_eq_some_iff.mp h
      exact ⟨e, _, base, he, hpc, hin, hbase, rfl, Or.inl ⟨error, hread, rfl⟩⟩
    · next observations hpc hread =>
      obtain ⟨e, he, hpc⟩ := Option.map_eq_some_iff.mp hpc
      obtain ⟨base, hbase, rfl⟩ := Option.map_eq_some_iff.mp h
      refine ⟨e, _, base, he, hpc, hin, hbase, rfl, Or.inr ⟨observations, hread, ?_, rfl⟩⟩
      cases document with
      | error error => cases hread
      | ok root => exact masscanObservations_nodup hread
    · cases h

/-- Nmap's results are recorded host by host. -/
theorem scanning_readConfirmation {document : Document} {drawn : List (Uuid × List Uuid)}
    {stored : Option String}
    (h : s.step p settings (.readConfirmation i document drawn stored) = some s') :
    ∃ e, s.base.executions[i]? = some e ∧ e.pc = .recording .nmap ∧ i ∉ s.crashed ∧
      Suits (normalizeNmapXml p.int document).1 drawn ∧ (drawnIds drawn).Nodup ∧
      (∀ id ∈ drawnIds drawn, id ∉ s.used) ∧
      ((e.normalize p settings s.base.db
          (identified (normalizeNmapXml p.int document).1 drawn) = none ∧ s' = s.crash i) ∨
        ∃ e₁ db e', e.normalize p settings s.base.db
            (identified (normalizeNmapXml p.int document).1 drawn) = some e₁ ∧
          e₁.step s.base.db settings
            (recorded ((normalizeNmapXml p.int document).2.or stored)) = some (db, e') ∧
          s' = { s with
            base := { s.base with db := db, executions := s.base.executions.set i e' }
            used := s.used ++ drawnIds drawn }) := by
  simp only [Scanning.step] at h
  obtain ⟨e, he, h⟩ := Option.bind_eq_some_iff.mp h
  split at h
  · next hg =>
    obtain ⟨hpc, hin, hsuits, hnodup, hfresh⟩ := hg
    refine ⟨e, he, hpc, hin, hsuits, hnodup, hfresh, ?_⟩
    split at h
    · next hnone =>
      cases h
      exact Or.inl ⟨hnone, rfl⟩
    · next e₁ hsome =>
      obtain ⟨⟨db, e'⟩, hlast, rfl⟩ := Option.map_eq_some_iff.mp h
      exact Or.inr ⟨e₁, db, e', hsome, hlast, rfl⟩
  · cases h

/-- What a step can do. -/
inductive Scans (p : Platform) (settings : Settings) (s : Scanning) :
    ScanAction → Scanning → Prop
  | crash {a i} (hi : a.execution = some i) : Scans p settings s a (s.crash i)
  | abort {q now} :
      Scans p settings s (.single (.finalizeNext q now)) { s with aborted := q :: s.aborted }
  | single {a base} (hrecords : ∀ i b, a = .worker i b → b.records = false)
      (hbase : s.base.step settings a = some base) :
      Scans p settings s (.single a) { s with base := base }
  | discovery {i document a base} (hbase : s.base.step settings (.worker i a) = some base)
      (hread : (∃ error, readMasscanXml p.int document = .error error ∧ a = .fail error) ∨
        ∃ observations, readMasscanXml p.int document = .ok observations ∧
          observations.Nodup ∧ a = .addDiscoveries observations) :
      Scans p settings s (.readDiscovery i document) { s with base := base }
  | confirmation {i document drawn stored e e₁ db e'} (he : s.base.executions[i]? = some e)
      (hpc : e.pc = .recording .nmap)
      (hsuits : Suits (normalizeNmapXml p.int document).1 drawn) (hnodup : (drawnIds drawn).Nodup)
      (hfresh : ∀ id ∈ drawnIds drawn, id ∉ s.used)
      (hrows : e.normalize p settings s.base.db
        (identified (normalizeNmapXml p.int document).1 drawn) = some e₁)
      (hlast : e₁.step s.base.db settings
        (recorded ((normalizeNmapXml p.int document).2.or stored)) = some (db, e')) :
      Scans p settings s (.readConfirmation i document drawn stored) { s with
        base := { s.base with db := db, executions := s.base.executions.set i e' }
        used := s.used ++ drawnIds drawn }

theorem scans_of_step {a : ScanAction} (h : s.step p settings a = some s') :
    Scans p settings s a s' := by
  cases a with
  | single a =>
    cases a with
    | worker i b =>
      obtain ⟨e, -, -, hrecords, ⟨-, rfl⟩ | ⟨-, base, hbase, rfl⟩⟩ := scanning_worker h
      · exact .crash rfl
      · refine .single (fun _ _ hab => ?_) hbase
        cases hab
        exact hrecords
    | finalizeNext q now =>
      obtain ⟨run, rest, -, -, ⟨base, hbase, -, rfl⟩ | ⟨-, rfl⟩⟩ := scanning_finalizeNext h
      · exact .single (fun _ _ hab => by cases hab) hbase
      · exact .abort
    | _ =>
      obtain ⟨base, hbase, rfl⟩ := scanning_single h (fun _ _ hab => by cases hab)
        fun _ _ hab => by cases hab
      exact .single (fun _ _ hab => by cases hab) hbase
  | readDiscovery i document =>
    obtain ⟨e, b, base, -, -, -, hbase, rfl, hread⟩ := scanning_readDiscovery h
    exact .discovery hbase hread
  | readConfirmation i document drawn stored =>
    obtain ⟨e, he, hpc, -, hsuits, hnodup, hfresh, ⟨-, rfl⟩ | ⟨e₁, db, e', hrows, hlast, rfl⟩⟩ :=
      scanning_readConfirmation h
    · exact .crash rfl
    · exact .confirmation he hpc hsuits hnodup hfresh hrows hlast

/-- The statements of execution `i` that a reading that goes through consists of. -/
def confirmationSteps (rows : List (HostObservation × List ServiceObservation))
    (error : Option String) : List WorkerAction :=
  rows.map (fun x => .addHost x.1 x.2) ++ [recorded error]

theorem readConfirmation_base {e e₁ e' : Execution} {db : Db}
    {rows : List (HostObservation × List ServiceObservation)} {error : Option String}
    (he : s.base.executions[i]? = some e)
    (hrows : e.normalize p settings s.base.db rows = some e₁)
    (hlast : e₁.step s.base.db settings (recorded error) = some (db, e')) :
    runAll (State.step settings) s.base ((confirmationSteps rows error).map (Action.worker i)) =
      some { s.base with db := db, executions := s.base.executions.set i e' } := by
  rw [runAll_worker he, confirmationSteps, runAll_append (normalize_steps hrows), runAll,
    Execution.next, hlast]
  rfl

/-- The base system takes steps of its own. -/
theorem scanning_path {a : ScanAction} (h : s.step p settings a = some s') :
    ∃ tr, Path (State.step settings) s.base tr s'.base := by
  cases scans_of_step h with
  | crash | abort => exact ⟨[], .nil⟩
  | single _ hbase => exact ⟨_, .single hbase⟩
  | discovery hbase => exact ⟨_, .single hbase⟩
  | confirmation he _ _ _ _ hrows hlast =>
    obtain ⟨tr, hp, -⟩ := Path.of_runAll (readConfirmation_base he hrows hlast)
    exact ⟨tr, hp⟩

theorem scanning_run {tr : List (Transition Scanning ScanAction)}
    (h : Path (Scanning.step p settings) s tr s') :
    ∃ tr', Path (State.step settings) s.base tr' s'.base := by
  induction h with
  | nil => exact ⟨[], .nil⟩
  | snoc _ hs ih =>
    obtain ⟨tr₁, hp₁⟩ := ih
    obtain ⟨tr₂, hp₂⟩ := scanning_path hs
    exact ⟨tr₁ ++ tr₂, hp₁.trans hp₂⟩

end

namespace Demo

/-- Columns as PostgreSQL has them, and ports of two digits or three. -/
def platform : Platform where
  int := fun s => ([("80", 80), ("443", 443)].lookup s).elim
    (.error ("ValueError: invalid literal for int() with base 10: '" ++ s ++ "'")) .ok
  takesText := fun n s => s.length ≤ n
  takesInteger := fun n => -2147483648 ≤ n ∧ n ≤ 2147483647

end Demo

end TransportLookout
