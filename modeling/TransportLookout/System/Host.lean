/-
One worker host.

The executions of the system run on one host and share its `/tmp`.  The names of
their three scratch files are made of the shard's id alone.

A scanner is a process of its own.  It opens its output file when it gets to it,
writes while it lives, and may outlive the execution that started it: after
`process.terminate()` and `process.kill()` no one waits for it, unless the run
was cancelled.  `crash` is an exception raised in the `except` handler itself;
the `finally` clause runs all the same.
-/
import TransportLookout.Library.Files
import TransportLookout.System.Steps
import TransportLookout.Worker.Results

namespace TransportLookout

open Relational Files

inductive Scratch
  | discovery | confirmation | targets
deriving DecidableEq, Repr

def Scratch.stem : Scratch → String
  | .discovery => "/tmp/scanpod-discovery-"
  | .confirmation => "/tmp/scanpod-nmap-"
  | .targets => "/tmp/scanpod-targets-"

def Scratch.suffix : Scratch → String
  | .discovery | .confirmation => ".xml"
  | .targets => ".txt"

/-- `discovery_xml`, `confirmation_xml` and `targets_file`. -/
def scratchPath (shardId : Uuid) (file : Scratch) : String := file.stem ++ shardId ++ file.suffix

/-- The file the `finally` clause removes before this one. -/
def Scratch.previous : Scratch → Option Scratch
  | .discovery => none
  | .confirmation => some .discovery
  | .targets => some .confirmation

/-- The file the scanner of a stage writes. -/
def Stage.output : Stage → Scratch
  | .masscan => .discovery
  | .nmap => .confirmation

inductive ArtifactBackend
  | filesystem | s3
deriving DecidableEq, Repr

structure Scanner where
  execution : Nat
  stage : Stage
  file : Option Nat := none
  alive : Bool := true
deriving DecidableEq, Repr

/-- An execution and one of its files: its scanner of a stage writes the output
of that stage, and itself the list of targets. -/
abbrev Use := Nat × Scratch

structure Host where
  base : State
  disk : Disk String Use String := {}
  scanners : List Scanner := []
  entered : List Nat := []
  crashed : List Nat := []
  parsed : List (Nat × Stage) := []
  targeted : List Nat := []
  removed : List Use := []

inductive HostAction
  | base (a : Action)
  | spawn (i : Nat)
  | create (n : Nat)
  | write (n : Nat) (data : String)
  | quit (n : Nat)
  | parse (i : Nat)
  | writeTargets (i : Nat) (data : String)
  | crash (i : Nat)
  | remove (i : Nat) (file : Scratch)
deriving DecidableEq, Repr

/-- Past the `try` statement's body and handlers. -/
def Pc.past : Pc → Bool
  | .finishing _ _ | .finished _ | .stopped => true
  | _ => false

theorem Execution.past_kept {settings : Settings} {db db' : Db} {e e' : Execution}
    {a : WorkerAction} (h : e.step db settings a = some (db', e')) (hpast : e.pc.past = true) :
    e'.pc.past = true := by
  have hnot : ∀ {pc : Pc} {P : Prop}, e.pc = pc → pc.past = false → P := by
    intro pc P hpc hno
    rw [hpc, hno] at hpast
    cases hpast
  rcases step_cases h with ⟨-, hmove⟩ | hc
  · cases hmove with
    | missing | lost | finish | countShards => rfl
    | loadShard hpc | loadRun hpc | clearServices hpc | clearHosts hpc | clearDiscoveries hpc
    | refresh hpc | checkLease hpc | heartbeat hpc | exit hpc | recheck hpc | addDiscoveries hpc
    | storeDiscovery hpc | addHost hpc | storeConfirmation hpc | confirm hpc => exact hnot hpc rfl
    | fail htry =>
      revert hpast htry
      cases e.pc <;> simp [Pc.past, Pc.inTry]
  · cases hc with
    | abandon | finish => rfl
    | start hpc | beat hpc | beatLost hpc => exact hnot hpc rfl

namespace Host

def shard (s : Host) (i : Nat) : Option Uuid := (s.base.executions[i]?).map Execution.shardId

def path (s : Host) (i : Nat) (file : Scratch) : Option String :=
  (s.shard i).map fun shardId => scratchPath shardId file

def spawned (s : Host) (i : Nat) (stage : Stage) : Bool :=
  s.scanners.any fun p => p.execution = i && p.stage = stage

/-- The scanner of the stage has been started and has ended. -/
def ran (s : Host) (i : Nat) (stage : Stage) : Bool :=
  s.spawned i stage &&
    s.scanners.all fun p => !(p.execution = i && p.stage = stage) || !p.alive

def holds (s : Host) (i : Nat) (file : Scratch) : Bool :=
  (s.path i file).any fun p => (s.disk.read p).isSome

/-- The `finally` clause has been run. -/
def tidied (s : Host) (i : Nat) : Bool :=
  (i, .discovery) ∈ s.removed && (i, .confirmation) ∈ s.removed && (i, .targets) ∈ s.removed

/-- The execution has left its files, and no scanner of it is alive. -/
def ended (s : Host) (i : Nat) : Bool :=
  s.tidied i && s.scanners.all fun p => p.execution ≠ i || !p.alive

/-- The steps of an execution that wait for a scanner or for a file. -/
def ready (s : Host) (i : Nat) (e : Execution) (a : WorkerAction) : Bool :=
  match e.pc, a with
  | .polling stage, .refresh => s.spawned i stage
  | .polling stage, .exit => s.ran i stage
  | .exited stage, .finish _ => s.ran i stage
  | .recording stage, .addDiscoveries _ | .recording stage, .addHost _ _ => (i, stage) ∈ s.parsed
  | .recording stage, .storeConfirmation => (i, stage) ∈ s.parsed && s.holds i stage.output
  | .discovered, .storeDiscovery => s.holds i .discovery
  | .finishing _ _, .countShards | .finishing _ _, .commitFinish _ => s.tidied i
  | _, _ => true

/-- What `store_artifact` leaves of its source. -/
def stored (backend : ArtifactBackend) (s : Host) (i : Nat) (file : Scratch) :
    Disk String Use String :=
  match backend, s.path i file with
  | .filesystem, some p => s.disk.remove p
  | _, _ => s.disk

def after (backend : ArtifactBackend) (s : Host) (base : State) : Action → Host
  | .worker i (.start _) => { s with base := base, entered := i :: s.entered }
  | .worker i .storeDiscovery => { s with base := base, disk := s.stored backend i .discovery }
  | .worker i .storeConfirmation =>
    { s with base := base, disk := s.stored backend i .confirmation }
  | _ => { s with base := base }

def permits (s : Host) : Action → Bool
  | .worker i a => i ∉ s.crashed && (s.base.executions[i]?).any fun e => s.ready i e a
  | _ => true

def step (settings : Settings) (backend : ArtifactBackend) (s : Host) : HostAction → Option Host
  | .base a =>
    if s.permits a then (s.base.step settings a).map fun base => s.after backend base a else none
  | .spawn i => do
    let e ← s.base.executions[i]?
    match e.pc with
    | .polling stage =>
      if i ∉ s.crashed ∧ s.spawned i stage = false ∧
          (stage = .nmap → e.firstStage = .masscan → i ∈ s.targeted) then
        some { s with scanners := s.scanners ++ [{ execution := i, stage := stage }] }
      else none
    | _ => none
  | .create n => do
    let p ← s.scanners[n]?
    let path ← s.path p.execution p.stage.output
    if p.alive ∧ p.file = none then
      let opened := s.disk.create path (p.execution, p.stage.output)
      some { s with
        disk := opened.1, scanners := s.scanners.set n { p with file := some opened.2 } }
    else none
  | .write n data => do
    let p ← s.scanners[n]?
    let m ← p.file
    if p.alive then
      some { s with disk := s.disk.write m (p.execution, p.stage.output) data }
    else none
  | .quit n => do
    let p ← s.scanners[n]?
    return { s with scanners := s.scanners.set n { p with alive := false } }
  | .parse i => do
    let e ← s.base.executions[i]?
    match e.pc with
    | .recording stage =>
      if i ∉ s.crashed ∧ (i, stage) ∉ s.parsed ∧ s.holds i stage.output then
        some { s with parsed := (i, stage) :: s.parsed }
      else none
    | _ => none
  | .writeTargets i data => do
    let e ← s.base.executions[i]?
    if e.pc = .polling .nmap ∧ e.firstStage = .masscan ∧ i ∉ s.crashed ∧ i ∉ s.targeted then
      let opened := s.disk.create (scratchPath e.shardId .targets) (i, .targets)
      some { s with
        disk := opened.1.write opened.2 (i, .targets) data, targeted := i :: s.targeted }
    else none
  | .crash i => do
    let e ← s.base.executions[i]?
    if e.pc.started ∧ e.pc.past = false ∧ i ∉ s.crashed then
      some { s with crashed := i :: s.crashed }
    else none
  | .remove i file => do
    let e ← s.base.executions[i]?
    if i ∈ s.entered ∧ (e.pc.past ∨ i ∈ s.crashed) ∧ (i, file) ∉ s.removed ∧
        ∀ previous ∈ file.previous, (i, previous) ∈ s.removed then
      some { s with
        disk := s.disk.remove (scratchPath e.shardId file), removed := (i, file) :: s.removed }
    else none

def initial (scopes : Table InventoryScope) (profiles : Table ScanProfile) : Host :=
  { base := State.initial scopes profiles }

/-! ## What a step can do -/

inductive Step (settings : Settings) (backend : ArtifactBackend) (s : Host) :
    HostAction → Host → Prop
  | base {a base} (hpermits : s.permits a = true) (hstep : s.base.step settings a = some base) :
      Step settings backend s (.base a) (s.after backend base a)
  | spawn {i e stage} (he : s.base.executions[i]? = some e) (hpc : e.pc = .polling stage)
      (hcrashed : i ∉ s.crashed) (hspawned : s.spawned i stage = false) :
      Step settings backend s (.spawn i)
        { s with scanners := s.scanners ++ [{ execution := i, stage := stage }] }
  | create {n p path opened} (hp : s.scanners[n]? = some p)
      (hpath : s.path p.execution p.stage.output = some path) (halive : p.alive = true)
      (hopened : opened = s.disk.create path (p.execution, p.stage.output)) :
      Step settings backend s (.create n) { s with
        disk := opened.1, scanners := s.scanners.set n { p with file := some opened.2 } }
  | write {n p m data} (hp : s.scanners[n]? = some p) (hfile : p.file = some m)
      (halive : p.alive = true) :
      Step settings backend s (.write n data)
        { s with disk := s.disk.write m (p.execution, p.stage.output) data }
  | quit {n p} (hp : s.scanners[n]? = some p) :
      Step settings backend s (.quit n)
        { s with scanners := s.scanners.set n { p with alive := false } }
  | parse {i e stage} (he : s.base.executions[i]? = some e) (hpc : e.pc = .recording stage)
      (hcrashed : i ∉ s.crashed) :
      Step settings backend s (.parse i) { s with parsed := (i, stage) :: s.parsed }
  | writeTargets {i e data opened} (he : s.base.executions[i]? = some e)
      (hpc : e.pc = .polling .nmap) (hcrashed : i ∉ s.crashed)
      (hopened : opened = s.disk.create (scratchPath e.shardId .targets) (i, .targets)) :
      Step settings backend s (.writeTargets i data) { s with
        disk := opened.1.write opened.2 (i, .targets) data, targeted := i :: s.targeted }
  | crash {i} : Step settings backend s (.crash i) { s with crashed := i :: s.crashed }
  | remove {i e file} (he : s.base.executions[i]? = some e) (hentered : i ∈ s.entered)
      (hleft : e.pc.past = true ∨ i ∈ s.crashed) (hremoved : (i, file) ∉ s.removed) :
      Step settings backend s (.remove i file) { s with
        disk := s.disk.remove (scratchPath e.shardId file), removed := (i, file) :: s.removed }

variable {settings : Settings} {backend : ArtifactBackend} {s s' : Host}

theorem step_spec {a : HostAction} (h : s.step settings backend a = some s') :
    Step settings backend s a s' := by
  cases a with
  | base a =>
    simp only [step] at h
    split at h
    · next hpermits =>
      obtain ⟨base, hbase, rfl⟩ := Option.map_eq_some_iff.mp h
      exact .base hpermits hbase
    · cases h
  | spawn i =>
    simp only [step] at h
    obtain ⟨e, he, h⟩ := Option.bind_eq_some_iff.mp h
    split at h
    · next stage hpc =>
      split at h
      · next hg =>
        cases h
        exact .spawn he hpc hg.1 hg.2.1
      · cases h
    · cases h
  | create n =>
    simp only [step] at h
    obtain ⟨p, hp, h⟩ := Option.bind_eq_some_iff.mp h
    obtain ⟨path, hpath, h⟩ := Option.bind_eq_some_iff.mp h
    split at h
    · next hg =>
      cases h
      exact .create hp hpath hg.1 rfl
    · cases h
  | write n data =>
    simp only [step] at h
    obtain ⟨p, hp, h⟩ := Option.bind_eq_some_iff.mp h
    obtain ⟨m, hm, h⟩ := Option.bind_eq_some_iff.mp h
    split at h
    · next halive =>
      cases h
      exact .write hp hm halive
    · cases h
  | quit n =>
    simp only [step] at h
    obtain ⟨p, hp, h⟩ := Option.bind_eq_some_iff.mp h
    cases h
    exact .quit hp
  | parse i =>
    simp only [step] at h
    obtain ⟨e, he, h⟩ := Option.bind_eq_some_iff.mp h
    split at h
    · next stage hpc =>
      split at h
      · next hg =>
        cases h
        exact .parse he hpc hg.1
      · cases h
    · cases h
  | writeTargets i data =>
    simp only [step] at h
    obtain ⟨e, he, h⟩ := Option.bind_eq_some_iff.mp h
    split at h
    · next hg =>
      cases h
      exact .writeTargets he hg.1 hg.2.2.1 rfl
    · cases h
  | crash i =>
    simp only [step] at h
    obtain ⟨e, -, h⟩ := Option.bind_eq_some_iff.mp h
    split at h
    · cases h
      exact .crash
    · cases h
  | remove i file =>
    simp only [step] at h
    obtain ⟨e, he, h⟩ := Option.bind_eq_some_iff.mp h
    split at h
    · next hg =>
      cases h
      exact .remove he hg.1 hg.2.1 hg.2.2.1
    · cases h

/-- What the host adds to a step of the system. -/
theorem after_cases (backend : ArtifactBackend) (s : Host) (base : State) (a : Action) :
    ∃ entered disk, s.after backend base a = { s with base, entered, disk } ∧
      (entered = s.entered ∨ ∃ i now, a = .worker i (.start now) ∧ entered = i :: s.entered) ∧
      (disk = s.disk ∨ ∃ p, disk = s.disk.remove p) := by
  have hstored : ∀ i file, s.stored backend i file = s.disk ∨
      ∃ p, s.stored backend i file = s.disk.remove p := by
    intro i file
    unfold stored
    split
    · exact Or.inr ⟨_, rfl⟩
    · exact Or.inl rfl
  unfold after
  split
  · next i now => exact ⟨_, _, rfl, Or.inr ⟨i, now, rfl, rfl⟩, Or.inl rfl⟩
  · next i => exact ⟨_, _, rfl, Or.inl rfl, hstored i .discovery⟩
  · next i => exact ⟨_, _, rfl, Or.inl rfl, hstored i .confirmation⟩
  · exact ⟨_, _, rfl, Or.inl rfl, Or.inl rfl⟩

end Host

end TransportLookout
