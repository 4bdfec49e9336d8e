/-
The objects behind the keys of artifacts.

`store_artifact` moves the scratch file of its execution into the artifact store.
Within one file system that is a rename: the object is the inode of the scratch
file, and a scanner that has it open writes on into the store.  Otherwise the bytes
are copied or uploaded as they are then.  A call that raises may leave a part of its
object behind.

While no execution starts its scan beside another of its shard, an execution stores
what its own scanner wrote, and that scanner has ended.  An inode no path names and no
living scanner has open stays as it is: `Closed` is kept by every step of the host.
-/
import TransportLookout.Safety.Artifacts
import TransportLookout.Safety.Scratch

namespace TransportLookout

open Relational Trace Files

/-! ## The artifact store -/

inductive Artifact
  | file (n : Nat)
  | bytes (content : List (Use × String))
deriving DecidableEq, Repr

/-- The newest object of a key comes first. -/
structure Archive where
  host : Host
  objects : List (String × Artifact) := []

inductive ArchiveAction
  | host (a : HostAction)
  /-- An exception ends the `try` block, and a call of `store_artifact` it came from has
  left `left` behind. -/
  | raise (i : Nat) (error : String) (left : List (Use × String))
deriving DecidableEq, Repr

def ArchiveAction.onHost : ArchiveAction → HostAction
  | .host a => a
  | .raise i error _ => .base (.worker i (.fail error))

/-- The step of the system a step of the host is, if it is one. -/
def HostAction.system : HostAction → Option Action
  | .base a => some a
  | _ => none

namespace Archive

section
variable (backend : ArtifactBackend) (renames : Bool) (s : Archive)

def content : Artifact → List (Use × String)
  | .file n => s.host.disk.content n
  | .bytes content => content

def object (key : String) : Option (List (Use × String)) := (s.objects.lookup key).map s.content

/-- What becomes of a scratch file that is stored.  `renames` says that it is on one
file system with the artifact root. -/
def put (i : Nat) (file : Scratch) : Option Artifact := do
  let p ← s.host.path i file
  let n ← s.host.disk.names.lookup p
  return if backend = .filesystem && renames then .file n else .bytes (s.host.disk.content n)

/-- The object a step adds, with its key. -/
def adds : ArchiveAction → Option (String × Artifact)
  | .host (.base (.worker i a)) => do
    let e ← s.host.base.executions[i]?
    let key ← e.stores a
    let stage ← a.stored
    return (key, ← s.put backend renames i stage.output)
  | .raise i error left => do
    let e ← s.host.base.executions[i]?
    return (← e.stores (.fail error), .bytes left)
  | _ => none

end

def step (settings : Settings) (backend : ArtifactBackend) (renames : Bool) (s : Archive)
    (a : ArchiveAction) : Option Archive := do
  let host ← s.host.step settings backend a.onHost
  return { host := host, objects := (s.adds backend renames a).toList ++ s.objects }

def alone (s : Archive) (a : ArchiveAction) : Bool := s.host.alone a.onHost

/-- Tokens drawn in the step contain no slash. -/
def drawsPlain (s : Archive) (a : ArchiveAction) : Bool :=
  a.onHost.system.all s.host.base.drawsPlain

def initial (scopes : Table InventoryScope) (profiles : Table ScanProfile) : Archive :=
  { host := .initial scopes profiles }

/-- The steps of the system in a step. -/
def systemSteps (x : Transition Archive ArchiveAction) : List (Transition State Action) :=
  x.act.onHost.system.toList.map fun a => ⟨x.pre.host.base, a, x.post.host.base⟩

end Archive

/-- The object is there, and all of it was written for the use. -/
def Archive.Holds (s : Archive) (key : String) (use : Use) : Prop :=
  ∃ content, s.object key = some content ∧ ∀ chunk ∈ content, chunk.1 = use

/-- No key is written twice.  The objects of a completed shard are the work of the
execution that completed it, and no object is ever changed. -/
structure ArtifactsOnce (tr : List (Transition Archive ArchiveAction)) (t : Archive) : Prop where
  keys : WriteOnce (tr.flatMap Archive.systemSteps) t.host.base
  completed : ∀ k r, t.host.base.db.shards.get k = some r → r.status = .completed →
    ∃ (i : Nat) (e : Execution),
      t.host.base.executions[i]? = some e ∧ e.shardId = k ∧ r.leaseToken = some e.leaseToken ∧
      e.pc = .finished .completed ∧
      (∀ key, r.artifactKey = some key → t.Holds key (i, .confirmation)) ∧
      ∀ key, r.discoveryArtifactKey = some key → t.Holds key (i, .discovery)
  kept : ∀ x ∈ tr, ∀ key content, x.pre.object key = some content →
    x.post.object key = some content

/-! ## Scanners that have ended -/

/-- The execution has seen its scanner of the stage end, and has not stored its file. -/
def Execution.scanned (e : Execution) (stage : Stage) : Bool :=
  match e.pc with
  | .exited stage' => stage' = stage && !e.cancelled
  | .recording stage' => stage' = stage
  | .discovered => stage = .masscan
  | _ => false

theorem Execution.step_scanned {settings : Settings} {db db' : Db} {e e' : Execution}
    {a : WorkerAction} {stage : Stage} (h : e.step db settings a = some (db', e'))
    (hs : e'.scanned stage = true) :
    e.scanned stage = true ∨ (a = .exit ∧ e.pc = .polling stage) := by
  have hbeat : ∀ {stage' : Stage} {P Q : Prop}, e'.pc = .exited stage' ∧ e'.cancelled = true ∧ P ∨
      e'.pc = .polling stage' ∧ Q → False := by
    rintro stage' P Q (⟨hpc, hflag, -⟩ | ⟨hpc, -⟩)
    · simp [Execution.scanned, hpc, hflag] at hs
    · simp [Execution.scanned, hpc] at hs
  rcases step_cases h with ⟨-, hmove⟩ | hc
  · cases hmove with
    | exit hpc =>
      obtain ⟨hstage, -⟩ := Bool.and_eq_true_iff.mp hs
      cases of_decide_eq_true hstage
      exact Or.inr ⟨rfl, hpc⟩
    | recheck hpc hflag =>
      left
      simpa [Execution.scanned, hpc, hflag] using hs
    | addDiscoveries hpc =>
      left
      rw [Execution.scanned, hpc]
      exact decide_eq_true (of_decide_eq_true hs).symm
    | addHost => exact Or.inl hs
    | storeDiscovery _ _ hnext =>
      split at hnext
      · subst hnext
        cases hs
      · subst hnext
        cases hs
    | _ => cases hs
  · cases hc with
    | beat _ _ _ _ _ hpc' | beatLost _ _ _ _ hpc' => exact (hbeat hpc').elim
    | _ => cases hs

namespace Host

variable {settings : Settings} {backend : ArtifactBackend} {s s' : Host}

theorem ran_iff {i : Nat} {stage : Stage} : s.ran i stage = true ↔ s.spawned i stage = true ∧
    ∀ p ∈ s.scanners, p.execution = i → p.stage = stage → p.alive = false := by
  rw [ran, Bool.and_eq_true, List.all_eq_true]
  refine and_congr_right fun _ => forall₂_congr fun p _ => ?_
  by_cases hi : p.execution = i <;> by_cases hst : p.stage = stage <;> simp [hi, hst]

theorem spawned_iff {i : Nat} {stage : Stage} :
    s.spawned i stage = true ↔ ∃ p ∈ s.scanners, p.execution = i ∧ p.stage = stage := by
  simp [spawned]

/-- A scanner replaced by one of the same stage that lives no longer than it. -/
theorem ran_set (disk : Disk String Use String) {n : Nat} {p p' : Scanner} {i : Nat} {stage : Stage}
    (hp : s.scanners[n]? = some p) (hexecution : p'.execution = p.execution)
    (hstage : p'.stage = p.stage) (halive : p.alive = false → p'.alive = false)
    (h : s.ran i stage = true) :
    { s with disk := disk, scanners := s.scanners.set n p' }.ran i stage = true := by
  obtain ⟨hspawned, hdead⟩ := ran_iff.mp h
  obtain ⟨q, hq, hi, hst⟩ := spawned_iff.mp hspawned
  refine ran_iff.mpr ⟨spawned_iff.mpr ?_, fun q' hq' hi' hst' => ?_⟩
  · obtain ⟨m, hm⟩ := List.mem_iff_getElem?.mp hq
    by_cases hmn : n = m
    · subst hmn
      rw [hp] at hm
      cases hm
      have hself : (s.scanners.set n p')[n]? = some p' :=
        List.getElem?_set_self (List.getElem?_eq_some_iff.mp hp).1
      exact ⟨p', List.mem_of_getElem? hself, hexecution.trans hi, hstage.trans hst⟩
    · exact ⟨q, List.mem_of_getElem? ((List.getElem?_set_ne hmn).trans hm), hi, hst⟩
  · rcases mem_set_scanner hp hq' with hold | ⟨rfl, hmem⟩
    · exact hdead q' hold hi' hst'
    · exact halive (hdead p hmem (hexecution.symm.trans hi') (hstage.symm.trans hst'))

theorem ran_kept {a : HostAction} (h : s.step settings backend a = some s') {i : Nat}
    {stage : Stage} (hr : s.ran i stage = true) : s'.ran i stage = true := by
  cases step_spec h with
  | @base a base _ _ =>
    obtain ⟨_, _, heq, -, -⟩ := after_cases backend s base a
    rw [heq]
    exact hr
  | @spawn j e stage' _ _ _ hnew =>
    obtain ⟨hspawned, hdead⟩ := ran_iff.mp hr
    obtain ⟨p, hp, hi, hst⟩ := spawned_iff.mp hspawned
    refine ran_iff.mpr ⟨spawned_iff.mpr ⟨p, List.mem_append_left _ hp, hi, hst⟩, ?_⟩
    intro q hq hi' hst'
    rcases List.mem_append.mp hq with hold | hlast
    · exact hdead q hold hi' hst'
    · -- a stage is started once
      cases List.mem_singleton.mp hlast
      cases hi'
      cases hst'
      rw [hspawned] at hnew
      cases hnew
  | create hp => exact ran_set _ hp rfl rfl id hr
  | quit hp => exact ran_set s.disk hp rfl rfl (fun _ => rfl) hr
  | write | parse | writeTargets | crash | remove => exact hr

/-- The scanner an execution has seen end has ended. -/
def Ran (s : Host) : Prop :=
  ∀ i e stage, s.base.executions[i]? = some e → e.scanned stage = true → s.ran i stage = true

theorem Ran.step {a : HostAction} (hr : s.Ran) (h : s.step settings backend a = some s') :
    s'.Ran := by
  intro i e' stage he' hscanned
  have hold : ∀ e, s.base.executions[i]? = some e → e.scanned stage = true →
      s'.ran i stage = true := fun e he hs => ran_kept h (hr i e stage he hs)
  cases step_spec h with
  | @base a base hpermits hstep =>
    obtain ⟨_, _, heq, -, -⟩ := after_cases backend s base a
    rw [heq] at he'
    rcases execution_cases hstep he' with
      ⟨he, -⟩ | ⟨e, b, he, rfl, hestep⟩ | ⟨_, _, -, -, -, hfresh⟩
    · exact hold e' he hscanned
    · rcases Execution.step_scanned hestep hscanned with hs | ⟨rfl, hpc⟩
      · exact hold e he hs
      · refine ran_kept h ?_
        have hready := (Bool.and_eq_true_iff.mp hpermits).2
        rw [he, Option.any_some] at hready
        simp only [ready, hpc] at hready
        exact hready
    · rw [hfresh] at hscanned
      cases hscanned
  | _ => exact hold e' he' hscanned

/-! ## Inodes no one writes to -/

/-- No path names the inode, and no living scanner has it open. -/
structure Closed (s : Host) (n : Nat) : Prop where
  detached : s.disk.Detached n
  dead : ∀ p ∈ s.scanners, p.file = some n → p.alive = false

theorem Closed.step {a : HostAction} {n : Nat} (hc : s.Closed n)
    (h : s.step settings backend a = some s') :
    s'.Closed n ∧ s'.disk.content n = s.disk.content n := by
  cases step_spec h with
  | @base a base _ _ =>
    obtain ⟨_, disk, heq, -, hdisk⟩ := after_cases backend s base a
    rw [heq]
    rcases hdisk with rfl | ⟨p, rfl⟩
    · exact ⟨⟨hc.detached, hc.dead⟩, rfl⟩
    · exact ⟨⟨hc.detached.remove, hc.dead⟩, rfl⟩
  | spawn =>
    refine ⟨⟨hc.detached, fun p hp hfile => ?_⟩, rfl⟩
    rcases List.mem_append.mp hp with hold | hnew
    · exact hc.dead p hold hfile
    · cases List.mem_singleton.mp hnew
      cases hfile
  | @create m p path opened hp _ _ hopened =>
    subst hopened
    obtain ⟨hdetached, hcontent, hne⟩ := hc.detached.create (p := path)
      (w := (p.execution, p.stage.output))
    refine ⟨⟨hdetached, fun q hq hfile => ?_⟩, hcontent⟩
    rcases mem_set_scanner hp hq with hold | ⟨rfl, -⟩
    · exact hc.dead q hold hfile
    · exact absurd (Option.some.inj hfile) hne
  | @write _ p m data hp hfile halive =>
    have hne : m ≠ n := by
      rintro rfl
      rw [hc.dead p (List.mem_of_getElem? hp) hfile] at halive
      cases halive
    exact ⟨⟨hc.detached.write, hc.dead⟩, Disk.content_rewrite_of_ne hne _⟩
  | @quit m p hp =>
    refine ⟨⟨hc.detached, fun q hq hfile => ?_⟩, rfl⟩
    rcases mem_set_scanner hp hq with hold | ⟨rfl, -⟩
    · exact hc.dead q hold hfile
    · rfl
  | parse | crash => exact ⟨⟨hc.detached, hc.dead⟩, rfl⟩
  | @writeTargets i e data opened _ _ _ hopened =>
    subst hopened
    obtain ⟨hdetached, hcontent, hne⟩ := hc.detached.create (p := scratchPath e.shardId .targets)
      (w := (i, .targets))
    exact ⟨⟨hdetached.write, hc.dead⟩, (Disk.content_rewrite_of_ne hne _).trans hcontent⟩
  | remove => exact ⟨⟨hc.detached.remove, hc.dead⟩, rfl⟩

/-- The executions of a host take steps of the system. -/
theorem step_base {a : HostAction} (h : s.step settings backend a = some s') :
    (∃ b, a.system = some b ∧ s.base.step settings b = some s'.base) ∨
      (a.system = none ∧ s'.base = s.base) := by
  cases step_spec h with
  | @base a base _ hstep =>
    obtain ⟨_, _, heq, -, -⟩ := after_cases backend s base a
    rw [heq]
    exact Or.inl ⟨a, rfl, hstep⟩
  | _ => exact Or.inr ⟨rfl, rfl⟩

end Host

/-! ## What is stored -/

theorem Stage.output_inj {stage stage' : Stage} (h : stage.output = stage'.output) :
    stage = stage' := by
  cases stage <;> cases stage' <;> first | rfl | cases h

theorem Execution.scanned_of_stores {e : Execution} {a : WorkerAction} {stage : Stage}
    {key : String} (h : e.stores a = some key) (hstage : a.stored = some stage) :
    e.scanned stage = true := by
  obtain ⟨_, -, h⟩ := Option.bind_eq_some_iff.mp h
  obtain ⟨_, hstoring, -⟩ := Option.map_eq_some_iff.mp h
  cases a with
  | storeDiscovery | storeConfirmation =>
    simp only [Execution.storingStage] at hstoring
    split at hstoring
    · next hpc =>
      cases hstage
      simp [Execution.scanned, hpc]
    · cases hstoring
  | _ => cases hstage

namespace Host

variable {settings : Settings} {backend : ArtifactBackend} {s s' : Host}

/-- The file an execution stores is there. -/
theorem stores_file {i : Nat} {e : Execution} {a : WorkerAction} {stage : Stage} {key : String}
    (h : s.step settings backend (.base (.worker i a)) = some s')
    (he : s.base.executions[i]? = some e) (hstores : e.stores a = some key)
    (hstage : a.stored = some stage) :
    ∃ p n, s.path i stage.output = some p ∧ s.disk.names.lookup p = some n := by
  have hholds : s.holds i stage.output = true := by
    have hscanned := Execution.scanned_of_stores hstores hstage
    cases step_spec h with
    | base hpermits hstep =>
      have hready := (Bool.and_eq_true_iff.mp hpermits).2
      rw [he, Option.any_some] at hready
      obtain ⟨_, -, hkey⟩ := Option.bind_eq_some_iff.mp hstores
      obtain ⟨_, hstoring, -⟩ := Option.map_eq_some_iff.mp hkey
      cases a with
      | storeDiscovery | storeConfirmation =>
        simp only [Execution.storingStage] at hstoring
        split at hstoring
        · next hpc =>
          cases hstage
          simp only [ready, hpc, Bool.and_eq_true] at hready
          first | exact hready | exact hready.2
        · cases hstoring
      | _ => cases hstage
  obtain ⟨p, hpath, hread⟩ := (Option.any_eq_true _ _).mp hholds
  obtain ⟨content, hcontent⟩ := Option.isSome_iff_exists.mp hread
  obtain ⟨n, hn, -⟩ := Option.map_eq_some_iff.mp hcontent
  exact ⟨p, n, hpath, hn⟩

/-- An execution stores what it has written itself, and closes the inode it renames. -/
theorem Apart.stores (hs : Apart s) (hr : s.Ran) {i n : Nat} {e : Execution} {a : WorkerAction}
    {stage : Stage} {key p : String}
    (h : s.step settings backend (.base (.worker i a)) = some s')
    (he : s.base.executions[i]? = some e) (hstores : e.stores a = some key)
    (hstage : a.stored = some stage) (hpath : s.path i stage.output = some p)
    (hname : s.disk.names.lookup p = some n) :
    (∀ chunk ∈ s.disk.content n, chunk.1 = (i, stage.output)) ∧
      s'.disk.content n = s.disk.content n ∧ (backend = .filesystem → s'.Closed n) := by
  have hactive : i ∈ s.entered ∧ s.ended i = false := by
    cases a with
    | storeDiscovery => exact hs.storesDiscovery h
    | storeConfirmation => exact hs.storesConfirmation h
    | _ => cases hstage
  have hread : s.disk.read p = some (s.disk.content n) := by
    rw [Disk.read, hname, Option.map_some]
  refine ⟨hs.read hactive.1 hactive.2 hpath hread, ?_, ?_⟩
  · cases step_spec h with
    | @base a base _ _ =>
      obtain ⟨_, disk, heq, -, hdisk⟩ := after_cases backend s base (.worker i a)
      rw [heq]
      rcases hdisk with rfl | ⟨_, rfl⟩ <;> rfl
  rintro rfl
  have hmem : (p, n) ∈ s.disk.names := Disk.mem_names_of_lookup hname
  have hcreator : s.disk.creator n = some (i, stage.output) :=
    hs.creator hactive.1 hactive.2 hpath hmem
  have hsole : ∀ q, (q, n) ∈ s.disk.names → q = p := by
    intro q hq
    obtain ⟨use, huse, -, hpath'⟩ := hs.disk.names q n hq
    rw [hcreator] at huse
    cases huse
    exact Option.some.inj (hpath'.symm.trans hpath)
  obtain ⟨inode, hinode, -⟩ := Option.map_eq_some_iff.mp hcreator
  have hdetached : (s.disk.remove p).Detached n :=
    Disk.detached_of_remove (List.getElem?_eq_some_iff.mp hinode).1 hsole
  have hdead : ∀ q ∈ s.scanners, q.file = some n → q.alive = false := by
    intro q hq hfile
    have hmine := hs.files q hq n hfile
    rw [hcreator] at hmine
    obtain ⟨rfl, houtput⟩ := Prod.mk.inj (Option.some.inj hmine)
    have hran := hr q.execution e stage he (Execution.scanned_of_stores hstores hstage)
    exact (ran_iff.mp hran).2 q hq rfl (Stage.output_inj houtput).symm
  have hdisk : s.stored .filesystem i stage.output = s.disk.remove p := by
    simp only [stored, hpath]
  rw [← hdisk] at hdetached
  cases step_spec h with
  | base hpermits hstep =>
    cases a with
    | storeDiscovery | storeConfirmation =>
      cases hstage
      exact ⟨hdetached, hdead⟩
    | _ => cases hstage

end Host

namespace Archive

variable {settings : Settings} {backend : ArtifactBackend} {renames : Bool} {s s' : Archive}
  {a : ArchiveAction}

theorem step_host (h : s.step settings backend renames a = some s') :
    s.host.step settings backend a.onHost = some s'.host ∧
      s'.objects = (s.adds backend renames a).toList ++ s.objects := by
  simp only [step] at h
  obtain ⟨host, hhost, h⟩ := Option.bind_eq_some_iff.mp h
  cases h
  exact ⟨hhost, rfl⟩

/-- A step adds an object under the key it writes. -/
theorem adds_cases {key : String} {artifact : Artifact}
    (h : s.adds backend renames a = some (key, artifact)) :
    ∃ i b e, a.onHost = .base (.worker i b) ∧ s.host.base.executions[i]? = some e ∧
      e.stores b = some key ∧
      ((b.stored = none ∧ ∃ content, artifact = .bytes content) ∨
        ∃ stage p n, b.stored = some stage ∧ s.host.path i stage.output = some p ∧
          s.host.disk.names.lookup p = some n ∧
          artifact = if backend = .filesystem && renames then .file n
            else .bytes (s.host.disk.content n)) := by
  unfold adds at h
  split at h
  · next i b =>
    obtain ⟨e, he, h⟩ := Option.bind_eq_some_iff.mp h
    obtain ⟨key', hkey, h⟩ := Option.bind_eq_some_iff.mp h
    obtain ⟨stage, hstage, h⟩ := Option.bind_eq_some_iff.mp h
    obtain ⟨artifact', hput, h⟩ := Option.bind_eq_some_iff.mp h
    cases h
    obtain ⟨p, hp, hput⟩ := Option.bind_eq_some_iff.mp hput
    obtain ⟨n, hn, hput⟩ := Option.bind_eq_some_iff.mp hput
    cases hput
    exact ⟨i, b, e, rfl, he, hkey, Or.inr ⟨stage, p, n, hstage, hp, hn, rfl⟩⟩
  · next i error left =>
    obtain ⟨e, he, h⟩ := Option.bind_eq_some_iff.mp h
    obtain ⟨key', hkey, h⟩ := Option.bind_eq_some_iff.mp h
    cases h
    exact ⟨i, .fail error, e, rfl, he, hkey, Or.inl ⟨rfl, left, rfl⟩⟩
  · cases h

/-- A step that adds an object writes its key. -/
theorem adds_writer {key : String} {artifact : Artifact}
    (h : s.step settings backend renames a = some s')
    (hadds : s.adds backend renames a = some (key, artifact)) :
    ∃ i b, s.host.base.step settings (.worker i b) = some s'.host.base ∧
      writer key ⟨s.host.base, .worker i b, s'.host.base⟩ = some i := by
  obtain ⟨i, b, e, hact, he, hstores, -⟩ := adds_cases hadds
  obtain ⟨hhost, -⟩ := step_host h
  rw [hact] at hhost
  rcases Host.step_base hhost with ⟨_, hsystem, hstep⟩ | ⟨hnone, -⟩
  · cases hsystem
    refine ⟨i, b, hstep, ?_⟩
    rw [writer]
    dsimp only
    rw [he, Option.bind_some, if_pos hstores]
  · cases hnone

/-! ## The invariant -/

structure Kept (s : Archive) : Prop where
  copies : Copies s.host.base
  fenced : Fenced s.host.base
  plain : s.host.base.Plain
  apart : s.host.Apart
  ran : s.host.Ran
  objects : ∀ x ∈ s.objects, s.host.base.Stored x.1 ∧ ∀ n, x.2 = .file n → s.host.Closed n
  held : ∀ (i : Nat) e stage key, s.host.base.executions[i]? = some e →
    e.keyOf stage = some key → s.Holds key (i, stage.output)

/-- No step adds an object under a key there is one of. -/
theorem Kept.fresh (hk : Kept s) (h : s.step settings backend renames a = some s') {key : String}
    {artifact artifact' : Artifact} (hadds : s.adds backend renames a = some (key, artifact)) :
    (key, artifact') ∉ s.objects := by
  intro hmem
  obtain ⟨i, b, hstep, hwriter⟩ := adds_writer h hadds
  exact not_stored_of_writer hk.fenced hk.plain hstep hwriter (hk.objects _ hmem).1

/-- Every object stays what it is. -/
theorem Kept.object (hk : Kept s) (h : s.step settings backend renames a = some s') {key : String}
    {content : List (Use × String)} (hobject : s.object key = some content) :
    s'.object key = some content := by
  obtain ⟨artifact, hlookup, hcontent⟩ := Option.map_eq_some_iff.mp hobject
  have hmem : (key, artifact) ∈ s.objects := mem_of_lookup_eq_some hlookup
  obtain ⟨hhost, hobjects⟩ := step_host h
  have hlookup' : s'.objects.lookup key = some artifact := by
    rw [hobjects]
    cases hadds : s.adds backend renames a with
    | none => exact hlookup
    | some added =>
      obtain ⟨key', artifact'⟩ := added
      have hne : key ≠ key' := by
        rintro rfl
        exact hk.fresh h hadds hmem
      rw [Option.toList_some, List.singleton_append, List.lookup_cons,
        beq_false_of_ne hne]
      exact hlookup
  rw [Archive.object, hlookup', Option.map_some, ← hcontent]
  cases artifact with
  | bytes _ => rfl
  | file n => exact congrArg some (((hk.objects _ hmem).2 n rfl).step hhost).2

theorem Kept.holds (hk : Kept s) (h : s.step settings backend renames a = some s') {key : String}
    {use : Use} (hholds : s.Holds key use) : s'.Holds key use := by
  obtain ⟨content, hobject, hown⟩ := hholds
  exact ⟨content, hk.object h hobject, hown⟩

/-- What a step stores is the execution's own work. -/
theorem Kept.stores (hk : Kept s) (h : s.step settings backend renames a = some s') {i : Nat}
    {b : WorkerAction} {e : Execution} {stage : Stage} {key : String}
    (hact : a.onHost = .base (.worker i b)) (he : s.host.base.executions[i]? = some e)
    (hstores : e.stores b = some key) (hstage : b.stored = some stage) :
    s'.Holds key (i, stage.output) := by
  obtain ⟨hhost, hobjects⟩ := step_host h
  rw [hact] at hhost
  obtain ⟨p, n, hpath, hname⟩ := Host.stores_file hhost he hstores hstage
  obtain ⟨hown, hsame, -⟩ := hk.apart.stores hk.ran hhost he hstores hstage hpath hname
  have hadds : s.adds backend renames a = some (key, if backend = .filesystem && renames then
      .file n else .bytes (s.host.disk.content n)) := by
    cases a with
    | host a =>
      cases hact
      simp only [adds, he, Option.bind_eq_bind, Option.bind_some, hstores, hstage, put, hpath,
        hname]
      rfl
    | raise i error left =>
      cases hact
      cases hstage
  refine ⟨s.host.disk.content n, ?_, hown⟩
  rw [Archive.object, hobjects, hadds, Option.toList_some, List.singleton_append,
    List.lookup_cons_self, Option.map_some]
  split
  · exact congrArg some hsame
  · rfl

/-- What holds of the system is kept by a step of the archive, if the system's step
in it keeps it. -/
theorem base_kept {P : State → Prop} (h : s.step settings backend renames a = some s')
    (hP : P s.host.base)
    (hkept : ∀ b, a.onHost.system = some b → s.host.base.step settings b = some s'.host.base →
      P s'.host.base) :
    P s'.host.base := by
  rcases Host.step_base (step_host h).1 with ⟨b, hsystem, hstep⟩ | ⟨-, hsame⟩
  · exact hkept b hsystem hstep
  · rw [hsame]
    exact hP

theorem Kept.closed (hk : Kept s) (h : s.step settings backend renames a = some s') :
    ∀ x ∈ s'.objects, s'.host.base.Stored x.1 ∧ ∀ n, x.2 = .file n → s'.host.Closed n := by
  obtain ⟨hhost, hobjects⟩ := step_host h
  intro x hx
  rw [hobjects] at hx
  rcases List.mem_append.mp hx with hnew | hold
  · obtain ⟨key, artifact⟩ := x
    have hadds : s.adds backend renames a = some (key, artifact) := Option.mem_toList.mp hnew
    obtain ⟨i, b, hstep, hwriter⟩ := adds_writer h hadds
    refine ⟨stored_of_writer hstep hwriter, ?_⟩
    rintro n rfl
    obtain ⟨i, b, e, hact, he, hstores, ⟨-, content, hbytes⟩ |
      ⟨stage, p, m, hstage, hpath, hname, hfile⟩⟩ := adds_cases hadds
    · cases hbytes
    · rw [hact] at hhost
      split at hfile
      · next hcond =>
        cases hfile
        have hfilesystem := of_decide_eq_true (Bool.and_eq_true_iff.mp hcond).1
        exact (hk.apart.stores hk.ran hhost he hstores hstage hpath hname).2.2 hfilesystem
      · cases hfile
  · obtain ⟨hkey, hclosed⟩ := hk.objects x hold
    have hstored := base_kept h (P := fun b => b.Stored x.1) hkey fun _ _ hstep =>
      stored_step hstep hkey
    exact ⟨hstored, fun n hn => ((hclosed n hn).step hhost).1⟩

theorem Kept.holding (hk : Kept s) (h : s.step settings backend renames a = some s') {i : Nat}
    {e' : Execution} {stage : Stage} {key : String} (he' : s'.host.base.executions[i]? = some e')
    (hkey : e'.keyOf stage = some key) : s'.Holds key (i, stage.output) := by
  rcases Host.step_base (step_host h).1 with ⟨b, hsystem, hstep⟩ | ⟨-, hsame⟩
  · rcases execution_cases hstep he' with
      ⟨he, -⟩ | ⟨e, b, he, rfl, hestep⟩ | ⟨_, _, -, -, -, hfresh⟩
    · exact hk.holds h (hk.held i e' stage key he hkey)
    · rcases Execution.step_keyOf hestep hkey with hold | ⟨hstores, hstage⟩
      · exact hk.holds h (hk.held i e stage key he hold)
      · have hact : a.onHost = .base (.worker i b) := by
          cases hon : a.onHost with
          | base _ =>
            rw [hon] at hsystem
            cases hsystem
            rfl
          | _ =>
            rw [hon] at hsystem
            cases hsystem
        exact hk.stores h hact he hstores hstage
    · rw [hfresh] at hkey
      cases stage <;> cases hkey
  · rw [hsame] at he'
    exact hk.holds h (hk.held i e' stage key he' hkey)

theorem Kept.step (hk : Kept s) (h : s.step settings backend renames a = some s')
    (hplain : s.drawsPlain a = true) (halone : s.alone a = true) : Kept s' where
  copies := base_kept h hk.copies fun _ _ hstep => copies_step hk.copies hstep
  fenced := base_kept h hk.fenced fun _ _ hstep => fenced_step hk.copies hk.fenced hstep
  plain := by
    refine base_kept h hk.plain fun b hsystem hstep => ?_
    rw [drawsPlain, hsystem, Option.all_some] at hplain
    exact plain_step hk.plain hplain hstep
  apart := Host.apart_step hk.apart (step_host h).1 halone
  ran := hk.ran.step (step_host h).1
  objects := hk.closed h
  held := fun _ _ _ _ he hkey => hk.holding h he hkey

theorem kept_initial (scopes : Table InventoryScope) (profiles : Table ScanProfile) :
    Kept (Archive.initial scopes profiles) where
  copies := copies_start _
  fenced := fenced_start fun _ hr => absurd hr List.not_mem_nil
  plain := fun _ ht => absurd ht List.not_mem_nil
  apart := Host.apart_initial scopes profiles
  ran := fun _ _ _ he => by cases he
  objects := fun _ hx => absurd hx List.not_mem_nil
  held := fun _ _ _ _ he => by cases he

/-! ## Runs -/

section
variable {scopes : Table InventoryScope} {profiles : Table ScanProfile}
  {tr : List (Transition Archive ArchiveAction)} {t : Archive}

/-- The system's own steps of a run of the host. -/
theorem systemSteps_run
    (h : Path (Archive.step settings backend renames) (Archive.initial scopes profiles) tr t) :
    Run settings (State.initial scopes profiles) (tr.flatMap systemSteps) t.host.base := by
  induction h with
  | nil => exact .nil
  | @snoc s u tr a hp hs ih =>
    rw [List.flatMap_append, List.flatMap_singleton, systemSteps]
    rcases Host.step_base (step_host hs).1 with ⟨b, hsystem, hstep⟩ | ⟨hnone, hsame⟩
    · rw [hsystem]
      exact ih.snoc hstep
    · rw [hnone, Option.toList_none, List.map_nil, List.append_nil, hsame]
      exact ih

theorem systemSteps_plain (h : Along drawsPlain tr) :
    Along State.drawsPlain (tr.flatMap systemSteps) := by
  intro x hx
  obtain ⟨y, hy, hx⟩ := List.mem_flatMap.mp hx
  obtain ⟨b, hb, rfl⟩ := List.mem_map.mp hx
  have hplain := h y hy
  rw [drawsPlain, Option.mem_toList.mp hb, Option.all_some] at hplain
  exact hplain

end

end Archive

/-- In a run where no execution starts its scan beside another of its shard or
finds files of one, artifacts are written once. -/
theorem artifacts_write_once (settings : Settings) (backend : ArtifactBackend) (renames : Bool)
    (scopes : Table InventoryScope) (profiles : Table ScanProfile)
    (tr : List (Transition Archive ArchiveAction)) (t : Archive)
    (h : Path (Archive.step settings backend renames) (Archive.initial scopes profiles) tr t)
    (hplain : Along Archive.drawsPlain tr) (halone : Along Archive.alone tr) :
    ArtifactsOnce tr t := by
  have hcond : Along (fun s a => s.drawsPlain a && s.alone a) tr := fun x hx =>
    Bool.and_eq_true_iff.mpr ⟨hplain x hx, halone x hx⟩
  have hstep : ∀ s a s', Archive.Kept s → (s.drawsPlain a && s.alone a) = true →
      s.step settings backend renames a = some s' → Archive.Kept s' := by
    intro s a s' hk hc hs
    obtain ⟨hp, ha⟩ := Bool.and_eq_true_iff.mp hc
    exact hk.step hs hp ha
  have hkeys := keys_write_once settings scopes profiles _ _ (Archive.systemSteps_run h)
    (Archive.systemSteps_plain hplain)
  have hend : t.Kept := h.invariant (Archive.kept_initial scopes profiles) hstep hcond
  refine ⟨hkeys, fun k r hr hcompleted => ?_, fun x hx key content hobject => ?_⟩
  · obtain ⟨i, e, he, hid, htoken, hpc, hartifact, hdiscovery, -⟩ :=
      hkeys.completed k r hr hcompleted
    refine ⟨i, e, he, hid, htoken, hpc, fun key hkey => ?_, fun key hkey => ?_⟩
    · exact hend.held i e .nmap key he (hartifact.symm.trans hkey)
    · exact hend.held i e .masscan key he (hdiscovery.symm.trans hkey)
  · have hpre := (h.invariant_at (Archive.kept_initial scopes profiles) hstep hcond hx).1
    exact hpre.object (h.step_of_mem hx) hobject

namespace Demo

/-- An execution whose scanner has ended goes on to where it stores the scanner's file. -/
def parses (i : Nat) : List HostAction :=
  [.base (.worker i .exit), .base (.worker i .recheck), .parse i]

def leaves (i : Nat) (now : DateTime) : List HostAction :=
  [.base (.worker i (.finish now)), .remove i .discovery, .remove i .confirmation,
    .remove i .targets, .base (.worker i (.commitFinish now))]

/-- The execution stores the file and completes its shard. -/
def completes (i : Nat) (now : DateTime) : List HostAction :=
  [.base (.worker i .storeConfirmation), .base (.worker i .confirm)] ++ leaves i now

/-- The second of two scanners has ended, and the first writes on. -/
def overwriting : List HostAction :=
  twoScanners ++ [.parse 1] ++ completes 1 (seconds 4000) ++ [.write 0 "late"]

def firstScan : List HostAction :=
  running.map .base ++ [.spawn 0, .create 0, .write 0 "first", .quit 0] ++ parses 0

def secondScan : List HostAction :=
  leaves 0 0 ++ (dispatch 1 "t2" "e2" (seconds 60) ++ publish 1 (seconds 60) ++
    begin 1 "s1" "t2" (seconds 60)).map .base ++
  [.spawn 1, .create 1, .write 1 "second", .quit 1] ++ parses 1 ++ completes 1 (seconds 60)

/-- The upload of the first attempt fails half way, and the scan is tried again. -/
def storedAgain : List ArchiveAction :=
  firstScan.map .host ++
    [.raise 0 "ClientError: SlowDown" [((0, .confirmation), "fi")]] ++ secondScan.map .host

end Demo

-- what the two runs end with is compared as a whole
set_option synthInstance.maxSize 512

/-- A superseded scanner has the scratch file of its shard open, and writes on into
the artifact of the completed shard. -/
theorem superseded_scanner_overwrites :
    ¬ ∀ (settings : Settings) (backend : ArtifactBackend) (renames : Bool)
      (scopes : Table InventoryScope) (profiles : Table ScanProfile)
      (tr : List (Transition Archive ArchiveAction)) (t : Archive),
      Path (Archive.step settings backend renames) (Archive.initial scopes profiles) tr t →
        Along Archive.drawsPlain tr → ArtifactsOnce tr t := by
  intro hall
  have hrun : (runWhile (Archive.step {} .filesystem true) Archive.drawsPlain
      (Archive.initial Demo.scopes Demo.profiles)
      (Demo.overwriting.map .host)).map (fun t =>
      ((t.host.base.db.shards.get "s1").map fun r => (r.status, r.artifactKey),
        t.object "runs/run/shards/s1/attempts/t2/nmap.xml")) =
      some (some (.completed, some "runs/run/shards/s1/attempts/t2/nmap.xml"),
        some [((1, .confirmation), "second"), ((0, .confirmation), "first"),
          ((0, .confirmation), "late")]) := by
    decide +kernel
  obtain ⟨tr, t, hp, hplain, hobs⟩ := Path.of_runWhile_map hrun
  obtain ⟨hrow, hobject⟩ := Prod.mk.inj hobs
  obtain ⟨r, hr, hcols⟩ := Option.map_eq_some_iff.mp hrow
  obtain ⟨hstatus, hkey⟩ := Prod.mk.inj hcols
  obtain ⟨i, e, -, -, -, -, hartifact, -⟩ :=
    (hall _ _ _ _ _ tr t hp hplain).completed "s1" r hr hstatus
  obtain ⟨content, hcontent, hown⟩ := hartifact _ hkey
  rw [hobject] at hcontent
  cases hcontent
  have hfirst := hown ((0, .confirmation), "first") (by simp)
  have hsecond := hown ((1, .confirmation), "second") (by simp)
  exact absurd (hfirst.trans hsecond.symm) (by decide)

/-- The retry stores what its own scanner wrote, beside what the first attempt left. -/
theorem artifacts_write_once_retried :
    ∃ tr t, Path (Archive.step {} .s3 false) (Archive.initial Demo.scopes Demo.profiles) tr t ∧
      ArtifactsOnce tr t ∧
      (t.host.base.db.shards.get "s1").map (fun r => (r.status, r.artifactKey)) =
        some (.completed, some "runs/run/shards/s1/attempts/t2/nmap.xml") ∧
      t.object "runs/run/shards/s1/attempts/t1/nmap.xml" = some [((0, .confirmation), "fi")] ∧
      t.object "runs/run/shards/s1/attempts/t2/nmap.xml" =
        some [((1, .confirmation), "second")] := by
  have hrun : (runWhile (Archive.step {} .s3 false) (fun s a => s.drawsPlain a && s.alone a)
      (Archive.initial Demo.scopes Demo.profiles) Demo.storedAgain).map (fun t =>
      ((t.host.base.db.shards.get "s1").map (fun r => (r.status, r.artifactKey)),
        t.object "runs/run/shards/s1/attempts/t1/nmap.xml",
        t.object "runs/run/shards/s1/attempts/t2/nmap.xml")) =
      some (some (.completed, some "runs/run/shards/s1/attempts/t2/nmap.xml"),
        some [((0, .confirmation), "fi")], some [((1, .confirmation), "second")]) := by
    decide +kernel
  obtain ⟨tr, t, hp, hcond, hobs⟩ := Path.of_runWhile_map hrun
  have honce := artifacts_write_once {} .s3 false _ _ tr t hp
    (fun x hx => (Bool.and_eq_true_iff.mp (hcond x hx)).1)
    fun x hx => (Bool.and_eq_true_iff.mp (hcond x hx)).2
  obtain ⟨hrow, hobs⟩ := Prod.mk.inj hobs
  obtain ⟨hfirst, hsecond⟩ := Prod.mk.inj hobs
  exact ⟨tr, t, hp, honce, hrow, hfirst, hsecond⟩

end TransportLookout
