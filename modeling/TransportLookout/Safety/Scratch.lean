/-
The scratch files of an execution.

Two executions of one shard name the same three files, and the one that is
superseded learns of it only at its next heartbeat.  While no execution starts
its scan before every other of its shard has left its files, ended its scanners
and left no file behind, each file a path names is the work of the one execution
that still uses it.
-/
import TransportLookout.System.Host
import TransportLookout.Library.Path

namespace TransportLookout

open Relational Trace Files

/-! ## Paths -/

theorem toList_scratchPath (shardId : Uuid) (file : Scratch) :
    (scratchPath shardId file).toList =
      file.stem.toList ++ (shardId.toList ++ file.suffix.toList) := by
  simp [scratchPath]

/-- The three stems differ in their fourteenth character. -/
theorem Scratch.stem_inj {file file' : Scratch}
    (h : file.stem.toList[13]? = file'.stem.toList[13]?) : file = file' := by
  revert h
  cases file <;> cases file' <;> decide +kernel

theorem scratchPath_inj {shardId shardId' : Uuid} {file file' : Scratch}
    (h : scratchPath shardId file = scratchPath shardId' file') :
    shardId = shardId' ∧ file = file' := by
  have hlist := congrArg String.toList h
  rw [toList_scratchPath, toList_scratchPath] at hlist
  have hlong : ∀ file : Scratch, 13 < file.stem.toList.length := by
    intro file
    cases file <;> decide +kernel
  have hstem : file = file' := by
    apply Scratch.stem_inj
    have hhead := congrArg (fun l => l[13]?) hlist
    rwa [List.getElem?_append_left (hlong file), List.getElem?_append_left (hlong file')] at hhead
  subst hstem
  have hid := List.append_left_injective _ (List.append_right_injective _ hlist)
  exact ⟨String.toList_inj.mp hid, rfl⟩

namespace Host

/-! ## Private files -/

/-- The execution has not left its files, or a scanner of it is alive. -/
def uses (s : Host) (i : Nat) (p : String) : Prop :=
  i ∈ s.entered ∧ s.ended i = false ∧ ∃ file, s.path i file = some p

/-- The files a step parses or stores, with the execution that does. -/
def reads (s : Host) : HostAction → List Use
  | .parse i =>
    match (s.base.executions[i]?).map Execution.pc with
    | some (.recording stage) => [(i, stage.output)]
    | _ => []
  | .base (.worker i .storeDiscovery) => [(i, .discovery)]
  | .base (.worker i .storeConfirmation) => [(i, .confirmation)]
  | _ => []

/-- The paths at which a step deletes, moves or overwrites, with the execution
that does or whose scanner does. -/
def touches (backend : ArtifactBackend) (s : Host) : HostAction → List (Nat × String)
  | .create n => (s.scanners[n]?).toList.flatMap fun p =>
      (s.path p.execution p.stage.output).toList.map fun path => (p.execution, path)
  | .write n _ => (s.scanners[n]?).toList.flatMap fun p => p.file.toList.flatMap fun m =>
      (s.disk.paths m).map fun path => (p.execution, path)
  | .writeTargets i _ => (s.path i .targets).toList.map fun path => (i, path)
  | .remove i file => (s.path i file).toList.map fun path => (i, path)
  | .base (.worker i .storeDiscovery) =>
    if backend = .filesystem then (s.path i .discovery).toList.map fun path => (i, path) else []
  | .base (.worker i .storeConfirmation) =>
    if backend = .filesystem then (s.path i .confirmation).toList.map fun path => (i, path) else []
  | _ => []

/-- What is parsed or stored is the execution's own, and no one touches a file
another still uses. -/
structure Private (backend : ArtifactBackend) (x : Transition Host HostAction) : Prop where
  own : ∀ use ∈ x.pre.reads x.act, ∀ p content, x.pre.path use.1 use.2 = some p →
    x.pre.disk.read p = some content → ∀ chunk ∈ content, chunk.1 = use
  apart : ∀ touch ∈ x.pre.touches backend x.act, ∀ j, j ≠ touch.1 → ¬ x.pre.uses j touch.2

/-- Where an execution starts its scan, every other of its shard is over and none
of their files is left. -/
def alone (s : Host) : HostAction → Bool
  | .base (.worker i (.start _)) =>
    (s.entered.all fun j => s.shard j ≠ s.shard i || s.ended j) &&
      !s.holds i .discovery && !s.holds i .confirmation && !s.holds i .targets
  | _ => true

/-! ## The execution a shard's files belong to -/

/-- No other execution of its shard uses a file. -/
def Owner (s : Host) (c : Nat) : Prop :=
  c ∈ s.entered ∧ ∀ i ∈ s.entered, s.ended i = false → s.shard i = s.shard c → i = c

def may (s : Host) (p : String) (use : Use) : Prop :=
  s.Owner use.1 ∧ s.path use.1 use.2 = some p

structure Apart (s : Host) : Prop where
  exists_execution : ∀ i ∈ s.entered, ∃ e, s.base.executions[i]? = some e
  started : ∀ i e, s.base.executions[i]? = some e → e.pc.started = true → i ∈ s.entered
  left : ∀ use ∈ s.removed, use.1 ∈ s.crashed ∨
    ∃ e, s.base.executions[use.1]? = some e ∧ e.pc.past = true
  scanner : ∀ p ∈ s.scanners, p.execution ∈ s.entered
  alone : ∀ i ∈ s.entered, s.ended i = false → s.Owner i
  disk : s.disk.Sound s.may
  files : ∀ p ∈ s.scanners, ∀ m ∈ p.file, s.disk.creator m = some (p.execution, p.stage.output)

variable {settings : Settings} {backend : ArtifactBackend} {s s' : Host}

theorem ended_iff {i : Nat} : s.ended i = true ↔
    s.tidied i = true ∧ ∀ p ∈ s.scanners, p.execution = i → p.alive = false := by
  rw [ended, Bool.and_eq_true, List.all_eq_true]
  refine and_congr_right fun _ => forall₂_congr fun p _ => ?_
  by_cases h : p.execution = i <;> simp [h]

theorem tidied_removed {i : Nat} {file : Scratch} (h : s.tidied i = true) :
    (i, file) ∈ s.removed := by
  rw [tidied, Bool.and_eq_true, Bool.and_eq_true, decide_eq_true_eq, decide_eq_true_eq,
    decide_eq_true_eq] at h
  cases file with
  | discovery => exact h.1.1
  | confirmation => exact h.1.2
  | targets => exact h.2

theorem ended_false_of_alive {p : Scanner} (hp : p ∈ s.scanners) (halive : p.alive = true) :
    s.ended p.execution = false := by
  rw [Bool.eq_false_iff]
  intro hover
  rw [(ended_iff.mp hover).2 p hp rfl] at halive
  cases halive

theorem ended_false_of_removed {i : Nat} {file : Scratch} (h : (i, file) ∉ s.removed) :
    s.ended i = false := by
  rw [Bool.eq_false_iff]
  exact fun hover => h (tidied_removed (ended_iff.mp hover).1)

/-- An execution that has not left the `try` statement uses its files. -/
theorem Apart.ended_false (hs : Apart s) {i : Nat} {e : Execution}
    (he : s.base.executions[i]? = some e) (hpast : e.pc.past = false) (hcrashed : i ∉ s.crashed) :
    s.ended i = false := by
  have hdiscovery : (i, Scratch.discovery) ∉ s.removed → s.ended i = false := ended_false_of_removed
  refine hdiscovery fun hmem => ?_
  rcases hs.left _ hmem with hin | ⟨e', he', hpast'⟩
  · exact hcrashed hin
  · rw [he] at he'
    cases he'
    rw [hpast] at hpast'
    cases hpast'

theorem path_eq {i j : Nat} {file file' : Scratch} {p : String} (h : s.path i file = some p)
    (h' : s.path j file' = some p) : s.shard i = s.shard j ∧ file = file' := by
  obtain ⟨a, ha, rfl⟩ := Option.map_eq_some_iff.mp h
  obtain ⟨b, hb, heq⟩ := Option.map_eq_some_iff.mp h'
  obtain ⟨rfl, rfl⟩ := scratchPath_inj heq
  exact ⟨ha.trans hb.symm, rfl⟩

/-- A path of an execution that uses it names files of that execution. -/
theorem Apart.creator (hs : Apart s) {i m : Nat} {file : Scratch} {p : String}
    (hi : i ∈ s.entered) (hover : s.ended i = false) (hpath : s.path i file = some p)
    (hname : (p, m) ∈ s.disk.names) : s.disk.creator m = some (i, file) := by
  obtain ⟨⟨c, file'⟩, hcreator, howner, hpath'⟩ := hs.disk.names p m hname
  obtain ⟨hshard, rfl⟩ := path_eq hpath hpath'
  rw [howner.2 i hi hover hshard, hcreator]

/-- No other execution uses a path of one that does. -/
theorem Apart.not_uses (hs : Apart s) {i j : Nat} {file : Scratch} {p : String}
    (hi : i ∈ s.entered) (hover : s.ended i = false) (hpath : s.path i file = some p)
    (hne : j ≠ i) : ¬ s.uses j p := by
  rintro ⟨hj, hover', file', hpath'⟩
  exact hne ((hs.alone i hi hover).2 j hj hover' (path_eq hpath' hpath).1)

/-- What a path of such an execution reads is its own. -/
theorem Apart.read (hs : Apart s) {i : Nat} {file : Scratch} {p : String}
    {content : List (Use × String)} (hi : i ∈ s.entered) (hover : s.ended i = false)
    (hpath : s.path i file = some p) (hread : s.disk.read p = some content) :
    ∀ chunk ∈ content, chunk.1 = (i, file) := by
  obtain ⟨⟨c, file'⟩, ⟨howner, hpath'⟩, hall⟩ := hs.disk.read hread
  obtain ⟨hshard, rfl⟩ := path_eq hpath hpath'
  rw [howner.2 i hi hover hshard]
  exact hall

/-! ## Steps -/

theorem Owner.mono {c : Nat} (hentered : s'.entered = s.entered)
    (hshard : ∀ i ∈ s.entered, s'.shard i = s.shard i)
    (hover : ∀ i, s.ended i = true → s'.ended i = true) (h : s.Owner c) : s'.Owner c := by
  refine ⟨hentered ▸ h.1, fun i hi hno heq => ?_⟩
  rw [hentered] at hi
  rw [hshard i hi, hshard c h.1] at heq
  refine h.2 i hi ?_ heq
  rw [Bool.eq_false_iff]
  intro hyes
  rw [hover i hyes] at hno
  cases hno

/-- A step on the files and scanners, with the executions as they were. -/
theorem Apart.frame (hs : Apart s) (hbase : s'.base = s.base) (hentered : s'.entered = s.entered)
    (hcrashed : ∀ i ∈ s.crashed, i ∈ s'.crashed)
    (hleft : ∀ use ∈ s'.removed, use ∈ s.removed ∨ use.1 ∈ s'.crashed ∨
      ∃ e, s.base.executions[use.1]? = some e ∧ e.pc.past = true)
    (hscanner : ∀ p ∈ s'.scanners, p.execution ∈ s.entered)
    (hover : ∀ i, s.ended i = true → s'.ended i = true)
    (hdisk : s'.disk.Sound s.may)
    (hfiles : ∀ p ∈ s'.scanners, ∀ m ∈ p.file,
      s'.disk.creator m = some (p.execution, p.stage.output)) : Apart s' := by
  have hshard : ∀ i ∈ s.entered, s'.shard i = s.shard i := by
    intro i _
    rw [shard, hbase, shard]
  have howner : ∀ {c}, s.Owner c → s'.Owner c := Owner.mono hentered hshard hover
  refine ⟨?_, ?_, ?_, ?_, ?_, ?_, hfiles⟩
  · rw [hbase, hentered]
    exact hs.exists_execution
  · rw [hbase, hentered]
    exact hs.started
  · intro use huse
    rw [hbase]
    rcases hleft use huse with hold | hnew
    · rcases hs.left use hold with hc | hpast
      · exact Or.inl (hcrashed _ hc)
      · exact Or.inr hpast
    · exact hnew
  · rw [hentered]
    exact hscanner
  · intro i hi hno
    rw [hentered] at hi
    refine howner (hs.alone i hi ?_)
    rw [Bool.eq_false_iff]
    intro hyes
    rw [hover i hyes] at hno
    cases hno
  · refine hdisk.mono ?_
    rintro p n ⟨c, file⟩ - ⟨hc, hpath⟩
    refine ⟨howner hc, ?_⟩
    rw [path, hshard c hc.1]
    exact hpath

theorem holds_false {i m : Nat} {file : Scratch} {p : String} (h : s.holds i file = false)
    (hpath : s.path i file = some p) : (p, m) ∉ s.disk.names := by
  intro hmem
  rw [holds, hpath, Option.any_some, Disk.read, Option.isSome_map] at h
  rw [Option.isSome_eq_false_iff, Option.isNone_iff_eq_none, List.lookup_eq_none_iff] at h
  exact absurd (h (p, m) hmem) (by simp)

theorem apart_base {a : Action} {base : State} (hs : Apart s)
    (hstep : s.base.step settings a = some base) (halone : s.alone (.base a) = true) :
    Apart (s.after backend base a) := by
  obtain ⟨entered, disk, heq, hentered, hdisk⟩ := after_cases backend s base a
  rw [heq]
  have hshard : ∀ i ∈ s.entered, (base.executions[i]?).map Execution.shardId = s.shard i := by
    intro i hi
    obtain ⟨e, he⟩ := hs.exists_execution i hi
    obtain ⟨e', he', hid, -⟩ := execution_kept hstep he
    rw [shard, he, he', Option.map_some, Option.map_some, hid]
  have hcreator : ∀ m, disk.creator m = s.disk.creator m := by
    intro m
    rcases hdisk with rfl | ⟨p, rfl⟩ <;> rfl
  have hnames : ∀ p m, (p, m) ∈ disk.names → (p, m) ∈ s.disk.names := by
    intro p m hmem
    rcases hdisk with rfl | ⟨q, rfl⟩
    · exact hmem
    · exact (Disk.mem_names_remove.mp hmem).1
  have hsound : disk.Sound s.may := by
    rcases hdisk with rfl | ⟨q, rfl⟩
    · exact hs.disk
    · exact hs.disk.remove
  -- an execution that starts its scan finds no file and no one who uses one
  have hnew : ∀ i ∈ entered, i ∉ s.entered →
      (∃ e, base.executions[i]? = some e) ∧
        (base.executions[i]?).map Execution.shardId = s.shard i ∧
        (∀ j ∈ s.entered, s.shard j = s.shard i → s.ended j = true) ∧
        ∀ file p m, s.path i file = some p → (p, m) ∉ s.disk.names := by
    intro i hi hold
    rcases hentered with rfl | ⟨j, now, rfl, rfl⟩
    · exact absurd hi hold
    · rcases List.mem_cons.mp hi with rfl | hi
      · obtain ⟨e, _, e', he, hestep, rfl⟩ := step_worker hstep
        obtain ⟨e'', he'', hid, -⟩ := execution_kept hstep he
        simp only [Host.alone, Bool.and_eq_true, List.all_eq_true, Bool.or_eq_true,
          Bool.not_eq_true', decide_eq_true_eq] at halone
        obtain ⟨⟨⟨hothers, hdiscovery⟩, hconfirmation⟩, htargets⟩ := halone
        refine ⟨⟨e'', he''⟩, ?_, ?_, ?_⟩
        · rw [he'', shard, he, Option.map_some, Option.map_some, hid]
        · intro j hj heq
          exact (hothers j hj).resolve_left fun hne => hne heq
        · intro file p m hpath
          cases file with
          | discovery => exact holds_false hdiscovery hpath
          | confirmation => exact holds_false hconfirmation hpath
          | targets => exact holds_false htargets hpath
      · exact absurd hi hold
  have hmem : ∀ i, i ∈ s.entered → i ∈ entered := by
    intro i hi
    rcases hentered with rfl | ⟨j, now, -, rfl⟩
    · exact hi
    · exact List.mem_cons_of_mem _ hi
  have hshard' : ∀ i ∈ entered, (base.executions[i]?).map Execution.shardId = s.shard i := by
    intro i hi
    by_cases hold : i ∈ s.entered
    · exact hshard i hold
    · exact (hnew i hi hold).2.1
  constructor
  · intro i hi
    by_cases hold : i ∈ s.entered
    · obtain ⟨e, he⟩ := hs.exists_execution i hold
      obtain ⟨e', he', -⟩ := execution_kept hstep he
      exact ⟨e', he'⟩
    · exact (hnew i hi hold).1
  · intro i e' he' hstarted
    rcases execution_cases hstep he' with
      ⟨he, -⟩ | ⟨e, b, he, rfl, hestep⟩ | ⟨_, _, -, -, -, hfresh⟩
    · exact hmem i (hs.started i e' he hstarted)
    · rcases (Execution.step_recording hestep).started hstarted with hold | ⟨now, rfl⟩
      · exact hmem i (hs.started i e he hold)
      · have hcons : entered = i :: s.entered := congrArg Host.entered heq.symm
        rw [hcons]
        exact List.mem_cons_self
    · rw [hfresh] at hstarted
      cases hstarted
  · intro use huse
    rcases hs.left use huse with hc | ⟨e, he, hpast⟩
    · exact Or.inl hc
    · obtain ⟨e', he', rfl | ⟨b, -, hestep⟩⟩ := execution_next hstep he
      · exact Or.inr ⟨_, he', hpast⟩
      · exact Or.inr ⟨e', he', Execution.past_kept hestep hpast⟩
  · exact fun p hp => hmem _ (hs.scanner p hp)
  · intro i hi hover
    refine ⟨hi, fun j hj hover' hsame => ?_⟩
    dsimp only [shard] at hsame
    rw [hshard' j hj, hshard' i hi] at hsame
    by_cases hold : i ∈ s.entered
    · by_cases hold' : j ∈ s.entered
      · exact (hs.alone i hold hover).2 j hold' hover' hsame
      · have hgone := (hnew j hj hold').2.2.1 i hold hsame.symm
        rw [show s.ended i = false from hover] at hgone
        cases hgone
    · by_cases hold' : j ∈ s.entered
      · have hgone := (hnew i hi hold).2.2.1 j hold' hsame
        rw [show s.ended j = false from hover'] at hgone
        cases hgone
      · rcases hentered with rfl | ⟨k, now, -, rfl⟩
        · exact absurd hi hold
        · rcases List.mem_cons.mp hi with rfl | hi
          · exact (List.mem_cons.mp hj).resolve_right hold'
          · exact absurd hi hold
  · refine hsound.mono ?_
    rintro p m ⟨c, file⟩ hname ⟨⟨hc, hsole⟩, hpath⟩
    have hc' : c ∈ entered := hmem c hc
    have hpath' : ((base.executions[c]?).map Execution.shardId).map
        (fun shardId => scratchPath shardId file) = some p := by
      rw [hshard' c hc']
      exact hpath
    refine ⟨⟨hc', fun j hj hover hsame => ?_⟩, hpath'⟩
    dsimp only [shard] at hsame
    rw [hshard' j hj, hshard' c hc'] at hsame
    by_cases hold : j ∈ s.entered
    · exact hsole j hold hover hsame
    · have hgone : s.path j file = some p := by
        rw [path, hsame]
        exact hpath
      exact absurd (hnames p m hname) ((hnew j hj hold).2.2.2 file p m hgone)
  · intro p hp m hm
    show disk.creator m = _
    rw [hcreator]
    exact hs.files p hp m hm

theorem mem_set_scanner {n : Nat} {p p' q : Scanner} (hp : s.scanners[n]? = some p)
    (hq : q ∈ s.scanners.set n p') : q ∈ s.scanners ∨ q = p' ∧ p ∈ s.scanners := by
  rcases List.mem_or_eq_of_mem_set hq with hold | rfl
  · exact Or.inl hold
  · exact Or.inr ⟨rfl, List.mem_of_getElem? hp⟩

/-- A scanner replaced by one that lives no longer than it. -/
theorem ended_set {n : Nat} {p p' : Scanner} {disk : Disk String Use String}
    (hp : s.scanners[n]? = some p) (hexecution : p'.execution = p.execution)
    (halive : p.alive = false → p'.alive = false) {i : Nat} (h : s.ended i = true) :
    { s with disk := disk, scanners := s.scanners.set n p' }.ended i = true := by
  obtain ⟨htidied, hdead⟩ := ended_iff.mp h
  refine ended_iff.mpr ⟨htidied, fun q hq hi => ?_⟩
  rcases mem_set_scanner hp hq with hold | ⟨rfl, hmem⟩
  · exact hdead q hold hi
  · exact halive (hdead p hmem (hexecution.symm.trans hi))

theorem apart_step {a : HostAction} (hs : Apart s) (h : s.step settings backend a = some s')
    (halone : s.alone a = true) : Apart s' := by
  have hleft : ∀ {crashed : List Nat}, ∀ use ∈ s.removed, use ∈ s.removed ∨ use.1 ∈ crashed ∨
      ∃ e, s.base.executions[use.1]? = some e ∧ e.pc.past = true := fun _ huse => Or.inl huse
  cases step_spec h with
  | base hpermits hstep => exact apart_base hs hstep halone
  | @spawn i e stage he hpc hcrashed _ =>
    have hi : i ∈ s.entered := hs.started i e he (by rw [hpc]; rfl)
    have hnot : s.ended i = false := hs.ended_false he (by rw [hpc]; rfl) hcrashed
    refine hs.frame rfl rfl (fun _ hc => hc) hleft ?_ ?_ hs.disk ?_
    · intro p hp
      rcases List.mem_append.mp hp with hold | hnew
      · exact hs.scanner p hold
      · cases List.mem_singleton.mp hnew
        exact hi
    · intro j hover
      obtain ⟨htidied, hdead⟩ := ended_iff.mp hover
      refine ended_iff.mpr ⟨htidied, fun p hp hj => ?_⟩
      rcases List.mem_append.mp hp with hold | hnew
      · exact hdead p hold hj
      · cases List.mem_singleton.mp hnew
        cases hj
        rw [hnot] at hover
        cases hover
    · intro p hp m hm
      rcases List.mem_append.mp hp with hold | hnew
      · exact hs.files p hold m hm
      · cases List.mem_singleton.mp hnew
        cases hm
  | @create n p path opened hp hpath halive hopened =>
    have hmem : p ∈ s.scanners := List.mem_of_getElem? hp
    have hi := hs.scanner p hmem
    have hnot := ended_false_of_alive hmem halive
    have hmine : ∀ m, (path, m) ∈ s.disk.names →
        s.disk.creator m = some (p.execution, p.stage.output) :=
      fun m hname => hs.creator hi hnot hpath hname
    have hmay : s.may path (p.execution, p.stage.output) := ⟨hs.alone _ hi hnot, hpath⟩
    subst hopened
    refine hs.frame rfl rfl (fun _ hc => hc) hleft ?_ ?_ (hs.disk.create hmay) ?_
    · intro q hq
      rcases mem_set_scanner hp hq with hold | ⟨rfl, -⟩
      · exact hs.scanner q hold
      · exact hi
    · intro j hover
      refine ended_set hp ?_ ?_ hover
      · rfl
      · exact id
    · intro q hq m hm
      rcases mem_set_scanner hp hq with hold | ⟨rfl, -⟩
      · exact Disk.creator_create (hs.files q hold m hm)
      · cases hm
        exact Disk.creator_opened hmine
  | @write n p m data hp hfile halive =>
    have hmem : p ∈ s.scanners := List.mem_of_getElem? hp
    refine hs.frame rfl rfl (fun _ hc => hc) hleft hs.scanner (fun _ hover => hover)
      (hs.disk.write (hs.files p hmem m hfile)) ?_
    intro q hq m' hm'
    exact (Disk.creator_rewrite _ m').trans (hs.files q hq m' hm')
  | @quit n p hp =>
    have hmem : p ∈ s.scanners := List.mem_of_getElem? hp
    refine hs.frame rfl rfl (fun _ hc => hc) hleft ?_ ?_ hs.disk ?_
    · intro q hq
      rcases mem_set_scanner hp hq with hold | ⟨rfl, -⟩
      · exact hs.scanner q hold
      · exact hs.scanner p hmem
    · intro j hover
      refine ended_set hp ?_ ?_ hover
      · rfl
      · exact fun _ => rfl
    · intro q hq m hm
      rcases mem_set_scanner hp hq with hold | ⟨rfl, -⟩
      · exact hs.files q hold m hm
      · exact hs.files p hmem m hm
  | parse he hpc hcrashed =>
    exact hs.frame rfl rfl (fun _ hc => hc) hleft hs.scanner (fun _ hover => hover) hs.disk hs.files
  | @writeTargets i e data opened he hpc hcrashed hopened =>
    have hi : i ∈ s.entered := hs.started i e he (by rw [hpc]; rfl)
    have hnot : s.ended i = false := hs.ended_false he (by rw [hpc]; rfl) hcrashed
    have hpath : s.path i .targets = some (scratchPath e.shardId .targets) := by
      rw [path, shard, he]
      rfl
    have hmine : ∀ m, (scratchPath e.shardId .targets, m) ∈ s.disk.names →
        s.disk.creator m = some (i, .targets) := fun m hname => hs.creator hi hnot hpath hname
    have hmay : s.may (scratchPath e.shardId .targets) (i, .targets) :=
      ⟨hs.alone i hi hnot, hpath⟩
    subst hopened
    refine hs.frame rfl rfl (fun _ hc => hc) hleft hs.scanner (fun _ hover => hover) ?_ ?_
    · exact (hs.disk.create hmay).write (Disk.creator_opened hmine)
    · intro q hq m hm
      exact (Disk.creator_rewrite _ m).trans (Disk.creator_create (hs.files q hq m hm))
  | crash =>
    exact hs.frame rfl rfl (fun _ hc => List.mem_cons_of_mem _ hc) hleft hs.scanner
      (fun _ hover => hover) hs.disk hs.files
  | @remove i e file he hentered hpast hremoved =>
    refine hs.frame rfl rfl (fun _ hc => hc) ?_ hs.scanner ?_ hs.disk.remove hs.files
    · intro use huse
      rcases List.mem_cons.mp huse with rfl | hold
      · rcases hpast with hyes | hcrashed
        · exact Or.inr (Or.inr ⟨e, he, hyes⟩)
        · exact Or.inr (Or.inl hcrashed)
      · exact Or.inl hold
    · intro j hover
      obtain ⟨htidied, hdead⟩ := ended_iff.mp hover
      refine ended_iff.mpr ⟨?_, hdead⟩
      simp only [tidied, Bool.and_eq_true, decide_eq_true_eq] at htidied ⊢
      exact ⟨⟨List.mem_cons_of_mem _ htidied.1.1, List.mem_cons_of_mem _ htidied.1.2⟩,
        List.mem_cons_of_mem _ htidied.2⟩

/-! ## What an execution reads and touches -/

/-- An execution that takes a step inside the `try` statement uses its files. -/
theorem Apart.active (hs : Apart s) {i : Nat} {b : WorkerAction}
    (h : s.step settings backend (.base (.worker i b)) = some s')
    (hinside : ∀ e db' e', s.base.executions[i]? = some e →
      e.step s.base.db settings b = some (db', e') → e.pc.started = true ∧ e.pc.past = false) :
    i ∈ s.entered ∧ s.ended i = false := by
  cases step_spec h with
  | base hpermits hstep =>
    obtain ⟨e, db', e', he, hestep, -⟩ := step_worker hstep
    obtain ⟨hstarted, hpast⟩ := hinside e db' e' he hestep
    have hcrashed : i ∉ s.crashed := of_decide_eq_true (Bool.and_eq_true_iff.mp hpermits).1
    exact ⟨hs.started i e he hstarted, hs.ended_false he hpast hcrashed⟩

theorem Apart.storesDiscovery (hs : Apart s) {i : Nat}
    (h : s.step settings backend (.base (.worker i .storeDiscovery)) = some s') :
    i ∈ s.entered ∧ s.ended i = false := by
  refine hs.active h fun e db' e' _ hestep => ?_
  simp only [Execution.step] at hestep
  split at hestep
  · next hpc _ =>
    rw [hpc]
    exact ⟨rfl, rfl⟩
  · cases hestep

theorem Apart.storesConfirmation (hs : Apart s) {i : Nat}
    (h : s.step settings backend (.base (.worker i .storeConfirmation)) = some s') :
    i ∈ s.entered ∧ s.ended i = false := by
  refine hs.active h fun e db' e' _ hestep => ?_
  simp only [Execution.step] at hestep
  split at hestep
  · next hpc _ =>
    rw [hpc]
    exact ⟨rfl, rfl⟩
  · cases hestep

theorem Apart.reads_used (hs : Apart s) {a : HostAction}
    (h : s.step settings backend a = some s') {use : Use} (huse : use ∈ s.reads a) :
    use.1 ∈ s.entered ∧ s.ended use.1 = false := by
  unfold reads at huse
  split at huse
  · next i =>
    cases step_spec h with
    | parse he hpc hcrashed =>
      rw [he, Option.map_some, hpc] at huse
      cases List.mem_singleton.mp huse
      exact ⟨hs.started _ _ he (by rw [hpc]; rfl), hs.ended_false he (by rw [hpc]; rfl) hcrashed⟩
  · cases List.mem_singleton.mp huse
    exact hs.storesDiscovery h
  · cases List.mem_singleton.mp huse
    exact hs.storesConfirmation h
  · cases huse

theorem mem_map_path {i : Nat} {file : Scratch} {touch : Nat × String}
    (h : touch ∈ (s.path i file).toList.map fun path => (i, path)) :
    touch.1 = i ∧ s.path i file = some touch.2 := by
  obtain ⟨path, hpath, rfl⟩ := List.mem_map.mp h
  exact ⟨rfl, Option.mem_toList.mp hpath⟩

theorem Apart.touches_used (hs : Apart s) {a : HostAction}
    (h : s.step settings backend a = some s') {touch : Nat × String}
    (htouch : touch ∈ s.touches backend a) :
    touch.1 ∈ s.entered ∧ s.ended touch.1 = false ∧ ∃ file, s.path touch.1 file = some touch.2 := by
  have hof : ∀ {i file}, i ∈ s.entered ∧ s.ended i = false →
      touch ∈ (s.path i file).toList.map (fun path => (i, path)) →
      touch.1 ∈ s.entered ∧ s.ended touch.1 = false ∧
        ∃ file, s.path touch.1 file = some touch.2 := by
    intro i file hi hmem
    obtain ⟨rfl, hpath⟩ := mem_map_path hmem
    exact ⟨hi.1, hi.2, file, hpath⟩
  unfold touches at htouch
  split at htouch
  · cases step_spec h with
    | @create n p path opened hp hpath halive hopened =>
      have hmem : p ∈ s.scanners := List.mem_of_getElem? hp
      rw [hp, Option.toList_some, List.flatMap_singleton] at htouch
      exact hof ⟨hs.scanner p hmem, ended_false_of_alive hmem halive⟩ htouch
  · cases step_spec h with
    | @write n p m data hp hfile halive =>
      have hmem : p ∈ s.scanners := List.mem_of_getElem? hp
      rw [hp, Option.toList_some, List.flatMap_singleton, hfile, Option.toList_some,
        List.flatMap_singleton] at htouch
      obtain ⟨path, hname, rfl⟩ := List.mem_map.mp htouch
      obtain ⟨use, hcreator, -, hpath⟩ := hs.disk.names path m (Disk.mem_paths.mp hname)
      rw [hs.files p hmem m hfile] at hcreator
      cases hcreator
      exact ⟨hs.scanner p hmem, ended_false_of_alive hmem halive, p.stage.output, hpath⟩
  · cases step_spec h with
    | writeTargets he hpc hcrashed _ =>
      exact hof
        ⟨hs.started _ _ he (by rw [hpc]; rfl), hs.ended_false he (by rw [hpc]; rfl) hcrashed⟩
        htouch
  · cases step_spec h with
    | remove he hentered hpast hremoved =>
      exact hof ⟨hentered, ended_false_of_removed hremoved⟩ htouch
  · split at htouch
    · exact hof (hs.storesDiscovery h) htouch
    · cases htouch
  · split at htouch
    · exact hof (hs.storesConfirmation h) htouch
    · cases htouch
  · cases htouch

theorem apart_initial (scopes : Table InventoryScope) (profiles : Table ScanProfile) :
    Apart (Host.initial scopes profiles) := by
  refine ⟨?_, ?_, ?_, ?_, ?_, .empty, ?_⟩
  · intro i hi
    cases hi
  · intro i e he
    cases he
  · intro use huse
    cases huse
  · intro p hp
    cases hp
  · intro i hi
    cases hi
  · intro p hp
    cases hp

end Host

/-- In a run where no execution starts its scan beside another of its shard or
finds files of one, each execution's scratch files are its own. -/
theorem scratch_private (settings : Settings) (backend : ArtifactBackend)
    (scopes : Table InventoryScope) (profiles : Table ScanProfile)
    (tr : List (Transition Host HostAction)) (t : Host)
    (h : Path (Host.step settings backend) (Host.initial scopes profiles) tr t)
    (halone : Along Host.alone tr) : ∀ x ∈ tr, Host.Private backend x := by
  intro x hx
  have hs : x.pre.Apart := (h.invariant_at (Host.apart_initial scopes profiles)
    (fun _ _ _ hs ha hstep => Host.apart_step hs hstep ha) halone hx).1
  have hstep := h.step_of_mem hx
  constructor
  · intro use huse p content hpath hread
    obtain ⟨hi, hover⟩ := hs.reads_used hstep huse
    exact hs.read hi hover hpath hread
  · intro touch htouch j hne
    obtain ⟨hi, hover, file, hpath⟩ := hs.touches_used hstep htouch
    exact hs.not_uses hi hover hpath hne

namespace Demo

/-- A scanner outlives the lease of its execution, and a second one starts beside it. -/
def twoScanners : List HostAction :=
  [running.map .base, [.spawn 0, .create 0, .write 0 "first"],
    [.base (.loadStale (seconds 4000)), .base (.commitRecovery 0)],
    (dispatch 1 "t2" "e2" (seconds 4000)).map .base, (publish 1 (seconds 4000)).map .base,
    (begin 1 "s1" "t2" (seconds 4000)).map .base,
    [.spawn 1, .create 1, .write 1 "second", .write 0 "first", .quit 1,
      .base (.worker 1 .exit), .base (.worker 1 .recheck)]].flatten

/-- A scan fails and is tried again. -/
def scannedAgain : List HostAction :=
  [running.map .base,
    [.spawn 0, .create 0, .write 0 "first", .quit 0,
      .base (.worker 0 (.fail "CalledProcessError: nmap")), .base (.worker 0 (.finish 0)),
      .remove 0 .discovery, .remove 0 .confirmation, .remove 0 .targets,
      .base (.worker 0 (.commitFinish 0))],
    (dispatch 1 "t2" "e2" (seconds 60)).map .base, (publish 1 (seconds 60)).map .base,
    (begin 1 "s1" "t2" (seconds 60)).map .base,
    [.spawn 1, .create 1, .write 1 "second", .quit 1, .base (.worker 1 .exit),
      .base (.worker 1 .recheck), .parse 1]].flatten

end Demo

/-- The lease of an execution is recovered while its scanner still writes, and the
next execution of the shard parses what that scanner wrote. -/
theorem superseded_scanner_writes :
    ¬ ∀ (settings : Settings) (backend : ArtifactBackend) (scopes : Table InventoryScope)
      (profiles : Table ScanProfile) (tr : List (Transition Host HostAction)) (t : Host),
      Path (Host.step settings backend) (Host.initial scopes profiles) tr t →
        ∀ x ∈ tr, Host.Private backend x := by
  intro hall
  have hrun : ((runAll (Host.step {} .filesystem) (Host.initial Demo.scopes Demo.profiles)
      Demo.twoScanners).bind fun t =>
      (Host.step {} .filesystem t (.parse 1)).map fun _ =>
        (t.reads (.parse 1), (t.path 1 .confirmation).bind t.disk.read)) =
      some ([(1, .confirmation)],
        some [((1, .confirmation), "second"), ((0, .confirmation), "first")]) := by
    decide +kernel
  obtain ⟨tr, t, u, hp, hobs⟩ := Path.of_runAll_step
    (f := fun t _ : Host => (t.reads (.parse 1), (t.path 1 .confirmation).bind t.disk.read)) hrun
  obtain ⟨hreads, hread⟩ := Prod.mk.inj hobs
  obtain ⟨p, hpath, hcontent⟩ := Option.bind_eq_some_iff.mp hread
  have hown := (hall _ _ _ _ _ u hp _ (List.mem_append_right _ (List.mem_singleton_self _))).own
    (1, .confirmation) (by rw [hreads]; exact List.mem_singleton_self _) p _ hpath hcontent
    ((0, .confirmation), "first") (List.mem_cons_of_mem _ List.mem_cons_self)
  exact absurd hown (by decide)

/-- A scan that fails leaves nothing behind, and the retry parses what its own
scanner wrote. -/
theorem scratch_private_retried :
    ∃ tr t, Path (Host.step {} .filesystem) (Host.initial Demo.scopes Demo.profiles) tr t ∧
      (∀ x ∈ tr, Host.Private .filesystem x) ∧
      t.entered = [1, 0] ∧ t.parsed = [(1, .nmap)] ∧ t.disk.names.length = 1 := by
  have hrun : (runWhile (Host.step {} .filesystem) Host.alone
      (Host.initial Demo.scopes Demo.profiles) Demo.scannedAgain).map
      (fun t => (t.entered, t.parsed, t.disk.names.length)) =
      some ([1, 0], [(1, .nmap)], 1) := by
    decide +kernel
  obtain ⟨tr, t, hp, halong, hobs⟩ := Path.of_runWhile_map hrun
  obtain ⟨hentered, hobs⟩ := Prod.mk.inj hobs
  obtain ⟨hparsed, hnames⟩ := Prod.mk.inj hobs
  exact ⟨tr, t, hp, scratch_private {} .filesystem _ _ tr t hp halong, hentered, hparsed, hnames⟩

end TransportLookout
