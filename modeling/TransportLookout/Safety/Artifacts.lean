/-
The keys of artifacts.

The storage key of an artifact ends in the token of its execution and the stage,
and neither contains a slash, so a key determines both.  A token starts one
execution, and an execution passes each stage once: `Pc.progress` never falls,
and a call of `store_artifact` needs it below the stage and leaves it above.  A
call that raises may have written its object, so a failing step counts as one.
-/
import TransportLookout.Safety.ResultFencing

namespace TransportLookout

open Relational Trace

/-! ## Keys -/

def Stage.name : Stage → String
  | .masscan => "masscan"
  | .nmap => "nmap"

/-- What `uuid4` draws contains no slash. -/
def isPlain (token : Uuid) : Bool := '/' ∉ token.toList

theorem Stage.name_plain (stage : Stage) : isPlain stage.name = true := by
  cases stage <;> decide +kernel

theorem Stage.name_inj {stage stage' : Stage} (h : stage.name = stage'.name) : stage = stage' := by
  cases stage with
  | masscan =>
    cases stage' with
    | masscan => rfl
    | nmap => exact absurd h (by decide)
  | nmap =>
    cases stage' with
    | masscan => exact absurd h (by decide)
    | nmap => rfl

/-- What follows the last separator is determined by the whole. -/
theorem last_segment {α : Type*} {sep : α} {a a' b b' : List α} (hb : sep ∉ b) (hb' : sep ∉ b')
    (h : a ++ sep :: b = a' ++ sep :: b') : a = a' ∧ b = b' := by
  rcases List.append_eq_append_iff.mp h with ⟨c, rfl, hc⟩ | ⟨c, rfl, hc⟩
  · cases c with
    | nil => exact ⟨(List.append_nil a).symm, (List.cons.inj hc).2⟩
    | cons x c =>
      have hin : sep ∈ b := by
        rw [(List.cons.inj hc).2]
        exact List.mem_append_right c List.mem_cons_self
      exact absurd hin hb
  · cases c with
    | nil => exact ⟨List.append_nil a', (List.cons.inj hc).2.symm⟩
    | cons x c =>
      have hin : sep ∈ b' := by
        rw [(List.cons.inj hc).2]
        exact List.mem_append_right c List.mem_cons_self
      exact absurd hin hb'

theorem toList_artifactKey (runId shardId stage token : String) :
    (Db.artifactKey runId shardId stage token).toList =
      ("runs/" ++ runId ++ "/shards/" ++ shardId ++ "/attempts").toList ++ '/' :: token.toList ++
        '/' :: stage.toList ++ ".xml".toList := by
  simp [Db.artifactKey]

theorem artifactKey_inj {runId runId' shardId shardId' token token' : Uuid} {stage stage' : Stage}
    (ht : isPlain token = true) (ht' : isPlain token' = true)
    (h : Db.artifactKey runId shardId stage.name token =
      Db.artifactKey runId' shardId' stage'.name token') : token = token' ∧ stage = stage' := by
  have hlist := congrArg String.toList h
  rw [toList_artifactKey, toList_artifactKey, List.append_left_inj] at hlist
  obtain ⟨hhead, hname⟩ := last_segment (of_decide_eq_true stage.name_plain)
    (of_decide_eq_true stage'.name_plain) hlist
  obtain ⟨-, htoken⟩ := last_segment (of_decide_eq_true ht) (of_decide_eq_true ht') hhead
  exact ⟨String.toList_inj.mp htoken, Stage.name_inj (String.toList_inj.mp hname)⟩

/-! ## The calls of `store_artifact` -/

/-- The progress of an execution in the stage; past it, the artifact is stored. -/
def Stage.order : Stage → Nat
  | .masscan => 1
  | .nmap => 2

/-- How far through its stages an execution is. -/
def Pc.progress : Pc → Nat
  | .claimed | .shardLoaded | .loaded | .servicesCleared | .hostsCleared | .cleared => 0
  | .polling stage | .refreshed stage | .owned stage | .beating stage _ | .exited stage
  | .recording stage => stage.order
  | .discovered => Stage.masscan.order
  | .results | .confirmed | .failing _ | .finishing _ _ | .finished _ | .stopped => 3

theorem Pc.progress_le (pc : Pc) : pc.progress ≤ 3 := by
  have horder : ∀ stage : Stage, stage.order ≤ 3 := by
    intro stage
    cases stage <;> decide
  cases pc with
  | polling stage | refreshed stage | owned stage | exited stage | recording stage =>
    exact horder stage
  | beating stage _ => exact horder stage
  | _ => exact Nat.le_of_ble_eq_true rfl

/-- The stage whose artifact a step stores. -/
def WorkerAction.stored : WorkerAction → Option Stage
  | .storeDiscovery => some .masscan
  | .storeConfirmation => some .nmap
  | _ => none

namespace Execution

/-- The stage whose artifact a step stores, or may have stored before it raised. -/
def storingStage (e : Execution) : WorkerAction → Option Stage
  | .storeDiscovery => if e.pc = .discovered then some .masscan else none
  | .storeConfirmation => if e.pc = .recording .nmap then some .nmap else none
  | .fail _ =>
    if e.pc = .discovered then some .masscan
    else if e.pc = .recording .nmap then some .nmap
    else none
  | _ => none

/-- The key a step of an execution writes. -/
def stores (e : Execution) (a : WorkerAction) : Option String :=
  e.run.bind fun run => (e.storingStage a).map fun stage =>
    Db.artifactKey run.id e.shardId stage.name e.leaseToken

variable {settings : Settings} {db db' : Db} {e e' : Execution} {a : WorkerAction}

theorem beat_progress {stage : Stage} {beat : Option DateTime} {P Q : Prop}
    (hpc : e.pc = .beating stage beat)
    (hpc' : e'.pc = .exited stage ∧ P ∨ e'.pc = .polling stage ∧ Q) :
    e.pc.progress ≤ e'.pc.progress := by
  rw [hpc]
  rcases hpc' with ⟨h, -⟩ | ⟨h, -⟩
  · rw [h]
    exact Nat.le_refl _
  · rw [h]
    exact Nat.le_refl _

/-- No step goes back to an earlier stage. -/
theorem step_progress (h : e.step db settings a = some (db', e')) :
    e.pc.progress ≤ e'.pc.progress := by
  rcases step_cases h with ⟨-, hmove⟩ | hc
  · cases hmove with
    | missing | lost | fail | finish | countShards => exact e.pc.progress_le
    | storeDiscovery hpc _ hnext =>
      rw [hpc]
      split at hnext
      · subst hnext
        exact Nat.le_of_ble_eq_true rfl
      · subst hnext
        exact Nat.le_of_ble_eq_true rfl
    | addHost => exact Nat.le_refl _
    | storeConfirmation hpc | confirm hpc =>
      rw [hpc]
      exact Nat.le_of_ble_eq_true rfl
    | loadShard hpc | loadRun hpc | clearServices hpc | clearHosts hpc | clearDiscoveries hpc
    | refresh hpc | checkLease hpc | heartbeat hpc | exit hpc | recheck hpc
    | addDiscoveries hpc =>
      rw [hpc]
      exact Nat.le_refl _
  · cases hc with
    | abandon | finish => exact e.pc.progress_le
    | start hpc =>
      rw [hpc]
      exact Nat.zero_le _
    | beat hpc _ _ _ _ hpc' => exact beat_progress hpc hpc'
    | beatLost hpc _ _ _ hpc' => exact beat_progress hpc hpc'

/-- A step that stores an artifact takes the execution out of the stage. -/
theorem step_stores {stage : Stage} (h : e.step db settings a = some (db', e'))
    (hs : e.storingStage a = some stage) :
    e.pc.progress = stage.order ∧ stage.order < e'.pc.progress := by
  have hfail : ∀ error, a = .fail error → e'.pc.progress = 3 := by
    rintro error rfl
    rcases step_cases h with ⟨-, hmove⟩ | hc
    · cases hmove <;> rfl
    · cases hc
  cases a with
  | storeDiscovery =>
    simp only [storingStage] at hs
    split at hs
    · next hpc =>
      cases hs
      refine ⟨by rw [hpc]; rfl, ?_⟩
      rcases step_cases h with ⟨-, hmove⟩ | hc
      · cases hmove with
        | lost => exact Nat.le_of_ble_eq_true rfl
        | storeDiscovery _ _ hnext =>
          split at hnext
          · subst hnext
            exact Nat.le_of_ble_eq_true rfl
          · subst hnext
            exact Nat.le_of_ble_eq_true rfl
      · cases hc
    · cases hs
  | storeConfirmation =>
    simp only [storingStage] at hs
    split at hs
    · next hpc =>
      cases hs
      refine ⟨by rw [hpc]; rfl, ?_⟩
      rcases step_cases h with ⟨-, hmove⟩ | hc
      · cases hmove <;> exact Nat.le_of_ble_eq_true rfl
      · cases hc
    · cases hs
  | fail error =>
    rw [hfail error rfl]
    simp only [storingStage] at hs
    split at hs
    · next hpc =>
      cases hs
      exact ⟨by rw [hpc]; rfl, by decide⟩
    · split at hs
      · next hpc =>
        cases hs
        exact ⟨by rw [hpc]; rfl, by decide⟩
      · cases hs
  | _ => cases hs

end Execution

namespace Execution

/-- The key of a stage the execution holds until its last commit. -/
def keyOf (e : Execution) : Stage → Option String
  | .masscan => e.discoveryArtifactKey
  | .nmap => e.artifactKey

variable {settings : Settings} {db db' : Db} {e e' : Execution} {a : WorkerAction} {key : String}

/-- An execution holds the keys it has stored, and no other. -/
theorem step_keyOf {stage : Stage} (h : e.step db settings a = some (db', e'))
    (hk : e'.keyOf stage = some key) :
    e.keyOf stage = some key ∨ (e.stores a = some key ∧ a.stored = some stage) := by
  rcases step_cases h with ⟨-, hmove⟩ | hc
  · cases hmove with
    | storeDiscovery hpc hrun _ hkey =>
      cases stage with
      | masscan =>
        refine Or.inr ⟨?_, rfl⟩
        rw [stores, hrun, storingStage, if_pos hpc, ← hk, keyOf, hkey]
        rfl
      | nmap => exact Or.inl hk
    | storeConfirmation hpc hrun hkey =>
      cases stage with
      | masscan => exact Or.inl hk
      | nmap =>
        refine Or.inr ⟨?_, rfl⟩
        rw [stores, hrun, storingStage, if_pos hpc, ← hk, keyOf, hkey]
        rfl
    | _ => exact Or.inl (by cases stage <;> exact hk)
  · cases hc with
    | beat _ _ _ _ he _ | beatLost _ _ _ he _ =>
      rw [he] at hk
      exact Or.inl (by cases stage <;> exact hk)
    | _ => exact Or.inl (by cases stage <;> exact hk)

/-- The outcome of a completed scan names the keys the execution holds. -/
def NamesKeys (e : Execution) : Prop :=
  ∀ artifactKey discoveryArtifactKey counts,
    e.pc = .finishing (.completed artifactKey discoveryArtifactKey) counts →
      artifactKey = e.artifactKey ∧ discoveryArtifactKey = e.discoveryArtifactKey

theorem outcome_completed {now : DateTime} {artifactKey discoveryArtifactKey : Option String}
    (h : e.outcome settings now = some (.completed artifactKey discoveryArtifactKey)) :
    artifactKey = e.artifactKey ∧ discoveryArtifactKey = e.discoveryArtifactKey := by
  rw [Execution.outcome] at h
  split at h
  · split at h <;> cases h
  · cases h
    exact ⟨rfl, rfl⟩
  · split at h
    · split at h <;> cases h
    · cases h
  · cases h

theorem step_namesKeys (hn : e.NamesKeys) (h : e.step db settings a = some (db', e')) :
    e'.NamesKeys := by
  intro artifactKey discoveryArtifactKey counts hpc'
  obtain ⟨-, -, hfrom⟩ := (step_change h).finishing _ counts hpc'
  rcases hfrom with ⟨rfl, hpc⟩ | ⟨now, rfl, hout, -⟩
  · rcases step_cases h with ⟨-, hmove⟩ | hc
    · cases hmove with
      | lost => cases hpc'
      | countShards => exact hn _ _ _ hpc
    · cases hc
  · rcases step_cases h with ⟨-, hmove⟩ | hc
    · cases hmove with
      | lost => cases hpc'
      | finish =>
        obtain ⟨rfl, rfl⟩ := outcome_completed hout
        exact ⟨rfl, rfl⟩
    · cases hc

end Execution

/-! ## Who writes a key -/

/-- The execution whose step writes the key. -/
def writer (key : String) (x : Transition State Action) : Option Nat :=
  match x.act with
  | .worker i b =>
    if (x.pre.executions[i]?.bind fun e => e.stores b) = some key then some i else none
  | _ => none

def writers (key : String) (tr : List (Transition State Action)) : List Nat :=
  tr.filterMap (writer key)

/-- Tokens drawn in the step contain no slash. -/
def State.drawsPlain (_ : State) : Action → Bool
  | .lease _ tokens _ _ => tokens.all isPlain
  | .bindToken _ token => isPlain token
  | _ => true

/-- An execution has stored its artifact of a stage under the key, or is past
the point where it could. -/
def State.Stored (s : State) (key : String) : Prop :=
  ∃ e ∈ s.executions, ∃ runId stage, stage.order < e.pc.progress ∧
    key = Db.artifactKey runId e.shardId (Stage.name stage) e.leaseToken

def State.Plain (s : State) : Prop := ∀ t ∈ s.issued, isPlain t = true

section
variable {settings : Settings} {s s' : State} {a : Action} {key : String}

theorem plain_step (hp : s.Plain) (hk : s.drawsPlain a = true) (h : s.step settings a = some s') :
    s'.Plain := by
  intro t ht
  rcases (step_effect h).issued with heq | ⟨_, tokens, _, _, rfl, heq⟩ | ⟨_, token, rfl, heq⟩
  · exact hp t (heq ▸ ht)
  · rw [heq] at ht
    rcases List.mem_append.mp ht with hold | hnew
    · exact hp t hold
    · exact List.all_eq_true.mp hk t hnew
  · rw [heq] at ht
    rcases List.mem_append.mp ht with hold | hnew
    · exact hp t hold
    · cases List.mem_singleton.mp hnew
      exact hk

theorem stored_step (h : s.step settings a = some s') (hs : s.Stored key) : s'.Stored key := by
  obtain ⟨e, he, runId, stage, hpast, rfl⟩ := hs
  obtain ⟨i, hi⟩ := List.mem_iff_getElem?.mp he
  obtain ⟨e', he', rfl | ⟨b, -, hstep⟩⟩ := execution_next h hi
  · exact ⟨e', List.mem_of_getElem? he', runId, stage, hpast, rfl⟩
  · obtain ⟨hshard, htoken⟩ := Execution.step_lease hstep
    refine ⟨e', List.mem_of_getElem? he', runId, stage, ?_, by rw [hshard, htoken]⟩
    exact Nat.lt_of_lt_of_le hpast (Execution.step_progress hstep)

/-- What a writing step is. -/
theorem writer_eq_some {x : Transition State Action} {i : Nat} (h : writer key x = some i) :
    ∃ e b run stage, x.act = .worker i b ∧ x.pre.executions[i]? = some e ∧ e.run = some run ∧
      e.storingStage b = some stage ∧
      key = Db.artifactKey run.id e.shardId (Stage.name stage) e.leaseToken := by
  rw [writer] at h
  split at h
  · next j b hact =>
    split at h
    · next hstores =>
      cases h
      obtain ⟨e, he, hkey⟩ := Option.bind_eq_some_iff.mp hstores
      obtain ⟨run, hrun, hkey⟩ := Option.bind_eq_some_iff.mp hkey
      obtain ⟨stage, hstage, rfl⟩ := Option.map_eq_some_iff.mp hkey
      exact ⟨e, b, run, stage, hact, he, hrun, hstage, rfl⟩
    · cases h
  · cases h

/-- A writing step and the execution after it. -/
theorem writer_step {x : Transition State Action} {i : Nat}
    (hs : x.pre.step settings x.act = some x.post) (h : writer key x = some i) :
    ∃ (e e' : Execution) (run : ScanRun) (stage : Stage),
      x.pre.executions[i]? = some e ∧ e' ∈ x.post.executions ∧
      key = Db.artifactKey run.id e.shardId (Stage.name stage) e.leaseToken ∧
      key = Db.artifactKey run.id e'.shardId stage.name e'.leaseToken ∧
      e.pc.progress = stage.order ∧ stage.order < e'.pc.progress := by
  obtain ⟨e, b, run, stage, hact, he, hrun, hstage, hkey⟩ := writer_eq_some h
  rw [hact] at hs
  obtain ⟨e₀, db, e', he₀, hexec, hpost⟩ := step_worker hs
  rw [he] at he₀
  cases he₀
  obtain ⟨hbefore, hafter⟩ := Execution.step_stores hexec hstage
  obtain ⟨hshard, htoken⟩ := Execution.step_lease hexec
  have hlt := (List.getElem?_eq_some_iff.mp he).1
  refine ⟨e, e', run, stage, he, ?_, hkey, by rw [hshard, htoken, hkey], hbefore, hafter⟩
  rw [hpost]
  exact List.mem_of_getElem? (List.getElem?_set_self hlt)

theorem stored_of_writer {x : Transition State Action} {i : Nat}
    (hs : x.pre.step settings x.act = some x.post) (h : writer key x = some i) :
    x.post.Stored key := by
  obtain ⟨_, e', run, stage, -, he', -, hkey, -, hafter⟩ := writer_step hs h
  exact ⟨e', he', run.id, stage, hafter, hkey⟩

/-- No step writes a key that is stored. -/
theorem not_stored_of_writer {x : Transition State Action} {i : Nat} (hf : Fenced x.pre)
    (hp : x.pre.Plain) (hs : x.pre.step settings x.act = some x.post)
    (h : writer key x = some i) : ¬ x.pre.Stored key := by
  rintro ⟨e₀, he₀, runId, stage₀, hpast, hkey₀⟩
  obtain ⟨e, _, run, stage, he, -, hkey, -, hbefore, -⟩ := writer_step hs h
  have hmem : e ∈ x.pre.executions := List.mem_of_getElem? he
  obtain ⟨htoken, rfl⟩ := artifactKey_inj (hp _ (hf.executions e hmem))
    (hp _ (hf.executions e₀ he₀)) (hkey.symm.trans hkey₀)
  obtain ⟨j, hj⟩ := List.mem_iff_getElem?.mp he₀
  have hij := hf.index he hj htoken
  subst hij
  rw [he] at hj
  cases hj
  rw [hbefore] at hpast
  exact Nat.lt_irrefl _ hpast

/-! ## Completed rows -/

/-- The execution that completed a shard left its keys in the row. -/
structure KeysRecorded (s : State) : Prop where
  namesKeys : ∀ e ∈ s.executions, e.NamesKeys
  completed : ∀ k r, s.db.shards.get k = some r → r.status = .completed →
    ∃ (i : Nat) (e : Execution),
      s.executions[i]? = some e ∧ e.shardId = k ∧ r.leaseToken = some e.leaseToken ∧
      e.pc = .finished .completed ∧ r.artifactKey = e.artifactKey ∧
      r.discoveryArtifactKey = e.discoveryArtifactKey

theorem keys_recorded_step (hc : Copies s) (hi : Intents s) (hr : KeysRecorded s)
    (h : s.step settings a = some s') : KeysRecorded s' where
  namesKeys := by
    refine executions_step h hr.namesKeys ?_ fun _ _ _ _ _ hpc => by cases hpc
    intro e he _ b e' _ hstep
    exact Execution.step_namesKeys (hr.namesKeys e he) hstep
  completed := by
    intro k r' hr' hcompleted
    rcases completed_row hc hi h hr' hcompleted with hold |
      ⟨i, e, e', r, _, _, now, counts, he, he', hexec, hk, hpc, hpc', hrow, htoken, rfl⟩
    · obtain ⟨i, e, he, hk, htoken, hpc, hkeys⟩ := hr.completed k r' hold hcompleted
      exact ⟨i, e, finished_kept h he hpc, hk, htoken, hpc, hkeys⟩
    · obtain ⟨hshard', htoken'⟩ := Execution.step_lease hexec
      obtain ⟨rfl, rfl⟩ := hr.namesKeys e (List.mem_of_getElem? he) _ _ _ hpc
      refine ⟨i, e', he', hshard'.trans hk, ?_, hpc', ?_⟩
      · rw [htoken', ← htoken]
        rfl
      · cases Execution.step_commitFinish hexec with
        | finish => exact ⟨rfl, rfl⟩

end

/-! ## Runs -/

/-- What writing once says of the keys: each is written once, and those a completed
shard names by the execution that completed it. -/
structure WriteOnce (tr : List (Transition State Action)) (t : State) : Prop where
  once : ∀ key, (writers key tr).length ≤ 1
  completed : ∀ k r, t.db.shards.get k = some r → r.status = .completed →
    ∃ (i : Nat) (e : Execution),
      t.executions[i]? = some e ∧ e.shardId = k ∧ r.leaseToken = some e.leaseToken ∧
      e.pc = .finished .completed ∧
      r.artifactKey = e.keyOf .nmap ∧ r.discoveryArtifactKey = e.keyOf .masscan ∧
      ∀ stage key, e.keyOf stage = some key → writers key tr = [i]

section
variable {settings : Settings} {scopes : Table InventoryScope} {profiles : Table ScanProfile}
  {tr : List (Transition State Action)} {t : State}

theorem plain_at (h : Run settings (State.initial scopes profiles) tr t)
    (hk : Along State.drawsPlain tr) {x : Transition State Action} (hx : x ∈ tr) : x.pre.Plain :=
  (h.invariant_at (I := State.Plain) (fun _ ht => absurd ht List.not_mem_nil)
    (fun _ _ _ hp hk hstep => plain_step hp hk hstep) hk hx).1

theorem keys_recorded_run (h : Run settings (State.initial scopes profiles) tr t) :
    KeysRecorded t := by
  have hinv := h.invariant (I := fun s => Copies s ∧ Intents s ∧ KeysRecorded s)
    (C := fun _ _ => true) ?_ ?_ fun _ _ => rfl
  · exact hinv.2.2
  · refine ⟨copies_start _, intents_start scopes profiles, ?_, ?_⟩
    · exact fun _ he => absurd he List.not_mem_nil
    · exact fun _ _ hr => absurd (Table.get_mem hr) List.not_mem_nil
  · rintro s a s' ⟨hc, hi, hr⟩ - hstep
    exact ⟨copies_step hc hstep, intents_step hc hi hstep, keys_recorded_step hc hi hr hstep⟩

/-- A key an execution holds is one it has written. -/
theorem keeps_written (h : Run settings (State.initial scopes profiles) tr t) {i : Nat}
    {e : Execution} {stage : Stage} {key : String} (he : t.executions[i]? = some e)
    (hk : e.keyOf stage = some key) : i ∈ writers key tr := by
  induction h generalizing e with
  | nil => cases he
  | @snoc s u tr a hp hs ih =>
    rw [writers, List.filterMap_append]
    rcases execution_cases hs he with ⟨hold, -⟩ | ⟨e₀, b, hold, rfl, hstep⟩ | ⟨_, _, -, -, -, hnew⟩
    · exact List.mem_append_left _ (ih hold hk)
    · rcases Execution.step_keyOf hstep hk with hkept | ⟨hstores, -⟩
      · exact List.mem_append_left _ (ih hold hkept)
      · refine List.mem_append_right _ ?_
        have hwriter : writer key ⟨s, .worker i b, u⟩ = some i := by
          rw [writer]
          dsimp only
          rw [hold, Option.bind_some, if_pos hstores]
        rw [List.filterMap_cons_some hwriter]
        exact List.mem_cons_self
    · rw [hnew] at hk
      cases stage <;> cases hk

end

/-- No storage key is written twice, and the keys of a completed shard are written by
the execution that completed it. -/
theorem keys_write_once (settings : Settings) (scopes : Table InventoryScope)
    (profiles : Table ScanProfile) (tr : List (Transition State Action)) (t : State)
    (h : Run settings (State.initial scopes profiles) tr t) (hk : Along State.drawsPlain tr) :
    WriteOnce tr t := by
  have honce : ∀ key, (writers key tr).length ≤ 1 := by
    intro key
    rw [writers, List.length_filterMap_eq_countP]
    refine h.count_le_one (Q := fun s => s.Stored key)
      (fun x hx hpre => stored_step (h.step_of_mem hx) hpre) ?_ ?_
    · intro x hx hwrites
      obtain ⟨i, hi⟩ := Option.isSome_iff_exists.mp hwrites
      have hf := (fenced_at (fun _ hr => absurd hr List.not_mem_nil) h hx).2
      exact not_stored_of_writer hf (plain_at h hk hx) (h.step_of_mem hx) hi
    · intro x hx hwrites
      obtain ⟨i, hi⟩ := Option.isSome_iff_exists.mp hwrites
      exact stored_of_writer (h.step_of_mem hx) hi
  refine ⟨honce, fun k r hr hcompleted => ?_⟩
  obtain ⟨i, e, he, hid, htoken, hpc, hartifact, hdiscovery⟩ :=
    (keys_recorded_run h).completed k r hr hcompleted
  refine ⟨i, e, he, hid, htoken, hpc, hartifact, hdiscovery, fun stage key hkey => ?_⟩
  have hmem : i ∈ writers key tr := keeps_written h he hkey
  obtain ⟨j, hj⟩ := List.length_eq_one_iff.mp
    (Nat.le_antisymm (honce key) (List.length_pos_of_mem hmem))
  rw [hj] at hmem ⊢
  rw [List.mem_singleton.mp hmem]

end TransportLookout
