/-
What a completed shard keeps of earlier attempts.

Four of the columns an attempt writes are cleared on the way to the next one: by the
dispatch, by the claim, or by the `finish_lease` that completes the shard.  `error`
is set by every `finish_lease` that does not complete the shard and cleared by
nothing, so that it tells whether there has been one.
-/
import TransportLookout.Safety.Cancellation
import TransportLookout.Safety.ResultFencing

namespace TransportLookout

open Relational Trace

/-- The shard an execution's `finish_lease` writes, with its outcome. -/
def State.finishes (s : State) : Action → Option (Uuid × Outcome)
  | .worker i .abandon => do
    let e ← s.executions[i]?
    if e.owns s.db then e.abandonOutcome.map (e.shardId, ·) else none
  | .worker i (.commitFinish _) => do
    let e ← s.executions[i]?
    match e.pc with
    | .finishing o _ => some (e.shardId, o)
    | _ => none
  | _ => none

/-- An execution gives the shard an outcome that is an error. -/
def Fails (k : Uuid) (x : Transition State Action) : Prop :=
  ∃ o, x.pre.finishes x.act = some (k, o) ∧ o.status ≠ .completed

def Completes (k : Uuid) (x : Transition State Action) : Prop :=
  ∃ o, x.pre.finishes x.act = some (k, o) ∧ o.status = .completed

/-- The row keeps nothing of an attempt that did not complete the shard. -/
structure ScanShard.Unmarked (r : ScanShard) : Prop where
  error : r.error = none
  retryNotBefore : r.retryNotBefore = none
  leaseExpiresAt : r.leaseExpiresAt = none
  workerId : r.workerId = none
  heartbeatAt : r.heartbeatAt = none

def State.HasError (s : State) (k : Uuid) : Prop :=
  ∃ r, s.db.shards.get k = some r ∧ r.error.isSome = true

def State.ResidueFree (s : State) : Prop :=
  ∀ k r, s.db.shards.get k = some r → r.status = .completed → r.Unmarked

/-! ## The columns that are cleared -/

/-- What is cleared by the time a shard is leased, running and completed. -/
structure ScanShard.Tidied (r : ScanShard) : Prop where
  retryNotBefore : r.status = .leased ∨ r.status = .running ∨ r.status = .completed →
    r.retryNotBefore = none
  leaseExpiresAt : r.status = .running ∨ r.status = .completed → r.leaseExpiresAt = none
  worker : r.status = .completed → r.workerId = none ∧ r.heartbeatAt = none

theorem ScanShard.Tidied.of_idle {r : ScanShard} (hleased : r.status ≠ .leased)
    (hrunning : r.status ≠ .running) (hcompleted : r.status ≠ .completed) : r.Tidied := by
  constructor
  · simp [hleased, hrunning, hcompleted]
  · simp [hrunning, hcompleted]
  · simp [hcompleted]

section
variable {settings : Settings} {s s' : State} {a : Action} {r r' : ScanShard} {k : Uuid}

/-- The step lemma on rows: each way into a status clears what that status must not show. -/
theorem ShardStep.tidied (hc : Copies s) (htidied : r.Tidied) (h : ShardStep settings s a r r') :
    r'.Tidied := by
  cases h with
  | lease =>
    refine ⟨fun _ => rfl, fun h => ?_, fun h => ?_⟩
    · rcases h with h | h <;> cases h
    · cases h
  | bind =>
    rw [ScanShard.writeBack_bound]
    exact ⟨htidied.retryNotBefore, htidied.leaseExpiresAt, htidied.worker⟩
  | recover hp hl _ =>
    have hqueued := (ScanShard.writeBack_requeued (hc.stale _ (List.mem_of_getElem? hp) _ hl) r).1
    exact .of_idle (by simp [hqueued]) (by simp [hqueued]) (by simp [hqueued])
  | cancel hp hl _ =>
    rw [ScanShard.writeBack_cancelled (hc.selected _ (List.mem_of_getElem? hp) _ hl).1]
    exact .of_idle (by simp) (by simp) (by simp)
  | claim _ hheld =>
    have hleased := (ScanShard.held_iff.mp hheld).2.1
    refine ⟨fun _ => htidied.retryNotBefore (Or.inl hleased), fun _ => rfl, fun h => ?_⟩
    cases h
  | beat _ hheld =>
    have hrunning := (ScanShard.held_iff.mp hheld).2.1
    refine ⟨htidied.retryNotBefore, htidied.leaseExpiresAt, fun h => ?_⟩
    rw [show r.status = .completed from h] at hrunning
    cases hrunning
  | @finish _ _ _ o _ _ _ hheld =>
    have hrunning := (ScanShard.held_iff.mp hheld).2.1
    cases o with
    | completed =>
      exact ⟨fun _ => htidied.retryNotBefore (Or.inr (Or.inl hrunning)),
        fun _ => htidied.leaseExpiresAt (Or.inl hrunning), fun _ => ⟨rfl, rfl⟩⟩
    | _ => exact .of_idle nofun nofun nofun

theorem tidied_step (hc : Copies s) (htidied : ∀ k r, s.db.shards.get k = some r → r.Tidied)
    (h : s.step settings a = some s') : ∀ k r, s'.db.shards.get k = some r → r.Tidied := by
  intro k r' hr'
  rcases shard_cases h hr' with ⟨r, hr, rfl | hstep⟩ | hnew
  · exact htidied k r' hr
  · exact hstep.tidied hc (htidied k r hr)
  · rw [hnew.blank]
    exact .of_idle nofun nofun nofun

theorem tidied_run {scopes : Table InventoryScope} {profiles : Table ScanProfile}
    {tr : List (Transition State Action)} {t : State}
    (h : Run settings (State.initial scopes profiles) tr t) :
    ∀ k r, t.db.shards.get k = some r → r.Tidied := by
  have hinv : Copies t ∧ ∀ k r, t.db.shards.get k = some r → r.Tidied :=
    Path.invariant (I := fun s => Copies s ∧ ∀ k r, s.db.shards.get k = some r → r.Tidied)
      (C := fun _ _ => true) h
      ⟨copies_start _, fun _ _ hr => absurd (Table.get_mem hr) List.not_mem_nil⟩
      (fun _ _ _ ⟨hc, ht⟩ _ hs => ⟨copies_step hc hs, tidied_step hc ht hs⟩) fun _ _ => rfl
  exact hinv.2

/-! ## The column that is not -/

/-- The row a `finish_lease` writes is running before it. -/
theorem finishes_row {o : Outcome} (h : s.step settings a = some s')
    (hf : s.finishes a = some (k, o)) :
    ∃ r, s.db.shards.get k = some r ∧ s'.db.shards.get k = some (r.finish o) := by
  have hrow : ∀ {e : Execution} {db : Db}, e.owns s.db = true →
      db.shards = (s.db.finishLease e.shardId e.leaseToken o).shards →
      ∃ r, s.db.shards.get e.shardId = some r ∧ db.shards.get e.shardId = some (r.finish o) := by
    intro e db howns hdb
    obtain ⟨r, hr, hrunning, htoken⟩ := Db.currentLease_iff.mp howns
    refine ⟨r, hr, ?_⟩
    rw [hdb, Db.get_finishLease, hr, Option.map_some,
      if_pos (ScanShard.held_iff.mpr ⟨Table.get_key hr, hrunning, htoken⟩)]
  cases a with
  | worker i b =>
    obtain ⟨e, db, e', he, hstep, rfl⟩ := step_worker h
    cases b with
    | abandon =>
      simp only [State.finishes, he, Option.bind_eq_bind, Option.bind_some] at hf
      split at hf
      · next howns =>
        obtain ⟨o', ho, heq⟩ := Option.map_eq_some_iff.mp hf
        cases heq
        refine hrow howns ?_
        rcases Execution.step_cases hstep with ⟨-, hmove⟩ | hcommit
        · cases hmove with
          | lost hlost =>
            rw [howns] at hlost
            cases hlost
        · cases hcommit with
          | abandon _ ho' _ =>
            rw [ho] at ho'
            cases ho'
            rfl
      · cases hf
    | commitFinish now =>
      simp only [State.finishes, he, Option.bind_eq_bind, Option.bind_some] at hf
      split at hf
      · next o' counts hpc =>
        cases hf
        cases Execution.step_commitFinish hstep with
        | finish hpc' _ howns hflush hfin =>
          rw [hpc] at hpc'
          cases hpc'
          obtain ⟨_, _, _, _, _, _, rfl⟩ := Execution.flush_frame hflush
          refine hrow howns ?_
          rw [(Db.finalizeWith_frame hfin).1]
      · cases hf
    | _ => cases hf
  | _ => cases hf

/-- A row keeps its error unless an execution gives the shard an outcome. -/
theorem ShardStep.error (hr : s.db.shards.get k = some r) (h : ShardStep settings s a r r') :
    r'.error = r.error ∨ ∃ o, s.finishes a = some (k, o) := by
  cases h with
  | lease | claim | beat => exact Or.inl rfl
  | bind | recover | cancel => exact Or.inl (writeBack_self _ _)
  | @finish i e b o _ he hc hheld =>
    obtain ⟨hid, hrunning, htoken⟩ := ScanShard.held_iff.mp hheld
    have hk : e.shardId = k := hid.symm.trans (Table.get_key hr)
    refine Or.inr ⟨o, ?_⟩
    rcases hc with ⟨rfl, hpc, ho⟩ | ⟨now, counts, rfl, hpc⟩
    · have howns : e.owns s.db = true :=
        Db.currentLease_iff.mpr ⟨r, by rw [hk, hr], hrunning, htoken⟩
      simp [State.finishes, he, howns, ho, hk]
    · simp [State.finishes, he, hpc, hk]

theorem ScanShard.error_finish (r : ScanShard) (o : Outcome) :
    (r.finish o).error.isSome = true ↔ o.status ≠ .completed ∨ r.error.isSome = true := by
  cases o with
  | completed => simp [ScanShard.finish, Outcome.values, Outcome.status]
  | _ => simp [ScanShard.finish, Outcome.values, Outcome.status]

/-- The step lemma on errors. -/
theorem error_step (h : s.step settings a = some s') (k : Uuid) :
    s'.HasError k ↔ s.HasError k ∨ Fails k ⟨s, a, s'⟩ := by
  by_cases hf : ∃ o, s.finishes a = some (k, o)
  · obtain ⟨o, hf⟩ := hf
    obtain ⟨r, hr, hfinish⟩ := finishes_row h hf
    simp [State.HasError, Fails, hf, hr, hfinish, ScanShard.error_finish, or_comm]
  · have hnone : ¬ Fails k ⟨s, a, s'⟩ := by
      intro hfails
      obtain ⟨o, ho, -⟩ := hfails
      exact hf ⟨o, ho⟩
    rw [or_iff_left hnone]
    cases hr : s.db.shards.get k with
    | none =>
      refine iff_of_false ?_ ?_
      · intro herror
        obtain ⟨r', hr', hsome⟩ := herror
        rw [(shard_new h hr hr').blank] at hsome
        cases hsome
      · intro herror
        obtain ⟨r, hr₀, -⟩ := herror
        rw [hr] at hr₀
        cases hr₀
    | some r =>
      obtain ⟨r', hr', hsame⟩ := shard_step h hr
      have herror : r'.error = r.error := by
        rcases hsame with rfl | hstep
        · rfl
        · exact (hstep.error hr).resolve_right hf
      simp [State.HasError, hr, hr', herror]

/-- A row has an error exactly when an execution has given its shard one. -/
theorem hasError_iff_fails {scopes : Table InventoryScope} {profiles : Table ScanProfile}
    {tr : List (Transition State Action)} {t : State}
    (h : Run settings (State.initial scopes profiles) tr t) (k : Uuid) :
    t.HasError k ↔ ∃ x ∈ tr, Fails k x := by
  induction h with
  | nil =>
    exact iff_of_false (fun ⟨_, hr, _⟩ => absurd (Table.get_mem hr) List.not_mem_nil)
      fun ⟨_, hx, _⟩ => absurd hx List.not_mem_nil
  | @snoc t u tr a _ hs ih =>
    rw [error_step hs k, ih]
    simp only [List.mem_append, List.mem_singleton, or_and_right, exists_or, exists_eq_left]

/-- A step leaves a completed shard a residue exactly when it completes one that has failed. -/
theorem residue_step (hc : Copies s) (hi : Intents s) (h : s.step settings a = some s')
    (htidied : ∀ k r, s'.db.shards.get k = some r → r.Tidied) (hfree : s.ResidueFree) :
    s'.ResidueFree ↔ ∀ k, s.HasError k → ¬ Completes k ⟨s, a, s'⟩ := by
  constructor
  · intro hfree' k herror hcompletes
    obtain ⟨r, hr, hsome⟩ := herror
    obtain ⟨o, ho, hcompleted⟩ := hcompletes
    obtain ⟨r₀, hr₀, hfinish⟩ := finishes_row h ho
    rw [hr] at hr₀
    cases hr₀
    have hclear := (hfree' k _ hfinish hcompleted).error
    have hsome' := (r.error_finish o).mpr (Or.inr hsome)
    rw [hclear] at hsome'
    cases hsome'
  · intro hnot k r' hr' hcompleted
    have ht := htidied k r' hr'
    obtain ⟨hworker, hbeat⟩ := ht.worker hcompleted
    refine ⟨?_, ht.retryNotBefore (Or.inr (Or.inr hcompleted)),
      ht.leaseExpiresAt (Or.inr hcompleted), hworker, hbeat⟩
    rcases shard_cases h hr' with ⟨r, hr, rfl | hstep⟩ | hnew
    · exact (hfree k r' hr hcompleted).error
    · obtain ⟨i, e, o, now, counts, rfl, he, hpc, ho, hheld, rfl⟩ :=
        hstep.completed hc hi hcompleted
      have hk : e.shardId = k := (ScanShard.held_iff.mp hheld).1.symm.trans (Table.get_key hr)
      by_contra herror
      rcases (r.error_finish o).mp (Option.isSome_iff_ne_none.mpr herror) with hne | hsome
      · exact hne ho
      · exact hnot k ⟨r, hr, hsome⟩ ⟨o, by simp [State.finishes, he, hpc, hk], ho⟩
    · rw [hnew.blank]

end

/-- Completed shards keep no residue of earlier attempts throughout a run exactly when no
execution completes a shard after an execution has given it an error. -/
theorem residue_free_iff (settings : Settings) (scopes : Table InventoryScope)
    (profiles : Table ScanProfile) (tr : List (Transition State Action)) (t : State)
    (h : Run settings (State.initial scopes profiles) tr t) :
    (∀ x ∈ tr, x.post.ResidueFree) ↔
      tr.Pairwise fun x y => ∀ k, Fails k x → ¬ Completes k y := by
  refine h.posts_iff_pairwise (fun _ _ hr => absurd (Table.get_mem hr) List.not_mem_nil) ?_
  intro earlier x hearlier hs hfree
  have hrun : Run settings (State.initial scopes profiles) (earlier ++ [x]) x.post :=
    hearlier.snoc hs
  rw [residue_step (copies_run hearlier) (intents_run hearlier) hs (tidied_run hrun) hfree]
  simp only [hasError_iff_fails hearlier]
  constructor
  · exact fun hnot y hy k hfails => hnot k ⟨y, hy, hfails⟩
  · intro hnot k hfailed
    obtain ⟨y, hy, hfails⟩ := hfailed
    exact hnot y hy k hfails

namespace Demo

/-- The first attempt of the shard raises and is retried, and the second completes it. -/
def secondAttempt : List Action :=
  running ++ [.exit, .recheck, .fail "S3Error: timeout"].map (Action.worker 0) ++
    finish 0 0 ++ dispatch 1 "t2" "e2" (seconds 60) ++ publish 1 (seconds 60) ++
    begin 1 "s1" "t2" (seconds 60) ++ scan 1 ++ finish 1 (seconds 120)

end Demo

/-- The error of the first attempt is shown beside the results of the second. -/
theorem completed_keeps_error :
    ¬ ∀ (settings : Settings) (scopes : Table InventoryScope) (profiles : Table ScanProfile)
      (tr : List (Transition State Operation)) (t : State),
      Path (State.operate settings) (State.initial scopes profiles) tr t → t.ResidueFree := by
  intro hall
  have hrun : (runAll (State.operate {}) Demo.start (Demo.secondAttempt.map .single)).map
      (fun t => (t.db.shards.get "s1").map fun r => (r.status, r.error)) =
      some (some (.completed, some "S3Error: timeout")) := by
    decide +kernel
  obtain ⟨tr, t, hp, hobs⟩ := Path.of_runAll_map hrun
  obtain ⟨r, hr, hrow⟩ := Option.map_eq_some_iff.mp hobs
  obtain ⟨hcompleted, herror⟩ := Prod.mk.inj hrow
  have hnone := (hall {} _ _ tr t hp "s1" r hr hcompleted).error
  rw [herror] at hnone
  cases hnone

/-- The first attempt is lost and its lease recovered, and the second completes the shard. -/
theorem residue_free_recovered :
    ∃ tr t, Run {} Demo.start tr t ∧ (∀ x ∈ tr, x.post.ResidueFree) ∧
      (t.db.shards.get "s1").map (fun r => (r.status, r.attempts)) = some (.completed, 2) := by
  have hrun : (runWhile (State.step {})
      (fun s a => (s.finishes a).all fun f => f.2.status = .completed) Demo.start
      (Demo.running ++ Demo.replace (seconds 7200) ++ Demo.scan 1 ++
        Demo.finish 1 (seconds 7260))).map
        (fun t => (t.db.shards.get "s1").map fun r => (r.status, r.attempts)) =
          some (some (.completed, 2)) := by
    decide +kernel
  obtain ⟨tr, t, hp, halong, hobs⟩ := Path.of_runWhile_map hrun
  have hnone : ∀ x ∈ tr, ∀ k, ¬ Fails k x := by
    intro x hx k hfails
    obtain ⟨o, ho, hne⟩ := hfails
    have hall : ((x.pre.finishes x.act).all fun f => f.2.status = .completed) = true := halong x hx
    rw [ho, Option.all_some, decide_eq_true_eq] at hall
    exact hne hall
  refine ⟨tr, t, hp, (residue_free_iff {} _ _ tr t hp).mpr ?_, hobs⟩
  exact List.pairwise_of_forall_mem_list fun x hx _ _ k hfails => absurd hfails (hnone x hx k)

end TransportLookout
