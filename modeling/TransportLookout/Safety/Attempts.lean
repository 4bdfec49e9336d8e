/-
The attempt limit.

A claim counts an attempt, and the exception handler of `execute_shard` is the
only place that compares the count with the limit.  A worker that dies leaves
the comparison to no one: the recovery queues the shard again whatever its
count.  While no recovery does that to a shard at the limit, the limit holds.
-/
import TransportLookout.Safety.Loaded

namespace TransportLookout

open Relational Trace

/-- A recovery queues only shards that have attempts left. -/
def State.withinLimit (settings : Settings) (s : State) : Action → Bool
  | .commitRecovery p => ∀ stale ∈ s.recoveries[p]?, ∀ l ∈ stale,
      ∀ r ∈ s.db.shards.get l.id, r.attempts < settings.maxShardAttempts
  | _ => true

/-- A claim of the shard. -/
def claimsShard (k : Uuid) (x : Transition State Action) : Bool :=
  match x.act with
  | .deliver shardId token workerId now =>
    shardId = k && (x.pre.db.claimLease shardId token workerId now).isSome
  | _ => false

def ShardStatus.waiting : ShardStatus → Bool
  | .queued | .leased => true
  | _ => false

structure Limited (settings : Settings) (s : State) : Prop where
  attempts : ∀ k r, s.db.shards.get k = some r → r.attempts ≤ settings.maxShardAttempts
  waiting : ∀ k r, s.db.shards.get k = some r → r.status.waiting = true →
    r.attempts < settings.maxShardAttempts
  /-- The cached shard of an owner has the attempts of the row. -/
  cached : ∀ e ∈ s.executions, ∀ l r, e.shard = some l → e.owns s.db = true →
    s.db.shards.get e.shardId = some r → l.attempts = r.attempts
  retry : ∀ e ∈ s.executions, ∀ o counts, e.pc = .finishing o counts → o.status = .queued →
    ∃ l, e.shard = some l ∧ l.attempts < settings.maxShardAttempts

section
variable {settings : Settings} {s s' : State} {a : Action} {r r' : ScanShard}

/-- Only a claim counts an attempt. -/
theorem ShardStep.attempts (h : ShardStep settings s a r r') :
    r'.attempts = r.attempts ∨
      ∃ shardId token workerId now, a = .deliver shardId token workerId now ∧
        r.held shardId token .leased = true ∧ r' = r.claimed workerId now := by
  cases h with
  | lease => exact Or.inl rfl
  | bind => exact Or.inl (writeBack_self _ _)
  | recover => exact Or.inl (writeBack_self _ _)
  | cancel => exact Or.inl (writeBack_self _ _)
  | claim _ hheld => exact Or.inr ⟨_, _, _, _, rfl, hheld, rfl⟩
  | beat => exact Or.inl rfl
  | @finish _ _ _ o => cases o <;> exact Or.inl rfl

/-- A waiting row after a step was waiting, was re-queued by a recovery, or was
put back by an execution that had attempts left. -/
theorem waiting_step (hc : Copies s) (hf : Limited settings s)
    (hok : s.withinLimit settings a = true) {k : Uuid} (hr : s.db.shards.get k = some r)
    (h : ShardStep settings s a r r') (hw : r'.status.waiting = true) :
    r'.attempts < settings.maxShardAttempts := by
  have hrk : r.id = k := Table.get_key hr
  cases h with
  | lease _ _ _ _ hchosen _ =>
    have hq := (Db.mem_dispatchableShards hchosen).2.2
    exact hf.waiting k r hr (by rw [hq]; rfl)
  | bind =>
    rw [ScanShard.writeBack_bound] at hw ⊢
    exact hf.waiting k r hr hw
  | recover hp hl hid =>
    rw [(ScanShard.writeBack_requeued (hc.stale _ (List.mem_of_getElem? hp) _ hl) r).2]
    exact of_decide_eq_true hok _ hp _ hl r (Db.get_id hr hid)
  | cancel hp hl hid =>
    rw [ScanShard.writeBack_cancelled (hc.selected _ (List.mem_of_getElem? hp) _ hl).1] at hw
    cases hw
  | claim => cases hw
  | beat => exact hf.waiting k r hr hw
  | @finish i e b o _ he ho hheld =>
    obtain ⟨hid, hrunning, ht⟩ := ScanShard.held_iff.mp hheld
    have hmem : e ∈ s.executions := List.mem_of_getElem? he
    have hown : e.owns s.db = true :=
      Db.currentLease_iff.mpr ⟨r, by rw [← hid, hrk]; exact hr, hrunning, ht⟩
    have hqueued : o.status = .queued := by
      cases o with
      | retry => rfl
      | _ => cases hw
    obtain ⟨l, hl, hlt⟩ : ∃ l, e.shard = some l ∧ l.attempts < settings.maxShardAttempts := by
      rcases ho with ⟨-, -, ho⟩ | ⟨_, _, -, hpc⟩
      · exact absurd hqueued (Execution.abandonOutcome_status ho)
      · exact hf.retry e hmem o _ hpc hqueued
    have hsame := hf.cached e hmem l r hl hown (by rw [← hid, hrk]; exact hr)
    have hkeep : (r.finish o).attempts = r.attempts := by cases o <;> rfl
    rw [hkeep, ← hsame]
    exact hlt

theorem limited_step (hmax : 1 ≤ settings.maxShardAttempts) (hc : Copies s) (hfence : Fenced s)
    (hf : Limited settings s) (hok : s.withinLimit settings a = true)
    (h : s.step settings a = some s') : Limited settings s' where
  attempts := by
    intro k r' hr'
    rcases shard_cases h hr' with ⟨r, hr, rfl | hstep⟩ | hnew
    · exact hf.attempts k r' hr
    · rcases hstep.attempts with hsame | ⟨_, _, _, _, -, hheld, rfl⟩
      · rw [hsame]
        exact hf.attempts k r hr
      · have hleased := (ScanShard.held_iff.mp hheld).2.1
        exact hf.waiting k r hr (by rw [hleased]; rfl)
    · rw [hnew.blank]
      exact Nat.zero_le _
  waiting := by
    intro k r' hr' hw
    rcases shard_cases h hr' with ⟨r, hr, rfl | hstep⟩ | hnew
    · exact hf.waiting k r' hr hw
    · exact waiting_step hc hf hok hr hstep hw
    · rw [hnew.blank]
      exact hmax
  cached := cached_attempts hc hfence hf.cached h
  retry := by
    refine executions_step h hf.retry ?_ fun _ _ o counts hpc => by cases hpc
    intro e he i b e' _ hstep o counts hpc ho
    obtain ⟨hshard, -, hpc'⟩ := (Execution.step_change hstep).finishing o counts hpc
    rw [hshard]
    rcases hpc' with ⟨-, hpc'⟩ | ⟨now, -, hout, -⟩
    · exact hf.retry e he o none hpc' ho
    · exact Execution.outcome_retry hout ho

theorem limited_start (scopes : Table InventoryScope) (profiles : Table ScanProfile) :
    Limited settings (State.initial scopes profiles) where
  attempts := fun _ _ hr => absurd (Table.get_mem hr) List.not_mem_nil
  waiting := fun _ _ hr => absurd (Table.get_mem hr) List.not_mem_nil
  cached := fun _ he => absurd he List.not_mem_nil
  retry := fun _ he => absurd he List.not_mem_nil

theorem limited_run {scopes : Table InventoryScope} {profiles : Table ScanProfile}
    {tr : List (Transition State Action)} {t : State} (hmax : 1 ≤ settings.maxShardAttempts)
    (h : Run settings (State.initial scopes profiles) tr t)
    (hok : Along (State.withinLimit settings) tr) : Limited settings t := by
  have hinv : (Copies t ∧ Fenced t) ∧ Limited settings t :=
    Path.invariant (I := fun s => (Copies s ∧ Fenced s) ∧ Limited settings s) h
      ⟨⟨copies_start _, fenced_start fun _ hr => absurd hr List.not_mem_nil⟩,
        limited_start scopes profiles⟩
      (fun _ _ _ ⟨⟨hc, hf⟩, hl⟩ hC hs =>
        ⟨⟨copies_step hc hs, fenced_step hc hf hs⟩, limited_step hmax hc hf hl hC hs⟩) hok
  exact hinv.2

/-- A step counts an attempt of the shard when it claims it, and not otherwise. -/
theorem attempts_step (h : s.step settings a = some s') (k : Uuid) :
    ((s'.db.shards.get k).map ScanShard.attempts).getD 0 =
      ((s.db.shards.get k).map ScanShard.attempts).getD 0 +
        if claimsShard k ⟨s, a, s'⟩ = true then 1 else 0 := by
  by_cases hclaims : claimsShard k ⟨s, a, s'⟩ = true
  · rw [if_pos hclaims]
    cases a with
    | deliver shardId token workerId now =>
      rw [claimsShard, Bool.and_eq_true, decide_eq_true_eq] at hclaims
      obtain ⟨rfl, hsome⟩ := hclaims
      obtain ⟨-, ⟨hnone, -⟩ | ⟨db, hdb, rfl⟩⟩ := step_deliver h
      · rw [show s.db.claimLease shardId token workerId now = none from hnone] at hsome
        cases hsome
      · obtain ⟨⟨r, hr, hheld⟩, -, hget⟩ := Db.claimLease_eq_some hdb
        rw [hget, hr, Option.map_some, if_pos hheld]
        rfl
    | _ => cases hclaims
  · rw [if_neg hclaims, Nat.add_zero]
    cases hr : s.db.shards.get k with
    | none =>
      cases hr' : s'.db.shards.get k with
      | none => rfl
      | some r' =>
        rw [(shard_new h hr hr').blank]
        rfl
    | some r =>
      obtain ⟨r', hr', hcase⟩ := shard_step h hr
      rw [hr']
      rcases hcase with rfl | hstep
      · rfl
      · rcases hstep.attempts with hsame | ⟨shardId, token, w, now, rfl, hheld, -⟩
        · exact hsame
        · have hid : shardId = k := (ScanShard.held_iff.mp hheld).1.symm.trans (Table.get_key hr)
          subst hid
          exfalso
          apply hclaims
          show (decide (shardId = shardId) &&
            (s.db.claimLease shardId token w now).isSome) = true
          rw [decide_eq_true rfl, Bool.true_and]
          exact Db.claimLease_of_held hr hheld w now

/-- Over a stretch of a run, the attempts of a shard grow by its claims. -/
theorem attempts_path {tr : List (Transition State Action)} {t : State}
    (h : Path (State.step settings) s tr t) (k : Uuid) :
    ((t.db.shards.get k).map ScanShard.attempts).getD 0 =
      ((s.db.shards.get k).map ScanShard.attempts).getD 0 + tr.countP (claimsShard k) := by
  induction h with
  | nil => rfl
  | snoc _ hs ih =>
    rw [List.countP_append, List.countP_singleton, ← Nat.add_assoc, ← ih]
    exact attempts_step hs k

/-- The attempts of a row count the claims of its shard. -/
theorem attempts_eq_claims {scopes : Table InventoryScope} {profiles : Table ScanProfile}
    {tr : List (Transition State Action)} {t : State}
    (h : Run settings (State.initial scopes profiles) tr t) (k : Uuid) :
    ((t.db.shards.get k).map ScanShard.attempts).getD 0 = tr.countP (claimsShard k) := by
  rw [attempts_path h k]
  exact Nat.zero_add _

end

/-- What bounded execution says of a run and the state it ends in. -/
structure AttemptLimit (settings : Settings) (tr : List (Transition State Action)) (t : State) :
    Prop where
  claims : ∀ k, tr.countP (claimsShard k) ≤ settings.maxShardAttempts
  attempts : ∀ k r, t.db.shards.get k = some r →
    r.attempts = tr.countP (claimsShard k) ∧ r.attempts ≤ settings.maxShardAttempts
  spent : ∀ k r, t.db.shards.get k = some r → settings.maxShardAttempts ≤ r.attempts →
    r.status ≠ .leased

theorem bounded_execution (settings : Settings) (hmax : 1 ≤ settings.maxShardAttempts)
    (scopes : Table InventoryScope) (profiles : Table ScanProfile)
    (tr : List (Transition State Action)) (t : State)
    (h : Run settings (State.initial scopes profiles) tr t)
    (hok : Along (State.withinLimit settings) tr) : AttemptLimit settings tr t := by
  have hl := limited_run hmax h hok
  have hcount : ∀ k r, t.db.shards.get k = some r → r.attempts = tr.countP (claimsShard k) := by
    intro k r hr
    have heq := attempts_eq_claims h k
    rw [hr] at heq
    exact heq
  refine ⟨fun k => ?_, fun k r hr => ⟨hcount k r hr, hl.attempts k r hr⟩, ?_⟩
  · cases hr : t.db.shards.get k with
    | none =>
      have heq := attempts_eq_claims h k
      rw [hr] at heq
      rw [← heq]
      exact Nat.zero_le _
    | some r =>
      rw [← hcount k r hr]
      exact hl.attempts k r hr
  · intro k r hr hspent hleased
    have hlt := hl.waiting k r hr (by rw [hleased]; rfl)
    omega

namespace Demo

/-- A worker claims the shard and dies, and its lease is recovered. -/
def lost (n : Nat) (token eventId : Uuid) (now : DateTime) : List Action :=
  dispatch n token eventId now ++ publish n now ++
    [.deliver "s1" token "worker" now, .loadStale (now + seconds 7200), .commitRecovery n]

end Demo

/-- With the default limit of three, a fourth worker claims the shard. -/
theorem recovery_exceeds_limit :
    ¬ ∀ (settings : Settings), 1 ≤ settings.maxShardAttempts →
      ∀ (scopes : Table InventoryScope) (profiles : Table ScanProfile)
        (tr : List (Transition State Action)) (t : State),
        Run settings (State.initial scopes profiles) tr t → ∀ k r,
          t.db.shards.get k = some r → r.attempts ≤ settings.maxShardAttempts := by
  intro hall
  have hrun : (runAll (State.step {}) Demo.start (Demo.createRun ++ Demo.lost 0 "t1" "e1" 0 ++
      Demo.lost 1 "t2" "e2" (seconds 7200) ++ Demo.lost 2 "t3" "e3" (seconds 14400) ++
      Demo.lost 3 "t4" "e4" (seconds 21600))).map
        (fun t => (t.db.shards.get "s1").map ScanShard.attempts) = some (some 4) := by
    decide +kernel
  obtain ⟨tr, t, hp, hobs⟩ := Path.of_runAll_map hrun
  obtain ⟨r, hr, hfour⟩ := Option.map_eq_some_iff.mp hobs
  have hle := hall {} (by decide) _ _ tr t hp "s1" r hr
  rw [hfour] at hle
  exact absurd hle (by decide)

/-- Two lost workers stay within the default limit. -/
theorem bounded_execution_recovered :
    ∃ tr t, Run {} Demo.start tr t ∧ AttemptLimit {} tr t ∧
      (t.db.shards.get "s1").map ScanShard.attempts = some 2 := by
  have hrun : (runWhile (State.step {}) (State.withinLimit {}) Demo.start (Demo.createRun ++
      Demo.lost 0 "t1" "e1" 0 ++ Demo.lost 1 "t2" "e2" (seconds 7200))).map
        (fun t => (t.db.shards.get "s1").map ScanShard.attempts) = some (some 2) := by
    decide +kernel
  obtain ⟨tr, t, hp, hok, hobs⟩ := Path.of_runWhile_map hrun
  exact ⟨tr, t, hp, bounded_execution {} (by decide) _ _ tr t hp hok, hobs⟩

end TransportLookout
