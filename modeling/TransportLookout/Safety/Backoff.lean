/-
Attempts and backoff.

Operations are atomic here, and all of them read one clock, which never goes
back.  An exception caught by the retry handler, the handler and its commit are
one operation.  Whether the handler goes through depends on the statement that
raised, on what the database takes, and on whether it answers the handler.  What
the handler puts back is due no earlier than the retry instant, and a dispatch
leases no shard before it is due; a dead-lettered shard is never claimed again.

A task the handler's own exception ends takes no further step: its index joins
`crashed`.
-/
import TransportLookout.Safety.Attempts
import TransportLookout.Safety.Cancellation
import TransportLookout.System.Scanning

namespace TransportLookout

open Relational Trace

/-! ## One clock -/

def WorkerAction.time : WorkerAction → Option DateTime
  | .start now | .heartbeat now | .finish now | .commitFinish now => some now
  | _ => none

def Action.time : Action → Option DateTime
  | .lease _ _ _ now | .dropEvent _ now | .settleEvent _ now | .loadStale now
  | .commitCancel _ now | .finalizeNext _ now | .deliver _ _ _ now => some now
  | .worker _ a => a.time
  | _ => none

def Operation.time : Operation → Option DateTime
  | .single a => a.time
  | .recover now | .cancel _ _ now => some now

structure Clocked where
  base : State
  clock : DateTime
  crashed : List Nat := []

inductive ClockedAction
  | operation (op : Operation)
  /-- A statement of the `try` block raises; `answers` says that the database is
  there for the handler's own statements. -/
  | fail (i : Nat) (statement : Statement) (exc : Exc) (answers : Bool) (now : DateTime)
deriving DecidableEq, Repr

/-- A crashed task does nothing more, and no one enters the handler half way. -/
def Operation.permitted (crashed : List Nat) : Operation → Bool
  | .single (.worker _ (.fail _)) => false
  | .single (.worker i _) => i ∉ crashed
  | _ => true

/-- The handler's UPDATE and its commit go through: the session still works, the
retry instant can be computed, and the database takes the error and the pending
rows.  `takes` are the texts it takes in a column of type `Text`. -/
def Execution.recovers (p : Platform) (takes : String → Bool) (settings : Settings) (db : Db)
    (statement : Statement) (exc : Exc) (now : DateTime) (e : Execution) : Bool :=
  !statement.session && e.retryFits settings now && takes exc.text && e.accepted p db

namespace Clocked

variable (p : Platform) (takes : String → Bool)

def step (settings : Settings) (s : Clocked) : ClockedAction → Option Clocked
  | .operation op =>
    if op.permitted s.crashed ∧ ∀ now ∈ op.time, s.clock ≤ now then
      (s.base.operate settings op).map fun base =>
        { s with base := base, clock := op.time.getD s.clock }
    else none
  | .fail i statement exc answers now => do
    let e ← s.base.executions[i]?
    if e.reaches statement ∧ i ∉ s.crashed ∧ s.clock ≤ now then
      let crash : Clocked := { s with clock := now, crashed := i :: s.crashed }
      if answers && e.recovers p takes settings s.base.db statement exc now then
        match runAll (State.step settings) s.base
            ((Execution.handler exc.text now).map (Action.worker i)) with
        | some base => some { s with base := base, clock := now }
        | none => some crash
      else some crash
    else none

/-- An owner that fails has a handler that goes through. -/
def handles (settings : Settings) (s : Clocked) : ClockedAction → Bool
  | .fail i statement exc answers now => (s.base.executions[i]?).all fun e =>
      !e.owns s.base.db ||
        (answers && e.recovers p takes settings s.base.db statement exc now)
  | _ => true

end Clocked

/-- A claim of shard `k`. -/
def claimedBy (k : Uuid) (x : Transition Clocked ClockedAction) : Bool :=
  match x.act with
  | .operation (.single a) => claimsShard k ⟨x.pre.base, a, x.post.base⟩
  | _ => false

/-- The instant at which a dispatch leases shard `k`, if the step is one. -/
def leasedAt (k : Uuid) (x : Transition Clocked ClockedAction) : Option DateTime :=
  match x.act with
  | .operation (.single (.lease p _ _ now)) =>
    if (x.pre.base.dispatches[p]?).any fun d =>
        (x.pre.base.db.dispatchableShards d.runId now d.capacity).any fun r => r.id = k then
      some now
    else none
  | _ => none

/-- What becomes of shard `k` when its owner fails at `now` after `before`, in
state `s` and in the steps `after`. -/
def Settles (settings : Settings) (k : Uuid) (now : DateTime) (s : Clocked)
    (before after : List (Transition Clocked ClockedAction)) : Prop :=
  ∃ r, s.base.db.shards.get k = some r ∧
    if settings.maxShardAttempts ≤ before.countP (claimedBy k) then
      r.status = .deadLetter ∧ ∀ y ∈ after, claimedBy k y = false
    else
      r.status = .queued ∧
      r.retryNotBefore = some (now + seconds (2 ^ before.countP (claimedBy k) * 30)) ∧
      ∀ y ∈ after, ∀ time ∈ leasedAt k y,
        now + seconds (2 ^ before.countP (claimedBy k) * 30) ≤ time

/-- Every failure of an owner settles its shard. -/
def Backoff (settings : Settings) (tr : List (Transition Clocked ClockedAction)) : Prop :=
  ∀ before x after, tr = before ++ x :: after → ∀ i statement exc answers now e,
    x.act = .fail i statement exc answers now → x.pre.base.executions[i]? = some e →
    e.owns x.pre.base.db = true → Settles settings e.shardId now x.post before after

/-! ## The system's own steps -/

section
variable {p : Platform} {takes : String → Bool} {settings : Settings} {s s' : Clocked}

theorem clocked_operation {op : Operation} (h : s.step p takes settings (.operation op) = some s') :
    op.permitted s.crashed = true ∧ (∀ now ∈ op.time, s.clock ≤ now) ∧
      s.base.operate settings op = some s'.base ∧ s'.clock = op.time.getD s.clock := by
  rw [Clocked.step] at h
  split at h
  · next hg =>
    obtain ⟨base, hbase, rfl⟩ := Option.map_eq_some_iff.mp h
    exact ⟨hg.1, hg.2, hbase, rfl⟩
  · cases h

/-- The handler goes through, or nothing is committed. -/
theorem clocked_fail {i : Nat} {statement : Statement} {exc : Exc} {answers : Bool}
    {now : DateTime} (h : s.step p takes settings (.fail i statement exc answers now) = some s') :
    ∃ e, s.base.executions[i]? = some e ∧ e.reaches statement = true ∧ s.clock ≤ now ∧
      s'.clock = now ∧
      (((answers && e.recovers p takes settings s.base.db statement exc now) = true ∧
        runAll (State.step settings) s.base
          ((Execution.handler exc.text now).map (Action.worker i)) = some s'.base) ∨
      (s'.base = s.base ∧
        ((answers && e.recovers p takes settings s.base.db statement exc now) = false ∨
          runAll (State.step settings) s.base
            ((Execution.handler exc.text now).map (Action.worker i)) = none))) := by
  simp only [Clocked.step] at h
  obtain ⟨e, he, h⟩ := Option.bind_eq_some_iff.mp h
  split at h
  · next hg =>
    refine ⟨e, he, hg.1, hg.2.2, ?_⟩
    split at h
    · next hyes =>
      split at h
      · next base hbase =>
        cases h
        exact ⟨rfl, Or.inl ⟨hyes, hbase⟩⟩
      · next hnone =>
        cases h
        exact ⟨rfl, Or.inr ⟨rfl, Or.inr hnone⟩⟩
    · next hno =>
      cases h
      exact ⟨rfl, Or.inr ⟨rfl, Or.inl (Bool.eq_false_iff.mpr hno)⟩⟩
  · cases h

/-- A clocked step is a stretch of the system's own steps. -/
theorem clocked_path {a : ClockedAction} (h : s.step p takes settings a = some s') :
    ∃ tr, Path (State.step settings) s.base tr s'.base := by
  cases a with
  | operation op => exact operate_path (clocked_operation h).2.2.1
  | fail i statement exc answers now =>
    obtain ⟨_, -, -, -, -, ⟨-, hrun⟩ | ⟨hsame, -⟩⟩ := clocked_fail h
    · obtain ⟨tr, hp, -⟩ := Path.of_runAll hrun
      exact ⟨tr, hp⟩
    · rw [hsame]
      exact ⟨[], .nil⟩

/-- The clock does not go back. -/
theorem clock_step {a : ClockedAction} (h : s.step p takes settings a = some s') :
    s.clock ≤ s'.clock := by
  cases a with
  | operation op =>
    obtain ⟨-, hle, -, hclock⟩ := clocked_operation h
    rw [hclock]
    cases ht : op.time with
    | none => exact Int.le_refl _
    | some now => exact hle now ht
  | fail i statement exc answers now =>
    obtain ⟨_, -, -, hle, hclock, -⟩ := clocked_fail h
    rw [hclock]
    exact hle

end

/-! ## Attempts -/

def Action.delivers : Action → Bool
  | .deliver .. => true
  | _ => false

theorem claims_none {tr : List (Transition State Action)} {as : List Action}
    (hact : tr.map Transition.act = as) (has : as.all fun a => !a.delivers) (k : Uuid) :
    tr.countP (claimsShard k) = 0 := by
  refine List.countP_eq_zero.mpr fun x hx hclaims => ?_
  have hno := List.all_eq_true.mp has x.act (hact ▸ List.mem_map.mpr ⟨x, hx, rfl⟩)
  rw [claimsShard] at hclaims
  split at hclaims
  · next hdeliver =>
    rw [hdeliver] at hno
    cases hno
  · cases hclaims

section
variable {p : Platform} {takes : String → Bool} {settings : Settings} {s s' : Clocked}

/-- What is no delivery counts no attempt. -/
theorem attempts_runAll {b b' : State} {as : List Action} (has : as.all fun a => !a.delivers)
    (h : runAll (State.step settings) b as = some b') (k : Uuid) :
    ((b'.db.shards.get k).map ScanShard.attempts).getD 0 =
      ((b.db.shards.get k).map ScanShard.attempts).getD 0 := by
  obtain ⟨tr, hp, hact⟩ := Path.of_runAll h
  rw [attempts_path hp k, claims_none hact has, Nat.add_zero]

theorem attempts_clocked {a : ClockedAction} (h : s.step p takes settings a = some s') (k : Uuid) :
    ((s'.base.db.shards.get k).map ScanShard.attempts).getD 0 =
      ((s.base.db.shards.get k).map ScanShard.attempts).getD 0 +
        if claimedBy k ⟨s, a, s'⟩ = true then 1 else 0 := by
  cases a with
  | operation op =>
    obtain ⟨-, -, hop, -⟩ := clocked_operation h
    cases op with
    | single a => exact attempts_step (operate_single hop).2 k
    | recover now => exact attempts_runAll rfl hop k
    | cancel runId actor now => exact attempts_runAll rfl hop k
  | fail i statement exc answers now =>
    obtain ⟨_, -, -, -, -, ⟨-, hrun⟩ | ⟨hsame, -⟩⟩ := clocked_fail h
    · exact attempts_runAll rfl hrun k
    · rw [hsame]
      rfl

theorem attempts_claimed {tr : List (Transition Clocked ClockedAction)} {t : Clocked}
    (h : Path (Clocked.step p takes settings) s tr t)
    (h0 : ∀ k, s.base.db.shards.get k = none) (k : Uuid) :
    ((t.base.db.shards.get k).map ScanShard.attempts).getD 0 = tr.countP (claimedBy k) := by
  induction h with
  | nil =>
    rw [h0]
    rfl
  | snoc _ hs ih =>
    rw [List.countP_append, List.countP_singleton, ← ih]
    exact attempts_clocked hs k

end

/-! ## Shards no one holds -/

/-- The state is one the system reaches. -/
def Clocked.Reached (settings : Settings) (scopes : Table InventoryScope)
    (profiles : Table ScanProfile) (s : Clocked) : Prop :=
  ∃ tr, Run settings (State.initial scopes profiles) tr s.base

theorem Db.mem_dispatchableShards_due {db : Db} {runId : Uuid} {now : DateTime} {capacity : Nat}
    {r : ScanShard} (h : r ∈ db.dispatchableShards runId now capacity) :
    ∀ t ∈ r.retryNotBefore, t ≤ now := by
  rw [Db.dispatchableShards] at h
  have hsel := (List.mem_insertionSort _).mp (List.mem_of_mem_take h)
  obtain ⟨-, hp⟩ := Table.mem_select.mp hsel
  have hdue := (Bool.and_eq_true_iff.mp hp).2
  intro t ht
  rw [show r.retryNotBefore = some t from ht] at hdue
  exact of_decide_eq_true hdue

section
variable {p : Platform} {takes : String → Bool} {settings : Settings}
  {scopes : Table InventoryScope} {profiles : Table ScanProfile}

/-- A shard that is neither leased nor running is rewritten by a lease only. -/
theorem ShardStep.idle {s : State} {a : Action} {r r' : ScanShard} (hi : Intents s)
    (h : ShardStep settings s a r r') (ha : a.partOfOperation = false)
    (hidle : r.status.inFlight = false) :
    ∃ p tokens eventIds now d, a = .lease p tokens eventIds now ∧ s.dispatches[p]? = some d ∧
      r ∈ s.db.dispatchableShards d.runId now d.capacity := by
  have hheld : ∀ {shardId token : Uuid} {status : ShardStatus}, status.inFlight = true →
      r.held shardId token status = true → False := by
    intro shardId token status hflight hheld
    rw [(ScanShard.held_iff.mp hheld).2.1, hflight] at hidle
    cases hidle
  cases h with
  | lease hd _ _ _ hchosen _ => exact ⟨_, _, _, _, _, rfl, hd, hchosen⟩
  | bind hp _ hphase => exact absurd hphase (hi.fenced hp _)
  | recover => cases ha
  | cancel => cases ha
  | claim _ h => exact (hheld rfl h).elim
  | beat _ h => exact (hheld rfl h).elim
  | finish _ _ h => exact (hheld rfl h).elim

/-- The handler of another shard leaves an idle one alone. -/
theorem idle_handler {s : State} {s' : State} {i : Nat} {error : String} {now : DateTime}
    {tr₀ : List (Transition State Action)}
    (hreach : Run settings (State.initial scopes profiles) tr₀ s)
    (h : runAll (State.step settings) s ((Execution.handler error now).map (Action.worker i)) =
      some s') {k : Uuid} {r : ScanShard} (hr : s.db.shards.get k = some r)
    (hidle : r.status.inFlight = false) : s'.db.shards.get k = some r := by
  obtain ⟨tr, hp, hact⟩ := Path.of_runAll h
  refine hp.kept (Q := fun u => u.db.shards.get k = some r) ?_ hr
  intro x hx hrow
  obtain ⟨b, hb⟩ : ∃ b, x.act = .worker i b := by
    have hmem : x.act ∈ (Execution.handler error now).map (Action.worker i) :=
      hact ▸ List.mem_map.mpr ⟨x, hx, rfl⟩
    obtain ⟨b, -, hb⟩ := List.mem_map.mp hmem
    exact ⟨b, hb.symm⟩
  obtain ⟨_, _, -, hpre, hstep, -⟩ := hp.split_of_mem hx
  rw [hb] at hstep
  obtain ⟨r', hr', rfl | hrewrite⟩ := shard_step hstep hrow
  · exact hr'
  · obtain ⟨_, _, _, _, _, ha, -⟩ :=
      hrewrite.idle (intents_run (hreach.trans hpre)) rfl hidle
    cases ha

/-- What becomes of a shard no one holds: it stays, is cancelled, or is leased
when it is due. -/
theorem idle_step {s s' : Clocked} {a : ClockedAction}
    (hreach : s.Reached settings scopes profiles) (h : s.step p takes settings a = some s')
    {k : Uuid} {r : ScanShard} (hr : s.base.db.shards.get k = some r) (hidle : r.status.inFlight = false) :
    s'.base.db.shards.get k = some r ∨ (r.status = .queued ∧
      ((∃ r', s'.base.db.shards.get k = some r' ∧ r'.status = .cancelled) ∨
        ∃ now, s'.clock = now ∧ ∀ t ∈ r.retryNotBefore, t ≤ now)) := by
  obtain ⟨tr₀, hrun₀⟩ := hreach
  have hflush : ∀ {loaded : List ScanShard} {assign : ScanShard → ScanShard} {db : Db},
      db.shards.get k = some r → (∀ l ∈ loaded, l.id = r.id → l = r) →
      (r ∈ loaded → False) → (db.flushShards loaded assign).shards.get k = some r := by
    intro loaded assign db hdb hsame hnot
    obtain ⟨r', hr', rfl | ⟨l, hl, hid, -⟩⟩ := Db.get_flushShards_cases loaded assign hdb
    · exact hr'
    · exact (hnot (hsame l hl hid ▸ hl)).elim
  cases a with
  | operation op =>
    obtain ⟨-, -, hop, hclock⟩ := clocked_operation h
    cases op with
    | single a =>
      obtain ⟨hpart, hstep⟩ := operate_single hop
      obtain ⟨r', hr', rfl | hrewrite⟩ := shard_step hstep hr
      · exact Or.inl hr'
      · obtain ⟨_, _, _, now, _, rfl, -, hchosen⟩ :=
          hrewrite.idle (intents_run hrun₀) hpart hidle
        exact Or.inr ⟨(Db.mem_dispatchableShards hchosen).2.2,
          Or.inr ⟨now, hclock, Db.mem_dispatchableShards_due hchosen⟩⟩
    | recover now =>
      left
      rw [operate_recover hop]
      refine hflush hr ?_ ?_
      · intro l hl hid
        exact s.base.db.shards.eq_of_key (Db.mem_staleShards hl).1 (Table.get_mem hr) hid
      · intro hmem
        rw [ShardStatus.inFlight_iff.mpr (Db.mem_staleShards hmem).2] at hidle
        cases hidle
    | cancel runId actor now =>
      obtain ⟨run, -, -, hdb⟩ := operate_cancel hop
      have hrow : (s.base.db.flushRun run (Db.cancelledRun run now)).shards.get k = some r := hr
      obtain ⟨r', hr', hcase⟩ := Db.get_flushShards_cases (s.base.db.cancellableShards run.id)
        (fun l => { l with status := .cancelled }) hrow
      have hget : s'.base.db.shards.get k = some r' := by
        rw [hdb]
        exact hr'
      rcases hcase with rfl | ⟨l, hl, hid, rfl⟩
      · exact Or.inl hget
      · right
        obtain ⟨hmem, -, hstatus⟩ := Db.mem_cancellableShards.mp hl
        cases s.base.db.shards.eq_of_key hmem (Table.get_mem hr) hid
        rw [ScanShard.writeBack_cancelled hstatus] at hget
        rcases hstatus with hq | hleased
        · exact ⟨hq, Or.inl ⟨_, hget, rfl⟩⟩
        · rw [hleased] at hidle
          cases hidle
  | fail i statement exc answers now =>
    left
    obtain ⟨_, -, -, -, -, ⟨-, hrun⟩ | ⟨hsame, -⟩⟩ := clocked_fail h
    · exact idle_handler hrun₀ hrun hr hidle
    · rw [hsame]
      exact hr

theorem reached_step {s s' : Clocked} {a : ClockedAction}
    (hreach : s.Reached settings scopes profiles) (h : s.step p takes settings a = some s') :
    s'.Reached settings scopes profiles := by
  obtain ⟨tr₀, hrun₀⟩ := hreach
  obtain ⟨tr, hp⟩ := clocked_path h
  exact ⟨tr₀ ++ tr, hrun₀.trans hp⟩

/-- A claimed shard was leased. -/
theorem claimedBy_leased {k : Uuid} {x : Transition Clocked ClockedAction}
    (h : claimedBy k x = true) :
    ∃ r, x.pre.base.db.shards.get k = some r ∧ r.status = .leased := by
  rw [claimedBy] at h
  split at h
  · rw [claimsShard] at h
    split at h
    · obtain ⟨hid, hsome⟩ := Bool.and_eq_true_iff.mp h
      cases of_decide_eq_true hid
      obtain ⟨db, hdb⟩ := Option.isSome_iff_exists.mp hsome
      obtain ⟨⟨r, hr, hheld⟩, -, -⟩ := Db.claimLease_eq_some hdb
      exact ⟨r, hr, (ScanShard.held_iff.mp hheld).2.1⟩
    · cases h
  · cases h

/-- A leased shard was queued and due, and the dispatch read the clock. -/
theorem leasedAt_due {k : Uuid} {x : Transition Clocked ClockedAction} {time : DateTime}
    (hs : x.pre.step p takes settings x.act = some x.post) (h : time ∈ leasedAt k x) :
    x.pre.clock ≤ time ∧ ∃ r, x.pre.base.db.shards.get k = some r ∧ r.status = .queued ∧
      ∀ t ∈ r.retryNotBefore, t ≤ time := by
  rw [leasedAt] at h
  split at h
  · next hact =>
    split at h
    · next hany =>
      cases h
      obtain ⟨d, -, hchosen⟩ := (Option.any_eq_true _ _).mp hany
      obtain ⟨r, hr, hid⟩ := List.any_eq_true.mp hchosen
      cases of_decide_eq_true hid
      obtain ⟨hmem, -, hstatus⟩ := Db.mem_dispatchableShards hr
      rw [hact] at hs
      refine ⟨(clocked_operation hs).2.1 time rfl, r, Table.get_of_mem hmem, hstatus, ?_⟩
      exact Db.mem_dispatchableShards_due hr
    · cases h
  · cases h

/-- A dead-lettered shard is never claimed again. -/
theorem dead_unclaimed {s t : Clocked} {tr : List (Transition Clocked ClockedAction)} {k : Uuid}
    {r : ScanShard} (h : Path (Clocked.step p takes settings) s tr t)
    (hreach : s.Reached settings scopes profiles) (hr : s.base.db.shards.get k = some r)
    (hdead : r.status = .deadLetter) : ∀ y ∈ tr, claimedBy k y = false := by
  intro y hy
  have hpre := (h.invariant_at (I := fun u => u.Reached settings scopes profiles ∧
    u.base.db.shards.get k = some r) (C := fun _ _ => true) ⟨hreach, hr⟩ ?_ (fun _ _ => rfl) hy).1
  · by_contra hclaimed
    obtain ⟨r', hr', hleased⟩ := claimedBy_leased (Bool.eq_true_of_not_eq_false hclaimed)
    rw [hpre.2] at hr'
    cases hr'
    rw [hdead] at hleased
    cases hleased
  · rintro u a u' ⟨hu, hrow⟩ - hs
    refine ⟨reached_step hu hs, ?_⟩
    rcases idle_step hu hs hrow (by rw [hdead]; rfl) with hsame | ⟨hq, -⟩
    · exact hsame
    · rw [hdead] at hq
      cases hq

/-- The shard waits for the instant `due`, or no dispatch may lease it before. -/
structure Waiting (k : Uuid) (due : DateTime) (s : Clocked) : Prop where
  until_due : due ≤ s.clock ∨ ∃ r, s.base.db.shards.get k = some r ∧
    (r.status = .cancelled ∨ r.status = .queued ∧ r.retryNotBefore = some due)

theorem waiting_kept {s s' : Clocked} {a : ClockedAction} {k : Uuid} {due : DateTime}
    (hreach : s.Reached settings scopes profiles) (hw : Waiting k due s)
    (h : s.step p takes settings a = some s') : Waiting k due s' := by
  rcases hw.until_due with hle | ⟨r, hr, hstatus⟩
  · exact ⟨Or.inl (Int.le_trans hle (clock_step h))⟩
  · have hidle : r.status.inFlight = false := by
      rcases hstatus with hc | ⟨hq, -⟩
      · rw [hc]
        rfl
      · rw [hq]
        rfl
    rcases idle_step hreach h hr hidle with hsame | ⟨hq, ⟨r', hr', hc⟩ | ⟨now, hclock, hdue⟩⟩
    · exact ⟨Or.inr ⟨r, hsame, hstatus⟩⟩
    · exact ⟨Or.inr ⟨r', hr', Or.inl hc⟩⟩
    · rcases hstatus with hc | ⟨-, hretry⟩
      · rw [hc] at hq
        cases hq
      · exact ⟨Or.inl (hclock ▸ hdue due hretry)⟩

/-- A shard that waits is leased no earlier than it is due. -/
theorem waiting_leased {s t : Clocked} {tr : List (Transition Clocked ClockedAction)} {k : Uuid}
    {due : DateTime} (h : Path (Clocked.step p takes settings) s tr t)
    (hreach : s.Reached settings scopes profiles) (hw : Waiting k due s) :
    ∀ y ∈ tr, ∀ time ∈ leasedAt k y, due ≤ time := by
  intro y hy time htime
  have hpre := (h.invariant_at (I := fun u => u.Reached settings scopes profiles ∧
    Waiting k due u) (C := fun _ _ => true) ⟨hreach, hw⟩
    (fun _ _ _ ⟨hu, hwu⟩ _ hs => ⟨reached_step hu hs, waiting_kept hu hwu hs⟩)
    (fun _ _ => rfl) hy).1
  obtain ⟨hclock, r, hr, hq, hdue⟩ := leasedAt_due (h.step_of_mem hy) htime
  rcases hpre.2.until_due with hle | ⟨r', hr', hstatus⟩
  · exact Int.le_trans hle hclock
  · rw [hr] at hr'
    cases hr'
    rcases hstatus with hc | ⟨-, hretry⟩
    · rw [hc] at hq
      cases hq
    · exact hdue due hretry

/-! ## The failure of an owner -/

theorem Execution.recovers_spec {db : Db} {e : Execution} {statement : Statement} {exc : Exc}
    {now : DateTime} (h : e.recovers p takes settings db statement exc now = true) :
    statement.session = false ∧ (e.flush db).isSome = true := by
  simp only [Execution.recovers, Execution.accepted, Bool.and_eq_true, Bool.not_eq_true'] at h
  exact ⟨h.1.1.1, h.2.2⟩

/-- What a failure leaves in the row of its owner, when the handler goes through. -/
theorem fail_handled {s s' : Clocked} {i : Nat} {e : Execution} {statement : Statement} {exc : Exc}
    {answers : Bool} {now : DateTime} (hreach : s.Reached settings scopes profiles)
    (h : s.step p takes settings (.fail i statement exc answers now) = some s')
    (he : s.base.executions[i]? = some e) (howns : e.owns s.base.db = true)
    (hk : s.handles p takes settings (.fail i statement exc answers now) = true) :
    ∃ r shard, s.base.db.shards.get e.shardId = some r ∧ shard.attempts = r.attempts ∧
      s'.base.db.shards.get e.shardId =
        some (r.finish (Execution.retryOutcome settings exc.text now shard)) := by
  obtain ⟨tr₀, hrun₀⟩ := hreach
  have hmem : e ∈ s.base.executions := List.mem_of_getElem? he
  have hloaded := loaded_run hrun₀ e hmem
  rw [Clocked.handles, he, Option.all_some, howns, Bool.not_true, Bool.false_or] at hk
  obtain ⟨e₀, he₀, hreaches, -, -, hcase⟩ := clocked_fail h
  rw [he] at he₀
  cases he₀
  obtain ⟨-, hrecovers⟩ := Bool.and_eq_true_iff.mp hk
  obtain ⟨hsession, hflush⟩ := Execution.recovers_spec hrecovers
  have htry : e.pc.inTry = true := Execution.inTry_of_reaches hreaches hsession
  obtain ⟨run, hrun⟩ := Option.isSome_iff_exists.mp
    (hloaded.started (Execution.started_of_inTry htry))
  obtain ⟨shard, hshard, hid⟩ := hloaded.run run hrun
  obtain ⟨r, hr, hrunId⟩ := hloaded.shard shard hshard
  obtain ⟨base, hbase, hrow⟩ := handler_commits settings exc.text now
    he htry hshard hrun howns hr (hid.trans hrunId.symm) hflush
  refine ⟨r, shard, hr, hloaded.attempts shard r hshard howns hr, ?_⟩
  rcases hcase with ⟨-, hsome⟩ | ⟨-, hno | hno⟩
  · rw [hbase] at hsome
    cases hsome
    exact hrow
  · rw [hk] at hno
    cases hno
  · rw [hbase] at hno
    cases hno

/-- A failure whose handler does not go through leaves everything as it was. -/
theorem fail_unhandled {s s' : Clocked} {i : Nat} {statement : Statement} {exc : Exc}
    {answers : Bool} {now : DateTime}
    (h : s.step p takes settings (.fail i statement exc answers now) = some s')
    (hk : s.handles p takes settings (.fail i statement exc answers now) = false) :
    s'.base = s.base := by
  obtain ⟨e, he, -, -, -, ⟨hyes, -⟩ | ⟨hsame, -⟩⟩ := clocked_fail h
  · rw [Clocked.handles, he, Option.all_some, hyes, Bool.or_true] at hk
    cases hk
  · exact hsame

end

/-- Attempts count claims, and a run settles every failure of an owner exactly
when every handler of one goes through. -/
theorem retry_backoff (p : Platform) (takes : String → Bool) (settings : Settings)
    (scopes : Table InventoryScope) (profiles : Table ScanProfile) (clock : DateTime)
    (tr : List (Transition Clocked ClockedAction)) (t : Clocked)
    (h : Path (Clocked.step p takes settings)
      { base := State.initial scopes profiles, clock := clock } tr t) :
    (∀ k r, t.base.db.shards.get k = some r → r.attempts = tr.countP (claimedBy k)) ∧
      (Backoff settings tr ↔ Along (Clocked.handles p takes settings) tr) := by
  have hreach : ∀ x ∈ tr, x.pre.Reached settings scopes profiles := fun x hx =>
    (h.invariant_at (C := fun _ _ => true) ⟨[], .nil⟩
      (fun _ _ _ hu _ hs => reached_step hu hs) (fun _ _ => rfl) hx).1
  have hcount : ∀ {tr t}, Path (Clocked.step p takes settings)
      { base := State.initial scopes profiles, clock := clock } tr t → ∀ k r,
      t.base.db.shards.get k = some r → r.attempts = tr.countP (claimedBy k) := by
    intro tr t h k r hr
    rw [← attempts_claimed h (fun _ => rfl) k, hr]
    rfl
  refine ⟨hcount h, ?_, ?_⟩
  · intro hbackoff x hx
    obtain ⟨before, after, rfl, -, hs, -⟩ := h.split_of_mem hx
    cases hact : x.act with
    | operation op => rfl
    | fail i statement exc answers now =>
      by_contra hno
      rw [hact] at hs
      obtain ⟨e, he, -⟩ := clocked_fail hs
      have howns : e.owns x.pre.base.db = true := by
        by_contra hlost
        apply hno
        rw [Clocked.handles, he, Option.all_some, Bool.eq_false_iff.mpr hlost]
        rfl
      have hsame := fail_unhandled hs (Bool.eq_false_iff.mpr hno)
      obtain ⟨r, hr, hsettles⟩ :=
        hbackoff before x after rfl i statement exc answers now e hact he howns
      obtain ⟨q, hq, hrunning, -⟩ := Db.currentLease_iff.mp howns
      rw [hsame, hq] at hr
      cases hr
      -- the shard is still running
      split at hsettles
      · rw [hrunning] at hsettles
        cases hsettles.1
      · rw [hrunning] at hsettles
        cases hsettles.1
  · rintro hk before x after rfl i statement exc answers now e hact he howns
    have hx : x ∈ before ++ x :: after := List.mem_append_right _ List.mem_cons_self
    obtain ⟨hbefore, hs, hafter⟩ := h.split
    have hhandles := hk x hx
    have hreach' := reached_step (hreach x hx) hs
    rw [hact] at hs hhandles
    obtain ⟨r, shard, hr, hattempts, hrow⟩ := fail_handled (hreach x hx) hs he howns hhandles
    have hk' : before.countP (claimedBy e.shardId) = shard.attempts := by
      rw [hattempts, hcount hbefore _ r hr]
    refine ⟨_, hrow, ?_⟩
    rw [hk', Execution.retryOutcome]
    by_cases hmax : settings.maxShardAttempts ≤ shard.attempts
    · rw [if_pos hmax, if_pos hmax]
      rw [Execution.retryOutcome, if_pos hmax] at hrow
      exact ⟨rfl, dead_unclaimed hafter hreach' hrow rfl⟩
    · rw [if_neg hmax, if_neg hmax]
      rw [Execution.retryOutcome, if_neg hmax] at hrow
      refine ⟨rfl, rfl, waiting_leased hafter hreach' ⟨Or.inr ⟨_, hrow, Or.inr ⟨rfl, rfl⟩⟩⟩⟩

namespace Demo

def operations (as : List Action) : List ClockedAction := as.map fun a => .operation (.single a)

/-- PostgreSQL takes no NUL character. -/
def takes (text : String) : Bool := '\x00' ∉ text.toList

end Demo

/-- The flush of the scan's next host is rejected for the port of a row added
before it, the handler's UPDATE raises, and the shard stays running. -/
theorem rejected_flush_stays_running :
    ¬ ∀ (p : Platform) (takes : String → Bool) (settings : Settings)
      (scopes : Table InventoryScope) (profiles : Table ScanProfile) (clock : DateTime)
      (tr : List (Transition Clocked ClockedAction)) (t : Clocked),
      Path (Clocked.step p takes settings)
        { base := State.initial scopes profiles, clock := clock } tr t → Backoff settings tr := by
  intro hall
  have hrun : ((runAll (Clocked.step Demo.platform Demo.takes {}) { base := Demo.start, clock := 0 }
      (Demo.operations (Demo.running ++ [.exit, .recheck, .addHost
        { id := "h1", runId := "run", shardId := "s1", address := "10.0.0.5", state := "up" }
        [{ id := "v1", hostObservationId := "h1", protocol := "tcp", port := 99999999999,
           state := "open" }]].map (Action.worker 0)))).bind fun t =>
      (Clocked.step Demo.platform Demo.takes {} t (.fail 0 .flush
          { name := "DataError", message := "integer out of range" } true (seconds 60))).map
        fun u => ((t.base.executions[0]?).map fun e => (e.shardId, e.owns t.base.db),
          (u.base.db.shards.get "s1").map ScanShard.status)) =
      some (some ("s1", true), some .running) := by
    decide +kernel
  obtain ⟨tr, t, u, hp, hobs⟩ := Path.of_runAll_step
    (f := fun t u : Clocked => ((t.base.executions[0]?).map fun e => (e.shardId, e.owns t.base.db),
      (u.base.db.shards.get "s1").map ScanShard.status)) hrun
  obtain ⟨hpre, hpost⟩ := Prod.mk.inj hobs
  obtain ⟨e, he, hcols⟩ := Option.map_eq_some_iff.mp hpre
  obtain ⟨hid, howns⟩ := Prod.mk.inj hcols
  obtain ⟨r, hr, hrunning⟩ := Option.map_eq_some_iff.mp hpost
  obtain ⟨r', hr', hsettles⟩ :=
    hall _ _ {} _ _ _ _ u hp tr _ [] rfl 0 _ _ true _ e rfl he howns
  rw [hid, hr] at hr'
  cases hr'
  split at hsettles
  · rw [hrunning] at hsettles
    cases hsettles.1
  · rw [hrunning] at hsettles
    cases hsettles.1

/-- The scanner of the first attempt exits with an error, and the second attempt is
leased a minute later. -/
theorem retry_backoff_retried :
    ∃ tr t, Path (Clocked.step Demo.platform Demo.takes {})
        { base := Demo.start, clock := 0 } tr t ∧ Backoff {} tr ∧
      (t.base.db.shards.get "s1").map (fun r => (r.status, r.attempts, r.error)) =
        some (.running, 2, some "CalledProcessError: no such host") := by
  have hrun : (runWhile (Clocked.step Demo.platform Demo.takes {})
      (Clocked.handles Demo.platform Demo.takes {}) { base := Demo.start, clock := 0 }
      (Demo.operations (Demo.running ++ [.worker 0 .exit]) ++
        [.fail 0 .run { name := "CalledProcessError", stderr := some "no such host\n" } true 0] ++
        Demo.operations (Demo.dispatch 1 "t2" "e2" (seconds 60) ++
          Demo.publish 1 (seconds 60) ++ Demo.begin 1 "s1" "t2" (seconds 60)))).map
      (fun t => (t.base.db.shards.get "s1").map fun r => (r.status, r.attempts, r.error)) =
      some (some (.running, 2, some "CalledProcessError: no such host")) := by
    decide +kernel
  obtain ⟨tr, t, hp, halong, hobs⟩ := Path.of_runWhile_map hrun
  exact ⟨tr, t, hp, (retry_backoff _ _ {} _ _ 0 tr t hp).2.mpr halong, hobs⟩

end TransportLookout
