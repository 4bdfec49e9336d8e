/-
A run is decided once.

Workers, the scheduler and operators all check a copy of the run and then write
its status by primary key.  The check holds of the copy; `State.undecided` says
that it holds of the committed row as well.  Under it a terminal run is never
written again, so the run is finalized or cancelled by one transaction at most,
with one audit event and at most one replacement of its read model.
-/
import TransportLookout.System.RunRows

namespace TransportLookout

open Relational Trace

/-- The committed run is not yet decided. -/
def State.live (s : State) (id : Uuid) : Bool :=
  (s.db.runs.get id).all fun r => !r.status.terminal

/-- A step that writes the status of a run finds the committed run undecided. -/
def State.undecided (s : State) (a : Action) : Bool :=
  ((s.starting a).all fun run => s.live run.id) && (s.deciding a).all s.live

/-- The audit event of a finalization or a cancellation of the run. -/
def AuditEvent.decides (id : Uuid) (event : AuditEvent) : Bool :=
  (event.action = "run.finalized" || event.action = "run.cancelled") && event.resourceId = id

def Db.decisions (db : Db) (id : Uuid) : Nat := db.audits.countP (AuditEvent.decides id)

def decides (id : Uuid) (x : Transition State Action) : Bool := x.pre.deciding x.act = some id

def replaces (id : Uuid) (x : Transition State Action) : Bool :=
  (x.pre.replacing x.act).map ScanRun.id = some id

/-- The run has been decided. -/
def State.Decided (s : State) (id : Uuid) : Prop :=
  ∃ r, s.db.runs.get id = some r ∧ r.status.terminal = true

section
variable {settings : Settings} {s s' : State} {a : Action}

theorem State.live_of_get {id : Uuid} {r : ScanRun} (hl : s.live id = true)
    (hr : s.db.runs.get id = some r) : r.status.terminal = false := by
  rw [State.live, hr, Option.all_some, Bool.not_eq_true'] at hl
  exact hl

theorem State.undecided_starting {run : ScanRun} (hu : s.undecided a = true)
    (hs : s.starting a = some run) : s.live run.id = true := by
  rw [State.undecided, Bool.and_eq_true, hs] at hu
  exact hu.1

theorem State.undecided_deciding {id : Uuid} (hu : s.undecided a = true)
    (hd : s.deciding a = some id) : s.live id = true := by
  rw [State.undecided, Bool.and_eq_true, hd] at hu
  exact hu.2

/-- The step lemma: a decided run is not written again. -/
theorem decided_step (h : s.step settings a = some s') (hu : s.undecided a = true) {k : Uuid}
    {r : ScanRun} (hr : s.db.runs.get k = some r) (hterm : r.status.terminal = true) :
    ∃ r', s'.db.runs.get k = some r' ∧ r'.status = r.status ∧ r'.completedAt = r.completedAt := by
  have hid : r.id = k := Table.get_key hr
  have hlive : ∀ {id : Uuid}, s.live id = true → id = r.id → False := by
    intro id hl heq
    rw [heq, hid] at hl
    rw [State.live_of_get hl hr] at hterm
    cases hterm
  obtain ⟨r', hr', rfl | hstep⟩ := run_step h hr
  · exact ⟨r', hr', rfl, rfl⟩
  cases hstep with
  | @start i e now run _ he hrun hid' =>
    refine ⟨_, hr', ?_, ScanRun.completedAt_startCommit e s.db run now r⟩
    rw [ScanRun.status_startCommit]
    by_cases hrunning : run.status = .running
    · rw [if_pos hrunning]
    · have hs : s.starting (.worker i (.start now)) = some run := by
        simp only [State.starting, he, hrun, Option.bind_eq_bind, Option.bind_some,
          if_neg hrunning]
      exact (hlive (State.undecided_starting hu hs) hid').elim
  | @finalize _ run counts now _ hf hfires hid' =>
    have hd : s.deciding a = some run.id := by
      rw [State.deciding, hf]
      rfl
    exact (hlive (State.undecided_deciding hu hd) hid').elim
  | @cancel p c now _ hp hid' =>
    have hd : s.deciding (.commitCancel p now) = some c.run.id := by
      show ((s.cancellations[p]?).map Cancellation.run).map ScanRun.id = some c.run.id
      rw [hp]
      rfl
    exact (hlive (State.undecided_deciding hu hd) hid').elim

/-- The run a step finalizes or cancels is decided after it. -/
theorem deciding_decides (hc : Copies s) (hrec : Recorded s) (h : s.step settings a = some s')
    {k : Uuid} (hd : s.deciding a = some k) : s'.Decided k := by
  obtain ⟨r, hr⟩ := deciding_recorded hrec hd
  rcases deciding_eq_some hd with ⟨run, counts, hf, rfl⟩ | ⟨run, hcan, rfl⟩
  · obtain ⟨hfires, db, actor, now, run', hfin, hseen, -⟩ := step_finalizing h hf
    obtain ⟨hruns, -⟩ := hseen.frame
    rcases Db.finalizeWith_spec hfin with ⟨hno, -, -⟩ | ⟨-, rfl, hdb⟩
    · rw [hfires] at hno
      cases hno
    · have hget : s'.db.runs.get run.id =
          some (ScanRun.writeBack run (counts.finalized run now) r) := by
        rw [hdb]
        show (db.flushRun run _).runs.get run.id = _
        rw [Db.get_flushRun, hruns, hr, Option.map_some, if_pos rfl]
      refine ⟨_, hget, ?_⟩
      rw [ScanRun.writeBack_finalized hfires]
      split <;> rfl
  · obtain ⟨p, now, c, rfl, hp, rfl⟩ := cancelling_eq_some hcan
    have hterm := hc.cancelling c (List.mem_of_getElem? hp)
    obtain ⟨c', shards, hp', -, rfl⟩ := step_commitCancel h
    rw [hp] at hp'
    cases hp'
    refine ⟨ScanRun.writeBack c.run (Db.cancelledRun c.run now) r, ?_, ?_⟩
    · show (s.db.flushRun c.run (Db.cancelledRun c.run now)).runs.get c.run.id = _
      rw [Db.get_flushRun, hr, Option.map_some, if_pos rfl]
    · rw [ScanRun.writeBack_cancelledRun hterm]
      rfl

end

/-! ## Audit events -/

theorem AuditEvent.decides_finalized {actor resourceType : String} {id id' : Uuid} :
    AuditEvent.decides id { actor, action := "run.finalized", resourceType, resourceId := id' } =
      decide (id' = id) := by
  simp [AuditEvent.decides]

theorem AuditEvent.decides_cancelled {actor resourceType : String} {id id' : Uuid} :
    AuditEvent.decides id { actor, action := "run.cancelled", resourceType, resourceId := id' } =
      decide (id' = id) := by
  simp [AuditEvent.decides]

theorem Db.decisions_append {db db' : Db} {events : List AuditEvent} (id : Uuid)
    (h : db'.audits = db.audits ++ events) :
    db'.decisions id = db.decisions id + events.countP (AuditEvent.decides id) := by
  rw [Db.decisions, h, List.countP_append]
  rfl

theorem Db.decisions_same {db db' : Db} (id : Uuid) (h : db'.audits = db.audits) :
    db'.decisions id = db.decisions id := by
  rw [Db.decisions, h]
  rfl

/-- A finalization that fires records itself once. -/
theorem Db.decisions_finalizeWith {db db' : Db} {counts : TerminalCounts} {run run' : ScanRun}
    {actor : String} {now : DateTime} (id : Uuid)
    (h : db.finalizeWith counts run actor now = some (db', run')) :
    db'.decisions id = db.decisions id +
      if counts.fires run = true ∧ run.id = id then 1 else 0 := by
  rw [Db.finalizeWith] at h
  by_cases hfires : counts.fires run = true
  · rw [if_pos hfires] at h
    obtain ⟨db₁, hrefresh, heq⟩ := Option.map_eq_some_iff.mp h
    cases heq
    have hskip : db₁.decisions id = db.decisions id := by
      rw [Db.refreshInventory] at hrefresh
      split at hrefresh
      · cases hrefresh
        rfl
      · split at hrefresh
        · rw [materialize_frame hrefresh]
          rfl
        · cases hrefresh
          exact (Db.decisions_append id rfl).trans (Nat.add_zero _)
    rw [Db.decisions_append id (show (db₁.audit actor "run.finalized" "scan_run" run.id).audits =
      db₁.audits ++ [_] from rfl), hskip, List.countP_singleton, AuditEvent.decides_finalized]
    simp only [hfires, true_and, decide_eq_true_eq]
  · rw [if_neg hfires] at h
    cases h
    rw [if_neg fun hand => hfires hand.1]
    rfl

/-- The audit events a worker has pending decide no run. -/
def Execution.Discreet (e : Execution) : Prop :=
  ∀ event ∈ e.audits, ∀ id, event.decides id = false

section
variable {settings : Settings} {s s' : State} {a : Action}

theorem discreet_step (hd : ∀ e ∈ s.executions, e.Discreet) (h : s.step settings a = some s') :
    ∀ e ∈ s'.executions, e.Discreet := by
  refine executions_step h hd ?_ fun _ _ event hevent => absurd hevent List.not_mem_nil
  intro e he i b e' _ hstep event hevent id
  rcases (Execution.step_change hstep).audits event hevent with hold | haction | haction
  · exact hd e he event hold id
  · simp [AuditEvent.decides, haction]
  · simp [AuditEvent.decides, haction]

theorem decisions_flush {db db' : Db} {e : Execution} (hd : e.Discreet) (h : e.flush db = some db')
    (id : Uuid) : db'.decisions id = db.decisions id := by
  obtain ⟨_, _, _, -, -, -, rfl⟩ := Execution.flush_frame h
  rw [Db.decisions_append id rfl]
  have hzero : e.audits.countP (AuditEvent.decides id) = 0 :=
    List.countP_eq_zero.mpr fun event hevent => by rw [hd event hevent id]; exact Bool.false_ne_true
  rw [hzero, Nat.add_zero]

/-- The audit log counts the decisions of a run. -/
theorem decisions_step (hd : ∀ e ∈ s.executions, e.Discreet) (h : s.step settings a = some s')
    (id : Uuid) :
    s'.db.decisions id = s.db.decisions id + if s.deciding a = some id then 1 else 0 := by
  have hquiet : s.deciding a = none → s'.db.decisions id = s.db.decisions id →
      s'.db.decisions id = s.db.decisions id + if s.deciding a = some id then 1 else 0 := by
    intro hnone heq
    rw [hnone, if_neg (by rintro ⟨⟩), heq, Nat.add_zero]
  have hfinal : ((∃ i now, a = .worker i (.commitFinish now)) ∨ ∃ p now, a = .finalizeNext p now) →
      s'.db.decisions id = s.db.decisions id + if s.deciding a = some id then 1 else 0 := by
    intro ha
    obtain ⟨db, run, counts, actor, now, run', hfin, hseen, -, heq⟩ := step_finalization h ha
    have hcancel : s.cancelling a = none := by
      rcases ha with ⟨i, now, rfl⟩ | ⟨p, now, rfl⟩ <;> rfl
    have hbefore : db.decisions id = s.db.decisions id := by
      rcases hseen with rfl | ⟨e, he, o, c, -, -, hflush⟩
      · rfl
      · exact decisions_flush (hd e he) hflush id
    have hdec : s.deciding a = if counts.fires run then some run.id else none := by
      rw [State.deciding, heq, hcancel]
      by_cases hfires : counts.fires run = true
      · rw [if_pos hfires, if_pos hfires]
        rfl
      · rw [if_neg hfires, if_neg hfires]
        rfl
    rw [Db.decisions_finalizeWith id hfin, hbefore, hdec]
    by_cases hfires : counts.fires run = true
    · simp only [hfires, true_and, if_true, Option.some.injEq]
    · simp only [hfires, false_and, if_false, Bool.false_eq_true, reduceCtorEq]
  cases a with
  | createRun scopeId profileId actor runId shards =>
    refine hquiet rfl ?_
    obtain ⟨scope, profile, db, -, -, hdb, rfl⟩ := step_createRun h
    obtain ⟨event, haudits, haction⟩ := Db.createRun_audits hdb
    rw [Db.decisions_append id haudits, List.countP_singleton]
    simp [AuditEvent.decides, haction]
  | commitCancel p now =>
    obtain ⟨c, shards, hp, hphase, rfl⟩ := step_commitCancel h
    have hd : s.deciding (.commitCancel p now) = some c.run.id := by
      show ((s.cancellations[p]?).map Cancellation.run).map ScanRun.id = some c.run.id
      rw [hp]
      rfl
    rw [hd, Db.decisions_append id (show (s.db.commitCancellation c.run shards c.actor now).audits =
      s.db.audits ++ [_] from rfl), List.countP_singleton, AuditEvent.decides_cancelled]
    simp only [decide_eq_true_eq, Option.some.injEq]
  | finalizeNext p now => exact hfinal (Or.inr ⟨p, now, rfl⟩)
  | worker i b =>
    by_cases hb : ∃ now, b = .commitFinish now
    · obtain ⟨now, rfl⟩ := hb
      exact hfinal (Or.inl ⟨i, now, rfl⟩)
    · have hnone : s.deciding (.worker i b) = none := by
        cases b with
        | commitFinish now => exact absurd ⟨now, rfl⟩ hb
        | _ => rfl
      refine hquiet hnone ?_
      obtain ⟨e, db', e', he, hstep, rfl⟩ := step_worker h
      have hdiscreet := hd e (List.mem_of_getElem? he)
      rcases Execution.step_cases hstep with ⟨rfl, -⟩ | hc
      · rfl
      cases hc with
      | abandon | start => rfl
      | beat _ _ _ hflush _ _ => exact decisions_flush hdiscreet hflush id
      | beatLost _ _ hflush _ _ => exact decisions_flush hdiscreet hflush id
      | @finish _ _ _ now => exact absurd ⟨now, rfl⟩ hb
  | _ => exact hquiet rfl (Db.decisions_same id (by rw [queue_frame h rfl]))

/-- What carries the theorem from step to step. -/
structure Outcomes (s : State) : Prop where
  copies : Copies s
  recorded : Recorded s
  discreet : ∀ e ∈ s.executions, e.Discreet
  counted : ∀ id, s.db.decisions id = 0 ∨ (s.db.decisions id = 1 ∧ s.Decided id)

theorem outcomes_start (scopes : Table InventoryScope) (profiles : Table ScanProfile) :
    Outcomes (State.initial scopes profiles) where
  copies := copies_start _
  recorded := recorded_start _
  discreet := fun _ h => absurd h List.not_mem_nil
  counted := fun _ => Or.inl rfl

theorem decided_kept (h : s.step settings a = some s') (hu : s.undecided a = true) {id : Uuid}
    (hd : s.Decided id) : s'.Decided id := by
  obtain ⟨r, hr, hterm⟩ := hd
  obtain ⟨r', hr', hstatus, -⟩ := decided_step h hu hr hterm
  exact ⟨r', hr', hstatus ▸ hterm⟩

theorem not_decided (hu : s.undecided a = true) {id : Uuid} (hd : s.deciding a = some id) :
    ¬ s.Decided id := by
  rintro ⟨r, hr, hterm⟩
  rw [State.live_of_get (State.undecided_deciding hu hd) hr] at hterm
  cases hterm

theorem outcomes_step (ho : Outcomes s) (hu : s.undecided a = true)
    (h : s.step settings a = some s') : Outcomes s' where
  copies := copies_step ho.copies h
  recorded := recorded_step ho.recorded h
  discreet := discreet_step ho.discreet h
  counted := by
    intro id
    rw [decisions_step ho.discreet h id]
    by_cases hd : s.deciding a = some id
    · rw [if_pos hd]
      rcases ho.counted id with hzero | ⟨-, hdecided⟩
      · exact Or.inr ⟨by rw [hzero], deciding_decides ho.copies ho.recorded h hd⟩
      · exact absurd hdecided (not_decided hu hd)
    · rw [if_neg hd, Nat.add_zero]
      rcases ho.counted id with hzero | ⟨hone, hdecided⟩
      · exact Or.inl hzero
      · exact Or.inr ⟨hone, decided_kept h hu hdecided⟩

end

/-- A run's outcome is decided exactly once. -/
structure DecidedOnce (tr : List (Transition State Action)) (t : State) : Prop where
  fixed : ∀ x ∈ tr, ∀ k r, x.pre.db.runs.get k = some r → r.status.terminal = true →
    ∃ r', x.post.db.runs.get k = some r' ∧ r'.status = r.status ∧ r'.completedAt = r.completedAt
  transactions : ∀ k, tr.countP (decides k) ≤ 1
  audited : ∀ k, t.db.decisions k ≤ 1
  replacements : ∀ k, tr.countP (replaces k) ≤ 1
  replacing : ∀ x ∈ tr, x.post.db.exposures ≠ x.pre.db.exposures →
    ∃ run, x.pre.replacing x.act = some run

section
variable {settings : Settings} {scopes : Table InventoryScope} {profiles : Table ScanProfile}
  {tr : List (Transition State Action)} {t : State}

theorem outcomes_run (h : Run settings (State.initial scopes profiles) tr t)
    (hu : Along State.undecided tr) : Outcomes t :=
  h.invariant (outcomes_start scopes profiles) (fun _ _ _ ho hu hs => outcomes_step ho hu hs) hu

theorem outcomes_at (h : Run settings (State.initial scopes profiles) tr t)
    (hu : Along State.undecided tr) {x : Transition State Action} (hx : x ∈ tr) :
    Outcomes x.pre :=
  (h.invariant_at (outcomes_start scopes profiles)
    (fun _ _ _ ho hu hs => outcomes_step ho hu hs) hu hx).1

theorem replaces_decides {k : Uuid} {x : Transition State Action} (h : replaces k x = true) :
    decides k x = true := by
  obtain ⟨run, hrun, rfl⟩ := Option.map_eq_some_iff.mp (of_decide_eq_true h)
  obtain ⟨⟨run', counts⟩, hf, hif⟩ := Option.bind_eq_some_iff.mp hrun
  dsimp only at hif
  split at hif
  · cases hif
    rw [decides, State.deciding, hf]
    exact decide_eq_true rfl
  · cases hif

end

theorem decided_once (settings : Settings) (scopes : Table InventoryScope)
    (profiles : Table ScanProfile) (tr : List (Transition State Action)) (t : State)
    (h : Run settings (State.initial scopes profiles) tr t) (hu : Along State.undecided tr) :
    DecidedOnce tr t := by
  have htransactions : ∀ k, tr.countP (decides k) ≤ 1 := by
    intro k
    refine h.count_le_one (Q := fun s => s.Decided k) ?_ ?_ ?_
    · exact fun x hx hd => decided_kept (h.step_of_mem hx) (hu x hx) hd
    · exact fun x hx hd => not_decided (hu x hx) (of_decide_eq_true hd)
    · intro x hx hd
      have ho := outcomes_at h hu hx
      exact deciding_decides ho.copies ho.recorded (h.step_of_mem hx) (of_decide_eq_true hd)
  refine ⟨?_, htransactions, ?_, ?_, ?_⟩
  · exact fun x hx k r hr hterm => decided_step (h.step_of_mem hx) (hu x hx) hr hterm
  · intro k
    rcases (outcomes_run h hu).counted k with hzero | ⟨hone, -⟩
    · omega
    · omega
  · exact fun k => (List.countP_mono_left fun _ _ hx => replaces_decides hx).trans
      (htransactions k)
  · intro x hx hne
    exact (exposures_step (h.step_of_mem hx)).resolve_left hne

namespace Demo

/-- An execution that has read its run and not yet started. -/
def loaded : List Action :=
  createRun ++ dispatch 0 "t1" "e1" 0 ++ publish 0 0 ++
    [.deliver "s1" "t1" "worker" 0, .worker 0 .loadShard, .worker 0 .loadRun]

def clear (i : Nat) : List Action :=
  [.clearServices, .clearHosts, .clearDiscoveries].map (Action.worker i)

end Demo

/-- The operator cancels between the worker's read of the run and its start. -/
theorem start_uncancels :
    ¬ ∀ (settings : Settings) (scopes : Table InventoryScope) (profiles : Table ScanProfile)
      (tr : List (Transition State Action)) (t : State),
      Run settings (State.initial scopes profiles) tr t → DecidedOnce tr t := by
  intro hall
  have hrun : ((runAll (State.step {}) Demo.start (Demo.loaded ++ Demo.cancel 0 1 ++
      Demo.clear 0)).bind fun t => (t.step {} (.worker 0 (.start 2))).map fun u =>
        ((t.db.runs.get "run").map ScanRun.status, (u.db.runs.get "run").map ScanRun.status)) =
      some (some .cancelled, some .running) := by
    decide +kernel
  obtain ⟨tr, t, u, hp, hobs⟩ := Path.of_runAll_step hrun
  obtain ⟨hpre, hpost⟩ := Prod.mk.inj hobs
  obtain ⟨r, hr, hcancelled⟩ := Option.map_eq_some_iff.mp hpre
  obtain ⟨r', hr', hsame, -⟩ := (hall {} _ _ _ _ hp).fixed ⟨t, .worker 0 (.start 2), u⟩
    (List.mem_append_right _ (List.mem_singleton_self _)) "run" r hr (by rw [hcancelled]; rfl)
  rw [show u.db.runs.get "run" = some r' from hr', Option.map_some, hsame, hcancelled] at hpost
  cases hpost

/-- Both shards are scanned, and the worker of the second decides the run. -/
theorem decided_once_completed :
    ∃ tr t, Run {} Demo.start tr t ∧ DecidedOnce tr t ∧
      (t.db.runs.get "run").map ScanRun.status = some .completed ∧ t.db.decisions "run" = 1 := by
  have hrun : (runWhile (State.step {}) State.undecided Demo.start (Demo.running ++ Demo.scan 0 ++
      Demo.finish 0 1 ++ Demo.dispatch 1 "t2" "e2" 2 ++ Demo.publish 1 2 ++
      Demo.begin 1 "s2" "t2" 2 ++ [.loadActive] ++ Demo.scan 1 ++ Demo.finish 1 3)).map (fun t =>
        ((t.db.runs.get "run").map ScanRun.status, t.db.decisions "run")) =
      some (some .completed, 1) := by
    decide +kernel
  obtain ⟨tr, t, hp, hu, hobs⟩ := Path.of_runWhile_map hrun
  obtain ⟨hstatus, hdecisions⟩ := Prod.mk.inj hobs
  exact ⟨tr, t, hp, decided_once {} _ _ tr t hp hu, hstatus, hdecisions⟩

end TransportLookout
