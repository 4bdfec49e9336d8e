/-
Rounds of passes.

A round takes up what sessions have left: a recovery frees what is held, a dispatch leases a
shard of an active run, a publication sends its message and a worker completes it.  It can take
place at any instant that is late enough.  Each round leaves a shard less to do, and when the
shards of a run are over a reconciliation ends it.
-/
import TransportLookout.Safety.Completing
import TransportLookout.Safety.Recoverable

namespace TransportLookout

open Relational Trace

/-- What a round of passes needs to find. -/
structure Ready (s : State) : Prop where
  timed : ∀ r ∈ s.db.shards.rows, r.Timed
  profile : ∀ run ∈ s.db.runs.rows, ∃ profile,
    s.db.profiles.get run.profileId = some profile ∧ 0 < profile.maxConcurrentShards
  token : ∀ e ∈ s.db.outbox.rows, ∃ token, e.payload.leaseToken = some token

/-- An instant past every deadline and every backoff. -/
structure Late (settings : Settings) (db : Db) (now : DateTime) : Prop where
  deadline : ∀ r ∈ db.shards.rows, r.deadline settings < now
  backoff : ∀ r ∈ db.shards.rows, ∀ t ∈ r.retryNotBefore, t ≤ now

section
variable (settings : Settings) (now : DateTime) {s : State} {db : Db}

/-! ## One round -/

theorem exists_late (db : Db) : ∃ last, ∀ now, last ≤ now → Late settings db now := by
  obtain ⟨last, hlast⟩ := ((db.shards.rows.map fun r =>
    max (r.deadline settings + 1) (r.retryNotBefore.getD 0)).toFinset).exists_le
  have hrow : ∀ r ∈ db.shards.rows,
      r.deadline settings + 1 ≤ last ∧ r.retryNotBefore.getD 0 ≤ last := fun r hr =>
    max_le_iff.mp (hlast _ (List.mem_toFinset.mpr (List.mem_map.mpr ⟨r, hr, rfl⟩)))
  refine ⟨last, fun now hnow => ⟨fun r hr => ?_, fun r hr t ht => ?_⟩⟩
  · exact Int.lt_of_add_one_le ((hrow r hr).1.trans hnow)
  · have hbackoff := (hrow r hr).2
    rw [Option.mem_def.mp ht, Option.getD_some] at hbackoff
    exact hbackoff.trans hnow

/-- A recovery does not put the backoff off. -/
theorem backoff_recovered (hlate : Late settings db now) :
    ∀ r ∈ (db.flushShards (Db.staleShards settings db now) ScanShard.requeued).shards.rows,
      ∀ t ∈ r.retryNotBefore, t ≤ now := by
  intro r' hr'
  have hget := Table.get_of_mem hr'
  rw [Db.get_flushShards] at hget
  obtain ⟨r, hr, hflushed⟩ := Option.map_eq_some_iff.mp hget
  have hsame : r'.retryNotBefore = r.retryNotBefore := by
    rw [← hflushed]
    split
    · simp [ScanShard.writeBack, ScanShard.requeued]
    · rfl
  rw [hsame]
  exact hlate.backoff r (Table.get_mem hr)

theorem resumes_freed (hlate : Late settings s.db now)
    (htimed : ∀ r ∈ s.db.shards.rows, r.Timed) :
    ∃ t, Resumes settings now s t ∧ s.db.Advances t.db ∧
      t.db = { s.db with shards := t.db.shards } ∧
      ∀ r ∈ t.db.shards.rows, r.status.inFlight = false ∧ ∀ t ∈ r.retryNotBefore, t ≤ now := by
  have hstale : ∀ r ∈ s.db.shards.rows, r.status.inFlight = true →
      r ∈ Db.staleShards settings s.db now := fun r hr hflight =>
    stale_of_deadline hr hflight (htimed r hr) (hlate.deadline r hr)
  exact ⟨_, resumes_recovery settings now s, advances_recovered settings s.db now, rfl,
    fun r hr => ⟨flush_frees hstale hr, backoff_recovered settings now hlate r hr⟩⟩

/-- With nothing held the whole budget is left. -/
theorem dispatchable_of_queued {run : ScanRun} {profile : ScanProfile} {r : ScanShard}
    (hfree : ∀ r ∈ db.shards.rows, r.status.inFlight = false)
    (hbudget : 0 < profile.maxConcurrentShards) (hr : r ∈ db.shards.rows)
    (hrun : r.runId = run.id) (hqueued : r.status = .queued)
    (hbackoff : ∀ t ∈ r.retryNotBefore, t ≤ now) :
    db.dispatchableShards run.id now (db.dispatchCapacity profile run.id) ≠ [] := by
  have hactive : db.activeShards run.id = 0 := by
    refine Table.count_eq_zero.mpr fun x hx => ?_
    have hidle := hfree x hx
    cases hstatus : x.status <;> simp_all [ShardStatus.inFlight]
  intro hnil
  rw [Db.dispatchableShards, List.take_eq_nil_iff] at hnil
  rcases hnil with hzero | hnone
  · rw [Db.dispatchCapacity, hactive, Nat.sub_zero] at hzero
    exact absurd hzero (Nat.ne_of_gt hbudget)
  · have hmem : r ∈ ([] : List ScanShard) := by
      rw [← hnone, List.mem_insertionSort, Table.mem_select]
      refine ⟨hr, ?_⟩
      cases hretry : r.retryNotBefore with
      | none => simp [hrun, hqueued]
      | some t => simpa [hrun, hqueued] using hbackoff t hretry
    cases hmem

/-- A lease that can be claimed once its event is published. -/
structure Leased (db : Db) (runId k token : Uuid) : Prop where
  row : ∃ r, db.shards.get k = some r ∧ r.runId = runId ∧ r.status = .leased ∧
    r.leaseToken = some token
  event : ∃ e ∈ db.outbox.rows, e.deliveredAt = none ∧ e.payload = ⟨k, some token⟩

/-- A dispatch of the run, when nothing is held and a shard is queued. -/
theorem resumes_leased {run : ScanRun} {profile : ScanProfile} {r : ScanShard}
    (hrow : s.db.runs.get run.id = some run) (hactive : run.status.terminal = false)
    (hprofile : s.db.profiles.get run.profileId = some profile)
    (hbudget : 0 < profile.maxConcurrentShards)
    (hfree : ∀ r ∈ s.db.shards.rows, r.status.inFlight = false) (hr : r ∈ s.db.shards.rows)
    (hrun : r.runId = run.id) (hqueued : r.status = .queued)
    (hbackoff : ∀ t ∈ r.retryNotBefore, t ≤ now) :
    ∃ t k token, Resumes settings now s t ∧ s.db.Advances t.db ∧
      t.db = { s.db with shards := t.db.shards, outbox := t.db.outbox } ∧
      (∀ e ∈ t.db.outbox.rows, e ∈ s.db.outbox.rows ∨ ∃ token, e.payload.leaseToken = some token) ∧
      Leased t.db run.id k token := by
  obtain ⟨t, leases, eventIds, ht, hne, hids, hlen, hleases⟩ :=
    resumes_dispatch settings now hrow hactive hprofile
      (dispatchable_of_queued now hfree hbudget hr hrun hqueued hbackoff)
  obtain ⟨houtbox, hframe, hget⟩ := Db.leaseShards_eq_some hleases
  have hchosen : ∀ x ∈ s.db.shards.rows, x.id ∈ leases.map Prod.fst →
      x.runId = run.id ∧ x.status = .queued := by
    intro x hx hid
    rw [hids] at hid
    obtain ⟨y, hy, hsame⟩ := List.mem_map.mp hid
    obtain ⟨hyrow, hyrun, hyqueued⟩ := Db.mem_dispatchableShards hy
    cases s.db.shards.eq_of_key hyrow hx hsame
    exact ⟨hyrun, hyqueued⟩
  obtain ⟨⟨k, token⟩, rest, rfl⟩ := List.exists_cons_of_ne_nil hne
  obtain ⟨id, ids, rfl⟩ := List.exists_cons_of_ne_nil
    (show eventIds ≠ [] from fun hnil => by rw [hnil] at hlen; cases hlen)
  have hevents := Table.rows_append? houtbox
  refine ⟨t, k, token, ht, advances_leased (fun x hx hid => (hchosen x hx hid).2) hleases, hframe,
    fun e he => ?_, ?_, ?_⟩
  · rw [hevents, List.mem_append] at he
    refine he.imp_right fun hnew => ?_
    obtain ⟨i, hi⟩ := List.mem_iff_getElem?.mp hnew
    obtain ⟨l, id, -, -, rfl⟩ := List.getElem?_zipWith_eq_some.mp hi
    exact ⟨l.2, rfl⟩
  · have hhead : k ∈ (s.db.dispatchableShards run.id now
        (s.db.dispatchCapacity profile run.id)).map ScanShard.id := by
      rw [← hids]
      exact List.mem_cons_self
    obtain ⟨x, hx, rfl⟩ := List.mem_map.mp hhead
    obtain ⟨hxrow, hxrun, -⟩ := Db.mem_dispatchableShards hx
    have hleased := hget x.id
    rw [show s.db.shards.get x.id = some x from Table.get_of_mem hxrow, Option.map_some,
      List.lookup_cons_self] at hleased
    exact ⟨_, hleased, hxrun, rfl, rfl⟩
  · refine ⟨Db.leaseEvent now k token id, ?_, rfl, rfl⟩
    rw [hevents, List.zipWith_cons_cons]
    exact List.mem_append_right _ List.mem_cons_self

/-- The publisher and a worker take the lease on. -/
theorem resumes_claimed {runId k token : Uuid} (hl : Leased s.db runId k token)
    (htokens : ∀ e ∈ s.db.outbox.rows, ∃ token, e.payload.leaseToken = some token) :
    ∃ (t : State) (i : Nat) (r : ScanShard), Resumes settings now s t ∧ s.db.Advances t.db ∧
      t.db = { s.db with shards := t.db.shards, outbox := t.db.outbox } ∧
      t.executions[i]? = some { shardId := k, leaseToken := token } ∧
      t.db.shards.get k = some r ∧ r.runId = runId ∧ r.status = .running ∧
      r.leaseToken = some token := by
  obtain ⟨u, hu, hframe, hsent⟩ := resumes_publication settings now s fun e he _ =>
    htokens e he
  obtain ⟨r, hr, hrun, hleased, htoken⟩ := hl.row
  obtain ⟨e, he, hnone, hpayload⟩ := hl.event
  have hmessage := hsent e he hnone token (by rw [hpayload])
  rw [hpayload] at hmessage
  have hr' : u.db.shards.get k = some r := by
    rw [hframe]
    exact hr
  have hheld : r.held k token .leased = true :=
    ScanShard.held_iff.mpr ⟨Table.get_key hr, hleased, htoken⟩
  obtain ⟨t, ht, hclaim, hexecution⟩ := resumes_claim settings now hmessage hr' hheld
    "worker"
  have hadvances : s.db.Advances u.db := by
    rw [hframe]
    exact .of_runs (.refl .refl _) rfl (.refl _) (.refl _)
  obtain ⟨-, hframe', hget⟩ := Db.claimLease_eq_some hclaim
  refine ⟨t, u.executions.length, r.claimed "worker" now, hu.trans ht,
    hadvances.trans (advances_claimed hclaim), ?_, hexecution, ?_, hrun, rfl, htoken⟩
  · rw [hframe', hframe]
  · rw [hget k, hr', Option.map_some, if_pos hheld]

theorem ShardStatus.queued_of_idle {status : ShardStatus} (hlive : status.terminal = false)
    (hidle : status.inFlight = false) : status = .queued := by
  cases status with
  | queued => rfl
  | leased | running => cases hidle
  | _ => cases hlive

/-- How many shards are left to do. -/
def Db.unfinished (db : Db) : Nat := db.shards.count fun r => !r.status.terminal

theorem Db.Advances.unfinished_lt {db' : Db} (h : db.Advances db') {k : Uuid} {r r' : ScanShard}
    (hr : db.shards.get k = some r) (hlive : r.status.terminal = false)
    (hr' : db'.shards.get k = some r') (hover : r'.status.terminal = true) :
    db'.unfinished < db.unfinished := by
  refine h.shards.count_lt (fun x x' hrel hlive' => ?_) hr (by rw [hlive]; rfl) hr'
    (by rw [hover]; rfl)
  cases hstatus : x.status.terminal with
  | false => rfl
  | true =>
    rw [hrel.fixed hstatus, hstatus] at hlive'
    exact hlive'

/-- A round for an active run: one shard of it, at least, is over. -/
theorem resumes_round (hlate : Late settings s.db now) (hs : Ready s) {run : ScanRun}
    (hrow : s.db.runs.get run.id = some run) (hactive : run.status.terminal = false)
    (hrefresh : s.db.Refreshable run.id) (hleft : ¬ s.db.Exhausted run.id) :
    ∃ t, Resumes settings now s t ∧ s.db.Advances t.db ∧ t.db.unfinished < s.db.unfinished := by
  obtain ⟨profile, hprofile, hbudget⟩ := hs.profile run (Table.get_mem hrow)
  obtain ⟨u, hu, hadvances, hframe, hfree⟩ := resumes_freed settings now hlate hs.timed
  have hrow₁ : u.db.runs.get run.id = some run := by
    rw [hframe]
    exact hrow
  have hprofile₁ : u.db.profiles.get run.profileId = some profile := by
    rw [hframe]
    exact hprofile
  rw [Db.Exhausted] at hleft
  push Not at hleft
  obtain ⟨x, hx, hxrun, hxlive⟩ := hleft
  obtain ⟨y, hy, hxy⟩ := hadvances.shards.next (Table.get_of_mem hx)
  cases hylive : y.status.terminal with
  | true =>
    exact ⟨u, hu, hadvances, hadvances.unfinished_lt (Table.get_of_mem hx)
      (Bool.eq_false_iff.mpr hxlive) hy hylive⟩
  | false =>
    obtain ⟨hidle, hbackoff⟩ := hfree y (Table.get_mem hy)
    have hqueued := ShardStatus.queued_of_idle hylive hidle
    obtain ⟨v, k, token, hv, hadvances₁, hframe₁, hevents, hleased⟩ :=
      resumes_leased settings now hrow₁ hactive hprofile₁ hbudget
        (fun r hr => (hfree r hr).1) (Table.get_mem hy) (hxy.runId.trans hxrun) hqueued hbackoff
    obtain ⟨w, i, r, hw, hadvances₂, hframe₂, hexecution, hr, hrrun, hrunning, htoken⟩ :=
      resumes_claimed settings now hleased fun e he => (hevents e he).elim
        (fun hold => hs.token e (by rw [hframe] at hold; exact hold)) id
    have hthere := (hadvances.trans hadvances₁).trans hadvances₂
    have hrow₂ : w.db.runs.get r.runId = some run := by
      rw [hframe₂, hframe₁, hrrun]
      exact hrow₁
    have hprofile₂ : w.db.profiles.get run.profileId = some profile := by
      rw [hframe₂, hframe₁]
      exact hprofile₁
    obtain ⟨t, ht, hadvances₃, r', hr', hcompleted⟩ := resumes_completion settings now
      hexecution hr hrunning htoken hrow₂ hactive hprofile₂ (hrefresh.advances hthere)
    have hadvances' := hthere.trans hadvances₃
    refine ⟨t, hu.trans (hv.trans (hw.trans ht)), hadvances', ?_⟩
    obtain ⟨old, hold, hrel⟩ := hthere.shards.prior hr
    have hlive : old.status.terminal = false := by
      cases hstatus : old.status.terminal with
      | false => rfl
      | true =>
        have hsame := hrel.fixed hstatus
        rw [← hsame, hrunning] at hstatus
        cases hstatus
    exact hadvances'.unfinished_lt hold hlive hr' (by rw [hcompleted]; rfl)

/-! ## The last pass -/

/-- The finalization of a run whose shards are over fires, and writes no other run. -/
theorem finalizes_exhausted {run run' : ScanRun} {actor : String} {now : DateTime} {db' : Db}
    (hrow : db.runs.get run.id = some run) (hactive : run.status.terminal = false)
    (hexhausted : db.Exhausted run.id)
    (h : db.finalizeWith (db.terminalCounts run.id) run actor now = some (db', run')) :
    (∃ r, db'.runs.get run.id = some r ∧ r.status.terminal = true) ∧
      ∀ k, k ≠ run.id → db'.runs.get k = db.runs.get k := by
  have hpending : (db.terminalCounts run.id).pending = 0 := by
    refine Table.count_eq_zero.mpr fun r hr => ?_
    by_cases hrun : r.runId = run.id
    · rw [hexhausted r hr hrun]
      exact Bool.and_false _
    · rw [decide_eq_false hrun]
      exact Bool.false_and _
  have hfires := TerminalCounts.fires_iff.mpr ⟨hactive, hpending⟩
  rcases Db.finalizeWith_spec h with ⟨hidle, -⟩ | ⟨-, hrun', hframe⟩
  · rw [hfires] at hidle
    cases hidle
  · have hruns : db'.runs = (db.flushRun run run').runs := by rw [hframe]
    constructor
    · refine ⟨ScanRun.writeBack run run' run, ?_, ?_⟩
      · rw [hruns, Db.get_flushRun, hrow, Option.map_some, if_pos rfl]
      · rw [hrun', ScanRun.writeBack_finalized hfires now run]
        split
        · rfl
        · rfl
    · intro k hk
      rw [hruns, Db.get_flushRun]
      cases db.runs.get k with
      | none => rfl
      | some r => rw [Option.map_some, if_neg hk]

/-- A pass ends each run it has loaded whose shards are over. -/
theorem resumes_finalizations {p : Nat} (runs : List ScanRun) (s : State)
    (hp : s.reconciliations[p]? = some runs)
    (hrows : ∀ run ∈ runs, s.db.runs.get run.id = some run ∧ run.status.terminal = false)
    (hnodup : (runs.map ScanRun.id).Nodup) (hexhausted : ∀ run ∈ runs, s.db.Exhausted run.id)
    (hrefresh : ∀ run ∈ runs, s.db.Refreshable run.id) :
    ∃ t, Resumes settings now s t ∧ s.db.Advances t.db ∧
      ∀ run ∈ runs, ∃ r, t.db.runs.get run.id = some r ∧ r.status.terminal = true := by
  induction runs generalizing s with
  | nil => exact ⟨s, .refl s, .refl s.db, fun _ hrun => absurd hrun List.not_mem_nil⟩
  | cons run rest ih =>
    obtain ⟨hrow, hactive⟩ := hrows run List.mem_cons_self
    obtain ⟨hfirst, hnodup⟩ := List.nodup_cons.mp hnodup
    have hlt : p < s.reconciliations.length := (List.getElem?_eq_some_iff.mp hp).1
    obtain ⟨⟨db, run'⟩, hfinal⟩ :=
      finalizes_of_refreshable (hrefresh run List.mem_cons_self) "scheduler" now
    have hstep : s.step settings (.finalizeNext p now) = some { s with
        db := db, reconciliations := s.reconciliations.set p rest } := by
      simp [State.step, hp, Db.finalizeTerminalRun, hfinal]
    have hadvances := advances_finalized hrow hfinal
    obtain ⟨⟨r, hr, hover⟩, hothers⟩ :=
      finalizes_exhausted hrow hactive (hexhausted run List.mem_cons_self) hfinal
    obtain ⟨t, ht, hrest, hended⟩ := ih
      { s with db := db, reconciliations := s.reconciliations.set p rest }
      (List.getElem?_set_self hlt)
      (fun c hc => by
        obtain ⟨hc', hlive⟩ := hrows c (List.mem_cons_of_mem run hc)
        have hne : c.id ≠ run.id := fun hid => hfirst (hid ▸ List.mem_map_of_mem hc)
        exact ⟨(hothers c.id hne).trans hc', hlive⟩)
      hnodup (fun c hc => hadvances.exhausted (hexhausted c (List.mem_cons_of_mem run hc)))
      fun c hc => (hrefresh c (List.mem_cons_of_mem run hc)).advances hadvances
    refine ⟨t, (Reaches.of_step hstep (Action.resumes_timed rfl rfl)).trans ht,
      hadvances.trans hrest, fun c hc => ?_⟩
    rcases List.mem_cons.mp hc with rfl | hc
    · obtain ⟨r', hr', hkept⟩ := hrest.runs.next hr
      exact ⟨r', hr', by rw [hkept hover]; exact hover⟩
    · exact hended c hc

/-- When the shards of the active runs are over, one pass ends the runs. -/
theorem resumes_reconciliation (s : State)
    (hexhausted : ∀ run ∈ s.db.activeRuns, s.db.Exhausted run.id)
    (hrefresh : ∀ run ∈ s.db.activeRuns, s.db.Refreshable run.id) :
    ∃ t, Resumes settings now s t ∧ s.db.Advances t.db ∧
      ∀ run ∈ t.db.runs.rows, run.status.terminal = true := by
  have hload : s.step settings .loadActive = some { s with
      reconciliations := s.reconciliations ++ [s.db.activeRuns] } := rfl
  have hrows : ∀ run ∈ s.db.activeRuns,
      s.db.runs.get run.id = some run ∧ run.status.terminal = false := by
    intro run hrun
    obtain ⟨hrow, hactive⟩ := Db.mem_activeRuns.mp hrun
    exact ⟨Table.get_of_mem hrow, hactive⟩
  obtain ⟨t, ht, hadvances, hended⟩ := resumes_finalizations settings now
    s.db.activeRuns { s with reconciliations := s.reconciliations ++ [s.db.activeRuns] }
    List.getElem?_concat_length hrows (s.db.runs.nodup_keys _) hexhausted hrefresh
  refine ⟨t, (Reaches.of_step hload (Action.resumes_untimed rfl rfl)).trans ht, hadvances,
    fun run hrun => ?_⟩
  obtain ⟨old, hold, hkept⟩ := hadvances.runs.prior (Table.get_of_mem hrun)
  cases hstatus : old.status.terminal with
  | true =>
    rw [hkept hstatus]
    exact hstatus
  | false =>
    obtain ⟨r, hr, hover⟩ := hended old (Db.mem_activeRuns.mpr ⟨Table.get_mem hold, hstatus⟩)
    have hid : old.id = run.id := Table.get_key hold
    rw [hid, show t.db.runs.get run.id = some run from Table.get_of_mem hrun] at hr
    cases hr
    exact hover

end

end TransportLookout
