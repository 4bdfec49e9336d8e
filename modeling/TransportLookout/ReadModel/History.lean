/-
The read model over a history of runs.

What the replaced rows were is read before they are deleted, so the counts and
first-seen times of a pair are carried from one replacement to the next.  The law
says what comes of it: the rows of a scope and profile describe the last run that
replaced them, and each counts the runs in a row that observed its key.

`History` is the read model's past as the law sees it: replacements, whatever
runs they are of, with any work in between that leaves the read model alone.
-/
import TransportLookout.Library.Streak
import TransportLookout.ReadModel.Materialization
import TransportLookout.System.RunRows

namespace TransportLookout

open Relational Trace Streak

/-- What a replacement was made from. -/
structure Round where
  run : ScanRun
  scope : InventoryScope
  completedAt : DateTime
  observed : List Observation

def Round.sees (k : ServiceKey) (r : Round) : Bool := r.observed.any fun x => x.key = k

/-- The rounds of one scope and profile. -/
def roundsOf (p : Pair) (rounds : List Round) : List Round :=
  rounds.filter fun r => r.run.pair = p

/-- The row of an open service in the last of the rounds: counted over the longest
suffix of rounds that all observed its key, first seen in the first of them. -/
def Round.exposure (rounds : List Round) (last : Round) (x : Observation) : CurrentExposure :=
  let suffix := rounds.rtakeWhile (Round.sees x.key)
  { inventoryScopeId := last.run.inventoryScopeId
    profileId := last.run.profileId
    latestRunId := last.run.id
    zone := last.scope.zone
    address := x.1.address
    protocol := x.2.protocol
    port := x.2.port
    service := x.2.service
    product := x.2.product
    version := x.2.version
    firstSeenAt := (suffix.head?.map Round.completedAt).getD last.completedAt
    lastSeenAt := last.completedAt
    scanCount := suffix.length }

/-- One row for each open service of the last round, and none before the first. -/
def exposuresAfter (rounds : List Round) : List CurrentExposure :=
  match rounds.getLast? with
  | some last => last.observed.map (last.exposure rounds)
  | none => []

/-- `counts` is what the queries of the finalization returned.  Those of
`finalizeTerminalRun` run on the database it sees. -/
inductive History : Db → List Round → Prop
  | empty {db} (h : db.exposures = .empty) : History db []
  | work {db db' rounds} (past : History db rounds) (h : db'.exposures = db.exposures) :
      History db' rounds
  | finalize {db rounds counts run scope actor now db' run'} (past : History db rounds)
      (hm : db.Materializes counts run scope)
      (h : db.finalizeWith counts run actor now = some (db', run')) :
      History db' (rounds ++ [⟨run', scope, now, db.openServices run.id⟩])

/-! ## Counts along a history -/

theorem Round.sees_iff {k : ServiceKey} {r : Round} :
    r.sees k = true ↔ ∃ x ∈ r.observed, x.key = k := by
  rw [Round.sees, List.any_eq_true]
  simp only [decide_eq_true_eq]

/-- The counters a row holds are the streak of its key. -/
theorem get_exposuresAfter {db : Db} {p : Pair} {rounds : List Round}
    (h : db.inventory p = exposuresAfter rounds) (k : ServiceKey) :
    (db.exposures.get (p, k)).map (fun e => (e.firstSeenAt, e.scanCount)) =
      streak (Round.sees k) Round.completedAt rounds := by
  cases hlast : rounds.getLast? with
  | none =>
    have hnil : rounds = [] := List.getLast?_eq_none_iff.mp hlast
    subst hnil
    rw [streak_nil, Option.map_eq_none_iff, Option.eq_none_iff_forall_ne_some]
    intro e he
    have hmem := (Db.get_exposure.mp he).1
    rw [h] at hmem
    cases hmem
  | some last =>
    have hrows : db.inventory p = last.observed.map (last.exposure rounds) := by
      rw [h, exposuresAfter, hlast]
    have hsome := streak_isSome (Round.sees k) Round.completedAt hlast
    cases hget : db.exposures.get (p, k) with
    | none =>
      cases hsees : last.sees k with
      | true =>
        obtain ⟨x, hx, hk⟩ := Round.sees_iff.mp hsees
        have hmem : last.exposure rounds x ∈ db.inventory p := by
          rw [hrows]
          exact List.mem_map_of_mem hx
        rw [Db.get_exposure.mpr ⟨hmem, hk⟩] at hget
        cases hget
      | false =>
        rw [hsees] at hsome
        rw [Option.map_none]
        exact (Option.isSome_eq_false_iff.mp hsome |> Option.isNone_iff_eq_none.mp).symm
    | some e =>
      obtain ⟨hmem, hk⟩ := Db.get_exposure.mp hget
      rw [hrows] at hmem
      obtain ⟨x, hx, rfl⟩ := List.mem_map.mp hmem
      have hkey : x.key = k := hk
      rw [Option.map_some, Round.exposure, hkey, streak]
      have hsees : last.sees k = true := Round.sees_iff.mpr ⟨x, hx, hkey⟩
      rw [hsees, streak, Option.isSome_map] at hsome
      obtain ⟨first, hfirst⟩ := Option.isSome_iff_exists.mp hsome
      rw [hfirst]
      rfl

/-- The step lemma: the row a finalization inserts goes on with the streak of its key. -/
theorem exposureRow_extends {db : Db} {run : ScanRun} {scope : InventoryScope} {now : DateTime}
    {rounds : List Round} {observed : List Observation}
    (h : db.inventory run.pair = exposuresAfter rounds) {x : Observation} (hx : x ∈ observed) :
    db.exposureRow scope run now x =
      Round.exposure (rounds ++ [⟨run, scope, now, observed⟩]) ⟨run, scope, now, observed⟩ x := by
  have hold := get_exposuresAfter h x.key
  have hsees : Round.sees x.key ⟨run, scope, now, observed⟩ = true :=
    Round.sees_iff.mpr ⟨x, hx, rfl⟩
  have hnew := streak_concat (Round.sees x.key) Round.completedAt rounds
    ⟨run, scope, now, observed⟩
  rw [if_pos hsees, ← hold, streak] at hnew
  obtain ⟨first, hfirst, heq⟩ := Option.map_eq_some_iff.mp hnew
  obtain ⟨hfirstSeen, hcount⟩ := Prod.mk.inj heq
  rw [Round.exposure, hfirst, hcount, Option.map_some, Option.getD_some, hfirstSeen]
  rfl

theorem exposuresAfter_concat (rounds : List Round) (last : Round) :
    exposuresAfter (rounds ++ [last]) = last.observed.map (last.exposure (rounds ++ [last])) := by
  rw [exposuresAfter, List.getLast?_concat]

theorem roundsOf_concat (p : Pair) (rounds : List Round) (last : Round) :
    roundsOf p (rounds ++ [last]) =
      if last.run.pair = p then roundsOf p rounds ++ [last] else roundsOf p rounds := by
  rw [roundsOf, List.filter_append, List.filter_singleton]
  by_cases h : last.run.pair = p
  · rw [if_pos h, decide_eq_true h]
    rfl
  · rw [if_neg h, decide_eq_false h]
    exact List.append_nil _

/-- Induction over the history, for all pairs at once. -/
theorem History.inventory {db : Db} {rounds : List Round} (h : History db rounds) (p : Pair) :
    db.inventory p = exposuresAfter (roundsOf p rounds) := by
  induction h with
  | empty hempty =>
    rw [Db.inventory, hempty]
    rfl
  | work past hsame ih =>
    rw [← ih, Db.inventory, hsame]
    rfl
  | @finalize db rounds counts run scope actor now db' run' past hm hfin ih =>
    obtain ⟨rfl, hrows⟩ := hm.inventory hfin
    rw [roundsOf_concat]
    split
    · next hp =>
      have hpair : run.pair = p := hp
      subst hpair
      have hbefore : db.inventory (counts.finalized run now).pair =
        exposuresAfter (roundsOf run.pair rounds) := ih
      rw [exposuresAfter_concat, hrows]
      exact List.map_congr_left fun x hx => exposureRow_extends hbefore hx
    · next hp =>
      have hpair : p ≠ run.pair := fun heq => hp heq.symm
      rw [Db.finalizeWith_other hfin hpair, ih]

/-! ## Histories of the running system -/

section
variable {settings : Settings} {s s' : State} {a : Action}

theorem seenBy_exposures {db : Db} (h : s.SeenBy db) : db.exposures = s.db.exposures := by
  rcases h with rfl | ⟨e, -, o, counts, -, -, hflush⟩
  · rfl
  · obtain ⟨_, _, _, -, -, -, rfl⟩ := Execution.flush_frame hflush
    rfl

/-- A step that replaces the read model is a finalization that materializes. -/
theorem replacing_materializes (h : s.step settings a = some s') {run : ScanRun}
    (hr : s.replacing a = some run) :
    ∃ (db : Db) (counts : TerminalCounts) (scope : InventoryScope) (actor : String)
      (now : DateTime) (run' : ScanRun), db.exposures = s.db.exposures ∧
      db.Materializes counts run scope ∧
      db.finalizeWith counts run actor now = some (s'.db, run') := by
  obtain ⟨⟨run₀, counts⟩, hf, hcounts⟩ := Option.bind_eq_some_iff.mp hr
  dsimp only at hcounts
  split at hcounts
  · next hfull =>
    cases hcounts
    obtain ⟨hfires, db, actor, now, run', hfin, hseen, -⟩ := step_finalizing h hf
    obtain ⟨scope, hscope⟩ := Option.isSome_iff_exists.mp hfull.2.2
    refine ⟨db, counts, scope, actor, now, run', seenBy_exposures hseen, ?_, hfin⟩
    exact ⟨hfires, hfull.1, hfull.2.1, by rw [hseen.frame.2, hscope]⟩
  · cases hcounts

/-- Every run of the system gives its read model a history. -/
theorem history_run {scopes : Table InventoryScope} {profiles : Table ScanProfile}
    {tr : List (Transition State Action)} {t : State}
    (h : Run settings (State.initial scopes profiles) tr t) : ∃ rounds, History t.db rounds := by
  refine h.invariant (I := fun s => ∃ rounds, History s.db rounds) (C := fun _ _ => true)
    ⟨[], .empty rfl⟩ ?_ fun _ _ => rfl
  rintro s a s' ⟨rounds, past⟩ - hstep
  rcases exposures_step hstep with hsame | ⟨run, hr⟩
  · exact ⟨rounds, .work past hsame⟩
  · obtain ⟨db, counts, scope, actor, now, run', hsame, hm, hfin⟩ :=
      replacing_materializes hstep hr
    exact ⟨_, .finalize (.work past hsame) hm hfin⟩

end

/-! ## The law -/

/-- The history law for one scope and profile. -/
structure HistoryLaw (db : Db) (rounds : List Round) (p : Pair) : Prop where
  rows : db.inventory p = exposuresAfter (roundsOf p rounds)
  distinct : ((db.inventory p).map CurrentExposure.serviceKey).Nodup
  /-- The next finalization keeps the rows if it is of another pair. -/
  frame : ∀ counts run actor now db' run', run.pair ≠ p →
    db.finalizeWith counts run actor now = some (db', run') → db'.inventory p = db.inventory p
  /-- The next finalization goes through if it observes no key twice. -/
  continues : ∀ counts run scope actor now, db.Materializes counts run scope →
    ((db.openServices run.id).map Observation.key).Nodup →
      ∃ db' run', db.finalizeWith counts run actor now = some (db', run')

theorem exposure_history (db : Db) (rounds : List Round) (past : History db rounds) (p : Pair) :
    HistoryLaw db rounds p where
  rows := past.inventory p
  distinct := Db.inventory_nodup db p
  frame := fun _ _ _ _ _ _ hp h => Db.finalizeWith_other h fun heq => hp heq.symm
  continues := fun _ _ _ actor now hm hkeys => hm.isSome hkeys actor now

namespace Demo

/-- Run `n` of the deployment, of one shard: a host that is up with some open ports. -/
def observe (n : Nat) (runId shardId token eventId : Uuid) (now : DateTime)
    (ports : List (Uuid × Int)) : List Action :=
  [.createRun "scope" "profile" "operator" runId [(shardId, "10.0.0.0/24")],
    .countActive .fresh runId, .lease n [token] [eventId] now] ++ publish n now ++
  begin n shardId token now ++
  [.exit, .recheck,
    .addHost { id := shardId, runId, shardId, address := "10.0.0.5", state := "up" }
      (ports.map fun (id, port) =>
        { id, hostObservationId := shardId, protocol := "tcp", port, state := "open" }),
    .storeConfirmation, .confirm, .finish now, .commitFinish now].map (Action.worker n)

end Demo

/-- A port that is open throughout, and one that closes and opens again. -/
theorem exposure_history_reopened :
    ∃ (t : State) (rounds : List Round), History t.db rounds ∧
      HistoryLaw t.db rounds ("scope", "profile") ∧
      (t.db.inventory ("scope", "profile")).map (fun e => (e.port, e.firstSeenAt, e.scanCount)) =
        [(80, 3, 1), (443, 1, 3)] := by
  have hrun : (runAll (State.step {}) Demo.start (
      Demo.observe 0 "r1" "s1" "t1" "e1" 1 [("v1", 80), ("v2", 443)] ++
      Demo.observe 1 "r2" "s2" "t2" "e2" 2 [("v3", 443)] ++
      Demo.observe 2 "r3" "s3" "t3" "e3" 3 [("v4", 80), ("v5", 443)])).map (fun t =>
        (t.db.inventory ("scope", "profile")).map fun e => (e.port, e.firstSeenAt, e.scanCount)) =
      some [(80, 3, 1), (443, 1, 3)] := by
    decide +kernel
  obtain ⟨tr, t, hp, hobs⟩ := Path.of_runAll_map hrun
  obtain ⟨rounds, past⟩ := history_run hp
  exact ⟨t, rounds, past, exposure_history t.db rounds past _, hobs⟩

end TransportLookout
