/-
The read model over restarts.

The scheduler rebuilds the read model whenever it starts: for each scope and
profile from the latest completed run with full coverage.  In a state reached by
finalizations that is the run whose rows are there already, and the rebuild goes
through the replacement a finalization goes through, which counts another scan.
`Settled` is the invariant that says so: rebuilding the rows of a pair from its
latest run gives the rows it has, each counted once more.
-/
import TransportLookout.ReadModel.Materialization
import TransportLookout.System.RunRows

namespace TransportLookout

open Relational

/-- `n` more scans of the row's key. -/
def CurrentExposure.counted (n : Nat) (e : CurrentExposure) : CurrentExposure :=
  { e with scanCount := e.scanCount + n }

namespace Db

/-- A run the rows of its pair may be rebuilt from. -/
structure Candidate (db : Db) (run : ScanRun) : Prop where
  mem : run ∈ db.runs.rows
  completed : run.status = .completed
  covered : db.incompleteDiscoveryShards run.id = 0

/-- The candidate of its pair that was completed last. -/
structure Latest (db : Db) (run : ScanRun) : Prop where
  candidate : db.Candidate run
  last : ∀ run', db.Candidate run' → run'.pair = run.pair →
    run'.completedAt.getD 0 ≤ run.completedAt.getD 0

/-- A rebuild from the run gives the rows of its pair, each counted once more. -/
def Rebuilds (db : Db) (run : ScanRun) : Prop :=
  ∀ scope t, db.scopes.get run.inventoryScopeId = some scope → run.completedAt = some t →
    (db.openServices run.id).map (db.exposureRow scope run t) =
      (db.inventory run.pair).map (CurrentExposure.counted 1)

structure Settled (db : Db) : Prop where
  dated : ∀ run ∈ db.runs.rows, run.status = .completed → run.completedAt ≠ none
  inScope : ∀ e ∈ db.exposures.rows, (db.scopes.get e.inventoryScopeId).isSome = true
  covered : ∀ e ∈ db.exposures.rows, ∃ run, db.Candidate run ∧ run.pair = e.pair
  latest : ∀ run, db.Latest run → db.Rebuilds run

/-! ## Rows read back -/

section
variable {db db' : Db} {run : ScanRun} {scope : InventoryScope} {now t : DateTime} {p : Pair}

theorem get_congr (h : db'.inventory p = db.inventory p) (k : ServiceKey) :
    db'.exposures.get (p, k) = db.exposures.get (p, k) := by
  apply Option.ext
  intro e
  rw [get_exposure, get_exposure, h]

theorem exposureRow_congr (h : db'.inventory run.pair = db.inventory run.pair) (x : Observation) :
    db'.exposureRow scope run t x = db.exposureRow scope run t x := by
  have hget := get_congr h x.key
  rw [Observation.key] at hget
  simp only [exposureRow, hget]

/-- A row that was just inserted, inserted again. -/
theorem exposureRow_again {observed : List Observation}
    (h : db'.inventory run.pair = observed.map (db.exposureRow scope run t)) {x : Observation}
    (hx : x ∈ observed) :
    db'.exposureRow scope run t x = (db.exposureRow scope run t x).counted 1 := by
  have hget : db'.exposures.get (run.pair, x.key) = some (db.exposureRow scope run t x) := by
    refine get_exposure.mpr ⟨?_, rfl⟩
    rw [h]
    exact List.mem_map_of_mem hx
  rw [Observation.key] at hget
  rw [exposureRow, hget]
  rfl

theorem rebuild_again {observed : List Observation}
    (h : db'.inventory run.pair = observed.map (db.exposureRow scope run t)) :
    observed.map (db'.exposureRow scope run t) =
      (db'.inventory run.pair).map (CurrentExposure.counted 1) := by
  rw [h, List.map_map]
  exact List.map_congr_left fun x hx => exposureRow_again h hx

theorem inventory_eq_nil (h : ∀ e ∈ db.exposures.rows, e.pair ≠ p) : db.inventory p = [] := by
  rw [inventory, Table.select, List.filter_eq_nil_iff]
  intro e he
  rw [decide_eq_true_eq]
  exact h e he

theorem get_counted {n : Nat}
    (h : db'.inventory p = (db.inventory p).map (CurrentExposure.counted n)) (k : ServiceKey) :
    db'.exposures.get (p, k) = (db.exposures.get (p, k)).map (CurrentExposure.counted n) := by
  apply Option.ext
  intro e
  rw [get_exposure, h, List.mem_map, Option.map_eq_some_iff]
  constructor
  · rintro ⟨⟨e₀, he₀, rfl⟩, hk⟩
    exact ⟨e₀, get_exposure.mpr ⟨he₀, hk⟩, rfl⟩
  · rintro ⟨e₀, he₀, rfl⟩
    obtain ⟨hmem, hk⟩ := get_exposure.mp he₀
    exact ⟨⟨e₀, hmem, rfl⟩, hk⟩

end

/-! ## What a rebuild reads -/

section
variable {db db' : Db}

/-- A write to the read model changes nothing that a rebuild reads of a run. -/
theorem sources_frame (h : db' = { db with exposures := db'.exposures }) :
    db'.runs = db.runs ∧ db'.scopes = db.scopes ∧
      (∀ id, db'.openServices id = db.openServices id) ∧
      ∀ id, db'.incompleteDiscoveryShards id = db.incompleteDiscoveryShards id := by
  refine ⟨by rw [h], by rw [h], fun id => ?_, fun id => ?_⟩
  · rw [h]
    rfl
  · rw [h]
    rfl

theorem candidate_congr
    (hruns : ∀ run : ScanRun, run.status = .completed →
      (run ∈ db'.runs.rows ↔ run ∈ db.runs.rows))
    (hcovered : ∀ run ∈ db.runs.rows, run.status = .completed →
      db'.incompleteDiscoveryShards run.id = db.incompleteDiscoveryShards run.id)
    (run : ScanRun) : db'.Candidate run ↔ db.Candidate run := by
  constructor
  · rintro ⟨hmem, hcompleted, hcover⟩
    have hold := (hruns run hcompleted).mp hmem
    exact ⟨hold, hcompleted, by rw [← hcovered run hold hcompleted]; exact hcover⟩
  · rintro ⟨hmem, hcompleted, hcover⟩
    exact ⟨(hruns run hcompleted).mpr hmem, hcompleted,
      by rw [hcovered run hmem hcompleted]; exact hcover⟩

theorem latest_congr (hcandidate : ∀ run, db'.Candidate run ↔ db.Candidate run) {run : ScanRun}
    (hl : db'.Latest run) : db.Latest run :=
  ⟨(hcandidate run).mp hl.candidate,
    fun run' hc hpair => hl.last run' ((hcandidate run').mpr hc) hpair⟩

theorem rebuilds_congr {run : ScanRun} (hr : db.Rebuilds run)
    (hrows : db'.inventory run.pair = db.inventory run.pair)
    (hopen : db'.openServices run.id = db.openServices run.id)
    (hscope : db'.scopes.get run.inventoryScopeId = db.scopes.get run.inventoryScopeId) :
    db'.Rebuilds run := by
  intro scope t hs ht
  rw [hopen, hrows, ← hr scope t (hscope ▸ hs) ht]
  exact List.map_congr_left fun x _ => exposureRow_congr hrows x

theorem mem_exposures {e : CurrentExposure} : e ∈ db.exposures.rows ↔ e ∈ db.inventory e.pair := by
  rw [mem_inventory]
  exact ⟨fun h => ⟨h, rfl⟩, And.left⟩

end

/-! ## One backfill -/

section
variable {db db₁ : Db}

theorem mem_completedRuns {run : ScanRun} :
    run ∈ db.completedRuns ↔ run ∈ db.runs.rows ∧ run.status = .completed := by
  rw [completedRuns, List.mem_insertionSort, Table.mem_select, decide_eq_true_eq]

theorem sorted_completedRuns (db : Db) :
    db.completedRuns.Pairwise fun a b => b.completedAt.getD 0 ≤ a.completedAt.getD 0 := by
  have htotal : Std.Total fun a b : ScanRun => b.completedAt.getD 0 ≤ a.completedAt.getD 0 :=
    ⟨fun a b => Int.le_total _ _⟩
  have htrans : IsTrans ScanRun fun a b => b.completedAt.getD 0 ≤ a.completedAt.getD 0 :=
    ⟨fun a b c hab hbc => Int.le_trans hbc hab⟩
  exact List.pairwise_insertionSort _ _

/-- The rebuild of one pair from its latest run, the read model of the others
being what it may. -/
theorem materialize_latest {run : ScanRun} (now : DateTime) (hs : db.Settled) (hl : db.Latest run)
    (hframe : db₁ = { db with exposures := db₁.exposures })
    (hsame : db₁.inventory run.pair = db.inventory run.pair) :
    ∃ db₂, db₁.materializeCurrentExposures run now = some db₂ ∧
      db₂.inventory run.pair = (db.inventory run.pair).map (CurrentExposure.counted 1) ∧
      ∀ p, p ≠ run.pair → db₂.inventory p = db₁.inventory p := by
  obtain ⟨-, hscopes, hopen, -⟩ := sources_frame hframe
  obtain ⟨t, ht⟩ := Option.ne_none_iff_exists'.mp
    (hs.dated run hl.candidate.mem hl.candidate.completed)
  cases hscope : db.scopes.get run.inventoryScopeId with
  | none =>
    have hempty : db.inventory run.pair = [] := by
      refine inventory_eq_nil fun e he hpair => ?_
      have hid : e.inventoryScopeId = run.inventoryScopeId := congrArg Prod.fst hpair
      have hsome := hs.inScope e he
      rw [hid, hscope] at hsome
      cases hsome
    refine ⟨db₁, ?_, ?_, fun _ _ => rfl⟩
    · rw [materializeCurrentExposures, hscopes, hscope]
    · rw [hsame, hempty]
      rfl
  | some scope =>
    have hrows : (db₁.openServices run.id).map (db₁.exposureRow scope run t) =
        (db.inventory run.pair).map (CurrentExposure.counted 1) := by
      rw [← hs.latest run hl scope t hscope ht, hopen]
      exact List.map_congr_left fun x _ => exposureRow_congr hsame x
    have hkeys : ((db₁.openServices run.id).map Observation.key).Nodup := by
      have hnodup := inventory_nodup db run.pair
      have hmap : (db₁.openServices run.id).map Observation.key =
          (db.inventory run.pair).map CurrentExposure.serviceKey := by
        have hboth := congrArg (List.map CurrentExposure.serviceKey) hrows
        rw [List.map_map, List.map_map] at hboth
        exact hboth
      rw [hmap]
      exact hnodup
    obtain ⟨db₂, hmat⟩ := Option.isSome_iff_exists.mp (materialize_isSome hkeys now)
    have hscope₁ : db₁.scopes.get run.inventoryScopeId = some scope := by rw [hscopes, hscope]
    refine ⟨db₂, hmat, ?_, fun p hp => materialize_other hmat hp⟩
    have hobserved : run.completedAt.getD now = t := by
      rw [ht]
      rfl
    rw [materialize_inventory hscope₁ hobserved hmat, hrows]

/-- The loop over what is left of the completed runs.  The runs done have their
pairs in `seen` unless their coverage is incomplete; the pairs in `seen` are
rebuilt and the others as they were. -/
theorem backfillLoop_spec (hs : db.Settled) (now : DateTime) :
    ∀ (rest done : List ScanRun) (seen : List Pair) (db₁ : Db),
      db.completedRuns = done ++ rest →
      (∀ run ∈ done, db.incompleteDiscoveryShards run.id = 0 → run.pair ∈ seen) →
      db₁ = { db with exposures := db₁.exposures } →
      (∀ p, db₁.inventory p = if p ∈ seen then (db.inventory p).map (CurrentExposure.counted 1)
        else db.inventory p) →
      ∃ db', backfillLoop now rest seen db₁ = some db' ∧
        db' = { db with exposures := db'.exposures } ∧
        ∀ p, db'.inventory p = (db.inventory p).map (CurrentExposure.counted 1) := by
  intro rest
  induction rest with
  | nil =>
    intro done seen db₁ hruns hdone hframe hrows
    refine ⟨db₁, rfl, hframe, fun p => ?_⟩
    rw [hrows p]
    by_cases hp : p ∈ seen
    · rw [if_pos hp]
    · -- a pair nothing was rebuilt for has no rows
      have hempty : db.inventory p = [] := by
        refine inventory_eq_nil fun e he hpair => hp ?_
        obtain ⟨run, hc, hrun⟩ := hs.covered e he
        have hmem : run ∈ db.completedRuns := mem_completedRuns.mpr ⟨hc.mem, hc.completed⟩
        rw [hruns, List.append_nil] at hmem
        rw [← hpair, ← hrun]
        exact hdone run hmem hc.covered
      rw [if_neg hp, hempty]
      rfl
  | cons run rest ih =>
    intro done seen db₁ hruns hdone hframe hrows
    have hruns' : db.completedRuns = (done ++ [run]) ++ rest := by
      rw [hruns, List.append_assoc]
      rfl
    have hdone' : ∀ {seen' : List Pair},
        (db.incompleteDiscoveryShards run.id = 0 → run.pair ∈ seen') → (∀ p ∈ seen, p ∈ seen') →
        ∀ run' ∈ done ++ [run], db.incompleteDiscoveryShards run'.id = 0 → run'.pair ∈ seen' := by
      intro seen' hrun hsub run' hmem hcovered
      rcases List.mem_append.mp hmem with hold | hnew
      · exact hsub _ (hdone run' hold hcovered)
      · cases List.mem_singleton.mp hnew
        exact hrun hcovered
    have hcount := (sources_frame hframe).2.2.2 run.id
    rw [backfillLoop]
    by_cases hseen : run.pair ∈ seen
    · rw [if_pos hseen]
      exact ih _ seen db₁ hruns' (hdone' (fun _ => hseen) fun _ h => h) hframe hrows
    rw [if_neg hseen, hcount]
    by_cases hcovered : db.incompleteDiscoveryShards run.id = 0
    rotate_left
    · rw [if_pos hcovered]
      exact ih _ seen db₁ hruns' (hdone' (fun h => absurd h hcovered) fun _ h => h) hframe hrows
    rw [if_neg (not_not.mpr hcovered)]
    have hmem : run ∈ db.completedRuns := by
      rw [hruns]
      exact List.mem_append_right _ List.mem_cons_self
    obtain ⟨hrow, hcompleted⟩ := mem_completedRuns.mp hmem
    -- the runs before it in the list are of other pairs, the ones after it are older
    have hlatest : db.Latest run := by
      refine ⟨⟨hrow, hcompleted, hcovered⟩, fun run' hc hpair => ?_⟩
      have hmem' : run' ∈ db.completedRuns := mem_completedRuns.mpr ⟨hc.mem, hc.completed⟩
      have hsorted := sorted_completedRuns db
      rw [hruns] at hmem' hsorted
      rcases List.mem_append.mp hmem' with hbefore | hafter
      · exact absurd (hpair ▸ hdone run' hbefore hc.covered) hseen
      · rcases List.mem_cons.mp hafter with rfl | hafter
        · exact le_refl _
        · exact List.rel_of_pairwise_cons (List.pairwise_append.mp hsorted).2.1 hafter
    have hsame : db₁.inventory run.pair = db.inventory run.pair := by
      rw [hrows, if_neg hseen]
    obtain ⟨db₂, hmat, hrebuilt, hother⟩ := materialize_latest now hs hlatest hframe hsame
    rw [hmat, Option.bind_some]
    refine ih _ (run.pair :: seen) db₂ hruns' (hdone' (fun _ => List.mem_cons_self)
      fun _ h => List.mem_cons_of_mem _ h) ?_ ?_
    · rw [materialize_frame hmat, hframe]
    · intro p
      by_cases hp : p = run.pair
      · subst hp
        rw [if_pos List.mem_cons_self, hrebuilt]
      · rw [hother p hp, hrows p]
        by_cases hpseen : p ∈ seen
        · rw [if_pos hpseen, if_pos (List.mem_cons_of_mem _ hpseen)]
        · rw [if_neg hpseen, if_neg fun h => (List.mem_cons.mp h).elim hp hpseen]

/-- The step lemma: a backfill goes through and counts every row once more. -/
theorem backfill_spec (hs : db.Settled) (now : DateTime) :
    ∃ db', db.backfillCurrentExposures now = some db' ∧
      db' = { db with exposures := db'.exposures } ∧
      ∀ p, db'.inventory p = (db.inventory p).map (CurrentExposure.counted 1) :=
  backfillLoop_spec hs now db.completedRuns [] [] db rfl (fun _ h => absurd h List.not_mem_nil) rfl
    fun _ => (if_neg List.not_mem_nil).symm

end

/-! ## Reachable states -/

/-- Work between two finalizations leaves alone what completed runs recorded. -/
structure Work (db db' : Db) : Prop where
  exposures : db'.exposures = db.exposures
  runs : ∀ run : ScanRun, run.status = .completed → (run ∈ db'.runs.rows ↔ run ∈ db.runs.rows)
  scopes : ∀ run ∈ db.runs.rows, run.status = .completed →
    db'.scopes.get run.inventoryScopeId = db.scopes.get run.inventoryScopeId
  observed : ∀ run ∈ db.runs.rows, run.status = .completed →
    db'.openServices run.id = db.openServices run.id
  coverage : ∀ run ∈ db.runs.rows, run.status = .completed →
    db'.incompleteDiscoveryShards run.id = db.incompleteDiscoveryShards run.id

/-- The states reached by finalizations of committed runs, each completed later
than the ones before, and by restarts. -/
inductive Reached : Db → Prop
  | start {db} (hexposures : db.exposures = .empty)
      (hruns : ∀ run ∈ db.runs.rows, run.status ≠ .completed) : Reached db
  | work {db db'} (past : Reached db) (h : Work db db') : Reached db'
  | finalize {db run actor now db' run'} (past : Reached db)
      (hrun : db.runs.get run.id = some run)
      (hlater : ∀ r ∈ db.runs.rows, r.status = .completed → r.completedAt.getD 0 < now)
      (h : db.finalizeTerminalRun run actor now = some (db', run')) : Reached db'
  | restart {db now db'} (past : Reached db)
      (h : db.backfillCurrentExposures now = some db') : Reached db'

section
variable {db db' : Db}

theorem settled_start (hexposures : db.exposures = .empty)
    (hruns : ∀ run ∈ db.runs.rows, run.status ≠ .completed) : db.Settled where
  dated := fun run hrun hcompleted => absurd hcompleted (hruns run hrun)
  inScope := by
    rw [hexposures]
    exact fun _ he => absurd he List.not_mem_nil
  covered := by
    rw [hexposures]
    exact fun _ he => absurd he List.not_mem_nil
  latest := fun run hl => absurd hl.candidate.completed (hruns run hl.candidate.mem)

theorem settled_work (hs : db.Settled) (h : Work db db') : db'.Settled := by
  have hcandidate := candidate_congr h.runs h.coverage
  have hrows : ∀ p, db'.inventory p = db.inventory p := by
    intro p
    rw [inventory, h.exposures]
    rfl
  refine ⟨?_, ?_, ?_, ?_⟩
  · intro run hmem hcompleted
    exact hs.dated run ((h.runs run hcompleted).mp hmem) hcompleted
  · intro e he
    rw [h.exposures] at he
    obtain ⟨run, hc, hpair⟩ := hs.covered e he
    have hid : run.inventoryScopeId = e.inventoryScopeId := congrArg Prod.fst hpair
    rw [← hid, h.scopes run hc.mem hc.completed, hid]
    exact hs.inScope e he
  · intro e he
    rw [h.exposures] at he
    obtain ⟨run, hc, hpair⟩ := hs.covered e he
    exact ⟨run, (hcandidate run).mpr hc, hpair⟩
  · intro run hl
    have hlatest := latest_congr hcandidate hl
    have hc := hlatest.candidate
    exact rebuilds_congr (hs.latest run hlatest) (hrows run.pair)
      (h.observed run hc.mem hc.completed) (h.scopes run hc.mem hc.completed)

theorem settled_restart (hs : db.Settled) {now : DateTime}
    (h : db.backfillCurrentExposures now = some db') : db'.Settled := by
  obtain ⟨db₁, hback, hframe, hrows⟩ := backfill_spec hs now
  rw [h] at hback
  cases hback
  have hback : ∀ e ∈ db'.exposures.rows, ∃ e₀ ∈ db.exposures.rows, e = e₀.counted 1 := by
    intro e he
    have hmem := mem_exposures.mp he
    rw [hrows] at hmem
    obtain ⟨e₀, he₀, rfl⟩ := List.mem_map.mp hmem
    exact ⟨e₀, (mem_inventory.mp he₀).1, rfl⟩
  obtain ⟨hruns, hscopes, hopen, hcount⟩ := sources_frame hframe
  have hcandidate : ∀ run, db'.Candidate run ↔ db.Candidate run :=
    candidate_congr (fun _ _ => by rw [hruns]) fun run _ _ => hcount run.id
  refine ⟨?_, ?_, ?_, ?_⟩
  · rw [hruns]
    exact hs.dated
  · intro e he
    obtain ⟨e₀, he₀, rfl⟩ := hback e he
    rw [hscopes]
    exact hs.inScope e₀ he₀
  · intro e he
    obtain ⟨e₀, he₀, rfl⟩ := hback e he
    obtain ⟨run, hc, hpair⟩ := hs.covered e₀ he₀
    exact ⟨run, (hcandidate run).mpr hc, hpair⟩
  · intro run hl scope t hscope ht
    rw [hscopes] at hscope
    have hrebuilt := hs.latest run (latest_congr hcandidate hl) scope t hscope ht
    rw [← hrows] at hrebuilt
    rw [hopen]
    exact rebuild_again hrebuilt.symm

/-- The runs after a committed run is finalized: the others, and it. -/
theorem mem_flush_finalized {counts : TerminalCounts} {run : ScanRun} {now : DateTime}
    (hrun : db.runs.get run.id = some run) (r : ScanRun) :
    r ∈ (db.flushRun run (counts.finalized run now)).runs.rows ↔
      (r ∈ db.runs.rows ∧ r.id ≠ run.id) ∨ r = counts.finalized run now := by
  have hflushed : ScanRun.writeBack run (counts.finalized run now) run =
      counts.finalized run now := by
    simp only [ScanRun.writeBack, writeBack_current]
    rfl
  have hget := get_flushRun db run (counts.finalized run now)
  constructor
  · intro hmem
    have hr := hget r.id
    rw [show (db.flushRun run _).runs.get r.id = some r from Table.get_of_mem hmem] at hr
    obtain ⟨r₀, hr₀, heq⟩ := Option.map_eq_some_iff.mp hr.symm
    by_cases hid : r.id = run.id
    · rw [hid, hrun] at hr₀
      cases hr₀
      rw [if_pos hid, hflushed] at heq
      exact Or.inr heq.symm
    · rw [if_neg hid] at heq
      exact Or.inl ⟨heq ▸ Table.get_mem hr₀, hid⟩
  · rintro (⟨hmem, hid⟩ | rfl)
    · have hr := hget r.id
      rw [show db.runs.get r.id = some r from Table.get_of_mem hmem, Option.map_some,
        if_neg hid] at hr
      exact Table.get_mem hr
    · have hr := hget run.id
      rw [hrun, Option.map_some, if_pos rfl, hflushed] at hr
      exact Table.get_mem hr

/-- The run object after `finalizeTerminalRun` fires on it. -/
def finalizedRun (db : Db) (run : ScanRun) (now : DateTime) : ScanRun :=
  (db.terminalCounts run.id).finalized run now

/-- The finalization of a committed run fires. -/
structure Finalizes (db db' : Db) (run : ScanRun) (now : DateTime) : Prop where
  committed : db.runs.get run.id = some run
  fires : (db.terminalCounts run.id).fires run = true
  frame : db' = { db.flushRun run (db.finalizedRun run now) with
    exposures := db'.exposures, audits := db'.audits }

namespace Finalizes

variable {run r : ScanRun} {now : DateTime} (hf : db.Finalizes db' run now)
include hf

theorem scopes : db'.scopes = db.scopes := by
  rw [hf.frame]
  rfl

theorem opened (id : Uuid) : db'.openServices id = db.openServices id := by
  rw [hf.frame]
  rfl

theorem counted (id : Uuid) :
    db'.incompleteDiscoveryShards id = db.incompleteDiscoveryShards id := by
  rw [hf.frame]
  rfl

theorem mem_runs :
    r ∈ db'.runs.rows ↔ (r ∈ db.runs.rows ∧ r.id ≠ run.id) ∨ r = db.finalizedRun run now := by
  rw [hf.frame]
  exact mem_flush_finalized hf.committed r

/-- The run was not completed, so it was no candidate, and the candidates stay. -/
theorem kept (hc : db.Candidate r) : db'.Candidate r := by
  have hother : r.id ≠ run.id := by
    intro hid
    have hr := Table.get_of_mem hc.mem
    rw [key_scanRun, hid, hf.committed] at hr
    cases hr
    have hterm := (TerminalCounts.fires_iff.mp hf.fires).1
    rw [hc.completed] at hterm
    cases hterm
  exact ⟨hf.mem_runs.mpr (Or.inl ⟨hc.mem, hother⟩), hc.completed,
    (hf.counted r.id).trans hc.covered⟩

theorem candidate_cases (hc : db'.Candidate r) :
    db.Candidate r ∨ (r = db.finalizedRun run now ∧ r.status = .completed ∧
      (db.terminalCounts run.id).incomplete = 0) := by
  obtain ⟨hr, hcompleted, hcovered⟩ := hc
  rcases hf.mem_runs.mp hr with ⟨hold, -⟩ | rfl
  · exact Or.inl ⟨hold, hcompleted, (hf.counted r.id).symm.trans hcovered⟩
  · exact Or.inr ⟨rfl, hcompleted, (hf.counted run.id).symm.trans hcovered⟩

theorem dated (hs : db.Settled) :
    ∀ r ∈ db'.runs.rows, r.status = .completed → r.completedAt ≠ none := by
  intro r hr hcompleted
  rcases hf.mem_runs.mp hr with ⟨hold, -⟩ | rfl
  · exact hs.dated r hold hcompleted
  · exact Option.some_ne_none now

/-- A latest run that was a candidate before is rebuilt as before. -/
theorem rebuilds (hs : db.Settled) (hl : db'.Latest r) (hc : db.Candidate r)
    (hrows : db'.inventory r.pair = db.inventory r.pair) : db'.Rebuilds r := by
  have hlatest : db.Latest r := ⟨hc, fun r' hc' hpair => hl.last r' (hf.kept hc') hpair⟩
  exact rebuilds_congr (hs.latest r hlatest) hrows (hf.opened r.id) (by rw [hf.scopes])

/-- The finalization replaces the rows of the run's pair. -/
theorem settled_replaced (hs : db.Settled) {scope : InventoryScope}
    (hm : db.Materializes (db.terminalCounts run.id) run scope)
    (hlater : ∀ r ∈ db.runs.rows, r.status = .completed → r.completedAt.getD 0 < now)
    (hrows : db'.inventory run.pair =
      (db.openServices run.id).map (db.exposureRow scope (db.finalizedRun run now) now))
    (hother : ∀ p, p ≠ run.pair → db'.inventory p = db.inventory p) : db'.Settled := by
  have hnew : db'.Candidate (db.finalizedRun run now) := by
    refine ⟨hf.mem_runs.mpr (Or.inr rfl), ?_, (hf.counted run.id).trans hm.incomplete⟩
    rw [finalizedRun, TerminalCounts.finalized, hm.failed]
    rfl
  have hback : ∀ e ∈ db'.exposures.rows, e.pair = run.pair ∨ e ∈ db.exposures.rows := by
    intro e he
    by_cases hpair : e.pair = run.pair
    · exact Or.inl hpair
    · have hmem := mem_exposures.mp he
      rw [hother e.pair hpair] at hmem
      exact Or.inr (mem_inventory.mp hmem).1
  refine ⟨hf.dated hs, ?_, ?_, ?_⟩
  · intro e he
    rw [hf.scopes]
    rcases hback e he with hpair | he₀
    · have hid : e.inventoryScopeId = run.inventoryScopeId := congrArg Prod.fst hpair
      rw [hid, hm.scope]
      rfl
    · exact hs.inScope e he₀
  · intro e he
    rcases hback e he with hpair | he₀
    · exact ⟨_, hnew, hpair.symm⟩
    · obtain ⟨r, hc, hpair⟩ := hs.covered e he₀
      exact ⟨r, hf.kept hc, hpair⟩
  · intro r hl
    rcases hf.candidate_cases hl.candidate with hc | ⟨rfl, -, -⟩
    · by_cases hpair : r.pair = run.pair
      · -- the run just finalized is a later one of the same pair
        have hle := hl.last _ hnew hpair.symm
        have hlt := hlater r hc.mem hc.completed
        exact absurd hle (Int.not_le.mpr hlt)
      · exact hf.rebuilds hs hl hc (hother r.pair hpair)
    · intro scope' t hscope ht
      cases ht
      rw [hf.scopes, show (db.finalizedRun run now).inventoryScopeId = run.inventoryScopeId
        from rfl, hm.scope] at hscope
      cases hscope
      rw [hf.opened]
      exact rebuild_again hrows

/-- The finalization leaves the read model alone: the run failed, its coverage is
incomplete, or its scope is gone. -/
theorem settled_withheld (hs : db.Settled)
    (hm : ∀ scope, ¬ db.Materializes (db.terminalCounts run.id) run scope)
    (hexposures : db'.exposures = db.exposures) : db'.Settled := by
  refine ⟨hf.dated hs, ?_, ?_, ?_⟩
  · rw [hexposures, hf.scopes]
    exact hs.inScope
  · intro e he
    rw [hexposures] at he
    obtain ⟨r, hc, hpair⟩ := hs.covered e he
    exact ⟨r, hf.kept hc, hpair⟩
  · intro r hl
    rcases hf.candidate_cases hl.candidate with hc | ⟨rfl, hcompleted, hincomplete⟩
    · apply hf.rebuilds hs hl hc
      rw [inventory, hexposures]
      rfl
    · -- completed with full coverage, so what is missing is its scope
      intro scope t hscope ht
      have hfailed : (db.terminalCounts run.id).failed = 0 := by
        by_contra hne
        rw [finalizedRun, TerminalCounts.finalized] at hcompleted
        dsimp only at hcompleted
        rw [if_pos hne] at hcompleted
        cases hcompleted
      rw [hf.scopes] at hscope
      exact absurd ⟨hf.fires, hfailed, hincomplete, hscope⟩ (hm scope)

end Finalizes

theorem settled_finalize (hs : db.Settled) {run run' : ScanRun} {actor : String} {now : DateTime}
    (hrun : db.runs.get run.id = some run)
    (hlater : ∀ r ∈ db.runs.rows, r.status = .completed → r.completedAt.getD 0 < now)
    (h : db.finalizeTerminalRun run actor now = some (db', run')) : db'.Settled := by
  rcases finalizeWith_spec h with ⟨-, rfl, -⟩ | ⟨hfires, rfl, hframe⟩
  · exact hs
  have hf : db.Finalizes db' run now := ⟨hrun, hfires, hframe⟩
  by_cases hm : ∃ scope, db.Materializes (db.terminalCounts run.id) run scope
  · obtain ⟨scope, hm⟩ := hm
    exact hf.settled_replaced hs hm hlater (hm.inventory h).2
      fun _ hp => finalizeWith_other h hp
  · have hexposures : db'.exposures = db.exposures := by
      refine (exposures_finalizeWith h).resolve_right ?_
      rintro ⟨-, hfailed, hincomplete, hsome⟩
      obtain ⟨scope, hscope⟩ := Option.isSome_iff_exists.mp hsome
      exact hm ⟨scope, hfires, hfailed, hincomplete, hscope⟩
    exact hf.settled_withheld hs (fun scope hscope => hm ⟨scope, hscope⟩) hexposures

/-- The invariant of the reachable states. -/
theorem Reached.settled (h : Reached db) : db.Settled := by
  induction h with
  | start hexposures hruns => exact settled_start hexposures hruns
  | work _ hwork ih => exact settled_work ih hwork
  | finalize _ hrun hlater hfin ih => exact settled_finalize ih hrun hlater hfin
  | restart _ hback ih => exact settled_restart ih hback

end

/-! ## Restarts -/

/-- The scheduler starts at each of the times. -/
def restarts (db : Db) : List DateTime → Option Db
  | [] => some db
  | now :: times => (db.backfillCurrentExposures now).bind fun db => restarts db times

/-- Every row is there as it was.  The zone is the scope's. -/
def SameRows (db db' : Db) : Prop :=
  ∀ k, (db'.exposures.get k).map (fun e => { e with zone := "" }) =
    (db.exposures.get k).map fun e => { e with zone := "" }

/-- The run lemma: `n` restarts count every row `n` times more. -/
theorem restarts_spec {db : Db} (hs : db.Settled) (times : List DateTime) :
    ∃ db', db.restarts times = some db' ∧
      ∀ k, db'.exposures.get k =
        (db.exposures.get k).map (CurrentExposure.counted times.length) := by
  induction times generalizing db with
  | nil =>
    refine ⟨db, rfl, fun k => ?_⟩
    cases db.exposures.get k with
    | none => rfl
    | some e => rfl
  | cons now times ih =>
    obtain ⟨db₁, hback, -, hrows⟩ := backfill_spec hs now
    obtain ⟨db', hrest, hget⟩ := ih (settled_restart hs hback)
    refine ⟨db', by rw [restarts, hback, Option.bind_some, hrest], fun k => ?_⟩
    rw [hget, get_counted (hrows k.1) k.2, Option.map_map]
    congr 1
    funext e
    show ({ e with scanCount := e.scanCount + 1 + times.length } : CurrentExposure) = _
    rw [Nat.add_assoc, Nat.add_comm 1]
    rfl

/-- Restarts leave the inventory as it was exactly when there are none or it is
empty.  Otherwise every row has been counted once for each. -/
theorem restart_transparent (db : Db) (h : Reached db) (times : List DateTime) :
    ∃ db', db.restarts times = some db' ∧
      (SameRows db db' ↔ times = [] ∨ db.exposures.rows = []) ∧
      ∀ k, db'.exposures.get k =
        (db.exposures.get k).map (CurrentExposure.counted times.length) := by
  obtain ⟨db', hrestarts, hget⟩ := restarts_spec h.settled times
  refine ⟨db', hrestarts, ⟨fun hsame => ?_, ?_⟩, hget⟩
  · by_contra hnot
    rw [not_or] at hnot
    obtain ⟨e, he⟩ := List.exists_mem_of_ne_nil _ hnot.2
    have hrow := hsame (Keyed.key e)
    rw [hget, Table.get_of_mem he, Option.map_some, Option.map_some, Option.map_some] at hrow
    have hcount : e.scanCount + times.length = e.scanCount :=
      congrArg CurrentExposure.scanCount (Option.some.inj hrow)
    have hlen : times.length = 0 := by omega
    exact hnot.1 (List.length_eq_zero_iff.mp hlen)
  · rintro (rfl | hempty) k
    · cases hrestarts
      rfl
    · have hnone : db.exposures.get k = none := by
        rw [Option.eq_none_iff_forall_ne_some]
        intro e he
        have hmem := Table.get_mem he
        rw [hempty] at hmem
        cases hmem
      rw [hget, hnone]
      rfl

end Db

namespace Demo

def scanned : ScanRun :=
  { id := "run", inventoryScopeId := "scope", profileId := "profile", status := .running,
    requestedBy := "operator" }

/-- A run whose one shard is completed, with one open service. -/
def finished : Db where
  scopes := scopes
  profiles := profiles
  runs := { rows := [scanned], nodup := by decide }
  shards := {
    rows := [{ id := "s1", runId := "run", cidr := "10.0.0.0/24", zone := "default",
               status := .completed }]
    nodup := by decide }
  hosts := {
    rows := [{ id := "h1", runId := "run", shardId := "s1", address := "10.0.0.5",
               state := "up" }]
    nodup := by decide }
  services := {
    rows := [{ id := "v1", hostObservationId := "h1", protocol := "tcp", port := 443,
               state := "open" }]
    nodup := by decide }

def exposureKey : Pair × ServiceKey := (("scope", "profile"), ("10.0.0.5", "tcp", 443))

/-- The run finalized, then the scheduler started at each of the times. -/
def restarted (times : List DateTime) : Option (Option Nat × Option Nat) :=
  (finished.finalizeTerminalRun scanned "scheduler" 5).bind fun (db, _) =>
    (db.restarts times).map fun db' =>
      ((db.exposures.get exposureKey).map CurrentExposure.scanCount,
        (db'.exposures.get exposureKey).map CurrentExposure.scanCount)

theorem restarted_reached {times : List DateTime} {obs : Option Nat × Option Nat}
    (h : restarted times = some obs) :
    ∃ db db', Db.Reached db ∧ db.restarts times = some db' ∧
      (db.exposures.get exposureKey).map CurrentExposure.scanCount = obs.1 ∧
      (db'.exposures.get exposureKey).map CurrentExposure.scanCount = obs.2 := by
  obtain ⟨⟨db, run'⟩, hfin, h⟩ := Option.bind_eq_some_iff.mp h
  obtain ⟨db', hrestarts, rfl⟩ := Option.map_eq_some_iff.mp h
  have hruns : ∀ run ∈ finished.runs.rows, run.status ≠ .completed := by
    intro run hrun
    cases List.mem_singleton.mp hrun
    decide
  refine ⟨db, db', .finalize (.start rfl hruns) rfl ?_ hfin, hrestarts, rfl, rfl⟩
  exact fun run hrun hcompleted => absurd hcompleted (hruns run hrun)

end Demo

/-- One run, one restart: its row counts two scans. -/
theorem restart_counts_again :
    ¬ ∀ db, Db.Reached db → ∀ times db', db.restarts times = some db' → Db.SameRows db db' := by
  intro hall
  have hobs : Demo.restarted [6] = some (some 1, some 2) := by decide +kernel
  obtain ⟨db, db', hreached, hrestarts, hbefore, hafter⟩ := Demo.restarted_reached hobs
  have hsame := hall db hreached [6] db' hrestarts Demo.exposureKey
  have hcount := congrArg (Option.map CurrentExposure.scanCount) hsame
  rw [Option.map_map, Option.map_map] at hcount
  have hcontra : (db'.exposures.get Demo.exposureKey).map CurrentExposure.scanCount =
    (db.exposures.get Demo.exposureKey).map CurrentExposure.scanCount := hcount
  rw [hbefore, hafter] at hcontra
  exact absurd hcontra (by decide)

/-- Two restarts after one run. -/
theorem restart_transparent_twice :
    ∃ db db', Db.Reached db ∧ db.restarts [6, 7] = some db' ∧
      (Db.SameRows db db' ↔ ([6, 7] : List DateTime) = [] ∨ db.exposures.rows = []) ∧
      (db'.exposures.get Demo.exposureKey).map CurrentExposure.scanCount = some 3 := by
  have hobs : Demo.restarted [6, 7] = some (some 1, some 3) := by decide +kernel
  obtain ⟨db, db', hreached, hrestarts, -, hafter⟩ := Demo.restarted_reached hobs
  obtain ⟨db'', hrestarts', hiff, -⟩ := Db.restart_transparent db hreached [6, 7]
  rw [hrestarts] at hrestarts'
  cases hrestarts'
  exact ⟨db, db', hreached, hrestarts, hiff, hafter⟩

end TransportLookout
