/-
Getting on with the work.

`Db.Advances` is what passes and undisturbed executions do to runs and shards: no row comes or
goes, a shard that is over stays as it is and one that ends is completed, and a run that ends
has no shard left and gets the verdict its shards give.  It composes, so it holds of any
number of them.
-/
import Mathlib.Data.List.Flatten
import TransportLookout.Library.Evolution
import TransportLookout.ReadModel.Reconciliation
import TransportLookout.System.Copies

namespace TransportLookout

open Relational Trace

structure ScanShard.Advances (r r' : ScanShard) : Prop where
  runId : r'.runId = r.runId
  fixed : r.status.terminal = true → r'.status = r.status
  ended : r.status.terminal = false → r'.status.terminal = true → r'.status = .completed

namespace ScanShard.Advances

variable {r r' r'' : ScanShard}

theorem refl (r : ScanShard) : r.Advances r :=
  ⟨rfl, fun _ => rfl, fun hactive hover => by rw [hactive] at hover; cases hover⟩

theorem trans (h : r.Advances r') (h' : r'.Advances r'') : r.Advances r'' where
  runId := h'.runId.trans h.runId
  fixed := fun hover => by
    have hsame := h.fixed hover
    rw [h'.fixed (hsame ▸ hover), hsame]
  ended := fun hactive hover => by
    cases hmiddle : r'.status.terminal with
    | true => rw [h'.fixed hmiddle, h.ended hactive hmiddle]
    | false => exact h'.ended hmiddle hover

/-- A shard in work goes on to another status, or ends completed. -/
theorem of_active (hrun : r'.runId = r.runId) (hactive : r.status.terminal = false)
    (hstatus : r'.status.terminal = false ∨ r'.status = .completed) : r.Advances r' where
  runId := hrun
  fixed := fun hover => by
    rw [hactive] at hover
    cases hover
  ended := fun _ hover => hstatus.resolve_left fun hnot => by
    rw [hnot] at hover
    cases hover

/-- Whether a shard has failed is decided once. -/
theorem failed (h : r.Advances r') :
    (r'.status = .failed ∨ r'.status = .deadLetter) ↔
      (r.status = .failed ∨ r.status = .deadLetter) := by
  cases hstatus : r.status.terminal with
  | true => rw [h.fixed hstatus]
  | false =>
    constructor
    · intro hfailed
      have hover : r'.status.terminal = true := by
        rcases hfailed with h' | h'
        · rw [h']
          rfl
        · rw [h']
          rfl
      have hcompleted := h.ended hstatus hover
      rw [hcompleted] at hfailed
      rcases hfailed with h' | h'
      · cases h'
      · cases h'
    · intro hfailed
      rcases hfailed with h' | h'
      · rw [h'] at hstatus
        cases hstatus
      · rw [h'] at hstatus
        cases hstatus

end ScanShard.Advances

/-- No shard of the run is left to do. -/
def Db.Exhausted (db : Db) (runId : Uuid) : Prop :=
  ∀ r ∈ db.shards.rows, r.runId = runId → r.status.terminal = true

/-- How a run of these shards ends. -/
def Db.verdict (db : Db) (runId : Uuid) : RunStatus :=
  if (db.terminalCounts runId).failed ≠ 0 then .failed else .completed

structure Db.Advances (db db' : Db) : Prop where
  shards : db.shards.Evolves ScanShard.Advances db'.shards
  runs : db.runs.Evolves (fun r r' => r.status.terminal = true → r' = r) db'.runs
  ended : ∀ k r r', db.runs.get k = some r → db'.runs.get k = some r' →
    r.status.terminal = false → r'.status.terminal = true →
      db'.Exhausted k ∧ r'.status = db'.verdict k
  hosts : db'.hosts.rows.Sublist db.hosts.rows
  services : db'.services.rows.Sublist db.services.rows

namespace Db.Advances

variable {db db' db'' : Db}

/-- What leaves the runs alone. -/
theorem of_runs (hshards : db.shards.Evolves ScanShard.Advances db'.shards)
    (hruns : db'.runs = db.runs) (hhosts : db'.hosts.rows.Sublist db.hosts.rows)
    (hservices : db'.services.rows.Sublist db.services.rows) : db.Advances db' where
  shards := hshards
  runs := by
    rw [hruns]
    exact .refl (fun _ _ => rfl) _
  ended := fun k r r' hr hr' hactive hover => by
    rw [hruns, hr] at hr'
    cases hr'
    rw [hactive] at hover
    cases hover
  hosts := hhosts
  services := hservices

theorem refl (db : Db) : db.Advances db :=
  of_runs (.refl .refl _) rfl (.refl _) (.refl _)

theorem exhausted (h : db.Advances db') {k : Uuid} (hs : db.Exhausted k) : db'.Exhausted k := by
  intro r' hr' hrun
  obtain ⟨r, hr, hrel⟩ := h.shards.prior (Table.get_of_mem hr')
  have hover := hs r (Table.get_mem hr) (hrel.runId.symm.trans hrun)
  rw [hrel.fixed hover]
  exact hover

theorem verdict (h : db.Advances db') (k : Uuid) : db'.verdict k = db.verdict k := by
  have hcount : (db'.terminalCounts k).failed = (db.terminalCounts k).failed := by
    refine h.shards.count_eq fun r r' hrel => ?_
    rw [hrel.runId]
    congr 1
    exact Bool.eq_iff_iff.mpr (by simpa using hrel.failed)
  rw [Db.verdict, Db.verdict, hcount]

theorem trans (h : db.Advances db') (h' : db'.Advances db'') : db.Advances db'' where
  shards := h.shards.trans h'.shards fun _ _ _ _ _ _ _ hab hbc => hab.trans hbc
  runs := h.runs.trans h'.runs fun _ a b c _ _ _ hab hbc hover => by
    have hsame := hab hover
    rw [hbc (hsame ▸ hover), hsame]
  ended := fun k r r'' hr hr'' hactive hover => by
    obtain ⟨r', hr', -⟩ := h.runs.next hr
    cases hmiddle : r'.status.terminal with
    | false => exact h'.ended k r' r'' hr' hr'' hmiddle hover
    | true =>
      obtain ⟨hexhausted, hverdict⟩ := h.ended k r r' hr hr' hactive hmiddle
      obtain ⟨c, hc, hkept⟩ := h'.runs.next hr'
      rw [hr''] at hc
      cases hc
      rw [hkept hmiddle, h'.verdict]
      exact ⟨h'.exhausted hexhausted, hverdict⟩
  hosts := h'.hosts.trans h.hosts
  services := h'.services.trans h.services

end Db.Advances

/-! ## The writes -/

section
variable {settings : Settings} {db db' : Db} {now : DateTime}

theorem advances_recovered (settings : Settings) (db : Db) (now : DateTime) :
    db.Advances (db.flushShards (Db.staleShards settings db now) ScanShard.requeued) := by
  refine .of_runs (.of_get (Db.get_flushShards db _ _) fun k r hr => ?_) rfl (.refl _) (.refl _)
  split
  · next l hl =>
    have hmem := List.mem_of_find?_eq_some hl
    obtain ⟨hrow, hflight⟩ := Db.mem_staleShards hmem
    have hid : l.id = r.id := by simpa using List.find?_some hl
    cases db.shards.eq_of_key hrow (Table.get_mem hr) hid
    refine .of_active rfl ?_ (Or.inl ?_)
    · rcases hflight with h | h <;> rw [h] <;> rfl
    · rw [(ScanShard.writeBack_requeued hflight r).1]
      rfl
  · exact .refl r

theorem advances_leased {leases : List (Uuid × Uuid)} {eventIds : List Uuid}
    (hqueued : ∀ r ∈ db.shards.rows, r.id ∈ leases.map Prod.fst → r.status = .queued)
    (h : Db.leaseShards settings db now leases eventIds = some db') : db.Advances db' := by
  obtain ⟨-, hframe, hget⟩ := Db.leaseShards_eq_some h
  have hshards : db.shards.Evolves ScanShard.Advances db'.shards := by
    refine .of_get hget fun k r hr => ?_
    split
    · next token hlookup =>
      have hmem := List.mem_map_of_mem (f := Prod.fst) (mem_of_lookup_eq_some hlookup)
      exact .of_active rfl (by rw [hqueued r (Table.get_mem hr) hmem]; rfl) (Or.inl rfl)
    · exact .refl r
  rw [hframe] at hshards ⊢
  exact .of_runs hshards rfl (.refl _) (.refl _)

theorem advances_claimed {k token : Uuid} {workerId : String}
    (h : db.claimLease k token workerId now = some db') : db.Advances db' := by
  obtain ⟨-, hframe, hget⟩ := Db.claimLease_eq_some h
  have hshards : db.shards.Evolves ScanShard.Advances db'.shards := by
    refine .of_get hget fun _ r _ => ?_
    split
    · next hheld =>
      obtain ⟨-, hleased, -⟩ := ScanShard.held_iff.mp hheld
      exact .of_active rfl (by rw [hleased]; rfl) (Or.inl rfl)
    · exact .refl r
  rw [hframe] at hshards ⊢
  exact .of_runs hshards rfl (.refl _) (.refl _)

/-- The write of one run that is active. -/
theorem evolves_run {run assigned : ScanRun} (hrow : db.runs.get run.id = some run)
    (hactive : run.status.terminal = false) :
    db.runs.Evolves (fun r r' => r.status.terminal = true → r' = r)
      (db.flushRun run assigned).runs := by
  refine .of_get (Db.get_flushRun db run assigned) fun k r hr hover => ?_
  split
  · next hk =>
    rw [hk, hrow] at hr
    cases hr
    rw [hactive] at hover
    cases hover
  · rfl

theorem advances_started {e : Execution} {run : ScanRun} (hrow : db.runs.get run.id = some run)
    (hactive : run.status.terminal = false) : db.Advances (e.startCommit db run now).1 where
  shards := .refl .refl _
  runs := evolves_run hrow hactive
  ended := fun k r r' hr hr' hlive hover => by
    have hget := Db.get_flushRun db run (e.startCommit db run now).2 k
    rw [show (db.flushRun run (e.startCommit db run now).2).runs.get k = some r' from hr', hr,
      Option.map_some] at hget
    have hsame := Option.some.inj hget
    by_cases hk : k = run.id
    · rw [hk, hrow] at hr
      cases hr
      rw [hsame, if_pos hk, ScanRun.status_startCommit] at hover
      split at hover
      · rw [hlive] at hover
        cases hover
      · cases hover
    · rw [hsame, if_neg hk, hlive] at hover
      cases hover
  hosts := List.filter_sublist
  services := List.filter_sublist

theorem advances_finalized {run run' : ScanRun} {actor : String}
    (hrow : db.runs.get run.id = some run)
    (h : db.finalizeWith (db.terminalCounts run.id) run actor now = some (db', run')) :
    db.Advances db' := by
  rcases Db.finalizeWith_spec h with ⟨-, rfl, -⟩ | ⟨hfires, hrun', hframe⟩
  · exact .refl _
  · obtain ⟨hactive, hpending⟩ := TerminalCounts.fires_iff.mp hfires
    have hshards : db'.shards = db.shards := by
      rw [hframe]
      rfl
    have hruns : db'.runs = (db.flushRun run run').runs := by rw [hframe]
    refine ⟨?_, ?_, ?_, ?_, ?_⟩
    · rw [hshards]
      exact .refl .refl _
    · rw [hruns]
      exact evolves_run hrow hactive
    · intro k r r' hr hr' hlive hover
      rw [hruns, Db.get_flushRun, hr, Option.map_some] at hr'
      have hsame := Option.some.inj hr'
      by_cases hk : k = run.id
      · rw [hk, hrow] at hr
        cases hr
        rw [if_pos hk, hrun'] at hsame
        constructor
        · intro x hx hrunId
          rw [hshards] at hx
          have hnone := Table.count_eq_zero.mp hpending x hx
          rw [hrunId, hk, decide_eq_true rfl, Bool.true_and, Bool.not_eq_false'] at hnone
          exact hnone
        · rw [← hsame, ScanRun.writeBack_finalized hfires now run, hk, Db.verdict]
          show _ = if (db'.shards.count _) ≠ 0 then _ else _
          rw [hshards]
          rfl
      · rw [if_neg hk] at hsame
        rw [← hsame, hlive] at hover
        cases hover
    · rw [hframe]
      exact .refl _
    · rw [hframe]
      exact .refl _

/-! ## Finalizations that go through -/

/-- A run that will be completed has no open service twice. -/
def Db.Refreshable (db : Db) (runId : Uuid) : Prop :=
  db.verdict runId = .completed → ((db.openServices runId).map Observation.key).Nodup

theorem openServices_sublist (hhosts : db'.hosts.rows.Sublist db.hosts.rows)
    (hservices : db'.services.rows.Sublist db.services.rows) (runId : Uuid) :
    (db'.openServices runId).Sublist (db.openServices runId) := by
  have hpart : ∀ host ∈ db'.hosts.rows,
      ((db'.services.rows.filter fun service => service.hostObservationId = host.id &&
        host.runId = runId && host.state = "up" && service.state = "open").map fun service =>
          (host, service)).Sublist
        ((db.services.rows.filter fun service => service.hostObservationId = host.id &&
          host.runId = runId && host.state = "up" && service.state = "open").map fun service =>
            (host, service)) :=
    fun host _ => (hservices.filter _).map _
  exact (List.Sublist.flatMap_right db'.hosts.rows hpart).trans (hhosts.flatMap _)

theorem Db.Refreshable.advances {k : Uuid} (h : db.Refreshable k) (ha : db.Advances db') :
    db'.Refreshable k := by
  intro hcompleted
  have hnodup := h (ha.verdict k ▸ hcompleted)
  exact ((openServices_sublist ha.hosts ha.services k).map Observation.key).nodup hnodup

theorem finalizes_of_refreshable {run : ScanRun} (h : db.Refreshable run.id) (actor : String)
    (now : DateTime) :
    ∃ x, db.finalizeWith (db.terminalCounts run.id) run actor now = some x := by
  by_cases hcompleted : db.verdict run.id = .completed
  · exact Option.isSome_iff_exists.mp (Db.finalizeWith_total (h hcompleted) _ actor now)
  · have hstatus : ((db.terminalCounts run.id).finalized run now).status ≠ .completed :=
      hcompleted
    rw [Db.finalizeWith]
    split
    · dsimp only
      rw [Db.refreshInventory, if_pos hstatus]
      exact ⟨_, rfl⟩
    · exact ⟨_, rfl⟩

end

end TransportLookout
