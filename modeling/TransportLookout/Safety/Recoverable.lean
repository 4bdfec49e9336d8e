/-
Every held shard can be recovered.

The recovery filter compares timestamps, and a comparison with NULL selects
nothing.  A leased row without an expiry, or a running row without a heartbeat,
would be held for good.  Each write that makes a row leased or running sets the
timestamp its filter reads, and each write that clears one moves the row on.
-/
import TransportLookout.System.Copies
import Mathlib.Data.Finset.Dedup
import Mathlib.Data.Finset.Order

namespace TransportLookout

open Relational Trace

/-- The columns a recovery needs to find the shard. -/
structure ScanShard.Timed (r : ScanShard) : Prop where
  leased : r.status = .leased → r.leaseToken.isSome = true ∧ r.leaseExpiresAt.isSome = true
  running : r.status = .running → r.leaseToken.isSome = true ∧ r.heartbeatAt.isSome = true

/-- The instant after which a recovery takes the shard for lost. -/
def ScanShard.deadline (settings : Settings) (r : ScanShard) : DateTime :=
  if r.status = .leased then r.leaseExpiresAt.getD 0
  else r.heartbeatAt.getD 0 + seconds settings.shardLeaseSeconds

/-- A shard that is neither leased nor running needs no timestamp. -/
theorem ScanShard.Timed.of_idle {r : ScanShard} (h : r.status.inFlight = false) : r.Timed := by
  refine ⟨fun hl => ?_, fun hr => ?_⟩
  · rw [hl] at h
    cases h
  · rw [hr] at h
    cases h

theorem isBefore_iff {column : Option DateTime} {now : DateTime} :
    isBefore column now = true ↔ ∃ t, column = some t ∧ t < now := by
  cases column with
  | none => simp [isBefore]
  | some t => simp [isBefore]

/-- What a recovery past the deadline selects. -/
theorem stale_of_deadline {settings : Settings} {db : Db} {now : DateTime} {r : ScanShard}
    (hr : r ∈ db.shards.rows) (hflight : r.status.inFlight = true) (htimed : r.Timed)
    (hnow : r.deadline settings < now) : r ∈ Db.staleShards settings db now := by
  refine Table.mem_select.mpr ⟨hr, ?_⟩
  rw [Bool.or_eq_true, Bool.and_eq_true, Bool.and_eq_true, decide_eq_true_eq, decide_eq_true_eq,
    isBefore_iff, isBefore_iff]
  rcases ShardStatus.inFlight_iff.mp hflight with hl | hrun
  · left
    obtain ⟨t, ht⟩ := Option.isSome_iff_exists.mp (htimed.leased hl).2
    rw [ScanShard.deadline, if_pos hl, ht, Option.getD_some] at hnow
    exact ⟨hl, t, ht, hnow⟩
  · right
    obtain ⟨t, ht⟩ := Option.isSome_iff_exists.mp (htimed.running hrun).2
    have hne : r.status ≠ .leased := by
      rw [hrun]
      decide
    rw [ScanShard.deadline, if_neg hne, ht, Option.getD_some] at hnow
    exact ⟨hrun, t, ht, Int.lt_sub_right_of_add_lt hnow⟩

/-- A recovery leaves no shard it selected leased or running. -/
theorem flush_frees {settings : Settings} {db : Db} {now : DateTime} {r' : ScanShard}
    (hall : ∀ r ∈ db.shards.rows, r.status.inFlight = true → r ∈ Db.staleShards settings db now)
    (hr' : r' ∈ (db.flushShards (Db.staleShards settings db now) ScanShard.requeued).shards.rows) :
    r'.status.inFlight = false := by
  have hget := Table.get_of_mem hr'
  rw [Db.get_flushShards] at hget
  obtain ⟨r, hr, -⟩ := Option.map_eq_some_iff.mp hget
  have hget' : db.shards.get (Keyed.key r') = some r := hr
  obtain ⟨r'', hr'', hcase⟩ :=
    Db.get_flushShards_cases (Db.staleShards settings db now) ScanShard.requeued hget'
  rw [Table.get_of_mem hr'] at hr''
  cases hr''
  rcases hcase with rfl | ⟨l, hl, hid, rfl⟩
  · -- a row the flush left alone was not on the list
    by_contra hflight
    have hmem := hall r' (Table.get_mem hget') (Bool.eq_true_of_not_eq_false hflight)
    obtain ⟨l, hl, -, hflushed⟩ := Db.get_flushShards_of_mem ScanShard.requeued hget' hmem
    rw [show (db.flushShards _ _).shards.get r'.id = some r' from Table.get_of_mem hr'] at hflushed
    have hqueued := (ScanShard.writeBack_requeued (Db.mem_staleShards hl).2 r').1
    rw [← Option.some.inj hflushed] at hqueued
    rw [hqueued] at hflight
    exact hflight rfl
  · rw [(ScanShard.writeBack_requeued (Db.mem_staleShards hl).2 r).1]
    rfl

section
variable {settings : Settings} {s s' : State} {a : Action} {r r' : ScanShard}

/-- The step lemma on rows: what makes a row leased or running times it. -/
theorem ShardStep.timed (hc : Copies s) (htimed : r.Timed) (h : ShardStep settings s a r r') :
    r'.Timed := by
  cases h with
  | lease =>
    refine ⟨fun _ => ⟨rfl, rfl⟩, fun h => ?_⟩
    cases h
  | @bind _ token _ _ _ loaded =>
    rw [ScanShard.writeBack_bound]
    have hsome : (Relational.writeBack loaded.leaseToken (some token) r.leaseToken).isSome = true ∨
        Relational.writeBack loaded.leaseToken (some token) r.leaseToken = r.leaseToken := by
      by_cases heq : some token = loaded.leaseToken
      · exact Or.inr (if_pos heq)
      · exact Or.inl (by rw [writeBack_of_ne heq]; rfl)
    refine ⟨fun hl => ?_, fun hr => ?_⟩
    · obtain ⟨htoken, hexpires⟩ := htimed.leased hl
      exact ⟨hsome.elim id fun h => by rw [h]; exact htoken, hexpires⟩
    · obtain ⟨htoken, hbeat⟩ := htimed.running hr
      exact ⟨hsome.elim id fun h => by rw [h]; exact htoken, hbeat⟩
  | recover hp hl _ =>
    have hqueued := (ScanShard.writeBack_requeued (hc.stale _ (List.mem_of_getElem? hp) _ hl) r).1
    exact .of_idle (by rw [hqueued]; rfl)
  | cancel hp hl _ =>
    rw [ScanShard.writeBack_cancelled (hc.selected _ (List.mem_of_getElem? hp) _ hl).1]
    exact .of_idle rfl
  | claim _ hheld =>
    have htoken := (ScanShard.held_iff.mp hheld).2.2
    refine ⟨fun h => ?_, fun _ => ⟨?_, rfl⟩⟩
    · cases h
    · rw [show (r.claimed _ _).leaseToken = r.leaseToken from rfl, htoken]
      rfl
  | beat _ hheld =>
    obtain ⟨-, hrunning, htoken⟩ := ScanShard.held_iff.mp hheld
    refine ⟨fun h => ?_, fun _ => ⟨?_, rfl⟩⟩
    · rw [show r.status = .leased from h] at hrunning
      cases hrunning
    · rw [show r.leaseToken = _ from htoken]
      rfl
  | @finish _ _ _ o =>
    cases o with
    | _ => exact .of_idle rfl

theorem timed_step (hc : Copies s) (htimed : ∀ k r, s.db.shards.get k = some r → r.Timed)
    (h : s.step settings a = some s') : ∀ k r, s'.db.shards.get k = some r → r.Timed := by
  intro k r' hr'
  rcases shard_cases h hr' with ⟨r, hr, rfl | hstep⟩ | hnew
  · exact htimed k r' hr
  · exact hstep.timed hc (htimed k r hr)
  · rw [hnew.blank]
    exact .of_idle rfl

theorem timed_run {scopes : Table InventoryScope} {profiles : Table ScanProfile}
    {tr : List (Transition State Action)} {t : State}
    (h : Run settings (State.initial scopes profiles) tr t) :
    ∀ k r, t.db.shards.get k = some r → r.Timed := by
  have hinv : Copies t ∧ ∀ k r, t.db.shards.get k = some r → r.Timed :=
    Path.invariant (I := fun s => Copies s ∧ ∀ k r, s.db.shards.get k = some r → r.Timed)
      (C := fun _ _ => true) h
      ⟨copies_start _, fun _ _ hr => absurd (Table.get_mem hr) List.not_mem_nil⟩
      (fun _ _ _ ⟨hc, ht⟩ _ hs => ⟨copies_step hc hs, timed_step hc ht hs⟩) fun _ _ => rfl
  exact hinv.2

end

/-- What makes the held shards of a state recoverable. -/
structure Recoverable (settings : Settings) (s : State) : Prop where
  timed : ∀ r ∈ s.db.shards.rows, r.Timed
  /-- From some instant on, a recovery selects every held shard and frees it. -/
  selected : ∃ t, ∀ now, t < now →
    (∀ r ∈ s.db.shards.rows, r.status.inFlight = true → r ∈ Db.staleShards settings s.db now) ∧
      ∀ r ∈ (s.db.flushShards (Db.staleShards settings s.db now) ScanShard.requeued).shards.rows,
        r.status.inFlight = false

theorem held_recoverable (settings : Settings) (scopes : Table InventoryScope)
    (profiles : Table ScanProfile) (tr : List (Transition State Action)) (t : State)
    (h : Run settings (State.initial scopes profiles) tr t) : Recoverable settings t := by
  have htimed : ∀ r ∈ t.db.shards.rows, r.Timed := fun r hr =>
    timed_run h _ r (Table.get_of_mem hr)
  obtain ⟨last, hlast⟩ := ((t.db.shards.rows.map (ScanShard.deadline settings)).toFinset).exists_le
  refine ⟨htimed, last, fun now hnow => ?_⟩
  have hall : ∀ r ∈ t.db.shards.rows, r.status.inFlight = true →
        r ∈ Db.staleShards settings t.db now := by
    intro r hr hflight
    refine stale_of_deadline hr hflight (htimed r hr) (lt_of_le_of_lt (hlast _ ?_) hnow)
    exact List.mem_toFinset.mpr (List.mem_map.mpr ⟨r, hr, rfl⟩)
  exact ⟨hall, fun r hr => flush_frees hall hr⟩

/-- The worker of the running shard may die without a trace. -/
theorem held_recoverable_running :
    ∃ tr t, Run {} Demo.start tr t ∧ Recoverable {} t ∧
      t.db.shards.rows.map ScanShard.status = [.running, .queued] := by
  have hrun : (runAll (State.step {}) Demo.start Demo.running).map
      (fun t => t.db.shards.rows.map ScanShard.status) = some [.running, .queued] := by
    decide +kernel
  obtain ⟨tr, t, hp, hobs⟩ := Path.of_runAll_map hrun
  exact ⟨tr, t, hp, held_recoverable {} _ _ tr t hp, hobs⟩

end TransportLookout
