/-
Dispatches whose parts interleave.

`dispatch_available_shards` counts the active shards, locks queued ones with
`FOR UPDATE SKIP LOCKED`, and commits their leases.  `State.step` takes the last
two in one step.  Here they are apart: the rows a dispatch has selected stay
locked until its transaction ends, a selection skips what others have locked,
and a statement that would change a locked row has to wait.

A selection may skip more than that: rows other transactions are about to write
are locked as well, and which ones is left open.

The state also keeps which runs had leases committed, in order, and how many of
these commits each count came after.  No step reads that history.
-/
import TransportLookout.System.RunRows

namespace TransportLookout

open Relational Trace

/-- The shards one dispatch has locked and not yet leased, and the commits of
leases before its count. -/
structure Selection where
  runId : Uuid
  locked : List ScanShard
  now : DateTime
  counted : Nat
deriving DecidableEq, Repr

def Db.selectForUpdate (db : Db) (runId : Uuid) (now : DateTime) (capacity : Nat)
    (skipped : List Uuid) : List ScanShard :=
  ((db.dispatchableShards runId now db.shards.rows.length).filter
    fun s => s.id ∉ skipped).take capacity

/-- `committed` lists the run of every commit that leased a shard, and `counted`
how many of these were there when each of the dispatches counted. -/
structure Dispatching where
  base : State
  selections : List Selection := []
  committed : List Uuid := []
  counted : List Nat := []

inductive DispatchAction
  | other (a : Action)
  | select (p : Nat) (skipped : List Uuid) (now : DateTime)
  | commit (q : Nat) (tokens eventIds : List Uuid)
  | abort (q : Nat)
deriving DecidableEq, Repr

def Action.leases : Action → Bool
  | .lease .. => true
  | _ => false

def Action.counts : Action → Bool
  | .countActive .. => true
  | _ => false

/-- What a commit adds to the history. -/
def Selection.committed (sel : Selection) : List Uuid :=
  if sel.locked = [] then [] else [sel.runId]

namespace Dispatching

def lockedIds (s : Dispatching) : List Uuid :=
  s.selections.flatMap fun sel => sel.locked.map ScanShard.id

def step (settings : Settings) (s : Dispatching) : DispatchAction → Option Dispatching
  | .other a =>
    if a.leases then none
    else do
      let base ← s.base.step settings a
      if ∀ k ∈ s.lockedIds, base.db.shards.get k = s.base.db.shards.get k then
        some { s with
          base := base
          counted := s.counted ++ if a.counts then [s.committed.length] else [] }
      else none
  | .select p skipped now => do
    let d ← s.base.dispatches[p]?
    let chosen := s.base.db.selectForUpdate d.runId now d.capacity (skipped ++ s.lockedIds)
    return { s with
      base := { s.base with dispatches := s.base.dispatches.set p { d with capacity := 0 } }
      selections := s.selections ++ [⟨d.runId, chosen, now, (s.counted[p]?).getD 0⟩] }
  | .commit q tokens eventIds => do
    let sel ← s.selections[q]?
    if tokens.length = sel.locked.length ∧ eventIds.length = sel.locked.length ∧ tokens.Nodup ∧
        ∀ t ∈ tokens, t ∉ s.base.issued then do
      let db ← Db.leaseShards settings s.base.db sel.now
        ((sel.locked.map ScanShard.id).zip tokens) eventIds
      return { s with
        base := { s.base with db := db, issued := s.base.issued ++ tokens }
        selections := s.selections.set q { sel with locked := [] }
        committed := s.committed ++ sel.committed }
    else none
  | .abort q => do
    let sel ← s.selections[q]?
    return { s with selections := s.selections.set q { sel with locked := [] } }

end Dispatching

/-! ## What a step can do -/

section
variable {settings : Settings} {s s' : Dispatching}

theorem dispatching_other {a : Action} (h : s.step settings (.other a) = some s') :
    a.leases = false ∧ s.base.step settings a = some s'.base ∧
      (∀ k ∈ s.lockedIds, s'.base.db.shards.get k = s.base.db.shards.get k) ∧
      s' = { s with
        base := s'.base
        counted := s.counted ++ if a.counts then [s.committed.length] else [] } := by
  simp only [Dispatching.step] at h
  split at h
  · cases h
  · next hl =>
    obtain ⟨base, hbase, h⟩ := Option.bind_eq_some_iff.mp h
    split at h
    · next hkept =>
      cases h
      exact ⟨Bool.eq_false_iff.mpr hl, hbase, hkept, rfl⟩
    · cases h

theorem dispatching_select {p : Nat} {skipped : List Uuid} {now : DateTime}
    (h : s.step settings (.select p skipped now) = some s') :
    ∃ d, s.base.dispatches[p]? = some d ∧ s' = { s with
      base := { s.base with dispatches := s.base.dispatches.set p { d with capacity := 0 } }
      selections := s.selections ++ [⟨d.runId, s.base.db.selectForUpdate d.runId now d.capacity
        (skipped ++ s.lockedIds), now, (s.counted[p]?).getD 0⟩] } := by
  simp only [Dispatching.step] at h
  obtain ⟨d, hd, h⟩ := Option.bind_eq_some_iff.mp h
  cases h
  exact ⟨d, hd, rfl⟩

theorem dispatching_commit {q : Nat} {tokens eventIds : List Uuid}
    (h : s.step settings (.commit q tokens eventIds) = some s') :
    ∃ sel db, s.selections[q]? = some sel ∧ tokens.length = sel.locked.length ∧
      Db.leaseShards settings s.base.db sel.now ((sel.locked.map ScanShard.id).zip tokens)
        eventIds = some db ∧
      s' = { s with
        base := { s.base with db := db, issued := s.base.issued ++ tokens }
        selections := s.selections.set q { sel with locked := [] }
        committed := s.committed ++ sel.committed } := by
  simp only [Dispatching.step] at h
  obtain ⟨sel, hsel, h⟩ := Option.bind_eq_some_iff.mp h
  split at h
  · next hg =>
    obtain ⟨db, hdb, h⟩ := Option.bind_eq_some_iff.mp h
    cases h
    exact ⟨sel, db, hsel, hg.1, hdb, rfl⟩
  · cases h

theorem dispatching_abort {q : Nat} (h : s.step settings (.abort q) = some s') :
    ∃ sel, s.selections[q]? = some sel ∧
      s' = { s with selections := s.selections.set q { sel with locked := [] } } := by
  simp only [Dispatching.step] at h
  obtain ⟨sel, hsel, h⟩ := Option.bind_eq_some_iff.mp h
  cases h
  exact ⟨sel, hsel, rfl⟩

end

/-! ## What is selected -/

theorem Db.mem_selectForUpdate {db : Db} {runId : Uuid} {now : DateTime} {capacity : Nat}
    {skipped : List Uuid} {r : ScanShard}
    (h : r ∈ db.selectForUpdate runId now capacity skipped) :
    db.shards.get r.id = some r ∧ r.runId = runId ∧ r.status = .queued ∧ r.id ∉ skipped := by
  obtain ⟨hmem, hskip⟩ := List.mem_filter.mp (List.mem_of_mem_take h)
  obtain ⟨hr, hrun, hstatus⟩ := Db.mem_dispatchableShards hmem
  exact ⟨Table.get_of_mem hr, hrun, hstatus, of_decide_eq_true hskip⟩

theorem Db.nodup_selectForUpdate (db : Db) (runId : Uuid) (now : DateTime) (capacity : Nat)
    (skipped : List Uuid) :
    ((db.selectForUpdate runId now capacity skipped).map ScanShard.id).Nodup := by
  have hsorted : ((db.dispatchableShards runId now db.shards.rows.length).map
      ScanShard.id).Nodup := by
    refine ((List.take_sublist _ _).map _).nodup ?_
    refine ((List.perm_insertionSort _ _).map ScanShard.id).nodup_iff.mpr ?_
    exact (List.filter_sublist.map ScanShard.id).nodup db.shards.nodup
  refine (List.Sublist.map _ ?_).nodup hsorted
  exact (List.take_sublist _ _).trans List.filter_sublist

/-- With nothing to skip, a dispatch selects the shards `State.step` leases. -/
theorem Db.selectForUpdate_nil (db : Db) (runId : Uuid) (now : DateTime) (capacity : Nat) :
    db.selectForUpdate runId now capacity [] = db.dispatchableShards runId now capacity := by
  have hall : ∀ l : List ScanShard, l.filter (fun s => s.id ∉ ([] : List Uuid)) = l := by
    intro l
    exact List.filter_eq_self.mpr fun s _ => decide_eq_true List.not_mem_nil
  rw [Db.selectForUpdate, hall, Db.dispatchableShards, Db.dispatchableShards]
  congr 1
  refine List.take_of_length_le ?_
  rw [List.length_insertionSort]
  exact List.length_filter_le _ _

/-! ## The locks -/

/-- Locked rows are queued, as they were when they were selected, and each is
locked by one dispatch. -/
structure Locked (s : Dispatching) : Prop where
  current : ∀ sel ∈ s.selections, ∀ l ∈ sel.locked,
    s.base.db.shards.get l.id = some l ∧ l.status = .queued ∧ l.runId = sel.runId
  nodup : ∀ sel ∈ s.selections, (sel.locked.map ScanShard.id).Nodup
  exclusive : ∀ (i j : Nat) sel sel', s.selections[i]? = some sel → s.selections[j]? = some sel' →
    ∀ l ∈ sel.locked, ∀ l' ∈ sel'.locked, l.id = l'.id → i = j

/-- The row of a lease after the commit. -/
theorem Db.get_leaseShards {settings : Settings} {db db' : Db} {now : DateTime}
    {locked : List ScanShard} {tokens eventIds : List Uuid} (hlen : tokens.length = locked.length)
    (h : Db.leaseShards settings db now ((locked.map ScanShard.id).zip tokens) eventIds = some db')
    {k : Uuid} {r : ScanShard} (hr : db.shards.get k = some r) :
    (k ∉ locked.map ScanShard.id ∧ db'.shards.get k = some r) ∨
      (k ∈ locked.map ScanShard.id ∧ ∃ token,
        db'.shards.get k = some (Db.leaseShard settings now token r)) := by
  obtain ⟨-, -, hget⟩ := Db.leaseShards_eq_some h
  have hid : r.id = k := Table.get_key hr
  rw [hget, hr, Option.map_some, hid]
  cases hl : ((locked.map ScanShard.id).zip tokens).lookup k with
  | none =>
    refine Or.inl ⟨fun hmem => ?_, rfl⟩
    have hkeys : ((locked.map ScanShard.id).zip tokens).map Prod.fst = locked.map ScanShard.id := by
      refine List.map_fst_zip ?_
      rw [List.length_map, hlen]
    rw [← hkeys] at hmem
    obtain ⟨⟨k', t⟩, hp, rfl⟩ := List.mem_map.mp hmem
    exact absurd (List.lookup_eq_none_iff.mp hl _ hp) (by simp)
  | some token =>
    exact Or.inr ⟨(List.of_mem_zip (mem_of_lookup_eq_some hl)).1, token, rfl⟩

section
variable {settings : Settings} {s s' : Dispatching} {a : DispatchAction}

theorem locked_start (b : State) : Locked { base := b } where
  current := fun _ h => absurd h List.not_mem_nil
  nodup := fun _ h => absurd h List.not_mem_nil
  exclusive := fun _ _ _ _ h => by cases h

/-- A selection after a step held its rows before, or has just locked them. -/
theorem selection_cases (h : s.step settings a = some s') {i : Nat} {sel : Selection}
    (hi : s'.selections[i]? = some sel) :
    s.selections[i]? = some sel ∨ sel.locked = [] ∨
      ∃ (p : Nat) (skipped : List Uuid) (now : DateTime) (d : Dispatch),
        a = .select p skipped now ∧ s.base.dispatches[p]? = some d ∧ i = s.selections.length ∧
        sel = ⟨d.runId, s.base.db.selectForUpdate d.runId now d.capacity (skipped ++ s.lockedIds),
          now, (s.counted[p]?).getD 0⟩ := by
  cases a with
  | other a =>
    obtain ⟨-, -, -, hs'⟩ := dispatching_other h
    rw [hs'] at hi
    exact Or.inl hi
  | select p skipped now =>
    obtain ⟨d, hd, rfl⟩ := dispatching_select h
    rw [List.getElem?_append] at hi
    split at hi
    · exact Or.inl hi
    · next hge =>
      have hlt : i - s.selections.length < 1 := (List.getElem?_eq_some_iff.mp hi).1
      have heq : i = s.selections.length := by omega
      subst heq
      rw [Nat.sub_self] at hi
      cases hi
      exact Or.inr (Or.inr ⟨p, skipped, now, d, rfl, hd, rfl, rfl⟩)
  | commit q tokens eventIds =>
    obtain ⟨sel₀, _, -, -, -, rfl⟩ := dispatching_commit h
    by_cases hq : q = i
    · subst hq
      have hlt : q < s.selections.length := by
        simpa using (List.getElem?_eq_some_iff.mp hi).1
      rw [List.getElem?_set_self hlt] at hi
      cases hi
      exact Or.inr (Or.inl rfl)
    · rw [List.getElem?_set_ne hq] at hi
      exact Or.inl hi
  | abort q =>
    obtain ⟨sel₀, -, rfl⟩ := dispatching_abort h
    by_cases hq : q = i
    · subst hq
      have hlt : q < s.selections.length := by
        simpa using (List.getElem?_eq_some_iff.mp hi).1
      rw [List.getElem?_set_self hlt] at hi
      cases hi
      exact Or.inr (Or.inl rfl)
    · rw [List.getElem?_set_ne hq] at hi
      exact Or.inl hi

/-- A locked row stays as it is until its own dispatch commits. -/
theorem locked_kept (hl : Locked s) (h : s.step settings a = some s') {i : Nat} {sel : Selection}
    (hi : s.selections[i]? = some sel) (hi' : s'.selections[i]? = some sel) {l : ScanShard}
    (hmem : l ∈ sel.locked) : s'.base.db.shards.get l.id = some l := by
  have hrow := (hl.current sel (List.mem_of_getElem? hi) l hmem).1
  cases a with
  | other a =>
    obtain ⟨-, -, hkept, -⟩ := dispatching_other h
    rw [hkept l.id ?_, hrow]
    exact List.mem_flatMap.mpr ⟨sel, List.mem_of_getElem? hi, List.mem_map.mpr ⟨l, hmem, rfl⟩⟩
  | select p skipped now =>
    obtain ⟨d, -, rfl⟩ := dispatching_select h
    exact hrow
  | commit q tokens eventIds =>
    obtain ⟨sel₀, db, hsel, hlen, hdb, rfl⟩ := dispatching_commit h
    rcases Db.get_leaseShards hlen hdb hrow with ⟨-, hsame⟩ | ⟨hin, -⟩
    · exact hsame
    · -- the row is locked by one dispatch, and that one has let it go
      obtain ⟨l', hl', hid⟩ := List.mem_map.mp hin
      have hq : q = i := hl.exclusive q i sel₀ sel hsel hi l' hl' l hmem hid
      subst hq
      rw [List.getElem?_set_self (List.getElem?_eq_some_iff.mp hi).1] at hi'
      cases hi'
      cases hmem
  | abort q =>
    obtain ⟨sel₀, -, rfl⟩ := dispatching_abort h
    exact hrow

theorem locked_step (hl : Locked s) (h : s.step settings a = some s') : Locked s' where
  current := by
    intro sel hsel l hmem
    obtain ⟨i, hi'⟩ := List.mem_iff_getElem?.mp hsel
    rcases selection_cases h hi' with hi | hnone | ⟨p, skipped, now, d, rfl, -, -, rfl⟩
    · obtain ⟨-, hstatus, hrun⟩ := hl.current sel (List.mem_of_getElem? hi) l hmem
      exact ⟨locked_kept hl h hi hi' hmem, hstatus, hrun⟩
    · rw [hnone] at hmem
      cases hmem
    · obtain ⟨_, -, rfl⟩ := dispatching_select h
      obtain ⟨hrow, hrun, hstatus, -⟩ := Db.mem_selectForUpdate hmem
      exact ⟨hrow, hstatus, hrun⟩
  nodup := by
    intro sel hsel
    obtain ⟨i, hi'⟩ := List.mem_iff_getElem?.mp hsel
    rcases selection_cases h hi' with hi | hnone | ⟨p, skipped, now, d, rfl, -, -, rfl⟩
    · exact hl.nodup sel (List.mem_of_getElem? hi)
    · rw [hnone]
      exact List.nodup_nil
    · exact Db.nodup_selectForUpdate _ _ _ _ _
  exclusive := by
    intro i j sel sel' hi' hj' l hmem l' hmem' hid
    have hnew : ∀ {k : Nat} {old : Selection} {d : Dispatch} {now : DateTime} {skipped : List Uuid}
        {x y : ScanShard}, s.selections[k]? = some old → x ∈ old.locked →
        y ∈ s.base.db.selectForUpdate d.runId now d.capacity (skipped ++ s.lockedIds) →
        x.id ≠ y.id := by
      intro k old d now skipped x y hk hx hy hxy
      apply (Db.mem_selectForUpdate hy).2.2.2
      refine List.mem_append_right _ ?_
      rw [← hxy]
      exact List.mem_flatMap.mpr ⟨old, List.mem_of_getElem? hk, List.mem_map.mpr ⟨x, hx, rfl⟩⟩
    rcases selection_cases h hi' with hi | hnone | ⟨p, skipped, now, d, rfl, -, hlen, rfl⟩
    · rcases selection_cases h hj' with hj | hnone | ⟨p, skipped, now, d, rfl, -, hlen, rfl⟩
      · exact hl.exclusive i j sel sel' hi hj l hmem l' hmem' hid
      · rw [hnone] at hmem'
        cases hmem'
      · exact absurd hid (hnew hi hmem hmem')
    · rw [hnone] at hmem
      cases hmem
    · rcases selection_cases h hj' with hj | hnone | ⟨_, _, _, _, -, -, hlen', -⟩
      · exact absurd hid.symm (hnew hj hmem' hmem)
      · rw [hnone] at hmem'
        cases hmem'
      · rw [hlen, hlen']

end

/-! ## The undivided dispatch -/

/-- Leasing in one step is a selection and its commit with nothing in between. -/
theorem lease_divided {settings : Settings} {s : Dispatching} {b : State} {p : Nat}
    {tokens eventIds : List Uuid} {now : DateTime} (hfree : s.lockedIds = [])
    (h : s.base.step settings (.lease p tokens eventIds now) = some b) :
    ∃ s₁ s₂, s.step settings (.select p [] now) = some s₁ ∧
      s₁.step settings (.commit s.selections.length tokens eventIds) = some s₂ ∧
      s₂.base = b ∧ s₂.lockedIds = [] := by
  obtain ⟨d, db, hd, hlen, hlen', hnodup, hfresh, hdb, rfl⟩ := step_lease h
  have hchosen : s.base.db.selectForUpdate d.runId now d.capacity ([] ++ s.lockedIds) =
      s.base.db.dispatchableShards d.runId now d.capacity := by
    rw [List.nil_append, hfree, Db.selectForUpdate_nil]
  let base : State := { s.base with dispatches := s.base.dispatches.set p { d with capacity := 0 } }
  let sel : Selection :=
    ⟨d.runId, s.base.db.dispatchableShards d.runId now d.capacity, now, (s.counted[p]?).getD 0⟩
  refine ⟨{ s with base := base, selections := s.selections ++ [sel] },
    { s with
      base := { base with db := db, issued := s.base.issued ++ tokens }
      selections := s.selections ++ [{ sel with locked := [] }]
      committed := s.committed ++ sel.committed }, ?_, ?_, rfl, ?_⟩
  · simp only [Dispatching.step, hd, Option.bind_eq_bind, Option.bind_some, hchosen]
    rfl
  · have hget : (s.selections ++ [sel])[s.selections.length]? = some sel :=
      List.getElem?_concat_length
    have hset : (s.selections ++ [sel]).set s.selections.length { sel with locked := [] } =
        s.selections ++ [{ sel with locked := [] }] := by
      rw [List.set_append_right _ _ (Nat.le_refl _), Nat.sub_self]
      rfl
    simp only [Dispatching.step, hget, Option.bind_eq_bind, Option.bind_some, hset]
    rw [if_pos ⟨hlen, hlen', hnodup, hfresh⟩,
      show Db.leaseShards settings base.db sel.now _ eventIds = some db from hdb]
    rfl
  · rw [Dispatching.lockedIds, List.flatMap_append]
    exact List.append_eq_nil_iff.mpr ⟨hfree, rfl⟩

/-- Every run of the system is one in which no two dispatches overlap. -/
theorem run_divided {settings : Settings} {b t : State} {tr : List (Transition State Action)}
    (h : Path (State.step settings) b tr t) :
    ∃ tr' s, Path (Dispatching.step settings) { base := b } tr' s ∧ s.base = t ∧
      s.lockedIds = [] := by
  induction h with
  | nil => exact ⟨[], _, .nil, rfl, rfl⟩
  | @snoc t u tr a hp hs ih =>
    obtain ⟨tr', s, hpath, rfl, hfree⟩ := ih
    by_cases hl : a.leases = true
    · cases a with
      | lease p tokens eventIds now =>
        obtain ⟨s₁, s₂, hselect, hcommit, hbase, hfree'⟩ := lease_divided hfree hs
        exact ⟨_, s₂, .snoc (.snoc hpath hselect) hcommit, hbase, hfree'⟩
      | _ => cases hl
    · refine ⟨_, { s with
          base := u
          counted := s.counted ++ if a.counts then [s.committed.length] else [] },
        .snoc hpath (a := .other a) ?_, rfl, hfree⟩
      have hkept : ∀ k ∈ s.lockedIds, u.db.shards.get k = s.base.db.shards.get k := by
        intro k hk
        rw [hfree] at hk
        cases hk
      simp only [Dispatching.step, hs, Option.bind_eq_bind, Option.bind_some]
      rw [if_neg hl, if_pos hkept]

end TransportLookout
