/-
Rows partitioned by a key.

`group` is what `GROUP BY` and `PARTITION BY` put together.  The groups side by
side are the rows again, so a sum over the rows is the sum of the sums over the
groups.  A filter that looks at the key alone takes whole groups: what is computed
from a group does not notice it.

`firsts` picks the first row of every group, in an order of the group's rows that
someone else may choose.
-/
import Mathlib.Data.List.Dedup
import Mathlib.Algebra.BigOperators.Group.List.Lemmas
import Mathlib.Algebra.GroupWithZero.Nat

namespace Partition

variable {α κ : Type*} [DecidableEq κ] (key : α → κ) (rows : List α)

def keys : List κ := (rows.map key).dedup

def group (k : κ) : List α := rows.filter fun r => key r = k

/-- The first row of every group, along an order of the group. -/
def firsts (order : List α → List α) : List α :=
  (keys key rows).filterMap fun k => (order (group key rows k)).head?

variable {key rows} {k : κ} {r : α}

theorem mem_keys : k ∈ keys key rows ↔ ∃ r ∈ rows, key r = k := by
  rw [keys, List.mem_dedup, List.mem_map]

theorem nodup_keys : (keys key rows).Nodup := List.nodup_dedup _

theorem mem_group : r ∈ group key rows k ↔ r ∈ rows ∧ key r = k := by
  rw [group, List.mem_filter, decide_eq_true_eq]

theorem group_ne_nil (h : k ∈ keys key rows) : group key rows k ≠ [] := by
  obtain ⟨r, hr, hk⟩ := mem_keys.mp h
  exact List.ne_nil_of_mem (mem_group.mpr ⟨hr, hk⟩)

/-! ## The groups side by side -/

/-- Any list of distinct keys that covers the rows takes them apart. -/
theorem flatMap_group_perm {ks : List κ} (hks : ks.Nodup) (hcover : ∀ r ∈ rows, key r ∈ ks) :
    (ks.flatMap (group key rows)).Perm rows := by
  induction ks generalizing rows with
  | nil =>
    have hnone : rows = [] := List.eq_nil_iff_forall_not_mem.mpr fun r hr =>
      absurd (hcover r hr) List.not_mem_nil
    rw [hnone]
    rfl
  | cons k ks ih =>
    obtain ⟨hk, hks⟩ := List.nodup_cons.mp hks
    -- the rest of the keys takes apart the rows that are not of `k`
    have hrest : (ks.flatMap (group key (rows.filter fun r => key r ≠ k))).Perm
        (rows.filter fun r => key r ≠ k) := by
      refine ih hks fun r hr => ?_
      obtain ⟨hmem, hne⟩ := List.mem_filter.mp hr
      exact (List.mem_cons.mp (hcover r hmem)).resolve_left (of_decide_eq_true hne)
    have hsame : ks.flatMap (group key (rows.filter fun r => key r ≠ k)) =
        ks.flatMap (group key rows) := by
      refine List.flatMap_congr fun k' hk' => ?_
      rw [group, group, List.filter_filter]
      refine List.filter_congr fun r _ => ?_
      by_cases hr : key r = k'
      · have hne : key r ≠ k := fun heq => hk (heq.symm.trans hr ▸ hk')
        simp [hr, hr ▸ hne]
      · simp [hr]
    rw [List.flatMap_cons, ← hsame]
    refine (hrest.append_left _).trans ?_
    have hsplit := List.filter_append_perm (fun r => decide (key r = k)) rows
    simpa [group] using hsplit

theorem groups_perm : ((keys key rows).flatMap (group key rows)).Perm rows :=
  flatMap_group_perm nodup_keys fun r hr => mem_keys.mpr ⟨r, hr, rfl⟩

/-- Every row is counted under one key. -/
theorem sum_countP {ks : List κ} (hks : ks.Nodup) (hcover : ∀ r ∈ rows, key r ∈ ks) :
    (ks.map fun k => rows.countP fun r => key r = k).sum = rows.length := by
  have hlength := (flatMap_group_perm hks hcover).length_eq
  rw [List.length_flatMap] at hlength
  rw [← hlength]
  refine congrArg List.sum (List.map_congr_left fun k _ => ?_)
  rw [List.countP_eq_length_filter, group]

theorem sum_groups {M : Type*} [AddCommMonoid M] (f : α → M) :
    ((keys key rows).map fun k => ((group key rows k).map f).sum).sum = (rows.map f).sum := by
  have hperm : ((keys key rows).flatMap (group key rows)).Perm rows := groups_perm
  rw [← (hperm.map f).sum_eq, List.map_flatMap, List.flatMap_def, List.sum_flatten, List.map_map]
  rfl

/-! ## Filters that look at the key -/

section
variable {p : α → Bool} {q : κ → Bool}

theorem group_filter (h : ∀ r ∈ rows, p r = q (key r)) (hk : q k = true) :
    group key (rows.filter p) k = group key rows k := by
  rw [group, group, List.filter_filter]
  refine List.filter_congr fun r hr => ?_
  rw [h r hr]
  by_cases hkey : key r = k
  · rw [hkey, hk, Bool.and_true]
  · simp [hkey]

theorem keys_filter (h : ∀ r ∈ rows, p r = q (key r)) :
    (keys key (rows.filter p)).Perm ((keys key rows).filter q) := by
  refine (List.perm_ext_iff_of_nodup nodup_keys (nodup_keys.filter _)).mpr fun k => ?_
  rw [List.mem_filter, mem_keys, mem_keys]
  constructor
  · rintro ⟨r, hr, rfl⟩
    obtain ⟨hmem, hp⟩ := List.mem_filter.mp hr
    exact ⟨⟨r, hmem, rfl⟩, (h r hmem).symm.trans hp⟩
  · rintro ⟨⟨r, hr, rfl⟩, hq⟩
    exact ⟨r, List.mem_filter.mpr ⟨hr, (h r hr).trans hq⟩, rfl⟩

end

/-! ## The first of every group -/

section
variable {order : List α → List α}

theorem head_spec (horder : ∀ l, (order l).Perm l) (h : k ∈ keys key rows) :
    ∃ r tail, order (group key rows k) = r :: tail ∧ r ∈ rows ∧ key r = k := by
  have hperm := horder (group key rows k)
  cases hl : order (group key rows k) with
  | nil =>
    rw [hl] at hperm
    exact absurd hperm.symm.eq_nil (group_ne_nil h)
  | cons r tail =>
    have hmem : r ∈ group key rows k := by
      rw [← hperm.mem_iff, hl]
      exact List.mem_cons_self
    obtain ⟨hrows, hkey⟩ := mem_group.mp hmem
    exact ⟨r, tail, rfl, hrows, hkey⟩

/-- One row for every key. -/
theorem map_firsts (horder : ∀ l, (order l).Perm l) :
    (firsts key rows order).map key = keys key rows := by
  have hpick : ∀ ks : List κ, (∀ k ∈ ks, k ∈ keys key rows) →
      (ks.filterMap fun k => (order (group key rows k)).head?).map key = ks := by
    intro ks
    induction ks with
    | nil => exact fun _ => rfl
    | cons k ks ih =>
      intro hks
      obtain ⟨r, tail, hl, -, hkey⟩ := head_spec horder (hks k List.mem_cons_self)
      rw [List.filterMap_cons_some (by rw [hl]; rfl), List.map_cons, hkey,
        ih fun k' hk' => hks k' (List.mem_cons_of_mem _ hk')]
  exact hpick _ fun _ hk => hk

theorem mem_firsts (horder : ∀ l, (order l).Perm l) (h : r ∈ firsts key rows order) :
    r ∈ rows ∧ ∃ tail, order (group key rows (key r)) = r :: tail := by
  obtain ⟨k, hk, hhead⟩ := List.mem_filterMap.mp h
  obtain ⟨r', tail, hl, hrows, rfl⟩ := head_spec horder hk
  rw [hl] at hhead
  obtain rfl := Option.some.inj hhead
  exact ⟨hrows, tail, hl⟩

end

end Partition
