/-
Pages of a sorted list, each read from a list of its own.

The pages of one list put together are the list.  When every page is read from
another ordering of the same elements, sorted by one key, the places of the keys
are the same in all of them, and only elements of one key may have changed
places.  So the pages still put the list together when no boundary between two
pages falls between two elements of one key, and not otherwise.
-/
import Mathlib.Data.List.Sort
import Mathlib.Data.List.Nodup
import Mathlib.Data.List.Perm.Basic

namespace Paging

variable {α β : Type*}

def page (size n : Nat) (l : List α) : List α := (l.drop (n * size)).take size

/-- No boundary falls between two elements of one key. -/
def Clean (keys : List β) (size : Nat) : Prop :=
  ∀ i x, size ∣ i + 1 → keys[i]? = some x → keys[i + 1]? ≠ some x

theorem flatMap_page_take (size N : Nat) (l : List α) :
    ((List.range N).flatMap fun n => page size n l) = l.take (N * size) := by
  induction N with
  | zero => simp
  | succ N ih =>
    rw [List.range_succ, List.flatMap_append, ih, List.flatMap_singleton, page, Nat.succ_mul,
      List.take_add]

/-- The pages of a list put it together. -/
theorem flatMap_page {size N : Nat} {l : List α} (h : l.length ≤ N * size) :
    ((List.range N).flatMap fun n => page size n l) = l := by
  rw [flatMap_page_take, List.take_of_length_le h]

section
variable {r : β → β → Prop} {f : α → β} {a b : List α} {size n : Nat}

theorem mem_page {l : List α} {j : Nat} {x : α} (hx : l[j]? = some x) (hlow : n * size ≤ j)
    (hhigh : j < (n + 1) * size) : x ∈ page size n l := by
  rw [Nat.succ_mul] at hhigh
  refine List.mem_iff_getElem?.mpr ⟨j - n * size, ?_⟩
  rw [page, List.getElem?_take_of_lt (by omega), List.getElem?_drop, Nat.add_sub_cancel' hlow]
  exact hx

/-- Two neighbours of one key change places. -/
theorem exists_swapped {base : List α} (hbase : base.Pairwise fun x y => r (f x) (f y)) {i : Nat}
    {x : β} (hi : (base.map f)[i]? = some x) (hnext : (base.map f)[i + 1]? = some x) :
    ∃ (swapped : List α) (e : α), swapped.Perm base ∧ (swapped.Pairwise fun x y => r (f x) (f y)) ∧
      base[i]? = some e ∧ swapped[i + 1]? = some e := by
  rw [List.getElem?_map, Option.map_eq_some_iff] at hi hnext
  obtain ⟨e, he, rfl⟩ := hi
  obtain ⟨e', he', hkey⟩ := hnext
  obtain ⟨hlt, rfl⟩ := List.getElem?_eq_some_iff.mp he
  obtain ⟨hlt', rfl⟩ := List.getElem?_eq_some_iff.mp he'
  have hsplit : base = base.take i ++ base[i] :: base[i + 1] :: base.drop (i + 2) := by
    rw [← List.drop_eq_getElem_cons hlt', ← List.drop_eq_getElem_cons hlt,
      List.take_append_drop]
  have hlen : (base.take i).length = i := List.length_take_of_le hlt.le
  refine ⟨base.take i ++ base[i + 1] :: base[i] :: base.drop (i + 2), base[i], ?_, ?_, he, ?_⟩
  · conv_rhs => rw [hsplit]
    exact (List.Perm.swap _ _ _).append_left _
  · have hsame : (base.take i ++ base[i + 1] :: base[i] :: base.drop (i + 2)).map f =
        base.map f := by
      conv_rhs => rw [hsplit]
      simp only [List.map_append, List.map_cons, hkey]
    rw [← List.pairwise_map, hsame, List.pairwise_map]
    exact hbase
  · rw [List.getElem?_append_right (by rw [hlen]; exact Nat.le_succ i), hlen,
      Nat.add_sub_cancel_left]
    rfl

variable [Std.Antisymm r]

/-- The keys are in the same places. -/
theorem map_eq_of_perm (ha : a.Pairwise fun x y => r (f x) (f y))
    (hb : b.Pairwise fun x y => r (f x) (f y)) (h : a.Perm b) : a.map f = b.map f :=
  List.Perm.eq_of_pairwise' (List.pairwise_map.mpr ha) (List.pairwise_map.mpr hb) (h.map f)

/-- Before a cut are the elements whose key is strictly before the key at the cut. -/
theorem take_eq_filter [DecidableEq β] [DecidableRel r]
    (ha : a.Pairwise fun x y => r (f x) (f y)) {m : Nat} {pivot : β}
    (hm : (a.map f)[m]? = some pivot)
    (hcut : ∀ i, i + 1 = m → (a.map f)[i]? ≠ some pivot) :
    a.take m = a.filter fun x => r (f x) pivot ∧ f x ≠ pivot := by
  have hlt : m < a.length := by
    have hlen := (List.getElem?_eq_some_iff.mp hm).1
    rwa [List.length_map] at hlen
  have hpivot : f a[m] = pivot := by
    rw [List.getElem?_map, List.getElem?_eq_getElem hlt] at hm
    exact Option.some.inj hm
  have hle : ∀ i j (hi : i < a.length) (hj : j < a.length), i < j → r (f a[i]) (f a[j]) :=
    fun i j hi hj hij => List.pairwise_iff_getElem.mp ha i j hi hj hij
  have hbefore : (a.take m).filter (fun x => r (f x) pivot ∧ f x ≠ pivot) = a.take m := by
    rw [List.filter_eq_self]
    intro x hx
    obtain ⟨i, hi, rfl⟩ := List.mem_take_iff_getElem.mp hx
    have him : i < m := by omega
    have hia : i < a.length := by omega
    rw [decide_eq_true_eq, ← hpivot]
    refine ⟨hle i m hia hlt him, fun heq => ?_⟩
    -- the key at the cut would be the one right before it
    obtain ⟨j, rfl⟩ : ∃ j, m = j + 1 := ⟨m - 1, by omega⟩
    have hj : j < a.length := by omega
    refine hcut j rfl ?_
    rw [List.getElem?_map, List.getElem?_eq_getElem hj, Option.map_some, ← hpivot]
    rcases Nat.lt_or_ge i j with hij | hge
    · refine congrArg some (antisymm (hle j _ hj hlt (Nat.lt_succ_self j)) ?_)
      rw [← heq]
      exact hle i j hia hj hij
    · have : i = j := by omega
      subst this
      rw [heq]
  have hafter : (a.drop m).filter (fun x => r (f x) pivot ∧ f x ≠ pivot) = [] := by
    rw [List.filter_eq_nil_iff]
    intro x hx
    obtain ⟨i, hi, rfl⟩ := List.mem_drop_iff_getElem.mp hx
    rw [decide_eq_true_eq, not_and, not_not]
    intro hrel
    rcases Nat.eq_zero_or_pos i with rfl | hpos
    · simpa using hpivot
    · refine antisymm hrel ?_
      rw [← hpivot]
      exact hle m (m + i) hlt (by omega) (by omega)
  conv_rhs => rw [← List.take_append_drop m a]
  rw [List.filter_append, hbefore, hafter, List.append_nil]

theorem take_perm (ha : a.Pairwise fun x y => r (f x) (f y))
    (hb : b.Pairwise fun x y => r (f x) (f y)) (h : a.Perm b) {m : Nat}
    (hcut : ∀ i x, i + 1 = m → (a.map f)[i]? = some x → (a.map f)[m]? ≠ some x) :
    (a.take m).Perm (b.take m) := by
  classical
  have hkeys := map_eq_of_perm ha hb h
  cases hm : (a.map f)[m]? with
  | none =>
    have hlen : a.length ≤ m := by
      have hlen := List.getElem?_eq_none_iff.mp hm
      rwa [List.length_map] at hlen
    rw [List.take_of_length_le hlen, List.take_of_length_le (h.length_eq ▸ hlen)]
    exact h
  | some pivot =>
    have hno : ∀ i, i + 1 = m → (a.map f)[i]? ≠ some pivot := fun i hi hpivot =>
      hcut i pivot hi hpivot hm
    rw [take_eq_filter ha hm hno, take_eq_filter hb (hkeys ▸ hm) (hkeys ▸ hno)]
    exact h.filter _

/-- Between two clean boundaries are the same elements. -/
theorem page_perm (ha : a.Pairwise fun x y => r (f x) (f y))
    (hb : b.Pairwise fun x y => r (f x) (f y)) (h : a.Perm b) (hclean : Clean (a.map f) size) :
    (page size n a).Perm (page size n b) := by
  have hcut : ∀ k, (a.take (k * size)).Perm (b.take (k * size)) := fun k =>
    take_perm ha hb h fun i x hi hx => by
      rw [← hi]
      exact hclean i x (hi ▸ Nat.dvd_mul_left size k) hx
  have hnext := hcut (n + 1)
  rw [Nat.succ_mul, List.take_add, List.take_add] at hnext
  rw [← List.perm_append_left_iff (b.take (n * size))]
  exact ((hcut n).symm.append_right _).trans hnext

/-- Pages read from lists of their own put the list together, whatever the lists,
exactly when every boundary is clean. -/
theorem lossless_iff {base : List α} (hbase : base.Pairwise fun x y => r (f x) (f y))
    (hnodup : base.Nodup) (hsize : 0 < size) :
    (∀ views : Nat → List α,
      (∀ n, (views n).Perm base ∧ (views n).Pairwise fun x y => r (f x) (f y)) →
        ∀ N, base.length ≤ N * size →
          ((List.range N).flatMap fun n => page size n (views n)).Perm base) ↔
      Clean (base.map f) size := by
  constructor
  · intro hall i x hdvd hi hnext
    obtain ⟨swapped, e, hperm, hsorted, he, he'⟩ := exists_swapped hbase hi hnext
    obtain ⟨q, hq⟩ := hdvd
    have hpos : 0 < q := Nat.pos_of_ne_zero fun h => by
      rw [h, Nat.mul_zero] at hq
      cases hq
    obtain ⟨n, rfl⟩ : ∃ n, q = n + 1 := ⟨q - 1, by omega⟩
    rw [Nat.mul_comm] at hq
    -- the page after the boundary is read from the list with the two swapped
    let views := fun k => if k = n + 1 then swapped else base
    have hviews : ∀ k, (views k).Perm base ∧ (views k).Pairwise fun x y => r (f x) (f y) := by
      intro k
      by_cases hk : k = n + 1
      · simp only [views, if_pos hk]
        exact ⟨hperm, hsorted⟩
      · simp only [views, if_neg hk]
        exact ⟨List.Perm.refl _, hbase⟩
    have hfar : base.length ≤ (base.length + (n + 2)) * size :=
      (Nat.le_add_right _ _).trans (Nat.le_mul_of_pos_right _ hsize)
    have hall' := (hall views hviews _ hfar).nodup_iff.mpr hnodup
    have hdisjoint := List.pairwise_iff_getElem.mp (List.nodup_flatMap.mp hall').2 n (n + 1)
      (by rw [List.length_range]; omega) (by rw [List.length_range]; omega) (Nat.lt_succ_self n)
    rw [List.getElem_range, List.getElem_range] at hdisjoint
    have hlast : e ∈ page size n (views n) := by
      simp only [views, if_neg (Nat.ne_of_lt (Nat.lt_succ_self n))]
      rw [Nat.succ_mul] at hq
      refine mem_page he (by omega) ?_
      rw [Nat.succ_mul]
      omega
    have hfirst : e ∈ page size (n + 1) (views (n + 1)) := by
      simp only [views, if_pos]
      refine mem_page he' hq.ge ?_
      rw [hq, Nat.succ_mul (n + 1)]
      exact Nat.lt_add_of_pos_right hsize
    exact hdisjoint hlast hfirst
  · intro hclean views hviews N hN
    have hpages := List.Perm.flatMap_left (List.range N) fun n _ =>
      page_perm (n := n) (hviews n).2 hbase (hviews n).1 (by
        rw [map_eq_of_perm (hviews n).2 hbase (hviews n).1]
        exact hclean)
    rw [flatMap_page hN] at hpages
    exact hpages

end

end Paging
