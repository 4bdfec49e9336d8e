/-
The pages of the list of exposures.

Every page is a query of its own, and the database may choose anew how to order rows
with one address and port.  The view has a row for every protocol and service name
besides, so a page boundary between two such rows may show one of them twice and the
other not at all.
-/
import TransportLookout.Library.Paging
import TransportLookout.ReadModel.Exposures

namespace TransportLookout

open Partition Paging

/-- The pages at offsets `0`, `limit` and so on, the first `n` of them. -/
def exposurePages (d : Dialect) (plans : Nat → Plan) (f : ExposureFilters) (limit : Int)
    (rows : List StoredExposure) (n : Nat) : List ExposureRead :=
  (List.range n).flatMap fun i => listExposures d (plans i) f limit (i * limit) rows

/-- Whatever the database chooses, query by query, the pages up to the end of the view show
every group of the filtered rows once. -/
def LosslessPages (d : Dialect) (f : ExposureFilters) (limit : Int) (rows : List StoredExposure) :
    Prop :=
  ∀ plans : Nat → Plan, ∀ n, (keys StoredExposure.key (filteredExposures d f rows)).length ≤
      n * limit.toNat →
    ((exposurePages d plans f limit rows n).map StoredExposure.key).Perm
      (keys StoredExposure.key (filteredExposures d f rows))

/-- The address and port of every row of the view, in order. -/
def viewPlaces (d : Dialect) (f : ExposureFilters) (rows : List StoredExposure) :
    List (String × Int) :=
  ((keys StoredExposure.key (filteredExposures d f rows)).map ExposureKey.place).insertionSort
    fun a b => d.before a b

/-- No page ends between two rows of one address and port. -/
def cleanCuts (d : Dialect) (f : ExposureFilters) (limit : Int) (rows : List StoredExposure) :
    Bool :=
  (List.range (viewPlaces d f rows).length).all fun i =>
    (i + 1) % limit.toNat ≠ 0 || (viewPlaces d f rows)[i]? ≠ (viewPlaces d f rows)[i + 1]?

/-! ## The order of the view -/

section
variable {d : Dialect}

theorem before_total : Std.Total fun a b => d.before a b = true := by
  refine ⟨fun a b => ?_⟩
  rw [Dialect.before, Dialect.before]
  by_cases h : a.1 = b.1
  · rw [if_pos h, if_pos h.symm, decide_eq_true_eq, decide_eq_true_eq]
    exact le_total _ _
  · rw [if_neg h, if_neg fun h' => h h'.symm, ← Bool.or_eq_true]
    exact d.total a.1 b.1

theorem before_antisymm : Std.Antisymm fun a b => d.before a b = true := by
  refine ⟨fun a b hab hba => ?_⟩
  rw [Dialect.before] at hab hba
  by_cases h : a.1 = b.1
  · rw [if_pos h, decide_eq_true_eq] at hab
    rw [if_pos h.symm, decide_eq_true_eq] at hba
    exact Prod.ext h (le_antisymm hab hba)
  · rw [if_neg h] at hab
    rw [if_neg fun h' => h h'.symm] at hba
    exact absurd (d.antisymm _ _ hab hba) h

theorem before_trans : IsTrans (String × Int) fun a b => d.before a b = true := by
  refine ⟨fun a b c hab hbc => ?_⟩
  rw [Dialect.before] at hab hbc ⊢
  by_cases h : a.1 = b.1
  · rw [if_pos h, decide_eq_true_eq] at hab
    rw [h]
    by_cases h' : b.1 = c.1
    · rw [if_pos h', decide_eq_true_eq] at hbc ⊢
      exact hab.trans hbc
    · rw [if_neg h'] at hbc ⊢
      exact hbc
  · rw [if_neg h] at hab
    by_cases h' : b.1 = c.1
    · rw [← h', if_neg h]
      exact hab
    · rw [if_neg h'] at hbc
      have hac := d.trans _ _ _ hab hbc
      by_cases h'' : a.1 = c.1
      · -- the three texts would be one
        exact absurd (d.antisymm _ _ hab (h'' ▸ hbc)) h
      · rw [if_neg h'']
        exact hac

variable {plan : Plan} {f : ExposureFilters} {rows : List StoredExposure}

theorem deduplicated_sorted :
    ((deduplicatedExposures d plan f rows).map StoredExposure.key).Pairwise
      fun a b => d.before a.place b.place = true := by
  have htotal : Std.Total fun a b : RankedExposure =>
      d.before a.row.key.place b.row.key.place = true := ⟨fun a b => before_total.total _ _⟩
  have htrans : IsTrans RankedExposure fun a b =>
      d.before a.row.key.place b.row.key.place = true := ⟨fun _ _ _ => before_trans.trans _ _ _⟩
  rw [deduplicatedExposures, List.map_map, List.pairwise_map]
  exact List.pairwise_insertionSort (fun a b : RankedExposure =>
    d.before a.row.key.place b.row.key.place = true) _

/-- The database may put the rows of the view in any order that is sorted. -/
theorem exists_plan {order : List ExposureKey}
    (hperm : order.Perm (keys StoredExposure.key (filteredExposures d f rows)))
    (hsorted : order.Pairwise fun a b => d.before a.place b.place = true) :
    ∃ plan, (deduplicatedExposures d plan f rows).map StoredExposure.key = order := by
  classical
  let met : Plan := ⟨id, id, fun _ => .refl _, fun _ => .refl _⟩
  let picked := (rankedExposures met (filteredExposures d f rows)).filter fun x => x.rowRank = 1
  have hpicked : picked.map (fun x => x.row.key) =
      keys StoredExposure.key (filteredExposures d f rows) := by
    have hfirsts : picked.map toExposureRead = _ := rankedExposures_firsts
    have hkeys := congrArg (List.map StoredExposure.key) hfirsts
    rw [List.map_map, List.map_map] at hkeys
    exact hkeys.trans (map_firsts fun l => latestFirst_perm l)
  have hcomp : Relation.Comp (fun l t => l = List.map (fun x => x.row.key) t) List.Perm
      order picked = order.Perm (picked.map fun x => x.row.key) :=
    congrFun (congrFun (List.eq_map_comp_perm _) order) picked
  obtain ⟨target, rfl, htarget⟩ := hcomp.mpr (hpicked ▸ hperm)
  let plan : Plan :=
    { partition := id
      scan := fun l => if l.Perm target then target else l
      partition_perm := fun _ => .refl _
      scan_perm := fun l => by
        by_cases h : l.Perm target
        · rw [if_pos h]
          exact h.symm
        · rw [if_neg h] }
  refine ⟨plan, ?_⟩
  have hscan : plan.scan picked = target := if_pos htarget.symm
  have hsort : target.insertionSort (fun a b => d.before a.row.key.place b.row.key.place) =
      target := (List.pairwise_map.mp hsorted).insertionSort_eq
  have hview : deduplicatedExposures d plan f rows = target.map toExposureRead := by
    show ((plan.scan picked).insertionSort _).map toExposureRead = _
    rw [hscan, hsort]
  rw [hview, List.map_map]
  rfl

/-! ## Pages -/

/-- The keys of the view, in one of their orders. -/
def sortedKeysOf (d : Dialect) (f : ExposureFilters) (rows : List StoredExposure) :
    List ExposureKey :=
  (keys StoredExposure.key (filteredExposures d f rows)).insertionSort fun a b =>
    d.before a.place b.place

theorem sortedKeysOf_perm : (sortedKeysOf d f rows).Perm
    (keys StoredExposure.key (filteredExposures d f rows)) := List.perm_insertionSort _ _

theorem sortedKeysOf_sorted :
    (sortedKeysOf d f rows).Pairwise fun a b => d.before a.place b.place = true := by
  have htotal : Std.Total fun a b : ExposureKey => d.before a.place b.place = true :=
    ⟨fun a b => before_total.total _ _⟩
  have htrans : IsTrans ExposureKey fun a b => d.before a.place b.place = true :=
    ⟨fun _ _ _ => before_trans.trans _ _ _⟩
  exact List.pairwise_insertionSort (fun a b : ExposureKey => d.before a.place b.place = true) _

theorem map_place_sortedKeysOf :
    (sortedKeysOf d f rows).map ExposureKey.place = viewPlaces d f rows :=
  List.map_insertionSort _ _ _ _ fun _ _ _ _ => Iff.rfl

theorem cleanCuts_iff {limit : Int} :
    cleanCuts d f limit rows = true ↔ Clean (viewPlaces d f rows) limit.toNat := by
  rw [cleanCuts, List.all_eq_true]
  constructor
  · intro hall i x hdvd hi hnext
    have hlt := (List.getElem?_eq_some_iff.mp hi).1
    have hcut := hall i (List.mem_range.mpr hlt)
    rw [Bool.or_eq_true, decide_eq_true_eq, decide_eq_true_eq] at hcut
    rcases hcut with hne | hne
    · exact hne (Nat.mod_eq_zero_of_dvd hdvd)
    · exact hne (hi.trans hnext.symm)
  · intro hclean i hi
    rw [Bool.or_eq_true, decide_eq_true_eq, decide_eq_true_eq]
    by_cases hdvd : limit.toNat ∣ i + 1
    · refine Or.inr fun heq => ?_
      have hx := List.getElem?_eq_getElem (List.mem_range.mp hi)
      exact hclean i _ hdvd hx (heq ▸ hx)
    · exact Or.inl fun hmod => hdvd (Nat.dvd_of_mod_eq_zero hmod)

/-- A page of the list is a page of the view. -/
theorem listExposures_page {limit : Int} (hlow : 1 ≤ limit) (hhigh : limit ≤ 500) (i : Nat) :
    listExposures d plan f limit (i * limit) rows =
      page limit.toNat i (deduplicatedExposures d plan f rows) := by
  have hoffset : (max ((i : Int) * limit) 0).toNat = i * limit.toNat := by
    have hnonneg : 0 ≤ (i : Int) * limit :=
      Int.mul_nonneg (Int.natCast_nonneg i) (by omega)
    rw [max_eq_left hnonneg, Int.toNat_mul (by omega) (by omega), Int.toNat_natCast]
  rw [listExposures, page, hoffset, max_eq_left hlow, min_eq_left hhigh]

theorem exposurePages_keys {plans : Nat → Plan} {limit : Int} (hlow : 1 ≤ limit)
    (hhigh : limit ≤ 500) (n : Nat) :
    (exposurePages d plans f limit rows n).map StoredExposure.key = (List.range n).flatMap fun i =>
      page limit.toNat i ((deduplicatedExposures d (plans i) f rows).map StoredExposure.key) := by
  rw [exposurePages, List.map_flatMap]
  refine List.flatMap_congr fun i _ => ?_
  rw [listExposures_page hlow hhigh, page, page, List.map_take, List.map_drop]

end

/-- The pages are lossless exactly when none of them ends between two rows of one address
and port. -/
theorem lossless_pages_iff (d : Dialect) (f : ExposureFilters) (limit : Int)
    (rows : List StoredExposure) (hlow : 1 ≤ limit) (hhigh : limit ≤ 500) :
    LosslessPages d f limit rows ↔ cleanCuts d f limit rows = true := by
  have hantisymm : Std.Antisymm fun a b => d.before a b = true := before_antisymm
  have hsorted : (sortedKeysOf d f rows).Pairwise fun a b => d.before a.place b.place = true :=
    sortedKeysOf_sorted
  have hiff := lossless_iff (r := fun a b => d.before a b = true) (f := ExposureKey.place) hsorted
    (sortedKeysOf_perm.nodup_iff.mpr nodup_keys) (show 0 < limit.toNat by omega)
  rw [cleanCuts_iff, ← map_place_sortedKeysOf, ← hiff, LosslessPages]
  constructor
  · intro hall views hviews n hn
    choose plans hplans using fun i =>
      exists_plan ((hviews i).1.trans sortedKeysOf_perm) (hviews i).2
    have hpages := hall plans n (sortedKeysOf_perm.length_eq ▸ hn)
    rw [exposurePages_keys hlow hhigh] at hpages
    simp only [hplans] at hpages
    exact hpages.trans sortedKeysOf_perm.symm
  · intro hall plans n hn
    rw [exposurePages_keys hlow hhigh]
    refine (hall _ (fun i => ⟨?_, deduplicated_sorted⟩) n ?_).trans sortedKeysOf_perm
    · exact deduplicated_keys.trans sortedKeysOf_perm.symm
    · rw [sortedKeysOf_perm.length_eq]
      exact hn

namespace Demo

/-- The rows last stored first. -/
def lastStored : Plan :=
  ⟨id, List.reverse, .refl, List.reverse_perm⟩

/-- A name server. -/
def nameServer : List StoredExposure :=
  [exposure "e1" "profile" "10.0.0.5" "tcp" 53 (some "domain") 0 1,
    exposure "e2" "profile" "10.0.0.5" "udp" 53 (some "domain") 0 1]

end Demo

/-- The second query meets the rows in the other order. -/
theorem page_repeats_row :
    ¬ ∀ (d : Dialect) (f : ExposureFilters) (limit : Int) (rows : List StoredExposure),
      1 ≤ limit → limit ≤ 500 → LosslessPages d f limit rows := by
  intro hall
  have hpages := hall Demo.dialect {} 1 Demo.nameServer (by decide) (by decide)
    (fun i => if i = 0 then Demo.stored else Demo.lastStored) 2 (by decide +kernel)
  have htwice : (exposurePages Demo.dialect
      (fun i => if i = 0 then Demo.stored else Demo.lastStored) {} 1 Demo.nameServer 2).map
        StoredExposure.key =
      [("10.0.0.5", "tcp", 53, some "domain"), ("10.0.0.5", "tcp", 53, some "domain")] := by
    decide +kernel
  rw [htwice] at hpages
  exact absurd (hpages.nodup_iff.mpr nodup_keys) (by decide)

/-- Both rows are on one page. -/
theorem lossless_pages_one_page : LosslessPages Demo.dialect {} 2 Demo.nameServer :=
  (lossless_pages_iff Demo.dialect {} 2 Demo.nameServer (by decide) (by decide)).mpr
    (by decide +kernel)

end TransportLookout
