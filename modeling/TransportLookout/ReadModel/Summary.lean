/-
The summary of the exposures: `exposure_summary` of `main.py`.

The four numbers are taken from the deduplicated view.  They might as well be taken
from the rows: neither the deduplication nor what the database picks for a group shows
in them, except that a service seen by several profiles counts once.
-/
import TransportLookout.ReadModel.Exposures

namespace TransportLookout

open Partition

structure ExposureSummary where
  openHosts : Nat
  openServices : Nat
  uniquePorts : Nat
  latestObservationAt : Option DateTime
deriving DecidableEq, Repr

/-- `COUNT(DISTINCT …)`. -/
def countDistinct {α : Type*} [DecidableEq α] (column : List α) : Nat := column.dedup.length

def exposureSummary (d : Dialect) (plan : Plan) (stored : List StoredExposure) :
    ExposureSummary :=
  let exposures := deduplicatedExposures d plan {} stored
  { openHosts := countDistinct (exposures.map fun e => e.address)
    openServices := exposures.length
    uniquePorts := countDistinct (exposures.map fun e => e.port)
    latestObservationAt := (exposures.map fun e => e.lastSeenAt).max? }

theorem countDistinct_congr {α : Type*} [DecidableEq α] {l l' : List α}
    (h : ∀ a, a ∈ l ↔ a ∈ l') : countDistinct l = countDistinct l' := by
  refine ((List.perm_ext_iff_of_nodup (List.nodup_dedup l) (List.nodup_dedup l')).mpr ?_).length_eq
  intro a
  rw [List.mem_dedup, List.mem_dedup]
  exact h a

/-- A list that goes as far up as the one it is taken from has its maximum. -/
theorem max?_eq_of_cofinal {l l' : List DateTime} (hsub : ∀ t ∈ l, t ∈ l')
    (hup : ∀ t ∈ l', ∃ u ∈ l, t ≤ u) : l.max? = l'.max? := by
  cases hmax : l'.max? with
  | none =>
    rw [List.max?_eq_none_iff] at hmax ⊢
    subst hmax
    exact List.eq_nil_iff_forall_not_mem.mpr fun t ht => List.not_mem_nil (hsub t ht)
  | some t =>
    obtain ⟨ht, hle⟩ := List.max?_eq_some_iff.mp hmax
    obtain ⟨u, hu, htu⟩ := hup t ht
    have heq : u = t := le_antisymm (hle u (hsub u hu)) htu
    exact List.max?_eq_some_iff.mpr ⟨heq ▸ hu, fun x hx => hle x (hsub x hx)⟩

section
variable {d : Dialect} {plan : Plan} {stored : List StoredExposure}

@[simp] theorem filteredExposures_all : filteredExposures d {} stored = stored := by
  simp [filteredExposures, ExposureFilters.keeps]

/-- The view has the keys of the rows. -/
theorem mem_view_key {α : Type*} (column : ExposureKey → α) (a : α) :
    a ∈ (deduplicatedExposures d plan {} stored).map (fun e => column e.key) ↔
      a ∈ stored.map fun e => column e.key := by
  have hkeys := (grouped_view d plan {} stored).keys
  rw [filteredExposures_all] at hkeys
  rw [List.mem_map, List.mem_map]
  constructor
  · rintro ⟨v, hv, rfl⟩
    obtain ⟨e, he, hkey⟩ := (hkeys v.key).mp (List.mem_map_of_mem hv)
    exact ⟨e, he, congrArg column hkey⟩
  · rintro ⟨e, he, rfl⟩
    obtain ⟨v, hv, hkey⟩ := List.mem_map.mp ((hkeys e.key).mpr ⟨e, he, rfl⟩)
    exact ⟨v, hv, congrArg column hkey⟩

theorem length_view :
    (deduplicatedExposures d plan {} stored).length =
      countDistinct (stored.map StoredExposure.key) := by
  have hperm : ((deduplicatedExposures d plan {} stored).map StoredExposure.key).Perm
      (keys StoredExposure.key (filteredExposures d {} stored)) := deduplicated_keys
  rw [← List.length_map (f := StoredExposure.key), hperm.length_eq, filteredExposures_all]
  rfl

theorem max_view :
    ((deduplicatedExposures d plan {} stored).map fun e => e.lastSeenAt).max? =
      (stored.map fun e => e.lastSeenAt).max? := by
  have hview := grouped_view d plan {} stored
  rw [filteredExposures_all] at hview
  refine max?_eq_of_cofinal (fun t ht => ?_) fun t ht => ?_
  · obtain ⟨v, hv, rfl⟩ := List.mem_map.mp ht
    obtain ⟨e, he, -, hseen⟩ := (hview.last v hv).1
    exact List.mem_map.mpr ⟨e, he, hseen⟩
  · obtain ⟨e, he, rfl⟩ := List.mem_map.mp ht
    obtain ⟨v, hv, hkey⟩ := List.mem_map.mp ((hview.keys e.key).mpr ⟨e, he, rfl⟩)
    exact ⟨v.lastSeenAt, List.mem_map_of_mem hv, (hview.last v hv).2 ⟨e, he, hkey.symm, rfl⟩⟩

end

/-- The summary counts the distinct hosts, services and ports of the stored rows and has
the time of the latest, whatever the database picks. -/
theorem summary_of_rows (d : Dialect) (plan : Plan) (stored : List StoredExposure) :
    exposureSummary d plan stored =
      { openHosts := countDistinct (stored.map fun e => e.address)
        openServices := countDistinct (stored.map StoredExposure.key)
        uniquePorts := countDistinct (stored.map fun e => e.port)
        latestObservationAt := (stored.map fun e => e.lastSeenAt).max? } := by
  rw [exposureSummary, max_view, length_view]
  congr 1
  · exact countDistinct_congr fun a => mem_view_key (fun k => k.1) a
  · exact countDistinct_congr fun a => mem_view_key (fun k => k.2.2.1) a

example : exposureSummary Demo.dialect Demo.stored
    [Demo.exposure "e1" "profile" "10.81.0.10" "tcp" 443 (some "https") 0 2,
      Demo.exposure "e2" "alternative" "10.81.0.10" "tcp" 443 (some "https") 60 3,
      Demo.exposure "e3" "profile" "10.81.0.11" "tcp" 22 (some "ssh") 0 1] =
      ⟨2, 2, 2, some 60⟩ := by
  decide +kernel

end TransportLookout
