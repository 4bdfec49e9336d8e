/-
The deduplicated view of the current exposures: `main.py`.

`deduplicated_exposures` is one query.  It partitions the filtered rows by address,
protocol, port and service, numbers each partition from its latest row on, keeps
the rows numbered one with the aggregates of their partition, and sorts them by
address and port.

SQL leaves two things open: which of the rows that were seen last at the same time is
numbered one, and the order of rows with one address and port.  A `Plan` is what the
database makes of them in one query, as the order in which it meets the rows before it
sorts them.
-/
import TransportLookout.Library.Partition
import TransportLookout.Models
import Mathlib.Algebra.GroupWithZero.Nat
import Mathlib.Data.List.Sort
import Mathlib.Order.Bounds.Basic

namespace TransportLookout

open Partition

/-- A row of `current_exposures` with its generated id. -/
structure StoredExposure extends CurrentExposure where
  id : Uuid
deriving DecidableEq, Repr

/-- The model has the columns of the table. -/
abbrev ExposureRead := StoredExposure

/-- The columns of the partition. -/
abbrev ExposureKey := String × String × Int × Option String

def StoredExposure.key (e : StoredExposure) : ExposureKey :=
  (e.address, e.protocol, e.port, e.service)

/-- The columns of `ORDER BY`. -/
def ExposureKey.place (k : ExposureKey) : String × Int := (k.1, k.2.2.1)

/-- What the database brings along: `ILIKE`, a text and its pattern, and the order of its
collation. -/
structure Dialect where
  ilike : String → String → Bool
  textLe : String → String → Bool
  total : ∀ a b, textLe a b || textLe b a
  trans : ∀ a b c, textLe a b = true → textLe b c = true → textLe a c = true
  antisymm : ∀ a b, textLe a b = true → textLe b a = true → a = b

/-- `ORDER BY address, port`. -/
def Dialect.before (d : Dialect) (a b : String × Int) : Bool :=
  if a.1 = b.1 then a.2 ≤ b.2 else d.textLe a.1 b.1

/-- The parameters of the list, the export and the view. -/
structure ExposureFilters where
  scopeId : Option String := none
  host : Option String := none
  port : Option Int := none
  service : Option String := none
deriving DecidableEq, Repr

structure RankedExposure where
  row : StoredExposure
  rowRank : Nat
  firstSeenAt : DateTime
  lastSeenAt : DateTime
  scanCount : Nat

structure Plan where
  partition : List StoredExposure → List StoredExposure
  scan : List RankedExposure → List RankedExposure
  partition_perm : ∀ l, (partition l).Perm l
  scan_perm : ∀ l, (scan l).Perm l

/-- A filter that is absent or falsy keeps every row. -/
def ExposureFilters.keeps {α : Type*} (filter : Option α) (falsy : α → Bool) (p : α → Bool) :
    Bool :=
  filter.all fun x => falsy x || p x

def filteredExposures (d : Dialect) (f : ExposureFilters) (rows : List StoredExposure) :
    List StoredExposure :=
  (((rows.filter fun e =>
      ExposureFilters.keeps f.scopeId (· = "") fun id => e.inventoryScopeId = id).filter fun e =>
      ExposureFilters.keeps f.host (· = "") fun host => e.address = host).filter fun e =>
      ExposureFilters.keeps f.port (· = 0) fun port => e.port = port).filter fun e =>
      -- a NULL is not like anything
      ExposureFilters.keeps f.service (· = "") fun service =>
        e.service.any fun text => d.ilike text ("%" ++ service ++ "%")

/-- The order of a partition: latest first. -/
def Plan.latestFirst (plan : Plan) (rows : List StoredExposure) : List StoredExposure :=
  (plan.partition rows).insertionSort fun a b => b.lastSeenAt ≤ a.lastSeenAt

def rankedExposures (plan : Plan) (rows : List StoredExposure) : List RankedExposure :=
  (keys StoredExposure.key rows).flatMap fun k =>
    let partition := group StoredExposure.key rows k
    (plan.latestFirst partition).mapIdx fun i e =>
      { row := e
        rowRank := i + 1
        firstSeenAt := (partition.map fun x => x.firstSeenAt).min?.getD e.firstSeenAt
        lastSeenAt := (partition.map fun x => x.lastSeenAt).max?.getD e.lastSeenAt
        scanCount := (partition.map fun x => x.scanCount).sum }

def toExposureRead (item : RankedExposure) : ExposureRead :=
  { item.row with
    firstSeenAt := item.firstSeenAt
    lastSeenAt := item.lastSeenAt
    scanCount := item.scanCount }

def deduplicatedExposures (d : Dialect) (plan : Plan) (f : ExposureFilters)
    (rows : List StoredExposure) : List ExposureRead :=
  ((plan.scan ((rankedExposures plan (filteredExposures d f rows)).filter fun x =>
      x.rowRank = 1)).insertionSort fun a b =>
    d.before a.row.key.place b.row.key.place).map toExposureRead

/-- What an endpoint returns for a page: `limit` and `offset` are clamped. -/
def listExposures (d : Dialect) (plan : Plan) (f : ExposureFilters) (limit offset : Int)
    (rows : List StoredExposure) : List ExposureRead :=
  ((deduplicatedExposures d plan f rows).drop (max offset 0).toNat).take
    (min (max limit 1) 500).toNat

/-! ## What the query picks -/

/-- The row with the aggregates of its partition. -/
def aggregated (rows : List StoredExposure) (e : StoredExposure) : ExposureRead :=
  let partition := group StoredExposure.key rows e.key
  { e with
    firstSeenAt := (partition.map fun x => x.firstSeenAt).min?.getD e.firstSeenAt
    lastSeenAt := (partition.map fun x => x.lastSeenAt).max?.getD e.lastSeenAt
    scanCount := (partition.map fun x => x.scanCount).sum }

@[simp] theorem key_aggregated (rows : List StoredExposure) (e : StoredExposure) :
    (aggregated rows e).key = e.key := rfl

section
variable {d : Dialect} {plan : Plan} {f : ExposureFilters} {rows : List StoredExposure}

theorem latestFirst_perm (l : List StoredExposure) : (plan.latestFirst l).Perm l :=
  (List.perm_insertionSort _ _).trans (plan.partition_perm l)

theorem latestFirst_sorted (l : List StoredExposure) :
    (plan.latestFirst l).Pairwise fun a b => b.lastSeenAt ≤ a.lastSeenAt := by
  have htotal : Std.Total fun a b : StoredExposure => b.lastSeenAt ≤ a.lastSeenAt :=
    ⟨fun a b => le_total b.lastSeenAt a.lastSeenAt⟩
  have htrans : IsTrans StoredExposure fun a b => b.lastSeenAt ≤ a.lastSeenAt :=
    ⟨fun _ _ _ hab hbc => hbc.trans hab⟩
  exact List.pairwise_insertionSort _ _

/-- Of a numbered list the filter keeps the head. -/
theorem filter_numbered {number : Nat → StoredExposure → RankedExposure}
    (hrank : ∀ i e, (number i e).rowRank = i + 1) (l : List StoredExposure) :
    (l.mapIdx number).filter (fun x => x.rowRank = 1) = (l.head?.map (number 0)).toList := by
  cases l with
  | nil => rfl
  | cons e l =>
    have hrest : ((l.mapIdx fun i e => number (i + 1) e).filter fun x => x.rowRank = 1) = [] := by
      rw [List.filter_eq_nil_iff]
      intro x hx
      obtain ⟨i, hi, rfl⟩ := List.mem_mapIdx.mp hx
      rw [hrank]
      simp
    rw [List.mapIdx_cons, List.filter_cons_of_pos (by rw [hrank]; rfl), hrest]
    rfl

/-- The rows numbered one are the first of each partition. -/
theorem rankedExposures_firsts :
    ((rankedExposures plan rows).filter fun x => x.rowRank = 1).map toExposureRead =
      (firsts StoredExposure.key rows plan.latestFirst).map (aggregated rows) := by
  rw [rankedExposures, firsts, List.filter_flatMap, List.map_flatMap, List.map_filterMap,
    List.filterMap_eq_flatMap_toList]
  refine List.flatMap_congr fun k hk => ?_
  dsimp only
  rw [filter_numbered fun _ _ => rfl]
  obtain ⟨e, tail, hl, -, rfl⟩ := head_spec (fun l => latestFirst_perm l) hk
  rw [hl]
  rfl

theorem deduplicatedExposures_perm :
    (deduplicatedExposures d plan f rows).Perm
      ((firsts StoredExposure.key (filteredExposures d f rows) plan.latestFirst).map
        (aggregated (filteredExposures d f rows))) := by
  rw [← rankedExposures_firsts, deduplicatedExposures]
  exact ((List.perm_insertionSort _ _).trans (plan.scan_perm _)).map _

theorem mem_deduplicated {v : ExposureRead} (h : v ∈ deduplicatedExposures d plan f rows) :
    ∃ e ∈ filteredExposures d f rows, v = aggregated (filteredExposures d f rows) e ∧
      ∀ x ∈ filteredExposures d f rows, x.key = e.key → x.lastSeenAt ≤ e.lastSeenAt := by
  obtain ⟨e, he, rfl⟩ := List.mem_map.mp (deduplicatedExposures_perm.mem_iff.mp h)
  obtain ⟨hrows, tail, hl⟩ := mem_firsts (fun l => latestFirst_perm l) he
  refine ⟨e, hrows, rfl, fun x hx hkey => ?_⟩
  have hmem : x ∈ e :: tail := by
    rw [← hl, (latestFirst_perm _).mem_iff]
    exact mem_group.mpr ⟨hx, hkey⟩
  have hsorted : (e :: tail).Pairwise fun a b => b.lastSeenAt ≤ a.lastSeenAt :=
    hl ▸ latestFirst_sorted _
  rcases List.mem_cons.mp hmem with rfl | htail
  · exact le_rfl
  · exact (List.pairwise_cons.mp hsorted).1 x htail

theorem deduplicated_keys :
    ((deduplicatedExposures d plan f rows).map StoredExposure.key).Perm
      (keys StoredExposure.key (filteredExposures d f rows)) := by
  refine (deduplicatedExposures_perm.map StoredExposure.key).trans ?_
  rw [List.map_map, show StoredExposure.key ∘ aggregated (filteredExposures d f rows) =
    StoredExposure.key from rfl, map_firsts fun l => latestFirst_perm l]

end

/-! ## The view is a grouping -/

/-- The aggregates of a row of the view, with the columns they are grouped by. -/
def ExposureRead.aggregates (v : ExposureRead) : ExposureKey × DateTime × DateTime × Nat :=
  (v.key, v.firstSeenAt, v.lastSeenAt, v.scanCount)

/-- `SELECT … GROUP BY address, protocol, port, service` with one row of the group to show. -/
structure GroupedView (rows : List StoredExposure) (view : List ExposureRead) : Prop where
  nodup : (view.map StoredExposure.key).Nodup
  keys : ∀ k, k ∈ view.map StoredExposure.key ↔ ∃ e ∈ rows, e.key = k
  shown : ∀ v ∈ view, ∃ e ∈ rows, e.key = v.key ∧
    (∀ x ∈ rows, x.key = v.key → x.lastSeenAt ≤ e.lastSeenAt) ∧
      v = { e with
        firstSeenAt := v.firstSeenAt, lastSeenAt := v.lastSeenAt, scanCount := v.scanCount }
  first : ∀ v ∈ view, IsLeast {t | ∃ e ∈ rows, e.key = v.key ∧ e.firstSeenAt = t} v.firstSeenAt
  last : ∀ v ∈ view, IsGreatest {t | ∃ e ∈ rows, e.key = v.key ∧ e.lastSeenAt = t} v.lastSeenAt
  count : ∀ v ∈ view,
    v.scanCount = ((rows.filter fun e => e.key = v.key).map fun e => e.scanCount).sum
  total : (view.map fun v => v.scanCount).sum = (rows.map fun e => e.scanCount).sum

section
variable {rows : List StoredExposure} {e : StoredExposure}

/-- A column of the row's partition is not empty. -/
theorem group_column (he : e ∈ rows) (column : StoredExposure → DateTime) :
    column e ∈ (group StoredExposure.key rows e.key).map column :=
  List.mem_map_of_mem (mem_group.mpr ⟨he, rfl⟩)

theorem mem_group_column {column : StoredExposure → DateTime} {k : ExposureKey} {t : DateTime} :
    t ∈ (group StoredExposure.key rows k).map column ↔
      ∃ x ∈ rows, x.key = k ∧ column x = t := by
  rw [List.mem_map]
  simp only [mem_group, and_assoc]

theorem some_getD_min {l : List DateTime} {t : DateTime} (h : t ∈ l) :
    some (l.min?.getD t) = l.min? := by
  obtain ⟨m, hm⟩ := Option.isSome_iff_exists.mp (List.isSome_min?_of_mem h)
  rw [hm]
  rfl

theorem some_getD_max {l : List DateTime} {t : DateTime} (h : t ∈ l) :
    some (l.max?.getD t) = l.max? := by
  obtain ⟨m, hm⟩ := Option.isSome_iff_exists.mp (List.isSome_max?_of_mem h)
  rw [hm]
  rfl

theorem isLeast_min {l : List DateTime} {t : DateTime} (h : t ∈ l) :
    IsLeast {x | x ∈ l} (l.min?.getD t) :=
  List.min?_eq_some_iff.mp (some_getD_min h).symm

theorem isGreatest_max {l : List DateTime} {t : DateTime} (h : t ∈ l) :
    IsGreatest {x | x ∈ l} (l.max?.getD t) :=
  List.max?_eq_some_iff.mp (some_getD_max h).symm

end

section
variable {d : Dialect} {plan : Plan} {f : ExposureFilters} {rows : List StoredExposure}

theorem grouped_view (d : Dialect) (plan : Plan) (f : ExposureFilters)
    (rows : List StoredExposure) :
    GroupedView (filteredExposures d f rows) (deduplicatedExposures d plan f rows) where
  nodup := deduplicated_keys.nodup_iff.mpr nodup_keys
  keys := fun k => by rw [deduplicated_keys.mem_iff, mem_keys]
  shown := fun v hv => by
    obtain ⟨e, he, rfl, hlatest⟩ := mem_deduplicated hv
    exact ⟨e, he, rfl, hlatest, rfl⟩
  first := fun v hv => by
    obtain ⟨e, he, rfl, -⟩ := mem_deduplicated hv
    have hleast := isLeast_min (group_column he fun x => x.firstSeenAt)
    simp only [mem_group_column] at hleast
    exact hleast
  last := fun v hv => by
    obtain ⟨e, he, rfl, -⟩ := mem_deduplicated hv
    have hgreatest := isGreatest_max (group_column he fun x => x.lastSeenAt)
    simp only [mem_group_column] at hgreatest
    exact hgreatest
  count := fun v hv => by
    obtain ⟨e, -, rfl, -⟩ := mem_deduplicated hv
    rfl
  total := by
    have hsum : ((keys StoredExposure.key (filteredExposures d f rows)).map fun k =>
        ((group StoredExposure.key (filteredExposures d f rows) k).map fun e =>
          e.scanCount).sum).sum =
        ((filteredExposures d f rows).map fun e => e.scanCount).sum := sum_groups _
    rw [← hsum, (deduplicatedExposures_perm.map fun v => v.scanCount).sum_eq, List.map_map,
      ← map_firsts (@latestFirst_perm plan), List.map_map]
    rfl

/-! ## Filters of the key -/

/-- What a group is reduced to. -/
def summary (rows : List StoredExposure) (k : ExposureKey) :
    ExposureKey × Option DateTime × Option DateTime × Nat :=
  let partition := group StoredExposure.key rows k
  (k, (partition.map fun x => x.firstSeenAt).min?, (partition.map fun x => x.lastSeenAt).max?,
    (partition.map fun x => x.scanCount).sum)

def summarized (x : ExposureKey × DateTime × DateTime × Nat) :
    ExposureKey × Option DateTime × Option DateTime × Nat :=
  (x.1, some x.2.1, some x.2.2.1, x.2.2.2)

theorem summarized_injective : Function.Injective summarized := by
  rintro ⟨k, first, last, count⟩ ⟨k', first', last', count'⟩ h
  simp only [summarized, Prod.mk.injEq, Option.some.injEq] at h
  obtain ⟨rfl, rfl, rfl, rfl⟩ := h
  rfl

/-- The aggregates of the view are the summaries of the groups. -/
theorem aggregates_perm :
    (((deduplicatedExposures d plan f rows).map ExposureRead.aggregates).map summarized).Perm
      ((keys StoredExposure.key (filteredExposures d f rows)).map
        (summary (filteredExposures d f rows))) := by
  rw [List.map_map, ← map_firsts (@latestFirst_perm plan), List.map_map]
  refine (deduplicatedExposures_perm.map _).trans ?_
  rw [List.map_map]
  refine List.Perm.of_eq (List.map_congr_left fun e he => ?_)
  have hrows := (mem_firsts (fun l => latestFirst_perm l) he).1
  have hfirst := some_getD_min (group_column hrows fun x => x.firstSeenAt)
  have hlast := some_getD_max (group_column hrows fun x => x.lastSeenAt)
  simp only [Function.comp_apply, summarized, ExposureRead.aggregates, key_aggregated, summary]
  rw [← hfirst, ← hlast]
  rfl

/-- The filters other than the scope's, on the columns of the partition. -/
def ExposureFilters.matches (d : Dialect) (f : ExposureFilters) (k : ExposureKey) : Bool :=
  keeps f.host (· = "") (fun host => k.1 = host) &&
    keeps f.port (· = 0) (fun port => k.2.2.1 = port) &&
    keeps f.service (· = "") fun service =>
      k.2.2.2.any fun text => d.ilike text ("%" ++ service ++ "%")

def ExposureFilters.scopeOnly (f : ExposureFilters) : ExposureFilters := { scopeId := f.scopeId }

theorem filteredExposures_eq : filteredExposures d f rows =
    (filteredExposures d f.scopeOnly rows).filter fun e => f.matches d e.key := by
  simp only [filteredExposures, ExposureFilters.scopeOnly, ExposureFilters.keeps, Option.all_none,
    List.filter_filter, ExposureFilters.matches, StoredExposure.key]
  refine List.filter_congr fun e _ => ?_
  simp only [Bool.true_and]
  ac_rfl

theorem filters_commute (d : Dialect) (plan plan' : Plan) (f : ExposureFilters)
    (rows : List StoredExposure) :
    ((deduplicatedExposures d plan f rows).map ExposureRead.aggregates).Perm
      (((deduplicatedExposures d plan' f.scopeOnly rows).filter fun v => f.matches d v.key).map
        ExposureRead.aggregates) := by
  have hmatches : ∀ e ∈ filteredExposures d f.scopeOnly rows,
      f.matches d e.key = f.matches d e.key := fun _ _ => rfl
  have hkeys := keys_filter (q := f.matches d) hmatches
  -- the groups that are left are whole
  have hgroups : ((keys StoredExposure.key (filteredExposures d f.scopeOnly rows)).filter
      (f.matches d)).map (summary (filteredExposures d f rows)) =
      ((keys StoredExposure.key (filteredExposures d f.scopeOnly rows)).filter
        (f.matches d)).map (summary (filteredExposures d f.scopeOnly rows)) := by
    refine List.map_congr_left fun k hk => ?_
    rw [summary, summary, filteredExposures_eq, group_filter hmatches (List.mem_filter.mp hk).2]
  have hview : (((deduplicatedExposures d plan' f.scopeOnly rows).map
      ExposureRead.aggregates).map summarized).filter (fun x => f.matches d x.1) =
      (((deduplicatedExposures d plan' f.scopeOnly rows).filter
        fun v => f.matches d v.key).map ExposureRead.aggregates).map summarized := by
    rw [List.filter_map, List.filter_map]
    rfl
  have hbase : (((deduplicatedExposures d plan' f.scopeOnly rows).map
      ExposureRead.aggregates).map summarized).Perm _ := aggregates_perm
  rw [← List.map_perm_map_iff summarized_injective, ← hview]
  refine aggregates_perm.trans (List.Perm.trans ?_ (hbase.filter _).symm)
  rw [List.filter_map]
  refine List.Perm.trans ?_ (List.Perm.of_eq hgroups)
  rw [filteredExposures_eq]
  exact hkeys.map _

end

/-- For every outcome the database may choose, the view is a grouping of the filtered rows,
and a filter by host, port or service may as well be applied to the view. -/
theorem deduplicated_group_by (d : Dialect) (plan : Plan) (f : ExposureFilters)
    (rows : List StoredExposure) :
    GroupedView (filteredExposures d f rows) (deduplicatedExposures d plan f rows) ∧
      ∀ plan', ((deduplicatedExposures d plan f rows).map ExposureRead.aggregates).Perm
        (((deduplicatedExposures d plan' f.scopeOnly rows).filter fun v => f.matches d v.key).map
          ExposureRead.aggregates) :=
  ⟨grouped_view d plan f rows, fun plan' => filters_commute d plan plan' f rows⟩

namespace Demo

def dialect : Dialect where
  -- for patterns without wildcards of their own
  ilike text pattern := (pattern.toLower.toList.drop 1).dropLast <:+: text.toLower.toList
  textLe a b := a ≤ b
  total a b := by simpa using String.le_total a b
  trans a b c hab hbc := by
    rw [decide_eq_true_eq] at hab hbc ⊢
    exact String.le_trans hab hbc
  antisymm a b hab hba := by
    rw [decide_eq_true_eq] at hab hba
    exact String.le_antisymm hab hba

/-- The rows in the order in which they are stored. -/
def stored : Plan := ⟨id, id, fun _ => .refl _, fun _ => .refl _⟩

def exposure (id profileId address protocol : String) (port : Int) (service : Option String)
    (seenAt : DateTime) (scanCount : Nat) : StoredExposure :=
  { id := id, inventoryScopeId := "scope", profileId := profileId, latestRunId := "run",
    zone := "default", address := address, protocol := protocol, port := port, service := service,
    product := none, version := none, firstSeenAt := seenAt, lastSeenAt := seenAt,
    scanCount := scanCount }

end Demo

example : (deduplicatedExposures Demo.dialect Demo.stored { port := some 443 }
    [Demo.exposure "e1" "profile" "10.81.0.10" "tcp" 443 (some "https") 0 2,
      Demo.exposure "e2" "alternative" "10.81.0.10" "tcp" 443 (some "https") 60 3,
      Demo.exposure "e3" "profile" "10.81.0.11" "tcp" 22 (some "ssh") 0 1]).map
      (fun v => (v.id, v.firstSeenAt, v.lastSeenAt, v.scanCount)) = [("e2", 0, 60, 5)] := by
  decide +kernel

end TransportLookout
