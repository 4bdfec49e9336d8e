/-
Keyed tables as row lists.

A table is a list of rows whose keys are pairwise distinct.  Distinctness is a
field, so a primary key is never re-proved by the code that reads or writes a
table.  An insert that repeats a key has no result, which is the database
rejecting it.

`writeBack` is the update an object-relational session emits for one column: a
column assigned the value it was loaded with is left out of the statement, and
the row keeps what other transactions committed there.
-/
import Mathlib.Algebra.Ring.Int.Defs
import Mathlib.Data.List.Basic
import Mathlib.Data.List.Nodup
import Mathlib.Data.List.Perm.Subperm

namespace Relational

class Keyed (ρ : Type*) (κ : outParam Type*) where
  key : ρ → κ

/-- Rows in storage order, no two with the same key. -/
structure Table (ρ : Type*) {κ : Type*} [Keyed ρ κ] where
  rows : List ρ
  nodup : (rows.map Keyed.key).Nodup

variable {ρ κ : Type*} [Keyed ρ κ]

namespace Table

def empty : Table ρ := ⟨[], List.nodup_nil⟩

theorem eq_of_key {t : Table ρ} {a b : ρ} (ha : a ∈ t.rows) (hb : b ∈ t.rows)
    (h : Keyed.key a = Keyed.key b) : a = b :=
  List.inj_on_of_nodup_map t.nodup ha hb h

def get [DecidableEq κ] (t : Table ρ) (k : κ) : Option ρ :=
  t.rows.find? fun r => Keyed.key r = k

def select (t : Table ρ) (p : ρ → Bool) : List ρ := t.rows.filter p

def count (t : Table ρ) (p : ρ → Bool) : Nat := t.rows.countP p

/-- Rewrite every row.  The rewrite keeps the key, so the table stays keyed. -/
def update (t : Table ρ) (f : ρ → ρ) (hf : ∀ r, Keyed.key (f r) = Keyed.key r) : Table ρ where
  rows := t.rows.map f
  nodup := by
    rw [List.map_map, show (Keyed.key ∘ f : ρ → κ) = Keyed.key from funext hf]
    exact t.nodup

def updateWhere (t : Table ρ) (p : ρ → Bool) (f : ρ → ρ)
    (hf : ∀ r, Keyed.key (f r) = Keyed.key r) : Table ρ :=
  t.update (fun r => if p r then f r else r) fun r => by
    by_cases h : p r = true
    · simp only [h, if_true, hf]
    · simp only [h, if_false, Bool.false_eq_true]

def modify [DecidableEq κ] (t : Table ρ) (k : κ) (f : ρ → ρ)
    (hf : ∀ r, Keyed.key (f r) = Keyed.key r) : Table ρ :=
  t.updateWhere (fun r => Keyed.key r = k) f hf

def delete (t : Table ρ) (p : ρ → Bool) : Table ρ where
  rows := t.rows.filter fun r => !p r
  nodup := (List.filter_sublist.map Keyed.key).nodup t.nodup

/-- Insert rows at the end.  A repeated key violates the primary key. -/
def append? [DecidableEq κ] (t : Table ρ) (l : List ρ) : Option (Table ρ) :=
  if h : ((t.rows ++ l).map Keyed.key).Nodup then some ⟨t.rows ++ l, h⟩ else none

@[simp] theorem rows_update (t : Table ρ) (f : ρ → ρ) (hf) :
    (t.update f hf).rows = t.rows.map f := rfl

@[simp] theorem rows_delete (t : Table ρ) (p : ρ → Bool) :
    (t.delete p).rows = t.rows.filter fun r => !p r := rfl

@[simp] theorem mem_select {t : Table ρ} {p : ρ → Bool} {r : ρ} :
    r ∈ t.select p ↔ r ∈ t.rows ∧ p r = true := List.mem_filter

@[simp] theorem mem_delete {t : Table ρ} {p : ρ → Bool} {r : ρ} :
    r ∈ (t.delete p).rows ↔ r ∈ t.rows ∧ p r = false := by
  rw [rows_delete, List.mem_filter, Bool.not_eq_true']

/-- A row after a rewrite of the one with key `k`: another one, or it. -/
theorem mem_modify [DecidableEq κ] {t : Table ρ} {k : κ} {f : ρ → ρ}
    {hf : ∀ r, Keyed.key (f r) = Keyed.key r} {r : ρ} (h : r ∈ (t.modify k f hf).rows) :
    (r ∈ t.rows ∧ Keyed.key r ≠ k) ∨ ∃ old ∈ t.rows, Keyed.key old = k ∧ r = f old := by
  obtain ⟨old, hold, rfl⟩ := List.mem_map.mp h
  by_cases hk : Keyed.key old = k
  · right
    refine ⟨old, hold, hk, ?_⟩
    simp only [hk, decide_true, if_true]
  · left
    simp only [hk, decide_false, Bool.false_eq_true, if_false]
    exact ⟨hold, hk⟩

theorem count_eq_zero {t : Table ρ} {p : ρ → Bool} :
    t.count p = 0 ↔ ∀ r ∈ t.rows, p r = false := by
  simp [count, List.countP_eq_zero]

theorem nodup_keys (t : Table ρ) (p : ρ → Bool) : ((t.select p).map Keyed.key).Nodup :=
  (List.filter_sublist.map Keyed.key).nodup t.nodup

/-- A predicate that fixes the key holds of one row at most. -/
theorem count_le_one {t : Table ρ} {p : ρ → Bool} {k : κ}
    (h : ∀ r ∈ t.rows, p r = true → Keyed.key r = k) : t.count p ≤ 1 := by
  have hkeys : (t.rows.filter p).map Keyed.key = List.replicate (t.count p) k := by
    rw [count, List.countP_eq_length_filter]
    refine List.eq_replicate_iff.mpr ⟨List.length_map _, ?_⟩
    intro k' hk'
    obtain ⟨r, hr, rfl⟩ := List.mem_map.mp hk'
    obtain ⟨hmem, hp⟩ := List.mem_filter.mp hr
    exact h r hmem hp
  have hnodup : ((t.rows.filter p).map Keyed.key).Nodup := t.nodup_keys p
  rw [hkeys] at hnodup
  exact List.nodup_replicate.mp hnodup

theorem count_eq_length (t : Table ρ) (p : ρ → Bool) :
    t.count p = ((t.select p).map Keyed.key).length := by
  rw [count, List.countP_eq_length_filter, List.length_map, select]

/-- Rows counted in one table are no more than the rows they correspond to in another. -/
theorem count_le_count {t t' : Table ρ} {p p' : ρ → Bool}
    (h : ∀ r' ∈ t'.rows, p' r' = true → ∃ r ∈ t.rows, Keyed.key r = Keyed.key r' ∧ p r = true) :
    t'.count p' ≤ t.count p := by
  rw [count_eq_length, count_eq_length]
  refine (List.subperm_of_subset (t'.nodup_keys p') ?_).length_le
  intro k hk
  obtain ⟨r', hr', rfl⟩ := List.mem_map.mp hk
  obtain ⟨hmem', hp'⟩ := List.mem_filter.mp hr'
  obtain ⟨r, hmem, hkey, hp⟩ := h r' hmem' hp'
  exact List.mem_map.mpr ⟨r, List.mem_filter.mpr ⟨hmem, hp⟩, hkey⟩

/-- Counting the rows of before and the rows of `ks`. -/
theorem count_eq_add {t t' : Table ρ} {p p' : ρ → Bool} {ks : List κ} (hks : ks.Nodup)
    (hdisjoint : ∀ r ∈ t.rows, p r = true → Keyed.key r ∉ ks)
    (h : ∀ k, (∃ r ∈ t'.rows, p' r = true ∧ Keyed.key r = k) ↔
      (∃ r ∈ t.rows, p r = true ∧ Keyed.key r = k) ∨ k ∈ ks) :
    t'.count p' = t.count p + ks.length := by
  have hkeys : ∀ (t : Table ρ) (p : ρ → Bool) (k : κ), k ∈ (t.select p).map Keyed.key ↔
      ∃ r ∈ t.rows, p r = true ∧ Keyed.key r = k := by
    intro t p k
    simp only [List.mem_map, mem_select, and_assoc]
  have hnodup : ((t.select p).map Keyed.key ++ ks).Nodup := by
    refine List.nodup_append'.mpr ⟨t.nodup_keys p, hks, ?_⟩
    intro k hk hin
    obtain ⟨r, hr, hp, rfl⟩ := (hkeys t p k).mp hk
    exact hdisjoint r hr hp hin
  rw [count_eq_length, count_eq_length, ← List.length_append]
  refine ((List.perm_ext_iff_of_nodup (t'.nodup_keys p') hnodup).mpr fun k => ?_).length_eq
  rw [hkeys, h, List.mem_append, hkeys]

/-- Fewer rows are counted where each corresponds to one that was and one has no such row. -/
theorem count_lt_count [DecidableEq κ] {t t' : Table ρ} {p p' : ρ → Bool} {r : ρ}
    (hr : r ∈ t.rows) (hp : p r = true)
    (h : ∀ r' ∈ t'.rows, p' r' = true → Keyed.key r' ≠ Keyed.key r ∧
      ∃ x ∈ t.rows, Keyed.key x = Keyed.key r' ∧ p x = true) : t'.count p' < t.count p := by
  have hrest : t'.count p' ≤ t.count fun x => p x && decide (Keyed.key x ≠ Keyed.key r) := by
    refine count_le_count fun r' hr' hp' => ?_
    obtain ⟨hne, x, hx, hkey, hpx⟩ := h r' hr' hp'
    refine ⟨x, hx, hkey, ?_⟩
    rw [hpx, Bool.true_and, decide_eq_true_eq, hkey]
    exact hne
  have hone : t.count p =
      t.count (fun x => p x && decide (Keyed.key x ≠ Keyed.key r)) + [Keyed.key r].length := by
    refine count_eq_add (List.nodup_singleton _) ?_ fun k => ?_
    · intro x _ hpx hmem
      rw [Bool.and_eq_true, decide_eq_true_eq] at hpx
      exact hpx.2 (List.mem_singleton.mp hmem)
    · constructor
      · rintro ⟨x, hx, hpx, rfl⟩
        by_cases hkey : Keyed.key x = Keyed.key r
        · exact Or.inr (List.mem_singleton.mpr hkey)
        · exact Or.inl ⟨x, hx, by rw [hpx, Bool.true_and, decide_eq_true_eq]; exact hkey, rfl⟩
      · rintro (⟨x, hx, hpx, rfl⟩ | hmem)
        · rw [Bool.and_eq_true] at hpx
          exact ⟨x, hx, hpx.1, rfl⟩
        · cases List.mem_singleton.mp hmem
          exact ⟨r, hr, hp, rfl⟩
  rw [hone]
  exact Nat.lt_succ_of_le hrest

theorem rows_append? [DecidableEq κ] {t t' : Table ρ} {l : List ρ}
    (h : t.append? l = some t') : t'.rows = t.rows ++ l := by
  rw [append?] at h
  split at h
  · cases h
    rfl
  · cases h

/-- An insert goes through when no key occurs twice. -/
theorem append?_isSome [DecidableEq κ] {t : Table ρ} {l : List ρ} :
    (t.append? l).isSome = true ↔ ((t.rows ++ l).map Keyed.key).Nodup := by
  rw [append?]
  split
  · next h => exact iff_of_true rfl h
  · next h => exact iff_of_false (fun h => by cases h) h

theorem ext_rows {t t' : Table ρ} (h : t.rows = t'.rows) : t = t' := by
  cases t
  cases t'
  cases h
  rfl

theorem delete_eq_self {t : Table ρ} {p : ρ → Bool} :
    t.delete p = t ↔ ∀ r ∈ t.rows, p r = false := by
  have hrows : (t.delete p).rows = t.rows ↔ ∀ r ∈ t.rows, p r = false := by
    rw [rows_delete, List.filter_eq_self]
    simp only [Bool.not_eq_true']
  exact ⟨fun h => hrows.mp (congrArg rows h), fun h => ext_rows (hrows.mpr h)⟩

/-- Deleting rows a query does not select does not change its answer. -/
theorem select_delete {t : Table ρ} {p q : ρ → Bool} (h : ∀ r ∈ t.rows, q r = true → p r = false) :
    (t.delete p).select q = t.select q := by
  rw [select, select, rows_delete, List.filter_filter]
  refine List.filter_congr fun r hr => ?_
  by_cases hq : q r = true
  · rw [hq, h r hr hq]
    rfl
  · rw [Bool.eq_false_iff.mpr hq, Bool.false_and]

variable [DecidableEq κ]

/-- Neither does inserting rows it does not select. -/
theorem select_append? {t t' : Table ρ} {l : List ρ} {q : ρ → Bool} (h : t.append? l = some t')
    (hq : ∀ r ∈ l, q r = false) : t'.select q = t.select q := by
  have hnone : l.filter q = [] := List.filter_eq_nil_iff.mpr fun r hr => by
    rw [hq r hr]
    exact Bool.false_ne_true
  rw [select, select, rows_append? h, List.filter_append, hnone, List.append_nil]

theorem append?_eq_self {t : Table ρ} {l : List ρ} : t.append? l = some t ↔ l = [] := by
  constructor
  · intro h
    exact List.self_eq_append_right.mp (rows_append? h)
  · rintro rfl
    have hnodup : ((t.rows ++ []).map Keyed.key).Nodup := by
      rw [List.append_nil]
      exact t.nodup
    rw [append?, dif_pos hnodup]
    exact congrArg some (ext_rows (List.append_nil t.rows))

theorem get_eq_some {t : Table ρ} {k : κ} {r : ρ} :
    t.get k = some r ↔ r ∈ t.rows ∧ Keyed.key r = k := by
  constructor
  · intro h
    exact ⟨List.mem_of_find?_eq_some h, by simpa using List.find?_some h⟩
  · rintro ⟨hr, hk⟩
    obtain ⟨r', hr'⟩ : ∃ r', t.get k = some r' := by
      apply Option.isSome_iff_exists.mp
      rw [get, List.find?_isSome]
      exact ⟨r, hr, by simpa using hk⟩
    have hmem : r' ∈ t.rows := List.mem_of_find?_eq_some hr'
    have hkey : Keyed.key r' = k := by simpa using List.find?_some hr'
    rw [hr', t.eq_of_key hmem hr (hkey.trans hk.symm)]

theorem get_key {t : Table ρ} {k : κ} {r : ρ} (h : t.get k = some r) : Keyed.key r = k :=
  (get_eq_some.mp h).2

theorem get_mem {t : Table ρ} {k : κ} {r : ρ} (h : t.get k = some r) : r ∈ t.rows :=
  (get_eq_some.mp h).1

theorem get_of_mem {t : Table ρ} {r : ρ} (h : r ∈ t.rows) : t.get (Keyed.key r) = some r :=
  get_eq_some.mpr ⟨h, rfl⟩

/-- No row is under a key that is not found. -/
theorem key_ne_of_get_eq_none {t : Table ρ} {k : κ} (h : t.get k = none) {r : ρ}
    (hr : r ∈ t.rows) : Keyed.key r ≠ k := by
  intro hkey
  have hget := get_of_mem hr
  rw [hkey, h] at hget
  cases hget

@[simp] theorem get_update (t : Table ρ) (f : ρ → ρ) (hf) (k : κ) :
    (t.update f hf).get k = (t.get k).map f := by
  simp only [get, rows_update, List.find?_map]
  congr 2
  funext r
  simp only [Function.comp_apply, hf]

theorem get_updateWhere (t : Table ρ) (p : ρ → Bool) (f : ρ → ρ) (hf) (k : κ) :
    (t.updateWhere p f hf).get k = (t.get k).map fun r => if p r then f r else r :=
  get_update t _ _ k

theorem get_modify (t : Table ρ) (k k' : κ) (f : ρ → ρ) (hf) :
    (t.modify k' f hf).get k = (t.get k).map fun r => if k = k' then f r else r := by
  rw [modify, get_updateWhere]
  cases h : t.get k with
  | none => rfl
  | some r => simp only [Option.map_some, get_key h, decide_eq_true_eq]

/-- After an insert a key reads as before or as an inserted row. -/
theorem get_append? {t t' : Table ρ} {l : List ρ} (h : t.append? l = some t') {k : κ} {r : ρ}
    (hr : t'.get k = some r) : t.get k = some r ∨ (r ∈ l ∧ t.get k = none) := by
  obtain ⟨hmem, hkey⟩ := get_eq_some.mp hr
  rw [rows_append? h, List.mem_append] at hmem
  rcases hmem with hmem | hmem
  · exact Or.inl (get_eq_some.mpr ⟨hmem, hkey⟩)
  · cases hk : t.get k with
    | none => exact Or.inr ⟨hmem, rfl⟩
    | some r' =>
      have h' : r' ∈ t'.rows := by
        rw [rows_append? h]
        exact List.mem_append_left l (get_mem hk)
      rw [t'.eq_of_key h' (get_mem hr) ((get_key hk).trans hkey.symm)]
      exact Or.inl rfl

theorem get_append?_of_mem {t t' : Table ρ} {l : List ρ} (h : t.append? l = some t') {r : ρ}
    (hr : r ∈ l) : t'.get (Keyed.key r) = some r := by
  refine get_of_mem ?_
  rw [rows_append? h]
  exact List.mem_append_right t.rows hr

/-- The keys of rows that are numbered by distinct keys. -/
theorem nodup_mapIdx {α β γ : Type*} {l : List α} {f : Nat → α → β} {key : β → γ} {ids : Nat → γ}
    (hkey : ∀ i a, key (f i a) = ids i) (h : Function.Injective ids) :
    ((l.mapIdx f).map key).Nodup := by
  rw [List.nodup_iff_injective_getElem]
  intro i j hij
  simp only [List.getElem_map, List.getElem_mapIdx, hkey] at hij
  exact Fin.ext (h hij)

/-- New rows go in. -/
theorem append?_of_fresh {t : Table ρ} {l : List ρ} (hl : (l.map Keyed.key).Nodup)
    (hfresh : ∀ r ∈ l, t.get (Keyed.key r) = none) : ∃ t', t.append? l = some t' := by
  refine Option.isSome_iff_exists.mp (append?_isSome.mpr ?_)
  rw [List.map_append]
  refine List.nodup_append'.mpr ⟨t.nodup, hl, fun k hk hk' => ?_⟩
  obtain ⟨r, hr, rfl⟩ := List.mem_map.mp hk
  obtain ⟨r', hr', hkey⟩ := List.mem_map.mp hk'
  exact key_ne_of_get_eq_none (hfresh r' hr') hr hkey.symm

/-- A row goes in under a key no row has. -/
theorem get_of_append? {t t' : Table ρ} {l : List ρ} (h : t.append? l = some t') {r : ρ}
    (hr : r ∈ l) : t.get (Keyed.key r) = none := by
  refine Option.eq_none_iff_forall_ne_some.mpr fun r' hr' => ?_
  have hnodup := t'.nodup
  rw [rows_append? h, List.map_append] at hnodup
  refine List.disjoint_of_nodup_append hnodup ?_ (List.mem_map_of_mem hr)
  rw [← get_key hr']
  exact List.mem_map_of_mem (get_mem hr')

/-- Rows with keys of their own go in exactly when no key is taken. -/
theorem append?_isSome_iff_fresh {t : Table ρ} {l : List ρ} (hl : (l.map Keyed.key).Nodup) :
    (t.append? l).isSome = true ↔ ∀ r ∈ l, t.get (Keyed.key r) = none := by
  constructor
  · intro h r hr
    obtain ⟨t', ht'⟩ := Option.isSome_iff_exists.mp h
    exact get_of_append? ht' hr
  · intro hfresh
    exact Option.isSome_iff_exists.mpr (append?_of_fresh hl hfresh)

theorem get_append?_of_get {t t' : Table ρ} {l : List ρ} (h : t.append? l = some t') {k : κ}
    {r : ρ} (hr : t.get k = some r) : t'.get k = some r := by
  refine get_eq_some.mpr ⟨?_, get_key hr⟩
  rw [rows_append? h]
  exact List.mem_append_left l (get_mem hr)

/-! ## Views

A view of a table is a list with an element for each row. -/

section View
variable {α : Type*} (view : ρ → α)

theorem map_append? {t t' : Table ρ} {l : List ρ} (h : t.append? l = some t') :
    t'.rows.map view = t.rows.map view ++ l.map view := by
  rw [rows_append? h, List.map_append]

/-- An update of one row is seen as an update of one element. -/
theorem map_modify (t : Table ρ) (k : κ) {f : ρ → ρ} (hf) {g : α → α} {n : α → κ}
    (hn : ∀ r, n (view r) = Keyed.key r) (hg : ∀ r, view (f r) = g (view r)) :
    (t.modify k f hf).rows.map view =
      (t.rows.map view).map fun a => if n a = k then g a else a := by
  rw [modify, updateWhere, rows_update, List.map_map, List.map_map]
  refine List.map_congr_left fun r _ => ?_
  simp only [Function.comp_apply, hn, decide_eq_true_eq]
  split
  · exact hg r
  · rfl

/-- An update of what is not seen. -/
theorem map_modify_eq (t : Table ρ) (k : κ) {f : ρ → ρ} (hf) (hview : ∀ r, view (f r) = view r) :
    (t.modify k f hf).rows.map view = t.rows.map view := by
  rw [modify, updateWhere, rows_update, List.map_map]
  refine List.map_congr_left fun r _ => ?_
  rw [Function.comp_apply]
  split
  · exact hview r
  · rfl

omit [DecidableEq κ] in
theorem map_delete (t : Table ρ) {p : ρ → Bool} {q : α → Bool} (h : ∀ r, q (view r) = !p r) :
    (t.delete p).rows.map view = (t.rows.map view).filter q := by
  rw [rows_delete, List.filter_map]
  congr 1
  refine List.filter_congr fun r _ => ?_
  rw [Function.comp_apply, h]

end View

end Table

/-! ## Association lists -/

section Lookup
variable {κ ν : Type*} [BEq κ] [LawfulBEq κ]

theorem mem_of_lookup_eq_some {l : List (κ × ν)} {k : κ} {v : ν} (h : l.lookup k = some v) :
    (k, v) ∈ l := by
  obtain ⟨l₁, l₂, heq, -⟩ := List.lookup_eq_some_iff.mp h
  rw [heq]
  exact List.mem_append_right _ List.mem_cons_self

/-- Distinct values are handed to distinct keys. -/
theorem lookup_zip_inj {ks : List κ} {vs : List ν} (hlen : vs.length ≤ ks.length)
    (hnodup : vs.Nodup) {k k' : κ} {v : ν} (h : (ks.zip vs).lookup k = some v)
    (h' : (ks.zip vs).lookup k' = some v) : k = k' := by
  have hvs : ((ks.zip vs).map Prod.snd).Nodup := by
    rw [List.map_snd_zip hlen]
    exact hnodup
  have heq : (k, v) = (k', v) :=
    List.inj_on_of_nodup_map hvs (mem_of_lookup_eq_some h) (mem_of_lookup_eq_some h') rfl
  exact (Prod.mk.inj heq).1

end Lookup

/-! ## Write-back of loaded columns -/

section WriteBack
variable {α : Type*} [DecidableEq α]

/-- The value a column has after a flush: the assigned value when the assignment
changed what was loaded, and the row's own value otherwise. -/
def writeBack (loaded assigned current : α) : α :=
  if assigned = loaded then current else assigned

@[simp] theorem writeBack_self (a c : α) : writeBack a a c = c := if_pos rfl

theorem writeBack_of_ne {l a : α} (h : a ≠ l) (c : α) : writeBack l a c = a := if_neg h

@[simp] theorem writeBack_current (l a : α) : writeBack l a l = a := by
  by_cases h : a = l
  · rw [h, writeBack_self]
  · exact writeBack_of_ne h l

end WriteBack

end Relational
