/-
References between tables.

A foreign key demands that the value of a column is a key of another table.  The rows and
the table they refer to change apart from each other, and each kind of change has a rule:
more rows, fewer rows, a table that keeps its keys, a delete of what nothing refers to.
-/
import TransportLookout.Library.Table

namespace Relational

section
variable {ρ ρ' κ : Type*} [Keyed ρ κ] [DecidableEq κ]

/-- The column of every row is a key of the table. -/
def Refers (rows : List ρ') (column : ρ' → κ) (t : Table ρ) : Prop :=
  ∀ r ∈ rows, (t.get (column r)).isSome = true

/-- No key is lost. -/
def Table.KeepsKeys (t t' : Table ρ) : Prop :=
  ∀ k, (t.get k).isSome = true → (t'.get k).isSome = true

namespace Table.KeepsKeys

variable {t t' : Table ρ}

theorem modify (t : Table ρ) (k : κ) (f : ρ → ρ) (hf) : t.KeepsKeys (t.modify k f hf) := by
  intro k' h
  rw [Table.get_modify, Option.isSome_map]
  exact h

theorem append? {l : List ρ} (h : t.append? l = some t') : t.KeepsKeys t' := by
  intro k hk
  obtain ⟨r, hr⟩ := Option.isSome_iff_exists.mp hk
  rw [Table.get_append?_of_get h hr]
  rfl

end Table.KeepsKeys

namespace Refers

variable {rows rows' : List ρ'} {column : ρ' → κ} {t t' : Table ρ}

theorem nil : Refers [] column t := fun _ hr => absurd hr List.not_mem_nil

theorem of_rows (h : Refers rows column t)
    (hrows : ∀ r ∈ rows', ∃ old ∈ rows, column old = column r) : Refers rows' column t := by
  intro r hr
  obtain ⟨old, hold, heq⟩ := hrows r hr
  rw [← heq]
  exact h old hold

theorem append (h : Refers rows column t) (h' : Refers rows' column t) :
    Refers (rows ++ rows') column t := fun r hr =>
  (List.mem_append.mp hr).elim (h r) (h' r)

theorem of_keys (h : Refers rows column t) (hkeys : t.KeepsKeys t') : Refers rows column t' :=
  fun r hr => hkeys (column r) (h r hr)

/-- What no row refers to may be deleted. -/
theorem delete (h : Refers rows column t) {p : ρ → Bool}
    (hfree : ∀ r ∈ rows, ∀ target ∈ t.rows, Keyed.key target = column r → p target = false) :
    Refers rows column (t.delete p) := by
  intro r hr
  obtain ⟨target, htarget⟩ := Option.isSome_iff_exists.mp (h r hr)
  obtain ⟨hmem, hkey⟩ := Table.get_eq_some.mp htarget
  refine Option.isSome_iff_exists.mpr ⟨target, Table.get_eq_some.mpr ⟨?_, hkey⟩⟩
  exact Table.mem_delete.mpr ⟨hmem, hfree r hr target hmem hkey⟩

end Refers

end

end Relational
