/-
Tables whose rows change and neither come nor go.

`Table.Evolves R t t'` says that `t'` has the rows of `t` by key, each related by `R` to what
it was.  Rows that leave a set and never come back are fewer each time one leaves:
`Evolves.count_lt` is the measure of an algorithm that works through them.
-/
import TransportLookout.Library.Table

namespace Relational

variable {ρ κ : Type*} [Keyed ρ κ] [DecidableEq κ]

namespace Table

def Evolves (R : ρ → ρ → Prop) (t t' : Table ρ) : Prop := ∀ k, Option.Rel R (t.get k) (t'.get k)

namespace Evolves

variable {R R' R'' : ρ → ρ → Prop} {t t' t'' : Table ρ} {k : κ}

theorem refl (hR : ∀ r, R r r) (t : Table ρ) : t.Evolves R t := by
  intro k
  cases t.get k with
  | none => exact .none
  | some r => exact .some (hR r)

theorem trans (h : t.Evolves R t') (h' : t'.Evolves R' t'')
    (hR : ∀ k a b c, t.get k = some a → t'.get k = some b → t''.get k = some c → R a b → R' b c →
      R'' a c) : t.Evolves R'' t'' := by
  intro k
  have hfirst := h k
  have hsecond := h' k
  cases ha : t.get k with
  | none =>
    rw [ha] at hfirst
    cases hb : t'.get k with
    | none =>
      rw [hb] at hsecond
      cases hc : t''.get k with
      | none => exact .none
      | some c =>
        rw [hc] at hsecond
        cases hsecond
    | some b =>
      rw [hb] at hfirst
      cases hfirst
  | some a =>
    rw [ha] at hfirst
    cases hb : t'.get k with
    | none =>
      rw [hb] at hfirst
      cases hfirst
    | some b =>
      rw [hb] at hfirst hsecond
      cases hc : t''.get k with
      | none =>
        rw [hc] at hsecond
        cases hsecond
      | some c =>
        rw [hc] at hsecond
        cases hfirst with
        | some hab =>
          cases hsecond with
          | some hbc => exact .some (hR k a b c ha hb hc hab hbc)

/-- The rewrite of a table, where it keeps each row under its key. -/
theorem of_get {f : κ → ρ → ρ} (hget : ∀ k, t'.get k = (t.get k).map (f k))
    (hR : ∀ k r, t.get k = some r → R r (f k r)) : t.Evolves R t' := by
  intro k
  rw [hget k]
  cases hk : t.get k with
  | none => exact .none
  | some r => exact .some (hR k r hk)

theorem next (h : t.Evolves R t') {r : ρ} (hr : t.get k = some r) :
    ∃ r', t'.get k = some r' ∧ R r r' := by
  have hrel := h k
  rw [hr] at hrel
  cases hk : t'.get k with
  | none =>
    rw [hk] at hrel
    cases hrel
  | some r' =>
    rw [hk] at hrel
    cases hrel with
    | some hR => exact ⟨r', rfl, hR⟩

theorem prior (h : t.Evolves R t') {r' : ρ} (hr' : t'.get k = some r') :
    ∃ r, t.get k = some r ∧ R r r' := by
  have hrel := h k
  rw [hr'] at hrel
  cases hk : t.get k with
  | none =>
    rw [hk] at hrel
    cases hrel
  | some r =>
    rw [hk] at hrel
    cases hrel with
    | some hR => exact ⟨r, rfl, hR⟩

/-- Where no row changes its answer to `p`, as many satisfy it. -/
theorem count_eq {p : ρ → Bool} (h : t.Evolves R t') (hR : ∀ r r', R r r' → p r' = p r) :
    t'.count p = t.count p := by
  refine Nat.le_antisymm (count_le_count fun r' hr' hp => ?_) (count_le_count fun r hr hp => ?_)
  · obtain ⟨r, hr, hrel⟩ := h.prior (get_of_mem hr')
    exact ⟨r, get_mem hr, get_key hr, (hR r r' hrel).symm.trans hp⟩
  · obtain ⟨r', hr', hrel⟩ := h.next (get_of_mem hr)
    exact ⟨r', get_mem hr', get_key hr', (hR r r' hrel).trans hp⟩

/-- A row is left of those that satisfy `p`, and none has come. -/
theorem count_lt {p : ρ → Bool} (h : t.Evolves R t')
    (hR : ∀ r r', R r r' → p r' = true → p r = true) {r r' : ρ} (hr : t.get k = some r)
    (hp : p r = true) (hr' : t'.get k = some r') (hp' : p r' = false) :
    t'.count p < t.count p := by
  refine count_lt_count (get_mem hr) hp fun x' hx' hpx' => ?_
  obtain ⟨x, hx, hrel⟩ := h.prior (get_of_mem hx')
  refine ⟨fun hkey => ?_, x, get_mem hx, get_key hx, hR x x' hrel hpx'⟩
  rw [← get_key hr, ← hkey, get_of_mem hx'] at hr'
  cases hr'
  rw [hpx'] at hp'
  cases hp'

end Evolves

end Table

end Relational
