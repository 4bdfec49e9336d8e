/-
Slots of a periodic schedule.

From an instant `start` on, time is divided into half-open slots of length
`interval`.  A job that is due at the start of its next slot, and is looked at from
time to time, runs at the first look in each slot.  `Tracks` is what its next
instant remembers of the looks so far, and is kept by a look that finds the job due
and by one that does not.

`Advances` is the loop that brings an instant past the clock by whole intervals:
there is a derivation exactly when the loop ends.
-/
import Mathlib.Data.List.Basic
import Mathlib.Tactic.Ring

namespace Slots

/-! ## Catching up -/

/-- `while next <= now: next += interval` leaves `out`. -/
inductive Advances (interval now : Int) : Int → Int → Prop
  | stop {next} (h : now < next) : Advances interval now next next
  | round {next out} (h : next ≤ now) (hrest : Advances interval now (next + interval) out) :
      Advances interval now next out

section
variable {interval now next out : Int}

theorem Advances.lt (h : Advances interval now next out) : now < out := by
  induction h with
  | stop h => exact h
  | round _ _ ih => exact ih

/-- The loop goes past the clock by an interval at most. -/
theorem Advances.le (h : Advances interval now next out) (hnext : next ≤ now + interval) :
    out ≤ now + interval := by
  induction h with
  | stop => exact hnext
  | round hle _ ih => exact ih (by omega)

theorem Advances.grid (h : Advances interval now next out) :
    ∃ n : Nat, out = next + n * interval := by
  induction h with
  | stop => exact ⟨0, by simp⟩
  | round _ _ ih =>
    obtain ⟨n, rfl⟩ := ih
    refine ⟨n + 1, ?_⟩
    push_cast
    ring

end

/-! ## Slots -/

section
variable (start interval : Int)

/-- The number of the slot an instant is in. -/
def slot (t : Int) : Int := (t - start) / interval

/-- A look at `now` is the first in its slot, of those that are not before `start`. -/
def Opens (earlier : List Int) (now : Int) : Prop :=
  start ≤ now ∧ ∀ e ∈ earlier, slot start interval e ≠ slot start interval now

instance (earlier : List Int) (now : Int) : Decidable (Opens start interval earlier now) :=
  inferInstanceAs (Decidable (_ ∧ _))

/-- How many looks are the first in their slot, after those of `earlier`. -/
def openings (earlier : List Int) : List Int → Nat
  | [] => 0
  | now :: later =>
    (if Opens start interval earlier now then 1 else 0) + openings (earlier ++ [now]) later

theorem openings_concat (earlier looks : List Int) (now : Int) :
    openings start interval earlier (looks ++ [now]) =
      openings start interval earlier looks +
        if Opens start interval (earlier ++ looks) now then 1 else 0 := by
  induction looks generalizing earlier with
  | nil => simp [openings]
  | cons x looks ih =>
    rw [List.cons_append, openings, ih, openings, List.append_assoc, List.singleton_append]
    omega

variable {start interval}

theorem slot_eq_iff (hpos : 0 < interval) {t j : Int} :
    slot start interval t = j ↔ start + j * interval ≤ t ∧ t < start + (j + 1) * interval := by
  rw [slot, Int.ediv_eq_iff_of_pos hpos, Int.add_mul, Int.one_mul]
  omega

/-! ## The next instant of a job -/

/-- What the next instant of a job remembers of the looks at it. -/
structure Tracks (start interval : Int) (looks : List Int) (next : Int) : Prop where
  grid : ∃ n : Nat, next = start + n * interval
  ahead : ∀ e ∈ looks, e < next
  /-- Nothing has been missed: the job has not run yet, or ran in the slot before. -/
  reached : next = start ∨ ∃ e ∈ looks, next - interval ≤ e

theorem tracks_start : Tracks start interval [] start where
  grid := ⟨0, by simp⟩
  ahead := fun _ he => absurd he List.not_mem_nil
  reached := Or.inl rfl

variable {looks : List Int} {now next : Int}

/-- A look finds the job due exactly when it is the first in its slot. -/
theorem Tracks.due_iff (h : Tracks start interval looks next) (hpos : 0 < interval)
    (hlater : ∀ e ∈ looks, e ≤ now) : next ≤ now ↔ Opens start interval looks now := by
  obtain ⟨n, hn⟩ := h.grid
  have hgrid : 0 ≤ (n : Int) * interval :=
    Int.mul_nonneg (Int.natCast_nonneg n) (Int.le_of_lt hpos)
  constructor
  · intro hdue
    refine ⟨by omega, fun e he heq => ?_⟩
    -- `e` is before the instant `next`, and a slot has no such instant inside
    obtain ⟨hle, hlt⟩ := (slot_eq_iff hpos).mp heq
    obtain ⟨hle', hlt'⟩ := (slot_eq_iff (j := slot start interval now) hpos).mp rfl
    have hlast : e < next := h.ahead e he
    have hj : slot start interval now < n := by
      by_contra hge
      have hmul := Int.mul_le_mul_of_nonneg_right (Int.not_lt.mp hge) (Int.le_of_lt hpos)
      omega
    have hmul := Int.mul_le_mul_of_nonneg_right (Int.add_one_le_of_lt hj) (Int.le_of_lt hpos)
    omega
  · intro hopens
    obtain ⟨hstart, hfirst⟩ := hopens
    by_contra hbefore
    rcases h.reached with rfl | ⟨e, he, hle⟩
    · omega
    · have hslot : ∀ t, next - interval ≤ t → t < next → slot start interval t = n - 1 := by
        intro t hle hlt
        refine (slot_eq_iff hpos).mpr ?_
        rw [Int.sub_mul, Int.sub_add_cancel]
        omega
      have hnow := hlater e he
      exact hfirst e he ((hslot e hle (h.ahead e he)).trans
        (hslot now (by omega) (by omega)).symm)

/-- A look that finds the job due leaves it due at the next slot. -/
theorem Tracks.served (h : Tracks start interval looks next) {out : Int}
    (hlater : ∀ e ∈ looks, e ≤ now) (hdue : next ≤ now)
    (hout : Advances interval now (next + interval) out) :
    Tracks start interval (looks ++ [now]) out := by
  have hlt := hout.lt
  have hle := hout.le (by omega)
  refine ⟨?_, ?_, Or.inr ⟨now, List.mem_append_right _ (List.mem_singleton_self _), by omega⟩⟩
  · obtain ⟨n, rfl⟩ := h.grid
    obtain ⟨m, rfl⟩ := hout.grid
    refine ⟨n + 1 + m, ?_⟩
    push_cast
    ring
  · intro e he
    rcases List.mem_append.mp he with he | he
    · have hnow := hlater e he
      omega
    · cases List.mem_singleton.mp he
      exact hlt

/-- A look that comes too early changes nothing. -/
theorem Tracks.waited (h : Tracks start interval looks next) (hearly : now < next) :
    Tracks start interval (looks ++ [now]) next := by
  refine ⟨h.grid, ?_, ?_⟩
  · intro e he
    rcases List.mem_append.mp he with he | he
    · exact h.ahead e he
    · cases List.mem_singleton.mp he
      exact hearly
  · rcases h.reached with hstart | ⟨e, he, hle⟩
    · exact Or.inl hstart
    · exact Or.inr ⟨e, List.mem_append_left _ he, hle⟩

end

end Slots
