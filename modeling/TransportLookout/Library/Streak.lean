/-
Streaks.

A sequence of rounds, each of which does or does not see a key.  The streak of a
key is the longest run of rounds at the end of the sequence that all see it:
since when it has been seen, and in how many rounds.  `streak_concat` is the
bookkeeping that keeps it up to date from one round to the next with nothing
remembered but the streak itself.
-/
import Mathlib.Data.List.DropRight

namespace Streak

variable {ρ τ : Type*}

def streak (seen : ρ → Bool) (time : ρ → τ) (rounds : List ρ) : Option (τ × Nat) :=
  (rounds.rtakeWhile seen).head?.map fun first =>
    (time first, (rounds.rtakeWhile seen).length)

/-- A streak that goes on, or begins now. -/
def extend (old : Option (τ × Nat)) (now : τ) : τ × Nat :=
  ((old.getD (now, 0)).1, (old.getD (now, 0)).2 + 1)

variable (seen : ρ → Bool) (time : ρ → τ)

@[simp] theorem streak_nil : streak seen time [] = none := by
  rw [streak, List.rtakeWhile_nil]
  rfl

theorem streak_concat (rounds : List ρ) (r : ρ) :
    streak seen time (rounds ++ [r]) =
      if seen r then some (extend (streak seen time rounds) (time r)) else none := by
  by_cases h : seen r = true
  · rw [if_pos h, streak, streak, List.rtakeWhile_concat_pos _ _ _ h]
    cases rounds.rtakeWhile seen with
    | nil => rfl
    | cons first rest =>
      simp [extend]
  · rw [if_neg h, streak, List.rtakeWhile_concat_neg _ _ _ h]
    rfl

theorem streak_isSome {rounds : List ρ} {r : ρ} (h : rounds.getLast? = some r) :
    (streak seen time rounds).isSome = seen r := by
  obtain ⟨earlier, rfl⟩ := List.getLast?_eq_some_iff.mp h
  rw [streak_concat]
  cases hr : seen r with
  | true => rfl
  | false => rfl

end Streak
