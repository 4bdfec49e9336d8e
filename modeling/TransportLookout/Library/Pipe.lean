/-
A process that writes to bounded pipes.

The process has its instructions still before it, one for each unit of its time:
it computes, or writes a byte.  A write to a full pipe blocks the process until
someone drains the pipe, and time goes by meanwhile.

`Fits` is the bookkeeping of what is in the pipes and what is still to come.  It
is kept by every tick and by every drain, and a process that fits never blocks,
so it takes the time of its instructions.  A process that does not fit, on pipes
no one drains, blocks.
-/
import Mathlib.Data.List.Basic
import Mathlib.Logic.Function.Basic
import Mathlib.Logic.Function.Iterate

namespace Pipes

structure Writer (ι : Type*) where
  todo : List (Option ι)
  held : ι → Nat := fun _ => 0

namespace Writer

section
variable {ι : Type*} (cap : ι → Nat) (w : Writer ι)

/-- The next instruction writes to a pipe that is full. -/
def blocked : Bool :=
  match w.todo with
  | some f :: _ => cap f ≤ w.held f
  | _ => false

/-- Someone reads what there is. -/
def drain : Writer ι := { w with held := fun _ => 0 }

variable {cap w} in
theorem blocked_iff :
    w.blocked cap = true ↔ ∃ f todo, w.todo = some f :: todo ∧ cap f ≤ w.held f := by
  rw [blocked]
  split
  · next f todo htodo =>
    rw [decide_eq_true_eq, htodo]
    constructor
    · exact fun hfull => ⟨f, todo, rfl, hfull⟩
    · rintro ⟨f', todo', heq, hfull⟩
      cases heq
      exact hfull
  · next hnone =>
    constructor
    · nofun
    · rintro ⟨f, todo, htodo, -⟩
      exact absurd htodo (hnone f todo)

end

variable {ι : Type*} [DecidableEq ι] (cap : ι → Nat) (w : Writer ι)

/-- A unit of time goes by. -/
def tick : Writer ι :=
  if w.blocked cap then w
  else
    match w.todo with
    | [] => w
    | none :: todo => { w with todo := todo }
    | some f :: todo => { todo := todo, held := Function.update w.held f (w.held f + 1) }

/-- What is in the pipe and what is to be written to it. -/
def volume (f : ι) : Nat := w.held f + w.todo.count (some f)

/-- There is room for all that is to come. -/
def Fits : Prop := ∀ f, w.volume f ≤ cap f

variable {cap w}

theorem Fits.unblocked (h : w.Fits cap) : w.blocked cap = false := by
  rw [Bool.eq_false_iff]
  intro hblocked
  obtain ⟨f, todo, htodo, hfull⟩ := blocked_iff.mp hblocked
  have hroom := h f
  rw [volume, htodo, List.count_cons_self] at hroom
  omega

theorem tick_nil (h : w.todo = []) : w.tick cap = w := by
  rw [tick, h]
  exact ite_self w

/-- A write moves its byte from what is to come to what is in the pipe. -/
theorem volume_tick (f : ι) : (w.tick cap).volume f = w.volume f := by
  rw [tick]
  split
  · rfl
  · split
    · rfl
    · next todo htodo =>
      have hne : (none : Option ι) ≠ some f := Option.some_ne_none f |>.symm
      simp only [volume, htodo, List.count_cons_of_ne hne]
    · next f' todo htodo =>
      by_cases hf : f = f'
      · subst hf
        simp only [volume, htodo, Function.update_self, List.count_cons_self]
        omega
      · have hne : some f' ≠ some f := fun heq => hf (Option.some.inj heq).symm
        simp only [volume, htodo, Function.update_of_ne hf, List.count_cons_of_ne hne]

theorem Fits.tick (h : w.Fits cap) : (w.tick cap).Fits cap := by
  intro f
  rw [volume_tick]
  exact h f

theorem Fits.drain (h : w.Fits cap) : w.drain.Fits cap := by
  intro f
  have hroom := h f
  simp only [volume, Writer.drain] at hroom ⊢
  omega

theorem length_tick (h : w.blocked cap = false) :
    (w.tick cap).todo.length = w.todo.length - 1 := by
  rw [Writer.tick, if_neg (by simp [h])]
  split
  · next htodo => rw [htodo, List.length_nil]
  · next htodo => rw [htodo, List.length_cons, Nat.add_sub_cancel]
  · next htodo => rw [htodo, List.length_cons, Nat.add_sub_cancel]

/-- An instruction takes its time at least. -/
theorem length_le_tick : w.todo.length ≤ (w.tick cap).todo.length + 1 := by
  rw [tick]
  split
  · exact Nat.le_succ _
  · split
    · exact Nat.le_succ _
    · next htodo => exact Nat.le_of_eq (congrArg List.length htodo)
    · next htodo => exact Nat.le_of_eq (congrArg List.length htodo)

theorem length_le_iterate (n : Nat) :
    w.todo.length ≤ ((tick cap)^[n] w).todo.length + n := by
  induction n with
  | zero => exact Nat.le_refl _
  | succ n ih =>
    rw [Function.iterate_succ_apply']
    have hle : ((tick cap)^[n] w).todo.length ≤ (tick cap ((tick cap)^[n] w)).todo.length + 1 :=
      length_le_tick
    omega

/-- On pipes no one drains, a process that does not fit blocks. -/
theorem exists_blocked (hroom : ∀ f, w.held f ≤ cap f) (h : ¬w.Fits cap) :
    ∃ n, ((tick cap)^[n] w).blocked cap = true := by
  obtain ⟨todo, held⟩ := w
  induction todo generalizing held with
  | nil =>
    -- nothing is to come, and what is held there was room for
    refine absurd (fun f => ?_) h
    rw [volume, List.count_nil]
    exact hroom f
  | cons instr todo ih =>
    by_cases hblocked : (Writer.mk (instr :: todo) held).blocked cap = true
    · exact ⟨0, hblocked⟩
    · have hnext : ∃ held', (Writer.mk (instr :: todo) held).tick cap = ⟨todo, held'⟩ ∧
          ∀ f, held' f ≤ cap f := by
        rw [tick, if_neg hblocked]
        cases instr with
        | none => exact ⟨held, rfl, hroom⟩
        | some f =>
          refine ⟨_, rfl, fun f' => ?_⟩
          have hfree : held f < cap f := by
            rw [blocked, decide_eq_true_eq, Nat.not_le] at hblocked
            exact hblocked
          by_cases hf : f' = f
          · subst hf
            rw [Function.update_self]
            exact hfree
          · rw [Function.update_of_ne hf]
            exact hroom f'
      obtain ⟨held', htick, hroom'⟩ := hnext
      have hnot : ¬(Writer.mk todo held').Fits cap := by
        intro hfits
        refine h fun f => ?_
        rw [← volume_tick f, htick]
        exact hfits f
      obtain ⟨n, hn⟩ := ih held' hroom' hnot
      refine ⟨n + 1, ?_⟩
      rw [Function.iterate_succ_apply, htick]
      exact hn

end Writer

end Pipes
