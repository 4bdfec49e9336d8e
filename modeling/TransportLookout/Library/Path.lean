/-
Runs of a system given by a partial step function.

`Path step s tr t` says that the actions recorded in `tr` lead from `s` to `t`.
A trace keeps the state before and after every action, so a property of a run
can speak about any of its steps.  Interleavings are orders of actions: a fact
about every path is a fact about every interleaving.

A run may be restricted by a condition on each step, stated on the state before
the step and the action.  `Path.invariant` is induction over a restricted run,
`Path.posts_iff_along` the rule for a condition that is exact,
`Path.posts_iff_pairwise` the rule for a condition on pairs of steps, `Path.kept`
the rule for what is never undone once it holds, and `Path.count_le_one` the rule for
an event that disables itself.
-/
import Mathlib.Data.List.Basic

namespace Trace

structure Transition (σ α : Type*) where
  pre : σ
  act : α
  post : σ

variable {σ α : Type*}

/-- The steps of `tr`, taken one after the other from `s`, end in `t`. -/
inductive Path (step : σ → α → Option σ) (s : σ) : List (Transition σ α) → σ → Prop
  | nil : Path step s [] s
  | snoc {t u tr a} : Path step s tr t → step t a = some u → Path step s (tr ++ [⟨t, a, u⟩]) u

def runAll (step : σ → α → Option σ) (s : σ) : List α → Option σ
  | [] => some s
  | a :: as => (step s a).bind fun t => runAll step t as

/-- `runAll` where every step must meet a condition on the state before it and
the action. -/
def runWhile (step : σ → α → Option σ) (C : σ → α → Bool) (s : σ) : List α → Option σ
  | [] => some s
  | a :: as => if C s a then (step s a).bind fun t => runWhile step C t as else none

/-- Every step of the trace meets the condition. -/
def Along (C : σ → α → Bool) (tr : List (Transition σ α)) : Prop :=
  ∀ x ∈ tr, C x.pre x.act = true

theorem runAll_append {step : σ → α → Option σ} {s t : σ} {as : List α}
    (h : runAll step s as = some t) (bs : List α) :
    runAll step s (as ++ bs) = runAll step t bs := by
  induction as generalizing s with
  | nil =>
    cases h
    rfl
  | cons a as ih =>
    rw [runAll] at h
    obtain ⟨u, hu, hrest⟩ := Option.bind_eq_some_iff.mp h
    rw [List.cons_append, runAll, hu, Option.bind_some]
    exact ih hrest

namespace Path

variable {step : σ → α → Option σ} {s t u : σ} {tr tr' : List (Transition σ α)}

theorem single {a : α} (h : step s a = some t) : Path step s [⟨s, a, t⟩] t :=
  show Path step s ([] ++ [⟨s, a, t⟩]) t from snoc nil h

theorem trans (h : Path step s tr t) (h' : Path step t tr' u) : Path step s (tr ++ tr') u := by
  induction h' with
  | nil => simpa using h
  | snoc _ hs ih => simpa only [← List.append_assoc] using snoc ih hs

theorem split {l r : List (Transition σ α)} {x : Transition σ α}
    (h : Path step s (l ++ x :: r) t) :
    Path step s l x.pre ∧ step x.pre x.act = some x.post ∧ Path step x.post r t := by
  generalize htr : l ++ x :: r = tr at h
  induction h generalizing r with
  | nil => simp at htr
  | @snoc t u tr a hp hs ih =>
    rcases List.eq_nil_or_concat r with rfl | ⟨r', y, rfl⟩
    · obtain ⟨rfl, hx⟩ := List.append_inj' htr rfl
      cases List.cons.inj hx |>.1
      exact ⟨hp, hs, nil⟩
    · have hcut : (l ++ x :: r') ++ [y] = tr ++ [⟨t, a, u⟩] := by
        simpa [List.concat_eq_append, List.append_assoc] using htr
      obtain ⟨hl, hy⟩ := List.append_inj' hcut rfl
      cases List.cons.inj hy |>.1
      obtain ⟨h₁, h₂, h₃⟩ := ih hl
      refine ⟨h₁, h₂, ?_⟩
      rw [List.concat_eq_append]
      exact snoc h₃ hs

theorem split_of_mem {x : Transition σ α} (h : Path step s tr t) (hx : x ∈ tr) :
    ∃ l r, tr = l ++ x :: r ∧ Path step s l x.pre ∧ step x.pre x.act = some x.post ∧
      Path step x.post r t := by
  obtain ⟨l, r, rfl⟩ := List.append_of_mem hx
  exact ⟨l, r, rfl, h.split⟩

theorem step_of_mem {x : Transition σ α} (h : Path step s tr t) (hx : x ∈ tr) :
    step x.pre x.act = some x.post := by
  obtain ⟨_, _, _, _, hs, _⟩ := h.split_of_mem hx
  exact hs

/-- What holds at the start and is kept by every step that meets the condition
holds at the end of every run whose steps meet it. -/
theorem invariant {I : σ → Prop} {C : σ → α → Bool} (h : Path step s tr t) (h0 : I s)
    (hstep : ∀ t a u, I t → C t a = true → step t a = some u → I u) (hC : Along C tr) : I t := by
  induction h with
  | nil => exact h0
  | @snoc t u tr a _ hs ih =>
    refine hstep t a u (ih fun x hx => hC x (List.mem_append_left _ hx)) ?_ hs
    exact hC ⟨t, a, u⟩ (List.mem_append_right _ (List.mem_singleton_self _))

/-- The same, at both ends of every step of the run. -/
theorem invariant_at {I : σ → Prop} {C : σ → α → Bool} (h : Path step s tr t) (h0 : I s)
    (hstep : ∀ t a u, I t → C t a = true → step t a = some u → I u) (hC : Along C tr)
    {x : Transition σ α} (hx : x ∈ tr) : I x.pre ∧ I x.post := by
  obtain ⟨l, r, rfl, hl, hs, -⟩ := h.split_of_mem hx
  have hpre : I x.pre := hl.invariant h0 hstep fun y hy => hC y (List.mem_append_left _ hy)
  exact ⟨hpre, hstep _ _ _ hpre (hC x hx) hs⟩

/-- A run ends where it started or after one of its steps. -/
theorem end_of_posts {I : σ → Prop} (h : Path step s tr t) (h0 : I s)
    (hposts : ∀ x ∈ tr, I x.post) : I t := by
  cases h with
  | nil => exact h0
  | snoc _ _ => exact hposts _ (List.mem_append_right _ (List.mem_singleton_self _))

/-- A property that each step keeps exactly when it meets a condition, as long as
`J` holds.  A step that meets the condition keeps `J`. -/
theorem posts_iff_along_of {I J : σ → Prop} {C : σ → α → Bool} (h : Path step s tr t) (h0 : J s)
    (hstep : ∀ x ∈ tr, J x.pre → (I x.post ↔ C x.pre x.act = true))
    (hkeep : ∀ x ∈ tr, J x.pre → C x.pre x.act = true → J x.post) :
    (∀ x ∈ tr, I x.post) ↔ Along C tr := by
  have key : ((∀ x ∈ tr, I x.post) ↔ Along C tr) ∧ (Along C tr → J t) := by
    induction h with
    | nil =>
      have hnone : ∀ {P : Transition σ α → Prop}, ∀ x ∈ ([] : List (Transition σ α)), P x :=
        fun x hx => absurd hx List.not_mem_nil
      exact ⟨iff_of_true hnone hnone, fun _ => h0⟩
    | @snoc t u tr a _ _ ih =>
      obtain ⟨hold, hJ⟩ := ih (fun x hx => hstep x (List.mem_append_left _ hx))
        fun x hx => hkeep x (List.mem_append_left _ hx)
      have hmem : (⟨t, a, u⟩ : Transition σ α) ∈ tr ++ [⟨t, a, u⟩] :=
        List.mem_append_right _ (List.mem_singleton_self _)
      rw [Along, List.forall_mem_append, List.forall_mem_append]
      simp only [List.forall_mem_singleton]
      refine ⟨⟨?_, ?_⟩, fun ⟨halong, hC⟩ => hkeep _ hmem (hJ halong) hC⟩
      · rintro ⟨hposts, hpost⟩
        have halong := hold.mp hposts
        exact ⟨halong, (hstep _ hmem (hJ halong)).mp hpost⟩
      · rintro ⟨halong, hC⟩
        exact ⟨hold.mpr halong, (hstep _ hmem (hJ halong)).mpr hC⟩
  exact key.1

/-- Where each step keeps a property exactly when it meets a condition, a run
keeps the property throughout exactly when all its steps meet the condition. -/
theorem posts_iff_along {I : σ → Prop} {C : σ → α → Bool} (h : Path step s tr t) (h0 : I s)
    (hstep : ∀ x ∈ tr, I x.pre → (I x.post ↔ C x.pre x.act = true)) :
    (∀ x ∈ tr, I x.post) ↔ Along C tr :=
  h.posts_iff_along_of h0 hstep fun x hx hI hC => (hstep x hx hI).mpr hC

/-- A property that a step breaks by what an earlier step has done. -/
theorem posts_iff_pairwise {I : σ → Prop} {R : Transition σ α → Transition σ α → Prop}
    (h : Path step s tr t) (h0 : I s)
    (hstep : ∀ l x, Path step s l x.pre → step x.pre x.act = some x.post → I x.pre →
      (I x.post ↔ ∀ y ∈ l, R y x)) : (∀ x ∈ tr, I x.post) ↔ tr.Pairwise R := by
  induction h with
  | nil => exact iff_of_true (fun x hx => absurd hx List.not_mem_nil) List.Pairwise.nil
  | @snoc t u tr a hp hs ih =>
    rw [List.forall_mem_append, List.pairwise_append]
    simp only [List.forall_mem_singleton, List.pairwise_singleton, true_and]
    constructor
    · rintro ⟨hposts, hpost⟩
      have hlast := (hstep tr ⟨t, a, u⟩ hp hs (hp.end_of_posts h0 hposts)).mp hpost
      exact ⟨ih.mp hposts, hlast⟩
    · rintro ⟨hpairs, hlast⟩
      have hposts := ih.mpr hpairs
      exact ⟨hposts, (hstep tr ⟨t, a, u⟩ hp hs (hp.end_of_posts h0 hposts)).mpr hlast⟩

/-- What no step undoes holds from any step of the run on to its end. -/
theorem kept {Q : σ → Prop} (h : Path step s tr t)
    (hkeep : ∀ x ∈ tr, Q x.pre → Q x.post) (hs : Q s) : Q t := by
  induction h with
  | nil => exact hs
  | @snoc t u tr a _ _ ih =>
    have hin : ∀ x ∈ tr, Q x.pre → Q x.post := fun x hx => hkeep x (List.mem_append_left _ hx)
    exact hkeep ⟨t, a, u⟩ (List.mem_append_right _ (List.mem_singleton_self _)) (ih hin)

/-- An event that needs `Q` false and leaves it true, where no step undoes `Q`,
happens at most once in a run. -/
theorem count_le_one {Q : σ → Prop} {E : Transition σ α → Bool} (h : Path step s tr t)
    (hkeep : ∀ x ∈ tr, Q x.pre → Q x.post)
    (hpre : ∀ x ∈ tr, E x = true → ¬ Q x.pre) (hpost : ∀ x ∈ tr, E x = true → Q x.post) :
    tr.countP E ≤ 1 := by
  have key : tr.countP E ≤ 1 ∧ (0 < tr.countP E → Q t) := by
    induction h with
    | nil => exact ⟨Nat.zero_le 1, fun h => absurd h (Nat.lt_irrefl 0)⟩
    | @snoc t u tr a hp hs ih =>
      have hlast : (⟨t, a, u⟩ : Transition σ α) ∈ tr ++ [⟨t, a, u⟩] :=
        List.mem_append_right _ (List.mem_singleton_self _)
      obtain ⟨hle, hQ⟩ := ih (fun x hx => hkeep x (List.mem_append_left _ hx))
        (fun x hx => hpre x (List.mem_append_left _ hx))
        (fun x hx => hpost x (List.mem_append_left _ hx))
      rw [List.countP_append, List.countP_singleton]
      by_cases hE : E ⟨t, a, u⟩ = true
      · have hzero : tr.countP E = 0 := by
          by_contra hne
          exact hpre _ hlast hE (hQ (Nat.pos_of_ne_zero hne))
        rw [hzero, if_pos hE]
        exact ⟨Nat.le_refl 1, fun _ => hpost _ hlast hE⟩
      · rw [if_neg hE, Nat.add_zero]
        exact ⟨hle, fun hpos => hkeep _ hlast (hQ hpos)⟩
  exact key.1

/-- A system that takes the step `next` names, with a rank that goes down until the
end, gets there. -/
theorem ends_of_rank {I : σ → Prop} {ended : σ → Bool} {next : σ → α} {rank : σ → Nat}
    (hstep : ∀ s, I s → ended s = false → ∃ t, step s (next s) = some t ∧
      (ended t = false → I t ∧ rank t < rank s)) (hI : I s) :
    ∃ tr t, Path step s tr t ∧ (∀ x ∈ tr, x.act = next x.pre) ∧ ended t = true ∧
      tr.length ≤ rank s + 1 := by
  have key : ∀ n s, I s → rank s = n → ∃ tr t, Path step s tr t ∧
      (∀ x ∈ tr, x.act = next x.pre) ∧ ended t = true ∧ tr.length ≤ n + 1 := by
    intro n
    induction n using Nat.strongRecOn with
    | ind n ih =>
      intro s hI hn
      cases hover : ended s with
      | true => exact ⟨[], s, nil, fun x hx => absurd hx List.not_mem_nil, hover, Nat.zero_le _⟩
      | false =>
        obtain ⟨t, ht, hnext⟩ := hstep s hI hover
        have hone : ∀ x ∈ ([⟨s, next s, t⟩] : List (Transition σ α)), x.act = next x.pre := by
          intro x hx
          cases List.mem_singleton.mp hx
          rfl
        cases hover' : ended t with
        | true => exact ⟨_, t, single ht, hone, hover', Nat.le_add_left 1 n⟩
        | false =>
          obtain ⟨hI', hlt⟩ := hnext hover'
          rw [hn] at hlt
          obtain ⟨tr, u, hp, hact, hend, hlen⟩ := ih (rank t) hlt t hI' rfl
          refine ⟨_, u, (single ht).trans hp, ?_, hend, ?_⟩
          · intro x hx
            rcases List.mem_append.mp hx with hx | hx
            · exact hone x hx
            · exact hact x hx
          · rw [List.length_append, List.length_singleton]
            omega
  exact key (rank s) s hI rfl

/-- Running a list of actions is a path, and its trace records those actions. -/
theorem of_runAll {as : List α} (h : runAll step s as = some t) :
    ∃ tr, Path step s tr t ∧ tr.map Transition.act = as := by
  induction as generalizing s with
  | nil =>
    cases h
    exact ⟨[], nil, rfl⟩
  | cons a as ih =>
    rw [runAll] at h
    obtain ⟨u, hu, hrest⟩ := Option.bind_eq_some_iff.mp h
    obtain ⟨tr, hp, hact⟩ := ih hrest
    exact ⟨⟨s, a, u⟩ :: tr, (single hu).trans hp, by rw [List.map_cons, hact]⟩

theorem of_runWhile {C : σ → α → Bool} {as : List α} (h : runWhile step C s as = some t) :
    ∃ tr, Path step s tr t ∧ Along C tr ∧ tr.map Transition.act = as := by
  induction as generalizing s with
  | nil =>
    cases h
    exact ⟨[], nil, fun x hx => absurd hx List.not_mem_nil, rfl⟩
  | cons a as ih =>
    rw [runWhile] at h
    by_cases hC : C s a = true
    · rw [if_pos hC] at h
      obtain ⟨u, hu, hrest⟩ := Option.bind_eq_some_iff.mp h
      obtain ⟨tr, hp, halong, hact⟩ := ih hrest
      refine ⟨⟨s, a, u⟩ :: tr, (single hu).trans hp, ?_, by rw [List.map_cons, hact]⟩
      intro x hx
      rcases List.mem_cons.mp hx with rfl | hx
      · exact hC
      · exact halong x hx
    · rw [if_neg hC] at h
      cases h

theorem of_runAll_map {β : Type*} {f : σ → β} {b : β} {as : List α}
    (h : (runAll step s as).map f = some b) : ∃ tr t, Path step s tr t ∧ f t = b := by
  obtain ⟨t, ht, hf⟩ := Option.map_eq_some_iff.mp h
  obtain ⟨tr, hp, -⟩ := of_runAll ht
  exact ⟨tr, t, hp, hf⟩

theorem of_runWhile_map {β : Type*} {C : σ → α → Bool} {f : σ → β} {b : β} {as : List α}
    (h : (runWhile step C s as).map f = some b) :
    ∃ tr t, Path step s tr t ∧ Along C tr ∧ f t = b := by
  obtain ⟨t, ht, hf⟩ := Option.map_eq_some_iff.mp h
  obtain ⟨tr, hp, halong, -⟩ := of_runWhile ht
  exact ⟨tr, t, hp, halong, hf⟩

/-- A run that ends with the step `a`, observed before and after it. -/
theorem of_runAll_step {β : Type*} {f : σ → σ → β} {b : β} {as : List α} {a : α}
    (h : ((runAll step s as).bind fun t => (step t a).map (f t)) = some b) :
    ∃ tr t u, Path step s (tr ++ [⟨t, a, u⟩]) u ∧ f t u = b := by
  obtain ⟨t, ht, h⟩ := Option.bind_eq_some_iff.mp h
  obtain ⟨u, hu, hf⟩ := Option.map_eq_some_iff.mp h
  obtain ⟨tr, hp, -⟩ := of_runAll ht
  exact ⟨tr, t, u, snoc hp hu, hf⟩

theorem of_runWhile_step {β : Type*} {C : σ → α → Bool} {f : σ → σ → β} {b : β} {as : List α}
    {a : α} (h : ((runWhile step C s as).bind fun t => (step t a).map (f t)) = some b) :
    ∃ tr t u, Path step s (tr ++ [⟨t, a, u⟩]) u ∧ Along C tr ∧ f t u = b := by
  obtain ⟨t, ht, h⟩ := Option.bind_eq_some_iff.mp h
  obtain ⟨u, hu, hf⟩ := Option.map_eq_some_iff.mp h
  obtain ⟨tr, hp, halong, -⟩ := of_runWhile ht
  exact ⟨tr, t, u, snoc hp hu, halong, hf⟩

end Path

end Trace
