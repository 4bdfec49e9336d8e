/-
What a system can still do.

`Reaches step C s t` says that steps of the kinds `C` allows lead from `s` to `t`.  A fact
about every path says what cannot happen; one about `Reaches` says that something is still
possible, for a scheduler that picks the steps.  `Reaches.of_rounds` is the rule for work that
is done in rounds: a round that leaves less to do can be repeated until nothing is left.
Rounds that take place at one instant each go by a clock (`Reaches.byClock`), and a clock
goes on from round to round.
-/
import Mathlib.Order.Basic
import TransportLookout.Library.Path

namespace Trace

variable {σ α : Type*}

/-- The system beside a clock, which the time of a step never sets back. -/
def byClock {τ : Type*} [LE τ] [DecidableLE τ] (time : α → Option τ) (step : σ → α → Option σ)
    (x : τ × σ) (a : α) : Option (τ × σ) :=
  if ∀ t ∈ time a, x.1 ≤ t then (step x.2 a).map fun s => ((time a).getD x.1, s) else none

def Reaches (step : σ → α → Option σ) (C : α → Bool) (s t : σ) : Prop :=
  ∃ tr, Path step s tr t ∧ ∀ x ∈ tr, C x.act = true

namespace Reaches

variable {step : σ → α → Option σ} {C : α → Bool} {s t u : σ}

theorem refl (s : σ) : Reaches step C s s :=
  ⟨[], .nil, fun _ hx => absurd hx List.not_mem_nil⟩

theorem trans (h : Reaches step C s t) (h' : Reaches step C t u) : Reaches step C s u := by
  obtain ⟨tr, hp, hC⟩ := h
  obtain ⟨tr', hp', hC'⟩ := h'
  refine ⟨tr ++ tr', hp.trans hp', fun x hx => ?_⟩
  exact (List.mem_append.mp hx).elim (hC x) (hC' x)

theorem of_step {a : α} (h : step s a = some t) (hC : C a = true) : Reaches step C s t := by
  refine ⟨_, .single h, fun x hx => ?_⟩
  cases List.mem_singleton.mp hx
  exact hC

theorem of_runAll {as : List α} (h : runAll step s as = some t) (hC : ∀ a ∈ as, C a = true) :
    Reaches step C s t := by
  obtain ⟨tr, hp, hact⟩ := Path.of_runAll h
  refine ⟨tr, hp, fun x hx => hC x.act ?_⟩
  rw [← hact]
  exact List.mem_map.mpr ⟨x, hx, rfl⟩

/-- What a system can do is possible in every system that has it as a part. -/
theorem map {σ' α' : Type*} {step' : σ' → α' → Option σ'} {C' : α' → Bool} {f : σ → σ'}
    {g : α → α'}
    (hstep : ∀ s a t, C a = true → step s a = some t → step' (f s) (g a) = some (f t))
    (hC : ∀ a, C a = true → C' (g a) = true) (h : Reaches step C s t) :
    Reaches step' C' (f s) (f t) := by
  obtain ⟨tr, hp, hall⟩ := h
  induction hp with
  | nil => exact refl _
  | @snoc t u tr a _ hs ih =>
    have hlast : C a = true :=
      hall ⟨t, a, u⟩ (List.mem_append_right _ (List.mem_singleton_self _))
    have hfirst := ih fun x hx => hall x (List.mem_append_left _ hx)
    exact hfirst.trans (of_step (hstep t a u hlast hs) (hC a hlast))

/-- What can be done at one instant can be done by any clock that has not passed it. -/
theorem byClock {τ : Type*} [Preorder τ] [DecidableLE τ] {time : α → Option τ} {C' : α → Bool}
    {clock now : τ} (hle : clock ≤ now)
    (hC : ∀ a, C a = true → C' a = true ∧ ∀ t ∈ time a, t = now) (h : Reaches step C s t) :
    ∃ clock', Reaches (byClock time step) C' (clock, s) (clock', t) := by
  obtain ⟨tr, hp, hall⟩ := h
  suffices hreaches : ∃ clock' ≤ now, Reaches (Trace.byClock time step) C' (clock, s) (clock', t) by
    obtain ⟨clock', -, hreaches⟩ := hreaches
    exact ⟨clock', hreaches⟩
  induction hp with
  | nil => exact ⟨clock, hle, refl _⟩
  | @snoc t u tr a _ hs ih =>
    obtain ⟨clock', hle', hfirst⟩ := ih fun x hx => hall x (List.mem_append_left _ hx)
    obtain ⟨hkind, htime⟩ :=
      hC a (hall ⟨t, a, u⟩ (List.mem_append_right _ (List.mem_singleton_self _)))
    have hstep : Trace.byClock time step (clock', t) a = some ((time a).getD clock', u) := by
      rw [Trace.byClock, if_pos fun now' hnow => by rw [htime now' hnow]; exact hle', hs]
      rfl
    refine ⟨(time a).getD clock', ?_, hfirst.trans (of_step hstep hkind)⟩
    cases hnow : time a with
    | none => exact hle'
    | some now' => exact (htime now' hnow).le

/-- The rule of rounds. -/
theorem of_rounds {I done : σ → Prop} (rank : σ → Nat)
    (hround : ∀ s, I s → ¬ done s → ∃ t, Reaches step C s t ∧ I t ∧ rank t < rank s)
    (hI : I s) : ∃ t, Reaches step C s t ∧ I t ∧ done t := by
  generalize hn : rank s = n
  induction n using Nat.strongRecOn generalizing s with
  | ind n ih =>
    by_cases hdone : done s
    · exact ⟨s, refl s, hI, hdone⟩
    · obtain ⟨t, ht, hI', hlt⟩ := hround s hI hdone
      obtain ⟨u, hu, hI'', hend⟩ := ih (rank t) (hn ▸ hlt) hI' rfl
      exact ⟨u, ht.trans hu, hI'', hend⟩

end Reaches

end Trace
