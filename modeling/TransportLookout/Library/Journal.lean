/-
Logs that a state can be rebuilt from.

A system appends events to a log as it runs.  `replay apply v log` is the view that
the events leave of a state viewed as `v` at first, `apply` saying what one event
does to a view.  A step `Extends` a journal when it only appends to the log, and
what it appends says what it did to the view.  The theorem this file exists for is
`path_replays`: where every step extends the journal, the log explains the view at
the end of a run, and a part of the log explains the view at every point of it.
-/
import TransportLookout.Library.Path

namespace Journal

open Trace

variable {ε ν : Type*}

def replay (apply : ν → ε → ν) (v : ν) (log : List ε) : ν := log.foldl apply v

/-- What is kept of a state: its log, and the view that the log is about. -/
structure Entry (ε ν : Type*) where
  log : List ε
  view : ν

variable {apply : ν → ε → ν}

theorem replay_append (v : ν) (log log' : List ε) :
    replay apply v (log ++ log') = replay apply (replay apply v log) log' :=
  List.foldl_append

/-- Events that say nothing about the view may stand anywhere. -/
theorem replay_silent {log : List ε} (h : ∀ e ∈ log, ∀ v, apply v e = v) (v : ν) :
    replay apply v log = v := by
  induction log with
  | nil => rfl
  | cons e log ih =>
    have hrest := ih fun e' he' => h e' (List.mem_cons_of_mem e he')
    show replay apply (apply v e) log = v
    rw [h e List.mem_cons_self v, hrest]

def Extends (apply : ν → ε → ν) (j j' : Entry ε ν) : Prop :=
  ∃ events, j'.log = j.log ++ events ∧ j'.view = replay apply j.view events

namespace Extends

variable {j j' j'' : Entry ε ν}

theorem refl (j : Entry ε ν) : Extends apply j j := ⟨[], (List.append_nil _).symm, rfl⟩

theorem trans (h : Extends apply j j') (h' : Extends apply j' j'') : Extends apply j j'' := by
  obtain ⟨events, hlog, hview⟩ := h
  obtain ⟨events', hlog', hview'⟩ := h'
  refine ⟨events ++ events', ?_, ?_⟩
  · rw [hlog', hlog, List.append_assoc]
  · rw [hview', hview, replay_append]

theorem single {e : ε} (hlog : j'.log = j.log ++ [e]) (hview : j'.view = apply j.view e) :
    Extends apply j j' :=
  ⟨[e], hlog, hview⟩

/-- A step that leaves the view alone appends only events that do. -/
theorem silent {events : List ε} (hlog : j'.log = j.log ++ events) (hview : j'.view = j.view)
    (h : ∀ e ∈ events, ∀ v, apply v e = v) : Extends apply j j' :=
  ⟨events, hlog, hview.trans (replay_silent h j.view).symm⟩

theorem prefix_log (h : Extends apply j j') : j.log <+: j'.log := by
  obtain ⟨events, hlog, -⟩ := h
  exact ⟨events, hlog.symm⟩

/-- What the log says, it says of the view: if it did before, it does after. -/
theorem replays {v : ν} (h : Extends apply j j') (hj : j.view = replay apply v j.log) :
    j'.view = replay apply v j'.log := by
  obtain ⟨events, hlog, hview⟩ := h
  rw [hview, hlog, replay_append, hj]

end Extends

section
variable {σ α : Type*} {step : σ → α → Option σ} {s t : σ} {tr : List (Transition σ α)}
variable {entry : σ → Entry ε ν}

theorem path_extends {I : σ → Prop} (h : Path step s tr t) (h0 : I s)
    (hstep : ∀ t a u, I t → step t a = some u → I u ∧ Extends apply (entry t) (entry u)) :
    I t ∧ Extends apply (entry s) (entry t) := by
  induction h with
  | nil => exact ⟨h0, .refl _⟩
  | @snoc t u tr a _ hs ih =>
    obtain ⟨ht, hext⟩ := ih
    obtain ⟨hu, hlast⟩ := hstep t a u ht hs
    exact ⟨hu, hext.trans hlast⟩

/-- The log explains the view at the end of a run, and what it held at any point of
the run explains the view at that point. -/
structure Replayed (apply : ν → ε → ν) (v : ν) (entry : σ → Entry ε ν)
    (tr : List (Transition σ α)) (t : σ) : Prop where
  now : (entry t).view = replay apply v (entry t).log
  past : ∀ x ∈ tr, (entry x.pre).log <+: (entry t).log ∧
    (entry x.pre).view = replay apply v ((entry t).log.take (entry x.pre).log.length)

theorem path_replays {I : σ → Prop} (h : Path step s tr t) (h0 : I s)
    (hstep : ∀ t a u, I t → step t a = some u → I u ∧ Extends apply (entry t) (entry u))
    (hempty : (entry s).log = []) : Replayed apply (entry s).view entry tr t := by
  have hreplay : ∀ {u : σ}, Extends apply (entry s) (entry u) →
      (entry u).view = replay apply (entry s).view (entry u).log := by
    intro u hu
    refine hu.replays ?_
    rw [hempty]
    rfl
  constructor
  · exact hreplay (path_extends h h0 hstep).2
  · intro x hx
    obtain ⟨l, r, rfl, hl, hs, hr⟩ := h.split_of_mem hx
    obtain ⟨hpre, hbefore⟩ := path_extends hl h0 hstep
    obtain ⟨hpost, hlast⟩ := hstep _ _ _ hpre hs
    have hafter : (entry x.pre).log <+: (entry t).log :=
      (hlast.trans (path_extends hr hpost hstep).2).prefix_log
    refine ⟨hafter, ?_⟩
    rw [hreplay hbefore, ← List.prefix_iff_eq_take.mp hafter]

end

end Journal
