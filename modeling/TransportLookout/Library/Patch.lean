/-
Patches of keyed maps.

A patch is a list of edits.  An edit changes the keys it touches, and a rewrite
names the value it replaces.  Edits that touch no key in common can be applied in
any order: `applyAll_eq` reads the outcome off the edits one by one.
-/
import Mathlib.Data.List.Basic

namespace Patch

variable {κ ν : Type*}

inductive Edit (κ ν : Type*)
  | remove (keys : κ → Bool)
  | insert (key : κ) (new : ν)
  | rewrite (key : κ) (old new : ν)

namespace Edit

variable [DecidableEq κ]

def touches : Edit κ ν → κ → Bool
  | remove keys, k => keys k
  | insert key _, k => k = key
  | rewrite key _ _, k => k = key

/-- What a key the edit touches has afterwards. -/
def value : Edit κ ν → Option ν
  | remove _ => none
  | insert _ new => some new
  | rewrite _ _ new => some new

/-- A key that is inserted is absent, and one that is rewritten has the old value. -/
def admits [DecidableEq ν] (m : κ → Option ν) : Edit κ ν → Bool
  | remove _ => true
  | insert key _ => (m key).isNone
  | rewrite key old _ => m key = some old

def write (m : κ → Option ν) (e : Edit κ ν) (k : κ) : Option ν :=
  if e.touches k then e.value else m k

def apply [DecidableEq ν] (m : κ → Option ν) (e : Edit κ ν) : Option (κ → Option ν) :=
  if e.admits m then some (e.write m) else none

theorem write_of_not_touches {m : κ → Option ν} {e : Edit κ ν} {k : κ}
    (h : e.touches k = false) : e.write m k = m k := by
  rw [write, h]
  rfl

/-- An edit only looks at keys it touches. -/
theorem admits_congr [DecidableEq ν] {m m' : κ → Option ν} {e : Edit κ ν}
    (h : ∀ k, e.touches k = true → m' k = m k) : e.admits m' = e.admits m := by
  cases e with
  | remove => rfl
  | insert key new => rw [admits, admits, h key (decide_eq_true rfl)]
  | rewrite key old new => rw [admits, admits, h key (decide_eq_true rfl)]

/-- No key is touched by both. -/
def Disjoint (e f : Edit κ ν) : Prop := ∀ k, ¬ (e.touches k = true ∧ f.touches k = true)

end Edit

variable [DecidableEq κ] [DecidableEq ν]

def applyAll (m : κ → Option ν) : List (Edit κ ν) → Option (κ → Option ν)
  | [] => some m
  | e :: es => (e.apply m).bind fun m => applyAll m es

/-- A patch of disjoint edits leads to the map that has the edits' values and is
otherwise as before. -/
theorem applyAll_eq {es : List (Edit κ ν)} {m m' : κ → Option ν}
    (hdisjoint : es.Pairwise Edit.Disjoint) (hadmits : ∀ e ∈ es, e.admits m = true)
    (hvalue : ∀ e ∈ es, ∀ k, e.touches k = true → e.value = m' k)
    (hrest : ∀ k, (∀ e ∈ es, e.touches k = false) → m k = m' k) : applyAll m es = some m' := by
  induction es generalizing m with
  | nil =>
    have hsame : m = m' := funext fun k => hrest k fun _ he => absurd he List.not_mem_nil
    rw [applyAll, hsame]
  | cons e es ih =>
    obtain ⟨hfirst, hothers⟩ := List.pairwise_cons.mp hdisjoint
    rw [applyAll, Edit.apply, if_pos (hadmits e List.mem_cons_self), Option.bind_some]
    refine ih hothers (fun f hf => ?_) (fun f hf => hvalue f (List.mem_cons_of_mem e hf)) ?_
    · rw [Edit.admits_congr fun k hk => Edit.write_of_not_touches ?_]
      · exact hadmits f (List.mem_cons_of_mem e hf)
      · exact Bool.eq_false_iff.mpr fun he => hfirst f hf k ⟨he, hk⟩
    · intro k hk
      rw [Edit.write]
      split
      · next he => exact hvalue e List.mem_cons_self k he
      · next he =>
        refine hrest k fun f hf => ?_
        rcases List.mem_cons.mp hf with rfl | hf
        · exact Bool.eq_false_iff.mpr he
        · exact hk f hf

end Patch
