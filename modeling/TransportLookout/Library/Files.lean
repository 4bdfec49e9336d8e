/-
A disk of paths and inodes.

A path names an inode.  A process that has an inode open writes to it whatever
becomes of the path: opening an existing path truncates the inode it names,
removing a path leaves its inode to those who hold it.  Every chunk of an inode
carries its writer, and an inode the writer that created it.

`Sound` says that no inode has a foreign chunk and that every path names an inode
whose creator it may name.  Each operation has one lemma that says what keeps it.
A `Detached` inode has no path left, so only those who have it open write to it.
-/
import Mathlib.Data.List.Basic

namespace Files

structure Inode (ω δ : Type*) where
  creator : ω
  chunks : List (ω × δ) := []
deriving Repr

structure Disk (π ω δ : Type*) where
  names : List (π × Nat) := []
  inodes : List (Inode ω δ) := []
deriving Repr

namespace Disk

variable {π ω δ : Type*}

def content (d : Disk π ω δ) (n : Nat) : List (ω × δ) :=
  ((d.inodes[n]?).map Inode.chunks).getD []

def creator (d : Disk π ω δ) (n : Nat) : Option ω := (d.inodes[n]?).map Inode.creator

/-- The paths that name inode `n`. -/
def paths (d : Disk π ω δ) (n : Nat) : List π :=
  (d.names.filter fun entry => entry.2 = n).map Prod.fst

def rewrite (d : Disk π ω δ) (n : Nat) (f : List (ω × δ) → List (ω × δ)) : Disk π ω δ :=
  { d with inodes := d.inodes.modify n fun i => { i with chunks := f i.chunks } }

def write (d : Disk π ω δ) (n : Nat) (w : ω) (data : δ) : Disk π ω δ :=
  d.rewrite n fun chunks => chunks ++ [(w, data)]

section
variable [DecidableEq π]

def read (d : Disk π ω δ) (p : π) : Option (List (ω × δ)) := (d.names.lookup p).map d.content

/-- Open a path for writing: the inode it names is truncated, or a new one made. -/
def create (d : Disk π ω δ) (p : π) (w : ω) : Disk π ω δ × Nat :=
  match d.names.lookup p with
  | some n => (d.rewrite n fun _ => [], n)
  | none =>
    ({ names := (p, d.inodes.length) :: d.names, inodes := d.inodes ++ [{ creator := w }] },
      d.inodes.length)

def remove (d : Disk π ω δ) (p : π) : Disk π ω δ :=
  { d with names := d.names.filter fun entry => entry.1 ≠ p }

end

variable {d : Disk π ω δ} {p : π} {n : Nat} {w : ω} {data : δ}

theorem mem_paths : p ∈ d.paths n ↔ (p, n) ∈ d.names := by
  simp [paths]

@[simp] theorem creator_rewrite (f : List (ω × δ) → List (ω × δ)) (m : Nat) :
    (d.rewrite n f).creator m = d.creator m := by
  rw [creator, rewrite, List.getElem?_modify, creator]
  cases d.inodes[m]? with
  | none => rfl
  | some i => by_cases h : n = m <;> simp [h]

/-- Every path names an inode it may name, and every chunk is its inode's creator's. -/
structure Sound (may : π → ω → Prop) (d : Disk π ω δ) : Prop where
  names : ∀ p n, (p, n) ∈ d.names → ∃ w, d.creator n = some w ∧ may p w
  chunks : ∀ i ∈ d.inodes, ∀ c ∈ i.chunks, c.1 = i.creator

variable {may may' : π → ω → Prop}

theorem Sound.empty : Sound may ({} : Disk π ω δ) := by
  constructor
  · intro p n h
    cases h
  · intro i h
    cases h

theorem Sound.mono (h : Sound may d)
    (hmay : ∀ p n w, (p, n) ∈ d.names → may p w → may' p w) : Sound may' d := by
  refine ⟨fun p n hp => ?_, h.chunks⟩
  obtain ⟨w, hw, hm⟩ := h.names p n hp
  exact ⟨w, hw, hmay p n w hp hm⟩

theorem Sound.rewrite {f : List (ω × δ) → List (ω × δ)} (h : Sound may d)
    (hf : ∀ i, d.inodes[n]? = some i → ∀ c ∈ f i.chunks, c ∈ i.chunks ∨ c.1 = i.creator) :
    Sound may (d.rewrite n f) := by
  constructor
  · intro p m hp
    obtain ⟨w, hw, hm⟩ := h.names p m hp
    exact ⟨w, (creator_rewrite f m).trans hw, hm⟩
  · intro i hi c hc
    obtain ⟨m, hm⟩ := List.mem_iff_getElem?.mp hi
    rw [Disk.rewrite, List.getElem?_modify] at hm
    obtain ⟨j, hj, rfl⟩ := Option.map_eq_some_iff.mp hm
    have hold := h.chunks j (List.mem_of_getElem? hj)
    by_cases heq : n = m
    · subst heq
      simp only [if_true] at hc ⊢
      rcases hf j hj c hc with hmem | hnew
      · exact hold c hmem
      · exact hnew
    · simp only [heq, if_false] at hc ⊢
      exact hold c hc

theorem Sound.write (h : Sound may d) (hown : d.creator n = some w) :
    Sound may (d.write n w data) := by
  refine h.rewrite fun i hi c hc => ?_
  rcases List.mem_append.mp hc with hold | hnew
  · exact Or.inl hold
  · cases List.mem_singleton.mp hnew
    rw [creator, hi] at hown
    exact Or.inr (Option.some.inj hown).symm

section
variable [DecidableEq π]

theorem mem_names_of_lookup (h : d.names.lookup p = some n) : (p, n) ∈ d.names := by
  obtain ⟨l, r, heq, -⟩ := List.lookup_eq_some_iff.mp h
  rw [heq]
  exact List.mem_append_right _ List.mem_cons_self

theorem mem_names_remove {q : π} {m : Nat} :
    (q, m) ∈ (d.remove p).names ↔ (q, m) ∈ d.names ∧ q ≠ p := by
  simp [remove]

/-- Opening a path keeps the creators of the inodes there are. -/
theorem creator_create {m : Nat} {v : ω} (h : d.creator m = some v) :
    (d.create p w).1.creator m = some v := by
  rw [create]
  split
  · exact (creator_rewrite _ m).trans h
  · obtain ⟨i, hi, rfl⟩ := Option.map_eq_some_iff.mp h
    have hlt : m < d.inodes.length := (List.getElem?_eq_some_iff.mp hi).1
    simp [creator, List.getElem?_append_left hlt, hi]

/-- The inode opened is one of the opener's, when those the path names are. -/
theorem creator_opened (h : ∀ m, (p, m) ∈ d.names → d.creator m = some w) :
    (d.create p w).1.creator (d.create p w).2 = some w := by
  rw [create]
  split
  · next n hn => exact (creator_rewrite _ n).trans (h n (mem_names_of_lookup hn))
  · simp [creator]

theorem Sound.create (h : Sound may d) (hmay : may p w) : Sound may (d.create p w).1 := by
  rw [Disk.create]
  split
  · next n _ =>
    show Sound may (d.rewrite n fun _ => [])
    exact h.rewrite fun i _ c hc => by cases hc
  · constructor
    · intro q m hq
      rcases List.mem_cons.mp hq with heq | hold
      · cases heq
        exact ⟨w, by simp [creator], hmay⟩
      · obtain ⟨v, hv, hm⟩ := h.names q m hold
        obtain ⟨i, hi, rfl⟩ := Option.map_eq_some_iff.mp hv
        have hlt : m < d.inodes.length := (List.getElem?_eq_some_iff.mp hi).1
        exact ⟨i.creator, by simp [creator, List.getElem?_append_left hlt, hi], hm⟩
    · intro i hi c hc
      rcases List.mem_append.mp hi with hold | hnew
      · exact h.chunks i hold c hc
      · cases List.mem_singleton.mp hnew
        cases hc

theorem Sound.remove (h : Sound may d) : Sound may (d.remove p) :=
  ⟨fun q m hq => h.names q m (mem_names_remove.mp hq).1, h.chunks⟩

/-- What a path reads was written by one writer, which the path may name. -/
theorem Sound.read (h : Sound may d) {content : List (ω × δ)} (hread : d.read p = some content) :
    ∃ w, may p w ∧ ∀ c ∈ content, c.1 = w := by
  obtain ⟨n, hn, rfl⟩ := Option.map_eq_some_iff.mp hread
  obtain ⟨w, hw, hm⟩ := h.names p n (mem_names_of_lookup hn)
  obtain ⟨i, hi, rfl⟩ := Option.map_eq_some_iff.mp hw
  refine ⟨i.creator, hm, fun c hc => h.chunks i (List.mem_of_getElem? hi) c ?_⟩
  rw [content, hi] at hc
  exact hc

end

/-! ## Inodes without a path -/

structure Detached (d : Disk π ω δ) (n : Nat) : Prop where
  made : n < d.inodes.length
  unnamed : ∀ p, (p, n) ∉ d.names

theorem content_rewrite_of_ne {m : Nat} (h : n ≠ m) (f : List (ω × δ) → List (ω × δ)) :
    (d.rewrite n f).content m = d.content m := by
  rw [content, rewrite, List.getElem?_modify, content]
  cases d.inodes[m]? with
  | none => rfl
  | some i => simp [h]

theorem Detached.rewrite {m : Nat} (h : d.Detached m) (f : List (ω × δ) → List (ω × δ)) :
    (d.rewrite n f).Detached m := by
  refine ⟨?_, h.unnamed⟩
  rw [Disk.rewrite, List.length_modify]
  exact h.made

theorem Detached.write {m : Nat} (h : d.Detached m) : (d.write n w data).Detached m := h.rewrite _

section
variable [DecidableEq π]

theorem Detached.remove (h : d.Detached n) : (d.remove p).Detached n :=
  ⟨h.made, fun q hq => h.unnamed q (mem_names_remove.mp hq).1⟩

/-- The inode of a path is detached by its removal, when it has no other path. -/
theorem detached_of_remove (hmade : n < d.inodes.length) (h : ∀ q, (q, n) ∈ d.names → q = p) :
    (d.remove p).Detached n := by
  refine ⟨hmade, fun q hq => ?_⟩
  obtain ⟨hmem, hne⟩ := mem_names_remove.mp hq
  exact hne (h q hmem)

/-- Opening a path leaves a detached inode as it is. -/
theorem Detached.create (h : d.Detached n) :
    (d.create p w).1.Detached n ∧ (d.create p w).1.content n = d.content n ∧
      (d.create p w).2 ≠ n := by
  rw [Disk.create]
  split
  · next m hm =>
    have hne : m ≠ n := by
      rintro rfl
      exact h.unnamed p (mem_names_of_lookup hm)
    have hkept : (d.rewrite m fun _ => []).Detached n := h.rewrite _
    exact ⟨hkept, content_rewrite_of_ne hne _, hne⟩
  · have hne : d.inodes.length ≠ n := Nat.ne_of_gt h.made
    refine ⟨⟨?_, fun q hq => ?_⟩, ?_, hne⟩
    · rw [List.length_append]
      exact Nat.lt_add_right _ h.made
    · rcases List.mem_cons.mp hq with heq | hold
      · cases heq
        exact hne rfl
      · exact h.unnamed q hold
    · rw [content, content, List.getElem?_append_left h.made]

end

end Disk

end Files
