/-
Prefixes and pieces of a text.

`startsWith`, `removePrefix`, `strip`, `split` and `join` are `str.startswith`,
`str.removeprefix`, `str.strip`, `str.split` and `str.join`, the last two with a
separator of one character.  What a separator cuts a text into is what it joins to that text:
`split_join` goes one way, for pieces without the separator, and `join_split` the
other.
-/
import Mathlib.Data.List.Infix

namespace Text

/-! ## Prefixes -/

/-- `s.startswith(pre)`. -/
def startsWith (pre s : String) : Bool := pre.toList.isPrefixOf s.toList

/-- `s.removeprefix(pre)`. -/
def removePrefix (pre s : String) : String :=
  if startsWith pre s then String.ofList (s.toList.drop pre.toList.length) else s

/-- What `str.strip` strips. -/
def isSpace (c : Char) : Bool :=
  (9 ≤ c.toNat && c.toNat ≤ 13) || (28 ≤ c.toNat && c.toNat ≤ 32) ||
    (0x2000 ≤ c.toNat && c.toNat ≤ 0x200A) ||
    c.toNat ∈ [0x85, 0xA0, 0x1680, 0x2028, 0x2029, 0x202F, 0x205F, 0x3000]

/-- `s.strip()`. -/
def strip (s : String) : String :=
  String.ofList ((s.toList.dropWhile isSpace).reverse.dropWhile isSpace).reverse

theorem startsWith_append (pre s : String) : startsWith pre (pre ++ s) = true := by
  rw [startsWith, String.toList_append]
  exact List.isPrefixOf_iff_prefix.mpr (List.prefix_append pre.toList s.toList)

theorem removePrefix_append (pre s : String) : removePrefix pre (pre ++ s) = s := by
  rw [removePrefix, if_pos (startsWith_append pre s), String.toList_append, List.drop_left,
    String.ofList_toList]

theorem startsWith_iff {pre s : String} : startsWith pre s = true ↔ ∃ t, s = pre ++ t := by
  constructor
  · intro h
    obtain ⟨t, ht⟩ := List.isPrefixOf_iff_prefix.mp h
    exact ⟨String.ofList t, String.ext (by rw [String.toList_append, String.toList_ofList, ht])⟩
  · intro h
    obtain ⟨t, rfl⟩ := h
    exact startsWith_append pre t

/-- A text that has the prefix is the prefix and what is left without it. -/
theorem append_removePrefix {pre s : String} (h : startsWith pre s = true) :
    pre ++ removePrefix pre s = s := by
  obtain ⟨t, rfl⟩ := startsWith_iff.mp h
  rw [removePrefix_append]

theorem removePrefix_of_not {pre s : String} (h : startsWith pre s = false) :
    removePrefix pre s = s := by
  rw [removePrefix, h]
  simp

/-- What a prefix leaves is made of the characters that were there. -/
theorem mem_removePrefix {pre s : String} {c : Char} (h : c ∈ (removePrefix pre s).toList) :
    c ∈ s.toList := by
  cases hpre : startsWith pre s with
  | false =>
    rw [removePrefix_of_not hpre] at h
    exact h
  | true =>
    rw [← append_removePrefix hpre, String.toList_append]
    exact List.mem_append_right _ h

/-! ## Pieces -/

/-- `needle in s`. -/
def contains (needle s : String) : Bool :=
  s.toList.tails.any fun rest => needle.toList.isPrefixOf rest

/-- `s.split(sep)`. -/
def split (sep : Char) (s : String) : List String := (s.toList.splitOn sep).map String.ofList

/-- `sep.join(items)`. -/
def join (sep : Char) (items : List String) : String :=
  String.ofList ([sep].intercalate (items.map String.toList))

theorem contains_iff {needle s : String} :
    contains needle s = true ↔ needle.toList <:+: s.toList := by
  rw [contains, List.any_eq_true, List.infix_iff_prefix_suffix]
  simp only [List.mem_tails, List.isPrefixOf_iff_prefix, and_comm]

/-- What is in a part of a text is in the text. -/
theorem contains_of_infix {needle s t : String} (h : contains needle s = true)
    (hst : s.toList <:+: t.toList) : contains needle t = true :=
  contains_iff.mpr ((contains_iff.mp h).trans hst)

theorem contains_of_startsWith {pre s : String} (h : startsWith pre s = true) :
    contains pre s = true :=
  contains_iff.mpr (List.isPrefixOf_iff_prefix.mp h).isInfix

/-- A text that lacks a character of the needle does not contain it. -/
theorem not_contains {needle s : String} {c : Char} (hc : c ∈ needle.toList)
    (h : c ∉ s.toList) : contains needle s = false := by
  refine Bool.eq_false_iff.mpr fun hcontains => h ?_
  exact (contains_iff.mp hcontains).subset hc

section
variable {α : Type*} {sep : α} {l : List α}

theorem infix_intercalate {pieces : List (List α)} {x : List α} (hx : x ∈ pieces) :
    x <:+: [sep].intercalate pieces := by
  induction pieces with
  | nil => cases hx
  | cons piece pieces ih =>
    cases pieces with
    | nil =>
      cases List.mem_singleton.mp hx
      exact ⟨[], [], by rw [List.intercalate_singleton, List.append_nil, List.nil_append]⟩
    | cons next pieces =>
      rw [List.intercalate_cons_cons]
      cases List.mem_cons.mp hx with
      | inl hx =>
        rw [hx, List.append_assoc]
        exact (List.prefix_append _ _).isInfix
      | inr hx => exact (ih hx).trans (List.suffix_append _ _).isInfix

theorem mem_intercalate {pieces : List (List α)} {a : α} (h : a ∈ [sep].intercalate pieces) :
    a = sep ∨ ∃ x ∈ pieces, a ∈ x := by
  induction pieces with
  | nil => cases h
  | cons piece pieces ih =>
    cases pieces with
    | nil =>
      rw [List.intercalate_singleton] at h
      exact Or.inr ⟨piece, List.mem_cons_self, h⟩
    | cons next pieces =>
      rw [List.intercalate_cons_cons, List.append_assoc] at h
      cases List.mem_append.mp h with
      | inl h => exact Or.inr ⟨piece, List.mem_cons_self, h⟩
      | inr h =>
        cases List.mem_append.mp h with
        | inl h => exact Or.inl (List.mem_singleton.mp h)
        | inr h =>
          cases ih h with
          | inl h => exact Or.inl h
          | inr h =>
            obtain ⟨x, hx, hmem⟩ := h
            exact Or.inr ⟨x, List.mem_cons_of_mem _ hx, hmem⟩

/-- Every piece but the first comes after a separator. -/
theorem intercalate_cons (piece : List α) (pieces : List (List α)) :
    [sep].intercalate (piece :: pieces) = piece ++ (pieces.map (sep :: ·)).flatten := by
  induction pieces generalizing piece with
  | nil => simp
  | cons next pieces ih =>
    rw [List.intercalate_cons_cons, ih, List.map_cons, List.flatten_cons]
    simp

theorem map_intercalate {β : Type*} (f : α → β) (pieces : List (List α)) :
    ([sep].intercalate pieces).map f = [f sep].intercalate (pieces.map (List.map f)) := by
  induction pieces with
  | nil => rfl
  | cons piece pieces ih =>
    cases pieces with
    | nil => rw [List.intercalate_singleton, List.map_singleton, List.intercalate_singleton]
    | cons next pieces =>
      rw [List.intercalate_cons_cons, List.map_append, List.map_append, ih]
      simp only [List.map_cons, List.map_nil, List.intercalate_cons_cons]

variable [BEq α] [LawfulBEq α]

/-- No piece has the separator. -/
theorem sep_notMem_splitOn {x : List α} (hx : x ∈ l.splitOn sep) : sep ∉ x := by
  induction l generalizing x with
  | nil =>
    rw [List.splitOn_nil] at hx
    cases List.mem_singleton.mp hx
    exact List.not_mem_nil
  | cons a l ih =>
    rw [List.splitOn_cons_eq_if_modifyHead] at hx
    obtain ⟨piece, pieces, hpieces⟩ := List.exists_cons_of_ne_nil (List.splitOn_ne_nil sep l)
    have htail : ∀ y ∈ piece :: pieces, sep ∉ y := by
      rw [← hpieces]
      exact fun y hy => ih hy
    rw [hpieces] at hx
    split at hx
    · cases List.mem_cons.mp hx with
      | inl hx =>
        rw [hx]
        exact List.not_mem_nil
      | inr hx => exact htail x hx
    · next hne =>
      cases List.mem_cons.mp hx with
      | inl hx =>
        rw [hx]
        intro hmem
        cases List.mem_cons.mp hmem with
        | inl heq => exact hne (beq_iff_eq.mpr heq.symm)
        | inr hmem => exact htail piece List.mem_cons_self hmem
      | inr hx => exact htail x (List.mem_cons_of_mem _ hx)

/-- A map that sends nothing else to the separator's image commutes with the cut. -/
theorem splitOn_map {β : Type*} [BEq β] [LawfulBEq β] {f : α → β}
    (hf : ∀ a, f a = f sep → a = sep) :
    (l.map f).splitOn (f sep) = (l.splitOn sep).map (List.map f) := by
  have hjoin : [f sep].intercalate ((l.splitOn sep).map (List.map f)) = l.map f := by
    rw [← map_intercalate, List.intercalate_splitOn]
  rw [← hjoin]
  refine List.splitOn_intercalate (f sep) ?_ ?_
  · intro x hx hmem
    obtain ⟨piece, hpiece, rfl⟩ := List.mem_map.mp hx
    obtain ⟨a, ha, heq⟩ := List.mem_map.mp hmem
    rw [hf a heq] at ha
    exact sep_notMem_splitOn hpiece ha
  · rw [Ne, List.map_eq_nil_iff]
    exact List.splitOn_ne_nil sep l

end

theorem split_ne_nil (sep : Char) (s : String) : split sep s ≠ [] := by
  rw [split, Ne, List.map_eq_nil_iff]
  exact List.splitOn_ne_nil sep s.toList

theorem toList_of_mem_split {sep : Char} {s x : String} (hx : x ∈ split sep s) :
    x.toList ∈ s.toList.splitOn sep := by
  obtain ⟨piece, hpiece, rfl⟩ := List.mem_map.mp hx
  rw [String.toList_ofList]
  exact hpiece

theorem sep_notMem_split {sep : Char} {s x : String} (hx : x ∈ split sep s) : sep ∉ x.toList :=
  sep_notMem_splitOn (toList_of_mem_split hx)

/-- A piece stands in the text. -/
theorem infix_of_mem_split {sep : Char} {s x : String} (hx : x ∈ split sep s) :
    x.toList <:+: s.toList := by
  have h : x.toList <:+: [sep].intercalate (s.toList.splitOn sep) :=
    infix_intercalate (toList_of_mem_split hx)
  rw [List.intercalate_splitOn] at h
  exact h

/-- Pieces without the separator come back from the text they are joined to. -/
theorem split_join {sep : Char} {items : List String} (h : ∀ x ∈ items, sep ∉ x.toList)
    (hne : items ≠ []) : split sep (join sep items) = items := by
  have hsep : ∀ x ∈ items.map String.toList, sep ∉ x := by
    intro x hx
    obtain ⟨item, hitem, rfl⟩ := List.mem_map.mp hx
    exact h item hitem
  have hmap : items.map String.toList ≠ [] := by
    rw [Ne, List.map_eq_nil_iff]
    exact hne
  rw [split, join, String.toList_ofList, List.splitOn_intercalate sep hsep hmap, List.map_map]
  exact List.map_id'' (fun _ => String.ofList_toList) items

/-- The pieces of a text are joined to it. -/
theorem join_split (sep : Char) (s : String) : join sep (split sep s) = s := by
  have hpieces : (s.toList.splitOn sep).map (String.toList ∘ String.ofList) =
      s.toList.splitOn sep := List.map_id'' (fun _ => String.toList_ofList) _
  rw [join, split, List.map_map, hpieces, List.intercalate_splitOn, String.ofList_toList]

theorem mem_join {sep : Char} {items : List String} {c : Char}
    (h : c ∈ (join sep items).toList) : c = sep ∨ ∃ x ∈ items, c ∈ x.toList := by
  rw [join, String.toList_ofList] at h
  cases mem_intercalate h with
  | inl h => exact Or.inl h
  | inr h =>
    obtain ⟨x, hx, hc⟩ := h
    obtain ⟨item, hitem, rfl⟩ := List.mem_map.mp hx
    exact Or.inr ⟨item, hitem, hc⟩

end Text
