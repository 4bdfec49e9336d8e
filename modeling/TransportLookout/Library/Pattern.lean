/-
Regular expressions over classes of characters.

A text is matched by the classes of its characters, so a class such as `\d` is one
symbol of the alphabet and Mathlib's `RegularExpression` is the syntax.  The result is
`accepts_separated`: a text is a list of a pattern, separated by a character that no
match of the pattern has, exactly when every piece between the separators is a match.
-/
import Mathlib.Computability.RegularExpressions
import TransportLookout.Library.Text

namespace Pattern

open RegularExpression

variable {σ : Type*}

/-! ## Operators -/

/-- `P?`. -/
def opt (P : RegularExpression σ) : RegularExpression σ := 1 + P

/-- `P+`. -/
def oneOrMore (P : RegularExpression σ) : RegularExpression σ := P * P.star

/-- `P(sP)*`. -/
def separated (s : σ) (P : RegularExpression σ) : RegularExpression σ := P * (char s * P).star

theorem mem_opt {P : RegularExpression σ} {w : List σ} :
    w ∈ (opt P).matches' ↔ w = [] ∨ w ∈ P.matches' := by
  rw [opt, matches'_add, Language.mem_add, matches'_epsilon, Language.mem_one]

theorem mem_char {s : σ} {w : List σ} : w ∈ (char s).matches' ↔ w = [s] := by
  rw [matches'_char]
  exact Set.mem_singleton_iff

theorem mem_mul {P Q : RegularExpression σ} {w : List σ} :
    w ∈ (P * Q).matches' ↔ ∃ u ∈ P.matches', ∃ v ∈ Q.matches', u ++ v = w := by
  rw [matches'_mul, Language.mem_mul]

theorem mem_star {P : RegularExpression σ} {w : List σ} :
    w ∈ P.star.matches' ↔ ∃ L : List (List σ), w = L.flatten ∧ ∀ y ∈ L, y ∈ P.matches' := by
  rw [matches'_star, Language.mem_kstar]

/-- One symbol once or more. -/
theorem mem_oneOrMore_char {s : σ} {w : List σ} :
    w ∈ (oneOrMore (char s)).matches' ↔ w ≠ [] ∧ ∀ a ∈ w, a = s := by
  rw [oneOrMore, mem_mul]
  constructor
  · intro h
    obtain ⟨u, hu, v, hv, rfl⟩ := h
    cases mem_char.mp hu
    obtain ⟨L, rfl, hL⟩ := mem_star.mp hv
    refine ⟨List.cons_ne_nil _ _, fun a ha => ?_⟩
    cases List.mem_cons.mp ha with
    | inl ha => exact ha
    | inr ha =>
      obtain ⟨y, hy, hmem⟩ := List.mem_flatten.mp ha
      rw [mem_char.mp (hL y hy)] at hmem
      exact List.mem_singleton.mp hmem
  · intro h
    obtain ⟨hne, hall⟩ := h
    obtain ⟨a, w, rfl⟩ := List.exists_cons_of_ne_nil hne
    refine ⟨[a], mem_char.mpr ?_, w, mem_star.mpr ⟨w.map fun b => [b], ?_, ?_⟩, rfl⟩
    · rw [hall a List.mem_cons_self]
    · rw [← List.flatMap_def, List.flatMap_singleton']
    · intro y hy
      obtain ⟨b, hb, rfl⟩ := List.mem_map.mp hy
      rw [mem_char, hall b (List.mem_cons_of_mem a hb)]

/-! ## Separated lists -/

theorem mem_star_separated {s : σ} {P : RegularExpression σ} {w : List σ} :
    w ∈ (char s * P).star.matches' ↔
      ∃ pieces : List (List σ), w = (pieces.map (s :: ·)).flatten ∧
        ∀ x ∈ pieces, x ∈ P.matches' := by
  rw [mem_star]
  constructor
  · intro h
    obtain ⟨L, rfl, hL⟩ := h
    induction L with
    | nil => exact ⟨[], rfl, fun x hx => by cases hx⟩
    | cons y L ih =>
      obtain ⟨a, ha, z, hz, rfl⟩ := mem_mul.mp (hL y List.mem_cons_self)
      cases mem_char.mp ha
      obtain ⟨pieces, heq, hpieces⟩ := ih fun y hy => hL y (List.mem_cons_of_mem _ hy)
      refine ⟨z :: pieces, ?_, List.forall_mem_cons.mpr ⟨hz, hpieces⟩⟩
      rw [List.flatten_cons, heq, List.map_cons, List.flatten_cons]
      rfl
  · intro h
    obtain ⟨pieces, rfl, hpieces⟩ := h
    refine ⟨_, rfl, fun y hy => ?_⟩
    obtain ⟨x, hx, rfl⟩ := List.mem_map.mp hy
    exact mem_mul.mpr ⟨[s], mem_char.mpr rfl, x, hpieces x hx, rfl⟩

theorem mem_separated {s : σ} {P : RegularExpression σ} {w : List σ} :
    w ∈ (separated s P).matches' ↔
      ∃ pieces, pieces ≠ [] ∧ w = [s].intercalate pieces ∧ ∀ x ∈ pieces, x ∈ P.matches' := by
  rw [separated, mem_mul]
  constructor
  · intro h
    obtain ⟨u, hu, v, hv, rfl⟩ := h
    obtain ⟨pieces, rfl, hpieces⟩ := mem_star_separated.mp hv
    exact ⟨u :: pieces, List.cons_ne_nil _ _, (Text.intercalate_cons u pieces).symm,
      List.forall_mem_cons.mpr ⟨hu, hpieces⟩⟩
  · intro h
    obtain ⟨pieces, hne, rfl, hpieces⟩ := h
    obtain ⟨u, pieces, rfl⟩ := List.exists_cons_of_ne_nil hne
    obtain ⟨hu, hpieces⟩ := List.forall_mem_cons.mp hpieces
    exact ⟨u, hu, _, mem_star_separated.mpr ⟨pieces, rfl, hpieces⟩,
      (Text.intercalate_cons u pieces).symm⟩

/-! ## Texts -/

section
variable [DecidableEq σ] (classify : Char → σ)

/-- The classes of the characters match the pattern from end to end. -/
def accepts (P : RegularExpression σ) (s : String) : Bool := P.rmatch (s.toList.map classify)

variable {classify}

theorem accepts_iff {P : RegularExpression σ} {s : String} :
    accepts classify P s = true ↔ s.toList.map classify ∈ P.matches' :=
  rmatch_iff_matches' P _

/-- A list of a pattern is matched piece by piece. -/
theorem accepts_separated {c : Char} {P : RegularExpression σ}
    (hc : ∀ a, classify a = classify c → a = c) (hP : ∀ w ∈ P.matches', classify c ∉ w)
    {s : String} :
    accepts classify (separated (classify c) P) s = true ↔
      ∀ x ∈ Text.split c s, accepts classify P x = true := by
  rw [accepts_iff, mem_separated]
  constructor
  · intro h x hx
    obtain ⟨pieces, hne, heq, hpieces⟩ := h
    have hsplit : (s.toList.splitOn c).map (List.map classify) = pieces := by
      rw [← Text.splitOn_map hc, heq]
      exact List.splitOn_intercalate _ (fun x hx => hP x (hpieces x hx)) hne
    rw [accepts_iff]
    refine hpieces _ ?_
    rw [← hsplit]
    exact List.mem_map_of_mem (Text.toList_of_mem_split hx)
  · intro h
    refine ⟨(s.toList.splitOn c).map (List.map classify), ?_, ?_, ?_⟩
    · rw [Ne, List.map_eq_nil_iff]
      exact List.splitOn_ne_nil c s.toList
    · rw [← Text.map_intercalate, List.intercalate_splitOn]
    · intro x hx
      obtain ⟨piece, hpiece, rfl⟩ := List.mem_map.mp hx
      have hmem := accepts_iff.mp (h (String.ofList piece) (List.mem_map_of_mem hpiece))
      rw [String.toList_ofList] at hmem
      exact hmem

end

end Pattern
