import Sluice.CommandLine.Token

/-! Texts put together from parts, with a gap between each two of them. The gaps need not be the
same, as long as each is of the kind that is asked for. -/

namespace Sluice.CommandLine

variable {Gap Gap' : List Char → Prop} {gap part text : List Char} {parts : List (List Char)}

inductive Joined (Gap : List Char → Prop) : List (List Char) → List Char → Prop
  | nil : Joined Gap [] []
  | single (part : List Char) : Joined Gap [part] part
  | cons (part : List Char) {gap next text : List Char} {parts : List (List Char)} : Gap gap →
    Joined Gap (next :: parts) text → Joined Gap (part :: next :: parts) (part ++ gap ++ text)

structure Blanks (gap : List Char) : Prop where
  ne_nil : gap ≠ []
  blank : ∀ c ∈ gap, Text.isBlank c = true

theorem Blanks.exists_last (h : Blanks gap) : ∃ init c, gap = init ++ [c] ∧
    Text.isBlank c = true ∧ ∀ d ∈ init, Text.isBlank d = true :=
  ⟨gap.dropLast, gap.getLast h.ne_nil, (List.dropLast_concat_getLast h.ne_nil).symm,
    h.blank _ (List.getLast_mem h.ne_nil), fun _ hd => h.blank _ (List.dropLast_subset gap hd)⟩

theorem joined_intercalate (h : Gap gap) (parts : List (List Char)) :
    Joined Gap parts (gap.intercalate parts) := by
  induction parts with
  | nil => exact .nil
  | cons part r ih =>
    cases r with
    | nil =>
      rw [List.intercalate_singleton]
      exact .single part
    | cons next r =>
      rw [List.intercalate_cons_cons]
      exact .cons part h ih

theorem Joined.exists_rest (h : Joined Gap (part :: parts) text) :
    ∃ rest, text = part ++ rest ∧ (rest = [] ∧ parts = [] ∨
      ∃ gap tail, rest = gap ++ tail ∧ Gap gap ∧ Joined Gap parts tail) := by
  cases h with
  | single => exact ⟨[], (List.append_nil _).symm, .inl ⟨rfl, rfl⟩⟩
  | cons _ hgap tail => exact ⟨_, List.append_assoc _ _ _, .inr ⟨_, _, rfl, hgap, tail⟩⟩

end Sluice.CommandLine
