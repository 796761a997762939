import Mathlib.Data.List.Forall2
import Mathlib.Data.Nat.Digits.Defs
import Mathlib.Tactic.Ring
import Sluice.Proofs.Steps
import Sluice.Text.Digits

/-! Numerals: a run of decimal digits is read as the number that it denotes, and a number that is
written in decimal digits is read back. -/

namespace Sluice.Text

def Denotes (digits : List Char) (n : Nat) : Prop :=
  ∃ ds, List.Forall₂ (fun c d => digit? c = some d) digits ds ∧ n = Nat.ofDigits 10 ds.reverse

theorem foldlM_digits {cs : List Char} {m n : Nat} :
    cs.foldlM (fun n c => do some (10 * n + (← digit? c))) m = some n ↔
      ∃ ds, List.Forall₂ (fun c d => digit? c = some d) cs ds ∧
        n = m * 10 ^ ds.length + Nat.ofDigits 10 ds.reverse := by
  induction cs generalizing m with
  | nil => simp [eq_comm]
  | cons c r ih =>
    have shift (d : Nat) (ds : List Nat) : m * 10 ^ (d :: ds).length +
        Nat.ofDigits 10 (d :: ds).reverse =
          (10 * m + d) * 10 ^ ds.length + Nat.ofDigits 10 ds.reverse := by
      rw [List.reverse_cons, Nat.ofDigits_append, List.length_reverse, Nat.ofDigits_singleton,
        List.length_cons, pow_succ]
      ring
    rw [List.foldlM_cons]
    simp only [List.forall₂_cons_left_iff]
    constructor
    · intro h
      cases hc : digit? c with
      | none => simp [hc] at h
      | some d =>
        simp only [hc, Option.bind_eq_bind, Option.bind_some] at h
        obtain ⟨ds, hds, rfl⟩ := ih.1 h
        exact ⟨d :: ds, ⟨d, ds, rfl, hds, rfl⟩, (shift d ds).symm⟩
    · rintro ⟨_, ⟨d, ds, hd, hds, rfl⟩, rfl⟩
      simp only [hd, Option.bind_eq_bind, Option.bind_some]
      exact ih.2 ⟨ds, hds, shift d ds⟩

theorem digitsValue?_eq_some_iff {cs : List Char} {n : Nat} :
    digitsValue? cs = some n ↔ cs ≠ [] ∧ Denotes cs n := by
  have digits := @foldlM_digits cs 0 n
  simp only [Nat.zero_mul, Nat.zero_add] at digits
  unfold digitsValue? Denotes
  cases cs with
  | nil => simp
  | cons c r => simpa using digits

theorem digit?_digitChar : ∀ d < 10, digit? (Nat.digitChar d) = some d := by
  decide

theorem isBlank_digitChar : ∀ d < 10, isBlank (Nat.digitChar d) = false := by
  decide

theorem exists_digitChar {n : Nat} {c : Char} (h : c ∈ Nat.toDigits 10 n) :
    ∃ d < 10, c = Nat.digitChar d := by
  induction n using Nat.strongRecOn with
  | ind n ih =>
    rw [Nat.toDigits_eq_if (by decide)] at h
    split at h
    · exact ⟨n, by assumption, by simpa using h⟩
    · rcases List.mem_append.1 h with h | h
      · exact ih (n / 10) (by omega) h
      · exact ⟨n % 10, by omega, by simpa using h⟩

theorem isBlank_of_mem_toDigits {n : Nat} {c : Char} (h : c ∈ Nat.toDigits 10 n) :
    isBlank c = false := by
  obtain ⟨d, hd, rfl⟩ := exists_digitChar h
  exact isBlank_digitChar d hd

theorem isDigit_of_mem_toDigits {n : Nat} {c : Char} (h : c ∈ Nat.toDigits 10 n) :
    isDigit c = true := by
  obtain ⟨d, hd, rfl⟩ := exists_digitChar h
  simp [isDigit, digit?_digitChar d hd]

theorem foldlM_toDigits (n : Nat) :
    (Nat.toDigits 10 n).foldlM (fun n c => do some (10 * n + (← digit? c))) 0 = some n := by
  induction n using Nat.strongRecOn with
  | ind n ih =>
    rw [Nat.toDigits_eq_if (by decide)]
    split
    · simp [digit?_digitChar n (by assumption)]
    · rw [List.foldlM_append, ih (n / 10) (by omega)]
      simp [digit?_digitChar (n % 10) (by omega)]
      omega

theorem digitsValue?_toDigits (n : Nat) : digitsValue? (Nat.toDigits 10 n) = some n := by
  have := foldlM_toDigits n
  unfold digitsValue?
  split
  · simp_all
  · exact this

theorem toDigits_injective {m n : Nat} (h : Nat.toDigits 10 m = Nat.toDigits 10 n) : m = n := by
  have := congrArg digitsValue? h
  simpa [digitsValue?_toDigits] using this

theorem toString_injective {m n : Nat} (h : toString m = toString n) : m = n := by
  apply toDigits_injective
  simpa using congrArg String.toList h

def Readable (n : Nat) : Prop :=
  (Nat.toDigits 10 n).length ≤ digitLimit

theorem readable_of_le {n : Nat} (h : n ≤ 1024) : Readable n := by
  have : (Nat.toDigits 10 n).length ≤ 4 :=
    (Nat.length_toDigits_le_iff (by decide) (by decide)).2 (by omega)
  exact Nat.le_trans this (by decide)

theorem moreDigits_eq (n : Nat) {cs : List Char} (h : ∀ c ∈ cs, c ≠ '_') :
    moreDigits n cs = cs.foldlM (fun n c => do some (10 * n + (← digit? c))) n := by
  induction cs generalizing n with
  | nil => rfl
  | cons c r ih =>
    have hc : c ≠ '_' := h c (by simp)
    rw [moreDigits.eq_3 n c r fun d s hd _ => hc hd, List.foldlM_cons]
    cases digit? c with
    | none => rfl
    | some d => exact ih _ fun e he => h e (by simp [he])

theorem wholeNumber?_toString {n : Nat} (h : Readable n) :
    wholeNumber? (toString n) = some (n : Int) := by
  have under : ∀ c ∈ Nat.toDigits 10 n, c ≠ '_' := by
    rintro c hc rfl
    exact Nat.underscore_not_in_toDigits hc
  have trimmed : Chars.trim (Nat.toDigits 10 n) = Nat.toDigits 10 n := by
    refine Chars.trim_eq_self ⟨fun c hc => ?_, fun c hc => ?_⟩
    · exact isBlank_of_mem_toDigits (List.mem_of_mem_head? hc)
    · exact isBlank_of_mem_toDigits (List.mem_of_getLast? hc)
  have value : unsigned? (Nat.toDigits 10 n) = some n := by
    have hall : (Nat.toDigits 10 n).filter (· ≠ '_') = Nat.toDigits 10 n :=
      List.filter_eq_self.2 fun c hc => by simpa using under c hc
    have hfold := foldlM_toDigits n
    unfold unsigned?
    rw [hall, if_neg (Nat.not_lt.2 h)]
    cases hd : Nat.toDigits 10 n with
    | nil => exact absurd hd Nat.toDigits_ne_nil
    | cons c r =>
      rw [hd] at under hfold
      rw [List.foldlM_cons] at hfold
      cases hc : digit? c with
      | none => simp [hc] at hfold
      | some d =>
        simp only [hc, Option.bind_eq_bind, Option.bind_some, Nat.mul_zero, Nat.zero_add] at hfold ⊢
        rw [moreDigits_eq _ fun e he => under e (by simp [he])]
        exact hfold
  have head : ∀ c r, Nat.toDigits 10 n = c :: r → c ≠ '+' ∧ c ≠ '-' := by
    intro c r hc
    obtain ⟨d, hd, rfl⟩ := exists_digitChar (n := n) (c := c) (by simp [hc])
    exact (by decide : ∀ d < 10, Nat.digitChar d ≠ '+' ∧ Nat.digitChar d ≠ '-') d hd
  unfold wholeNumber?
  rw [Nat.toString_eq_repr, Nat.toList_repr, trimmed]
  split
  · rename_i r hr
    exact absurd rfl (head _ _ hr).1
  · rename_i r hr
    exact absurd rfl (head _ _ hr).2
  · rw [value]
    rfl

end Sluice.Text
