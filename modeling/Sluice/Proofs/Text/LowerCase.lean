import Sluice.Text.Lower

/-! Lower case. What has been lower-cased once stays as it is, and lower-casing brings no blank into
a text and takes none out. -/

namespace Sluice.Text

def bits (ns : List Nat) : Nat :=
  ns.foldr (fun n b => b ||| Nat.pow 2 n) 0

theorem testBit_bits {ns : List Nat} {n : Nat} : (bits ns).testBit n = true ↔ n ∈ ns := by
  induction ns with
  | nil => simp [bits]
  | cons m r ih =>
    simp only [bits, List.foldr_cons, Nat.pow_eq, Nat.testBit_or, Bool.or_eq_true,
      Nat.testBit_two_pow, decide_eq_true_eq, List.mem_cons] at ih ⊢
    rw [ih, or_comm, eq_comm]

theorem disjoint_of_bits {ms ns : List Nat} (h : bits ms &&& bits ns = 0) {n : Nat}
    (hm : n ∈ ms) : n ∉ ns := by
  intro hn
  have := congrArg (fun b => b.testBit n) h
  simp [Nat.testBit_and, testBit_bits.2 hm, testBit_bits.2 hn] at this

namespace CapitalRun

def capitals (run : CapitalRun) : List Nat :=
  ((List.range (run.last + 1 - run.first)).filter fun i => i % run.step = 0).map (run.first + ·)

def partner (run : CapitalRun) (n : Nat) : Nat :=
  ((n : Int) + run.shift).toNat

theorem mem_capitals {run : CapitalRun} {n : Nat} : n ∈ run.capitals ↔
    (run.first ≤ n ∧ n ≤ run.last) ∧ (n - run.first) % run.step = 0 := by
  simp only [capitals, List.mem_map, List.mem_filter, List.mem_range, decide_eq_true_eq]
  constructor
  · rintro ⟨i, ⟨hi, hstep⟩, rfl⟩
    exact ⟨by omega, by rwa [Nat.add_sub_cancel_left]⟩
  · rintro ⟨⟨hf, hl⟩, hstep⟩
    exact ⟨n - run.first, ⟨by omega, hstep⟩, by omega⟩

end CapitalRun

def capitals : List Nat :=
  capitalRuns.flatMap CapitalRun.capitals

def partners : List Nat :=
  capitalRuns.flatMap fun run => run.capitals.map run.partner

def blanks : List Nat :=
  blankRanges.flatMap fun (low, high) => (List.range (high + 1 - low)).map (low + ·)

theorem mem_blanks {c : Char} : isBlank c = true ↔ c.toNat ∈ blanks := by
  simp only [isBlank, inRanges, List.any_eq_true, Bool.and_eq_true, decide_eq_true_eq, blanks,
    List.mem_flatMap, List.mem_map, List.mem_range, Prod.exists]
  refine exists_congr fun low => exists_congr fun high => and_congr_right fun _ => ?_
  constructor
  · rintro ⟨hl, hh⟩
    exact ⟨c.toNat - low, by omega, by omega⟩
  · rintro ⟨i, hi, hc⟩
    omega

theorem partners_disjoint : bits partners &&& bits (0x130 :: 0x3a3 :: capitals ++ blanks) = 0 := by
  decide +kernel

theorem partners_valid : ∀ n ∈ partners, n.isValidChar := by
  decide +kernel

def IsLowered (c : Char) : Prop :=
  (c ≠ 'İ' ∧ c ≠ 'Σ') ∧ lowerChar c = c

theorem toLower_ascii : ∀ n < 128, (0x41 ≤ n ∧ n ≤ 0x5a) ∨
    (Char.ofNat n).toLower = Char.ofNat n := by
  decide +kernel

theorem lowered_ascii : ∀ n < 128, IsLowered (Char.ofNat n).toLower ∧
    isBlank (Char.ofNat n).toLower = isBlank (Char.ofNat n) := by
  simp only [IsLowered]
  decide +kernel

theorem lowerChar_eq_self {c : Char} (h : c.toNat ∉ capitals) : lowerChar c = c := by
  have off : ∀ run ∈ capitalRuns, c.toNat ∉ run.capitals := fun run hrun hc =>
    h (List.mem_flatMap.2 ⟨run, hrun, hc⟩)
  unfold lowerChar
  split
  · rename_i hc
    have hlatin := off ⟨0x41, 0x5a, 1, 32⟩ List.mem_cons_self
    rw [CapitalRun.mem_capitals] at hlatin
    rcases toLower_ascii c.toNat hc with hup | hlow
    · exact absurd ⟨hup, Nat.mod_one _⟩ hlatin
    · simpa using hlow
  · simp only [lowerByTable]
    rw [List.find?_eq_none.2]
    intro run hrun
    have := off run hrun
    rw [CapitalRun.mem_capitals] at this
    simpa using this

theorem lowered_of_partner {n : Nat} (h : n ∈ partners) :
    IsLowered (Char.ofNat n) ∧ isBlank (Char.ofNat n) = false := by
  have hv : (Char.ofNat n).toNat = n := by
    rw [Char.ofNat, dif_pos (partners_valid n h)]
    rfl
  have apart := disjoint_of_bits partners_disjoint h
  simp only [List.cons_append, List.mem_cons, List.mem_append, not_or] at apart
  obtain ⟨hi, hs, hc, hb⟩ := apart
  refine ⟨⟨⟨?_, ?_⟩, lowerChar_eq_self (by rwa [hv])⟩, ?_⟩
  · intro h
    exact hi (hv.symm.trans (congrArg Char.toNat h))
  · intro h
    exact hs (hv.symm.trans (congrArg Char.toNat h))
  · rw [← Bool.not_eq_true, mem_blanks, hv]
    exact hb

theorem lowerByTable_spec (c : Char) : lowerByTable c = c ∧ c.toNat ∉ capitals ∨
    IsLowered (lowerByTable c) ∧ isBlank (lowerByTable c) = false := by
  simp only [lowerByTable]
  cases hrun : capitalRuns.find? fun run =>
      run.first ≤ c.toNat && c.toNat ≤ run.last && (c.toNat - run.first) % run.step == 0 with
  | none =>
    refine .inl ⟨rfl, fun hc => ?_⟩
    obtain ⟨run, hmem, hcap⟩ := List.mem_flatMap.1 hc
    have := List.find?_eq_none.1 hrun run hmem
    rw [CapitalRun.mem_capitals] at hcap
    simp [hcap] at this
  | some run =>
    have hfits := List.find?_some hrun
    simp only [Bool.and_eq_true, decide_eq_true_eq, beq_iff_eq] at hfits
    refine .inr (lowered_of_partner (List.mem_flatMap.2 ⟨run, List.mem_of_find?_eq_some hrun, ?_⟩))
    exact List.mem_map.2 ⟨c.toNat, CapitalRun.mem_capitals.2 hfits, rfl⟩

theorem lowerChar_spec {c : Char} (hi : c ≠ 'İ') (hs : c ≠ 'Σ') :
    IsLowered (lowerChar c) ∧ (isBlank c = false → isBlank (lowerChar c) = false) := by
  by_cases hc : c.toNat < 128
  · have hl : lowerChar c = c.toLower := by simp [lowerChar, hc]
    obtain ⟨hlow, hb⟩ := lowered_ascii c.toNat hc
    rw [Char.ofNat_toNat] at hlow hb
    rw [hl, hb]
    exact ⟨hlow, id⟩
  · have hl : lowerChar c = lowerByTable c := by simp [lowerChar, hc]
    rcases lowerByTable_spec c with ⟨h, _⟩ | ⟨h, hb⟩
    · rw [hl, h]
      exact ⟨⟨⟨hi, hs⟩, hl.trans h⟩, id⟩
    · rw [hl]
      exact ⟨h, fun _ => hb⟩

theorem lowerBetween_spec (before after : List Char) (c : Char) :
    ∀ d ∈ lowerBetween before c after, IsLowered d ∧ (isBlank c = false → isBlank d = false) := by
  have plain : ∀ d : Char, d ∈ ['i', '\u0307', 'ς', 'σ'] → IsLowered d ∧ isBlank d = false := by
    simp only [IsLowered]
    decide +kernel
  unfold lowerBetween
  split
  · intro d hd
    obtain ⟨hl, hb⟩ := plain d (List.mem_append_left ['ς', 'σ'] hd)
    exact ⟨hl, fun _ => hb⟩
  · split
    · intro d hd
      obtain ⟨hl, hb⟩ := plain d (by split at hd <;> simp_all)
      exact ⟨hl, fun _ => hb⟩
    · rename_i hi hs
      simpa using lowerChar_spec hi hs

theorem mem_lowerFrom {before cs : List Char} {d : Char} (h : d ∈ lowerFrom before cs) :
    IsLowered d ∧ ((∀ c ∈ cs, isBlank c = false) → isBlank d = false) := by
  induction cs generalizing before with
  | nil => simp [lowerFrom] at h
  | cons c r ih =>
    rcases List.mem_append.1 h with h | h
    · obtain ⟨hd, hb⟩ := lowerBetween_spec before r c d h
      exact ⟨hd, fun hall => hb (hall c (by simp))⟩
    · obtain ⟨hd, hb⟩ := ih h
      exact ⟨hd, fun hall => hb fun e he => hall e (by simp [he])⟩

theorem lowerFrom_of_lowered (before : List Char) {cs : List Char} (h : ∀ c ∈ cs, IsLowered c) :
    lowerFrom before cs = cs := by
  induction cs generalizing before with
  | nil => rfl
  | cons c r ih =>
    obtain ⟨⟨hi, hs⟩, hl⟩ := h c (by simp)
    rw [lowerFrom, lowerBetween, if_neg hi, if_neg hs, hl, ih _ fun d hd => h d (by simp [hd])]
    rfl

@[simp] theorem lower_lower (s : String) : lower (lower s) = lower s := by
  have := lowerFrom_of_lowered [] fun c (hc : c ∈ lowerFrom [] s.toList) => (mem_lowerFrom hc).1
  simp [lower, this]

theorem capitals_disjoint : bits capitals &&& bits blanks = 0 := by
  decide +kernel

theorem lowerBetween_blank (before after : List Char) {c : Char} (h : isBlank c = true) :
    lowerBetween before c after = [c] := by
  have other : c ≠ 'İ' ∧ c ≠ 'Σ' := by
    constructor <;> (rintro rfl; exact absurd h (by decide))
  have small : c.toNat ∉ capitals := fun hc =>
    disjoint_of_bits capitals_disjoint hc (mem_blanks.1 h)
  rw [lowerBetween, if_neg other.1, if_neg other.2, lowerChar_eq_self small]

theorem isBlank_lowerBetween (before after : List Char) (c : Char) :
    ∀ d ∈ lowerBetween before c after, isBlank d = isBlank c := by
  intro d hd
  cases h : isBlank c with
  | true =>
    rw [lowerBetween_blank before after h, List.mem_singleton] at hd
    exact hd ▸ h
  | false => exact (lowerBetween_spec before after c d hd).2 h

theorem lowerBetween_ne_nil (before after : List Char) (c : Char) :
    lowerBetween before c after ≠ [] := by
  unfold lowerBetween
  split
  · simp
  · split <;> simp

theorem lowerFrom_eq_nil {before cs : List Char} : lowerFrom before cs = [] ↔ cs = [] := by
  cases cs with
  | nil => simp [lowerFrom]
  | cons c r => simp [lowerFrom, lowerBetween_ne_nil]

theorem head?_lowerFrom (before cs : List Char) :
    (lowerFrom before cs).head?.map isBlank = cs.head?.map isBlank := by
  cases cs with
  | nil => rfl
  | cons c r =>
    have blank := isBlank_lowerBetween before r c
    obtain ⟨d, ds, hd⟩ := List.exists_cons_of_ne_nil (lowerBetween_ne_nil before r c)
    simp [lowerFrom, hd, blank d (by simp [hd])]

theorem getLast?_lowerFrom (before cs : List Char) :
    (lowerFrom before cs).getLast?.map isBlank = cs.getLast?.map isBlank := by
  induction cs generalizing before with
  | nil => rfl
  | cons c r ih =>
    rw [lowerFrom]
    cases r with
    | nil =>
      obtain ⟨ds, d, hd⟩ := List.eq_nil_or_concat (lowerBetween before c []) |>.resolve_left
        (lowerBetween_ne_nil before [] c)
      have blank := isBlank_lowerBetween before [] c d (by simp [hd])
      simp [lowerFrom, hd, blank]
    | cons e s =>
      obtain ⟨d, hd⟩ : ∃ d, (lowerFrom (c :: before) (e :: s)).getLast? = some d :=
        Option.isSome_iff_exists.1 (by simp [lowerFrom_eq_nil])
      rw [List.getLast?_append, hd, Option.some_or, ← hd, ih, List.getLast?_cons_cons]

theorem trimmed_lower {s : String} :
    Chars.Trimmed (lower s).toList ↔ Chars.Trimmed s.toList := by
  have blankless (c? : Option Char) :
      (∀ c ∈ c?, isBlank c = false) ↔ c?.map isBlank ≠ some true := by
    cases c? <;> simp
  rw [Chars.Trimmed, Chars.Trimmed, blankless, blankless, blankless, blankless, lower,
    String.toList_ofList, head?_lowerFrom, getLast?_lowerFrom]

theorem holdsBlank_lower {s : String} (h : holdsBlank s = false) :
    holdsBlank (lower s) = false := by
  simp only [holdsBlank, List.any_eq_false, Bool.not_eq_true] at h ⊢
  intro c hc
  rw [lower, String.toList_ofList] at hc
  exact (mem_lowerFrom hc).2 h

end Sluice.Text
