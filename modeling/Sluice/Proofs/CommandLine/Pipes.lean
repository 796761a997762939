import Mathlib.Data.List.TakeWhile
import Sluice.CommandLine.Command
import Sluice.Proofs.Text.Numeral

/-! Pipe keys read back, and texts that mention no pipe. -/

namespace Sluice.CommandLine

variable {c : Char} {cs r word : List Char}

theorem afterWord?_append (h : afterWord? word cs = some r) (y : List Char) :
    afterWord? word (cs ++ y) = some (r ++ y) := by
  induction word generalizing cs with
  | nil =>
    simp only [afterWord?, Option.some.injEq] at h
    simp [afterWord?, h]
  | cons w ws ih =>
    cases cs with
    | nil => simp [afterWord?] at h
    | cons d ds =>
      by_cases hd : isLetter w d = true
      · simp only [afterWord?, hd, if_true, List.cons_append] at h ⊢
        exact ih h
      · simp [afterWord?, hd] at h

theorem afterWord?_append_cons (h : ∀ w ∈ word, isLetter w c = false) (cs y : List Char) :
    afterWord? word (cs ++ c :: y) = (afterWord? word cs).map (· ++ c :: y) := by
  induction word generalizing cs with
  | nil => simp [afterWord?]
  | cons w ws ih =>
    cases cs with
    | nil => simp [afterWord?, h w (by simp)]
    | cons d ds =>
      by_cases hd : isLetter w d = true
      · simp [afterWord?, hd, ih fun v hv => h v (by simp [hv])]
      · simp [afterWord?, hd]

theorem afterWord?_in_out (h : afterWord? "out".toList cs = some r) :
    afterWord? "in".toList cs = none := by
  cases cs with
  | nil => rfl
  | cons c cs =>
    have hc : c.toLower = 'o' := by
      by_cases ho : isLetter 'o' c = true
      · simpa [isLetter] using ho
      · have : "out".toList = ['o', 'u', 't'] := rfl
        simp [this, afterWord?, ho] at h
    have hi : isLetter 'i' c = false := by
      have hne : c ≠ 'İ' ∧ c ≠ 'ı' := by
        constructor <;> rintro rfl <;> exact absurd hc (by decide)
      simp [isLetter, hc, hne]
    have : "in".toList = ['i', 'n'] := rfl
    simp [this, afterWord?, hi]

theorem startsPipe_eq (cs : List Char) : startsPipe cs =
    (((afterWord? "in".toList cs).or (afterWord? "out".toList cs)).bind
      (afterWord? "pipe".toList)).isSome := by
  unfold startsPipe side?
  cases afterWord? "in".toList cs with
  | some r => simp
  | none => cases afterWord? "out".toList cs <;> simp

theorem startsPipe_append (h : startsPipe cs = true) (y : List Char) :
    startsPipe (cs ++ y) = true := by
  rw [startsPipe_eq] at h ⊢
  cases hi : afterWord? "in".toList cs with
  | some r =>
    rw [hi, Option.some_or, Option.bind_some] at h
    obtain ⟨rest, hrest⟩ := Option.isSome_iff_exists.1 h
    rw [afterWord?_append hi, Option.some_or, Option.bind_some, afterWord?_append hrest]
    rfl
  | none =>
    rw [hi, Option.none_or] at h
    cases ho : afterWord? "out".toList cs with
    | none =>
      rw [ho] at h
      cases h
    | some r =>
      rw [ho, Option.bind_some] at h
      obtain ⟨rest, hrest⟩ := Option.isSome_iff_exists.1 h
      have ho' := afterWord?_append ho y
      rw [afterWord?_in_out ho', ho', Option.none_or, Option.bind_some, afterWord?_append hrest]
      rfl

theorem startsPipe_append_space (cs y : List Char) :
    startsPipe (cs ++ ' ' :: y) = startsPipe cs := by
  have hin := afterWord?_append_cons (show ∀ w ∈ "in".toList, isLetter w ' ' = false by decide) cs y
  have hout :=
    afterWord?_append_cons (show ∀ w ∈ "out".toList, isLetter w ' ' = false by decide) cs y
  have hpipe := fun r =>
    afterWord?_append_cons (show ∀ w ∈ "pipe".toList, isLetter w ' ' = false by decide) r y
  rw [startsPipe_eq, startsPipe_eq, hin, hout]
  cases afterWord? "in".toList cs with
  | some r =>
    rw [Option.map_some, Option.some_or, Option.some_or, Option.bind_some, Option.bind_some, hpipe,
      Option.isSome_map]
  | none =>
    cases afterWord? "out".toList cs with
    | none => rfl
    | some r =>
      rw [Option.map_none, Option.map_some, Option.none_or, Option.none_or, Option.bind_some,
        Option.bind_some, hpipe, Option.isSome_map]

def Pipeless (cs : List Char) : Prop :=
  ∀ before after, cs = before ++ after → startsPipe after = false

theorem Pipeless.cons (h : Pipeless (c :: r)) : startsPipe (c :: r) = false ∧ Pipeless r :=
  ⟨h [] (c :: r) rfl, fun before after hr => h (c :: before) after (by rw [hr, List.cons_append])⟩

theorem Pipeless.beforePipe_eq (h : Pipeless cs) : beforePipe cs = cs := by
  induction cs with
  | nil => rfl
  | cons c r ih =>
    obtain ⟨hc, hr⟩ := h.cons
    rw [beforePipe, if_neg (by simp [hc]), ih hr]

theorem beforePipe_append (h : Pipeless cs) (hr : startsPipe (c :: r) = true) :
    beforePipe (cs ++ ' ' :: c :: r) = cs ++ [' '] := by
  have hspace : beforePipe (' ' :: c :: r) = [' '] := by
    have : startsPipe (' ' :: c :: r) = startsPipe [] := startsPipe_append_space [] (c :: r)
    rw [beforePipe, this, beforePipe, hr]
    rfl
  induction cs with
  | nil => exact hspace
  | cons d ds ih =>
    obtain ⟨hd, hds⟩ := h.cons
    rw [List.cons_append, beforePipe, ← List.cons_append, startsPipe_append_space, hd, ih hds]
    rfl

theorem startsPipe_of_slotDigits? {found : Side × List Char} (h : slotDigits? cs = some found) :
    startsPipe cs = true := by
  unfold slotDigits? at h
  unfold startsPipe
  cases hs : side? cs with
  | none => simp [hs] at h
  | some pair =>
    obtain ⟨side, r⟩ := pair
    cases hp : afterWord? "pipe".toList r with
    | none =>
      rw [hs] at h
      simp only [Option.bind_eq_bind, Option.bind_some, hp, Option.bind_none] at h
      cases h
    | some rest =>
      change (afterWord? "pipe".toList r).isSome = true
      rw [hp]
      rfl

theorem Pipeless.slotDigits? {a key b : List Char} (h : Pipeless (a ++ key ++ b)) :
    slotDigits? key = none := by
  cases hk : CommandLine.slotDigits? key with
  | none => rfl
  | some found =>
    have := h a (key ++ b) (List.append_assoc _ _ _)
    rw [startsPipe_append (startsPipe_of_slotDigits? hk)] at this
    cases this

theorem readPipeKey_eq_none {key : String} :
    readPipeKey key = .ok none ↔ overlongSlot? key = none ∧ pipeKey? key = none := by
  unfold readPipeKey
  cases overlongSlot? key <;> simp [pure, Except.pure, throw, throwThe, MonadExceptOf.throw]

theorem readPipeKey_of_slotDigits? {key : String} (h : slotDigits? key.toList = none) :
    readPipeKey key = .ok none := by
  rw [readPipeKey_eq_none, overlongSlot?, pipeKey?, h]
  exact ⟨rfl, rfl⟩

def pipeKeyOf (side : Side) (slot : Nat) : String :=
  (match side with
    | .input => "inPipe."
    | .output => "outPipe.") ++ toString slot

theorem slotDigits?_digits {digits : List Char} (h : ∀ c ∈ digits, Text.isDigit c = true) :
    slotDigits? ("inPipe.".toList ++ digits) = some (.input, digits) ∧
      slotDigits? ("outPipe.".toList ++ digits) = some (.output, digits) := by
  have htake := List.takeWhile_eq_self_iff.2 h
  have hdrop := List.dropWhile_eq_nil_iff.2 h
  constructor <;>
    simp [slotDigits?, side?, afterWord?, isLetter, hdrop, htake, -List.dropWhile_eq_nil_iff]

theorem overlongSlot?_digits {digits : List Char} (h : ∀ c ∈ digits, Text.isDigit c = true)
    (long : Text.digitLimit < digits.length) :
    overlongSlot? (String.ofList ("inPipe.".toList ++ digits)) = some ⟨digits.length⟩ := by
  rw [overlongSlot?, String.toList_ofList, (slotDigits?_digits h).1]
  exact if_pos long

theorem slotDigits?_pipeKeyOf (side : Side) (slot : Nat) :
    slotDigits? (pipeKeyOf side slot).toList = some (side, Nat.toDigits 10 slot) := by
  obtain ⟨input, output⟩ := slotDigits?_digits fun c (hc : c ∈ Nat.toDigits 10 slot) =>
    Text.isDigit_of_mem_toDigits hc
  cases side with
  | input => simpa [pipeKeyOf] using input
  | output => simpa [pipeKeyOf] using output

theorem pipeKey?_pipeKeyOf (side : Side) (slot : Nat) :
    pipeKey? (pipeKeyOf side slot) = some (side, slot) := by
  simp [pipeKey?, slotDigits?_pipeKeyOf, Text.digitsValue?_toDigits]

theorem overlongSlot?_pipeKeyOf (side : Side) {slot : Nat}
    (h : Text.Readable slot) :
    overlongSlot? (pipeKeyOf side slot) = none := by
  simpa [overlongSlot?, slotDigits?_pipeKeyOf, Text.Readable] using h

end Sluice.CommandLine
