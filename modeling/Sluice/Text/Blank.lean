/-! Blank characters and the trimming of texts.

A character is blank when the Unicode standard lets it separate words or ends a line with it.
Words of a command line are the runs between blanks, and a value loses the blanks around it. -/

namespace Sluice.Text

/-- What holds of the characters of a text is decided by going through the text, not through all
characters there are. -/
instance (priority := high) decidableForallMem (p : Char → Prop) [DecidablePred p]
    (cs : List Char) : Decidable (∀ c ∈ cs, p c) :=
  List.decidableBAll p cs

instance (priority := high) decidableForallMemOption (p : Char → Prop) [DecidablePred p]
    (c? : Option Char) : Decidable (∀ c ∈ c?, p c) :=
  c?.decidableForallMem

def blankRanges : List (Nat × Nat) :=
  [(0x9, 0xd), (0x1c, 0x20), (0x85, 0x85), (0xa0, 0xa0), (0x1680, 0x1680), (0x2000, 0x200a),
    (0x2028, 0x2029), (0x202f, 0x202f), (0x205f, 0x205f), (0x3000, 0x3000)]

def inRanges (ranges : List (Nat × Nat)) (n : Nat) : Bool :=
  ranges.any fun (low, high) => low ≤ n && n ≤ high

def isBlank (c : Char) : Bool :=
  inRanges blankRanges c.toNat

namespace Chars

def trimStart (cs : List Char) : List Char :=
  cs.dropWhile isBlank

def trimEnd (cs : List Char) : List Char :=
  (cs.reverse.dropWhile isBlank).reverse

def trim (cs : List Char) : List Char :=
  trimEnd (trimStart cs)

def Trimmed (cs : List Char) : Prop :=
  (∀ c ∈ cs.head?, isBlank c = false) ∧ ∀ c ∈ cs.getLast?, isBlank c = false

theorem dropWhile_eq_self {p : Char → Bool} {cs : List Char} (h : ∀ c ∈ cs.head?, p c = false) :
    cs.dropWhile p = cs := by
  cases cs with
  | nil => rfl
  | cons c r => simp [h c (by simp)]

theorem trim_eq_self {cs : List Char} (h : Trimmed cs) : trim cs = cs := by
  have hs : trimStart cs = cs := dropWhile_eq_self h.1
  have he : trimEnd cs = cs := by
    unfold trimEnd
    rw [dropWhile_eq_self (by simpa using h.2), List.reverse_reverse]
  rw [trim, hs, he]

theorem head?_dropWhile (p : Char → Bool) (cs : List Char) :
    ∀ c ∈ (cs.dropWhile p).head?, p c = false := by
  induction cs with
  | nil => simp
  | cons c r ih =>
    by_cases h : p c = true
    · simpa [List.dropWhile_cons, h] using ih
    · simp [h]

theorem trimEnd_eq (cs : List Char) : ∃ blanks, cs = trimEnd cs ++ blanks := by
  refine ⟨(cs.reverse.takeWhile isBlank).reverse, ?_⟩
  rw [trimEnd, ← List.reverse_append, List.takeWhile_append_dropWhile, List.reverse_reverse]

theorem trimmed_trim (cs : List Char) : Trimmed (trim cs) := by
  refine ⟨fun c hc => ?_, fun c hc => ?_⟩
  · obtain ⟨blanks, h⟩ := trimEnd_eq (trimStart cs)
    refine head?_dropWhile isBlank cs c ?_
    rw [← trimStart, h]
    cases ht : trimEnd (trimStart cs) with
    | nil => simp [trim, ht] at hc
    | cons d r => simpa [trim, ht] using hc
  · have := head?_dropWhile isBlank (trimStart cs).reverse c
    simp only [trim, trimEnd, List.getLast?_reverse] at hc
    exact this hc

@[simp] theorem trim_trim (cs : List Char) : trim (trim cs) = trim cs :=
  trim_eq_self (trimmed_trim cs)

end Chars

def trim (s : String) : String :=
  String.ofList (Chars.trim s.toList)

def isVoid (s : String) : Bool :=
  s.toList.all isBlank

def holdsBlank (s : String) : Bool :=
  s.toList.any isBlank

theorem trim_eq_self {s : String} (h : Chars.Trimmed s.toList) : trim s = s := by
  rw [trim, Chars.trim_eq_self h, String.ofList_toList]

theorem trim_of_nonblank {s : String} (h : holdsBlank s = false) : trim s = s := by
  have nonblank : ∀ c ∈ s.toList, isBlank c = false := by simpa [holdsBlank] using h
  exact trim_eq_self ⟨fun c hc => nonblank c (List.mem_of_mem_head? hc),
    fun c hc => nonblank c (List.mem_of_getLast? hc)⟩

@[simp] theorem trim_trim (s : String) : trim (trim s) = trim s := by
  simp [trim]

end Sluice.Text
