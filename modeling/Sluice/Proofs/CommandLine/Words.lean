import Mathlib.Data.List.Forall2
import Sluice.Proofs.CommandLine.Commands
import Sluice.Proofs.CommandLine.Keys

/-! What becomes of the words of a command line. A command takes in the word that it starts with and
the words after it, up to the next one that starts with two dashes. When that is no more than the
dashes it starts no command, and it is lost with the words after it, up to the next command. -/

namespace Sluice.CommandLine

open Text (isBlank)

variable {c : Char} {cs rest word name body : List Char} {ws more : List (List Char)} {w : Bool}

def words : List Char → List (List Char)
  | [] => []
  | c :: r =>
    if isBlank c then words r
    else (c :: r.takeWhile isWordChar) :: words (r.dropWhile isWordChar)
termination_by cs => cs.length
decreasing_by
  · simp
  · exact Nat.lt_succ_of_le (length_dropWhile_le isWordChar r)

@[simp] theorem words_nil : words [] = [] := by
  rw [words]

theorem words_blank (h : isBlank c = true) (r : List Char) : words (c :: r) = words r := by
  rw [words, if_pos h]

theorem words_cons (h : isBlank c = false) (r : List Char) :
    words (c :: r) = (c :: r.takeWhile isWordChar) :: words (r.dropWhile isWordChar) := by
  rw [words, if_neg (by simp [h])]

theorem ends_dropWhile (cs : List Char) : Ends (cs.dropWhile isWordChar) := fun c hc => by
  simpa [isWordChar] using Text.Chars.head?_dropWhile isWordChar cs c hc

theorem words_append (ends : Ends rest) (cs : List Char) :
    words (cs ++ rest) = words cs ++ words rest := by
  induction cs using words.induct with
  | case1 => simp
  | case2 c r hc ih => rw [List.cons_append, words_blank hc, words_blank hc, ih]
  | case3 c r hc ih =>
    have hc : isBlank c = false := by simpa using hc
    obtain ⟨htake, hdrop⟩ := run_append ends.not_word r
    rw [List.cons_append, words_cons hc, words_cons hc, htake, hdrop, ih, List.cons_append]

theorem words_blanks (h : ∀ c ∈ cs, isBlank c = true) : words cs = [] := by
  induction cs with
  | nil => exact words_nil
  | cons c r ih =>
    obtain ⟨hc, hr⟩ := List.forall_mem_cons.1 h
    rw [words_blank hc, ih hr]

theorem words_dropBlanks (cs : List Char) : words (Text.Chars.trimStart cs) = words cs := by
  induction cs with
  | nil => rfl
  | cons c r ih =>
    cases hc : isBlank c with
    | true => rw [Text.Chars.trimStart, List.dropWhile_cons_of_pos hc, words_blank hc, ← ih]; rfl
    | false => rw [Text.Chars.trimStart, List.dropWhile_cons_of_neg (by simp [hc])]

theorem words_trim (cs : List Char) : words (Text.Chars.trim cs) = words cs := by
  have blanks : ∀ c ∈ ((Text.Chars.trimStart cs).reverse.takeWhile isBlank).reverse,
      isBlank c = true := fun c hc => List.mem_takeWhile_imp (List.mem_reverse.1 hc)
  have parts : Text.Chars.trim cs ++
      ((Text.Chars.trimStart cs).reverse.takeWhile isBlank).reverse = Text.Chars.trimStart cs := by
    rw [Text.Chars.trim, Text.Chars.trimEnd, ← List.reverse_append,
      List.takeWhile_append_dropWhile, List.reverse_reverse]
  have ends : Ends ((Text.Chars.trimStart cs).reverse.takeWhile isBlank).reverse := fun c hc =>
    blanks c (List.mem_of_mem_head? hc)
  have := words_append ends (Text.Chars.trim cs)
  rw [parts, words_blanks blanks, List.append_nil, words_dropBlanks] at this
  exact this.symm

theorem dashless_of_calm (calm : Calm cs) (start : startsDashes cs = false) :
    ∀ word ∈ words cs, startsDashes word = false := by
  induction cs using words.induct with
  | case1 => simp
  | case2 c r hc ih =>
    rw [words_blank hc]
    exact ih calm.2 (calm.1 hc)
  | case3 c r hc ih =>
    have hc : isBlank c = false := by simpa using hc
    have parts := List.takeWhile_append_dropWhile (p := isWordChar) (l := r)
    rw [words_cons hc]
    refine List.forall_mem_cons.2 ⟨startsDashes_of_isPrefix start ?_, ih ?_ ?_⟩
    · exact List.cons_prefix_cons.2 ⟨rfl, List.takeWhile_prefix _⟩
    · exact (parts.symm ▸ calm.2 : Calm (r.takeWhile isWordChar ++ r.dropWhile isWordChar)).tail
    · exact startsDashes_of_ends (ends_dropWhile r)

def bareDashes : List Char :=
  ['-', '-']

def startsCommand (word : List Char) : Bool :=
  startsDashes word && word != bareDashes

/-- The words that commands take in. `within` tells that a command goes on. -/
def takenIn (within : Bool) : List (List Char) → List (List Char)
  | [] => []
  | word :: r =>
    if startsCommand word then word :: takenIn true r
    else if startsDashes word then takenIn false r
    else if within then word :: takenIn true r
    else takenIn false r

def fromFirst (ws : List (List Char)) : List (List Char) :=
  ws.dropWhile fun word => !startsCommand word

theorem takenIn_dashless (h : ∀ word ∈ ws, startsDashes word = false) (more : List (List Char)) :
    takenIn true (ws ++ more) = ws ++ takenIn true more := by
  induction ws with
  | nil => rfl
  | cons word r ih =>
    obtain ⟨hword, hr⟩ := List.forall_mem_cons.1 h
    simp [takenIn, startsCommand, hword, ih hr]

theorem takenIn_of_dashes (h : ∀ word ∈ ws.head?, startsDashes word = true) (w : Bool) :
    takenIn w ws = takenIn false ws := by
  cases ws with
  | nil => rfl
  | cons word r => simp [takenIn, h word rfl]

theorem takenIn_fromFirst (ws : List (List Char)) :
    takenIn false ws = takenIn false (fromFirst ws) := by
  induction ws with
  | nil => rfl
  | cons word r ih =>
    cases hword : startsCommand word with
    | true => rw [fromFirst, List.dropWhile_cons_of_neg (by simp [hword])]
    | false =>
      rw [fromFirst, List.dropWhile_cons_of_pos (by simp [hword]), ← fromFirst, ← ih]
      simp [takenIn, hword]

theorem bare_not_mem_takenIn (w : Bool) (ws : List (List Char)) : bareDashes ∉ takenIn w ws := by
  induction ws generalizing w with
  | nil => simp [takenIn]
  | cons word r ih =>
    rw [takenIn]
    have hne (h : startsCommand word = true ∨ startsDashes word = false) : bareDashes ≠ word := by
      rintro rfl
      exact absurd h (by decide)
    split
    · rename_i h
      simp [hne (.inl h), ih]
    · split
      · exact ih false
      · rename_i h
        split
        · simp [hne (.inr (by simpa using h)), ih]
        · exact ih false

theorem takenIn_eq_self (h : bareDashes ∉ ws) : takenIn true ws = ws := by
  induction ws with
  | nil => rfl
  | cons word r ih =>
    obtain ⟨hword, hr⟩ := not_or.1 (List.mem_cons.not.1 h)
    have hbare : (word != bareDashes) = true := by simpa using Ne.symm hword
    cases hd : startsDashes word <;> simp [takenIn, startsCommand, hbare, hd, ih hr]

theorem takenIn_eq_fromFirst_iff (ws : List (List Char)) :
    takenIn false ws = fromFirst ws ↔ bareDashes ∉ fromFirst ws := by
  constructor
  · intro h
    rw [← h]
    exact bare_not_mem_takenIn false ws
  · intro h
    have start : ∀ word ∈ (fromFirst ws).head?, startsDashes word = true := by
      intro word hword
      have first := List.head?_dropWhile_not (fun word => !startsCommand word) ws
      rw [← fromFirst, hword] at first
      simp only [startsCommand, Bool.not_eq_false', Bool.and_eq_true] at first
      exact first.1
    rw [takenIn_fromFirst, ← takenIn_of_dashes start true, takenIn_eq_self h]

theorem words_dashes (y : List Char) : words ('-' :: '-' :: y) =
    ('-' :: '-' :: y.takeWhile isWordChar) :: words (y.dropWhile isWordChar) := by
  rw [words_cons (by decide)]
  rfl

def sectionWords (e : List Char × List Char) : List (List Char) :=
  ('-' :: '-' :: e.1) :: words e.2

theorem startsCommand_word (c : Char) (r : List Char) :
    startsCommand (c :: r.takeWhile isWordChar) =
      (startsDashes (c :: r) && !(r.tail.takeWhile isWordChar).isEmpty) := by
  cases r with
  | nil => simp [startsCommand, startsDashes]
  | cons d y =>
    by_cases hd : d = '-'
    · subst hd
      have hword : isWordChar '-' = true := by decide
      rw [List.takeWhile_cons_of_pos hword, startsCommand, startsDashes_cons_cons,
        startsDashes_cons_cons, bareDashes, List.tail_cons]
      by_cases hc : c = '-' <;> cases y.takeWhile isWordChar <;> simp [hc]
    · have hnone : startsDashes (c :: (d :: y).takeWhile isWordChar) = false := by
        cases hword : isWordChar d with
        | true => simp [hword, startsDashes_cons_cons, hd]
        | false => simp [hword, startsDashes]
      simp [startsCommand, hnone, startsDashes_cons_cons, hd]

theorem upToDashes_rest (cs : List Char) : (upToDashes cs).2 = [] ∨
    ∃ c y, (upToDashes cs).2 = c :: '-' :: '-' :: y ∧ isBlank c = true := by
  induction cs with
  | nil => exact .inl rfl
  | cons c r ih =>
    rw [upToDashes]
    split
    · rename_i h
      obtain ⟨hc, hr⟩ := Bool.and_eq_true_iff.1 h
      obtain ⟨y, rfl⟩ := startsDashes_iff.1 hr
      exact .inr ⟨c, y, rfl, hc⟩
    · exact ih

theorem takenIn_section (ends : Ends cs) : takenIn true (words cs) =
    words (upToDashes cs).1 ++ takenIn false (words (upToDashes cs).2) := by
  have parts := upToDashes_append cs
  have start : startsDashes (upToDashes cs).1 = false :=
    startsDashes_of_isPrefix (startsDashes_of_ends ends) ⟨_, parts⟩
  have dashless := dashless_of_calm (calm_upToDashes cs) start
  rcases upToDashes_rest cs with hrest | ⟨c, y, hrest, hc⟩
  · rw [hrest, List.append_nil] at parts
    have all := takenIn_dashless dashless []
    rw [List.append_nil, parts] at all
    rw [all, hrest, parts, words_nil]
    rfl
  · rw [hrest] at parts ⊢
    have whole : words cs = words (upToDashes cs).1 ++ words (c :: '-' :: '-' :: y) := by
      rw [← words_append (ends_cons hc _), parts]
    have next : words (c :: '-' :: '-' :: y) =
        ('-' :: '-' :: y.takeWhile isWordChar) :: words (y.dropWhile isWordChar) := by
      rw [words_blank hc, words_dashes]
    rw [whole, takenIn_dashless dashless, takenIn_of_dashes (by simp [next, startsDashes])]

theorem flatMap_split (w : Bool) (cs : List Char) : (split w cs).flatMap sectionWords =
    takenIn false (words (if w then cs else cs.dropWhile isWordChar)) := by
  induction w, cs using split.induct with
  | case1 w => cases w <;> simp [split, takenIn]
  | case2 w c r hit body ih =>
    rw [split, if_pos hit, List.flatMap_cons]
    simp only [Bool.and_eq_true, Bool.not_eq_true', List.isEmpty_eq_false_iff] at hit
    obtain ⟨⟨rfl, dashes⟩, hname⟩ := hit
    obtain ⟨y, hy⟩ := startsDashes_iff.1 dashes
    obtain ⟨rfl, rfl⟩ := List.cons.inj hy
    have command : startsCommand ('-' :: '-' :: y.takeWhile isWordChar) = true := by
      simpa [startsCommand, startsDashes, bareDashes] using hname
    have rest : body.2.dropWhile isWordChar = body.2 := by
      refine Text.Chars.dropWhile_eq_self fun d hd => ?_
      rcases upToDashes_rest (y.dropWhile isWordChar) with hrest | ⟨c, z, hrest, hc⟩
      · exact absurd hd (by simp [body, hrest])
      · obtain rfl : c = d := by simpa [body, hrest] using hd
        simp [isWordChar, hc]
    rw [ih, if_neg (by simp), rest, if_pos rfl, words_dashes, takenIn, if_pos command,
      takenIn_section (ends_dropWhile y)]
    rfl
  | case3 w c r miss ih =>
    rw [split, if_neg miss, ih]
    cases hc : isBlank c with
    | true =>
      have : (c :: r).dropWhile isWordChar = c :: r := by simp [isWordChar, hc]
      rw [if_pos rfl, this, ite_self, words_blank hc]
    | false =>
      rw [if_neg (by simp)]
      cases w with
      | false => simp [isWordChar, hc]
      | true =>
        -- the word is no task word, so that nothing is taken in with it
        have word : startsCommand (c :: r.takeWhile isWordChar) = false := by
          rw [startsCommand_word]
          simpa using miss
        rw [if_pos rfl, words_cons hc, takenIn, if_neg (by simp [word])]
        simp

theorem name_ne_nil_of_split {e : List Char × List Char} (h : e ∈ split w cs) : e.1 ≠ [] := by
  induction w, cs using split.induct with
  | case1 w => simp [split] at h
  | case2 w c r hit body ih =>
    rw [split, if_pos hit] at h
    rcases List.mem_cons.1 h with rfl | h
    · simp only [Bool.and_eq_true, Bool.not_eq_true', List.isEmpty_eq_false_iff] at hit
      exact hit.2
    · exact ih h
  | case3 w c r miss ih =>
    rw [split, if_neg miss] at h
    exact ih h

/-- The command has the name of the first word, in lower case, and the other words in its text; none
of these starts with two dashes. -/
def Tells (group : List (List Char)) (c : Command) : Prop :=
  ∃ name, name ≠ [] ∧ group = ('-' :: '-' :: name) :: words c.text.toList ∧
    c.name = Text.lower (String.ofList name) ∧
      ∀ word ∈ words c.text.toList, startsDashes word = false

theorem tells_ofParts {e : List Char × List Char} (h : e ∈ split w cs) :
    Tells (sectionWords e) (Command.ofParts e.1 e.2) := by
  have same : words (Command.ofParts e.1 e.2).text.toList = words e.2 := by
    rw [Command.ofParts, String.toList_ofList, words_trim]
  have calm : Calm (' ' :: e.2) := calm_of_split h
  refine ⟨e.1, name_ne_nil_of_split h, by rw [same, sectionWords], rfl, ?_⟩
  rw [same]
  exact dashless_of_calm calm.2 (calm.1 (by decide))

def lineWords (marker text : String) : List (List Char) :=
  words (normalChars marker.toList text.toList)

/-- No word is lost from the first command on. The words fall into groups, one for each command that
is read, unless one of them is two dashes alone; such a word is lost, and those up to the next
command with it. All is read unless a slot has too many digits. -/
theorem tells_words (marker text : String) :
    (∀ cs, CommandLine.read marker text = .ok cs → ∃ groups, List.Forall₂ Tells groups cs ∧
      groups.flatten = takenIn false (lineWords marker text) ∧
      (groups.flatten = fromFirst (lineWords marker text) ↔
        bareDashes ∉ fromFirst (lineWords marker text))) ∧
    ((∃ cs, CommandLine.read marker text = .ok cs) ↔
      ∀ c ∈ commands marker text, ∀ t ∈ tokens c.text, ∀ key ∈ t.key, ∀ side digits,
        PipeKey side key.toList digits → digits.length ≤ Text.digitLimit) := by
  refine ⟨fun cs read => ⟨(sections marker text).map sectionWords, ?_, ?_⟩, exists_read_iff⟩
  · rw [commands_of_read read, commands, List.forall₂_map_left_iff, List.forall₂_map_right_iff,
      List.forall₂_same]
    exact fun e he => tells_ofParts he
  · have taken : ((sections marker text).map sectionWords).flatten =
        takenIn false (lineWords marker text) := by
      rw [← List.flatMap_def]
      exact flatMap_split true _
    rw [taken]
    exact ⟨rfl, takenIn_eq_fromFirst_iff _⟩

theorem dashes_in_words_told : ∃ cs groups,
    CommandLine.read "\\" "run --Rx a--b \\\n---c=d -e\t--wx" = .ok cs ∧
      List.Forall₂ Tells groups cs ∧ groups.flatten =
        ["--Rx".toList, "a--b".toList, "---c=d".toList, "-e".toList, "--wx".toList] := by
  have first : fromFirst (lineWords "\\" "run --Rx a--b \\\n---c=d -e\t--wx") =
      ["--Rx".toList, "a--b".toList, "---c=d".toList, "-e".toList, "--wx".toList] := by
    decide +kernel
  have short : overlong? "\\" "run --Rx a--b \\\n---c=d -e\t--wx" = none := by decide +kernel
  have read : CommandLine.read "\\" "run --Rx a--b \\\n---c=d -e\t--wx" =
      .ok (commands "\\" "run --Rx a--b \\\n---c=d -e\t--wx") := by
    rw [CommandLine.read, short]
    rfl
  obtain ⟨groups, told, _, whole⟩ := (tells_words "\\" "run --Rx a--b \\\n---c=d -e\t--wx").1 _ read
  rw [first] at whole
  exact ⟨_, groups, read, told, whole.2 (by decide)⟩

theorem length_told {groups : List (List (List Char))} {cs : List Command}
    (h : List.Forall₂ Tells groups cs) :
    groups.flatten.length = (cs.map fun c => (words c.text.toList).length + 1).sum := by
  induction h with
  | nil => rfl
  | cons first _ ih =>
    obtain ⟨name, _, rfl, _⟩ := first
    rw [List.flatten_cons, List.length_append, ih, List.map_cons, List.sum_cons]
    rfl

theorem bare_dashes_lose : ∃ cs, CommandLine.read "\\" "--rx a -- b --wx c" = .ok cs ∧
    cs.map (fun c => (c.name, c.text)) = [("rx", "a"), ("wx", "c")] ∧
    fromFirst (lineWords "\\" "--rx a -- b --wx c") =
      ["--rx".toList, ['a'], bareDashes, ['b'], "--wx".toList, ['c']] ∧
    ¬∃ groups, List.Forall₂ Tells groups cs ∧
      groups.flatten = fromFirst (lineWords "\\" "--rx a -- b --wx c") := by
  have short : overlong? "\\" "--rx a -- b --wx c" = none := by decide +kernel
  have first : fromFirst (lineWords "\\" "--rx a -- b --wx c") =
      ["--rx".toList, ['a'], bareDashes, ['b'], "--wx".toList, ['c']] := by decide +kernel
  have count : ((commands "\\" "--rx a -- b --wx c").map fun c =>
      (words c.text.toList).length + 1).sum = 4 := by decide +kernel
  refine ⟨commands "\\" "--rx a -- b --wx c", ?_, by decide +kernel, first, ?_⟩
  · rw [CommandLine.read, short]
    rfl
  · rintro ⟨groups, told, whole⟩
    have := length_told told
    rw [whole, first, count] at this
    simp at this

end Sluice.CommandLine
