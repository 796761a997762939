import Mathlib.Data.List.Forall2
import Sluice.Proofs.CommandLine.Joined
import Sluice.Proofs.CommandLine.Pipes
import Sluice.Proofs.CommandLine.Scan

/-! Command lines put together. Sections that are written one after the other are found again, with
or without a lead before them, whether the separator of a dialect or blanks stand between them. -/

namespace Sluice.CommandLine

variable {m : Char} {ms cs y gap name body text : List Char} {d : Dialect}
  {parts : List (List Char × List Char)} {blocks lead : List (List Char)}

/-- The ways to write a section: its text comes after a space, which may be left out if the text is
empty. -/
inductive Spells : List Char × List Char → List Char → Prop
  | text (name body : List Char) : Spells (name, body) ('-' :: '-' :: name ++ ' ' :: body)
  | bare (name : List Char) : Spells (name, []) ('-' :: '-' :: name)

theorem Spells.startsDashes {e : List Char × List Char} (h : Spells e cs) :
    startsDashes cs = true := by
  cases h <;> rfl

theorem Spells.exists_ending (h : Spells (name, body) cs) (proper : IsSection name body) :
    ∃ ending, cs = '-' :: '-' :: name ++ ending ∧ Calm ending ∧ Ends ending ∧
      ∀ padding, (∀ c ∈ padding, Text.isBlank c = true) →
        Text.Chars.trim (ending ++ padding) = body := by
  have space : Text.isBlank ' ' = true := by decide
  cases h with
  | text =>
    exact ⟨' ' :: body, rfl, ⟨fun _ => proper.dashless, proper.calm⟩, ends_cons space body,
      fun padding => trim_padding [' '] padding proper.trimmed (by decide)⟩
  | bare =>
    exact ⟨[], (List.append_nil _).symm, trivial, ends_nil,
      fun padding => trim_padding [] padding proper.trimmed (by simp)⟩

theorem Joined.startsDashes {Gap : List Char → Prop} {next : List (List Char)}
    (h : Joined Gap (cs :: next) text) (hcs : startsDashes cs = true) :
    startsDashes text = true := by
  obtain ⟨rest, rfl, _⟩ := h.exists_rest
  obtain ⟨y, rfl⟩ := startsDashes_iff.1 hcs
  rfl

theorem split_spelled (written : List.Forall₂ Spells parts blocks)
    (proper : ∀ e ∈ parts, IsSection e.1 e.2) (joined : Joined Blanks blocks text) :
    (split true text).map (fun e => (e.1, Text.Chars.trim e.2)) = parts := by
  induction joined generalizing parts with
  | nil =>
    cases written
    rw [split]
    rfl
  | single block =>
    obtain _ | @⟨⟨name, body⟩, _, _, _, first, none⟩ := written
    cases none
    have hfirst : IsSection name body := proper _ List.mem_cons_self
    obtain ⟨ending, rfl, calm, ends, trimmed⟩ := first.exists_ending hfirst
    have htext := trimmed [] (by simp)
    rw [List.append_nil] at htext
    rw [split_section_end hfirst.name_ne_nil hfirst.name calm ends, List.map_singleton, htext]
  | @cons block gap next tail others blanks rest ih =>
    obtain _ | @⟨⟨name, body⟩, _, es, _, first, later⟩ := written
    have hfirst : IsSection name body := proper _ List.mem_cons_self
    have found := ih later fun e he => proper e (List.mem_cons_of_mem _ he)
    -- the next section starts with dashes, and the text of this one ends before them
    have dashes : startsDashes tail = true := by
      cases later with
      | cons second _ => exact rest.startsDashes second.startsDashes
    obtain ⟨y, rfl⟩ := startsDashes_iff.1 dashes
    obtain ⟨ending, rfl, calm, ends, trimmed⟩ := first.exists_ending hfirst
    obtain ⟨padding, hpadding, same⟩ :=
      split_section hfirst.name_ne_nil hfirst.name calm ends blanks y
    rw [same, List.map_cons, trimmed padding hpadding, found]

/-- What may stand between two sections: the separator of the dialect, or blanks without a line
feed. -/
inductive Separates (d : Dialect) : List Char → Prop
  | separator : Separates d d.separator.toList
  | blanks {gap : List Char} : Blanks gap → '\n' ∉ gap → Separates d gap

theorem unbreak_blanks (marker : IsMarker m ms) (h : ∀ c ∈ gap, Text.isBlank c = true)
    (y : List Char) : unbreak m ms true (gap ++ y) = gap ++ unbreak m ms true y := by
  induction gap with
  | nil => rfl
  | cons c r ih =>
    obtain ⟨hc, hr⟩ := List.forall_mem_cons.1 h
    have hne : m ≠ c := (List.ne_of_not_mem_cons (marker.not_mem hc)).symm
    rw [List.cons_append, unbreak_skip hne, hc, ih hr]
    rfl

theorem afterLineEnd?_gap (nofeed : '\n' ∉ gap) (dashes : startsDashes y = true) :
    afterLineEnd? (gap ++ y) = none := by
  obtain ⟨y, rfl⟩ := startsDashes_iff.1 dashes
  rw [afterLineEnd?_append rfl, Option.map_eq_none_iff]
  cases hgap : afterLineEnd? gap with
  | none => rfl
  | some next =>
    obtain ⟨a, rfl⟩ := afterLineEnd?_eq hgap
    simp at nofeed

theorem unbreak_gap (marker : IsMarker m ms) (blanks : Blanks gap) (nofeed : '\n' ∉ gap)
    (dashes : startsDashes y = true) (cs : List Char) : unbreak m ms true (cs ++ gap ++ y) =
      unbreak m ms true cs ++ gap ++ unbreak m ms true y := by
  have hline := afterLineEnd?_gap nofeed dashes
  obtain ⟨c, r, rfl⟩ := List.exists_cons_of_ne_nil blanks.ne_nil
  obtain ⟨hc, hr⟩ := List.forall_mem_cons.1 blanks.blank
  rw [List.cons_append] at hline
  rw [List.append_assoc, List.cons_append,
    unbreak_append (marker.blank m List.mem_cons_self) (marker.not_mem hc) hline true cs (.inl hc),
    hc, unbreak_blanks marker hr]
  simp

theorem unbreak_joined (hd : d ∈ Dialect.all) (hm : d.marker.toList = m :: ms)
    (marker : IsMarker m ms) {parts : List (List Char)} (joined : Joined (Separates d) parts text)
    (dashes : ∀ part ∈ parts.tail, startsDashes part = true) :
    Joined Blanks (parts.map (unbreak m ms true)) (unbreak m ms true text) := by
  induction joined with
  | nil =>
    rw [unbreak_nil]
    exact .nil
  | single part => exact .single _
  | @cons part gap next tail others separates rest ih =>
    have htail := rest.startsDashes (dashes next List.mem_cons_self)
    have rest := ih fun p hp => dashes p (List.mem_cons_of_mem _ hp)
    cases separates with
    | separator =>
      -- the marker in the separator ends a line, and becomes a second space
      have spaces : Blanks [' ', ' '] := ⟨by decide, by decide⟩
      have flat := Joined.cons (unbreak m ms true part) spaces rest
      rw [List.append_assoc] at flat
      rw [toList_separator hm, unbreak_separator marker (afterLineEnd?_lineEnd hd)]
      exact flat
    | blanks blanks nofeed =>
      rw [unbreak_gap marker blanks nofeed htail]
      exact .cons _ blanks rest

theorem Spells.unbroken (marker : IsMarker m ms) (h : Spells (name, body) cs)
    (proper : IsSection name body) (unmarked : Unmarked (m :: ms) body) :
    Unbroken m ms true cs := by
  have hdash : Text.isBlank '-' = false := by decide
  have hname : Unbroken m ms true ('-' :: '-' :: name) :=
    unbroken_of_nonblank marker
      (List.forall_mem_cons.2 ⟨hdash, List.forall_mem_cons.2 ⟨hdash, proper.name⟩⟩)
      fun same => marker.dash (List.cons.inj same).1.symm
  cases h with
  | bare => exact hname
  | text => exact hname.append_space marker unmarked.unbroken proper.trimmed.1

theorem spelled_unbroken (marker : IsMarker m ms) (written : List.Forall₂ Spells parts blocks)
    (proper : ∀ e ∈ parts, IsSection e.1 e.2 ∧ Unmarked (m :: ms) e.2) :
    ∀ block ∈ blocks, startsDashes block = true ∧ Unbroken m ms true block := by
  induction written with
  | nil => simp
  | cons first _ ih =>
    obtain ⟨⟨hproper, hunmarked⟩, later⟩ := List.forall_mem_cons.1 proper
    exact List.forall_mem_cons.2
      ⟨⟨first.startsDashes, first.unbroken marker hproper hunmarked⟩, ih later⟩

theorem sections_joined (hd : d ∈ Dialect.all) (hone : lead.length ≤ 1)
    (hlead : ∀ l ∈ lead, Calm l ∧ startsDashes l = false)
    (written : List.Forall₂ Spells parts blocks)
    (proper : ∀ e ∈ parts, IsSection e.1 e.2 ∧ Unmarked d.marker.toList e.2) {text : String}
    (joined : Joined (Separates d) (lead ++ blocks) text.toList) :
    (sections d.marker text).map (fun e => (e.1, Text.Chars.trim e.2)) = parts := by
  obtain ⟨m, ms, hm, marker⟩ := exists_marker hd
  have plain : ∀ e ∈ parts, IsSection e.1 e.2 := fun e he => (proper e he).1
  have whole := spelled_unbroken marker written (hm ▸ proper)
  have same : blocks.map (unbreak m ms true) = blocks :=
    (List.map_congr_left fun block hblock => (whole block hblock).2).trans (List.map_id _)
  rw [sections, hm, normalChars]
  cases lead with
  | nil =>
    have flat := unbreak_joined hd hm marker joined fun block hblock =>
      (whole block (List.mem_of_mem_tail hblock)).1
    rw [List.nil_append, same] at flat
    exact split_spelled written plain flat
  | cons l r =>
    obtain rfl : r = [] := List.eq_nil_of_length_eq_zero (by simpa using hone)
    obtain ⟨calm, dashless⟩ := hlead l List.mem_cons_self
    have calm : Calm (unbreak m ms true l) := calm_unbreak marker.dash calm
    have dashless : startsDashes (unbreak m ms true l) = false :=
      startsDashes_unbreak marker.dash dashless
    have flat := unbreak_joined hd hm marker joined fun block hblock => (whole block hblock).1
    rw [List.singleton_append, List.map_cons, same] at flat
    obtain ⟨rest, heq, ⟨rfl, rfl⟩ | ⟨gap, tail, rfl, blanks, joined⟩⟩ := flat.exists_rest
    · cases written
      rw [heq, List.append_nil, split_lead_end calm fun _ => dashless]
      rfl
    · rw [heq, ← List.append_assoc, split_lead calm (fun _ => dashless) blanks]
      exact split_spelled written plain joined

def overlongIn? (body : List Char) : Option Text.OverlongNumber :=
  (scan body).findSome? fun t => t.key.bind overlongSlot?

theorem ofParts_trim (name body : List Char) :
    Command.ofParts name (Text.Chars.trim body) = Command.ofParts name body := by
  simp only [Command.ofParts, Text.Chars.trim_trim]

theorem read_of_sections {marker text : String}
    (h : (sections marker text).map (fun e => (e.1, Text.Chars.trim e.2)) = parts) :
    CommandLine.read marker text =
      match parts.findSome? fun e => overlongIn? e.2 with
      | some n => .error n
      | none => .ok (parts.map fun e => Command.ofParts e.1 e.2) := by
  have commands_eq : commands marker text = parts.map fun e => Command.ofParts e.1 e.2 := by
    simp only [← h, commands, List.map_map, Function.comp_def, ofParts_trim]
  have overlong_eq : overlong? marker text = parts.findSome? fun e => overlongIn? e.2 := by
    rw [← h, List.findSome?_map]
    rfl
  rw [CommandLine.read, commands_eq, overlong_eq]
  rfl

/-- Task words and texts that are written one after the other are read back: whatever is read has
the words in lower case and the same texts, and all of it is read unless a slot has too many
digits. -/
theorem read_of_joined (hd : d ∈ Dialect.all) {lead : Option (List Char)}
    (hlead : ∀ l ∈ lead, Calm l ∧ startsDashes l = false)
    (written : List.Forall₂ Spells parts blocks)
    (proper : ∀ e ∈ parts, IsSection e.1 e.2 ∧ Unmarked d.marker.toList e.2) {text : String}
    (joined : Joined (Separates d) (lead.toList ++ blocks) text.toList) :
    (∀ cs, CommandLine.read d.marker text = .ok cs → cs.map (fun c => (c.name, c.text)) =
      parts.map fun e => (Text.lower (String.ofList e.1), String.ofList e.2)) ∧
    ((∃ cs, CommandLine.read d.marker text = .ok cs) ↔
      ∀ e ∈ parts, ∀ t ∈ scan e.2, t.key.bind overlongSlot? = none) := by
  have hone : lead.toList.length ≤ 1 := by cases lead <;> simp
  have found := sections_joined hd hone (by simpa using hlead) written proper joined
  have texts : (parts.map fun e => Command.ofParts e.1 e.2).map (fun c => (c.name, c.text)) =
      parts.map fun e => (Text.lower (String.ofList e.1), String.ofList e.2) := by
    rw [List.map_map]
    refine List.map_congr_left fun e he => ?_
    simp only [Function.comp_apply, Command.ofParts,
      Text.Chars.trim_eq_self (proper e he).1.trimmed]
  have short : (parts.findSome? fun e => overlongIn? e.2) = none ↔
      ∀ e ∈ parts, ∀ t ∈ scan e.2, t.key.bind overlongSlot? = none := by
    simp only [overlongIn?, List.findSome?_eq_none_iff]
  rw [read_of_sections found, ← short]
  cases parts.findSome? fun e => overlongIn? e.2 with
  | some n => simp
  | none => simpa using texts

def markedParts : List (List Char × List Char) :=
  [("Rx\\".toList, "file=a\\b \\x".toList), ("-wx".toList, [])]

def markedBlocks : List (List Char) :=
  ["--Rx\\ file=a\\b \\x".toList, "---wx".toList]

def markedText : String :=
  "run \\ \\\n--Rx\\ file=a\\b \\x\t \r---wx"

theorem marked_written : List.Forall₂ Spells markedParts markedBlocks :=
  .cons (.text "Rx\\".toList "file=a\\b \\x".toList) (.cons (.bare "-wx".toList) .nil)

theorem marked_proper : ∀ e ∈ markedParts, IsSection e.1 e.2 ∧
    Unmarked Dialect.bash.marker.toList e.2 := by
  have marker : IsMarker '\\' [] := ⟨by decide, by decide, by decide, by decide, by decide⟩
  have unmarked {body : List Char} (h : Unbroken '\\' [] true body) :
      Unmarked Dialect.bash.marker.toList body :=
    (unmarked_iff_unbroken (by decide)).2 h
  have first : Unbroken '\\' [] true "file=a\\b".toList :=
    unbroken_of_nonblank marker (by decide) (by decide)
  have second : Unbroken '\\' [] true "\\x".toList :=
    unbroken_of_nonblank marker (by decide) (by decide)
  refine List.forall_mem_cons.2 ⟨⟨?_, unmarked ?_⟩, List.forall_mem_singleton.2 ⟨?_, unmarked ?_⟩⟩
  · exact ⟨by decide, by decide, ⟨by decide, by decide⟩, by decide, by decide⟩
  · exact first.append_space marker second (by decide)
  · exact ⟨by decide, by decide, ⟨by decide, by decide⟩, by decide, by decide⟩
  · exact unbreak_nil

theorem marked_joined : Joined (Separates Dialect.bash)
    ((some "run \\".toList).toList ++ markedBlocks) markedText.toList := by
  have blanks : Blanks "\t \r".toList := ⟨by decide, by decide⟩
  have gap : Separates Dialect.bash "\t \r".toList := .blanks blanks (by decide)
  exact .cons _ Separates.separator (.cons _ gap (.single _))

theorem marked_found : Dialect.bash ∈ Dialect.all ∧
    (∀ l ∈ some "run \\".toList, Calm l ∧ startsDashes l = false) ∧
    List.Forall₂ Spells markedParts markedBlocks ∧
    (∀ e ∈ markedParts, IsSection e.1 e.2 ∧ Unmarked Dialect.bash.marker.toList e.2) ∧
    Joined (Separates Dialect.bash) ((some "run \\".toList).toList ++ markedBlocks)
      markedText.toList ∧
    ∃ cs, CommandLine.read Dialect.bash.marker markedText = .ok cs ∧
      cs.map (fun c => (c.name, c.text)) = [("rx\\", "file=a\\b \\x"), ("-wx", "")] := by
  have member : Dialect.bash ∈ Dialect.all := by simp [Dialect.all]
  have hlead : ∀ l ∈ some "run \\".toList, Calm l ∧ startsDashes l = false := by decide
  have short : ∀ e ∈ markedParts, ∀ t ∈ scan e.2, t.key.bind overlongSlot? = none := by
    have first : scan "file=a\\b \\x".toList = [⟨some "file", "a\\b"⟩, ⟨none, "\\x"⟩] := by
      cbv
    have second : scan [] = [] := by rw [scan]
    refine List.forall_mem_cons.2 ⟨?_, List.forall_mem_singleton.2 ?_⟩
    · rw [first]
      decide
    · rw [second]
      simp
  obtain ⟨names, reads⟩ := read_of_joined member hlead marked_written marked_proper marked_joined
  obtain ⟨cs, hcs⟩ := reads.2 short
  exact ⟨member, hlead, marked_written, marked_proper, marked_joined, cs, hcs, names cs hcs⟩

def onesKey (digits : Nat) : List Char :=
  "inPipe.".toList ++ List.replicate digits '1'

def onesPipe (digits : Nat) : List Char :=
  onesKey digits ++ '=' :: ['x']

theorem onesKey_plain (n : Nat) : ∀ c ∈ onesKey n, isKeyChar c = true ∧ c ≠ '<' := by
  refine List.forall_mem_append.2 ⟨by decide, fun c hc => ?_⟩
  rw [List.eq_of_mem_replicate hc]
  decide

theorem overlongSlot?_onesKey {n : Nat} (long : Text.digitLimit < n) :
    overlongSlot? (String.ofList (onesKey n)) = some ⟨n⟩ := by
  have ones : ∀ c ∈ List.replicate n '1', Text.isDigit c = true := fun c hc => by
    rw [List.eq_of_mem_replicate hc]
    decide
  have refused := overlongSlot?_digits ones (by rwa [List.length_replicate])
  exact refused.trans (by rw [List.length_replicate])

theorem overlongIn?_onesPipe {n : Nat} (long : Text.digitLimit < n) :
    overlongIn? (onesPipe n) = some ⟨n⟩ := by
  have hne : onesKey n ≠ [] := List.append_ne_nil_of_left_ne_nil (by decide) _
  have found : Scans (onesPipe n) [token (some (onesKey n)) ['x']] :=
    scans_plain hne (fun c hc => (onesKey_plain n c hc).1) (by decide) (by decide) (by decide)
  rw [token_of_trimmed ⟨by decide, by decide⟩] at found
  simp [overlongIn?, found.scan_eq, overlongSlot?_onesKey long]

theorem onesPipe_nonblank (n : Nat) : ∀ c ∈ onesPipe n, Text.isBlank c = false :=
  List.forall_mem_append.2
    ⟨fun c hc => nonblank_of_isKeyChar (onesKey_plain n c hc).1, by decide⟩

theorem onesPipe_isSection (n : Nat) : IsSection ['a'] (onesPipe n) :=
  ⟨by simp, by decide, trimmed_of_nonblank (onesPipe_nonblank n),
    calm_of_nonblank (onesPipe_nonblank n), rfl⟩

theorem onesPipe_unmarked (n : Nat) : Unmarked Dialect.plain.marker.toList (onesPipe n) := by
  rintro before after h
  have marked : '<' ∈ onesPipe n := by
    rw [h]
    exact List.mem_append_left _ (List.mem_append_right _ List.mem_cons_self)
  rcases List.mem_append.1 marked with inKey | inValue
  · exact absurd rfl (onesKey_plain n '<' inKey).2
  · exact absurd inValue (by decide)

theorem read_onesPipe {n : Nat} (long : Text.digitLimit < n) {text : String}
    (joined : Joined (Separates Dialect.plain) ['-' :: '-' :: 'a' :: ' ' :: onesPipe n]
      text.toList) :
    CommandLine.read Dialect.plain.marker text = .error ⟨n⟩ := by
  have member : Dialect.plain ∈ Dialect.all := by simp [Dialect.all]
  have written : List.Forall₂ Spells [(['a'], onesPipe n)]
      ['-' :: '-' :: 'a' :: ' ' :: onesPipe n] := .cons (.text ['a'] (onesPipe n)) .nil
  have none : ([] : List (List Char)).length ≤ 1 := Nat.zero_le 1
  have found := sections_joined member none (List.forall_mem_nil _) written
    (List.forall_mem_singleton.2 ⟨onesPipe_isSection n, onesPipe_unmarked n⟩) joined
  rw [read_of_sections found]
  simp [overlongIn?_onesPipe long]

theorem ones_unread : Spells (['a'], onesPipe 4301) ("--a ".toList ++ onesPipe 4301) ∧
    IsSection ['a'] (onesPipe 4301) ∧
    Unmarked Dialect.plain.marker.toList (onesPipe 4301) ∧
    CommandLine.read Dialect.plain.marker (String.ofList ("--a ".toList ++ onesPipe 4301)) =
      .error ⟨4301⟩ := by
  refine ⟨.text ['a'] (onesPipe 4301), onesPipe_isSection 4301, onesPipe_unmarked 4301,
    read_onesPipe (by decide) ?_⟩
  rw [String.toList_ofList]
  exact .single _

end Sluice.CommandLine
