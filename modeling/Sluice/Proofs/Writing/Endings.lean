import Sluice.Proofs.Catalogue
import Sluice.Proofs.CommandLine.LineEnd
import Sluice.Proofs.Writing.Stems

/-! The ends of what is written. A part of a command line ends with a pipe, with a value, or with
the word of its task. A text that is taken as a whole is followed by a pipe, so that of all these
only a value with its key can end with a marker. -/

namespace Sluice

open CommandLine

variable {m c : Char} {ms : List Char}

namespace CommandLine

theorem suffix_of_append_cons {word a b : List Char} (hc : c ∉ word) (h : word <:+ a ++ c :: b) :
    word <:+ b := by
  have inner : word <:+ c :: b ∨ c :: b <:+ word :=
    List.suffix_or_suffix_of_suffix h (List.suffix_append a _)
  rcases inner with h | h
  · refine (List.suffix_cons_iff.1 h).resolve_left ?_
    rintro rfl
    exact hc List.mem_cons_self
  · exact absurd (h.mem List.mem_cons_self) hc

theorem getLast?_space : [' '].getLast? = some ' ' := rfl

theorem ending_of_word (marker : IsMarker m ms) (words : List (List Char)) {word : List Char}
    (hne : word ≠ []) (nonblank : ∀ c ∈ word, Text.isBlank c = false)
    (unmarked : ¬m :: ms <:+ word) : Ending m ms ([' '].intercalate (words ++ [word])) := by
  obtain ⟨lead, hlead, _, heq⟩ := exists_lead getLast?_space words
  have closed : Closed m ms word := ⟨fun c hc => nonblank c (List.mem_of_getLast? hc), unmarked⟩
  rw [heq]
  exact .closed (by simp [hne]) (closed.append marker (fun c hc => hlead c hc ▸ by decide) hne)

theorem ending_of_value {words : List (List Char)} (hwords : words ≠ []) {key value : List Char}
    (hkey : ∀ c ∈ key, Text.isBlank c = false) (hvalue : ∀ c ∈ value, Text.isBlank c = false) :
    Ending m ms ([' '].intercalate (words ++ [key ++ '=' :: value ++ m :: ms])) := by
  obtain ⟨lead, hlead, hne, heq⟩ := exists_lead getLast?_space words
  obtain ⟨a, e, rfl⟩ := (List.eq_nil_or_concat' lead).resolve_left (hne hwords)
  obtain rfl : e = ' ' := hlead e (by simp)
  rw [heq, List.append_assoc]
  exact .value a hkey hvalue

theorem mem_intercalate_space {words : List (List Char)} (h : c ∈ [' '].intercalate words) :
    c = ' ' ∨ ∃ word ∈ words, c ∈ word := by
  induction words with
  | nil => simp at h
  | cons word r ih =>
    cases r with
    | nil => exact .inr ⟨word, by simp, by simpa using h⟩
    | cons next s =>
      rw [List.intercalate_cons_cons, List.append_assoc, List.mem_append, List.singleton_append,
        List.mem_cons] at h
      rcases h with h | h | h
      · exact .inr ⟨word, by simp, h⟩
      · exact .inl h
      · exact (ih h).imp_right fun ⟨w, hw, hc⟩ => ⟨w, List.mem_cons_of_mem _ hw, hc⟩

end CommandLine

def Block.IsPipe (word : String) : Prop :=
  ∃ side slot n, word.toList = (pipeKeyOf side slot).toList ++ '=' :: (toString (n : Nat)).toList

namespace Block

theorem isPipe_inPipe (pipe : Nat × Nat) : IsPipe (inPipe pipe) :=
  ⟨.input, pipe.1, pipe.2, inPipe_eq pipe⟩

theorem isPipe_outPipe (pipe : Nat × Nat) : IsPipe (outPipe pipe) :=
  ⟨.output, pipe.1, pipe.2, outPipe_eq pipe⟩

theorem IsPipe.nonblank {word : String} (h : IsPipe word) :
    ∀ c ∈ word.toList, Text.isBlank c = false := by
  obtain ⟨side, slot, n, heq⟩ := h
  rw [heq]
  exact List.forall_mem_append.2 ⟨(isKey_pipeKeyOf side slot).nonblank,
    List.forall_mem_cons.2 ⟨by decide, toString_nonblank n⟩⟩

theorem IsPipe.unmarked (marker : IsMarker m ms) {word : String} (h : IsPipe word) :
    ¬m :: ms <:+ word.toList := by
  obtain ⟨side, slot, n, heq⟩ := h
  rw [heq]
  intro hsuffix
  have digits := suffix_of_append_cons marker.equals hsuffix
  have := toString_isDigit n m (digits.mem List.mem_cons_self)
  rw [marker.digit] at this
  cases this

structure Fit (m : Char) (ms : List Char) (b : Block) : Prop where
  single : '\r' ∉ b.render.toList
  ending : Ending m ms b.render.toList

theorem toList_render (b : Block) :
    b.render.toList = [' '].intercalate (b.words.map String.toList) := by
  rw [render, String.toList_intercalate]
  rfl

theorem single_of_words {b : Block}
    (h : ∀ word ∈ b.words, ∀ c ∈ word.toList, Text.isBlank c = false) :
    '\r' ∉ b.render.toList := by
  rw [toList_render]
  intro hr
  rcases mem_intercalate_space hr with h' | ⟨word, hword, hmem⟩
  · exact absurd h' (by decide)
  · obtain ⟨w, hw, rfl⟩ := List.mem_map.1 hword
    exact absurd (h w hw _ hmem) (by decide)

theorem fit_of_word (marker : IsMarker m ms) {b : Block} {words : List String} {word : String}
    (heq : b.words = words ++ [word])
    (h : ∀ word ∈ b.words, ∀ c ∈ word.toList, Text.isBlank c = false) (hne : word ≠ "")
    (unmarked : ¬m :: ms <:+ word.toList) : b.Fit m ms := by
  refine ⟨single_of_words h, ?_⟩
  rw [toList_render, heq, List.map_append, List.map_cons, List.map_nil]
  exact ending_of_word marker _ (by simpa using hne) (h word (by simp [heq])) unmarked

theorem fit_of_pipe (marker : IsMarker m ms) {b : Block} {words : List String} {pipe : String}
    (heq : b.words = words ++ [pipe])
    (h : ∀ word ∈ b.words, ∀ c ∈ word.toList, Text.isBlank c = false) (hpipe : IsPipe pipe) :
    b.Fit m ms := by
  refine fit_of_word marker heq h ?_ (hpipe.unmarked marker)
  rintro rfl
  obtain ⟨side, slot, n, hnil⟩ := hpipe
  simp at hnil

theorem nonblank_dashed {word : String} (h : Text.holdsBlank word = false) :
    ∀ c ∈ ("--" ++ word).toList, Text.isBlank c = false := by
  have dash : Text.isBlank '-' = false := by decide
  have hword : ∀ c ∈ word.toList, Text.isBlank c = false := by simpa [Text.holdsBlank] using h
  simpa [dash] using hword

theorem unmarked_dashed (marker : IsMarker m ms) {word : String} (h : ¬m :: ms <:+ word.toList) :
    ¬m :: ms <:+ ("--" ++ word).toList := by
  have later : ∀ cs, m :: ms <:+ '-' :: cs → m :: ms <:+ cs := by
    intro cs hcs
    refine (List.suffix_cons_iff.1 hcs).resolve_left fun heq => ?_
    exact marker.dash (List.cons.inj heq).1
  rw [String.toList_append]
  exact fun hsuffix => h (later _ (later _ hsuffix))

theorem fit_tee (marker : IsMarker m ms) {word : String} (hword : Text.holdsBlank word = false)
    (copies source first : Nat) : (Block.tee word copies source first).Fit m ms := by
  have nonblank : ∀ w ∈ (Block.tee word copies source first).words,
      ∀ c ∈ w.toList, Text.isBlank c = false := by
    simp only [words, List.forall_mem_cons, List.forall_mem_map]
    exact ⟨nonblank_dashed hword, toString_nonblank copies, (isPipe_inPipe _).nonblank,
      fun i _ => (isPipe_outPipe _).nonblank⟩
  rcases List.eq_nil_or_concat' (List.range copies) with hnone | ⟨init, last, heq⟩
  · have hlast : (Block.tee word copies source first).words =
        ["--" ++ word, toString copies] ++ [inPipe (0, source)] := by simp [words, hnone]
    exact fit_of_pipe marker hlast nonblank (isPipe_inPipe _)
  · have hlast : (Block.tee word copies source first).words =
        (("--" ++ word) :: toString copies :: inPipe (0, source) ::
          init.map fun i => outPipe (i, first + i)) ++ [outPipe (last, first + last)] := by
      simp [words, heq]
    exact fit_of_pipe marker hlast nonblank (isPipe_outPipe _)

theorem fit_task (marker : IsMarker m ms) {word : String} (hword : Text.holdsBlank word = false)
    (unmarked : ¬m :: ms <:+ word.toList) {values : List String}
    (hvalues : ∀ v ∈ values, v ≠ "" ∧ ∀ c ∈ v.toList, Text.isBlank c = false)
    {writes : List (Nat × Nat)} (ends : writes = [] → ∀ v ∈ values, m :: ms <:+ v.toList →
      ∃ key value, v.toList = key ++ '=' :: value ++ m :: ms) (reads : List (Nat × Nat)) :
    (Block.task word values reads writes).Fit m ms := by
  have nonblank : ∀ w ∈ (Block.task word values reads writes).words,
      ∀ c ∈ w.toList, Text.isBlank c = false := by
    simp only [words, List.forall_mem_append, List.forall_mem_cons, List.forall_mem_map]
    exact ⟨⟨⟨nonblank_dashed hword, fun v hv => (hvalues v hv).2⟩,
      fun e _ => (isPipe_inPipe e).nonblank⟩, fun e _ => (isPipe_outPipe e).nonblank⟩
  rcases List.eq_nil_or_concat' writes with rfl | ⟨init, last, rfl⟩
  · rcases List.eq_nil_or_concat' reads with rfl | ⟨init, last, rfl⟩
    · rcases List.eq_nil_or_concat' values with rfl | ⟨init, last, rfl⟩
      · have hlast : (Block.task word [] [] []).words = [] ++ ["--" ++ word] := rfl
        exact fit_of_word marker hlast nonblank (by simp) (unmarked_dashed marker unmarked)
      · have hlast : (Block.task word (init ++ [last]) [] []).words =
            (("--" ++ word) :: init) ++ [last] := by simp [words]
        by_cases marked : m :: ms <:+ last.toList
        · obtain ⟨key, value, heq⟩ := ends rfl last (by simp) marked
          have hlast' := (hvalues last (by simp)).2
          rw [heq] at hlast'
          refine ⟨single_of_words nonblank, ?_⟩
          rw [toList_render, hlast, List.map_append, List.map_singleton, heq]
          exact ending_of_value (by simp) (fun c hc => hlast' c (by simp [hc]))
            fun c hc => hlast' c (by simp [hc])
        · exact fit_of_word marker hlast nonblank (hvalues last (by simp)).1 marked
    · have hlast : (Block.task word values (init ++ [last]) []).words =
          (("--" ++ word) :: values ++ init.map inPipe) ++ [inPipe last] := by simp [words]
      exact fit_of_pipe marker hlast nonblank (isPipe_inPipe last)
  · have hlast : (Block.task word values reads (init ++ [last])).words =
        (("--" ++ word) :: values ++ reads.map inPipe ++ init.map outPipe) ++ [outPipe last] := by
      simp [words]
    exact fit_of_pipe marker hlast nonblank (isPipe_outPipe last)

end Block

structure Task.Closing (t : Task) (settings : Settings) (d : Dialect) : Prop where
  plain : t.Plain
  word : Text.holdsBlank (Writing.taskWord settings t) = false
  unmarked : ¬d.marker.toList <:+ (Writing.taskWord settings t).toList
  outlet : (∀ a ∈ t.parameters, a.verbatim = false) ∨ t.outputs ≠ []

namespace Writing

variable {settings : Settings} {d : Dialect} {addToolPath : Bool} {p : Pipeline}
  {among : List String} {mark : Char} {marks : List Char}

theorem word_of_valuePart (hd : d ∈ Dialect.all) (marker : IsMarker mark marks) {a : Argument}
    (plain : a.parameter.Plain) (checked : a.parameter.checked = .ok a.parameter)
    (whole : a.parameter.verbatim = true → a.parameter.positional = true)
    (nonblank : Text.holdsBlank a.value = false) {part : String}
    (h : valuePart? settings (Layout.ofDialect d addToolPath) a = some part) :
    (part ≠ "" ∧ ∀ c ∈ part.toList, Text.isBlank c = false) ∧
      (a.parameter.verbatim = false → mark :: marks <:+ part.toList →
        ∃ key value, part.toList = key ++ '=' :: value ++ mark :: marks) := by
  have letters : ∀ c ∈ a.value.toList, Text.isBlank c = false := by
    simpa [Text.holdsBlank] using nonblank
  cases hv : a.parameter.verbatim with
  | true =>
    obtain ⟨rfl, hne⟩ := valuePart?_verbatim (whole hv) hv h
    exact ⟨⟨hne, letters⟩, by simp⟩
  | false =>
    have hkey := (isKey_name plain checked).nonblank
    have word : ∀ rest : List Char, part.toList = a.name.toList ++ '=' :: rest →
        (∀ c ∈ rest, Text.isBlank c = false) →
        part ≠ "" ∧ ∀ c ∈ part.toList, Text.isBlank c = false := by
      intro rest hpart hrest
      refine ⟨?_, hpart ▸ List.forall_mem_append.2 ⟨hkey,
        List.forall_mem_cons.2 ⟨by decide, hrest⟩⟩⟩
      rintro rfl
      simp at hpart
    rcases valuePart?_keyed hd hv h with ⟨hquote, hpart⟩ | ⟨_, _, hpart⟩
    · have hempty : a.value = "" := hquote.resolve_right (by simp [nonblank])
      rw [hempty] at hpart
      refine ⟨word _ hpart (by decide), fun _ hsuffix => ?_⟩
      rw [hpart] at hsuffix
      have quotes := suffix_of_append_cons marker.equals hsuffix
      obtain rfl : mark = '"' := by simpa using quotes.mem List.mem_cons_self
      exact absurd List.mem_cons_self marker.quote
    · refine ⟨word _ hpart letters, fun _ hsuffix => ?_⟩
      rw [hpart] at hsuffix ⊢
      obtain ⟨value, hvalue⟩ := suffix_of_append_cons marker.equals hsuffix
      exact ⟨a.name.toList, value, by rw [← hvalue]; simp⟩

theorem Stems.fit (hd : d ∈ Dialect.all) (hm : d.marker.toList = mark :: marks)
    (marker : IsMarker mark marks) {m : Member} (proper : m.toJob.Proper)
    (closing : m.task.Closing settings d)
    (nonblank : ∀ a ∈ m.arguments, Text.holdsBlank a.value = false) {b : Block}
    (stems : Stems settings (Layout.ofDialect d addToolPath) m b) : b.Fit mark marks := by
  have parts : ∀ part ∈ valueParts settings (Layout.ofDialect d addToolPath) m.toJob,
      ∃ a ∈ m.arguments, (part ≠ "" ∧ ∀ c ∈ part.toList, Text.isBlank c = false) ∧
        (a.parameter.verbatim = false → mark :: marks <:+ part.toList →
          ∃ key value, part.toList = key ++ '=' :: value ++ mark :: marks) := by
    intro part hpart
    obtain ⟨a, ha, hpart⟩ := List.mem_filterMap.1 hpart
    refine ⟨a, ha, word_of_valuePart hd marker (closing.plain.parameters _ (proper.argument ha))
      (proper.checked ha) (fun hv => ?_) (nonblank a ha) hpart⟩
    rcases proper.verbatim_cases closing.plain with hnone | ⟨b, hb, hpos, _⟩
    · rw [hnone a ha] at hv
      cases hv
    · obtain rfl : a = b := by simpa [hb] using ha
      exact hpos
  cases stems with
  | tee copies source first hword => exact Block.fit_tee marker (tee_word hword).2.1 _ _ _
  | task reads outlet =>
    refine Block.fit_task marker closing.word (hm ▸ closing.unmarked) (fun v hv => ?_)
      (fun hwrites v hv => ?_) _
    · obtain ⟨_, _, word, _⟩ := parts v hv
      exact word
    · obtain ⟨a, ha, _, ends⟩ := parts v hv
      have outputs : m.task.outputs = [] := by
        have hlen : m.outputs.length = m.task.outputs.length := Connector.length_ofSlots _ _ _
        rw [outlet hwrites] at hlen
        exact List.eq_nil_of_length_eq_zero hlen.symm
      have keyed := closing.outlet.resolve_right fun some_output => some_output outputs
      exact ends (keyed _ (proper.argument ha))

end Writing

namespace Catalogue

theorem Bundled.unmarked : ∀ t ∈ Bundled.tasks, ∀ word ∈ t.name :: t.short?.toList,
    ∀ d ∈ Dialect.all, ¬d.marker.toList <:+ word.toList := by
  decide +kernel

theorem Bundled.outlets : ∀ t ∈ Bundled.tasks,
    (∀ a ∈ t.parameters, a.verbatim = false) ∨ t.outputs ≠ [] := by
  decide +kernel

theorem bundled_closing {word : String} {t : Task} (found : bundled.lookup word = some t)
    (settings : Settings) {d : Dialect} (hd : d ∈ Dialect.all) : t.Closing settings d := by
  obtain ⟨name, hmem⟩ := mem_of_lookup found
  have ht := (bundled_holds.tasks _ hmem).1
  exact ⟨(Bundled.faithful ht).plain, (bundled_knows found settings).word,
    Bundled.unmarked t ht _ (Writing.taskWord_mem t settings) d hd, Bundled.outlets t ht⟩

end Catalogue

end Sluice
