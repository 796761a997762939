import Sluice.Proofs.Reading.Giving
import Sluice.Proofs.Writing.Lines

/-! Blocks as lines. The command that a written task is read as names the task, gives its values
back and has its pipes; the command of an adapter has its count and its pipes. -/

namespace Sluice

open CommandLine

def pipeRef (pipe : Nat × Nat) : PipeRef :=
  ⟨pipe.1, toString pipe.2⟩

structure TaskCommand (settings : Settings) (j : Job) (reads writes : List (Nat × Nat))
    (c : Command) : Prop where
  name : c.name = Text.lower (Writing.taskWord settings j.task)
  values : ∀ serial, Reading.giveAll c (Job.ofTask serial j.task) =
    .ok ⟨serial, j.task, j.arguments.map (Argument.readBack settings)⟩
  inPipes : c.inPipes = reads.map pipeRef
  outPipes : c.outPipes = writes.map pipeRef

structure TeeCommand (word : String) (copies source first : Nat) (c : Command) : Prop where
  name : c.name = Text.lower word
  count : Reading.copies c = .ok copies
  inPipes : c.inPipes = [pipeRef (0, source)]
  outPipes : c.outPipes = (List.range copies).map fun i => pipeRef (i, first + i)

namespace CommandLine

variable {m : Char} {ms : List Char} {t : Token}

theorem pipe?_pipeToken (side other : Side) (pipe : Nat × Nat) :
    Command.pipe? side (pipeToken other pipe) =
      if other = side then some (pipeRef pipe) else none := by
  simp [Command.pipe?, pipeToken, pipeKey?_pipeKeyOf, pipeRef]

theorem isParameter_pipeToken (side : Side) (pipe : Nat × Nat) :
    Command.isParameter (pipeToken side pipe) = false := by
  simp [Command.isParameter, pipeToken, pipeKey?_pipeKeyOf]

def IsValue (t : Token) : Prop :=
  ∀ k, t.key = some k → readPipeKey k = .ok none

theorem IsValue.bind_eq_none (h : IsValue t) :
    t.key.bind pipeKey? = none ∧ t.key.bind overlongSlot? = none := by
  cases hk : t.key with
  | none => exact ⟨rfl, rfl⟩
  | some k =>
    obtain ⟨hover, hpipe⟩ := readPipeKey_eq_none.1 (h k hk)
    exact ⟨hpipe, hover⟩

theorem IsValue.isParameter (h : IsValue t) : Command.isParameter t = true := by
  rw [Command.isParameter, h.bind_eq_none.1]
  rfl

theorem IsValue.pipe? (h : IsValue t) (side : Side) : Command.pipe? side t = none := by
  cases hk : t.key with
  | none => simp [Command.pipe?, hk]
  | some k =>
    have := h.bind_eq_none.1
    rw [hk, Option.bind_some] at this
    simp [Command.pipe?, hk, this]

theorem sorted_tokens {values : List Token} (h : ∀ t ∈ values, IsValue t)
    (reads writes : List (Nat × Nat)) :
    (values ++ reads.map (pipeToken .input) ++ writes.map (pipeToken .output)).filter
        Command.isParameter = values ∧
      (values ++ reads.map (pipeToken .input) ++ writes.map (pipeToken .output)).filterMap
        (Command.pipe? .input) = reads.map pipeRef ∧
      (values ++ reads.map (pipeToken .input) ++ writes.map (pipeToken .output)).filterMap
        (Command.pipe? .output) = writes.map pipeRef := by
  have hnone : ∀ side, values.filterMap (Command.pipe? side) = [] := fun side =>
    List.filterMap_eq_nil_iff.2 fun t ht => (h t ht).pipe? side
  refine ⟨?_, ?_, ?_⟩
  · have hall : values.filter Command.isParameter = values :=
      List.filter_eq_self.2 fun t ht => (h t ht).isParameter
    simp [List.filter_append, hall, List.filter_map, Function.comp_def, isParameter_pipeToken]
  · simp [List.filterMap_append, hnone, List.filterMap_map, pipe?_pipeToken]
  · simp [List.filterMap_append, hnone, List.filterMap_map, pipe?_pipeToken]

theorem overlong_pipeToken {side : Side} {pipe : Nat × Nat}
    (h : Text.Readable pipe.1) : (pipeToken side pipe).key.bind overlongSlot? = none :=
  overlongSlot?_pipeKeyOf side h

theorem inPipe_eq (pipe : Nat × Nat) : (Block.inPipe pipe).toList =
    (pipeKeyOf .input pipe.1).toList ++ '=' :: (toString pipe.2).toList := by
  simp [Block.inPipe, pipeKeyOf]

theorem outPipe_eq (pipe : Nat × Nat) : (Block.outPipe pipe).toList =
    (pipeKeyOf .output pipe.1).toList ++ '=' :: (toString pipe.2).toList := by
  simp [Block.outPipe, pipeKeyOf]

def inParts (reads : List (Nat × Nat)) : List (String × List Token) :=
  reads.map fun pipe => (Block.inPipe pipe, [pipeToken .input pipe])

def outParts (writes : List (Nat × Nat)) : List (String × List Token) :=
  writes.map fun pipe => (Block.outPipe pipe, [pipeToken .output pipe])

theorem part_inParts (marker : IsMarker m ms) (reads : List (Nat × Nat)) :
    ∀ e ∈ inParts reads, Part m ms e.1.toList e.2 := by
  intro e he
  obtain ⟨pipe, _, rfl⟩ := List.mem_map.1 he
  rw [inPipe_eq]
  exact part_pipe marker .input pipe

theorem part_outParts (marker : IsMarker m ms) (writes : List (Nat × Nat)) :
    ∀ e ∈ outParts writes, Part m ms e.1.toList e.2 := by
  intro e he
  obtain ⟨pipe, _, rfl⟩ := List.mem_map.1 he
  rw [outPipe_eq]
  exact part_pipe marker .output pipe

theorem quoteless_pipe (key : String) (hkey : Quoteless key.toList) (n k : Nat) :
    Quoteless (key.toList ++ (toString n).toList ++ '=' :: (toString k).toList) := by
  have digits : ∀ n : Nat, Quoteless (toString n).toList := fun n c hc =>
    not_quote_of_isDigit (toString_isDigit n c hc)
  exact List.forall_mem_append.2 ⟨List.forall_mem_append.2 ⟨hkey, digits n⟩,
    List.forall_mem_cons.2 ⟨by decide, digits k⟩⟩

theorem quoteless_inParts (reads : List (Nat × Nat)) :
    ∀ e ∈ inParts reads, Quoteless e.1.toList := by
  refine List.forall_mem_map.2 fun pipe _ => ?_
  have := quoteless_pipe "inPipe." (by decide) pipe.1 pipe.2
  rwa [inPipe_eq, pipeKeyOf, String.toList_append]

theorem quoteless_outParts (writes : List (Nat × Nat)) :
    ∀ e ∈ outParts writes, Quoteless e.1.toList := by
  refine List.forall_mem_map.2 fun pipe _ => ?_
  have := quoteless_pipe "outPipe." (by decide) pipe.1 pipe.2
  rwa [outPipe_eq, pipeKeyOf, String.toList_append]

theorem tokens_inParts (reads : List (Nat × Nat)) :
    (inParts reads).flatMap Prod.snd = reads.map (pipeToken .input) := by
  rw [inParts, List.flatMap_map, List.map_eq_flatMap]

theorem tokens_outParts (writes : List (Nat × Nat)) :
    (outParts writes).flatMap Prod.snd = writes.map (pipeToken .output) := by
  rw [outParts, List.flatMap_map, List.map_eq_flatMap]

theorem startsPipe_inPipe (pipe : Nat × Nat) : startsPipe (Block.inPipe pipe).toList = true := by
  rw [inPipe_eq]
  exact startsPipe_append (startsPipe_of_slotDigits? (slotDigits?_pipeKeyOf .input pipe.1)) _

theorem startsPipe_outPipe (pipe : Nat × Nat) : startsPipe (Block.outPipe pipe).toList = true := by
  rw [outPipe_eq]
  exact startsPipe_append (startsPipe_of_slotDigits? (slotDigits?_pipeKeyOf .output pipe.1)) _

def lineOf (word : String) (values : List (String × List Token)) (reads writes : List (Nat × Nat)) :
    Line :=
  ⟨word, values ++ inParts reads ++ outParts writes⟩

section

variable (word : String) (values : List (String × List Token)) (reads writes : List (Nat × Nat))

theorem tokens_lineOf : (lineOf word values reads writes).tokens =
    values.flatMap Prod.snd ++ reads.map (pipeToken .input) ++ writes.map (pipeToken .output) := by
  simp only [lineOf, Line.tokens, List.flatMap_append, tokens_inParts, tokens_outParts]

theorem map_fst_lineOf : (lineOf word values reads writes).parts.map Prod.fst =
    values.map Prod.fst ++ (reads.map Block.inPipe ++ writes.map Block.outPipe) := by
  simp [lineOf, inParts, outParts, Function.comp_def]

variable {word values reads writes}

theorem legible_lineOf (marker : IsMarker m ms) (word_ne : word ≠ "")
    (nonblank : Text.holdsBlank word = false) (body : Body m ms values)
    (hvalues : ∀ t ∈ values.flatMap Prod.snd, IsValue t)
    (hreads : ∀ e ∈ reads, Text.Readable e.1)
    (hwrites : ∀ e ∈ writes, Text.Readable e.1) :
    (lineOf word values reads writes).Legible m ms := by
  refine ⟨word_ne, nonblank, ?_, fun t ht => ?_⟩
  · exact (body.append marker (part_inParts marker reads) (quoteless_inParts reads)).append marker
      (part_outParts marker writes) (quoteless_outParts writes)
  · rw [tokens_lineOf, List.mem_append, List.mem_append] at ht
    rcases ht with (ht | ht) | ht
    · exact (hvalues t ht).bind_eq_none.2
    · obtain ⟨e, he, rfl⟩ := List.mem_map.1 ht
      exact overlong_pipeToken (hreads e he)
    · obtain ⟨e, he, rfl⟩ := List.mem_map.1 ht
      exact overlong_pipeToken (hwrites e he)

theorem command_lineOf (word : String) (reads writes : List (Nat × Nat))
    (hvalues : ∀ t ∈ values.flatMap Prod.snd, IsValue t) :
    (lineOf word values reads writes).command.parameters = values.flatMap Prod.snd ∧
      (lineOf word values reads writes).command.inPipes = reads.map pipeRef ∧
      (lineOf word values reads writes).command.outPipes = writes.map pipeRef := by
  have := sorted_tokens hvalues reads writes
  rwa [← tokens_lineOf word] at this

end

theorem exists_line_of_task {settings : Settings} {d : Dialect} (addToolPath : Bool)
    (hd : d ∈ Dialect.all) (hm : d.marker.toList = m :: ms) (marker : IsMarker m ms) {j : Job}
    (proper : j.Proper) (plain : j.task.Plain) (survives : j.Survives settings d)
    (word_ne : Writing.taskWord settings j.task ≠ "")
    (word : Text.holdsBlank (Writing.taskWord settings j.task) = false)
    {reads writes : List (Nat × Nat)} (hreads : ∀ e ∈ reads, Text.Readable e.1)
    (hwrites : ∀ e ∈ writes, Text.Readable e.1) :
    ∃ l : Line, l.Legible m ms ∧ TaskCommand settings j reads writes l.command ∧
      l.render = Block.render (.task (Writing.taskWord settings j.task)
        (Writing.valueParts settings (Layout.ofDialect d addToolPath) j) reads writes) := by
  obtain ⟨values, hfst, body, hvalues, htokens⟩ :=
    j.exists_parts addToolPath hd hm marker proper plain survives
  obtain ⟨hparameters, hin, hout⟩ :=
    command_lineOf (Writing.taskWord settings j.task) reads writes hvalues
  refine ⟨lineOf (Writing.taskWord settings j.task) values reads writes,
    legible_lineOf marker word_ne word body hvalues hreads hwrites,
    ⟨rfl, fun serial => ?_, hin, hout⟩, ?_⟩
  · refine Reading.giveAll_eq addToolPath (reads.map Block.inPipe ++ writes.map Block.outPipe)
      proper plain survives ?_ ?_ ?_ serial
    · intro s hs
      rcases List.mem_append.1 (List.mem_of_mem_head? hs) with hs | hs
      · obtain ⟨e, _, rfl⟩ := List.mem_map.1 hs
        exact startsPipe_inPipe e
      · obtain ⟨e, _, rfl⟩ := List.mem_map.1 hs
        exact startsPipe_outPipe e
    · rw [← hfst, ← map_fst_lineOf]
      rfl
    · intro hnone
      rw [hparameters, htokens hnone]
  · rw [Line.render, map_fst_lineOf, hfst, Block.render, Block.words, List.append_assoc]
    rfl

theorem tee_word {flow : Flow} {word : String} (h : flow.tee? = some word) :
    word ≠ "" ∧ Text.holdsBlank word = false ∧ Flow.ofTee? (Text.lower word) = some flow := by
  cases flow with
  | entity =>
    obtain rfl : "tee" = word := Option.some.inj h
    decide +kernel
  | change =>
    obtain rfl : "tee-change" = word := Option.some.inj h
    decide +kernel
  | dataset => cases h

theorem exists_line_of_tee (marker : IsMarker m ms) {flow : Flow} {word : String}
    (hword : flow.tee? = some word) {copies : Nat} (pos : 0 < copies) (few : copies ≤ flow.maxOut)
    (source first : Nat) :
    ∃ l : Line, l.Legible m ms ∧ TeeCommand word copies source first l.command ∧
      l.render = Block.render (.tee word copies source first) := by
  obtain ⟨word_ne, nonblank, _⟩ := tee_word hword
  have few : copies ≤ 1024 := Nat.le_trans few (by cases flow <;> decide)
  let values : List (String × List Token) := [(toString copies, [⟨none, toString copies⟩])]
  let writes := (List.range copies).map fun i => (i, first + i)
  have hvalues : ∀ t ∈ values.flatMap Prod.snd, IsValue t := by simp [values, IsValue]
  obtain ⟨hparameters, hin, hout⟩ :=
    command_lineOf word [(0, source)] writes hvalues
  refine ⟨lineOf word values [(0, source)] writes,
    legible_lineOf marker word_ne nonblank ?_ hvalues ?_ ?_, ⟨rfl, ?_, hin, ?_⟩, ?_⟩
  · exact .of_parts marker (by simpa [values] using part_number marker copies)
  · simpa using Text.readable_of_le (Nat.zero_le 1024)
  · intro e he
    obtain ⟨i, hi, rfl⟩ := List.mem_map.1 he
    have := List.mem_range.1 hi
    exact Text.readable_of_le (by omega)
  · have hvalue : (lineOf word values [(0, source)] writes).command.parameter? none =
        some (toString copies) := by
      rw [Command.parameter?, hparameters]
      rfl
    simp only [Reading.copies, hvalue, Text.wholeNumber?_toString (Text.readable_of_le few)]
    rw [if_neg (by omega)]
    rfl
  · rw [hout, List.map_map]
    rfl
  · rw [Line.render, map_fst_lineOf, Block.render, Block.words]
    simp only [values, writes, List.map_map]
    rfl

end CommandLine

end Sluice
