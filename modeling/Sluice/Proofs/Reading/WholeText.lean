import Sluice.Proofs.CommandLine.Mentions
import Sluice.Proofs.Reading.Lookup

/-! Values that take the whole text of a task. A task with one parameter for it gives that parameter
the text before the first mention of a pipe, which is the text before the first token that names a
pipe unless a word or a value before it mentions one. -/

namespace Sluice

open CommandLine

namespace Job

theorem giveFirst_of_one {fits : Argument → Bool} {given : Option String} {as : List Argument}
    (one : (as.filter fits).length = 1) : giveFirst fits given as =
      some (as.map fun a => if fits a then { a with given := given } else a) := by
  induction as with
  | nil => simp at one
  | cons a r ih =>
    rw [giveFirst, List.map_cons]
    cases ha : fits a with
    | true =>
      rw [List.filter_cons_of_pos ha] at one
      have others : ∀ b ∈ r, ¬fits b :=
        List.filter_eq_nil_iff.1 (List.length_eq_zero_iff.1 (Nat.succ.inj one))
      have same : (r.map fun b => if fits b then { b with given := given } else b) = r :=
        (List.map_congr_left fun b hb => if_neg (others b hb)).trans (List.map_id r)
      rw [if_pos rfl, if_pos rfl, same]
    | false =>
      rw [List.filter_cons_of_neg (by simp [ha])] at one
      rw [if_neg (by simp), if_neg (by simp), ih one, Option.map_some]

end Job

namespace Reading

variable {c : Command} {task : Task} {serial : Nat} {k : Job}

theorem verbatimText_eq (text : String) :
    (if verbatimText text = "" then none else some (verbatimText text)) =
      partBefore text.toList (beforePipe text.toList).length := by
  rw [partBefore, take_beforePipe]
  rfl

theorem arguments_of_giveAll (one : (task.parameters.filter Parameter.verbatim).length = 1)
    (given : giveAll c (Job.ofTask serial task) = .ok k) :
    k.arguments = task.parameters.map fun a => ⟨a, if a.verbatim then
      partBefore c.text.toList (beforePipe c.text.toList).length else none⟩ := by
  have one' : ((Job.ofTask serial task).arguments.filter
      fun a => a.parameter.verbatim).length = 1 := by
    rw [Job.ofTask, List.filter_map, List.length_map]
    exact one
  rw [giveAll, if_pos one', pure_eq_ok] at given
  subst given
  rw [Job.give?, Job.giveFirst_of_one one', verbatimText_eq, Job.ofTask, Option.map_some,
    Option.getD_some, List.map_map]
  refine List.map_congr_left fun a _ => ?_
  dsimp only [Function.comp]
  split <;> rfl

/-- The member has the text of its command up to a place, trimmed, as its only value. The place is
that of the first mention of a pipe. The first token that names a pipe comes no earlier, and the
text before it makes another value unless it starts there; without such a token that is the whole
text. -/
structure TakesText (c : Command) (m : Member) (n : Nat) : Prop where
  mention : FirstMention c.text.toList n
  le_reference : n ≤ firstReference c.text.toList
  values : m.arguments = m.task.parameters.map fun a =>
    ⟨a, if a.verbatim then partBefore c.text.toList n else none⟩
  agrees : partBefore c.text.toList n = partBefore c.text.toList (firstReference c.text.toList) ↔
    n = firstReference c.text.toList
  whole : firstReference c.text.toList = c.text.toList.length ↔ c.inPipes = [] ∧ c.outPipes = []

theorem trimmed_text {marker text : String} (hc : c ∈ commands marker text) :
    Text.Chars.Trimmed c.text.toList := by
  obtain ⟨⟨_, body⟩, _, rfl⟩ := List.mem_map.1 hc
  simpa [Command.ofParts] using Text.Chars.trimmed_trim body

theorem EntersAt.takesText {catalogue : Catalogue} {m : Member} {marker text : String}
    (h : EntersAt catalogue (c, serial) m) (hc : c ∈ commands marker text)
    (one : (m.task.parameters.filter Parameter.verbatim).length = 1) : ∃ n, TakesText c m n := by
  have first := firstMention_beforePipe c.text.toList
  have hle := first.le (firstReference_stops c.text.toList)
  have agrees := first.partBefore_eq_iff (trimmed_text hc) hle (firstReference_le _)
  obtain ⟨⟨name, body⟩, _, rfl⟩ := List.mem_map.1 hc
  exact ⟨_, first, hle, arguments_of_giveAll one h.values, agrees,
    firstReference_ofParts name body⟩

end Reading

namespace Reader

open Pipeline Reading

variable {r : Reader} {text : String} {name : Option String} {q : Pipeline}

/-- In whatever is read, the members are those of the commands that name tasks, and one whose task
has one parameter for the whole text takes the text of its command up to the first mention of a
pipe. -/
theorem takes_text_before_mention (read : r.read text name = .ok q) : List.Forall₂
    (fun c m => r.catalogue.orBundled.lookup c.name = some m.task ∧
      ((m.task.parameters.filter Parameter.verbatim).length = 1 → ∃ n, TakesText c m n))
    ((commands r.marker text).filter Command.namesTask) q.members := by
  obtain ⟨cs, cut, enrolled⟩ := enrolled_of_read read
  obtain rfl := commands_of_read cut
  have among : ∀ c ∈ (commands r.marker text).filter Command.namesTask,
      c ∈ commands r.marker text := fun c hc => (List.mem_filter.1 hc).1
  refine ((List.forall₂_and_left _ _).2 ⟨among, enrolled.pairs⟩).imp ?_
  rintro c m ⟨hc, n, enters⟩
  exact ⟨enters.task, enters.takesText hc⟩

def filtered : String :=
  "--tf accept-ways 'highway'=* outPipe.0=y"

theorem filtered_takes_text : ∃ q,
    Reader.read ⟨Catalogue.bundled, "\\", false⟩ filtered none = .ok q ∧
    q.members.map (fun m => m.arguments.map Argument.given) = [[some "accept-ways 'highway'=*"]] ∧
    List.Forall₂ (fun c m => Catalogue.bundled.orBundled.lookup c.name = some m.task ∧
        ((m.task.parameters.filter Parameter.verbatim).length = 1 → ∃ n, TakesText c m n))
      ((commands "\\" filtered).filter Command.namesTask) q.members := by
  obtain ⟨q, read, values⟩ : ∃ q,
      Reader.read ⟨Catalogue.bundled, "\\", false⟩ filtered none = .ok q ∧
      q.members.map (fun m => m.arguments.map Argument.given) =
        [[some "accept-ways 'highway'=*"]] := by
    decide +kernel
  have takes := takes_text_before_mention read
  exact ⟨q, read, values, takes⟩

def wordInValue : String :=
  "--rx a.osm --tf accept-ways name=inpipe"

theorem word_in_value_cuts : ∃ q rx tf,
    Reader.read ⟨Catalogue.bundled, "\\", false⟩ wordInValue none = .ok q ∧
    commands "\\" wordInValue = [rx, tf] ∧ tf.inPipes = [] ∧ tf.outPipes = [] ∧
    partBefore tf.text.toList (firstReference tf.text.toList) = some "accept-ways name=inpipe" ∧
    ∃ m, q.members[1]? = some m ∧ (m.task.parameters.filter Parameter.verbatim).length = 1 ∧
      m.arguments.map Argument.given = [some "accept-ways name="] := by
  obtain ⟨q, read, found⟩ : ∃ q,
      Reader.read ⟨Catalogue.bundled, "\\", false⟩ wordInValue none = .ok q ∧
      ∃ m, q.members[1]? = some m ∧ (m.task.parameters.filter Parameter.verbatim).length = 1 ∧
        m.arguments.map Argument.given = [some "accept-ways name="] := by
    decide +kernel
  have parts : sections "\\" wordInValue =
      [("rx".toList, " a.osm".toList), ("tf".toList, " accept-ways name=inpipe".toList)] := by
    decide +kernel
  refine ⟨q, .ofParts "rx".toList " a.osm".toList,
    .ofParts "tf".toList " accept-ways name=inpipe".toList, read, ?_, ?_, ?_, ?_, found⟩
  · rw [commands, parts]
    rfl
  all_goals decide +kernel

end Reader

end Sluice
