import Sluice.Proofs.Catalogue.History
import Sluice.Proofs.Reading.Lookup

/-! Short names that are read back. A task is written by its short name, and what is read there is
whatever the catalogue has under that word: a task of that name before all others, and else the one
that took the short name last. -/

namespace Sluice.Catalogue

open CommandLine Writing Reading

variable {c : Catalogue} {ts : List Task} {t u : Task} {s : String} {settings : Settings}

/-- The short name is the task's own name too, or no name at all and taken by no later task. -/
def Owns (ts : List Task) (t : Task) (s : String) : Prop :=
  latest ts (key s) = some t ∨ latest ts (key s) = none ∧ latestShort ts (key s) = some t

/-- The word that is written for the task is no adapter and leads back to the task, so that a reader
with the catalogue does not refuse it and reads a member with that task for it. -/
structure Recognizes (c : Catalogue) (settings : Settings) (t : Task) : Prop where
  written : wordOf settings t = .ok (taskWord settings t)
  no_tee : Flow.ofTee? (Text.lower (taskWord settings t)) = none
  lookup : c.lookup (Text.lower (taskWord settings t)) = some t
  rebuilt : ∀ (r : Reader) text name commands, r.catalogue = c →
    CommandLine.read r.marker text = .ok commands →
    r.read text name ≠ .error (.unknownTask (Text.lower (taskWord settings t))) ∧
      ∀ p, r.read text name = .ok p →
        List.Forall₂ (fun cmd m => cmd.name = Text.lower (taskWord settings t) → m.task = t)
          (commands.filter Command.namesTask) p.members

theorem Entered.free (h : Entered ts c) : ∀ t ∈ ts, isReserved (key t.name) = false := by
  induction h with
  | empty => simp
  | task _ made ih => exact List.forall_mem_cons.2 ⟨free_of_register made, ih⟩

theorem eq_of_latestShort (last : latest ts (key t.name) = some t) (short : t.short? = some s)
    (owner : latestShort ts (key s) = some u) (same : key u.name = key t.name) : u = t := by
  induction ts with
  | nil => cases last
  | cons x r ih =>
    rw [latest, List.find?_cons] at last
    rw [latestShort, List.find?_cons] at owner
    by_cases name : key x.name = key t.name
    · obtain rfl : x = t := by simpa [name] using last
      simpa [short, eq_comm] using owner
    · simp only [name, decide_false] at last
      -- A later task with the short name would have another name than the owner.
      split at owner
      · obtain rfl := Option.some.inj owner
        exact absurd same name
      · exact ih last owner

theorem Recorded.lookup_name (h : Recorded ts c) (shown : t ∈ c.sorted) :
    c.lookup t.name = some t := by
  rw [h.lookup_eq, h.mem_sorted.1 shown, Option.some_or]

theorem Recorded.lookup_short (h : Recorded ts c) (shown : t ∈ c.sorted)
    (short : t.short? = some s) : c.lookup s = some t ↔ Owns ts t s := by
  have last := h.mem_sorted.1 shown
  rw [h.lookup_eq, Owns]
  cases named : latest ts (key s) with
  | some u => simp
  | none =>
    obtain ⟨u, owner⟩ := exists_latestShort (latest_eq_some last).1 short
    simp only [owner, Option.none_or, Option.bind_some, reduceCtorEq, false_or, true_and,
      Option.some.injEq]
    constructor
    · intro leads
      exact eq_of_latestShort last short owner (latest_eq_some leads).2.symm
    · rintro rfl
      exact last

theorem reads_found {r : Reader} {text word : String} {name : Option String}
    {commands : List Command} (found : r.catalogue.lookup word = some t)
    (cut : CommandLine.read r.marker text = .ok commands) :
    r.read text name ≠ .error (.unknownTask word) ∧ ∀ p, r.read text name = .ok p →
      List.Forall₂ (fun cmd m => cmd.name = word → m.task = t)
        (commands.filter Command.namesTask) p.members := by
  obtain ⟨_, hmem⟩ := mem_of_lookup found
  have tasks : r.catalogue.tasks ≠ [] := List.ne_nil_of_mem hmem
  refine ⟨fun refused => ?_, fun p read => ?_⟩
  · obtain ⟨cmd, s, _, _, missed, rfl⟩ := (Reader.read_eq_unknown tasks).1 refused
    simp [found] at missed
  · refine (Reader.matched_of_read tasks cut read).tasks.imp fun cmd m matched same => ?_
    rw [same, found] at matched
    exact (Option.some.inj matched).symm

theorem recognizes_iff_lookup (spoken : t.Spoken settings)
    (plain : Text.holdsBlank (taskWord settings t) = false)
    (free : isReserved (key (taskWord settings t)) = false) :
    c.Recognizes settings t ↔ c.lookup (taskWord settings t) = some t := by
  have same : c.lookup (Text.lower (taskWord settings t)) = c.lookup (taskWord settings t) := by
    rw [Catalogue.lookup, Catalogue.lookup, key_lower plain]
  refine ⟨fun h => same ▸ h.lookup, fun found => ?_⟩
  rw [← same] at found
  refine ⟨wordOf_eq spoken, ?_, found, ?_⟩
  · rw [key, Text.trim_of_nonblank plain] at free
    simpa [isReserved] using free
  · rintro r text name commands rfl cut
    exact reads_found found cut

/-- Among whatever tasks were entered, one that is shown is read back from the word that is written
for it exactly if it owns its short name, or is written without. -/
theorem Entered.recognizes_iff (h : Entered ts c) (shown : t ∈ c.sorted)
    (plain : ∀ word ∈ t.name :: t.short?.toList, Text.holdsBlank word = false)
    (free : ∀ s ∈ t.short?, isReserved (key s) = false) (settings : Settings) :
    c.Recognizes settings t ↔ (settings.shortNames = true → ∀ s ∈ t.short?, Owns ts t s) := by
  have recorded := h.recorded
  have ht := (latest_eq_some (recorded.mem_sorted.1 shown)).1
  have spoken : t.Spoken settings := fun _ => h.not_misnamed t ht
  have wordPlain := plain _ (taskWord_mem t settings)
  have byName (written : taskWord settings t = t.name) : c.Recognizes settings t := by
    refine (recognizes_iff_lookup spoken wordPlain (written ▸ h.free t ht)).2 ?_
    rw [written, recorded.lookup_name shown]
  by_cases on : settings.shortNames = true
  · cases short : t.short? with
    | none => exact iff_of_true (byName (by simp [taskWord, on, short])) (by simp)
    | some s =>
      have written : taskWord settings t = s := by simp [taskWord, on, short]
      rw [recognizes_iff_lookup spoken wordPlain (written ▸ free s short), written,
        recorded.lookup_short shown short]
      simp [on]
  · exact iff_of_true (byName (by simp [taskWord, on])) fun h => absurd h on

def shortly : Settings :=
  { Settings.default with shortNames := true }

theorem called_recognized : ∃ c, Entered calledTwice c ∧ called "a" "y" ∈ c.sorted ∧
    (∀ word ∈ (called "a" "y").name :: (called "a" "y").short?.toList,
      Text.holdsBlank word = false) ∧
    (∀ s ∈ (called "a" "y").short?, isReserved (key s) = false) ∧
    c.Recognizes shortly (called "a" "y") := by
  obtain ⟨c, entered⟩ := calledTwice_entered
  have shown : called "a" "y" ∈ c.sorted := entered.recorded.mem_sorted.2 rfl
  have plain : ∀ word ∈ (called "a" "y").name :: (called "a" "y").short?.toList,
      Text.holdsBlank word = false := by decide +kernel
  have free : ∀ s ∈ (called "a" "y").short?, isReserved (key s) = false := by decide +kernel
  refine ⟨c, entered, shown, plain, free, (entered.recognizes_iff shown plain free shortly).2 ?_⟩
  intro _ s short
  obtain rfl : "y" = s := Option.some.inj short
  exact .inr ⟨rfl, rfl⟩

def rivals : List Task :=
  [called "b" "x", called "a" "x"]

theorem taken_short_name_leads_away : ∃ c, Entered rivals c ∧ called "a" "x" ∈ c.sorted ∧
    (∀ u ∈ rivals, ∀ word ∈ u.name :: u.short?.toList, Text.holdsBlank word = false) ∧
    c.lookup (Text.lower (taskWord shortly (called "a" "x"))) = some (called "b" "x") ∧
    called "b" "x" ≠ called "a" "x" := by
  obtain ⟨c, entered⟩ : ∃ c, Entered rivals c :=
    exists_entered (by decide +kernel) (by simp [rivals, called, Task.Spelled])
  refine ⟨c, entered, entered.recorded.mem_sorted.2 rfl, by decide +kernel, ?_, by simp [called]⟩
  rw [entered.recorded.lookup_eq]
  rfl

end Sluice.Catalogue
