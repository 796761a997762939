import Sluice.Proofs.Catalogue

/-! What a catalogue has been told. Of all tasks that were entered under a name the catalogue shows
the last one, and a short name leads to the name of the task that was last entered with it, whatever
stands under that name by now. -/

namespace Sluice

open Catalogue

theorem Text.lower_eq_key_iff {s word : String} :
    Text.lower s = key word ↔ Text.trim s = s ∧ key s = key word := by
  constructor
  · intro same
    have trimmed : Text.Chars.Trimmed s.toList := by
      rw [← Text.trimmed_lower, same, key, Text.trimmed_lower, Text.trim, String.toList_ofList]
      exact Text.Chars.trimmed_trim _
    have trim := Text.trim_eq_self trimmed
    exact ⟨trim, by rw [key, trim, same]⟩
  · rintro ⟨trim, same⟩
    rw [← same, key, trim]

namespace Task

variable {t : Task} {s word : String}

def Spelled (t : Task) : Prop :=
  t.shortName = .null ∨ ∃ s, t.shortName = .text s

def Trimmed (t : Task) : Prop :=
  Text.trim t.name = t.name ∧ ∀ s ∈ t.short?, Text.trim s = s

theorem isNamed_eq_true : t.isNamed word = .ok true ↔
    Text.lower t.name = key word ∨ ∃ s, t.shortName = .text s ∧ Text.lower s = key word := by
  unfold isNamed key
  by_cases name : Text.lower t.name = Text.lower (Text.trim word)
  · simp [name]
  · cases t.shortName <;> simp [name]

theorem Spelled.isNamed_eq_ok (h : t.Spelled) (word : String) : ∃ b, t.isNamed word = .ok b := by
  unfold isNamed
  obtain none | ⟨s, text⟩ := h
  · simp only [none]
    split <;> exact ⟨_, rfl⟩
  · simp only [text]
    split <;> exact ⟨_, rfl⟩

end Task

namespace Catalogue

variable {c d : Catalogue} {ts : List Task} {t : Task} {k word : String}

inductive Entered : List Task → Catalogue → Prop
  | empty : Entered [] empty
  | task {ts : List Task} {c d : Catalogue} {t : Task} : Entered ts c → c.register t = (d, none) →
    Entered (t :: ts) d

def latest (ts : List Task) (k : String) : Option Task :=
  ts.find? fun t => key t.name = k

def latestShort (ts : List Task) (k : String) : Option Task :=
  ts.find? fun t => t.short?.any fun s => key s = k

structure Recorded (ts : List Task) (c : Catalogue) : Prop where
  tasks : ∀ k, c.tasks.lookup k = latest ts k
  shortNames : ∀ k, c.shortNames.lookup k = (latestShort ts k).map fun t => key t.name
  holds : c.Holds ts

/-- Whatever was entered under the name of the task had the short name that it has. -/
def KeepsShortName (ts : List Task) (t : Task) : Prop :=
  ∀ u ∈ ts, key u.name = key t.name → u.short?.map key = t.short?.map key

/-- How a catalogue answers by what was entered. The tasks that it shows are the last ones of their
names. A word stands for the last task of that name, or else for what is shown under the name of the
last task with that short name. The task that is found goes by the word, unless it has blanks around
its names or another short name than it had before; and when none is found, none goes by the word,
but for the one that has an empty text in place of a short name. -/
structure Answers (ts : List Task) (c : Catalogue) : Prop where
  shown : ∀ t, t ∈ c.sorted ↔ latest ts (key t.name) = some t
  lookup : ∀ word, c.lookup word = (latest ts (key word)).or
    ((latestShort ts (key word)).bind fun t => latest ts (key t.name))
  found : ∀ word t, c.lookup word = some t →
    t ∈ c.sorted ∧ (t.Trimmed → KeepsShortName ts t → t.isNamed word = .ok true)
  missed : ∀ word, c.lookup word = none → ∀ t ∈ c.sorted,
    t.isNamed word = .ok false ∨ t.shortName = .text "" ∧ key word = ""

theorem register_fst (free : isReserved (key t.name) = false) (c : Catalogue) :
    (c.register t).1 = ⟨Table.put (key t.name) t c.tasks, t.short?.elim c.shortNames fun s =>
      Table.put (key s) (key t.name) c.shortNames⟩ := by
  unfold register Task.short?
  simp only [free, Bool.false_eq_true, if_false]
  cases t.shortName with
  | text s => by_cases empty : s = "" <;> simp [empty]
  | _ => rfl

theorem register_of_spelled (free : isReserved (key t.name) = false) (spelled : t.Spelled)
    (c : Catalogue) : ∃ d, c.register t = (d, none) := by
  unfold register
  simp only [free, Bool.false_eq_true, if_false]
  obtain none | ⟨s, text⟩ := spelled
  · exact ⟨_, by simp only [none, Document.isTrue]; rfl⟩
  · simp only [text]
    split <;> exact ⟨_, rfl⟩

theorem free_of_register (h : c.register t = (d, none)) : isReserved (key t.name) = false := by
  cases reserved : isReserved (key t.name) with
  | true => simp [register, reserved] at h
  | false => rfl

theorem not_misnamed_of_register (h : c.register t = (d, none)) : ¬t.Misnamed := by
  rintro ⟨something, other⟩
  have free := free_of_register h
  unfold register at h
  simp only [free, Bool.false_eq_true, if_false, something, if_true] at h
  cases (Prod.mk.inj h).2

theorem Entered.not_misnamed (h : Entered ts c) : ∀ t ∈ ts, ¬t.Misnamed := by
  induction h with
  | empty => simp
  | task _ made ih => exact List.forall_mem_cons.2 ⟨not_misnamed_of_register made, ih⟩

theorem exists_entered (free : ∀ t ∈ ts, isReserved (key t.name) = false)
    (spelled : ∀ t ∈ ts, t.Spelled) : ∃ c, Entered ts c := by
  induction ts with
  | nil => exact ⟨_, .empty⟩
  | cons t r ih =>
    obtain ⟨first, rest⟩ := List.forall_mem_cons.1 free
    obtain ⟨first', rest'⟩ := List.forall_mem_cons.1 spelled
    obtain ⟨c, entered⟩ := ih rest rest'
    obtain ⟨d, made⟩ := register_of_spelled first first' c
    exact ⟨d, .task entered made⟩

theorem Holds.mono {us : List Task} (h : c.Holds ts) (sub : ts ⊆ us) : c.Holds us :=
  ⟨h.keys_nodup, fun e he => ⟨sub (h.tasks e he).1, (h.tasks e he).2⟩⟩

theorem Recorded.register (h : Recorded ts c) (free : isReserved (key t.name) = false) :
    Recorded (t :: ts) (c.register t).1 := by
  refine ⟨fun k => ?_, fun k => ?_, (h.holds.mono (List.subset_cons_self _ _)).register (by simp)⟩
  · rw [register_fst free, latest, List.find?_cons]
    by_cases hk : key t.name = k
    · simp [hk]
    · simp [Table.lookup_put_of_ne (Ne.symm hk), hk, h.tasks k, latest]
  · rw [register_fst free, latestShort, List.find?_cons]
    cases short : t.short? with
    | none => simpa [latestShort] using h.shortNames k
    | some s =>
      by_cases hk : key s = k
      · simp [hk]
      · simp [Table.lookup_put_of_ne (Ne.symm hk), hk, h.shortNames k, latestShort]

theorem Entered.recorded (h : Entered ts c) : Recorded ts c := by
  induction h with
  | empty =>
    refine ⟨fun k => rfl, fun k => rfl, ?_, ?_⟩ <;> simp [Catalogue.empty]
  | task _ made ih =>
    have := ih.register (free_of_register made)
    rwa [made] at this

theorem latest_eq_some (h : latest ts k = some t) : t ∈ ts ∧ key t.name = k :=
  ⟨List.mem_of_find?_eq_some h, by simpa using List.find?_some h⟩

theorem latestShort_eq_some (h : latestShort ts k = some t) :
    t ∈ ts ∧ ∃ s, t.short? = some s ∧ key s = k := by
  refine ⟨List.mem_of_find?_eq_some h, ?_⟩
  simpa [Option.any_eq_true] using List.find?_some h

theorem exists_latest (ht : t ∈ ts) : ∃ u, latest ts (key t.name) = some u :=
  Option.isSome_iff_exists.1 (List.find?_isSome.2 ⟨t, ht, by simp⟩)

theorem exists_latestShort (ht : t ∈ ts) {s : String} (short : t.short? = some s) :
    ∃ u, latestShort ts (key s) = some u :=
  Option.isSome_iff_exists.1 (List.find?_isSome.2 ⟨t, ht, by simp [short]⟩)

namespace Recorded

variable (h : Recorded ts c)
include h

theorem lookup_eq (word : String) : c.lookup word = (latest ts (key word)).or
    ((latestShort ts (key word)).bind fun t => latest ts (key t.name)) := by
  have tasks : (c.tasks.lookup ·) = latest ts := funext h.tasks
  rw [Catalogue.lookup, h.tasks, h.shortNames, Option.bind_map, tasks]
  cases latest ts (key word) <;> rfl

theorem mem_sorted : t ∈ c.sorted ↔ latest ts (key t.name) = some t := by
  simp only [sorted, List.mem_map, List.mem_mergeSort]
  constructor
  · rintro ⟨e, hmem, rfl⟩
    obtain ⟨_, name⟩ := h.holds.tasks e hmem
    rw [← h.tasks, ← name]
    exact Table.lookup_of_mem h.holds.keys_nodup hmem
  · intro last
    rw [← h.tasks] at last
    exact ⟨(key t.name, t), Table.mem_of_lookup last, rfl⟩

theorem shown_of_lookup (found : c.lookup word = some t) : t ∈ c.sorted := by
  rw [h.lookup_eq, Option.or_eq_some_iff] at found
  rw [h.mem_sorted]
  obtain last | ⟨_, short⟩ := found
  · rwa [(latest_eq_some last).2]
  · obtain ⟨u, _, last⟩ := Option.bind_eq_some_iff.1 short
    rwa [(latest_eq_some last).2]

theorem isNamed_of_lookup (found : c.lookup word = some t) (trimmed : t.Trimmed)
    (kept : KeepsShortName ts t) : t.isNamed word = .ok true := by
  obtain ⟨trimName, trimShort⟩ := trimmed
  rw [Task.isNamed_eq_true]
  rw [h.lookup_eq, Option.or_eq_some_iff] at found
  obtain named | ⟨_, short⟩ := found
  · exact .inl (Text.lower_eq_key_iff.2 ⟨trimName, (latest_eq_some named).2⟩)
  · obtain ⟨u, owner, last⟩ := Option.bind_eq_some_iff.1 short
    obtain ⟨hu, s, hs, word⟩ := latestShort_eq_some owner
    -- The task that took the short name need not be the one that is found, but has its name.
    have same := kept u hu (latest_eq_some last).2.symm
    rw [hs, Option.map_some, eq_comm, Option.map_eq_some_iff] at same
    obtain ⟨r, hr, keys⟩ := same
    refine .inr ⟨r, (Task.short?_eq_some.1 hr).1, ?_⟩
    exact Text.lower_eq_key_iff.2 ⟨trimShort r hr, keys.trans word⟩

theorem not_isNamed_of_lookup (missed : c.lookup word = none) (shown : t ∈ c.sorted)
    (named : t.isNamed word = .ok true) : t.shortName = .text "" ∧ key word = "" := by
  have ht := (latest_eq_some (h.mem_sorted.1 shown)).1
  rw [h.lookup_eq, Option.or_eq_none_iff, Option.bind_eq_none_iff] at missed
  obtain ⟨noName, noShort⟩ := missed
  obtain same | ⟨s, text, same⟩ := Task.isNamed_eq_true.1 named
  · obtain ⟨_, same⟩ := Text.lower_eq_key_iff.1 same
    obtain ⟨u, last⟩ := exists_latest ht
    rw [same, noName] at last
    cases last
  · by_cases empty : s = ""
    · subst empty
      exact ⟨text, same.symm⟩
    · obtain ⟨_, same⟩ := Text.lower_eq_key_iff.1 same
      obtain ⟨u, owner⟩ := exists_latestShort ht (Task.short?_eq_some.2 ⟨text, empty⟩)
      obtain ⟨v, last⟩ := exists_latest (latestShort_eq_some owner).1
      rw [same] at owner
      rw [noShort u owner] at last
      cases last

end Recorded

/-- Whatever tasks were entered one after the other, the catalogue answers by the last ones. -/
theorem Entered.answers (h : Entered ts c) (spelled : ∀ t ∈ ts, t.Spelled) : Answers ts c := by
  have recorded := h.recorded
  refine ⟨fun t => recorded.mem_sorted, recorded.lookup_eq, fun word t found => ⟨?_, ?_⟩,
    fun word missed t shown => ?_⟩
  · exact recorded.shown_of_lookup found
  · exact recorded.isNamed_of_lookup found
  · have ht := (latest_eq_some (recorded.mem_sorted.1 shown)).1
    obtain ⟨b, answer⟩ := (spelled t ht).isNamed_eq_ok word
    cases b with
    | false => exact .inl answer
    | true => exact .inr (recorded.not_isNamed_of_lookup missed shown answer)

def called (name short : String) : Task :=
  ⟨name, .text short, "", [], [], []⟩

def calledTwice : List Task :=
  [called "a" "y", called "a" "x"]

theorem calledTwice_spelled : ∀ t ∈ calledTwice, t.Spelled := by
  simp [calledTwice, called, Task.Spelled]

theorem calledTwice_entered : ∃ c, Entered calledTwice c :=
  exists_entered (by decide +kernel) calledTwice_spelled

theorem calledTwice_answers : ∃ c, Entered calledTwice c ∧ (∀ t ∈ calledTwice, t.Spelled) ∧
    Answers calledTwice c := by
  obtain ⟨c, entered⟩ := calledTwice_entered
  exact ⟨c, entered, calledTwice_spelled, entered.answers calledTwice_spelled⟩

theorem old_short_name_leads_on : ∃ c, Entered calledTwice c ∧
    c.lookup "x" = some (called "a" "y") ∧ (called "a" "y").isNamed "x" = .ok false := by
  obtain ⟨c, entered⟩ := calledTwice_entered
  refine ⟨c, entered, ?_, rfl⟩
  rw [entered.recorded.lookup_eq]
  rfl

end Catalogue

end Sluice
