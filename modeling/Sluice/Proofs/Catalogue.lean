import Sluice.Proofs.Reading.Grounded
import Sluice.Proofs.Reading.Restoring

/-! The bundled catalogue. Each of its tasks passes the checks, can be told apart from others by its
name and by its short name, and has nothing in its names and defaults that a command line could not
hold. -/

namespace Sluice

open CommandLine

structure Task.Faithful (t : Task) : Prop where
  checked : t.checked = .ok t
  parameters : ∀ a ∈ t.parameters, a.checked = .ok a
  plain : t.Plain
  defaults : ∀ a ∈ t.parameters, ∀ v ∈ a.default, Text.holdsBlank v = false ∧ Quoteless v.toList

namespace Catalogue

variable {c : Catalogue} {t : Task} {word : String}

structure Holds (c : Catalogue) (ts : List Task) : Prop where
  keys_nodup : (c.tasks.map Prod.fst).Nodup
  tasks : ∀ e ∈ c.tasks, e.2 ∈ ts ∧ e.1 = key e.2.name

theorem Holds.register {ts : List Task} (h : c.Holds ts) (ht : t ∈ ts) :
    (c.register t).1.Holds ts := by
  have entered : Holds { c with tasks := Table.put (key t.name) t c.tasks } ts := by
    refine ⟨Table.nodup_put _ _ h.keys_nodup, fun e he => ?_⟩
    rcases Table.mem_of_put he with rfl | he
    · exact ⟨ht, rfl⟩
    · exact h.tasks e he
  unfold Catalogue.register
  dsimp only
  split
  · exact h
  · split
    · split
      · exact entered
      · exact ⟨entered.keys_nodup, entered.tasks⟩
    · exact entered

theorem Holds.registerAll {ts all : List Task} (h : c.Holds all) (sub : ts ⊆ all) :
    (ts.foldl (fun c t => (c.register t).1) c).Holds all := by
  induction ts generalizing c with
  | nil => exact h
  | cons t r ih =>
    obtain ⟨ht, hr⟩ := List.cons_subset.1 sub
    rw [List.foldl_cons]
    exact ih (h.register ht) hr

theorem bundled_holds : bundled.Holds Bundled.tasks := by
  have start : empty.Holds Bundled.tasks := ⟨by simp [empty], by simp [empty]⟩
  have sub : Bundled.tasks ⊆ Bundled.tasks := List.Subset.refl _
  rw [bundled]
  exact start.registerAll sub

theorem lookup_register_self (free : isReserved (key t.name) = false) (c : Catalogue) :
    (c.register t).1.tasks.lookup (key t.name) = some t := by
  rw [register, if_neg (by simp [free])]
  split
  · split <;> exact Table.lookup_put_self ..
  · exact Table.lookup_put_self ..

theorem lookup_register_of_ne {other : String} (h : other ≠ key t.name) (c : Catalogue) :
    (c.register t).1.tasks.lookup other = c.tasks.lookup other := by
  unfold Catalogue.register
  dsimp only
  split
  · rfl
  · split
    · split <;> exact Table.lookup_put_of_ne h ..
    · exact Table.lookup_put_of_ne h ..

theorem lookup_registerAll {ts : List Task} (free : ∀ t ∈ ts, isReserved (key t.name) = false)
    (nodup : (ts.map fun t => key t.name).Nodup) (ht : t ∈ ts) (c : Catalogue) :
    (ts.foldl (fun c t => (c.register t).1) c).tasks.lookup (key t.name) = some t := by
  have keeps : ∀ (r : List Task) (c : Catalogue), key t.name ∉ r.map (fun t => key t.name) →
      (r.foldl (fun c t => (c.register t).1) c).tasks.lookup (key t.name) =
        c.tasks.lookup (key t.name) := by
    intro r
    induction r with
    | nil => exact fun _ _ => rfl
    | cons u r ih =>
      intro c hnew
      obtain ⟨hne, hr⟩ := List.ne_and_not_mem_of_not_mem_cons hnew
      rw [List.foldl_cons, ih _ hr, lookup_register_of_ne hne]
  induction ts generalizing c with
  | nil => cases ht
  | cons u r ih =>
    obtain ⟨new, nodup⟩ := List.nodup_cons.1 nodup
    rw [List.foldl_cons]
    rcases List.mem_cons.1 ht with rfl | ht
    · rw [keeps r _ new, lookup_register_self (free t (by simp))]
    · exact ih (fun u hu => free u (by simp [hu])) nodup ht _

theorem orBundled_bundled : bundled.orBundled = bundled := by
  unfold orBundled
  split <;> rfl

theorem Bundled.checks : ∀ t ∈ Bundled.tasks, Text.isVoid t.name = false ∧
    t.positionalNames.length ≤ 1 ∧ (t.parameters.map fun p => Text.lower p.name).Nodup := by
  decide +kernel

theorem Bundled.names : (∀ t ∈ Bundled.tasks, isReserved (key t.name) = false) ∧
    (Bundled.tasks.map fun t => key t.name).Nodup := by
  decide +kernel

theorem Bundled.lookup_name (ht : t ∈ Bundled.tasks) : bundled.lookup t.name = some t := by
  obtain ⟨free, nodup⟩ := Bundled.names
  have stands : bundled.tasks.lookup (key t.name) = some t := lookup_registerAll free nodup ht empty
  rw [Catalogue.lookup, stands]

theorem Bundled.parameters : ∀ t ∈ Bundled.tasks, ∀ a ∈ t.parameters,
    Text.isVoid a.name = false ∧ (∀ c ∈ a.name.toList, isKeyChar c = true ∧ isQuote c = false) ∧
      startsDashes a.name.toList = false ∧ overlongSlot? a.name = none ∧ pipeKey? a.name = none ∧
      ∀ v ∈ a.default, Text.holdsBlank v = false ∧ Quoteless v.toList := by
  decide +kernel

theorem Bundled.verbatim : ∀ t ∈ Bundled.tasks, (∀ a ∈ t.parameters, a.verbatim = false) ∨
    t.parameters.length = 1 ∧
      ∀ a ∈ t.parameters, a.positional = true ∧ a.verbatim = true ∧ a.default = none := by
  decide +kernel

theorem Bundled.slots : ∀ t ∈ Bundled.tasks, t.inputs.length ≤ 2 ∧ t.outputs.length ≤ 2 := by
  decide

theorem Bundled.words : ∀ t ∈ Bundled.tasks, ∀ word ∈ t.name :: t.short?.toList,
    Flow.ofTee? (Text.lower word) = none ∧ Text.holdsBlank word = false := by
  decide +kernel

theorem Bundled.faithful (ht : t ∈ Bundled.tasks) : t.Faithful := by
  obtain ⟨name, positional, names⟩ := Bundled.checks t ht
  have parameters := Bundled.parameters t ht
  refine ⟨?_, fun a ha => ?_, ⟨fun a ha => ?_, ?_, fun slots hslots i hi => ?_⟩, fun a ha => ?_⟩
  · rw [Task.checked, name, if_neg (by simp), if_neg (by omega), if_pos names]
    rfl
  · rw [Parameter.checked, (parameters a ha).1]
    rfl
  · obtain ⟨_, hword, hdash, hoverlong, hpipe, _⟩ := parameters a ha
    exact ⟨hword, hdash, readPipeKey_eq_none.2 ⟨hoverlong, hpipe⟩⟩
  · refine (Bundled.verbatim t ht).imp_right ?_
    rintro ⟨hone, hall⟩
    obtain ⟨a, ha⟩ := List.length_eq_one_iff.1 hone
    exact ⟨a, ha, hall a (by simp [ha])⟩
  · have hslots' : slots.length ≤ 2 := by
      obtain ⟨hin, hout⟩ := Bundled.slots t ht
      rcases List.mem_pair.1 hslots with rfl | rfl
      · exact hin
      · exact hout
    exact Text.readable_of_le (by omega)
  · exact (parameters a ha).2.2.2.2.2

theorem faithful_of_lookup (found : bundled.lookup word = some t) : t.Faithful := by
  obtain ⟨name, hmem⟩ := mem_of_lookup found
  exact Bundled.faithful (bundled_holds.tasks _ hmem).1

theorem Bundled.shortNames : ∀ e ∈ bundled.tasks, ∀ s ∈ e.2.short?,
    (bundled.tasks.lookup (key s)).isNone = true ∧
      bundled.shortNames.lookup (key s) = some e.1 := by
  decide +kernel

theorem Bundled.not_misnamed {t : Task} (ht : t ∈ Bundled.tasks) : ¬t.Misnamed := by
  have named : ∀ t ∈ Bundled.tasks, t.shortName.isTrue = true → t.short?.isSome = true := by
    decide +kernel
  exact t.not_misnamed (named t ht)

theorem bundled_knows (found : bundled.lookup word = some t) (settings : Settings) :
    bundled.Knows settings t := by
  obtain ⟨name, hmem⟩ := mem_of_lookup found
  obtain ⟨ht, hname⟩ := bundled_holds.tasks _ hmem
  have stands : bundled.tasks.lookup name = some t :=
    Table.lookup_of_mem bundled_holds.keys_nodup hmem
  have word := Writing.taskWord_mem t settings
  obtain ⟨no_tee, nonblank⟩ := Bundled.words t ht _ word
  refine ⟨fun _ => Bundled.not_misnamed ht, ?_, no_tee, nonblank⟩
  rcases List.mem_cons.1 word with heq | hshort
  · have hkey : key (Writing.taskWord settings t) = name := heq ▸ hname.symm
    rw [Catalogue.lookup, hkey, stands]
  · obtain ⟨hnone, hfound⟩ := Bundled.shortNames _ hmem _ (Option.mem_toList.1 hshort)
    simp only [Catalogue.lookup, Option.isNone_iff_eq_none.1 hnone, hfound, Option.bind_some,
      stands]

end Catalogue

end Sluice
