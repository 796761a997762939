import Sluice.Proofs.Catalogue.History

/-! Catalogue files that are refused. What stands before the entry at fault stays entered, and that
entry leaves nothing behind, with one exception: the task of an entry is in before its short name is
looked at, and stays when something that is no text stands there. -/

namespace Sluice

namespace Table

variable {α : Type} {key : String} {value : α} {t : List (String × α)}

theorem put_of_lookup (h : t.lookup key = some value) : put key value t = t := by
  induction t with
  | nil => cases h
  | cons e r ih =>
    obtain ⟨k, v⟩ := e
    by_cases hk : k = key
    · subst hk
      simp only [List.lookup_cons, BEq.rfl, Option.some.injEq] at h
      simp [put, h]
    · rw [List.lookup_cons, beq_false_of_ne (Ne.symm hk)] at h
      simp [put, hk, ih h]

theorem length_put (h : t.lookup key = none) : (put key value t).length = t.length + 1 := by
  induction t with
  | nil => rfl
  | cons e r ih =>
    obtain ⟨k, v⟩ := e
    by_cases hk : k = key
    · simp [hk] at h
    · rw [List.lookup_cons, beq_false_of_ne (Ne.symm hk)] at h
      simp [put, hk, ih h]

end Table

namespace Catalogue

variable {b c d : Catalogue} {t u : Task} {e : CatalogueError} {entry : Document}
  {entries : List Document} {fields : List (String × Document)} {path : String}

def enter (c : Catalogue) (t : Task) : Catalogue :=
  { c with tasks := Table.put (key t.name) t c.tasks }

/-- The catalogues cannot be told apart by looking up words, going through the tasks or counting
them. -/
structure Alike (c d : Catalogue) : Prop where
  lookup : ∀ word, c.lookup word = d.lookup word
  sorted : c.sorted = d.sorted
  size : c.size = d.size

structure Misnames (entry : Document) (t : Task) : Prop where
  task : Task.ofDocument entry = .ok t
  free : isReserved (key t.name) = false
  misnamed : t.Misnamed

/-- What a refused entry makes of a catalogue. Only a task with a wrong short name leaves a trace,
and only where the catalogue has not held that very task under its name before. -/
structure Leaves (entry : Document) (b d : Catalogue) : Prop where
  nothing : (∀ t, ¬Misnames entry t) → d = b
  task : ∀ t, Misnames entry t → d = b.enter t
  alike_iff : Alike d b ↔ ∀ t, Misnames entry t → b.tasks.lookup (key t.name) = some t

theorem Alike.refl (c : Catalogue) : Alike c c :=
  ⟨fun _ => rfl, rfl, rfl⟩

theorem alike_enter_iff : Alike (c.enter t) c ↔ c.tasks.lookup (key t.name) = some t := by
  constructor
  · intro alike
    have found : c.lookup t.name = some t := by
      rw [← alike.lookup, Catalogue.lookup, enter, Table.lookup_put_self]
    cases stands : c.tasks.lookup (key t.name) with
    | some u => simpa [Catalogue.lookup, stands] using found
    | none =>
      have longer := alike.size
      simp only [size, enter, Table.length_put stands] at longer
      omega
  · intro stands
    rw [enter, Table.put_of_lookup stands]
    exact Alike.refl c

theorem register_refused (h : c.register t = (d, some e)) :
    isReserved (key t.name) = true ∧ d = c ∨
      isReserved (key t.name) = false ∧ t.Misnamed ∧ d = c.enter t := by
  unfold register at h
  dsimp only at h
  split at h
  · rename_i reserved
    exact .inl ⟨reserved, (Prod.mk.inj h).1.symm⟩
  · rename_i free
    have free : isReserved (key t.name) = false := by simpa using free
    split at h
    · split at h <;> cases (Prod.mk.inj h).2
    · rename_i other
      obtain ⟨same, refused⟩ := Prod.mk.inj h
      split at refused
      · rename_i something
        exact .inr ⟨free, ⟨something, other⟩, same.symm⟩
      · cases refused

theorem Misnames.unique (h : Misnames entry t) (h' : Misnames entry u) : t = u :=
  Except.ok.inj (h.task.symm.trans h'.task)

theorem leaves_nothing (none : ∀ t, ¬Misnames entry t) (b : Catalogue) : Leaves entry b b :=
  ⟨fun _ => rfl, fun t h => absurd h (none t),
    iff_of_true (Alike.refl b) fun t h => absurd h (none t)⟩

theorem Misnames.leaves (h : Misnames entry t) (b : Catalogue) : Leaves entry b (b.enter t) := by
  refine ⟨fun none => absurd h (none t), fun u hu => by rw [h.unique hu], ?_⟩
  rw [alike_enter_iff]
  exact ⟨fun stands u hu => h.unique hu ▸ stands, fun all => all t h⟩

theorem registerEntry_refused (h : b.registerEntry entry = (d, some e)) : Leaves entry b d := by
  unfold registerEntry at h
  split at h
  · rename_i t read
    obtain ⟨reserved, rfl⟩ | ⟨free, misnamed, rfl⟩ := register_refused h
    · refine leaves_nothing (fun u hu => ?_) d
      obtain rfl := Except.ok.inj (read.symm.trans hu.task)
      simp [hu.free] at reserved
    · exact Misnames.leaves ⟨read, free, misnamed⟩ b
  · rename_i unread
    obtain ⟨rfl, _⟩ := Prod.mk.inj h
    refine leaves_nothing (fun u hu => ?_) b
    simp [hu.task] at unread

theorem registerAll_refused (h : c.registerAll entries = (d, some e)) :
    ∃ before entry after b, entries = before ++ entry :: after ∧
      c.registerAll before = (b, none) ∧ b.registerEntry entry = (d, some e) := by
  induction entries generalizing c with
  | nil => cases h
  | cons first r ih =>
    rw [registerAll] at h
    split at h
    · rename_i next entered
      obtain ⟨before, entry, after, b, split, all, refused⟩ := ih h
      refine ⟨first :: before, entry, after, b, by rw [split, List.cons_append], ?_, refused⟩
      rw [registerAll, entered]
      exact all
    · rename_i next refusal refused
      exact ⟨[], first, r, c, rfl, rfl, refused.trans h⟩

theorem optionalParts_list (listed : Document.find? "tasks" fields = some (.list entries)) :
    Task.optionalParts "tasks" fields = .ok entries := by
  unfold Task.optionalParts
  rw [listed]
  cases entries <;> rfl

/-- Loading a file that is refused enters the entries before the one at fault, and of that one at
most a task with a wrong short name. -/
theorem load_refused (listed : Document.find? "tasks" fields = some (.list entries))
    (refused : c.load path (.record fields) = (d, .error e)) :
    ∃ before entry after b, entries = before ++ entry :: after ∧
      c.registerAll before = (b, none) ∧ b.registerEntry entry = (d, some e) ∧
      Leaves entry b d := by
  have all : c.registerAll entries = (d, some e) := by
    simp only [load, optionalParts_list listed] at refused
    split at refused
    · cases (Prod.mk.inj refused).2
    · rename_i next error run
      obtain ⟨rfl, same⟩ := Prod.mk.inj refused
      cases same
      exact run
  obtain ⟨before, entry, after, b, split, entered, stopped⟩ := registerAll_refused all
  exact ⟨before, entry, after, b, split, entered, stopped, registerEntry_refused stopped⟩

def entryOf (name : String) (short : Document) : Document :=
  .record [("name", .text name), ("short_name", short)]

def misspelt : List Document :=
  [entryOf "a" .null, entryOf "b" (.whole 5), entryOf "c" .null]

theorem misspelt_refused : ∃ d, empty.load "catalogue.yaml" (.record [("tasks", .list misspelt)]) =
    (d, .error (.badTask .wrongKind)) :=
  ⟨_, rfl⟩

theorem misspelt_leaves : Document.find? "tasks" [("tasks", .list misspelt)] =
      some (.list misspelt) ∧
    ∃ d, empty.load "catalogue.yaml" (.record [("tasks", .list misspelt)]) =
        (d, .error (.badTask .wrongKind)) ∧
      ∃ before entry after b, misspelt = before ++ entry :: after ∧
        empty.registerAll before = (b, none) ∧
        b.registerEntry entry = (d, some (.badTask .wrongKind)) ∧ Leaves entry b d := by
  obtain ⟨d, refused⟩ := misspelt_refused
  exact ⟨rfl, d, refused, load_refused rfl refused⟩

theorem refused_task_stays : ∃ b d, empty.registerAll [entryOf "a" .null] = (b, none) ∧
    empty.load "catalogue.yaml" (.record [("tasks", .list misspelt)]) =
      (d, .error (.badTask .wrongKind)) ∧
    b.registerEntry (entryOf "b" (.whole 5)) = (d, some (.badTask .wrongKind)) ∧
    (b.lookup "b").isSome = false ∧ (d.lookup "b").isSome = true ∧ ¬Alike d b := by
  refine ⟨_, _, rfl, rfl, rfl, rfl, rfl, fun alike => ?_⟩
  exact absurd alike.size (by decide)

end Catalogue

end Sluice
