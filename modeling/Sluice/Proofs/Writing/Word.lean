import Sluice.Proofs.Steps
import Sluice.Writing

/-! The words of tasks. A task has one unless tasks go by their short names and its own is a value
of another kind, where the writer gives up. -/

namespace Sluice

/-- The short name is something, but no text. -/
def Task.Misnamed (t : Task) : Prop :=
  t.shortName.isTrue = true ∧ ∀ s, t.shortName ≠ .text s

/-- The task is not misnamed, where tasks go by their short names. -/
def Task.Spoken (t : Task) (settings : Settings) : Prop :=
  settings.shortNames = true → ¬t.Misnamed

namespace Task

variable {t : Task} {s : String}

theorem spoken_of_long {settings : Settings} (h : settings.shortNames = false) :
    t.Spoken settings := fun short => by
  rw [h] at short
  cases short

theorem short?_eq_some : t.short? = some s ↔ t.shortName = .text s ∧ s ≠ "" := by
  unfold short?
  cases t.shortName with
  | text r =>
    by_cases empty : r = ""
    · simp only [empty, if_true, reduceCtorEq, Document.text.injEq, false_iff, not_and, not_not]
      exact Eq.symm
    · simp only [empty, if_false, Option.some.injEq, Document.text.injEq]
      exact ⟨fun same => ⟨same, same ▸ empty⟩, And.left⟩
  | _ => simp

theorem not_misnamed (h : t.shortName.isTrue = true → t.short?.isSome = true) : ¬t.Misnamed := by
  rintro ⟨counts, other⟩
  obtain ⟨s, short⟩ := Option.isSome_iff_exists.1 (h counts)
  exact other s (short?_eq_some.1 short).1

theorem checked_ne_empty (h : t.checked = .ok t) : t.name ≠ "" := by
  intro hname
  simp [checked, hname, Text.isVoid] at h

theorem short?_ne_empty (h : t.short? = some s) : s ≠ "" :=
  (short?_eq_some.1 h).2

end Task

namespace Writing

variable {settings : Settings} {t : Task}

def taskWord (settings : Settings) (t : Task) : String :=
  if settings.shortNames then t.short?.getD t.name else t.name

theorem taskWord_mem (t : Task) (settings : Settings) :
    taskWord settings t ∈ t.name :: t.short?.toList := by
  unfold taskWord
  split
  · cases hs : t.short? with
    | none => simp
    | some s => simp
  · simp

theorem taskWord_ne {t : Task} (h : t.checked = .ok t) (settings : Settings) :
    taskWord settings t ≠ "" := by
  rcases List.mem_cons.1 (taskWord_mem t settings) with heq | hs
  · rw [heq]
    exact t.checked_ne_empty h
  · exact t.short?_ne_empty (Option.mem_toList.1 hs)

theorem wordOf_cases (settings : Settings) (t : Task) :
    t.Spoken settings ∧ wordOf settings t = .ok (taskWord settings t) ∨
      ¬t.Spoken settings ∧ wordOf settings t = .error (.noText t.shortName) := by
  unfold wordOf taskWord Task.Spoken Task.Misnamed Task.short?
  cases settings.shortNames with
  | false => exact .inl ⟨by simp, rfl⟩
  | true =>
    cases hs : t.shortName with
    | text s => by_cases empty : s = "" <;> simp [Document.isTrue, empty, pure, Except.pure]
    | _ =>
      cases Document.isTrue _ <;>
        simp [pure, Except.pure, throw, throwThe, MonadExceptOf.throw]

theorem wordOf_eq (h : t.Spoken settings) : wordOf settings t = .ok (taskWord settings t) :=
  ((wordOf_cases settings t).resolve_right fun mute => mute.1 h).2

theorem wordOf_eq_ok {word : String} (h : wordOf settings t = .ok word) :
    taskWord settings t = word := by
  rcases wordOf_cases settings t with ⟨_, spoken⟩ | ⟨_, mute⟩
  · exact Except.ok.inj (spoken.symm.trans h)
  · cases mute.symm.trans h

end Writing

end Sluice
