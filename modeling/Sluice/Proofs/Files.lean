import Sluice.Files
import Sluice.Proofs.Steps

/-! What is written is there. A path still leads to the same place when a file has been written
there, the file is the text that was written, and all other places are as before. -/

namespace Sluice.Files

variable {files after : Files} {place other : List String} {path text : String}

theorem content?_put (files : Files) (place other : List String) (text : String) :
    (files.put place text).content? other =
      if place = other then some (.text text) else files.content? other := by
  induction files with
  | nil => by_cases h : place = other <;> simp [put, content?, h]
  | cons file r ih =>
    rw [put]
    by_cases hfile : file.1 = place
    · subst hfile
      by_cases h : file.1 = other <;> simp [content?, h]
    · rw [if_neg hfile]
      by_cases h : file.1 = other
      · subst h
        simp [content?, Ne.symm hfile]
      · simpa [content?, h] using ih

def makes (place : List String) (file : List String × Content) : Bool :=
  place.isPrefixOf file.1 &&
    (place.length < file.1.length || match file.2 with | .directory => true | _ => false)

theorem isDirectory_eq (files : Files) (place : List String) :
    files.isDirectory place = (place.all Path.isTop || files.any (makes place)) := rfl

theorem makes_text (place : List String) (text : String) :
    makes place (place, .text text) = false := by
  simp [makes]

theorem makes_of_place {file : List String × Content} (hfile : file.1 = place)
    (no_directory : makes place file = false) (h : makes other file = true) (text : String) :
    makes other (place, .text text) = true := by
  subst hfile
  simp only [makes, Bool.and_eq_true, Bool.or_eq_true] at h ⊢
  refine ⟨h.1, h.2.imp_right fun named => ?_⟩
  have itself : file.1.isPrefixOf file.1 = true := by simp
  simp [makes, named, itself] at no_directory

theorem isDirectory_put (h : files.isDirectory place = false) (text : String)
    (directory : files.isDirectory other = true) :
    (files.put place text).isDirectory other = true := by
  rw [isDirectory_eq, Bool.or_eq_true] at directory ⊢
  refine directory.imp_right fun made => ?_
  have no_directory : files.any (makes place) = false := (Bool.or_eq_false_iff.1 h).2
  clear h directory
  induction files with
  | nil => cases made
  | cons file r ih =>
    simp only [List.any_cons, Bool.or_eq_true, Bool.or_eq_false_iff] at made no_directory
    rw [put]
    split
    · rename_i hfile
      simp only [List.any_cons, Bool.or_eq_true]
      exact made.imp_left fun first => makes_of_place hfile no_directory.1 first text
    · simp only [List.any_cons, Bool.or_eq_true]
      exact made.imp_right fun rest => ih rest no_directory.2

theorem isDirectory_put_self (h : files.isDirectory place = false) (text : String) :
    (files.put place text).isDirectory place = false := by
  rw [isDirectory_eq, Bool.or_eq_false_iff] at h ⊢
  obtain ⟨top, made⟩ := h
  refine ⟨top, ?_⟩
  clear top
  induction files with
  | nil => simp [put, makes_text]
  | cons file r ih =>
    rw [List.any_cons, Bool.or_eq_false_iff] at made
    rw [put]
    split
    · rw [List.any_cons, makes_text]
      exact made.2
    · rw [List.any_cons, made.1]
      exact ih made.2

theorem walk_mono (more : ∀ place, files.isDirectory place = true → after.isDirectory place = true)
    {steps start : List String} (h : files.walk path start steps = .ok place) :
    after.walk path start steps = .ok place := by
  induction steps generalizing start with
  | nil => exact h
  | cons part r ih =>
    rw [walk] at h ⊢
    split at h
    · rename_i directory
      rw [if_pos (more _ directory)]
      split at h
      · simp at h
      · rename_i short
        rw [if_neg short]
        exact ih h
    · split at h <;> simp at h

theorem follow_mono
    (more : ∀ place, files.isDirectory place = true → after.isDirectory place = true)
    {steps : List String} (h : files.follow path steps = .ok place) :
    after.follow path steps = .ok place := by
  simp only [follow, check_eq_ok] at h ⊢
  exact h.imp_right fun h => h.imp_right fun h => h.imp_right (walk_mono more)

theorem locate_eq_ok : files.locate path = .ok place ↔
    files.follow path (Path.steps path) = .ok place ∧
      (path.endsWith "/" && files.isFile place) = false := by
  simp only [locate, bind_eq_ok, check_eq_ok, pure_eq_ok, Bool.not_eq_true]
  constructor
  · rintro ⟨found, walked, free, rfl⟩
    exact ⟨walked, free⟩
  · rintro ⟨walked, free⟩
    exact ⟨place, walked, free, rfl⟩

theorem write_eq_ok : files.write path text = .ok after ↔ path.endsWith "/" = false ∧
    ∃ place, files.locate path = .ok place ∧ files.isDirectory place = false ∧
      files.put place text = after := by
  unfold write
  split
  · rename_i slash
    simp [slash]
  · rename_i slash
    simp only [bind_eq_ok, check_eq_ok, pure_eq_ok, Bool.not_eq_true]
    simp [slash]

theorem locate_write (h : files.write path text = .ok after) :
    ∃ place, files.locate path = .ok place ∧ after.locate path = .ok place ∧
      after.isDirectory place = false ∧ after = files.put place text := by
  obtain ⟨slash, place, located, no_directory, rfl⟩ := write_eq_ok.1 h
  refine ⟨place, located, ?_, isDirectory_put_self no_directory text, rfl⟩
  obtain ⟨walked, _⟩ := locate_eq_ok.1 located
  exact locate_eq_ok.2 ⟨follow_mono (fun _ => isDirectory_put no_directory text) walked, by
    rw [slash, Bool.false_and]⟩

theorem read_write (h : files.write path text = .ok after) :
    after.read path = .ok (String.ofList (unifyLineEnds text.toList)) := by
  obtain ⟨place, _, located, no_directory, rfl⟩ := locate_write h
  simp only [read, located, ok_bind, no_directory, content?_put, if_true]
  rfl

end Sluice.Files
