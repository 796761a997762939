import Sluice.Proofs.Pipeline.Effect
import Sluice.Proofs.Text.Numeral

/-! The two ids of a member. Its key and the id that it goes by are one text, unless the name of
its task starts with a blank: a fresh key then keeps what the id loses. -/

namespace Sluice

def Text.startsBlank (s : String) : Bool :=
  s.toList.head?.any isBlank

theorem Text.startsBlank_of_nonblank {s : String} (h : holdsBlank s = false) :
    startsBlank s = false := by
  have nonblank : ∀ c ∈ s.toList, isBlank c = false := by simpa [holdsBlank] using h
  rw [startsBlank]
  cases hs : s.toList with
  | nil => rfl
  | cons c r => simpa using nonblank c (by simp [hs])

namespace Pipeline

theorem toList_numberedId (task : String) (n : Nat) :
    (numberedId task n).toList =
      (task.toList.map fun c => if c = '/' ∨ c = ' ' then '_' else c) ++
        '_' :: Nat.toDigits 10 n := by
  simp [numberedId, idBase]

theorem trim_numberedId {task : String} (h : Text.startsBlank task = false) (n : Nat) :
    Text.trim (numberedId task n) = numberedId task n := by
  refine Text.trim_eq_self ⟨fun c hc => ?_, fun c hc => ?_⟩
  · rw [toList_numberedId] at hc
    cases ht : task.toList with
    | nil =>
      simp only [ht, List.map_nil, List.nil_append, List.head?_cons, Option.mem_some_iff] at hc
      subst hc
      decide
    | cons d r =>
      simp only [ht, List.map_cons, List.cons_append, List.head?_cons, Option.mem_some_iff] at hc
      subst hc
      split
      · decide
      · simpa [Text.startsBlank, ht] using h
  · rw [toList_numberedId] at hc
    have hlast : c ∈ (Nat.toDigits 10 n).getLast? := by
      rw [List.getLast?_append_of_ne_nil _ (by simp)] at hc
      rwa [List.getLast?_cons_of_ne_nil Nat.toDigits_ne_nil] at hc
    exact Text.isBlank_of_mem_toDigits (List.mem_of_getLast? hlast)

theorem exists_freshId (p : Pipeline) (task : String) : ∃ n, p.freshId task = numberedId task n :=
  ⟨_, rfl⟩

theorem trim_entryKey (p : Pipeline) {s : Stage} (hs : ∀ id, s.id = some id → Text.trim id = id)
    (id : Option String)
    (h : Text.startsBlank s.task.name = false) :
    Text.trim (p.entryKey s id) = p.entryKey s id := by
  unfold entryKey
  cases id with
  | some id => exact Text.trim_trim id
  | none =>
    cases hid : s.id with
    | some id => exact hs id hid
    | none =>
      obtain ⟨n, hn⟩ := p.exists_freshId s.task.name
      simp only [hn]
      exact trim_numberedId h n

end Pipeline

end Sluice
