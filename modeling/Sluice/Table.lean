/-! Tables: lists of keys with their values, in the order in which the keys came in. A key stands
once, and a new value for it takes the place of the old one. -/

namespace Sluice.Table

variable {α : Type}

def put (key : String) (value : α) : List (String × α) → List (String × α)
  | [] => [(key, value)]
  | (k, v) :: r => if k = key then (k, value) :: r else (k, v) :: put key value r

@[simp] theorem lookup_put_self (key : String) (value : α) (t : List (String × α)) :
    (put key value t).lookup key = some value := by
  induction t with
  | nil => simp [put]
  | cons e r ih =>
    obtain ⟨k, v⟩ := e
    by_cases h : k = key
    · simp [put, h]
    · simp [put, h, List.lookup_cons, beq_false_of_ne (Ne.symm h), ih]

theorem lookup_put_of_ne {key other : String} (h : other ≠ key) (value : α)
    (t : List (String × α)) : (put key value t).lookup other = t.lookup other := by
  induction t with
  | nil => simp [put, List.lookup_cons, beq_false_of_ne h]
  | cons e r ih =>
    obtain ⟨k, v⟩ := e
    by_cases hk : k = key
    · subst hk
      simp [put, List.lookup_cons, beq_false_of_ne h]
    · simp only [put, hk, if_false, List.lookup_cons, ih]

theorem keys_put_of_mem {key : String} {t : List (String × α)} (h : key ∈ t.map Prod.fst)
    (value : α) : (put key value t).map Prod.fst = t.map Prod.fst := by
  induction t with
  | nil => simp at h
  | cons e r ih =>
    obtain ⟨k, v⟩ := e
    by_cases hk : k = key
    · simp [put, hk]
    · have : key ∈ r.map Prod.fst := (List.mem_cons.1 h).resolve_left (Ne.symm hk)
      simp [put, hk, ih this]

theorem keys_put_of_not_mem {key : String} {t : List (String × α)} (h : key ∉ t.map Prod.fst)
    (value : α) : (put key value t).map Prod.fst = t.map Prod.fst ++ [key] := by
  induction t with
  | nil => rfl
  | cons e r ih =>
    obtain ⟨k, v⟩ := e
    obtain ⟨hk, hr⟩ := not_or.1 (mt List.mem_cons.2 h)
    simp [put, Ne.symm hk, ih hr]

theorem nodup_put (key : String) (value : α) {t : List (String × α)}
    (h : (t.map Prod.fst).Nodup) : ((put key value t).map Prod.fst).Nodup := by
  by_cases hk : key ∈ t.map Prod.fst
  · rwa [keys_put_of_mem hk]
  · rw [keys_put_of_not_mem hk]
    refine List.nodup_append.2 ⟨h, by simp, fun k hmem other same => ?_⟩
    obtain rfl := List.mem_singleton.1 same
    exact ne_of_mem_of_not_mem hmem hk

theorem mem_of_put {key : String} {value : α} {t : List (String × α)} {e : String × α}
    (h : e ∈ put key value t) : e = (key, value) ∨ e ∈ t := by
  induction t with
  | nil => simpa [put] using h
  | cons d r ih =>
    rw [put] at h
    split at h
    · rename_i hk
      exact (List.mem_cons.1 h).imp (fun he => hk ▸ he) (List.mem_cons_of_mem _)
    · rcases List.mem_cons.1 h with rfl | h
      · exact .inr List.mem_cons_self
      · exact (ih h).imp_right (List.mem_cons_of_mem _)

def remove (key : String) (t : List (String × α)) : List (String × α) :=
  t.filter fun e => e.1 ≠ key

theorem keys_remove (key : String) (t : List (String × α)) :
    (remove key t).map Prod.fst = (t.map Prod.fst).filter fun k => k ≠ key := by
  rw [remove, List.filter_map]
  rfl

section

variable {κ : Type} [BEq κ] [LawfulBEq κ] {key : κ} {value : α} {t : List (κ × α)}

theorem lookup_isSome_iff : (t.lookup key).isSome ↔ key ∈ t.map Prod.fst := by
  induction t with
  | nil => simp
  | cons e r ih =>
    obtain ⟨k, v⟩ := e
    by_cases hk : key = k
    · simp [hk]
    · rw [List.lookup_cons, beq_false_of_ne hk, ih]
      simp [hk]

theorem lookup_eq_none_iff : t.lookup key = none ↔ key ∉ t.map Prod.fst := by
  rw [← Option.not_isSome_iff_eq_none, lookup_isSome_iff]

theorem mem_of_lookup (h : t.lookup key = some value) : (key, value) ∈ t := by
  obtain ⟨before, after, rfl, _⟩ := List.lookup_eq_some_iff.1 h
  simp

theorem lookup_of_mem (nodup : (t.map Prod.fst).Nodup) (h : (key, value) ∈ t) :
    t.lookup key = some value := by
  induction t with
  | nil => simp at h
  | cons e r ih =>
    obtain ⟨hnew, hr⟩ := List.nodup_cons.1 nodup
    rcases List.mem_cons.1 h with rfl | h
    · exact List.lookup_cons_self
    · have hne : key ≠ e.1 := fun heq => hnew (heq ▸ List.mem_map_of_mem (f := Prod.fst) h)
      rw [List.lookup_cons, beq_false_of_ne hne]
      exact ih hr h

end

theorem lookup_remove_self (key : String) (t : List (String × α)) :
    (remove key t).lookup key = none := by
  rw [lookup_eq_none_iff, keys_remove]
  simp

theorem lookup_remove_of_ne {key other : String} (h : other ≠ key) (t : List (String × α)) :
    (remove key t).lookup other = t.lookup other := by
  induction t with
  | nil => rfl
  | cons e r ih =>
    obtain ⟨k, v⟩ := e
    by_cases hk : k = key
    · rw [remove, List.filter_cons_of_neg (by simpa using hk), List.lookup_cons,
        beq_false_of_ne (hk ▸ h)]
      exact ih
    · rw [remove, List.filter_cons_of_pos (by simpa using hk), List.lookup_cons, List.lookup_cons]
      cases other == k
      · exact ih
      · rfl

theorem lookup_map (f : α → α) (key : String) (t : List (String × α)) :
    (t.map fun e => (e.1, f e.2)).lookup key = (t.lookup key).map f := by
  induction t with
  | nil => rfl
  | cons e r ih =>
    obtain ⟨k, v⟩ := e
    rw [List.map_cons, List.lookup_cons, List.lookup_cons]
    cases key == k
    · exact ih
    · rfl

end Sluice.Table
