import Mathlib.Algebra.GroupWithZero.Nat
import Sluice.Proofs.Writing.Schedule

/-! Which numbers the writer gives out. The numbers of a member are larger than all that were given
out before, and they do not change the numbers under which others are read. -/

namespace Sluice.Writing

open Pipeline

variable {p : Pipeline} {among : List String} {readers : Connector → Nat} {last : Nat}
  {cs : List Connector} {e : Connector × Nat} {m : Member} {l : Link}

theorem span_pos (n : Nat) : 0 < span n := by
  unfold span
  split <;> omega

theorem lastOf_cons (readers : Connector → Nat) (last : Nat) (c : Connector)
    (cs : List Connector) :
    lastOf readers last (c :: cs) = lastOf readers (last + span (readers c)) cs := rfl

theorem last_le_lastOf (readers : Connector → Nat) (last : Nat) (cs : List Connector) :
    last ≤ lastOf readers last cs := by
  induction cs generalizing last with
  | nil => exact Nat.le_refl _
  | cons c r ih =>
    rw [lastOf_cons]
    exact Nat.le_trans (Nat.le_add_right _ _) (ih _)

theorem bounds_of_numbered (h : e ∈ numbered readers last cs) :
    last < e.2 ∧ e.2 + span (readers e.1) ≤ lastOf readers last cs + 1 := by
  induction cs generalizing last with
  | nil => simp [numbered] at h
  | cons c r ih =>
    rw [lastOf_cons]
    rcases List.mem_cons.1 h with rfl | h
    · have := last_le_lastOf readers (last + span (readers c)) r
      change last < last + 1 ∧ last + 1 + span (readers c) ≤ _
      omega
    · obtain ⟨hlt, hle⟩ := ih h
      have := span_pos (readers c)
      exact ⟨by omega, hle⟩

theorem snd_numbered_nodup (readers : Connector → Nat) (last : Nat) (cs : List Connector) :
    ((numbered readers last cs).map Prod.snd).Nodup := by
  induction cs generalizing last with
  | nil => exact List.nodup_nil
  | cons c r ih =>
    refine List.nodup_cons.2 ⟨fun hmem => ?_, ih _⟩
    obtain ⟨e, he, hsame⟩ := List.mem_map.1 hmem
    have := (bounds_of_numbered he).1
    have := span_pos (readers c)
    omega

theorem lastOf_append (readers : Connector → Nat) (last : Nat) (cs ds : List Connector) :
    lastOf readers last (cs ++ ds) = lastOf readers (lastOf readers last cs) ds :=
  List.foldl_append

theorem numbered_append (readers : Connector → Nat) (last : Nat) (cs ds : List Connector) :
    numbered readers last (cs ++ ds) =
      numbered readers last cs ++ numbered readers (lastOf readers last cs) ds := by
  induction cs generalizing last with
  | nil => rfl
  | cons c r ih => rw [List.cons_append, numbered, numbered, ih, lastOf_cons, List.cons_append]

def used (readers : Connector → Nat) (e : Connector × Nat) : List Nat :=
  List.range' e.2 (span (readers e.1))

theorem flatMap_used (readers : Connector → Nat) (last : Nat) (cs : List Connector) :
    (numbered readers last cs).flatMap (used readers) =
      List.range' (last + 1) (cs.map fun c => span (readers c)).sum := by
  induction cs generalizing last with
  | nil => rfl
  | cons c r ih =>
    rw [numbered, List.flatMap_cons, ih, List.map_cons, List.sum_cons, used, Nat.add_right_comm]
    exact List.range'_append_1

theorem sum_span (readers : Connector → Nat) (cs : List Connector) :
    (cs.map fun c => span (readers c)).sum =
      cs.length + ((cs.map readers).filter (1 < ·)).sum := by
  induction cs with
  | nil => rfl
  | cons c r ih =>
    rw [List.map_cons, List.sum_cons, ih, List.length_cons, List.map_cons, span]
    by_cases several : 1 < readers c
    · rw [if_neg (Nat.not_le.2 several), List.filter_cons_of_pos (by simpa using several),
        List.sum_cons]
      omega
    · rw [if_pos (Nat.not_lt.1 several), List.filter_cons_of_neg (by simpa using several)]
      omega

theorem mem_used {n : Nat} :
    n ∈ used readers e ↔ e.2 ≤ n ∧ n < e.2 + span (readers e.1) :=
  List.mem_range'_1

theorem eq_of_used {d : Connector × Nat} {n : Nat} (he : e ∈ numbered readers last cs)
    (hd : d ∈ numbered readers last cs) (hn : n ∈ used readers e) (hn' : n ∈ used readers d) :
    e = d := by
  induction cs generalizing last with
  | nil => cases he
  | cons c r ih =>
    have later : ∀ o ∈ numbered readers (last + span (readers c)) r, n ∈ used readers o →
        n ∉ used readers (c, last + 1) := by
      intro o ho hno hnc
      have := (bounds_of_numbered ho).1
      simp only [mem_used] at hno hnc
      omega
    rcases List.mem_cons.1 he with rfl | he
    · rcases List.mem_cons.1 hd with rfl | hd
      · rfl
      · exact absurd hn (later d hd hn')
    · rcases List.mem_cons.1 hd with rfl | hd
      · exact absurd hn' (later e he hn)
      · exact ih he hd

theorem exists_numbered (readers : Connector → Nat) (last : Nat) {c : Connector} (h : c ∈ cs) :
    ∃ n, (c, n) ∈ numbered readers last cs := by
  rw [← map_fst_numbered readers last cs] at h
  obtain ⟨e, he, rfl⟩ := List.mem_map.1 h
  exact ⟨e.2, he⟩

variable {settings : Settings} {layout : Layout} {w : Writing}

theorem pipeOf_after_old (h : l.source ≠ m.id) :
    pipeOf p among (after p settings layout among w m).numbers l = pipeOf p among w.numbers l := by
  have hnone : (((numberedOutputs p among w.last m).map
      (countedFrom (Writing.readers p among))).reverse).lookup (l.placeOn .output) = none := by
    rw [List.lookup_eq_none_iff]
    intro e he
    obtain ⟨o, ho, rfl⟩ := List.mem_map.1 (List.mem_reverse.1 he)
    rw [bne_iff_ne]
    intro heq
    have hplace := Member.place_of_mem (mem_of_numbered ho)
    exact h (congrArg Prod.fst (heq.trans hplace))
  rw [pipeOf, after, List.lookup_append, hnone, Option.none_or]
  rfl

theorem pipeOf_after_new (he : e ∈ numberedOutputs p among w.last m)
    (hl : l.placeOn .output = e.1.place) :
    pipeOf p among (after p settings layout among w m).numbers l =
      (if Writing.readers p among e.1 ≤ 1 then e.2 else e.2 + 1) +
        (p.linksAmong (l.placeOn .output) (some among)).idxOf l := by
  have nodup : ((((numberedOutputs p among w.last m).map
      (countedFrom (Writing.readers p among))).reverse).map Prod.fst).Nodup := by
    have hplaces : ((numberedOutputs p among w.last m).map
        (countedFrom (Writing.readers p among))).map Prod.fst = m.outputs.map Connector.place := by
      rw [← map_fst_numbered (Writing.readers p among) w.last m.outputs, List.map_map,
        List.map_map]
      rfl
    rw [List.map_reverse, List.nodup_reverse, hplaces]
    refine List.Nodup.of_map (fun t => t.2.2) ?_
    rw [List.map_map]
    exact m.slots_nodup .output
  have hmem : (l.placeOn .output, if Writing.readers p among e.1 ≤ 1 then e.2 else e.2 + 1) ∈
      ((numberedOutputs p among w.last m).map (countedFrom (Writing.readers p among))).reverse := by
    rw [List.mem_reverse, List.mem_map]
    exact ⟨e, he, by rw [countedFrom, hl]⟩
  rw [pipeOf, after, List.lookup_append, Table.lookup_of_mem nodup hmem]
  rfl

end Sluice.Writing
