import Sluice.Proofs.Pipeline.Joining

/-! The jobs of members. Edits leave them proper: what comes in is, and a value that is given
changes no parameter. -/

namespace Sluice.Pipeline

open scoped List

variable {p q : Pipeline}

def Proper (p : Pipeline) : Prop :=
  ∀ m ∈ p.members, m.toJob.Proper

theorem Proper.of_frame (h : p.Proper) (hq : q.frame = p.frame) : q.Proper := by
  intro m hm
  obtain ⟨n, hn, hb⟩ := mem_of_frame hq hm
  have hjob : n.toJob = m.toJob := (congrArg Member.toJob hb :)
  exact hjob ▸ h n hn

theorem Proper.of_subset (h : p.Proper) (hq : q.members ⊆ p.members) : q.Proper :=
  fun m hm => h m (hq hm)

theorem Proper.give (h : p.Proper) (serial position : Nat) (given : Option String) :
    (p.give serial position given).Proper := by
  intro m hm
  obtain ⟨n, hn, rfl⟩ := List.mem_map.1 hm
  split
  · refine ⟨?_, (h n hn).parameters, (h n hn).task⟩
    rw [← (h n hn).arguments]
    refine List.ext_getElem? fun i => ?_
    simp only [List.getElem?_map, List.getElem?_modify]
    cases n.arguments[i]? with
    | none => rfl
    | some a => by_cases hi : position = i <;> simp [hi]
  · exact h n hn

def Edit.Proper (_ : Pipeline) : Edit → Prop
  | .add s _ => s.toJob.Proper
  | _ => True

theorem Edit.Regular.proper {e : Edit} (h : e.Regular p) : e.Proper p := by
  cases e with
  | add s id => exact h.1.toProper
  | _ => trivial

theorem Proper.add (h : p.Proper) {s : Stage} (hs : s.toJob.Proper) {id : Option String}
    {key : String} (hq : p.add s id = .ok (key, q)) : q.Proper := by
  simp only [Pipeline.add, check_eq_ok] at hq
  obtain ⟨_, hq⟩ := hq
  cases hid : Stage.idOf (p.entryKey s id) with
  | error e => simp [hid] at hq
  | ok newId =>
    simp only [hid, pure_eq_ok, Prod.mk.injEq] at hq
    obtain ⟨_, rfl⟩ := hq
    refine List.forall_mem_append.2 ⟨List.forall_mem_map.2 fun m hm => ?_, by simpa using hs⟩
    split <;> exact h m hm

theorem Proper.move (h : p.Proper) {key : String} {position : Int}
    (hq : p.move key position = .ok q) : q.Proper := by
  simp only [Pipeline.move, bind_eq_ok, find_eq_ok_iff, pure_eq_ok] at hq
  obtain ⟨m, hm, rfl⟩ := hq
  intro k hk
  rcases List.eq_or_mem_of_mem_insertIdx hk with rfl | hk
  · exact h k (mem_of_member? hm).1
  · exact h k (List.mem_of_mem_filter hk)

theorem Proper.edit (h : p.Proper) {e : Edit} (he : e.Proper p) : (e.apply p).Proper := by
  cases e with
  | add s id => exact settle_snd_keeps (P := Proper) h fun _ _ hq => h.add he hq
  | remove key =>
    obtain ⟨q, shrinks, hq | hq⟩ := p.remove_cases key
    · rw [Edit.apply, hq]
      exact h.of_frame shrinks.frame
    · rw [Edit.apply, hq]
      exact (h.of_frame shrinks.frame).of_subset List.filter_sublist.subset
  | move key position => exact settle_keeps (P := Proper) h fun _ hq => h.move hq
  | connect source target i j =>
    refine settle_snd_keeps (P := Proper) h fun l q hq => ?_
    obtain ⟨_, rfl⟩ := connect_eq_ok.1 hq
    exact h.of_frame (frame_link p l)
  | disconnect l => exact h.of_frame (shrinks_disconnect p l).frame
  | unlink c => exact h.of_frame (shrinks_unlink p c).frame
  | reorder c links =>
    exact settle_keeps (P := Proper) h fun q hq => h.of_frame (reorder_effect hq).2.1
  | clear => exact fun m hm => absurd hm List.not_mem_nil
  | give serial position given => exact h.give serial position given

theorem Proper.of_built (b : Built Edit.Proper p) : p.Proper := by
  induction b with
  | new name => exact fun m hm => absurd hm List.not_mem_nil
  | edit _ he ih => exact ih.edit he

theorem Built.proper (b : Built Edit.Regular p) : p.Proper :=
  .of_built (b.mono fun _ _ => Edit.Regular.proper)

end Sluice.Pipeline
