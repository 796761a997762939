import Sluice.Proofs.Ledger.Refinement

/-! The ledgers that edits lead to. Each of them agrees with the pipeline that the same edits lead
to, whether the edits are carried out or refused. -/

namespace Sluice.Ledger

open Pipeline (Edit)

def final {α : Type} : EStateM.Result PipelineError Ledger α → Ledger
  | .ok _ s => s
  | .error _ s => s

def after (s : Ledger) : Edit → Ledger
  | .add stage id => final ((add stage id).run s)
  | .remove key => final ((remove key).run s)
  | .move key position => final ((move key position).run s)
  | .connect source target i j => final ((connect source target i j).run s)
  | .disconnect l => final ((disconnect l).run s)
  | .unlink c => final ((unlink c).run s)
  | .reorder c links => final ((reorder c links).run s)
  | .clear => final (clear.run s)
  | .give serial position given => final ((give serial position given).run s)

/-- What is asked of the caller: a stage that comes in is proper and no member yet, and links are
not named twice when they are reordered. -/
def Regular (s : Ledger) : Edit → Prop
  | .add stage _ => stage.Proper ∧ ∀ e ∈ s.entries, e.2.serial ≠ stage.serial
  | .reorder _ links => links.Nodup
  | _ => True

def Plain (s : Ledger) : Edit → Prop
  | .reorder _ _ => False
  | e => s.Regular e

inductive Built (allowed : Ledger → Edit → Prop) : Ledger → Prop
  | new (name : Option String) : Built allowed (Ledger.new name)
  | edit {s : Ledger} {e : Edit} : Built allowed s → allowed s e → Built allowed (s.after e)

variable {s : Ledger} {p : Pipeline}

theorem Plain.regular {e : Edit} (h : s.Plain e) : s.Regular e := by
  cases e with
  | reorder c links => exact h.elim
  | _ => exact h

theorem Built.regular (b : Built Plain s) : Built Regular s := by
  induction b with
  | new name => exact .new name
  | edit _ he ih => exact .edit ih he.regular

theorem Follows.final {α : Type} {r : EStateM.Result PipelineError Ledger α}
    {y : Except PipelineError α} (h : Follows r p y) : (final r).Agrees p := by
  cases y <;> obtain ⟨t, rfl, agrees⟩ := h <;> exact agrees

namespace Agrees

theorem after (h : s.Agrees p) (e : Edit) : (s.after e).Agrees (e.apply p) := by
  cases e with
  | add stage id => exact (h.add stage id).final
  | remove key => exact (h.remove key).final
  | move key position => exact (h.move key position).final
  | connect source target i j => exact (h.connect source target i j).final
  | disconnect l => exact (h.disconnect l).final
  | unlink c => exact (h.unlink c).final
  | reorder c links => exact (h.reorder c links).final
  | clear => exact h.clear.final
  | give serial position given => exact (h.give serial position given).final

theorem mem_entries (h : s.Agrees p) {m : Member} (hm : m ∈ p.members) :
    (m.key, m.entry) ∈ s.entries := by
  refine Table.mem_of_lookup ?_
  rw [h.entries, Pipeline.member?_of_mem h.nodup hm, Option.map_some]

theorem regular (h : s.Agrees p) {e : Edit} (he : s.Regular e) : e.Regular p := by
  cases e with
  | add stage id => exact ⟨he.1, fun m hm => he.2 _ (h.mem_entries hm)⟩
  | _ => exact he

theorem plain (h : s.Agrees p) {e : Edit} (he : s.Plain e) : e.Plain p := by
  cases e with
  | reorder c links => exact he
  | _ => exact h.regular he.regular

end Agrees

theorem Built.exists_pipeline {allowed : Ledger → Edit → Prop} {permitted : Pipeline → Edit → Prop}
    (b : Built allowed s) (same : ∀ s p e, s.Agrees p → allowed s e → permitted p e) :
    ∃ p, Pipeline.Built permitted p ∧ s.Agrees p := by
  induction b with
  | new name => exact ⟨_, .new name, .new name⟩
  | edit _ he ih =>
    obtain ⟨p, hp, agrees⟩ := ih
    exact ⟨_, .edit hp (same _ _ _ agrees he), agrees.after _⟩

def fork : Ledger :=
  Pipeline.forkEdits.foldl after (Ledger.new none)

theorem fork_built : Built Plain fork := by
  simp only [fork, Pipeline.forkEdits, List.foldl_cons, List.foldl_nil]
  refine .edit (.edit (.edit (.edit (.edit (.edit (.new none) ?_) ?_) ?_) ?_) ?_) ?_
  · exact ⟨Pipeline.proper_sink 0 _, by decide +kernel⟩
  · exact ⟨Pipeline.proper_sink 1 _, by decide +kernel⟩
  · exact ⟨Pipeline.proper_source 2 _, by decide +kernel⟩
  · trivial
  · trivial
  · trivial

end Sluice.Ledger
