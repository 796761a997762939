import Sluice.Proofs.Reading.Restoring
import Sluice.Proofs.Writing.Twins

/-! Writing some of the members. The text for them is the text of the pipeline that is left when the
others are taken out, whichever of these goes first. -/

namespace Sluice

open Pipeline Writing
open scoped List

variable {p q r : Pipeline} {gone more : List String} {chosen : List Member}
  {settings : Settings} {layout : Layout}

namespace Pipeline

def removeAll (p : Pipeline) : List String → Except PipelineError Pipeline
  | [] => pure p
  | key :: keys => do
    let (q, result) := p.remove key
    let _ ← result
    q.removeAll keys

namespace Pruned

theorem refl (p : Pipeline) : p.Pruned [] p where
  frame := by simp
  links := by simp [Link.Avoids]
  lists := by simp [Link.Avoids]

theorem avoids_append {l : Link} : l.Avoids (gone ++ more) ↔ l.Avoids more ∧ l.Avoids gone := by
  simp only [Link.Avoids, List.mem_append, not_or]
  tauto

theorem trans (h : p.Pruned gone q) (h' : q.Pruned more r) : p.Pruned (gone ++ more) r where
  frame := by
    rw [h'.frame, h.frame, List.filter_filter]
    exact List.filter_congr fun m _ => by simp [Bool.and_comm]
  links := by
    rw [h'.links, h.links, List.filter_filter]
    exact List.filter_congr fun l _ => by simp [avoids_append]
  lists := by
    intro key side
    rw [h'.lists, h.lists, List.filter_filter]
    exact List.filter_congr fun l _ => by simp [avoids_append]

theorem mem_keys (h : p.Pruned gone q) {key : String} :
    key ∈ q.keys ↔ key ∈ p.keys ∧ key ∉ gone := by
  have keys : ∀ s : Pipeline, s.keys = s.frame.map Member.key := fun s => by
    simp [Pipeline.keys, Pipeline.frame, Function.comp_def]
  rw [keys q, h.frame, keys p]
  simp only [List.mem_map, List.mem_filter, decide_eq_true_iff]
  constructor
  · rintro ⟨m, ⟨hm, hgone⟩, rfl⟩
    exact ⟨⟨m, hm, rfl⟩, hgone⟩
  · rintro ⟨⟨m, hm, rfl⟩, hgone⟩
    exact ⟨m, ⟨hm, hgone⟩, rfl⟩

theorem linksAmong (h : p.Pruned gone q) (place : String × Side × Nat)
    (among : Option (List String)) :
    q.linksAmong place among = (p.linksAmong place among).filter fun l => l.Avoids gone := by
  simp only [Pipeline.linksAmong, h.lists, List.filter_filter]
  exact List.filter_congr fun l _ => by ac_rfl

theorem named (h : p.Pruned gone q) (named : p.Named) : q.Named := by
  intro n hn
  have hbare : n.bare ∈ q.frame := List.mem_map_of_mem hn
  rw [h.frame, List.mem_filter] at hbare
  obtain ⟨m, hm, heq⟩ := List.mem_map.1 hbare.1
  have hid : m.id = n.id := (congrArg Member.id heq :)
  have hkey : m.key = n.key := (congrArg Member.key heq :)
  rw [← hid, ← hkey, named m hm]

end Pruned

theorem Sound.removeAll (h : p.Sound) (nodup : gone.Nodup) (inside : ∀ key ∈ gone, key ∈ p.keys) :
    ∃ q, p.removeAll gone = .ok q ∧ q.Sound ∧ p.Pruned gone q := by
  induction gone generalizing p with
  | nil => exact ⟨p, rfl, h, .refl p⟩
  | cons key keys ih =>
    obtain ⟨hnew, hkeys⟩ := List.nodup_cons.1 nodup
    obtain ⟨m, hm, rfl⟩ := exists_member (inside key List.mem_cons_self)
    obtain ⟨q, hq, sound, first⟩ := h.remove_eq hm
    have left : ∀ k ∈ keys, k ∈ q.keys := fun k hk =>
      first.mem_keys.2 ⟨inside k (List.mem_cons_of_mem _ hk), by
        rw [List.mem_singleton]
        rintro rfl
        exact hnew hk⟩
    obtain ⟨r, hr, sound', rest⟩ := ih sound hkeys left
    refine ⟨r, ?_, sound', first.trans rest⟩
    rw [Pipeline.removeAll, hq]
    exact hr

theorem twins_of_bare {ms ns : List Member} (settings : Settings) (layout : Layout)
    (same : ns.map Member.bare = ms.map Member.bare) :
    List.Forall₂ (Member.Twin settings layout id) ms ns := by
  have pairs : List.Forall₂ (fun m n : Member => m.bare = n.bare) ms ns := by
    rw [← List.forall₂_map_right_iff, ← List.forall₂_map_left_iff, List.forall₂_eq_eq_eq]
    exact same.symm
  refine pairs.imp fun m n heq => ⟨?_, ?_, ?_⟩
  · exact (congrArg Member.id heq :).symm
  · exact (congrArg (fun m => m.task) heq :).symm
  · exact (congrArg (fun m => valueParts settings layout m.toJob) heq :).symm

theorem text_eq_of_sameOutcome {first second : Except PipelineError Writing}
    (h : SameOutcome id first second) (layout : Layout) :
    first.map (Writing.text layout) = second.map (Writing.text layout) := by
  cases h with
  | written w => rfl
  | cycle ids => rw [List.map_id]
  | mute value => rfl

section

variable (hp : p.Sound) (inOrder : chosen <+ p.members)
  (outside : ∀ key, key ∈ gone ↔ key ∈ p.keys ∧ key ∉ chosen.map Member.key)
include hp inOrder outside

theorem stays_iff {m : Member} (hm : m ∈ p.members) : m.key ∉ gone ↔ m ∈ chosen := by
  have hkey : m.key ∈ p.keys := List.mem_map_of_mem hm
  rw [outside, not_and_not_right]
  refine ⟨fun h => ?_, fun h _ => List.mem_map_of_mem h⟩
  obtain ⟨n, hn, heq⟩ := List.mem_map.1 (h hkey)
  rwa [← List.inj_on_of_nodup_map hp.keys_nodup (inOrder.subset hn) hm heq]

theorem Pruned.map_bare (h : p.Pruned gone q) :
    q.members.map Member.bare = chosen.map Member.bare := by
  have stays : chosen = p.members.filter fun m => m.key ∉ gone := by
    have sub := inOrder.filter fun m => m.key ∉ gone
    rw [List.filter_eq_self.2 fun m hm => decide_eq_true
      ((stays_iff hp inOrder outside (inOrder.subset hm)).2 hm)] at sub
    refine sub.eq_of_length_le (List.Subperm.length_le (List.subperm_of_subset ?_ fun m hm => ?_))
    · exact (List.Nodup.of_map _ hp.keys_nodup).filter _
    · obtain ⟨hm, hstays⟩ := List.mem_filter.1 hm
      exact (stays_iff hp inOrder outside hm).1 (of_decide_eq_true hstays)
  rw [stays]
  have hframe := h.frame
  rw [Pipeline.frame, Pipeline.frame, List.filter_map] at hframe
  exact hframe

theorem Pruned.corresponds (h : p.Pruned gone q) (named : p.Named) :
    p.Corresponds q (chosen.map Member.id) (chosen.map Member.id) id where
  inj := fun a _ b _ h => h
  links := by
    have stays : ∀ id ∈ chosen.map Member.id, id ∉ gone := by
      intro id hid
      obtain ⟨m, hm, rfl⟩ := List.mem_map.1 hid
      have hmem := inOrder.subset hm
      exact named m hmem ▸ (stays_iff hp inOrder outside hmem).2 hm
    intro m _ counts side c hc
    change q.linksAmong c.place _ = (p.linksAmong c.place _).map id
    obtain ⟨hstage, _, _⟩ := Member.mem_connectors hc
    rw [List.map_id, h.linksAmong, List.filter_eq_self]
    intro l hl
    obtain ⟨⟨_, hplace⟩, far⟩ := hp.mem_linksAmong.1 hl
    have near : l.endOn c.side = m.id := (congrArg Prod.fst hplace).trans hstage
    exact decide_eq_true (Link.avoids_of_ends c.side (near ▸ stays _ counts)
      (stays _ (within_some.1 far)))

end

/-- Writing some members in the order of the pipeline and writing what is left of the pipeline
without the others is the same, in whatever order the others go. -/
theorem Built.write_of_removeAll (b : Built Edit.Regular p)
    (names : ∀ m ∈ p.members, Text.startsBlank m.task.name = false) (settings : Settings)
    (layout : Layout) (inOrder : chosen <+ p.members) (nodup : gone.Nodup)
    (outside : ∀ key, key ∈ gone ↔ key ∈ p.keys ∧ key ∉ chosen.map Member.key) :
    ∃ q, p.removeAll gone = .ok q ∧
      p.write settings layout (some (chosen.map Member.toStage)) =
        q.write settings layout none := by
  have hp := b.sound
  have named := hp.named names
  obtain ⟨q, hq, hp', pruned⟩ := hp.removeAll nodup fun key hkey => ((outside key).1 hkey).1
  have named' := pruned.named named
  have same := pruned.map_bare hp inOrder outside
  have ids : q.members.map Member.id = chosen.map Member.id := by
    simpa [Function.comp_def] using congrArg (List.map Member.id) same
  refine ⟨q, hq, ?_⟩
  have outcome := writeQueue_rename (w := Writing.start (toolBlocks settings layout)) hp named hp'
    named' (pruned.corresponds hp inOrder outside named) 0 (by simp [HasNumbers, Writing.start])
    ⟨by simp [Writing.start], by simp [Writing.start]⟩
    (fun m hm => ⟨inOrder.subset hm, List.mem_map_of_mem hm⟩)
    (fun n hn => ⟨hn, ids ▸ List.mem_map_of_mem hn⟩) (twins_of_bare settings layout same)
  change _ = q.write settings layout (some (q.members.map Member.toStage))
  rw [write_eq hp named settings layout fun m hm => inOrder.subset hm,
    write_eq hp' named' settings layout fun m hm => hm, ids]
  exact text_eq_of_sameOutcome outcome layout

theorem fork_without_first : ∃ q, fork.removeAll ["first"] = .ok q ∧
    fork.write Settings.default (Layout.ofDialect Dialect.cmd true)
      (some ((fork.members.filter fun m => m.key ≠ "first").map Member.toStage)) =
        q.write Settings.default (Layout.ofDialect Dialect.cmd true) none := by
  refine fork_built.regular.write_of_removeAll (by decide +kernel) _ _ List.filter_sublist
    (by decide) fun key => ?_
  have keys : fork.keys = ["first", "sink_1", "source_2"] := by decide +kernel
  have chosen : (fork.members.filter fun m => m.key ≠ "first").map Member.key =
      ["sink_1", "source_2"] := by decide +kernel
  rw [keys, chosen]
  simp only [List.mem_cons, List.not_mem_nil, or_false]
  constructor
  · rintro rfl
    decide
  · tauto

end Pipeline

end Sluice
