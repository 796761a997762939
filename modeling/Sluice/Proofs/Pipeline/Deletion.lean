import Sluice.Proofs.Pipeline.Ends

/-! Links and members that go out. Whatever is taken out of a pipeline, the table and the lists of
the members lose the links that have to go, each of them everywhere, and nothing else changes place:
what stays has the order that it had. -/

namespace Sluice.Pipeline

open scoped List

variable {p q : Pipeline}

/-- What is left has the links that are kept, in the table and in every list, in their order. -/
structure Leaves (p : Pipeline) (keep : Link → Bool) (q : Pipeline) : Prop where
  name : q.name = p.name
  table : q.links = p.links.filter keep
  lists : ∀ key side, q.linksOn key side = (p.linksOn key side).filter keep

@[simp] theorem name_unlist (p : Pipeline) (key : String) (side : Side) (l : Link) :
    (p.unlist key side l).1.name = p.name := by
  unfold unlist
  split
  · rfl
  · split <;> rfl

@[simp] theorem name_drop (p : Pipeline) (l : Link) : (p.drop l).1.name = p.name := by
  have first := name_unlist { p with links := p.links.erase l } l.source .output l
  unfold drop
  split
  · split
    · rename_i q e hq
      rwa [hq] at first
    · rename_i q hq
      rw [hq] at first
      exact (name_unlist q l.target .input l).trans first
  · rfl

@[simp] theorem name_dropAll (p : Pipeline) (ls : List Link) : (p.dropAll ls).1.name = p.name := by
  induction ls generalizing p with
  | nil => rfl
  | cons l r ih =>
    have first := name_drop p l
    unfold dropAll
    split
    · rename_i q hq
      rw [hq] at first
      exact (ih q).trans first
    · rename_i q e hq
      rwa [hq] at first

@[simp] theorem name_remove (p : Pipeline) (key : String) : (p.remove key).1.name = p.name := by
  unfold remove
  split
  · rfl
  · rename_i m _
    have dropped := name_dropAll p (m.incoming ++ m.outgoing)
    split <;> (rename_i hq; rwa [hq] at dropped)

namespace Sound

theorem disconnect_eq (h : p.Sound) {l : Link} (hl : l ∈ p.links) :
    ∃ q, p.disconnect l = (q, none) ∧ q.frame = p.frame ∧ p.Leaves (fun k => k ≠ l) q := by
  obtain ⟨q, hq, _, frame, table, lists⟩ := h.drop hl
  have name := name_drop p l
  rw [hq] at name
  refine ⟨q, ?_, frame, name, table, lists⟩
  rw [Pipeline.disconnect, if_pos (List.contains_iff_mem.2 hl), hq]

theorem length_linksAt (h : p.Sound) (c : Connector) :
    (p.linksAt c).length = p.links.countP fun l => l.placeOn c.side = c.place := by
  rw [List.countP_eq_length_filter]
  refine ((List.perm_ext_iff_of_nodup ((h.linksOn_nodup _ _).filter _)
    (h.links_nodup.filter _)).2 fun l => ?_).length_eq
  change l ∈ p.linksAt c ↔ _
  rw [h.mem_linksAt, List.mem_filter, decide_eq_true_iff]

theorem unlink_eq (h : p.Sound) (c : Connector) :
    ∃ q n, p.unlink c = (q, .ok n) ∧ q.frame = p.frame ∧
      p.Leaves (fun k => k.placeOn c.side ≠ c.place) q ∧ q.links.length + n = p.links.length := by
  have doomed : ∀ l ∈ p.linksAt c, l ∈ p.links := fun l hl => (h.mem_linksAt.1 hl).1
  have nodup : (p.linksAt c).Nodup := (h.linksOn_nodup c.stage c.side).filter _
  obtain ⟨q, hq, _, frame, table, lists⟩ := h.dropAll nodup doomed
  have name := name_dropAll p (p.linksAt c)
  rw [hq] at name
  -- Of the links of the table just those at the place of the connector are at the connector.
  have same : ∀ ls : List Link, (∀ l ∈ ls, l ∈ p.links) →
      (ls.filter fun l => l ∉ p.linksAt c) = ls.filter fun l => l.placeOn c.side ≠ c.place :=
    fun ls inside => List.filter_congr fun l hl => by simp [h.mem_linksAt, inside l hl]
  have table := table.trans (same _ fun _ hl => hl)
  refine ⟨q, (p.linksAt c).length, ?_, frame, ⟨name, table, fun key side => ?_⟩, ?_⟩
  · rw [Pipeline.linksAt] at hq
    simp only [Pipeline.unlink, hq]
    rfl
  · exact (lists key side).trans (same _ fun l hl => (h.mem_linksOn.1 hl).1)
  · rw [table, h.length_linksAt, ← List.countP_eq_length_filter, Nat.add_comm]
    have both := List.length_eq_countP_add_countP (l := p.links) fun l =>
      decide (l.placeOn c.side = c.place)
    simpa using both.symm

theorem farEnd_of_pruned {key : String} (pruned : p.Pruned [key] q) {side : Side} {l : Link}
    (stays : l.endOn side.other ≠ key) : q.farEnd side l = p.farEnd side l := by
  have frame : q.frame = (without p key).frame := by
    rw [pruned.frame]
    simp only [Pipeline.frame, without, List.filter_map, List.mem_singleton]
    rfl
  cases side with
  | input =>
    change q.outputAt l.source _ = p.outputAt l.source _
    rw [outputAt_eq_of_frame frame]
    exact outputAt_congr (member?_without p stays) _
  | output =>
    change q.inputAt l.target _ = p.inputAt l.target _
    rw [inputAt_eq_of_frame frame]
    exact inputAt_congr (member?_without p stays) _

theorem peers_of_pruned (h : p.Sound) (named : p.Named) {key : String} (pruned : p.Pruned [key] q)
    {c : Connector} (stays : c.stage ≠ key) : ∃ ps, p.peers c none = .ok ps ∧
      q.peers c none = .ok (ps.filter fun d => d.stage ≠ key) := by
  obtain ⟨ps, hps, far⟩ := h.peers_far named c none
  refine ⟨ps, hps, ?_⟩
  rw [linksAmong_none] at far
  have listed : q.linksAt c = (p.linksAt c).filter fun l => l.endOn c.side.other ≠ key := by
    rw [linksAt, pruned.lists, List.filter_comm]
    refine List.filter_congr fun l hl => ?_
    have near : l.endOn c.side ≠ key :=
      (h.mem_linksOn.1 (List.mem_filter.1 hl).1).2.symm ▸ stays
    rw [decide_eq_decide]
    exact ⟨fun avoids => List.mem_singleton.not.1 (avoids.endOn c.side.other),
      fun far => Link.avoids_of_ends c.side (by simpa using near) (by simpa using far)⟩
  have kept : List.Forall₂ (fun l d => p.farEnd c.side l = .ok d ∧ d.place = l.placeOn c.side.other)
      (q.linksAt c) (ps.filter fun d => d.stage ≠ key) := by
    rw [listed]
    refine List.rel_filter (fun l d hd => ?_) far
    have far : d.stage = l.endOn c.side.other := congrArg Prod.fst hd.2
    simp [far]
  have found : (q.linksAt c).mapM (q.farEnd c.side) = .ok (ps.filter fun d => d.stage ≠ key) := by
    have inside : ∀ l ∈ q.linksAt c, l.endOn c.side.other ≠ key := fun l hl => by
      rw [listed, List.mem_filter, decide_eq_true_iff] at hl
      exact hl.2
    refine mapM_eq_ok.2 (((List.forall₂_and_left _ _).2 ⟨inside, kept⟩).imp fun l d hd => ?_)
    rw [farEnd_of_pruned pruned hd.1, hd.2.1]
  simp [peers, within, found]

end Sound

/-- Deletions take out what they are asked for and touch nothing else: a link of the table, the
links at whatever connector, which are counted, or a member with its links. The members that stay
are as before, in their order, with their other peers in the same order. -/
structure Deletes (p : Pipeline) : Prop where
  disconnected : ∀ l ∈ p.links, ∃ q, p.disconnect l = (q, none) ∧ q.frame = p.frame ∧
    p.Leaves (fun k => k ≠ l) q
  unlinked : ∀ c, ∃ q n, p.unlink c = (q, .ok n) ∧ q.frame = p.frame ∧
    p.Leaves (fun k => k.placeOn c.side ≠ c.place) q ∧ q.links.length + n = p.links.length
  removed : ∀ m ∈ p.members, ∃ q, p.remove m.key = (q, .ok m) ∧
    q.frame = (p.frame.filter fun n => n.key ≠ m.key) ∧
    p.Leaves (fun k => k.source ≠ m.key ∧ k.target ≠ m.key) q ∧
    ∀ c, c.stage ≠ m.key → ∃ ps, p.peers c none = .ok ps ∧
      q.peers c none = .ok (ps.filter fun d => d.stage ≠ m.key)

/-- After any regular edits deletions succeed, and just the links that have to go are gone. -/
theorem Built.deletes (b : Built Edit.Regular p)
    (names : ∀ m ∈ p.members, Text.startsBlank m.task.name = false) : p.Deletes := by
  have sound := b.sound
  refine ⟨fun l hl => sound.disconnect_eq hl, sound.unlink_eq, fun m hm => ?_⟩
  obtain ⟨q, hq, _, pruned⟩ := sound.remove_eq hm
  have name := name_remove p m.key
  rw [hq] at name
  refine ⟨q, hq, ?_, ⟨name, ?_, fun key side => ?_⟩, fun c stays =>
    sound.peers_of_pruned (sound.named names) pruned stays⟩
  · simpa using pruned.frame
  · simpa [Link.Avoids] using pruned.links
  · simpa [Link.Avoids] using pruned.lists key side

theorem fork_deletes : fork.Deletes :=
  Built.deletes fork_built.regular (by decide +kernel)

end Sluice.Pipeline
