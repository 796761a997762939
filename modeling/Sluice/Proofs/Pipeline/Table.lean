import Sluice.Proofs.Pipeline.Ends

/-! The table of links. The lists of the members keep its order as long as no links are reordered,
and a connector is a peer of each of its peers. -/

namespace Sluice.Pipeline

open scoped List

variable {p : Pipeline}

def InOrder (p : Pipeline) : Prop :=
  ∀ key side, p.linksOn key side = p.links.filter fun l => l.endOn side = key

theorem InOrder.thinned {q : Pipeline} (h : p.InOrder) (t : p.Thinned q) : q.InOrder := by
  obtain ⟨keep, hlinks, hlists⟩ := t
  intro key side
  rw [hlists, h key side, hlinks, List.filter_comm]

theorem InOrder.of_eq {q : Pipeline} (h : p.InOrder) (links : q.links = p.links)
    (lists : q.linksOn = p.linksOn) : q.InOrder := by
  intro key side
  rw [lists, links]
  exact h key side

theorem InOrder.link (h : p.InOrder) {l : Link} (hl : p.Fits l) : (p.link l).InOrder := by
  intro key side
  rw [linksOn_link (hl.mem_keys .output) (hl.mem_keys .input), links_link, List.filter_append,
    h key side]
  by_cases hend : l.endOn side = key <;> simp [hend]

theorem InOrder.edit (h : p.InOrder) (hp : p.Sound) {e : Edit} (he : e.Plain p) :
    (e.apply p).InOrder := by
  cases e with
  | add s id =>
    refine settle_snd_keeps (P := InOrder) h fun _ _ hq => ?_
    obtain ⟨_, hlinks, hlists⟩ := hp.add he.1.id he.2 hq
    exact h.of_eq hlinks hlists
  | remove key => exact h.thinned (hp.remove key).2
  | move key position =>
    refine settle_keeps (P := InOrder) h fun _ hq => ?_
    obtain ⟨_, hlinks, hlists⟩ := hp.move hq
    exact h.of_eq hlinks hlists
  | connect source target i j =>
    refine settle_snd_keeps (P := InOrder) h fun _ _ hq => ?_
    obtain ⟨hl, rfl⟩ := connect_eq_ok.1 hq
    obtain ⟨c, d, ha⟩ := allowed_of_ok hl
    exact h.link ha.fits
  | disconnect l => exact h.thinned (hp.disconnect l).2
  | unlink c => exact h.thinned (hp.unlink c).2
  | reorder c links => exact he.elim
  | clear => exact fun key side => linksOn_of_not_mem (by simp [Edit.apply, clear, keys]) side
  | give serial position given => exact h.of_eq rfl (hp.give serial position given).2

theorem Built.inOrder (b : Built Edit.Plain p) : p.InOrder := by
  induction b with
  | new name => exact fun key side => linksOn_of_not_mem (by simp [Pipeline.new, keys]) side
  | edit hb he ih => exact ih.edit hb.regular.sound he

theorem Sound.peers_symm (h : p.Sound) (named : p.Named) (c d : Connector) :
    ∃ cs ds, p.peers c none = .ok cs ∧ p.peers d none = .ok ds ∧
      (cs.contains d = true ↔ ds.contains c = true) := by
  obtain ⟨cs, hcs, _⟩ := h.peers_eq named c none
  obtain ⟨ds, hds, _⟩ := h.peers_eq named d none
  refine ⟨cs, ds, hcs, hds, ?_⟩
  rw [h.mem_peers named hcs, h.mem_peers named hds]
  constructor
  · rintro ⟨hside, l, hl, hc, hd⟩
    exact ⟨by simp [hside], l, hl, hd, hc⟩
  · rintro ⟨hside, l, hl, hd, hc⟩
    exact ⟨by simp [hside], l, hl, hc, hd⟩

end Sluice.Pipeline
