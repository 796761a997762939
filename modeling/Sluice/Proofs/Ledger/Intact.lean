import Sluice.Proofs.Ledger.Built
import Sluice.Proofs.Pipeline.Table

/-! The parts of a ledger tell the same story, whatever edits have led to it, refused or not: they
have the same keys, the lists hold the links of the table, and a connector is a peer of each of its
peers. -/

namespace Sluice.Ledger

open scoped List

structure Intact (s : Ledger) : Prop where
  order_nodup : s.order.Nodup
  entries_keys : s.entries.map Prod.fst ~ s.order
  lists_keys : ∀ side, (s.lists side).map Prod.fst ~ s.order
  ends : ∀ l ∈ s.links, l.source ∈ s.order ∧ l.target ∈ s.order
  listed : ∀ key ∈ s.order, ∀ side, ∃ links, (s.lists side).lookup key = some links ∧
    links ~ s.links.filter fun l => l.endOn side = key
  peers : ∀ c d : Connector, ∃ cs ds, s.peers c none = .ok cs ∧ s.peers d none = .ok ds ∧
    (cs.contains d = true ↔ ds.contains c = true)

variable {s : Ledger} {p : Pipeline}

theorem Agrees.intact (h : s.Agrees p) (sound : p.Sound) (named : p.Named) : s.Intact where
  order_nodup := h.order ▸ h.nodup
  entries_keys := h.order ▸ h.entries_keys
  lists_keys := h.order ▸ h.lists_keys
  ends := by
    rw [h.links, h.order]
    exact fun l hl => ⟨(sound.fits l hl).mem_keys .output, (sound.fits l hl).mem_keys .input⟩
  listed := fun key hk side =>
    ⟨_, h.lookup_lists (h.order ▸ hk) side, h.links ▸ sound.listed key (h.order ▸ hk) side⟩
  peers := by
    rw [h.peers]
    exact sound.peers_symm named

/-- A ledger is intact after any regular edits, and its lists have the order of the table as long as
no links have been reordered. -/
theorem Built.intact_and_inOrder (b : Built Regular s)
    (names : ∀ e ∈ s.entries, Text.startsBlank e.2.task.name = false) :
    s.Intact ∧ (Built Plain s → ∀ key ∈ s.order, ∀ side,
      (s.lists side).lookup key = some (s.links.filter fun l => l.endOn side = key)) := by
  constructor
  · obtain ⟨p, hp, agrees⟩ := b.exists_pipeline fun _ _ _ h => h.regular
    have known : ∀ m ∈ p.members, Text.startsBlank m.task.name = false := fun m hm =>
      names _ (agrees.mem_entries hm)
    exact agrees.intact hp.sound (hp.sound.named known)
  · intro plain key hk side
    obtain ⟨p, hp, agrees⟩ := plain.exists_pipeline fun _ _ _ h => h.plain
    rw [agrees.lookup_lists (agrees.order ▸ hk), hp.inOrder, agrees.links]

theorem fork_ledger_intact : fork.Intact ∧ ∀ key ∈ fork.order, ∀ side,
    (fork.lists side).lookup key = some (fork.links.filter fun l => l.endOn side = key) := by
  obtain ⟨intact, inOrder⟩ := Built.intact_and_inOrder fork_built.regular (by decide +kernel)
  exact ⟨intact, inOrder fork_built⟩

end Sluice.Ledger
