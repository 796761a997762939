import Sluice.Proofs.Pipeline.Ends

/-! Flows and capacities. Links join slots of one flow, and no connector ever has more peers than
its flow allows, in whatever order links are made, taken out and reordered. -/

namespace Sluice.Pipeline

variable {p : Pipeline}

structure Safe (p : Pipeline) : Prop where
  typed : ∀ l ∈ p.links, ∃ a ∈ p.members, ∃ b ∈ p.members, a.key = l.source ∧ b.key = l.target ∧
    a.key ≠ b.key ∧ ∃ c d, a.outputs[l.sourceSlot]? = some c ∧ b.inputs[l.targetSlot]? = some d ∧
      c.flow = d.flow
  links_nodup : p.links.Nodup
  inputs : ∀ m ∈ p.members, ∀ c ∈ m.inputs, ∃ ps, p.peers c none = .ok ps ∧
    ps.length ≤ c.flow.maxIn ∧ ∀ d ∈ ps, d.feeds c = true
  outputs : ∀ m ∈ p.members, ∀ c ∈ m.outputs, ∃ ps, p.peers c none = .ok ps ∧
    ps.length ≤ c.flow.maxOut ∧ ∀ d ∈ ps, c.feeds d = true
  distinct : ∀ c among, ∃ ps, p.peers c among = .ok ps ∧ (ps.map Connector.place).Nodup

theorem Sound.peer_fits (h : p.Sound) (named : p.Named) {m : Member} (hm : m ∈ p.members)
    {side : Side} {c : Connector} (hc : c ∈ m.connectors side) {ps : List Connector}
    (hps : p.peers c none = .ok ps) {d : Connector} (hd : d ∈ ps) :
    d.side = side.other ∧ d.flow = c.flow := by
  simp only [peers, within, bind_eq_ok, pure_eq_ok, List.filter_true] at hps
  obtain ⟨ends, hends, rfl⟩ := hps
  obtain ⟨hstage, hside, hget⟩ := Member.mem_connectors hc
  obtain ⟨l, hl, hfar⟩ : ∃ l ∈ p.linksAt c, p.farEnd c.side l = .ok d := by
    have := List.forall₂_iff_get.1 (mapM_eq_ok.1 hends)
    obtain ⟨i, hi, rfl⟩ := List.getElem_of_mem hd
    exact ⟨(p.linksAt c)[i], List.getElem_mem _, this.2 i (this.1 ▸ hi) hi⟩
  obtain ⟨hmem, hplace⟩ := h.mem_linksAt.1 hl
  obtain ⟨e, hends', hflow⟩ := (h.fits l hmem).ends
  simp only [Link.placeOn, Connector.place, Prod.mk.injEq, hside, true_and] at hplace
  have near : e side = c := by
    obtain ⟨n, hn, hkey, hget', _⟩ := hends' side
    have : n = m := List.inj_on_of_nodup_map h.keys_nodup hn hm (by
      rw [hkey, hplace.1, hstage, named m hm])
    rw [this, hplace.2, hget, Option.some.injEq] at hget'
    exact hget'.symm
  have far : e side.other = d := by
    obtain ⟨_, _, _, _, hfar'⟩ := hends' side.other
    rw [hside] at hfar
    rw [Side.other_other, hfar, Except.ok.injEq] at hfar'
    exact hfar'.symm
  obtain ⟨n, _, _, hget', _⟩ := hends' side.other
  rw [← far, ← near]
  exact ⟨(Member.getElem?_connectors hget').2.1, hflow side⟩

theorem safe_of_sound (h : p.Sound) (named : p.Named) : p.Safe where
  typed := by
    intro l hl
    obtain ⟨hne, c, d, hc, hd, hflow⟩ := h.fits l hl
    obtain ⟨a, ha, hget⟩ := outputAt_eq_ok.1 hc
    obtain ⟨b, hb, hget'⟩ := inputAt_eq_ok.1 hd
    obtain ⟨hmem, hkey⟩ := mem_of_member? ha
    obtain ⟨hmem', hkey'⟩ := mem_of_member? hb
    exact ⟨a, hmem, b, hmem', hkey, hkey', by rwa [hkey, hkey'], c, d, hget, hget', hflow⟩
  links_nodup := h.links_nodup
  inputs := by
    intro m hm c hc
    obtain ⟨ps, hps, _⟩ := h.peers_eq named c none
    have hside : c.side = .input := (Member.mem_connectors hc).2.1
    refine ⟨ps, hps, ?_, fun d hd => ?_⟩
    · have := h.room m hm (named m hm) .input c hc
      rwa [← length_peers hps, Connector.capacity, hside] at this
    · obtain ⟨hd, hflow⟩ := h.peer_fits named hm hc hps hd
      simp [Connector.feeds, hside, hd, hflow, Side.other]
  outputs := by
    intro m hm c hc
    obtain ⟨ps, hps, _⟩ := h.peers_eq named c none
    have hside : c.side = .output := (Member.mem_connectors hc).2.1
    refine ⟨ps, hps, ?_, fun d hd => ?_⟩
    · have := h.room m hm (named m hm) .output c hc
      rwa [← length_peers hps, Connector.capacity, hside] at this
    · obtain ⟨hd, hflow⟩ := h.peer_fits named hm hc hps hd
      simp [Connector.feeds, hside, hd, hflow, Side.other]
  distinct := by
    intro c among
    obtain ⟨ps, hps, _⟩ := h.peers_eq named c among
    exact ⟨ps, hps, h.peers_nodup named hps⟩

/-- Typing and capacities hold after any regular edits. -/
theorem Built.safe (b : Built Edit.Regular p)
    (names : ∀ m ∈ p.members, Text.startsBlank m.task.name = false) : p.Safe :=
  safe_of_sound b.sound (b.sound.named names)

theorem fork_safe : fork.Safe :=
  Built.safe fork_built.regular (by decide +kernel)

end Sluice.Pipeline
