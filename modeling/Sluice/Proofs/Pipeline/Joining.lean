import Sluice.Proofs.Pipeline.Sound

/-! Links that come in. A link that is allowed leads between two members, joins slots of one flow
and finds room at both, so that a pipeline stays sound with it; and so does every pipeline that
regular edits lead to. -/

namespace Sluice.Pipeline

open scoped List

variable {p q : Pipeline}

theorem length_peers {c : Connector} {ps : List Connector} (h : p.peers c none = .ok ps) :
    ps.length = (p.linksAt c).length := by
  simp only [peers, within, bind_eq_ok, pure_eq_ok, List.filter_true] at h
  obtain ⟨ends, hm, rfl⟩ := h
  exact (length_of_mapM hm).symm

theorem lt_capacity {c : Connector} (h : p.isFull c = .ok false) :
    (p.linksAt c).length < c.capacity := by
  simp only [isFull, bind_eq_ok, pure_eq_ok, decide_eq_false_iff_not, Nat.not_le] at h
  obtain ⟨ps, hps, hlt⟩ := h
  rwa [length_peers hps] at hlt

theorem atSlot?_eq_some {cs : List Connector} {i : Int} {c : Connector}
    (h : atSlot? cs i = some c) : ∃ n : Nat, cs[n]? = some c := by
  unfold atSlot? at h
  split at h
  · cases h
  · exact ⟨_, h⟩

theorem member_eq_ok {key : String} {m : Member} :
    p.member key = .ok m ↔ p.member? key = some m := by
  unfold member
  cases p.member? key <;> simp

structure Allowed (p : Pipeline) (l : Link) (c d : Connector) : Prop where
  source : p.outputAt l.source l.sourceSlot = .ok c
  target : p.inputAt l.target l.targetSlot = .ok d
  apart : l.source ≠ l.target
  flow : c.flow = d.flow
  new : l ∉ p.links
  open_source : (p.linksAt c).length < c.capacity
  open_target : (p.linksAt d).length < d.capacity

theorem allowed_of_ok {source target : String} {i j : Option Int} {l : Link}
    (h : p.allowedLink source target i j = .ok l) : ∃ c d, p.Allowed l c d := by
  simp only [allowedLink, bind_eq_ok, check_eq_ok, member_eq_ok] at h
  obtain ⟨a, ha, b, hb, hne, ⟨i', j'⟩, _, h⟩ := h
  cases hc : atSlot? a.outputs i' with
  | none => simp [hc] at h
  | some c =>
    cases hd : atSlot? b.inputs j' with
    | none => simp [hc, hd] at h
    | some d =>
      simp only [hc, hd, check_eq_ok, bind_eq_ok, pure_eq_ok] at h
      obtain ⟨hfeeds, hnew, full, hfull, hopen, full', hfull', hopen', rfl⟩ := h
      obtain ⟨n, hn⟩ := atSlot?_eq_some hc
      obtain ⟨k, hk⟩ := atSlot?_eq_some hd
      have hcs := (Member.getElem?_connectors hn).2.2
      have hds := (Member.getElem?_connectors hk).2.2
      simp only [Bool.not_eq_true] at hopen hopen'
      subst hopen hopen'
      refine ⟨c, d, outputAt_eq_ok.2 ⟨a, ha, hcs ▸ hn⟩, inputAt_eq_ok.2 ⟨b, hb, hds ▸ hk⟩, hne, ?_,
        by simpa using hnew, lt_capacity hfull, lt_capacity hfull'⟩
      simp only [Connector.feeds, Bool.not_eq_true', Bool.not_eq_false, Bool.and_eq_true,
        decide_eq_true_eq] at hfeeds
      exact hfeeds.2

theorem eq_of_allowedLink {source target : String} {i j : Nat} {l : Link}
    (h : p.allowedLink source target (some i) (some j) = .ok l) : l = ⟨source, i, target, j⟩ := by
  simp only [allowedLink, chooseSlots, bind_eq_ok, check_eq_ok, pure_eq_ok] at h
  obtain ⟨a, _, b, _, _, _, rfl, h⟩ := h
  cases hc : atSlot? a.outputs i with
  | none => simp [hc] at h
  | some c =>
    cases hd : atSlot? b.inputs j with
    | none => simp [hc, hd] at h
    | some d =>
      simp only [hc, hd, check_eq_ok, bind_eq_ok, pure_eq_ok] at h
      obtain ⟨_, _, _, _, _, _, _, _, rfl⟩ := h
      have hc : a.outputs[i]? = some c := by simpa [atSlot?] using hc
      have hd : b.inputs[j]? = some d := by simpa [atSlot?] using hd
      rw [(Member.getElem?_connectors hc).2.2, (Member.getElem?_connectors hd).2.2]

theorem connect_eq_ok {source target : String} {i j : Option Int} {l : Link} :
    p.connect source target i j = .ok (l, q) ↔
      p.allowedLink source target i j = .ok l ∧ q = p.link l := by
  simp only [connect, bind_eq_ok, pure_eq_ok, Prod.mk.injEq]
  constructor
  · rintro ⟨k, hk, rfl, rfl⟩
    exact ⟨hk, rfl⟩
  · rintro ⟨hl, rfl⟩
    exact ⟨l, hl, rfl, rfl⟩

namespace Allowed

variable {l : Link} {c d : Connector}

theorem fits (h : p.Allowed l c d) : p.Fits l :=
  ⟨h.apart, c, d, h.source, h.target, h.flow⟩

theorem connector_eq (h : p.Allowed l c d) (hk : p.keys.Nodup) {m : Member} (hm : m ∈ p.members)
    {side : Side} {e : Connector} (he : e ∈ m.connectors side) (hend : l.endOn side = m.key)
    (hslot : l.slotOn side = e.slot) : (p.linksAt e).length < e.capacity := by
  obtain ⟨_, _, hget⟩ := Member.mem_connectors he
  cases side with
  | input =>
    obtain ⟨n, hn, hd⟩ := inputAt_eq_ok.1 h.target
    simp only [Link.endOn, Link.slotOn] at hend hslot
    rw [hend, member?_of_mem hk hm, Option.some.injEq] at hn
    subst hn
    rw [Member.inputs, hslot, hget, Option.some.injEq] at hd
    exact hd ▸ h.open_target
  | output =>
    obtain ⟨n, hn, hc⟩ := outputAt_eq_ok.1 h.source
    simp only [Link.endOn, Link.slotOn] at hend hslot
    rw [hend, member?_of_mem hk hm, Option.some.injEq] at hn
    subst hn
    rw [Member.outputs, hslot, hget, Option.some.injEq] at hc
    exact hc ▸ h.open_source

theorem room (h : p.Allowed l c d) (hp : p.Sound) {m : Member} (hm : m ∈ p.members)
    (hid : m.id = m.key) (side : Side) {e : Connector} (he : e ∈ m.connectors side) :
    ((p.link l).linksAt e).length ≤ e.capacity := by
  obtain ⟨hstage, hside, _⟩ := Member.mem_connectors he
  have hle := hp.room m hm hid side e he
  have old : p.linksAt e = (p.linksOn m.key side).filter fun k => k.slotOn side == e.slot := by
    rw [linksAt, hstage, hid, hside]
  rw [linksAt, hstage, hid, hside,
    linksOn_link (h.fits.mem_keys .output) (h.fits.mem_keys .input)]
  split
  · rename_i hend
    rw [List.filter_append, List.length_append, ← old]
    by_cases hslot : l.slotOn side = e.slot
    · have := h.connector_eq hp.keys_nodup hm he hend hslot
      simp only [hslot, beq_self_eq_true, List.filter_cons_of_pos, List.filter_nil,
        List.length_singleton]
      omega
    · simpa [hslot] using hle
  · rwa [← old]

theorem sound (h : p.Allowed l c d) (hp : p.Sound) : (p.link l).Sound := by
  have frame := frame_link p l
  have keys := keys_eq_of_frame frame
  have fits : ∀ k, p.Fits k → (p.link l).Fits k := by
    intro k hk
    unfold Fits at hk ⊢
    rwa [outputAt_eq_of_frame frame, inputAt_eq_of_frame frame]
  have same : ∀ m ∈ (p.link l).members, ∃ n ∈ p.members, n.key = m.key ∧ n.id = m.id ∧
      n.task = m.task := by
    intro m hm
    obtain ⟨n, hn, hb⟩ := mem_of_frame frame hm
    exact ⟨n, hn, (congrArg Member.key hb :), (congrArg Member.id hb :),
      (congrArg (fun k => k.task) hb :)⟩
  refine ⟨keys ▸ hp.keys_nodup, ?_, ?_, ?_, ?_, ?_⟩
  · rw [links_link]
    exact List.nodup_append'.2 ⟨hp.links_nodup, by simp, by simpa using h.new⟩
  · intro k hk
    rw [links_link, List.mem_append, List.mem_singleton] at hk
    rcases hk with hk | rfl
    · exact fits k (hp.fits k hk)
    · exact fits k h.fits
  · intro key hk side
    have old := hp.listed key (keys ▸ hk) side
    rw [links_link, List.filter_append,
      linksOn_link (h.fits.mem_keys .output) (h.fits.mem_keys .input)]
    split
    · rename_i hend
      simpa [hend] using old.append_right [l]
    · rename_i hend
      simpa [hend] using old
  · intro m hm hid side e he
    obtain ⟨n, hn, hkey, hid', htask⟩ := same m hm
    have hsame : n.connectors side = m.connectors side := by
      cases side <;> simp only [Member.connectors, Job.slots, hid', htask]
    exact h.room hp hn (by rw [hkey, hid', hid]) side (hsame ▸ he)
  · intro m hm hb
    obtain ⟨n, hn, hkey, hid, htask⟩ := same m hm
    rw [← hkey, ← hid]
    exact hp.known n hn (htask ▸ hb)

end Allowed

theorem Sound.connect (hp : p.Sound) {source target : String} {i j : Option Int} {l : Link}
    (h : p.connect source target i j = .ok (l, q)) : q.Sound := by
  obtain ⟨hl, rfl⟩ := connect_eq_ok.1 h
  obtain ⟨c, d, ha⟩ := allowed_of_ok hl
  exact ha.sound hp

theorem Sound.edit (hp : p.Sound) {e : Edit} (he : e.Regular p) : (e.apply p).Sound := by
  cases e with
  | add s id => exact settle_snd_keeps (P := Sound) hp fun _ _ h => (hp.add he.1.id he.2 h).1
  | remove key => exact (hp.remove key).1
  | move key position => exact settle_keeps (P := Sound) hp fun _ h => (hp.move h).1
  | connect source target i j => exact settle_snd_keeps (P := Sound) hp fun _ _ h => hp.connect h
  | disconnect l => exact (hp.disconnect l).1
  | unlink c => exact (hp.unlink c).1
  | reorder c links => exact settle_keeps (P := Sound) hp fun _ h => hp.reorder he h
  | clear => exact Sound.clear p
  | give serial position given => exact (hp.give serial position given).1

theorem Built.sound (b : Built Edit.Regular p) : p.Sound := by
  induction b with
  | new name => exact Sound.new name
  | edit _ he ih => exact ih.edit he

end Sluice.Pipeline
