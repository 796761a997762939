import Sluice.Proofs.Pipeline.Joining
import Sluice.Proofs.Pipeline.Reordering

/-! The ends of links. In a sound pipeline whose members go by their keys, the peers of a connector
stand at the far ends of the links at its place. -/

namespace Sluice

def Link.placeOn (l : Link) (side : Side) : String × Side × Nat :=
  (l.endOn side, side, l.slotOn side)

theorem Link.eq_of_placeOn {l k : Link} (h : ∀ side, l.placeOn side = k.placeOn side) : l = k := by
  obtain ⟨s, i, t, j⟩ := l
  obtain ⟨s', i', t', j'⟩ := k
  have hs := h .output
  have ht := h .input
  simp only [placeOn, endOn, slotOn, Prod.mk.injEq, true_and] at hs ht
  simp [hs, ht]

theorem Link.eq_of_ends {l k : Link} (side : Side) (near : l.placeOn side = k.placeOn side)
    (far : l.placeOn side.other = k.placeOn side.other) : l = k := by
  refine eq_of_placeOn fun which => ?_
  cases side <;> cases which <;> first | exact near | exact far

theorem Connector.capacity_input {c : Connector} (h : c.side = .input) : c.capacity = 1 := by
  rw [capacity, h]
  cases c.flow <;> rfl

namespace Pipeline

open scoped List

variable {p : Pipeline}

def Named (p : Pipeline) : Prop :=
  ∀ m ∈ p.members, m.id = m.key

theorem Sound.named (h : p.Sound) (names : ∀ m ∈ p.members, Text.startsBlank m.task.name = false) :
    p.Named :=
  fun m hm => h.known m hm (names m hm)

theorem Named.of_frame {q : Pipeline} (h : p.Named) (hq : q.frame = p.frame) : q.Named := by
  intro m hm
  obtain ⟨n, hn, hb⟩ := mem_of_frame hq hm
  have hid : n.id = m.id := (congrArg Member.id hb :)
  have hkey : n.key = m.key := (congrArg Member.key hb :)
  rw [← hid, ← hkey, h n hn]

theorem place_of_outputAt (named : p.Named) {key : String} {slot : Nat} {c : Connector}
    (h : p.outputAt key slot = .ok c) : c.stage ∈ p.keys ∧ c.place = (key, .output, slot) := by
  obtain ⟨m, hm, hget⟩ := outputAt_eq_ok.1 h
  obtain ⟨hmem, hkey⟩ := mem_of_member? hm
  obtain ⟨hstage, hside, hslot⟩ := Member.getElem?_connectors hget
  have hname : c.stage = key := by rw [hstage, named m hmem, hkey]
  exact ⟨hname ▸ mem_keys_of_member? hm, by rw [Connector.place, hname, hside, hslot]⟩

theorem Fits.ends {l : Link} (h : p.Fits l) : ∃ e : Side → Connector,
    (∀ side, ∃ m ∈ p.members, m.key = l.endOn side ∧
      (m.connectors side)[l.slotOn side]? = some (e side) ∧
      p.farEnd side.other l = .ok (e side)) ∧
    ∀ side, (e side.other).flow = (e side).flow := by
  obtain ⟨_, c, d, hc, hd, hflow⟩ := h
  refine ⟨fun side => Side.casesOn side d c, fun side => ?_, fun side => ?_⟩
  · cases side with
    | input =>
      obtain ⟨m, hm, hget⟩ := inputAt_eq_ok.1 hd
      obtain ⟨hmem, hkey⟩ := mem_of_member? hm
      exact ⟨m, hmem, hkey, hget, hd⟩
    | output =>
      obtain ⟨m, hm, hget⟩ := outputAt_eq_ok.1 hc
      obtain ⟨hmem, hkey⟩ := mem_of_member? hm
      exact ⟨m, hmem, hkey, hget, hc⟩
  · cases side with
    | input => exact hflow
    | output => exact hflow.symm

theorem within_some {ids : List String} {id : String} :
    within (some ids) id = true ↔ id ∈ ids := by
  simp [within]

def linksAmong (p : Pipeline) (place : String × Side × Nat) (among : Option (List String)) :
    List Link :=
  ((p.linksOn place.1 place.2.1).filter fun l => l.slotOn place.2.1 == place.2.2).filter fun l =>
    within among (l.endOn place.2.1.other)

theorem linksAmong_place (p : Pipeline) (c : Connector) (among : Option (List String)) :
    p.linksAmong c.place among =
      (p.linksAt c).filter fun l => within among (l.endOn c.side.other) := rfl

@[simp] theorem linksAmong_none (p : Pipeline) (c : Connector) :
    p.linksAmong c.place none = p.linksAt c := by
  simp [linksAmong_place, within]

namespace Sound

variable (h : p.Sound)
include h

theorem mem_linksAmong {place : String × Side × Nat} {among : Option (List String)} {l : Link} :
    l ∈ p.linksAmong place among ↔
      (l ∈ p.links ∧ l.placeOn place.2.1 = place) ∧
        within among (l.endOn place.2.1.other) = true := by
  obtain ⟨key, side, slot⟩ := place
  simp only [linksAmong, List.mem_filter, h.mem_linksOn, Link.placeOn, beq_iff_eq, Prod.mk.injEq,
    true_and, and_assoc]

theorem mem_linksAt {c : Connector} {l : Link} :
    l ∈ p.linksAt c ↔ l ∈ p.links ∧ l.placeOn c.side = c.place := by
  rw [← linksAmong_none, h.mem_linksAmong]
  exact and_iff_left rfl

theorem linksAmong_nodup (place : String × Side × Nat) (among : Option (List String)) :
    (p.linksAmong place among).Nodup :=
  ((h.linksOn_nodup place.1 place.2.1).filter _).filter _

theorem eq_of_id (named : p.Named) {m n : Member} (hm : m ∈ p.members) (hn : n ∈ p.members)
    (hid : m.id = n.id) : m = n :=
  List.inj_on_of_nodup_map h.keys_nodup hm hn (by rw [← named m hm, ← named n hn, hid])

theorem exists_connector (named : p.Named) {l : Link} (hl : l ∈ p.links) (side : Side) :
    ∃ m ∈ p.members, m.id = l.endOn side ∧ ∃ c ∈ m.connectors side, c.place = l.placeOn side := by
  obtain ⟨e, hends, _⟩ := (h.fits l hl).ends
  obtain ⟨m, hm, hkey, hget, _⟩ := hends side
  have hid : m.id = l.endOn side := (named m hm).trans hkey
  have hc := List.mem_of_getElem? hget
  refine ⟨m, hm, hid, e side, hc, ?_⟩
  rw [Member.place_of_mem hc, (Member.getElem?_connectors hget).2.2, hid, Link.placeOn]

theorem eq_of_target (named : p.Named) {l k : Link} (hl : l ∈ p.links) (hk : k ∈ p.links)
    (same : l.placeOn .input = k.placeOn .input) : l = k := by
  obtain ⟨m, hm, _, c, hc, hplace⟩ := h.exists_connector named hl .input
  have hside := (Member.mem_connectors hc).2.1
  have room := h.room m hm (named m hm) .input c hc
  rw [Connector.capacity_input hside] at room
  have there : ∀ j ∈ p.links, j.placeOn .input = l.placeOn .input → j ∈ p.linksAt c :=
    fun j hj hplace' => h.mem_linksAt.2 ⟨hj, by rw [hside, hplace', hplace]⟩
  have first := there l hl rfl
  have second := there k hk same.symm
  obtain ⟨j, hj⟩ := List.length_eq_one_iff.1
    (Nat.le_antisymm room (List.length_pos_of_mem first))
  rw [hj, List.mem_singleton] at first second
  exact first.trans second.symm

theorem farEnd_eq_ok (named : p.Named) {l : Link} (hl : l ∈ p.links) (side : Side) :
    ∃ e, p.farEnd side l = .ok e ∧ e.place = l.placeOn side.other := by
  obtain ⟨e, hends, _⟩ := (h.fits l hl).ends
  obtain ⟨m, hm, hkey, hget, hfar⟩ := hends side.other
  obtain ⟨hstage, hside, hslot⟩ := Member.getElem?_connectors hget
  refine ⟨e side.other, by simpa using hfar, ?_⟩
  rw [Connector.place, Link.placeOn, hstage, hside, hslot, named m hm, hkey]

theorem mapM_farEnd (named : p.Named) {ls : List Link} (hl : ∀ l ∈ ls, l ∈ p.links) (side : Side) :
    ∃ ends, ls.mapM (p.farEnd side) = .ok ends ∧
      List.Forall₂ (fun l e => p.farEnd side l = .ok e ∧ e.place = l.placeOn side.other)
        ls ends := by
  induction ls with
  | nil => exact ⟨[], rfl, .nil⟩
  | cons l r ih =>
    obtain ⟨e, he, hplace⟩ := h.farEnd_eq_ok named (hl l (by simp)) side
    obtain ⟨es, hes, hplaces⟩ := ih fun k hk => hl k (by simp [hk])
    refine ⟨e :: es, mapM_eq_ok.2 (.cons he (mapM_eq_ok.1 hes)), .cons ⟨he, hplace⟩ hplaces⟩

theorem peers_far (named : p.Named) (c : Connector) (among : Option (List String)) :
    ∃ ps, p.peers c among = .ok ps ∧
      List.Forall₂ (fun l e => p.farEnd c.side l = .ok e ∧ e.place = l.placeOn c.side.other)
        (p.linksAmong c.place among) ps := by
  have inside : ∀ l ∈ p.linksAt c, l ∈ p.links := fun l hl => (h.mem_linksAt.1 hl).1
  obtain ⟨ends, hends, hfar⟩ := h.mapM_farEnd named inside c.side
  refine ⟨ends.filter fun e => within among e.stage, by simp [peers, hends], ?_⟩
  rw [linksAmong_place]
  clear hends inside
  generalize p.linksAt c = ls at hfar ⊢
  induction hfar with
  | nil => exact .nil
  | @cons l e ls es hle _ ih =>
    have hstage : e.stage = l.endOn c.side.other := congrArg Prod.fst hle.2
    simp only [List.filter_cons, hstage]
    split
    · exact .cons hle ih
    · exact ih

theorem peers_eq (named : p.Named) (c : Connector) (among : Option (List String)) :
    ∃ ps, p.peers c among = .ok ps ∧
      ps.map Connector.place = (p.linksAmong c.place among).map fun l =>
        l.placeOn c.side.other := by
  obtain ⟨ps, hps, hfar⟩ := h.peers_far named c among
  refine ⟨ps, hps, ?_⟩
  rw [← List.forall₂_eq_eq_eq, List.forall₂_map_left_iff, List.forall₂_map_right_iff]
  exact (hfar.imp fun _ _ hle => hle.2).flip

theorem peers_nodup (named : p.Named) {c : Connector} {among : Option (List String)}
    {ps : List Connector} (hps : p.peers c among = .ok ps) : (ps.map Connector.place).Nodup := by
  obtain ⟨qs, hqs, hplaces⟩ := h.peers_eq named c among
  obtain rfl : qs = ps := by simpa [hps] using hqs.symm
  rw [hplaces, List.nodup_map_iff_inj_on (h.linksAmong_nodup c.place among)]
  intro l hl k hk hfar
  have hl' := (h.mem_linksAmong.1 hl).1.2
  have hk' := (h.mem_linksAmong.1 hk).1.2
  exact Link.eq_of_ends c.side (hl'.trans hk'.symm) hfar

theorem mem_peers (named : p.Named) {c d : Connector} {ps : List Connector}
    (hps : p.peers c none = .ok ps) :
    ps.contains d = true ↔
      d.side = c.side.other ∧ ∃ l ∈ p.links, l.placeOn c.side = c.place ∧
        l.placeOn d.side = d.place := by
  obtain ⟨qs, hqs, hplaces⟩ := h.peers_eq named c none
  obtain rfl : qs = ps := by simpa [hps] using hqs.symm
  have hmem : qs.contains d = true ↔ d.place ∈ qs.map Connector.place := by
    simp only [List.contains_iff_exists_mem_beq, List.mem_map]
    constructor
    · rintro ⟨e, he, heq⟩
      exact ⟨e, he, (eq_of_beq (show (d.place == e.place) = true from heq)).symm⟩
    · rintro ⟨e, he, heq⟩
      exact ⟨e, he, show (d.place == e.place) = true from beq_iff_eq.2 heq.symm⟩
  rw [hmem, hplaces]
  simp only [linksAmong_none, List.mem_map, h.mem_linksAt]
  constructor
  · rintro ⟨l, ⟨hl, hnear⟩, hfar⟩
    have hside : d.side = c.side.other := (congrArg (fun t => t.2.1) hfar).symm
    exact ⟨hside, l, hl, hnear, hside ▸ hfar⟩
  · rintro ⟨hside, l, hl, hnear, hfar⟩
    exact ⟨l, ⟨hl, hnear⟩, hside ▸ hfar⟩

theorem reorder_some {c : Connector} (hk : c.stage ∈ p.keys) {links : List Link}
    (once : links.Nodup) (inside : ∀ l ∈ links, l ∈ p.linksAt c) :
    ∃ q, p.reorder c links = .ok q ∧ q.Sound ∧ q.frame = p.frame ∧ q.links = p.links ∧
      SharedOut links (p.linksAmong c.place none) (q.linksAmong c.place none) ∧
      ∀ place, place ≠ c.place → q.linksAmong place none = p.linksAmong place none := by
  have here : ∀ l ∈ links, l ∈ p.linksOn c.stage c.side ∧ l.slotOn c.side = c.slot := by
    intro l hl
    have := List.mem_filter.1 (inside l hl)
    exact ⟨this.1, by simpa using this.2⟩
  have hq := reorder_eq_ok.2 ⟨⟨hk, here⟩, rfl⟩
  obtain ⟨hlinks, hframe, hlists⟩ := reorder_effect hq
  have shared : SharedOut links (p.linksOn c.stage c.side) _ :=
    .of_rearranged (h.linksOn_nodup c.stage c.side) once fun l hl => (here l hl).1
  refine ⟨_, hq, h.reorder once hq, hframe, hlinks, ?_, fun place hplace => ?_⟩
  · rw [linksAmong_none, linksAmong_none, linksAt, linksAt, hlists, if_pos ⟨rfl, rfl⟩]
    exact shared.filter fun l hl => beq_iff_eq.2 (here l hl).2
  · obtain ⟨key, side, slot⟩ := place
    rw [linksAmong, linksAmong, hlists]
    split
    · rename_i hside
      obtain ⟨rfl, rfl⟩ := hside
      rw [shared.filter_of_others _ fun l hl => ?_]
      have hne : slot ≠ c.slot := fun heq => hplace (by rw [heq, Connector.place])
      exact beq_false_of_ne fun same => hne (same.symm.trans (here l hl).2)
    · rfl

theorem isFull_eq (named : p.Named) (c : Connector) :
    p.isFull c = .ok (decide (c.capacity ≤ (p.linksAt c).length)) := by
  obtain ⟨ps, hps, _⟩ := h.peers_eq named c none
  rw [isFull, hps, ok_bind, length_peers hps]
  rfl

theorem exists_firstOpen (named : p.Named) (output : Connector) (cs : List Connector) :
    ∃ found, p.firstOpen? output cs = .ok found := by
  induction cs with
  | nil => exact ⟨none, rfl⟩
  | cons c r ih =>
    rw [firstOpen?, h.isFull_eq named, ok_bind]
    split
    · split
      · exact ih
      · exact ⟨some c, rfl⟩
    · exact ih

theorem exists_firstPair (named : p.Named) (inputs cs : List Connector) :
    ∃ found, p.firstPair? inputs cs = .ok found := by
  induction cs with
  | nil => exact ⟨none, rfl⟩
  | cons c r ih =>
    rw [firstPair?, h.isFull_eq named, ok_bind]
    split
    · exact ih
    · obtain ⟨found, hfound⟩ := h.exists_firstOpen named c inputs
      rw [hfound, ok_bind]
      cases found with
      | none => exact ih
      | some d => exact ⟨some (c, d), rfl⟩

theorem allowedLink_fails (named : p.Named) (source target : String) (i j : Option Int) :
    FailsBy (fun e => ∃ r, e = .refused r) (p.allowedLink source target i j) := by
  have member : ∀ key, FailsBy (fun e => ∃ r, e = .refused r) (p.member key) := by
    intro key
    unfold Pipeline.member
    split
    · exact .ok _
    · exact .throws ⟨_, rfl⟩
  have slots : ∀ a b, FailsBy (fun e => ∃ r, e = .refused r) (p.chooseSlots a b i j) := by
    intro a b
    unfold chooseSlots
    split
    · exact .ok _
    · obtain ⟨found, hfound⟩ := h.exists_firstPair named (inSlot j b.inputs) (inSlot i a.outputs)
      rw [hfound, ok_bind]
      cases found with
      | none => exact .throws ⟨_, rfl⟩
      | some pair => exact .ok _
  unfold allowedLink
  refine (member source).bind fun a _ => (member target).bind fun b _ => .guard ⟨_, rfl⟩ ?_
  refine (slots a b).bind fun ⟨x, y⟩ _ => ?_
  dsimp only
  split
  · split
    · refine .guard ⟨_, rfl⟩ (.guard ⟨_, rfl⟩ ?_)
      simp only [h.isFull_eq named, ok_bind]
      exact .guard ⟨_, rfl⟩ (.guard ⟨_, rfl⟩ (.ok _))
    · exact .throws ⟨_, rfl⟩
  · exact .throws ⟨_, rfl⟩

theorem connect_fails (named : p.Named) (source target : String) (i j : Option Int) :
    FailsBy (fun e => ∃ r, e = .refused r) (p.connect source target i j) :=
  (h.allowedLink_fails named source target i j).bind fun _ _ => .ok _

theorem connect_of_allowed (named : p.Named) {l : Link} {c d : Connector} (ha : p.Allowed l c d) :
    p.connect l.source l.target (some l.sourceSlot) (some l.targetSlot) = .ok (l, p.link l) := by
  obtain ⟨a, hma, hc⟩ := outputAt_eq_ok.1 ha.source
  obtain ⟨b, hmb, hd⟩ := inputAt_eq_ok.1 ha.target
  obtain ⟨_, hcside, hcslot⟩ := Member.getElem?_connectors hc
  obtain ⟨_, hdside, hdslot⟩ := Member.getElem?_connectors hd
  have hc' : atSlot? a.outputs l.sourceSlot = some c := by simp [atSlot?, hc]
  have hd' : atSlot? b.inputs l.targetSlot = some d := by simp [atSlot?, hd]
  have feeds : c.feeds d = true := by simp [Connector.feeds, hcside, hdside, ha.flow]
  refine connect_eq_ok.2 ⟨?_, rfl⟩
  simp only [allowedLink, chooseSlots, bind_eq_ok, check_eq_ok, member_eq_ok]
  refine ⟨a, hma, b, hmb, ha.apart, _, rfl, ?_⟩
  simp only [hc', hd', hcslot, hdslot, check_eq_ok, bind_eq_ok, h.isFull_eq named, feeds]
  refine ⟨by simp, by simpa using ha.new, false, ?_, by simp, false, ?_, by simp, rfl⟩
  · simpa using ha.open_source
  · simpa using ha.open_target

end Sound

end Pipeline

end Sluice
