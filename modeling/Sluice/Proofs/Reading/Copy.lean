import Sluice.Proofs.Pipeline.Renaming
import Sluice.Proofs.Pipeline.Table
import Sluice.Proofs.Writing.Values

/-! Copies of members. A pipeline that is read gets copies of written members under new names, and
then the links between them, each of which is allowed as long as the originals are linked. -/

namespace Sluice

def Member.copy (settings : Settings) (e : Member × Nat) : Member :=
  { serial := e.2
    task := e.1.task
    arguments := e.1.arguments.map (Argument.readBack settings)
    key := Pipeline.numberedId e.1.task.name e.2
    id := Pipeline.numberedId e.1.task.name e.2
    incoming := []
    outgoing := [] }

theorem Member.length_outputs_copy (settings : Settings) (e : Member × Nat) :
    (Member.copy settings e).outputs.length = e.1.outputs.length := by
  simp [Member.outputs, Member.connectors, Member.copy, Job.slots]

namespace Pipeline

open scoped List

variable {p q : Pipeline}

theorem InOrder.linksAmong_eq (h : p.InOrder) (place : String × Side × Nat) :
    p.linksAmong place none = p.links.filter fun l => l.placeOn place.2.1 = place := by
  obtain ⟨key, side, slot⟩ := place
  rw [linksAmong, h, List.filter_filter, List.filter_filter]
  refine List.filter_congr fun l _ => ?_
  rw [Bool.eq_iff_iff]
  simp [within, Link.placeOn, and_comm]

theorem member?_copy {settings : Settings} {f : String → String} {order : List Member} {m : Member}
    (frame : q.frame = order.zipIdx.map (Member.copy settings)) (keys : q.keys.Nodup)
    (ren : Renames f order) (hm : m ∈ order) : ∃ n, q.member? (f m.id) = some n ∧
      ∀ {side : Side} {slot : Nat} {c : Connector}, (m.connectors side)[slot]? = some c →
        (n.connectors side)[slot]? = some (c.rename f) := by
  obtain ⟨i, hi⟩ := List.getElem?_of_mem hm
  have he : (m, i) ∈ order.zipIdx := List.mem_zipIdx_iff_getElem?.2 hi
  have hid : f m.id = numberedId m.task.name i := ren (m, i) he
  have hframe : Member.copy settings (m, i) ∈ q.frame := frame ▸ List.mem_map_of_mem he
  obtain ⟨n, hn, hb⟩ := List.mem_map.1 hframe
  have hkey : n.key = numberedId m.task.name i := (congrArg Member.key hb :)
  refine ⟨n, ?_, fun {side slot c} hget => ?_⟩
  · rw [hid, ← hkey]
    exact member?_of_mem keys hn
  · have hconnectors : n.connectors side = (m.connectors side).map (Connector.rename f) := by
      rw [Member.connectors, Member.connectors, Connector.rename_ofSlots, hid]
      exact (congrArg (fun k : Member => k.connectors side) hb :)
    rw [hconnectors, List.getElem?_map, hget]
    rfl

structure Copies (settings : Settings) (f : String → String) (order : List Member)
    (links : List Link) (q : Pipeline) : Prop where
  sound : q.Sound
  named : q.Named
  inOrder : q.InOrder
  frame : q.frame = order.zipIdx.map (Member.copy settings)
  links_eq : q.links = links.map (Link.rename f)

namespace Copies

variable {settings : Settings} {f : String → String} {order : List Member} {links : List Link}
  {m : Member} {l : Link}

theorem new (settings : Settings) (f : String → String) (name : Option String) :
    Copies settings f [] [] (Pipeline.new name) where
  sound := Sound.new name
  named := fun _ hm => absurd hm List.not_mem_nil
  inOrder := (Built.new name).inOrder
  frame := rfl
  links_eq := rfl

theorem size_eq (h : Copies settings f order links q) : q.size = order.length := by
  have := congrArg List.length h.frame
  simpa [Pipeline.frame, size] using this

theorem keys_eq (h : Copies settings f order links q) :
    q.keys = order.zipIdx.map fun e => numberedId e.1.task.name e.2 := by
  have := congrArg (List.map Member.key) h.frame
  simpa [Pipeline.frame, keys, Function.comp_def, Member.copy] using this

theorem add (h : Copies settings f order links q) (proper : m.toJob.Proper)
    (name : Text.startsBlank m.task.name = false) :
    ∃ r n, q.add { toJob := ⟨q.size, m.task, m.arguments.map (Argument.readBack settings)⟩
                   id := none } none = .ok (numberedId m.task.name order.length, r) ∧
      r.find (numberedId m.task.name order.length) = .ok n ∧
      n = Member.copy settings (m, order.length) ∧ Copies settings f (order ++ [m]) links r := by
  let s : Stage := { toJob := ⟨q.size, m.task, m.arguments.map (Argument.readBack settings)⟩
                     id := none }
  have hs : s.Proper :=
    ⟨⟨by simpa [s, Argument.readBack, Function.comp_def] using proper.arguments, proper.parameters,
      proper.task⟩, by simp [s]⟩
  have hfree : numberedId m.task.name q.size ∉ q.keys := by
    rw [h.keys_eq]
    intro hmem
    obtain ⟨e, he, hid⟩ := List.mem_map.1 hmem
    have hlt := (List.mem_zipIdx_iff_getElem?.1 he)
    rw [number_of_numberedId hid, h.size_eq] at hlt
    simp at hlt
  have hkey : q.entryKey s none = numberedId m.task.name order.length := by
    rw [← h.size_eq]
    exact freshId_of_free hfree
  have fresh : ∀ n ∈ q.members, n.serial ≠ s.serial := by
    intro n hn hserial
    have hb : n.bare ∈ q.frame := List.mem_map_of_mem hn
    rw [h.frame] at hb
    obtain ⟨e, he, hcopy⟩ := List.mem_map.1 hb
    have hserial' : e.2 = n.serial := (congrArg (fun m : Member => m.serial) hcopy :)
    have hlt := (List.mem_zipIdx_iff_getElem?.1 he)
    rw [hserial', hserial, show s.serial = order.length from h.size_eq] at hlt
    simp at hlt
  have hnew : newMember s (numberedId m.task.name order.length) =
      Member.copy settings (m, order.length) := by
    simp only [newMember, trim_numberedId name, s, h.size_eq, Member.copy]
  rw [h.size_eq] at hfree
  have hadd := (add_eq_ok fresh).2 ⟨hkey.symm, hfree, isVoid_numberedId _ _, rfl⟩
  obtain ⟨hsound, hlinks, hlists⟩ := h.sound.add hs.id fresh hadd
  rw [hnew] at hadd hsound hlinks hlists
  refine ⟨_, Member.copy settings (m, order.length), hadd, ?_, rfl, hsound, ?_, ?_, ?_, ?_⟩
  · exact find_eq_ok_iff.2 (member?_of_mem hsound.keys_nodup
      (List.mem_append_right _ (List.mem_singleton_self _)))
  · intro n hn
    rcases List.mem_append.1 hn with hn | hn
    · exact h.named n hn
    · rw [List.mem_singleton.1 hn]
      rfl
  · exact h.inOrder.of_eq hlinks hlists
  · rw [Pipeline.frame, List.map_append, ← Pipeline.frame, h.frame, List.zipIdx_append,
      List.map_append]
    simp [Member.copy, Member.bare]
  · exact h.links_eq

theorem linksAmong_eq (h : Copies settings f order links q) (ren : Renames f order)
    (ends : ∀ l ∈ links, ∀ side, l.endOn side ∈ order.map Member.id) {key : String}
    (hkey : key ∈ order.map Member.id) (side : Side) (slot : Nat) :
    q.linksAmong (f key, side, slot) none =
      (links.filter fun l => l.placeOn side = (key, side, slot)).map (Link.rename f) := by
  rw [h.inOrder.linksAmong_eq, h.links_eq, List.filter_map]
  congr 1
  refine List.filter_congr fun l hl => ?_
  rw [Bool.eq_iff_iff]
  simp only [Function.comp, Link.placeOn, Link.endOn_rename, Link.slotOn_rename, decide_eq_true_eq,
    Prod.mk.injEq, true_and]
  refine and_congr_left fun _ => ⟨fun heq => ren.inj (ends l hl side) hkey heq, fun heq => ?_⟩
  rw [heq]

section

variable (h : Copies settings f order links q) (ren : Renames f order) (hp : p.Sound)
  (named : p.Named)
include h ren hp named

theorem exists_end (inside : ∀ m ∈ order, m ∈ p.members) (hl : l ∈ p.links)
    (ends : ∀ side, l.endOn side ∈ order.map Member.id) :
    ∃ e : Side → Connector, (∀ side, (e side.other).flow = (e side).flow) ∧ ∀ side,
      (∃ m ∈ p.members, e side ∈ m.connectors side ∧ (e side).place = l.placeOn side) ∧
      ∃ n, q.member? (f (l.endOn side)) = some n ∧
        (n.connectors side)[l.slotOn side]? = some ((e side).rename f) := by
  obtain ⟨e, hends, hflow⟩ := (hp.fits l hl).ends
  refine ⟨e, hflow, fun side => ?_⟩
  obtain ⟨m, hm, hkey, hget, _⟩ := hends side
  obtain ⟨hstage, hside, hslot⟩ := Member.getElem?_connectors hget
  obtain ⟨k, hk, hid⟩ := List.mem_map.1 (ends side)
  obtain rfl : k = m := hp.eq_of_id named (inside k hk) hm (by rw [hid, named m hm, hkey])
  obtain ⟨n, hn, hcopied⟩ := member?_copy h.frame h.sound.keys_nodup ren hk
  refine ⟨⟨k, hm, List.mem_of_getElem? hget, ?_⟩, n, hid ▸ hn, hcopied hget⟩
  rw [Connector.place, Link.placeOn, hstage, hside, hslot, hid]

theorem room (copied : ∀ k ∈ links, k ∈ p.links ∧ ∀ side, k.endOn side ∈ order.map Member.id)
    (nodup : links.Nodup) (new : l ∉ links) (hl : l ∈ p.links)
    (ends : ∀ side, l.endOn side ∈ order.map Member.id) {side : Side} {e : Connector}
    (hm : m ∈ p.members) (he : e ∈ m.connectors side) (hplace : e.place = l.placeOn side) :
    (q.linksAt (e.rename f)).length < (e.rename f).capacity := by
  obtain ⟨hstage, hside, _⟩ := Member.mem_connectors he
  simp only [Connector.place, Link.placeOn, Prod.mk.injEq] at hplace
  rw [← linksAmong_none, h.inOrder.linksAmong_eq, h.links_eq, List.filter_map, List.length_map]
  refine Nat.lt_of_lt_of_le ?_ (hp.room m hm (named m hm) side e he)
  rw [Nat.lt_iff_add_one_le, ← List.length_cons (a := l)]
  refine List.Subperm.length_le (List.subperm_of_subset ?_ fun k hk => ?_)
  · exact List.nodup_cons.2 ⟨fun hk => new (List.mem_filter.1 hk).1, nodup.filter _⟩
  · rw [hp.mem_linksAt, hside]
    rcases List.mem_cons.1 hk with rfl | hk
    · exact ⟨hl, by simp only [Connector.place, Link.placeOn, hplace]⟩
    · obtain ⟨hk, hsame⟩ := List.mem_filter.1 hk
      simp only [Function.comp, Connector.place, Connector.rename, Link.placeOn, hside,
        Link.endOn_rename, Link.slotOn_rename, decide_eq_true_eq, Prod.mk.injEq, true_and] at hsame
      obtain ⟨hend, hslot⟩ := hsame
      rw [hplace.1] at hend
      refine ⟨(copied k hk).1, ?_⟩
      simp only [Connector.place, Link.placeOn, hside,
        ren.inj ((copied k hk).2 side) (ends side) hend, hslot, hplace]

theorem connect (inside : ∀ m ∈ order, m ∈ p.members)
    (copied : ∀ k ∈ links, k ∈ p.links ∧ ∀ side, k.endOn side ∈ order.map Member.id)
    (nodup : links.Nodup) (new : l ∉ links) (hl : l ∈ p.links)
    (ends : ∀ side, l.endOn side ∈ order.map Member.id) :
    ∃ r, q.connect (f l.source) (f l.target) (some l.sourceSlot) (some l.targetSlot) =
        .ok (l.rename f, r) ∧ Copies settings f order (links ++ [l]) r := by
  obtain ⟨e, hflow, hends⟩ := h.exists_end ren hp named inside hl ends
  have allowed : q.Allowed (l.rename f) ((e .output).rename f) ((e .input).rename f) := by
    refine ⟨?_, ?_, ?_, hflow .input, ?_, ?_, ?_⟩
    · obtain ⟨n, hn, hget⟩ := (hends .output).2
      exact outputAt_eq_ok.2 ⟨n, hn, hget⟩
    · obtain ⟨n, hn, hget⟩ := (hends .input).2
      exact inputAt_eq_ok.2 ⟨n, hn, hget⟩
    · exact fun heq => (hp.fits l hl).1 (ren.inj (ends .output) (ends .input) heq)
    · rw [h.links_eq]
      intro hmem
      obtain ⟨k, hk, heq⟩ := List.mem_map.1 hmem
      have inj := fun side => ren.inj ((copied k hk).2 side) (ends side)
      exact new (Link.eq_of_rename inj heq ▸ hk)
    · obtain ⟨m, hm, he, hplace⟩ := (hends .output).1
      exact h.room ren hp named copied nodup new hl ends hm he hplace
    · obtain ⟨m, hm, he, hplace⟩ := (hends .input).1
      exact h.room ren hp named copied nodup new hl ends hm he hplace
  have frame := frame_link q (l.rename f)
  refine ⟨q.link (l.rename f), h.sound.connect_of_allowed h.named allowed,
    allowed.sound h.sound, h.named.of_frame frame, h.inOrder.link allowed.fits,
    frame.trans h.frame, ?_⟩
  rw [links_link, h.links_eq, List.map_append]
  rfl

end

end Copies

end Pipeline

end Sluice
