import Sluice.Proofs.Pipeline.Arranging
import Sluice.Proofs.Reading.Ordering
import Sluice.Proofs.Reading.Replay

/-! The end of reading. The links that were read by branches are kept by output, and are put in the
order of the branches: the order in which the writer has counted the readers of the output. -/

namespace Sluice.Reading

open CommandLine Pipeline Writing
open scoped List

variable {p q : Pipeline} {among : List String} {settings : Settings} {f : String → String}
  {order : List Member} {links : List Link} {s : Reading} {w : Writing}

def entriesOf (p : Pipeline) (among : List String) (f : String → String) (links : List Link)
    (o : Outlet) : List (Nat × Link) :=
  links.filterMap fun l =>
    if outletOf f l = o then (branchOf p among l).map fun n => (n, l.rename f) else none

theorem keepLinks_eq (p : Pipeline) (among : List String) (f : String → String)
    (links : List Link) :
    ((links.foldl (keepLink p among f) []).map Prod.fst).Nodup ∧
      ∀ o, (links.foldl (keepLink p among f) []).lookup o =
        if entriesOf p among f links o = [] then none else some (entriesOf p among f links o) := by
  have each : keepLink p among f = keepEntry (outletOf f) fun l =>
      (branchOf p among l).map fun n => (n, l.rename f) := by
    funext kept l
    rw [keepLink, keepEntry, Option.elim_map]
    rfl
  rw [each]
  exact keepEntries_eq (outletOf f) _ links

structure Restores (p : Pipeline) (among : List String) (settings : Settings)
    (f : String → String) (order : List Member) (q : Pipeline) : Prop where
  sound : q.Sound
  named : q.Named
  frame : q.frame = order.zipIdx.map (Member.copy settings)
  links_eq : q.links = (order.flatMap (feeds p among)).map (Link.rename f)
  places : ∀ m ∈ order, ∀ side, ∀ c ∈ m.connectors side,
    q.linksAmong (c.rename f).place none =
      (p.linksAmong c.place (some among)).map (Link.rename f)

theorem filter_flatMap_of_unique {α β : Type} (keep : β → Bool) {as : List α} (nodup : as.Nodup)
    {g : α → List β} {a : α} (ha : a ∈ as) (own : ∀ b ∈ g a, keep b = true)
    (others : ∀ c ∈ as, c ≠ a → ∀ b ∈ g c, keep b = false) :
    (as.flatMap g).filter keep = g a := by
  induction as with
  | nil => simp at ha
  | cons c r ih =>
    obtain ⟨hnew, hr⟩ := List.nodup_cons.1 nodup
    rw [List.flatMap_cons, List.filter_append]
    by_cases hc : c = a
    · subst hc
      have hrest : (r.flatMap g).filter keep = [] := by
        refine List.filter_eq_nil_iff.2 fun b hb => ?_
        obtain ⟨e, he, hb⟩ := List.mem_flatMap.1 hb
        have hne : e ≠ c := by
          rintro rfl
          exact hnew he
        simpa using others e (List.mem_cons_of_mem _ he) hne b hb
      rw [hrest, List.append_nil, List.filter_eq_self.2 own]
    · have hrest := ih hr ((List.mem_cons.1 ha).resolve_left (Ne.symm hc))
        fun e he => others e (List.mem_cons_of_mem _ he)
      have hnone : (g c).filter keep = [] := List.filter_eq_nil_iff.2 fun b hb => by
        simpa using others c List.mem_cons_self hc b hb
      rw [hnone, List.nil_append, hrest]

theorem eq_of_perm_of_short {α : Type} {as bs : List α} (perm : as ~ bs) (short : bs.length ≤ 1) :
    as = bs := by
  cases bs with
  | nil => exact perm.eq_nil
  | cons b r =>
    obtain rfl : r = [] := List.eq_nil_of_length_eq_zero (by simpa using short)
    exact List.perm_singleton.1 perm

section

variable (hp : p.Sound) (named : p.Named) (inside : ∀ m ∈ order, m ∈ p.members)
  (ids : (order.map Member.id).Nodup)
include hp named inside

theorem mem_flatMap_feeds (all : ∀ id, id ∈ among ↔ id ∈ order.map Member.id) {l : Link} :
    l ∈ order.flatMap (feeds p among) ↔ l ∈ induced p among := by
  simp only [induced, List.mem_filter, Bool.and_eq_true, List.contains_iff_mem, List.mem_flatMap]
  constructor
  · rintro ⟨m, hm, hl⟩
    obtain ⟨hlinks, htarget, hsource⟩ := (mem_feeds hp named (inside m hm)).1 hl
    exact ⟨hlinks, hsource, (all _).2 (htarget ▸ List.mem_map_of_mem hm)⟩
  · rintro ⟨hlinks, hsource, htarget⟩
    obtain ⟨m, hm, hid⟩ := List.mem_map.1 ((all _).1 htarget)
    exact ⟨m, hm, (mem_feeds hp named (inside m hm)).2 ⟨hlinks, hid.symm, hsource⟩⟩

include ids

theorem filter_feeds_input {m : Member} (hm : m ∈ order) {c : Connector} (hc : c ∈ m.inputs) :
    ((order.flatMap (feeds p among)).filter fun l => l.placeOn .input = c.place) =
      p.linksAmong c.place (some among) := by
  obtain ⟨hstage, hside, _⟩ := Member.mem_connectors hc
  have inputs : (feeds p among m).filter (fun l => l.placeOn .input = c.place) =
      p.linksAmong c.place (some among) := by
    have nodup : m.inputs.Nodup := List.Nodup.of_map _ (m.slots_nodup .input)
    refine filter_flatMap_of_unique _ nodup hc (fun l hl => ?_) fun d hd hne l hl => ?_
    · have := (hp.mem_linksAmong.1 hl).1.2
      simp only [Connector.place, hside] at this
      simpa [Connector.place, hside] using this
    · have hplace := (hp.mem_linksAmong.1 hl).1.2
      obtain ⟨_, hdside, hdget⟩ := Member.mem_connectors hd
      simp only [Connector.place, hdside] at hplace
      refine decide_eq_false fun heq => hne ?_
      have hslot : d.slot = c.slot := congrArg (fun t => t.2.2) (hplace.symm.trans heq)
      have hcget := (Member.mem_connectors hc).2.2
      rw [hslot, hcget] at hdget
      exact (Option.some.inj hdget).symm
  have hnodup : order.Nodup := List.Nodup.of_map _ ids
  rw [← inputs]
  have split := filter_flatMap_of_unique (g := fun k =>
    (feeds p among k).filter fun l => l.placeOn .input = c.place)
    (fun l => l.placeOn .input = c.place) hnodup hm (fun l hl => (List.mem_filter.1 hl).2)
    fun k hk hne l hl => by
      obtain ⟨hfeeds, hplace⟩ := List.mem_filter.1 hl
      have htarget := ((mem_feeds hp named (inside k hk)).1 hfeeds).2.1
      have hend : l.target = c.stage := congrArg Prod.fst (of_decide_eq_true hplace)
      exact absurd (List.inj_on_of_nodup_map ids hk hm (by rw [← htarget, hend, hstage])) hne
  rw [← split]
  simp only [List.filter_flatMap, List.filter_filter, Bool.and_self]

theorem filter_feeds_output (all : ∀ id, id ∈ among ↔ id ∈ order.map Member.id) {m : Member}
    (hm : m ∈ order) {c : Connector} (hc : c ∈ m.outputs) :
    ((order.flatMap (feeds p among)).filter fun l => l.placeOn .output = c.place) ~
      p.linksAmong c.place (some among) := by
  obtain ⟨hstage, hside, _⟩ := Member.mem_connectors hc
  refine (List.perm_ext_iff_of_nodup ((flatMap_feeds_nodup hp named inside ids).filter _)
    (hp.linksAmong_nodup _ _)).2 fun l => ?_
  rw [List.mem_filter, mem_flatMap_feeds hp named inside all, hp.mem_linksAmong, induced,
    List.mem_filter, within_some]
  simp only [Bool.and_eq_true, List.contains_iff_mem, decide_eq_true_eq, Connector.place, hside]
  constructor
  · rintro ⟨⟨hl, _, htarget⟩, hplace⟩
    exact ⟨⟨hl, hplace⟩, htarget⟩
  · rintro ⟨⟨hl, hplace⟩, htarget⟩
    have hsource : l.source = m.id := (congrArg Prod.fst hplace).trans hstage
    exact ⟨⟨hl, hsource ▸ (all _).2 (List.mem_map_of_mem hm), htarget⟩, hplace⟩

end

theorem inBranchOrder_eq {xs ls : List Link} (nodup : ls.Nodup) (perm : xs ~ ls)
    (f : String → String) :
    inBranchOrder (xs.map fun l => (ls.idxOf l, l.rename f)) = ls.map (Link.rename f) := by
  have sorted : (ls.map fun l => (ls.idxOf l, l.rename f)).Pairwise fun a b => a.1 < b.1 := by
    have := idxOf_filter_sorted (fun _ => true) nodup
    rw [List.filter_eq_self.2 fun _ _ => rfl] at this
    exact List.pairwise_map.2 (List.pairwise_map.1 this)
  rw [inBranchOrder, mergeSort_eq Prod.fst (perm.map _) sorted, List.map_map]
  rfl

theorem entriesOf_eq (ren : Renames f order)
    (ends : ∀ l ∈ links, ∀ side, l.endOn side ∈ order.map Member.id) {key : String}
    (hkey : key ∈ order.map Member.id) (slot : Nat) :
    entriesOf p among f links ⟨f key, slot⟩ =
      if (p.linksAmong (key, .output, slot) (some among)).length ≤ 1 then []
      else (links.filter fun l => l.placeOn .output = (key, .output, slot)).map fun l =>
        ((p.linksAmong (key, .output, slot) (some among)).idxOf l, l.rename f) := by
  have outlet : ∀ l ∈ links,
      outletOf f l = ⟨f key, slot⟩ ↔ l.placeOn .output = (key, .output, slot) := by
    intro l hl
    simp only [outletOf, Outlet.mk.injEq, Link.placeOn, Link.endOn, Link.slotOn, Prod.mk.injEq,
      true_and]
    exact and_congr_left fun _ =>
      ⟨fun heq => ren.inj (ends l hl .output) hkey heq, fun heq => by rw [heq]⟩
  have each : entriesOf p among f links ⟨f key, slot⟩ =
      (links.filter fun l => l.placeOn .output = (key, .output, slot)).filterMap fun l =>
        (branchOf p among l).map fun n => (n, l.rename f) := by
    rw [entriesOf, List.filterMap_filter]
    refine List.filterMap_congr fun l hl => ?_
    simp only [outlet l hl, decide_eq_true_eq]
  rw [each]
  split
  · rename_i hshort
    refine List.filterMap_eq_nil_iff.2 fun l hl => ?_
    have hplace : l.placeOn .output = (key, .output, slot) := by
      simpa using (List.mem_filter.1 hl).2
    rw [branchOf, hplace, if_pos hshort, Option.map_none]
  · rename_i hlong
    rw [← List.filterMap_eq_map]
    refine List.filterMap_congr fun l hl => ?_
    have hplace : l.placeOn .output = (key, .output, slot) := by
      simpa using (List.mem_filter.1 hl).2
    rw [branchOf, hplace, if_neg hlong]
    rfl

theorem Follows.ordered (hp : p.Sound) (named : p.Named) (inside : ∀ m ∈ order, m ∈ p.members)
    (ids : (order.map Member.id).Nodup) (all : ∀ id, id ∈ among ↔ id ∈ order.map Member.id)
    (ren : Renames f order) (h : Follows p among settings f order w s) :
    ∀ e ∈ s.branched, (∃ c, s.pipeline.outputAt e.1.key e.1.slot = .ok c) ∧
      inBranchOrder e.2 ~ s.pipeline.linksAmong (e.1.key, .output, e.1.slot) none := by
  have ends := fun l hl => (ends_of_feeds hp named inside h.sources l hl).2
  obtain ⟨hnodup, hlookup⟩ := keepLinks_eq p among f (order.flatMap (feeds p among))
  rw [← h.branched] at hnodup hlookup
  rintro ⟨outlet, entries⟩ he
  have hlook : s.branched.lookup outlet = some entries := Table.lookup_of_mem hnodup he
  rw [hlookup] at hlook
  split at hlook
  · cases hlook
  · rename_i hne
    rw [Option.some.injEq] at hlook
    obtain ⟨entry, hentry⟩ := List.exists_mem_of_ne_nil _ hne
    obtain ⟨l, hl, hsome⟩ := List.mem_filterMap.1 hentry
    obtain rfl : ⟨f l.source, l.sourceSlot⟩ = outlet := by
      by_contra hdiff
      rw [outletOf, if_neg hdiff] at hsome
      cases hsome
    have hsource : l.source ∈ order.map Member.id := ends l hl .output
    obtain ⟨_, c, _, hc, _⟩ := h.copies.sound.fits (l.rename f) (by
      rw [h.copies.links_eq]
      exact List.mem_map_of_mem hl)
    obtain ⟨m, hm, hid⟩ := List.mem_map.1 hsource
    obtain ⟨o, ho, hplace⟩ := exists_numberedOutput hp named among (inside m hm)
      (ends_of_feeds hp named inside h.sources l hl).1 hid.symm 0
    have hfan := filter_feeds_output hp named inside ids all hm (mem_of_numbered ho)
    rw [← hplace, show l.placeOn .output = (l.source, .output, l.sourceSlot) from rfl] at hfan
    rw [entriesOf_eq ren ends hsource] at hlook hne
    refine ⟨⟨c, hc⟩, ?_⟩
    rw [h.copies.linksAmong_eq ren ends hsource, ← hlook, if_neg fun hshort => hne (if_pos hshort),
      inBranchOrder_eq (hp.linksAmong_nodup _ _) hfan]
    exact (hfan.map _).symm

theorem Follows.finish (hp : p.Sound) (named : p.Named) (inside : ∀ m ∈ order, m ∈ p.members)
    (ids : (order.map Member.id).Nodup) (all : ∀ id, id ∈ among ↔ id ∈ order.map Member.id)
    (acyclic : Acyclic (induced p among)) (ren : Renames f order)
    (h : Follows p among settings f order w s) :
    ∃ q, s.finish = .ok q ∧ Restores p among settings f order q := by
  have ends := fun l hl => (ends_of_feeds hp named inside h.sources l hl).2
  have ordered := h.ordered hp named inside ids all ren
  obtain ⟨hnodup, hlookup⟩ := keepLinks_eq p among f (order.flatMap (feeds p among))
  rw [← h.branched] at hnodup hlookup
  obtain ⟨q, hq, hsound, hframe, hlinks, hinputs, houtputs⟩ :=
    orderBranches_all h.copies.sound h.copies.named hnodup ordered
  have acyclic' : Acyclic q.links := by
    rw [hlinks, h.copies.links_eq]
    refine Acyclic.rename (acyclic.mono fun l hl => ?_) ends fun a ha b hb => ren.inj ha hb
    exact (mem_flatMap_feeds hp named inside all).1 hl
  obtain ⟨placed, hplaced, _⟩ := arrange_of_acyclic hsound acyclic'
  refine ⟨q, ?_, hsound, h.copies.named.of_frame hframe, hframe.trans h.copies.frame,
    hlinks.trans h.copies.links_eq, fun m hm side c hc => ?_⟩
  · simp only [Reading.finish, hq, step_ok, ok_bind, hplaced]
    rfl
  · have hkey : m.id ∈ order.map Member.id := List.mem_map_of_mem hm
    have hplace := Member.place_of_mem hc
    have hrename : (c.rename f).place = (f m.id, side, c.slot) :=
      congrArg (fun place => (f place.1, place.2)) hplace
    have hread := h.copies.linksAmong_eq ren ends hkey side c.slot
    rw [hrename]
    cases side with
    | input =>
      rw [hinputs, hread, ← hplace, filter_feeds_input hp named inside ids hm hc]
    | output =>
      have hfan := filter_feeds_output hp named inside ids all hm hc
      rw [houtputs, hlookup, entriesOf_eq ren ends hkey, hread, ← hplace]
      by_cases hshort : (p.linksAmong c.place (some among)).length ≤ 1
      · rw [if_pos hshort, if_pos rfl, Option.map_none, Option.getD_none,
          eq_of_perm_of_short hfan hshort]
      · have hne : (((order.flatMap (feeds p among)).filter
            fun l => l.placeOn .output = c.place).map fun l =>
              ((p.linksAmong c.place (some among)).idxOf l, l.rename f)) ≠ [] := by
          intro hnil
          rw [List.map_eq_nil_iff] at hnil
          rw [hnil] at hfan
          rw [← hfan.length_eq] at hshort
          exact hshort (Nat.zero_le 1)
        rw [if_neg hshort, if_neg hne, Option.map_some, Option.getD_some,
          inBranchOrder_eq (hp.linksAmong_nodup _ _) hfan]

end Sluice.Reading
