import Sluice.Proofs.RoundTrip

/-! Pipelines of one shape. The text for a pipeline hangs on the tasks and values at its positions,
on the links between them and on the order of the readers of each output. How the members are
called, in which order the links were made and what has been taken out again does not show. -/

namespace Sluice

open Pipeline Writing Reading
open scoped List

variable {p q : Pipeline}

/-- The key that stands in the second pipeline where a key stands in the first. -/
def Pipeline.counterpart (p q : Pipeline) (key : String) : String :=
  q.keys[p.keys.idxOf key]?.getD key

def Pipeline.stagesAt (p : Pipeline) (positions : List Nat) : List Stage :=
  positions.filterMap fun i => p.stages[i]?

/-- Two pipelines with the same tasks and values at the same positions, links between the same
positions, and readers at the same positions, in one order, at every output. -/
structure Pipeline.Alike (p q : Pipeline) : Prop where
  members : List.Forall₂ (fun m n : Member => n.task = m.task ∧ n.values = m.values)
    p.members q.members
  links : ∀ l, l ∈ q.links ↔ l ∈ p.links.map (Link.rename (p.counterpart q))
  readers : ∀ m ∈ p.members, ∀ c ∈ m.outputs, ∃ ps qs, p.peers c none = .ok ps ∧
    q.peers (c.rename (p.counterpart q)) none = .ok qs ∧
    qs.map Connector.place = ps.map fun d => (d.rename (p.counterpart q)).place

theorem filterMap_valuePart?_congr (settings : Settings) (layout : Layout) {as bs : List Argument}
    (parameters : as.map Argument.parameter = bs.map Argument.parameter)
    (values : as.map Argument.value = bs.map Argument.value) :
    as.filterMap (valuePart? settings layout) = bs.filterMap (valuePart? settings layout) := by
  induction as generalizing bs with
  | nil =>
    obtain rfl : bs = [] := List.map_eq_nil_iff.1 parameters.symm
    rfl
  | cons a r ih =>
    cases bs with
    | nil => cases parameters
    | cons b s =>
      obtain ⟨parameter, parameters⟩ := List.cons.inj parameters
      obtain ⟨value, values⟩ := List.cons.inj values
      rw [List.filterMap_cons, List.filterMap_cons, ih parameters values,
        Argument.valuePart?_congr parameter value settings layout]

theorem Job.Proper.valueParts_eq {j k : Job} (hj : j.Proper) (hk : k.Proper)
    (task : k.task = j.task) (values : k.values = j.values) (settings : Settings)
    (layout : Layout) : valueParts settings layout k = valueParts settings layout j := by
  refine filterMap_valuePart?_congr settings layout ?_ ?_
  · rw [hk.arguments, hj.arguments, task]
  · simpa [Job.values, Function.comp_def] using congrArg (List.map Prod.snd) values

theorem eq_of_far {side : Side} {place : String × Side × Nat} {ls ks : List Link}
    (near : ∀ l ∈ ls, l.placeOn side = place) (near' : ∀ k ∈ ks, k.placeOn side = place)
    (far : ls.map (fun l => l.placeOn side.other) = ks.map fun k => k.placeOn side.other) :
    ls = ks := by
  induction ls generalizing ks with
  | nil => exact (List.map_eq_nil_iff.1 far.symm).symm
  | cons l r ih =>
    cases ks with
    | nil => cases far
    | cons k s =>
      obtain ⟨first, rest⟩ := List.cons.inj far
      obtain rfl : l = k :=
        Link.eq_of_ends side ((near l (by simp)).trans (near' k (by simp)).symm) first
      rw [ih (fun l hl => near l (by simp [hl])) (fun k hk => near' k (by simp [hk])) rest]

theorem forall₂_at {α β : Type} {R : α → β → Prop} {as : List α} {bs : List β}
    (h : List.Forall₂ R as bs) (positions : List Nat) :
    List.Forall₂ R (positions.filterMap fun i => as[i]?) (positions.filterMap fun i => bs[i]?) := by
  have each : ∀ i : Nat, Option.Rel R as[i]? bs[i]? := by
    intro i
    induction h generalizing i with
    | nil => exact .none
    | cons first _ ih =>
      cases i with
      | zero => exact .some first
      | succ i => simpa using ih i
  exact List.rel_filterMap (fun i _ same => same ▸ each i) (List.forall₂_same.2 fun _ _ => rfl)

theorem placeOn_rename (f : String → String) (l : Link) (side : Side) :
    (l.rename f).placeOn side = (f (l.endOn side), side, l.slotOn side) := by
  rw [Link.placeOn, Link.endOn_rename, Link.slotOn_rename]

theorem text_or_cycle_of_sameOutcome {f : String → String}
    {first second : Except PipelineError Writing} (h : SameOutcome f first second)
    (spoken : ∀ value, first ≠ .error (.noText value)) (layout : Layout) :
    (∃ text, first.map (Writing.text layout) = .ok text ∧
      second.map (Writing.text layout) = .ok text) ∨
    ∃ ids, first.map (Writing.text layout) = .error (.cycle ids) ∧
      second.map (Writing.text layout) = .error (.cycle (ids.map f)) := by
  cases h with
  | written w => exact .inl ⟨_, rfl, rfl⟩
  | cycle ids => exact .inr ⟨ids, rfl, rfl⟩
  | mute value => exact absurd rfl (spoken value)

namespace Pipeline

theorem stagesAt_eq (p : Pipeline) (positions : List Nat) :
    p.stagesAt positions =
      (positions.filterMap fun i => p.members[i]?).map Member.toStage := by
  simp [stagesAt, stages, List.map_filterMap]

theorem ids_eq_keys (named : p.Named) : p.members.map Member.id = p.keys :=
  List.map_congr_left named

namespace Alike

variable (alike : p.Alike q)
include alike

theorem length_keys : p.keys.length = q.keys.length := by
  simpa [keys] using alike.members.length_eq

variable (hp : p.Sound)
include hp

theorem keys_eq : q.keys = p.keys.map (p.counterpart q) := by
  refine List.ext_getElem (by simpa using alike.length_keys.symm) fun i hi hi' => ?_
  rw [List.length_map] at hi'
  rw [List.getElem_map, counterpart, hp.keys_nodup.idxOf_getElem i hi',
    List.getElem?_eq_getElem hi, Option.getD_some]

variable (named : p.Named) (named' : q.Named)

section

include named named'

theorem twins (proper : p.Proper) (proper' : q.Proper) (settings : Settings) (layout : Layout) :
    List.Forall₂ (Member.Twin settings layout (p.counterpart q)) p.members q.members := by
  have ids : List.Forall₂ (fun m n : Member => n.id = p.counterpart q m.id)
      p.members q.members := by
    have := alike.keys_eq hp
    rw [← ids_eq_keys named, ← ids_eq_keys named', List.map_map, ← List.forall₂_eq_eq_eq,
      List.forall₂_map_left_iff, List.forall₂_map_right_iff] at this
    exact this.flip
  have first := (List.forall₂_and_left _ _).2 ⟨proper, ids.mp (fun _ _ => And.intro) alike.members⟩
  have second := (List.forall₂_and_left _ _).2 ⟨proper', first.flip⟩
  refine second.flip.imp fun m n both => ?_
  obtain ⟨hn, hm, hid, task, values⟩ := both
  exact ⟨hid, task, hm.valueParts_eq hn task values settings layout⟩

end

variable (hq : q.Sound)
include hq

theorem inj {a b : String} (ha : a ∈ p.keys) (hb : b ∈ p.keys)
    (same : p.counterpart q a = p.counterpart q b) : a = b :=
  List.inj_on_of_nodup_map (alike.keys_eq hp ▸ hq.keys_nodup) ha hb same

include named

theorem mem_linksAt_iff {m : Member} (hm : m ∈ p.members) {side : Side} {c : Connector}
    (hc : c ∈ m.connectors side) (l : Link) :
    l ∈ q.linksAt (c.rename (p.counterpart q)) ↔
      l ∈ (p.linksAt c).map (Link.rename (p.counterpart q)) := by
  obtain ⟨hstage, _, _⟩ := Member.mem_connectors hc
  have hkey : c.stage ∈ p.keys := hstage.symm ▸ named m hm ▸ List.mem_map_of_mem hm
  rw [hq.mem_linksAt, alike.links, List.mem_map, List.mem_map]
  constructor
  · rintro ⟨⟨k, hk, rfl⟩, hplace⟩
    refine ⟨k, hp.mem_linksAt.2 ⟨hk, ?_⟩, rfl⟩
    rw [placeOn_rename, Connector.place, Prod.mk.injEq] at hplace
    obtain ⟨hend, hslot⟩ := hplace
    rw [Link.placeOn, Connector.place, Prod.mk.injEq]
    exact ⟨alike.inj hp hq ((hp.fits k hk).mem_keys c.side) hkey hend, hslot⟩
  · rintro ⟨k, hk, rfl⟩
    obtain ⟨hk, hplace⟩ := hp.mem_linksAt.1 hk
    exact ⟨⟨k, hk, rfl⟩,
      (placeOn_rename _ k _).trans (congrArg (fun t => (p.counterpart q t.1, t.2)) hplace)⟩

include named'

theorem linksAt_eq {m : Member} (hm : m ∈ p.members) {side : Side} {c : Connector}
    (hc : c ∈ m.connectors side) :
    q.linksAt (c.rename (p.counterpart q)) =
      (p.linksAt c).map (Link.rename (p.counterpart q)) := by
  have same := alike.mem_linksAt_iff hp named hq hm hc
  obtain ⟨_, hside, _⟩ := Member.mem_connectors hc
  cases side with
  | input =>
    -- An input has one link at most, so that no order is to be kept.
    have short := hp.room m hm (named m hm) .input c hc
    rw [Connector.capacity_input hside] at short
    have once : (q.linksAt (c.rename (p.counterpart q))).Nodup := by
      rw [← linksAmong_none]
      exact hq.linksAmong_nodup _ _
    have once' : ((p.linksAt c).map (Link.rename (p.counterpart q))).Nodup := by
      rw [← linksAmong_none]
      refine (hp.linksAmong_nodup _ _).map_on fun l hl k hk heq => ?_
      refine Link.eq_of_rename (fun side => ?_) heq
      exact alike.inj hp hq ((hp.fits l (hp.mem_linksAmong.1 hl).1.1).mem_keys side)
        ((hp.fits k (hp.mem_linksAmong.1 hk).1.1).mem_keys side)
    exact eq_of_perm_of_short ((List.perm_ext_iff_of_nodup once once').2 same)
      (by simpa using short)
  | output =>
    obtain ⟨ps, qs, hps, hqs, places⟩ := alike.readers m hm c hc
    obtain ⟨ps', hps', far⟩ := hp.peers_eq named c none
    obtain ⟨qs', hqs', far'⟩ := hq.peers_eq named' (c.rename (p.counterpart q)) none
    obtain rfl : ps = ps' := Except.ok.inj (hps.symm.trans hps')
    obtain rfl : qs = qs' := Except.ok.inj (hqs.symm.trans hqs')
    rw [linksAmong_none] at far far'
    have near : ∀ l ∈ q.linksAt (c.rename (p.counterpart q)),
        l.placeOn c.side = (c.rename (p.counterpart q)).place := fun l hl =>
      (hq.mem_linksAt.1 hl).2
    refine eq_of_far near (fun l hl => near l ((same l).2 hl)) ?_
    calc (q.linksAt (c.rename (p.counterpart q))).map (fun l => l.placeOn c.side.other)
        = qs.map Connector.place := far'.symm
      _ = (ps.map Connector.place).map fun t => (p.counterpart q t.1, t.2) := by
        rw [places, List.map_map]
        rfl
      _ = ((p.linksAt c).map (Link.rename (p.counterpart q))).map
            fun l => l.placeOn c.side.other := by
        rw [far, List.map_map, List.map_map]
        exact List.map_congr_left fun l _ => (placeOn_rename _ l _).symm

theorem corresponds {among : List String} (inside : among ⊆ p.keys) :
    p.Corresponds q among (among.map (p.counterpart q)) (p.counterpart q) where
  inj := fun a ha b hb => alike.inj hp hq (inside ha) (inside hb)
  links := by
    intro m hm counts side c hc
    rw [linksAmong_place, linksAmong_place, alike.linksAt_eq hp named named' hq hm hc,
      List.filter_map]
    congr 1
    refine List.filter_congr fun l hl => ?_
    have hend : l.endOn c.side.other ∈ p.keys :=
      (hp.fits l (hp.mem_linksAt.1 hl).1).mem_keys c.side.other
    rw [Bool.eq_iff_iff, Function.comp, Link.endOn_rename, within_some, within_some]
    refine ⟨fun hmem => ?_, List.mem_map_of_mem⟩
    obtain ⟨id, hid, heq⟩ := List.mem_map.1 hmem
    rwa [← alike.inj hp hq (inside hid) hend heq]

theorem write_twins {settings : Settings} {layout : Layout} {chosen twins : List Member}
    (pairs : List.Forall₂ (Member.Twin settings layout (p.counterpart q)) chosen twins)
    (inside : ∀ m ∈ chosen, m ∈ p.members) (inside' : ∀ n ∈ twins, n ∈ q.members)
    (spoken : ∀ m ∈ chosen, m.task.Spoken settings) :
    (∃ text, p.write settings layout (some (chosen.map Member.toStage)) = .ok text ∧
      q.write settings layout (some (twins.map Member.toStage)) = .ok text) ∨
    ∃ ids, p.write settings layout (some (chosen.map Member.toStage)) = .error (.cycle ids) ∧
      q.write settings layout (some (twins.map Member.toStage)) =
        .error (.cycle (ids.map (p.counterpart q))) := by
  have among : chosen.map Member.id ⊆ p.keys := by
    rw [← ids_eq_keys named]
    exact List.map_subset _ inside
  have outcome := writeQueue_rename (w := Writing.start (toolBlocks settings layout)) hp named hq
    named' (alike.corresponds hp named named' hq among) 0 (by simp [HasNumbers, Writing.start])
    ⟨by simp [Writing.start], by simp [Writing.start]⟩
    (fun m hm => ⟨inside m hm, List.mem_map_of_mem hm⟩)
    (fun n hn => ⟨inside' n hn, ids_of_twins pairs ▸ List.mem_map_of_mem hn⟩) pairs
  rw [write_eq hp named settings layout inside, write_eq hq named' settings layout inside',
    ids_of_twins pairs]
  have known := writeQueue_spoken hp named layout inside spoken (toolBlocks settings layout)
  exact text_or_cycle_of_sameOutcome outcome known.ne_noText layout

end Alike

/-- Pipelines of one shape are written as one text, whatever has been done to them and however their
members are called, or the members at the same positions wait for each other in both of them. So it
is when only the members at some positions are written, in any order. -/
theorem Built.write_of_alike (b : Built Edit.Regular p) (b' : Built Edit.Regular q)
    (names : ∀ m ∈ p.members, Text.startsBlank m.task.name = false) (alike : p.Alike q)
    {settings : Settings} (spoken : ∀ m ∈ p.members, m.task.Spoken settings) (layout : Layout)
    (positions? : Option (List Nat)) :
    (∃ text, p.write settings layout (positions?.map p.stagesAt) = .ok text ∧
      q.write settings layout (positions?.map q.stagesAt) = .ok text) ∨
    ∃ ids, p.write settings layout (positions?.map p.stagesAt) = .error (.cycle ids) ∧
      q.write settings layout (positions?.map q.stagesAt) =
        .error (.cycle (ids.map (p.counterpart q))) := by
  have tasks : p.members.map (fun m => m.task) = q.members.map fun n => n.task := by
    rw [← List.forall₂_eq_eq_eq, List.forall₂_map_left_iff, List.forall₂_map_right_iff]
    exact alike.members.imp fun _ _ same => same.1.symm
  have names' : ∀ n ∈ q.members, Text.startsBlank n.task.name = false := by
    intro n hn
    obtain ⟨m, hm, heq⟩ := List.mem_map.1 (tasks ▸ List.mem_map_of_mem hn)
    rw [← heq, names m hm]
  have named := b.sound.named names
  have named' := b'.sound.named names'
  have pairs := alike.twins b.sound named named' b.proper b'.proper settings layout
  cases positions? with
  | none =>
    exact alike.write_twins b.sound named named' b'.sound pairs (fun _ hm => hm)
      (fun _ hn => hn) spoken
  | some positions =>
    rw [Option.map_some, Option.map_some, stagesAt_eq, stagesAt_eq]
    have inside : ∀ m ∈ positions.filterMap fun i => p.members[i]?, m ∈ p.members := by
      intro m hm
      obtain ⟨i, _, hi⟩ := List.mem_filterMap.1 hm
      exact List.mem_of_getElem? hi
    have inside' : ∀ n ∈ positions.filterMap fun i => q.members[i]?, n ∈ q.members := by
      intro n hn
      obtain ⟨i, _, hi⟩ := List.mem_filterMap.1 hn
      exact List.mem_of_getElem? hi
    exact alike.write_twins b.sound named named' b'.sound (forall₂_at pairs positions) inside
      inside' fun m hm => spoken m (inside m hm)

def reforkEdits : List Edit :=
  [.add (Stage.ofTask 7 source none) (some "a"),
    .add (Stage.ofTask 8 source none) none,
    .add (Stage.ofTask 9 sink none) (some "b"),
    .connect "source_1" "b" none none,
    .remove "source_1",
    .add (Stage.ofTask 10 sink none) none,
    .connect "a" "sink_2" none none,
    .connect "a" "b" none none,
    .disconnect ⟨"a", 0, "sink_2", 0⟩,
    .connect "a" "sink_2" none none,
    .move "a" 5,
    .give 10 0 (some "x y")]

def refork : Pipeline :=
  reforkEdits.foldl Edit.apply (Pipeline.new (some "again"))

theorem refork_built : Built Edit.Regular refork := by
  refine .edits (.new _) ?_
  simp only [reforkEdits, Allows]
  exact ⟨⟨proper_source 7 _, by decide +kernel⟩, ⟨proper_source 8 _, by decide +kernel⟩,
    ⟨proper_sink 9 _, by decide +kernel⟩, trivial, trivial,
    ⟨proper_sink 10 _, by decide +kernel⟩, trivial, trivial, trivial, trivial, trivial, trivial,
    trivial⟩

theorem fork_alike : fork.Alike refork where
  members := .cons ⟨rfl, rfl⟩ (.cons ⟨rfl, rfl⟩ (.cons ⟨rfl, rfl⟩ .nil))
  links := by
    have perm : refork.links ~ fork.links.map (Link.rename (fork.counterpart refork)) := by
      decide +kernel
    exact fun l => perm.mem_iff
  readers := by
    have each : ∀ m ∈ fork.members, ∀ c ∈ m.outputs, ∃ ps, fork.peers c none = .ok ps ∧
        ∃ qs, refork.peers (c.rename (fork.counterpart refork)) none = .ok qs ∧
          qs.map Connector.place =
            ps.map fun d => (d.rename (fork.counterpart refork)).place := by
      decide +kernel
    intro m hm c hc
    obtain ⟨ps, hps, qs, hqs, places⟩ := each m hm c hc
    exact ⟨ps, qs, hps, hqs, places⟩

theorem fork_written_alike :
    (∃ text, fork.write Settings.default (Layout.ofDialect Dialect.cmd true) none = .ok text ∧
      refork.write Settings.default (Layout.ofDialect Dialect.cmd true) none = .ok text) ∨
    ∃ ids, fork.write Settings.default (Layout.ofDialect Dialect.cmd true) none =
        .error (.cycle ids) ∧
      refork.write Settings.default (Layout.ofDialect Dialect.cmd true) none =
        .error (.cycle (ids.map (fork.counterpart refork))) :=
  fork_built.regular.write_of_alike refork_built (by decide +kernel) fork_alike
    (fun _ _ => Task.spoken_of_long rfl) _ none

end Pipeline

end Sluice
