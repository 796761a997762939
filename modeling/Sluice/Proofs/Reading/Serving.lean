import Sluice.Proofs.Reading.Queues

/-! First come, first served. Without adapters the outputs of a flow that have no labels are read in
the order of the text by the inputs that have none, and one of these goes without only when all such
outputs of the tasks before it are read. -/

namespace Sluice

namespace Pipeline

def Precedes (p : Pipeline) (a b : String × Side × Nat) : Prop :=
  p.keys.idxOf a.1 < p.keys.idxOf b.1 ∨ p.keys.idxOf a.1 = p.keys.idxOf b.1 ∧ a.2.2 < b.2.2

end Pipeline

namespace Reading

open Pipeline

variable {s : Reading} {flow : Flow} {l : Link}

/-- The connectors of a flow on one side that a text leaves without labels, in the order of their
tasks and then of their slots. -/
def unlabelledIn (commands : List Command) (q : Pipeline) (flow : Flow) (side : Side) :
    List Connector :=
  (commands.zip q.members).flatMap fun x => unlabelled flow x.1 (x.2.connectors side)

/-- First come, first served: of the outputs of a flow without labels each is read at most once, and
those before one that is read are read too, each by an input before the one that reads it. An input
without a label goes without only when all such outputs of tasks before it are read, by inputs
before it; and it never reads an output with a label. -/
structure FirstServed (commands : List Command) (q : Pipeline) (flow : Flow) : Prop where
  once : ∀ o ∈ unlabelledIn commands q flow .output, (q.linksAt o).length ≤ 1
  order : ∀ o ∈ unlabelledIn commands q flow .output, ∀ o' ∈ unlabelledIn commands q flow .output,
    q.Precedes o.place o'.place → ∀ l ∈ q.links, l.placeOn .output = o'.place →
      ∃ k ∈ q.links, k.placeOn .output = o.place ∧
        q.Precedes (k.placeOn .input) (l.placeOn .input)
  starved : ∀ i ∈ unlabelledIn commands q flow .input, (∀ l ∈ q.links, l.placeOn .input ≠ i.place) →
    ∀ o ∈ unlabelledIn commands q flow .output, q.keys.idxOf o.stage < q.keys.idxOf i.stage →
      ∃ l ∈ q.links, l.placeOn .output = o.place ∧ q.Precedes (l.placeOn .input) i.place
  apart : ∀ l ∈ q.links, ∀ i ∈ unlabelledIn commands q flow .input, l.placeOn .input = i.place →
    ∃ o ∈ unlabelledIn commands q flow .output, l.placeOn .output = o.place

section

variable {q : Pipeline} {commands : List Command} {side : Side} {d : Connector}

theorem mem_unlabelledIn : d ∈ unlabelledIn commands q flow side ↔ ∃ c m,
    (c, m) ∈ commands.zip q.members ∧ d ∈ m.connectors side ∧ d.flow = flow ∧
      c.pipeAt? side d.slot = none := by
  simp only [unlabelledIn, List.mem_flatMap, Prod.exists, unlabelled, List.mem_filter,
    Bool.and_eq_true, decide_eq_true_eq, Option.isNone_iff_eq_none]
  refine exists_congr fun c => exists_congr fun m => and_congr_right fun _ =>
    and_congr_right fun hd => ?_
  rw [(Member.mem_connectors hd).2.1]

theorem mem_of_before {α : Type} {before : α → α → Prop} {earlier later : List α} {x y : α}
    (asymm : ∀ a b, before a b → ¬before b a) (sorted : (earlier ++ x :: later).Pairwise before)
    (hy : y ∈ earlier ++ x :: later) (first : before y x) : y ∈ earlier := by
  rcases List.mem_append.1 hy with hy | hy
  · exact hy
  · rcases List.mem_cons.1 hy with rfl | hy
    · exact absurd first (asymm _ _ first)
    · have late := List.rel_of_pairwise_cons (List.pairwise_append.1 sorted).2.1 hy
      exact absurd first (asymm _ _ late)

theorem precedes_asymm {a b : String × Side × Nat} (h : q.Precedes a b) : ¬q.Precedes b a := by
  unfold Precedes at *
  omega

theorem stations_pairwise (sound : q.Sound) (stations : commands.length = q.members.length) :
    (commands.zip q.members).Pairwise fun x y =>
      q.keys.idxOf x.2.key < q.keys.idxOf y.2.key := by
  have keys : q.keys.Pairwise fun a b => q.keys.idxOf a < q.keys.idxOf b := by
    refine List.pairwise_iff_getElem.2 fun i j hi hj lt => ?_
    rwa [sound.keys_nodup.idxOf_getElem, sound.keys_nodup.idxOf_getElem]
  have members := List.pairwise_map.1 keys
  rw [← List.map_snd_zip (Nat.le_of_eq stations.symm)] at members
  simpa only [List.pairwise_map] using members

theorem stage_of_unlabelled (named : q.Named) {x : Command × Member}
    (hx : x ∈ commands.zip q.members) (hd : d ∈ unlabelled flow x.1 (x.2.connectors side)) :
    d.stage = x.2.key :=
  (Member.mem_connectors (List.mem_filter.1 hd).1).1.trans (named x.2 (List.of_mem_zip hx).2)

variable (sound : q.Sound) (named : q.Named) (stations : commands.length = q.members.length)
include sound named stations

theorem unlabelledIn_pairwise (flow : Flow) (side : Side) :
    ((unlabelledIn commands q flow side).map Connector.place).Pairwise q.Precedes := by
  have stage : ∀ x ∈ commands.zip q.members, ∀ d ∈ unlabelled flow x.1 (x.2.connectors side),
      d.place.1 = x.2.key := fun x hx d hd => stage_of_unlabelled named hx hd
  refine List.pairwise_map.2 (List.pairwise_flatMap.2 ⟨fun x hx => ?_, ?_⟩)
  · refine ((x.2.slots_increasing side).filter _).imp_of_mem fun hc hd lt => .inr ⟨?_, lt⟩
    rw [stage x hx _ hc, stage x hx _ hd]
  · refine (stations_pairwise sound stations).imp_of_mem fun hx hy lt c hc d hd => .inl ?_
    rwa [stage _ hx c hc, stage _ hy d hd]

omit named in
theorem station_unique {x y : Command × Member} (hx : x ∈ commands.zip q.members)
    (hy : y ∈ commands.zip q.members) (same : x.2.key = y.2.key) : x = y := by
  have nodup : ((commands.zip q.members).map fun x => q.keys.idxOf x.2.key).Nodup :=
    List.pairwise_map.2 ((stations_pairwise sound stations).imp Nat.ne_of_lt)
  exact List.inj_on_of_nodup_map nodup hx hy (by rw [same])

theorem not_hasLabel (hd : d ∈ unlabelledIn commands q flow side) :
    ¬HasLabel (commands.zip q.members) d.place := by
  rintro ⟨y, hy, key, labelled⟩
  obtain ⟨c, m, hx, connector, _, unlabelled⟩ := mem_unlabelledIn.1 hd
  obtain ⟨stage, hside, _⟩ := Member.mem_connectors connector
  have id := named m (List.of_mem_zip hx).2
  obtain rfl := station_unique sound stations hy hx (key.trans (stage.trans id))
  rw [Connector.place, hside, unlabelled] at labelled
  cases labelled

omit stations in
theorem flow_of_place {other : Flow} {e : Connector} (hd : d ∈ unlabelledIn commands q flow side)
    (he : e ∈ unlabelledIn commands q other side) (same : d.place = e.place) : flow = other := by
  obtain ⟨_, m, hx, hm, rfl, _⟩ := mem_unlabelledIn.1 hd
  obtain ⟨_, n, hy, hn, rfl, _⟩ := mem_unlabelledIn.1 he
  obtain ⟨stage, _, get⟩ := Member.mem_connectors hm
  obtain ⟨stage', _, get'⟩ := Member.mem_connectors hn
  simp only [Connector.place, Prod.mk.injEq] at same
  obtain rfl := sound.eq_of_id named (List.of_mem_zip hx).2 (List.of_mem_zip hy).2
    (stage.symm.trans (same.1.trans stage'))
  rw [same.2.2, get', Option.some_inj] at get
  rw [get]

end

section

variable {q : Pipeline} {commands : List Command} {labelled : String × Side × Nat → Prop}
  {served : Flow → List Link}
  (lined : Lined labelled (fun flow => events flow (commands.zip q.members)) served s)
include lined

theorem Lined.outputs_eq (flow : Flow) :
    (unlabelledIn commands q flow .output).map Connector.place =
      (served flow).map (fun l => l.placeOn .output) ++ waiting s.pending flow :=
  (offers_events flow _).symm.trans (lined.queued flow).line

theorem Lined.inputs_sublist (flow : Flow) : ((served flow).map fun l => l.placeOn .input).Sublist
    ((unlabelledIn commands q flow .input).map Connector.place) :=
  asks_events flow (commands.zip q.members) ▸ (lined.queued flow).turns

end

section

variable {q : Pipeline} {commands : List Command} {served : Flow → List Link} {side : Side}
  {d : Connector} (sound : q.Sound) (named : q.Named)
  (stations : commands.length = q.members.length)
  (lined : Lined (HasLabel (commands.zip q.members))
    (fun flow => events flow (commands.zip q.members)) served s)
  (links : q.links = s.pipeline.links)
include sound named stations lined

theorem served_before {o o' : Connector} (ho : o ∈ unlabelledIn commands q flow .output)
    (before : q.Precedes o.place o'.place) (hl : l ∈ served flow)
    (place : l.placeOn .output = o'.place) : ∃ k ∈ served flow, k.placeOn .output = o.place ∧
      q.Precedes (k.placeOn .input) (l.placeOn .input) := by
  obtain ⟨earlier, later, split⟩ := List.append_of_mem hl
  have outputs := unlabelledIn_pairwise sound named stations flow .output
  have there := List.mem_map_of_mem (f := Connector.place) ho
  rw [lined.outputs_eq, split, List.map_append, List.map_cons, List.append_assoc, List.cons_append]
    at outputs there
  have come := mem_of_before (fun _ _ => precedes_asymm) outputs there (place ▸ before)
  obtain ⟨k, hk, found⟩ := List.mem_map.1 come
  have inputs := (unlabelledIn_pairwise sound named stations flow .input).sublist
    (lined.inputs_sublist flow)
  rw [split, List.map_append, List.map_cons, List.pairwise_append] at inputs
  exact ⟨k, split ▸ List.mem_append_left _ hk, found,
    inputs.2.2 _ (List.mem_map_of_mem hk) _ List.mem_cons_self⟩

theorem served_once {k : Link} (hk : k ∈ served flow) (hl : l ∈ served flow)
    (same : k.placeOn .output = l.placeOn .output) : k = l := by
  have outputs := unlabelledIn_pairwise sound named stations flow .output
  rw [lined.outputs_eq, List.pairwise_append] at outputs
  refine List.inj_on_of_nodup_map (outputs.1.imp ?_) hk hl same
  rintro a _ before rfl
  exact precedes_asymm before before

include links

theorem served_of_unlabelled (hd : d ∈ unlabelledIn commands q flow side) (hl : l ∈ q.links)
    (place : l.placeOn side = d.place) : l ∈ served flow := by
  rcases lined.links l (links ▸ hl) with ⟨other, found⟩ | labelled
  · have there : l.placeOn side ∈ (unlabelledIn commands q other side).map Connector.place := by
      cases side with
      | input => exact (lined.inputs_sublist other).subset (List.mem_map_of_mem found)
      | output => exact lined.outputs_eq other ▸ List.mem_append_left _ (List.mem_map_of_mem found)
    obtain ⟨e, he, same⟩ := List.mem_map.1 there
    obtain rfl := flow_of_place sound named he hd (same.trans place)
    exact found
  · exact absurd (place ▸ labelled side) (not_hasLabel sound named stations hd)

theorem starved_served {i o : Connector} (hi : i ∈ unlabelledIn commands q flow .input)
    (vain : ∀ l ∈ q.links, l.placeOn .input ≠ i.place)
    (ho : o ∈ unlabelledIn commands q flow .output)
    (before : q.keys.idxOf o.stage < q.keys.idxOf i.stage) :
    ∃ l ∈ served flow, l.placeOn .output = o.place ∧ q.Precedes (l.placeOn .input) i.place := by
  obtain ⟨x, hx, hix⟩ := List.mem_flatMap.1 hi
  obtain ⟨y, hy, hoy⟩ := List.mem_flatMap.1 ho
  obtain ⟨earlier, later, split⟩ := List.append_of_mem hx
  obtain ⟨asked, unasked, inputs⟩ := List.append_of_mem hix
  -- What has happened at the line when the input asks.
  have trace : events flow (commands.zip q.members) =
      (events flow earlier ++ asked.map (.ask ·.place)) ++ .ask i.place ::
        (unasked.map (.ask ·.place) ++ (unlabelled flow x.1 x.2.outputs).map (.offer ·.place) ++
          events flow later) := by
    rw [split, events_append, events_cons, Member.inputs, inputs]
    simp [List.append_assoc]
  have come : y ∈ earlier := by
    rw [stage_of_unlabelled named hx hix, stage_of_unlabelled named hy hoy] at before
    have sorted := stations_pairwise sound stations
    rw [split] at hy sorted
    exact mem_of_before (fun _ _ => Nat.lt_asymm) sorted hy before
  have unserved : i.place ∉ (served flow).map fun l => l.placeOn .input := fun found => by
    obtain ⟨l, hl, place⟩ := List.mem_map.1 found
    exact vain l (links ▸ lined.table flow l hl) place
  have offered : o.place ∈ offers (events flow earlier ++ asked.map (.ask ·.place)) := by
    rw [offers_append, offers_map_ask, List.append_nil, offers_events]
    exact List.mem_map_of_mem (List.mem_flatMap.2 ⟨y, come, hoy⟩)
  obtain ⟨l, hl, place, first⟩ :=
    (lined.queued flow).starved _ i.place _ trace unserved o.place offered
  have sorted := unlabelledIn_pairwise sound named stations flow .input
  rw [unlabelledIn, ← asks_events, trace, asks_append, List.pairwise_append] at sorted
  exact ⟨l, hl, place, sorted.2.2 _ first _ List.mem_cons_self⟩

theorem linksAt_length_le_one {o : Connector} (ho : o ∈ unlabelledIn commands q flow .output) :
    (q.linksAt o).length ≤ 1 := by
  obtain ⟨_, _, _, connector, _⟩ := mem_unlabelledIn.1 ho
  have side := (Member.mem_connectors connector).2.1
  have nodup : (q.linksAt o).Nodup := linksAmong_none q o ▸ sound.linksAmong_nodup o.place none
  have here : ∀ l ∈ q.linksAt o, l ∈ served flow ∧ l.placeOn .output = o.place := fun l hl => by
    obtain ⟨hl, place⟩ := sound.mem_linksAt.1 hl
    rw [side] at place
    exact ⟨served_of_unlabelled sound named stations lined links ho hl place, place⟩
  cases heq : q.linksAt o with
  | nil => exact Nat.zero_le 1
  | cons l r =>
    rw [heq] at nodup here
    obtain ⟨hl, place⟩ := here l List.mem_cons_self
    have sub : l :: r ⊆ [l] := fun k hk => List.mem_singleton.2
      (served_once sound named stations lined (here k hk).1 hl ((here k hk).2.trans place.symm))
    exact (nodup.subperm sub).length_le

theorem firstServed (flow : Flow) : FirstServed commands q flow := by
  have sub : ∀ l ∈ served flow, l ∈ q.links := fun l hl => links ▸ lined.table flow l hl
  refine ⟨fun o ho => ?_, fun o ho o' ho' before l hl place => ?_,
    fun i hi vain o ho before => ?_, fun l hl i hi place => ?_⟩
  · exact linksAt_length_le_one sound named stations lined links ho
  · have hl := served_of_unlabelled sound named stations lined links ho' hl place
    obtain ⟨k, hk, found⟩ := served_before sound named stations lined ho before hl place
    exact ⟨k, sub k hk, found⟩
  · obtain ⟨l, hl, found⟩ := starved_served sound named stations lined links hi vain ho before
    exact ⟨l, sub l hl, found⟩
  · have hl := served_of_unlabelled sound named stations lined links hi hl place
    have there := List.mem_append_left (waiting s.pending flow)
      (List.mem_map_of_mem (f := fun l => l.placeOn .output) hl)
    rw [← lined.outputs_eq] at there
    obtain ⟨o, ho, same⟩ := List.mem_map.1 there
    exact ⟨o, ho, same.symm⟩

end

section

variable {q : Pipeline} {commands : List Command}

theorem events_frame (flow : Flow) (commands : List Command) (q : Pipeline) :
    events flow (commands.zip q.frame) = events flow (commands.zip q.members) := by
  rw [Pipeline.frame, List.zip_map_right, events, List.flatMap_map]
  rfl

theorem hasLabel_frame (commands : List Command) (q : Pipeline) (place : String × Side × Nat) :
    HasLabel (commands.zip q.frame) place ↔ HasLabel (commands.zip q.members) place := by
  simp only [HasLabel, Pipeline.frame, List.zip_map_right, List.mem_map, exists_exists_and_eq_and]
  rfl

theorem InLine.finish (h : InLine commands s) (grounded : s.Grounded)
    (finished : s.finish = .ok q) (flow : Flow) : FirstServed commands q flow := by
  rw [grounded.finish_eq, step_eq_ok] at finished
  obtain ⟨growing, frame, links⟩ := grounded.of_orderBranches (.ends finished)
  obtain ⟨served, lined⟩ := h.lined
  have stations := h.stations
  rw [← frame] at lined stations
  simp only [events_frame] at lined
  exact firstServed growing.sound growing.named (by simpa [Pipeline.frame] using stations)
    (lined.mono fun place => (hasLabel_frame commands q place).1) links flow

end

end Reading

namespace Reader

open Pipeline Reading

variable {r : Reader} {text : String} {name : Option String}

/-- Without adapters the outputs that have no labels are read first come, first served, by the
inputs that have none, and each flow has a line of its own. -/
theorem serves_in_turn (names : r.catalogue.Unindented) {commands : List Command} {q : Pipeline}
    (found : CommandLine.read r.marker text = .ok commands)
    (tasks : ∀ c ∈ commands, c.namesTask = true) (read : r.read text name = .ok q) :
    List.Forall₂ (fun c m => r.catalogue.orBundled.lookup c.name = some m.task) commands q.members ∧
      ∀ flow, FirstServed commands q flow := by
  unfold Reader.read at read
  rw [found] at read
  obtain ⟨s, run, finished⟩ := bind_eq_ok.1 read
  have grounded := grounded_of_passes names (.ends run)
  refine ⟨?_, (inLine_of_commands names.orBundled tasks run).finish grounded finished⟩
  have enrolled := (Enrolled.of_commands (.new name) run).of_frame (frame_finish finished)
  simpa only [List.nil_append, List.filter_eq_self.2 tasks] using enrolled.matched.tasks

def queued : String :=
  "--rx a outPipe.0=A --rx b --rxc c --rx d --wx w --wx x inPipe.0=A --m --wxc z"

theorem queued_serves_in_turn : ∃ commands, CommandLine.read "\\" queued = .ok commands ∧
    (∀ c ∈ commands, c.namesTask = true) ∧
    ∃ q, Reader.read ⟨Catalogue.bundled, "\\", false⟩ queued none = .ok q ∧
      q.links = [⟨"read-xml_1", 0, "write-xml_4", 0⟩, ⟨"read-xml_0", 0, "write-xml_5", 0⟩,
        ⟨"read-xml_3", 0, "merge_6", 0⟩, ⟨"read-xml-change_2", 0, "write-xml-change_7", 0⟩] ∧
      (List.Forall₂ (fun c m => Catalogue.bundled.orBundled.lookup c.name = some m.task)
        commands q.members ∧ ∀ flow, FirstServed commands q flow) := by
  obtain ⟨commands, found, tasks⟩ : ∃ commands, CommandLine.read "\\" queued = .ok commands ∧
      ∀ c ∈ commands, c.namesTask = true := by decide +kernel
  obtain ⟨q, read, links⟩ : ∃ q,
      Reader.read ⟨Catalogue.bundled, "\\", false⟩ queued none = .ok q ∧
      q.links = [⟨"read-xml_1", 0, "write-xml_4", 0⟩, ⟨"read-xml_0", 0, "write-xml_5", 0⟩,
        ⟨"read-xml_3", 0, "merge_6", 0⟩,
        ⟨"read-xml-change_2", 0, "write-xml-change_7", 0⟩] := by decide +kernel
  exact ⟨commands, found, tasks, q, read, links,
    serves_in_turn (r := ⟨Catalogue.bundled, "\\", false⟩) Catalogue.bundled_unindented found tasks
      read⟩

end Reader

end Sluice
