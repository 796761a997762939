import Sluice.Proofs.Writing.Counting
import Sluice.Proofs.Writing.Script

/-! The members of a text in turn. One counter runs through the whole text: the outputs of all
members are numbered as one list, and an input reads the number that its link has at the end,
however many members have been written in the meantime. -/

namespace Sluice

open Pipeline

namespace Block

def inPipes : Block → List (Nat × Nat)
  | .tool _ => []
  | .task _ _ reads _ => reads
  | .tee _ _ source _ => [(0, source)]

def outPipes : Block → List (Nat × Nat)
  | .tool _ => []
  | .task _ _ _ writes => writes
  | .tee _ copies _ first => (List.range copies).map fun i => (i, first + i)

def lead : Block → List String
  | .tool path => [path]
  | .task word values _ _ => ("--" ++ word) :: values
  | .tee word copies _ _ => ["--" ++ word, toString copies]

theorem words_eq (b : Block) :
    b.words = b.lead ++ b.inPipes.map inPipe ++ b.outPipes.map outPipe := by
  cases b with
  | tool path => rfl
  | task word values reads writes => rfl
  | tee word copies source first => simp [words, lead, inPipes, outPipes]

def ins (b : Block) : List Nat :=
  b.inPipes.map Prod.snd

def outs (b : Block) : List Nat :=
  b.outPipes.map Prod.snd

theorem outs_tee (word : String) (copies source first : Nat) :
    (Block.tee word copies source first).outs = List.range' first copies := by
  rw [outs, outPipes, List.map_map, List.range'_eq_map_range]
  rfl

end Block

/-- What is written of a member when its turn comes: the pipes of its task, and the adapters behind
it. -/
structure Turn where
  member : Member
  reads : List (Nat × Nat)
  writes : List (Nat × Nat)
  tees : List Block

namespace Turn

def task (settings : Settings) (layout : Layout) (t : Turn) : Block :=
  .task (Writing.taskWord settings t.member.task)
    (Writing.valueParts settings layout t.member.toJob) t.reads t.writes

def blocks (settings : Settings) (layout : Layout) (t : Turn) : List Block :=
  t.task settings layout :: t.tees

end Turn

namespace Writing

variable {p : Pipeline} {settings : Settings} {layout : Layout} {among : List String}
  {number : Link → Nat} {last : Nat} {order done rest : List Member} {m : Member} {l : Link}
  {t : Turn} {e : Connector × Nat}

def turnOf (p : Pipeline) (among : List String) (number : Link → Nat) (last : Nat) (m : Member) :
    Turn where
  member := m
  reads := (feeds p among m).map fun l => (l.targetSlot, number l)
  writes := (numberedOutputs p among last m).map fun e => (e.1.slot, e.2)
  tees := (numberedOutputs p among last m).filterMap (teeOf (readers p among))

def turnsOf (p : Pipeline) (among : List String) (number : Link → Nat) :
    Nat → List Member → List Turn
  | _, [] => []
  | last, m :: r =>
    turnOf p among number last m ::
      turnsOf p among number (lastOf (readers p among) last m.outputs) r

def numberedAll (p : Pipeline) (among : List String) (last : Nat) (order : List Member) :
    List (Connector × Nat) :=
  numbered (readers p among) last (order.flatMap Member.outputs)

def numberIn (p : Pipeline) (among : List String) (es : List (Connector × Nat)) : Link → Nat :=
  pipeOf p among (es.map (countedFrom (readers p among))).reverse

def numberThrough (p : Pipeline) (among : List String) (order : List Member) : Link → Nat :=
  numberIn p among (numberedAll p among 0 order)

def turnsThrough (p : Pipeline) (among : List String) (order : List Member) : List Turn :=
  turnsOf p among (numberThrough p among order) 0 order

theorem numberedAll_cons (p : Pipeline) (among : List String) (last : Nat) (m : Member)
    (r : List Member) : numberedAll p among last (m :: r) = numberedOutputs p among last m ++
      numberedAll p among (lastOf (readers p among) last m.outputs) r := by
  rw [numberedAll, List.flatMap_cons, numbered_append]
  rfl

theorem numberedAll_append (p : Pipeline) (among : List String) (last : Nat)
    (done rest : List Member) : numberedAll p among last (done ++ rest) =
      numberedAll p among last done ++ numberedAll p among
        (lastOf (readers p among) last (done.flatMap Member.outputs)) rest := by
  rw [numberedAll, List.flatMap_append, numbered_append]
  rfl

theorem blocks_turnOf {w : Writing}
    (agree : ∀ l ∈ feeds p among m, pipeOf p among w.numbers l = number l) :
    taskBlock p settings layout among w m ::
        (numberedOutputs p among w.last m).filterMap (teeOf (readers p among)) =
      (turnOf p among number w.last m).blocks settings layout := by
  have reads : (feeds p among m).map (fun l => (l.targetSlot, pipeOf p among w.numbers l)) =
      (feeds p among m).map fun l => (l.targetSlot, number l) :=
    List.map_congr_left fun l hl => by rw [agree l hl]
  rw [taskBlock, reads]
  rfl

theorem map_member_turnsOf (p : Pipeline) (among : List String) (number : Link → Nat) (last : Nat)
    (order : List Member) : (turnsOf p among number last order).map Turn.member = order := by
  induction order generalizing last with
  | nil => rfl
  | cons m r ih => rw [turnsOf, List.map_cons, ih, turnOf]

theorem eq_turnOf (ht : t ∈ turnsOf p among number last order) :
    ∃ n, t = turnOf p among number n t.member ∧
      numberedOutputs p among n t.member ⊆ numberedAll p among last order := by
  induction order generalizing last with
  | nil => cases ht
  | cons m r ih =>
    rw [numberedAll_cons]
    rcases List.mem_cons.1 ht with rfl | ht
    · exact ⟨last, rfl, List.subset_append_left _ _⟩
    · obtain ⟨n, same, sub⟩ := ih ht
      exact ⟨n, same, List.subset_append_of_subset_right _ sub⟩

theorem turn_of_member (p : Pipeline) (among : List String) (number : Link → Nat) (last : Nat)
    (hm : m ∈ order) :
    ∃ t ∈ turnsOf p among number last order, t.member = m := by
  rw [← map_member_turnsOf p among number last order] at hm
  exact List.mem_map.1 hm

theorem writes_of_numbered (number : Link → Nat) (he : e ∈ numberedAll p among last order) :
    ∃ t ∈ turnsOf p among number last order,
      e.1 ∈ t.member.outputs ∧ (e.1.slot, e.2) ∈ t.writes := by
  induction order generalizing last with
  | nil => cases he
  | cons m r ih =>
    rw [numberedAll_cons, List.mem_append] at he
    rcases he with he | he
    · exact ⟨_, List.mem_cons_self, mem_of_numbered he, List.mem_map.2 ⟨e, he, rfl⟩⟩
    · obtain ⟨t, ht, found⟩ := ih he
      exact ⟨t, List.mem_cons_of_mem _ ht, found⟩

theorem numbered_of_writes (ht : t ∈ turnsOf p among number last order) {c : Connector}
    (hc : c ∈ t.member.outputs) {n : Nat} (written : (c.slot, n) ∈ t.writes) :
    (c, n) ∈ numberedAll p among last order := by
  obtain ⟨k, same, sub⟩ := eq_turnOf ht
  rw [same] at written
  obtain ⟨e, he, heq⟩ := List.mem_map.1 written
  obtain ⟨hslot, rfl⟩ := Prod.mk.inj heq
  obtain rfl : e.1 = c :=
    List.inj_on_of_nodup_map (t.member.slots_nodup .output) (mem_of_numbered he) hc hslot
  exact sub he

theorem flatMap_reads (number : Link → Nat) (last : Nat) (order : List Member) :
    (turnsOf p among number last order).flatMap (fun t => t.reads.map Prod.snd) =
      (order.flatMap (feeds p among)).map number := by
  induction order generalizing last with
  | nil => rfl
  | cons m r ih =>
    rw [turnsOf, List.flatMap_cons, ih, List.flatMap_cons, List.map_append, turnOf, List.map_map]
    rfl

theorem flatMap_writes (number : Link → Nat) (last : Nat) (order : List Member) :
    (turnsOf p among number last order).flatMap (fun t => t.writes.map Prod.snd) =
      (numberedAll p among last order).map Prod.snd := by
  induction order generalizing last with
  | nil => rfl
  | cons m r ih =>
    rw [turnsOf, List.flatMap_cons, ih, numberedAll_cons, List.map_append, turnOf, List.map_map]
    rfl

theorem flatMap_tees (number : Link → Nat) (last : Nat) (order : List Member) :
    (turnsOf p among number last order).flatMap Turn.tees =
      (numberedAll p among last order).filterMap (teeOf (readers p among)) := by
  induction order generalizing last with
  | nil => rfl
  | cons m r ih =>
    rw [turnsOf, List.flatMap_cons, ih, numberedAll_cons, List.filterMap_append, turnOf]

theorem numberIn_eq {es : List (Connector × Nat)} (places : (es.map fun e => e.1.place).Nodup)
    {e : Connector × Nat} (he : e ∈ es) (hl : l.placeOn .output = e.1.place) :
    numberIn p among es l = (countedFrom (readers p among) e).2 +
      (p.linksAmong e.1.place (some among)).idxOf l := by
  have nodup : ((es.map (countedFrom (readers p among))).reverse.map Prod.fst).Nodup := by
    rw [List.map_reverse, List.nodup_reverse, List.map_map]
    exact places
  have hmem : (l.placeOn .output, (countedFrom (readers p among) e).2) ∈
      (es.map (countedFrom (readers p among))).reverse := by
    rw [List.mem_reverse, List.mem_map]
    exact ⟨e, he, by rw [hl]; rfl⟩
  rw [numberIn, pipeOf, Table.lookup_of_mem nodup hmem, hl]
  rfl

theorem foldl_after (p : Pipeline) (settings : Settings) (layout : Layout) (among : List String)
    (w : Writing) (order : List Member) :
    (order.foldl (after p settings layout among) w).numbers =
        ((numberedAll p among w.last order).map (countedFrom (readers p among))).reverse ++
          w.numbers ∧
      (order.foldl (after p settings layout among) w).last =
        lastOf (readers p among) w.last (order.flatMap Member.outputs) := by
  induction order generalizing w with
  | nil => exact ⟨rfl, rfl⟩
  | cons m r ih =>
    obtain ⟨numbers, last⟩ := ih (after p settings layout among w m)
    rw [List.foldl_cons, numbers, last, numberedAll_cons, List.flatMap_cons, lastOf_append]
    exact ⟨by simp [after], rfl⟩

theorem foldl_start (p : Pipeline) (settings : Settings) (layout : Layout) (among : List String)
    (blocks : List Block) (order : List Member) :
    (order.foldl (after p settings layout among) (start blocks)).numbers =
        ((numberedAll p among 0 order).map (countedFrom (readers p among))).reverse ∧
      (order.foldl (after p settings layout among) (start blocks)).last =
        lastOf (readers p among) 0 (order.flatMap Member.outputs) := by
  simpa [start] using foldl_after p settings layout among (start blocks) order

section

variable (hp : p.Sound) (named : p.Named) (inside : ∀ m ∈ order, m ∈ p.members)
  (ids : (order.map Member.id).Nodup)
include hp named inside

theorem exists_output (among : List String) (hl : l ∈ p.links)
    (source : l.source ∈ order.map Member.id) (last : Nat) :
    ∃ e ∈ numberedAll p among last order, l.placeOn .output = e.1.place := by
  obtain ⟨k, hk, hid⟩ := List.mem_map.1 source
  obtain ⟨n, hn, hname, c, hc, hplace⟩ := hp.exists_connector named hl .output
  obtain rfl : n = k := hp.eq_of_id named hn (inside k hk) (hname.trans hid.symm)
  obtain ⟨i, hi⟩ := exists_numbered (readers p among) last
    (List.mem_flatMap.2 ⟨n, hk, hc⟩ : c ∈ order.flatMap Member.outputs)
  exact ⟨(c, i), hi, hplace.symm⟩

omit hp named inside in
include ids in
theorem places_nodup (p : Pipeline) (among : List String) (last : Nat) :
    ((numberedAll p among last order).map fun e => e.1.place).Nodup := by
  have hmap : (numberedAll p among last order).map (fun e => e.1.place) =
      order.flatMap fun m => m.outputs.map Connector.place := by
    rw [← List.map_flatMap, ← map_fst_numbered (readers p among) last (order.flatMap _),
      List.map_map]
    rfl
  rw [hmap]
  refine List.nodup_flatMap.2 ⟨fun m _ => ?_, ?_⟩
  · refine List.Nodup.of_map (fun place => place.2.2) ?_
    rw [List.map_map]
    exact m.slots_nodup .output
  · refine (List.pairwise_map.1 ids).imp fun {a b} hne place ha hb => hne ?_
    obtain ⟨c, hc, rfl⟩ := List.mem_map.1 ha
    obtain ⟨d, hd, same⟩ := List.mem_map.1 hb
    rw [← (Member.mem_connectors hc).1, ← (Member.mem_connectors hd).1]
    exact (congrArg Prod.fst same).symm

omit hp named inside in
include ids in
theorem numberThrough_eq (he : e ∈ numberedAll p among 0 order)
    (hl : l.placeOn .output = e.1.place) :
    numberThrough p among order l = (countedFrom (readers p among) e).2 +
      (p.linksAmong e.1.place (some among)).idxOf l :=
  numberIn_eq (places_nodup ids p among 0) he hl

include ids

theorem blocksAfter_eq (settings : Settings) (layout : Layout) (blocks : List Block)
    (done : List Member) (split : order = done ++ rest)
    (ready : ReadyOrder p among ((done.map Member.id).reverse) rest) :
    blocksAfter p settings layout among
        (done.foldl (after p settings layout among) (start blocks)) rest =
      (turnsOf p among (numberThrough p among order)
        (lastOf (readers p among) 0 (done.flatMap Member.outputs)) rest).flatMap
          (Turn.blocks settings layout) := by
  induction rest generalizing done with
  | nil => rfl
  | cons m r ih =>
    obtain ⟨numbers, last⟩ := foldl_start p settings layout among blocks done
    -- What is numbered later does not change the number of a link that is read now.
    have settled : ∀ l ∈ feeds p among m, pipeOf p among
        (done.foldl (after p settings layout among) (start blocks)).numbers l =
          numberThrough p among order l := by
      intro l hl
      have hlinks := ((mem_feeds hp named (inside m (by simp [split]))).1 hl).1
      have source : l.source ∈ done.map Member.id := by simpa using ready.1 l hl
      obtain ⟨e, he, hplace⟩ := exists_output hp named
        (fun k hk => inside k (by simp [split, hk])) among hlinks source 0
      have whole : numberedAll p among 0 done ⊆ numberedAll p among 0 order := by
        rw [split, numberedAll_append]
        exact List.subset_append_left _ _
      have ids' : (done.map Member.id).Nodup := by
        rw [split, List.map_append] at ids
        exact (List.nodup_append'.1 ids).1
      rw [numbers, numberThrough_eq ids (whole he) hplace]
      exact numberIn_eq (places_nodup ids' p among 0) he hplace
    have later := ih (done ++ [m]) (by simp [split]) (by simpa using ready.2)
    rw [List.foldl_append, List.foldl_cons, List.foldl_nil, List.flatMap_append,
      List.flatMap_singleton, lastOf_append] at later
    rw [blocksAfter, later, blocks_turnOf settled, last, turnsOf, List.flatMap_cons]

end

end Writing

end Sluice
