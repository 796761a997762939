import Mathlib.Data.List.Flatten
import Sluice.Proofs.RoundTrip
import Sluice.Proofs.Writing.Turns

/-! How the pipes of a written text are numbered. Every number up to the last is given out once. An
output that one input reads hands it its own number; one that several inputs read is copied by one
adapter, which hands each of them a number of its own, in the order of the readers. Nothing is read
twice, nor before it is written. -/

namespace Sluice

open Pipeline Writing Reading
open scoped List

variable {p : Pipeline} {settings : Settings} {layout : Layout} {among : List String}
  {chosen order rest done : List Member} {turns : List Turn} {t : Turn} {m : Member}
  {c d : Connector} {e : Connector × Nat} {l : Link} {n last : Nat}

def Block.copies (n : Nat) : Block → Bool
  | .tee _ _ source _ => source == n
  | _ => false

namespace Writing

def lines (settings : Settings) (layout : Layout) (turns : List Turn) : List Block :=
  turns.flatMap (Turn.blocks settings layout)

def ReadsAt (turns : List Turn) (d : Connector) (n : Nat) : Prop :=
  ∃ t ∈ turns, t.member.id = d.stage ∧ (d.slot, n) ∈ t.reads

/-- How the number of an output comes to its readers: to one of them as it is, to several by one
adapter of the flow, the branches of which they read one by one. -/
inductive Delivered (turns : List Turn) (lines : List Block) (t : Turn) (c : Connector) (n : Nat) :
    List Connector → Prop
  | unread : Delivered turns lines t c n []
  | single {d : Connector} : ReadsAt turns d n → Delivered turns lines t c n [d]
  | copied {ps : List Connector} {word : String} {first : Nat} : 1 < ps.length →
    c.flow.tee? = some word → lines.filter (Block.copies n) = [.tee word ps.length n first] →
    .tee word ps.length n first ∈ t.tees →
    (∀ (i : Nat) d, ps[i]? = some d → ReadsAt turns d (first + i)) →
    Delivered turns lines t c n ps

/-- The numbers of the pipes are in order. -/
structure Disciplined (p : Pipeline) (among : List String) (turns : List Turn)
    (lines : List Block) : Prop where
  outs : lines.flatMap Block.outs ~ List.range' 1
    ((turns.flatMap fun t => t.member.outputs).length +
      (((turns.flatMap fun t => t.member.outputs).map (readers p among)).filter (1 < ·)).sum)
  ins : (lines.flatMap Block.ins).Nodup
  earlier : ∀ before b after, lines = before ++ b :: after →
    ∀ n ∈ b.ins, ∃ a ∈ before, n ∈ a.outs
  slots : ∀ t ∈ turns, t.writes.map Prod.fst = t.member.outputs.map Connector.slot
  unread : ∀ n ∈ lines.flatMap Block.outs, n ∉ lines.flatMap Block.ins ↔
    ∃ t ∈ turns, ∃ c ∈ t.member.outputs, (c.slot, n) ∈ t.writes ∧
      p.peers c (some among) = .ok []
  delivered : ∀ t ∈ turns, ∀ c ∈ t.member.outputs, ∃ n ps, (c.slot, n) ∈ t.writes ∧
    p.peers c (some among) = .ok ps ∧ Delivered turns lines t c n ps

section

variable {readers : Connector → Nat}

def taken (readers : Connector → Nat) (e : Connector × Nat) : List Nat :=
  if readers e.1 = 0 then [] else used readers e

theorem teeOf_cases (fans : readers e.1 ≤ 1 ∨ e.1.flow.tee?.isSome) :
    readers e.1 ≤ 1 ∧ teeOf readers e = none ∨ 1 < readers e.1 ∧ ∃ word,
      e.1.flow.tee? = some word ∧
        teeOf readers e = some (.tee word (readers e.1) e.2 (e.2 + 1)) := by
  by_cases few : readers e.1 ≤ 1
  · exact .inl ⟨few, if_pos few⟩
  · obtain ⟨word, hword⟩ := Option.isSome_iff_exists.1 (fans.resolve_left few)
    exact .inr ⟨Nat.not_le.1 few, word, hword, by rw [teeOf, if_neg few, hword]; rfl⟩

theorem used_eq (fans : readers e.1 ≤ 1 ∨ e.1.flow.tee?.isSome) :
    e.2 :: (teeOf readers e).toList.flatMap Block.outs = used readers e := by
  rcases teeOf_cases fans with ⟨few, none⟩ | ⟨many, word, _, tee⟩
  · rw [none, used, span, if_pos few]
    rfl
  · rw [tee, used, span, if_neg (Nat.not_le.2 many), Option.toList_some, List.flatMap_singleton,
      Block.outs_tee, List.range'_succ]

theorem taken_perm (fans : readers e.1 ≤ 1 ∨ e.1.flow.tee?.isSome) :
    List.range' (countedFrom readers e).2 (readers e.1) ++
      (teeOf readers e).toList.flatMap Block.ins ~ taken readers e := by
  rcases teeOf_cases fans with ⟨few, none⟩ | ⟨many, word, _, tee⟩
  · rw [none, countedFrom, if_pos few, taken, used, span, if_pos few]
    rcases Nat.le_one_iff_eq_zero_or_eq_one.1 few with zero | one
    · rw [if_pos zero, zero]
      rfl
    · rw [if_neg (by omega), one]
      rfl
  · rw [tee, countedFrom, if_neg (Nat.not_le.2 many), taken, if_neg (by omega), used, span,
      if_neg (Nat.not_le.2 many), List.range'_succ]
    exact List.perm_append_singleton _ _

end

theorem flatMap_lines (f : Block → List Nat) (turns : List Turn) :
    (lines settings layout turns).flatMap f ~
      turns.flatMap (fun t => f (t.task settings layout)) ++
        (turns.flatMap Turn.tees).flatMap f := by
  rw [lines, List.flatMap_assoc, List.flatMap_assoc]
  exact (List.flatMap_append_perm _ _ _).symm

theorem mem_numberedAll (he : e ∈ numberedAll p among last order) :
    ∃ m ∈ order, e.1 ∈ m.outputs :=
  List.mem_flatMap.1 (mem_of_numbered he)

theorem mem_linksAmong_output (hp : p.Sound) (he : e ∈ numberedAll p among last order) :
    l ∈ p.linksAmong e.1.place (some among) ↔
      l ∈ p.links ∧ l.placeOn .output = e.1.place ∧ l.target ∈ among := by
  obtain ⟨m, _, hc⟩ := mem_numberedAll he
  have hplace : e.1.place = (e.1.stage, .output, e.1.slot) := by
    rw [Connector.place, (Member.mem_connectors hc).2.1]
  rw [hp.mem_linksAmong, hplace, within_some, and_assoc]
  rfl

theorem map_numberThrough (hp : p.Sound) (ids : (order.map Member.id).Nodup)
    (he : e ∈ numberedAll p among 0 order) :
    (p.linksAmong e.1.place (some among)).map (numberThrough p among order) =
      List.range' (countedFrom (readers p among) e).2 (readers p among e.1) := by
  refine List.ext_getElem (by simp [readers]) fun i hi _ => ?_
  rw [List.length_map] at hi
  have hplace := ((mem_linksAmong_output hp he).1 (List.getElem_mem hi)).2.1
  rw [List.getElem_map, numberThrough_eq ids he hplace, List.getElem_range',
    (hp.linksAmong_nodup e.1.place _).idxOf_getElem, Nat.one_mul]

section

variable (hp : p.Sound) (named : p.Named) (inside : ∀ m ∈ order, m ∈ p.members)
include hp named inside

theorem fans_of_numberedAll (he : e ∈ numberedAll p among last order) :
    readers p among e.1 ≤ 1 ∨ e.1.flow.tee?.isSome := by
  obtain ⟨m, hm, hc⟩ := mem_numberedAll he
  exact fans_of_sound hp named (inside m hm) hc

theorem outs_perm : (lines settings layout (turnsThrough p among order)).flatMap Block.outs ~
    (numberedAll p among 0 order).flatMap (used (readers p among)) := by
  refine (flatMap_lines _ _).trans ?_
  rw [turnsThrough, flatMap_tees, List.filterMap_eq_flatMap_toList, List.flatMap_assoc]
  change (turnsOf p among _ 0 order).flatMap (fun t => t.writes.map Prod.snd) ++ _ ~ _
  rw [flatMap_writes]
  refine (List.map_append_flatMap_perm _ _ _).trans (List.Perm.flatMap_left _ fun e he => ?_)
  rw [used_eq (fans_of_numberedAll hp named inside he)]

variable (ids : (order.map Member.id).Nodup)
  (all : ∀ id, id ∈ among ↔ id ∈ order.map Member.id)
include ids all

theorem feeds_perm : order.flatMap (feeds p among) ~
    (numberedAll p among 0 order).flatMap fun e => p.linksAmong e.1.place (some among) := by
  have nodup : ((numberedAll p among 0 order).flatMap fun e =>
      p.linksAmong e.1.place (some among)).Nodup := by
    refine List.nodup_flatMap.2 ⟨fun e _ => hp.linksAmong_nodup _ _, ?_⟩
    refine (List.pairwise_map.1 (places_nodup ids p among 0)).imp_of_mem
      fun {e d} he hd hne l hl hl' => hne ?_
    have hle := ((mem_linksAmong_output hp he).1 hl).2.1
    exact hle.symm.trans ((mem_linksAmong_output hp hd).1 hl').2.1
  refine (List.perm_ext_iff_of_nodup (flatMap_feeds_nodup hp named inside ids) nodup).2 fun l => ?_
  rw [mem_flatMap_feeds hp named inside all, mem_induced, List.mem_flatMap]
  constructor
  · rintro ⟨hl, source, target⟩
    obtain ⟨e, he, hplace⟩ := exists_output hp named inside among hl ((all _).1 source) 0
    exact ⟨e, he, (mem_linksAmong_output hp he).2 ⟨hl, hplace, target⟩⟩
  · rintro ⟨e, he, hle⟩
    obtain ⟨hl, hplace, target⟩ := (mem_linksAmong_output hp he).1 hle
    obtain ⟨m, hm, hc⟩ := mem_numberedAll he
    have source : l.source = m.id :=
      (congrArg Prod.fst hplace).trans (Member.mem_connectors hc).1
    exact ⟨hl, source ▸ (all _).2 (List.mem_map_of_mem hm), target⟩

theorem ins_perm : (lines settings layout (turnsThrough p among order)).flatMap Block.ins ~
    (numberedAll p among 0 order).flatMap (taken (readers p among)) := by
  refine (flatMap_lines _ _).trans ?_
  rw [turnsThrough, flatMap_tees, List.filterMap_eq_flatMap_toList, List.flatMap_assoc]
  change (turnsOf p among _ 0 order).flatMap (fun t => t.reads.map Prod.snd) ++ _ ~ _
  rw [flatMap_reads]
  refine (((feeds_perm hp named inside ids all).map _).append_right _).trans ?_
  rw [List.map_flatMap]
  refine (List.flatMap_append_perm _ _ _).trans (List.Perm.flatMap_left _ fun e he => ?_)
  rw [map_numberThrough hp ids he]
  exact taken_perm (fans_of_numberedAll hp named inside he)

omit named inside all in
theorem number_mem_used (he : e ∈ numberedAll p among 0 order)
    (hl : l ∈ p.linksAmong e.1.place (some among)) :
    numberThrough p among order l ∈ used (readers p among) e := by
  have counted := List.mem_map_of_mem (f := numberThrough p among order) hl
  rw [map_numberThrough hp ids he, List.mem_range'_1, countedFrom] at counted
  rw [mem_used, span]
  by_cases few : readers p among e.1 ≤ 1
  · rw [if_pos few] at counted ⊢
    omega
  · rw [if_neg few] at counted ⊢
    omega

end

def Backed : List Nat → List Block → Prop
  | _, [] => True
  | given, b :: r => b.ins ⊆ given ∧ Backed (given ++ b.outs) r

namespace Backed

variable {given : List Nat} {xs ys before after : List Block} {b : Block}

theorem append (h : Backed given xs) (h' : Backed (given ++ xs.flatMap Block.outs) ys) :
    Backed given (xs ++ ys) := by
  induction xs generalizing given with
  | nil => simpa using h'
  | cons b r ih => exact ⟨h.1, ih h.2 (by simpa using h')⟩

theorem of_all (h : ∀ b ∈ xs, b.ins ⊆ given) : Backed given xs := by
  induction xs generalizing given with
  | nil => trivial
  | cons b r ih =>
    obtain ⟨hb, hr⟩ := List.forall_mem_cons.1 h
    exact ⟨hb, ih fun a ha => List.subset_append_of_subset_left _ (hr a ha)⟩

theorem ins_subset (h : Backed given (before ++ b :: after)) :
    b.ins ⊆ given ++ before.flatMap Block.outs := by
  induction before generalizing given with
  | nil => simpa using h.1
  | cons a r ih => simpa using ih h.2

end Backed

theorem used_subset_outs {number : Link → Nat}
    (fans : ∀ e ∈ numberedOutputs p among last m,
      readers p among e.1 ≤ 1 ∨ e.1.flow.tee?.isSome)
    (he : e ∈ numberedOutputs p among last m) : used (readers p among) e ⊆
      ((turnOf p among number last m).blocks settings layout).flatMap Block.outs := by
  rw [← used_eq (fans e he), Turn.blocks, List.flatMap_cons]
  refine List.cons_subset.2 ⟨List.mem_append_left _ ?_, List.subset_append_of_subset_right _ ?_⟩
  · exact List.mem_map.2 ⟨(e.1.slot, e.2), List.mem_map.2 ⟨e, he, rfl⟩, rfl⟩
  · rw [turnOf, List.filterMap_eq_flatMap_toList, List.flatMap_assoc]
    exact fun n hn => List.mem_flatMap.2 ⟨e, he, hn⟩

section

variable (hp : p.Sound) (named : p.Named) (inside : ∀ m ∈ order, m ∈ p.members)
  (ids : (order.map Member.id).Nodup)
include hp named inside ids

theorem backed_of_ready (settings : Settings) (layout : Layout) (done : List Member)
    (given : List Nat) (split : order = done ++ rest)
    (ready : ReadyOrder p among ((done.map Member.id).reverse) rest)
    (counts : ∀ m ∈ order, m.id ∈ among)
    (old : ∀ e ∈ numberedAll p among 0 done, used (readers p among) e ⊆ given) :
    Backed given (lines settings layout
      (turnsOf p among (numberThrough p among order)
        (lastOf (readers p among) 0 (done.flatMap Member.outputs)) rest)) := by
  induction rest generalizing done given with
  | nil => trivial
  | cons m r ih =>
    have hm : m ∈ order := by simp [split]
    rw [turnsOf, lines, List.flatMap_cons]
    refine Backed.append ⟨fun n hn => ?_, Backed.of_all fun b hb => ?_⟩ ?_
    · simp only [Block.ins, Turn.task, Block.inPipes, turnOf, List.map_map, List.mem_map] at hn
      obtain ⟨l, hl, rfl⟩ := hn
      obtain ⟨hlinks, htarget, _⟩ := (mem_feeds hp named (inside m hm)).1 hl
      have source : l.source ∈ done.map Member.id := by simpa using ready.1 l hl
      obtain ⟨e, he, hplace⟩ := exists_output hp named
        (fun k hk => inside k (by simp [split, hk])) among hlinks source 0
      have whole : e ∈ numberedAll p among 0 order := by
        rw [split, numberedAll_append]
        exact List.mem_append_left _ he
      exact old e he (number_mem_used hp ids whole
        ((mem_linksAmong_output hp whole).2 ⟨hlinks, hplace, htarget ▸ counts m hm⟩))
    · obtain ⟨e, he, word, _, rfl⟩ := exists_tee hb
      refine List.cons_subset.2 ⟨List.mem_append_right _ ?_, List.nil_subset _⟩
      exact List.mem_map.2 ⟨(e.1.slot, e.2), List.mem_map.2 ⟨e, he, rfl⟩, rfl⟩
    · have later := ih (done ++ [m])
        (given ++ ((turnOf p among (numberThrough p among order)
          (lastOf (readers p among) 0 (done.flatMap Member.outputs)) m).blocks settings
            layout).flatMap Block.outs) (by simp [split]) (by simpa using ready.2) ?_
      · rwa [List.flatMap_append, List.flatMap_singleton, lastOf_append] at later
      · intro e he
        rw [numberedAll_append, List.mem_append] at he
        rcases he with he | he
        · exact List.subset_append_of_subset_left _ (old e he)
        · rw [numberedAll_cons, numberedAll, List.flatMap_nil, numbered, List.append_nil] at he
          refine List.subset_append_of_subset_right _ (used_subset_outs (fun d hd => ?_) he)
          exact fans_of_sound hp named (inside m hm) (mem_of_numbered hd)

end

theorem mem_ins_of_copies {b : Block} (h : b.copies n = true) : n ∈ b.ins := by
  cases b with
  | tee word copies source first =>
    obtain rfl : source = n := by simpa [Block.copies] using h
    exact List.mem_singleton_self _
  | _ => cases h

theorem filter_copies {bs : List Block} {b : Block} (nodup : (bs.flatMap Block.ins).Nodup)
    (hb : b ∈ bs) (copies : b.copies n = true) : bs.filter (Block.copies n) = [b] := by
  obtain ⟨before, after, rfl⟩ := List.append_of_mem hb
  have hn := mem_ins_of_copies copies
  rw [List.flatMap_append, List.flatMap_cons, List.nodup_append', List.nodup_append'] at nodup
  obtain ⟨_, ⟨_, _, right⟩, left⟩ := nodup
  rw [List.filter_append, List.filter_cons_of_pos copies]
  have none_before : before.filter (Block.copies n) = [] := by
    refine List.filter_eq_nil_iff.2 fun a ha h => ?_
    exact left (List.mem_flatMap.2 ⟨a, ha, mem_ins_of_copies h⟩) (List.mem_append_left _ hn)
  have none_after : after.filter (Block.copies n) = [] := by
    refine List.filter_eq_nil_iff.2 fun a ha h => ?_
    exact right hn (List.mem_flatMap.2 ⟨a, ha, mem_ins_of_copies h⟩)
  rw [none_before, none_after, List.nil_append]

section

variable (hp : p.Sound) (named : p.Named) (inside : ∀ m ∈ order, m ∈ p.members)
  (ids : (order.map Member.id).Nodup)
  (all : ∀ id, id ∈ among ↔ id ∈ order.map Member.id)
include hp named inside ids all

theorem peers_of_output (he : e ∈ numberedAll p among 0 order) :
    ∃ ps, p.peers e.1 (some among) = .ok ps ∧ ps.length = readers p among e.1 ∧
      ∀ (i : Nat) d, ps[i]? = some d →
        ReadsAt (turnsThrough p among order) d ((countedFrom (readers p among) e).2 + i) := by
  obtain ⟨ps, hps, places⟩ := hp.peers_eq named e.1 (some among)
  have length := length_peers_among hp named hps
  refine ⟨ps, hps, length, fun i d hd => ?_⟩
  obtain ⟨k, hk, hc⟩ := mem_numberedAll he
  have hd' := congrArg (fun ls => ls[i]?) places
  simp only [List.getElem?_map, hd, Option.map_some, (Member.mem_connectors hc).2.1] at hd'
  obtain ⟨l, hl, hplace⟩ := Option.map_eq_some_iff.1 hd'.symm
  obtain ⟨hlinks, hsource, target⟩ := (mem_linksAmong_output hp he).1 (List.mem_of_getElem? hl)
  have counted : numberThrough p among order l =
      (countedFrom (readers p among) e).2 + i := by
    have := congrArg (fun ls => ls[i]?) (map_numberThrough hp ids he)
    have lt : i < readers p among e.1 := (List.getElem?_eq_some_iff.1 hl).1
    simpa [hl, lt] using this
  obtain ⟨m, hm, hid⟩ := List.mem_map.1 ((all _).1 target)
  obtain ⟨t, ht, rfl⟩ := turn_of_member p among (numberThrough p among order) 0 hm
  refine ⟨t, ht, hid.trans (congrArg Prod.fst hplace), ?_⟩
  obtain ⟨n, same, _⟩ := eq_turnOf ht
  have source : l.source = k.id := (congrArg Prod.fst hsource).trans (Member.mem_connectors hc).1
  have hfeeds : l ∈ feeds p among t.member :=
    (mem_feeds hp named (inside _ hm)).2
      ⟨hlinks, hid.symm, source ▸ (all _).2 (List.mem_map_of_mem hk)⟩
  rw [same, turnOf, ← counted]
  have hslot : d.slot = l.targetSlot := (congrArg (fun place => place.2.2) hplace).symm
  rw [hslot]
  exact List.mem_map_of_mem hfeeds

omit hp named inside ids all in
theorem delivered_of_output {turns : List Turn} {bs : List Block} {ps : List Connector}
    (fans : readers p among e.1 ≤ 1 ∨ e.1.flow.tee?.isSome)
    (nodup : (bs.flatMap Block.ins).Nodup) (sub : t.tees ⊆ bs)
    (tees : ∀ b, teeOf (readers p among) e = some b → b ∈ t.tees)
    (length : ps.length = readers p among e.1)
    (read : ∀ (i : Nat) d, ps[i]? = some d →
      ReadsAt turns d ((countedFrom (readers p among) e).2 + i)) :
    Delivered turns bs t e.1 e.2 ps := by
  rcases teeOf_cases fans with ⟨few, _⟩ | ⟨many, word, hword, tee⟩
  · rw [countedFrom, if_pos few] at read
    rw [← length] at few
    rcases ps with - | ⟨d, - | ⟨f, r⟩⟩
    · exact .unread
    · exact .single (read 0 d rfl)
    · simp at few
  · rw [countedFrom, if_neg (Nat.not_le.2 many)] at read
    have mem := tees _ tee
    rw [← length] at many mem
    exact .copied many hword (filter_copies nodup (sub mem) (by simp [Block.copies])) mem read

theorem ins_nodup (settings : Settings) (layout : Layout) :
    ((lines settings layout (turnsThrough p among order)).flatMap Block.ins).Nodup := by
  refine (ins_perm hp named inside ids all).nodup_iff.2 (List.Sublist.nodup ?_
    (flatMap_used (readers p among) 0 (order.flatMap Member.outputs) ▸
      List.nodup_range' 1))
  refine List.Sublist.flatMap_right _ fun e _ => ?_
  unfold taken
  split
  · exact List.nil_sublist _
  · exact List.Sublist.refl _

theorem unread_iff
    (given : n ∈ (lines settings layout (turnsThrough p among order)).flatMap Block.outs) :
    n ∉ (lines settings layout (turnsThrough p among order)).flatMap Block.ins ↔
      ∃ t ∈ turnsThrough p among order, ∃ c ∈ t.member.outputs, (c.slot, n) ∈ t.writes ∧
        p.peers c (some among) = .ok [] := by
  rw [(outs_perm hp named inside).mem_iff, List.mem_flatMap] at given
  rw [(ins_perm hp named inside ids all).mem_iff, List.mem_flatMap]
  obtain ⟨e, he, hn⟩ := given
  constructor
  · intro unread
    have zero : readers p among e.1 = 0 := by
      by_contra hread
      exact unread ⟨e, he, by rwa [taken, if_neg hread]⟩
    obtain ⟨ps, hps, length, _⟩ := peers_of_output hp named inside ids all he
    obtain rfl := List.eq_nil_of_length_eq_zero (length.trans zero)
    obtain rfl : e.2 = n := by
      rw [mem_used, zero] at hn
      simp only [span, Nat.zero_le, if_true] at hn
      omega
    obtain ⟨t, ht, hc, written⟩ := writes_of_numbered _ he
    exact ⟨t, ht, e.1, hc, written, hps⟩
  · rintro ⟨t, ht, c, hc, written, hpeers⟩ ⟨d, hd, htaken⟩
    have hcn := numbered_of_writes ht hc written
    have zero : readers p among c = 0 := (length_peers_among hp named hpeers).symm
    unfold taken at htaken
    split at htaken
    · cases htaken
    · rename_i hread
      have own : n ∈ used (readers p among) (c, n) := by
        rw [mem_used]
        exact ⟨Nat.le_refl _, Nat.lt_add_of_pos_right (span_pos _)⟩
      obtain rfl := eq_of_used hcn hd own htaken
      exact hread zero

end

end Writing

namespace Pipeline

theorem Sound.disciplined_through (hp : p.Sound) (named : p.Named)
    (inside : ∀ m ∈ order, m ∈ p.members) (ids : (order.map Member.id).Nodup)
    (all : ∀ id, id ∈ among ↔ id ∈ order.map Member.id) (ready : ReadyOrder p among [] order) :
    Disciplined p among (turnsThrough p among order)
      (lines settings layout (turnsThrough p among order)) := by
  have nodup := ins_nodup hp named inside ids all settings layout
  refine ⟨?_, nodup, fun before b after split n hn => ?_, fun t ht => ?_, fun n hn => ?_,
    fun t ht c hc => ?_⟩
  · rw [← List.flatMap_map Turn.member, turnsThrough, map_member_turnsOf, ← sum_span,
      ← flatMap_used]
    exact outs_perm hp named inside
  · have backed : Backed [] (lines settings layout (turnsThrough p among order)) :=
      backed_of_ready hp named inside ids settings layout [] [] rfl ready
        (fun m hm => (all _).2 (List.mem_map_of_mem hm)) (by simp [numberedAll, numbered])
    rw [split] at backed
    simpa using backed.ins_subset hn
  · obtain ⟨k, same, _⟩ := eq_turnOf ht
    rw [same, turnOf, List.map_map, ← map_fst_numbered (readers p among) k t.member.outputs,
      List.map_map]
    rfl
  · exact unread_iff hp named inside ids all hn
  · obtain ⟨k, same, sub⟩ := eq_turnOf ht
    obtain ⟨n, hn⟩ := exists_numbered (readers p among) k hc
    obtain ⟨ps, hps, length, read⟩ := peers_of_output hp named inside ids all (sub hn)
    refine ⟨n, ps, ?_, hps, ?_⟩
    · rw [same]
      exact List.mem_map.2 ⟨(c, n), hn, rfl⟩
    · refine delivered_of_output (e := (c, n)) (fans_of_numberedAll hp named inside (sub hn)) nodup
        (fun b hb => List.mem_flatMap.2 ⟨t, ht, List.mem_cons_of_mem _ hb⟩) (fun b hb => ?_) length
        read
      rw [same]
      exact List.mem_filterMap.2 ⟨(c, n), hn, hb⟩

/-- Whichever members of a built pipeline are written, if there is no cycle among them: the text is
that of their turns, each line of it ends with its pipes, and these are numbered in order. -/
theorem Built.disciplined (b : Built Edit.Regular p)
    (names : ∀ m ∈ p.members, Text.startsBlank m.task.name = false)
    (inside : ∀ m ∈ chosen, m ∈ p.members) (nodup : chosen.Nodup)
    (acyclic : Acyclic (induced p (chosen.map Member.id)))
    (spoken : ∀ m ∈ chosen, m.task.Spoken settings) (layout : Layout) :
    ∃ turns : List Turn, turns.map Turn.member ~ chosen ∧
      p.write settings layout (some (chosen.map Member.toStage)) =
        .ok (layout.separator.intercalate
          ((toolBlocks settings layout ++ lines settings layout turns).map fun b =>
            " ".intercalate
              (b.lead ++ b.inPipes.map Block.inPipe ++ b.outPipes.map Block.outPipe))) ∧
      Disciplined p (chosen.map Member.id) turns (lines settings layout turns) := by
  have hp := b.sound
  have named := hp.named names
  obtain ⟨order, perm, ready, write⟩ := exists_through hp named layout inside spoken acyclic
  have inside : ∀ m ∈ order, m ∈ p.members := fun m hm => inside m (perm.mem_iff.1 hm)
  have ids := ids_nodup hp named inside (perm.nodup_iff.2 nodup)
  have blocks := blocksAfter_eq hp named inside ids settings layout
    (toolBlocks settings layout) [] rfl ready
  refine ⟨turnsThrough p _ order, (map_member_turnsOf p _ _ 0 order).symm ▸ perm, ?_,
    hp.disciplined_through named inside ids (fun id => (perm.map _).mem_iff.symm) ready⟩
  simp only [← Block.words_eq]
  rw [write, text, through, blocks_foldl]
  exact congrArg (fun bs => Except.ok (layout.separator.intercalate
    ((toolBlocks settings layout ++ bs).map Block.render))) blocks

theorem fork_disciplined : ∃ turns : List Turn, turns.map Turn.member ~ fork.members ∧
    fork.write Settings.default (Layout.ofDialect Dialect.bash true)
        (some (fork.members.map Member.toStage)) =
      .ok ((Layout.ofDialect Dialect.bash true).separator.intercalate
        ((toolBlocks Settings.default (Layout.ofDialect Dialect.bash true) ++
          lines Settings.default (Layout.ofDialect Dialect.bash true) turns).map fun b =>
            " ".intercalate
              (b.lead ++ b.inPipes.map Block.inPipe ++ b.outPipes.map Block.outPipe))) ∧
    Disciplined fork (fork.members.map Member.id) turns
      (lines Settings.default (Layout.ofDialect Dialect.bash true) turns) :=
  fork_built.regular.disciplined (by decide +kernel) (fun _ hm => hm)
    (List.Nodup.of_map Member.id (by decide +kernel))
    (fork_acyclic.mono fun _ hl => (List.mem_filter.1 hl).1)
    (fun _ _ => Task.spoken_of_long rfl) _

end Pipeline

end Sluice
