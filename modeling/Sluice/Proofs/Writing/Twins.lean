import Sluice.Proofs.Pipeline.Renaming
import Sluice.Proofs.Writing.Counting

/-! Pipelines that differ in names. The writer looks at names only to tell members apart, so what it
makes of the members of one pipeline it makes of those of the other. -/

namespace Sluice

open Pipeline

def Writing.rename (f : String → String) (w : Writing) : Writing :=
  { w with
    written := w.written.map f
    numbers := w.numbers.map fun e => ((f e.1.1, e.1.2), e.2) }

structure Writing.Within (among : List String) (w : Writing) : Prop where
  written : ∀ id ∈ w.written, id ∈ among
  numbers : ∀ e ∈ w.numbers, e.1.1 ∈ among

structure Pipeline.Corresponds (p q : Pipeline) (among other : List String)
    (f : String → String) : Prop where
  inj : ∀ a ∈ among, ∀ b ∈ among, f a = f b → a = b
  links : ∀ m ∈ p.members, m.id ∈ among → ∀ side, ∀ c ∈ m.connectors side,
    q.linksAmong (c.rename f).place (some other) =
      (p.linksAmong c.place (some among)).map (Link.rename f)

structure Member.Twin (settings : Settings) (layout : Layout) (f : String → String)
    (m n : Member) : Prop where
  id : n.id = f m.id
  task : n.task = m.task
  values : Writing.valueParts settings layout n.toJob = Writing.valueParts settings layout m.toJob

namespace Writing

variable {p q : Pipeline} {among other : List String} {f : String → String} {settings : Settings}
  {layout : Layout} {m n : Member} {w : Writing}

theorem connectors_of_twin (twin : Member.Twin settings layout f m n) (side : Side) :
    n.connectors side = (m.connectors side).map (Connector.rename f) := by
  have hslots : n.slots side = m.slots side := by
    cases side <;> simp only [Job.slots, twin.task]
  rw [Member.connectors, Member.connectors, Connector.rename_ofSlots, twin.id, hslots]

theorem ids_of_twins {ms ns : List Member}
    (pairs : List.Forall₂ (Member.Twin settings layout f) ms ns) :
    ns.map Member.id = (ms.map Member.id).map f := by
  induction pairs with
  | nil => rfl
  | cons twin _ ih => rw [List.map_cons, List.map_cons, List.map_cons, twin.id, ih]

theorem numbered_rename {first second : Connector → Nat} {cs : List Connector}
    (same : ∀ c ∈ cs, second (c.rename f) = first c) (last : Nat) :
    numbered second last (cs.map (Connector.rename f)) =
      (numbered first last cs).map fun e => (e.1.rename f, e.2) := by
  induction cs generalizing last with
  | nil => rfl
  | cons c r ih =>
    rw [List.map_cons, numbered, numbered, List.map_cons, same c (by simp),
      ih fun d hd => same d (by simp [hd])]

theorem lastOf_rename {first second : Connector → Nat} {cs : List Connector}
    (same : ∀ c ∈ cs, second (c.rename f) = first c) (last : Nat) :
    lastOf second last (cs.map (Connector.rename f)) = lastOf first last cs := by
  induction cs generalizing last with
  | nil => rfl
  | cons c r ih =>
    rw [List.map_cons, lastOf_cons, lastOf_cons, same c (by simp),
      ih fun d hd => same d (by simp [hd])]

theorem lookup_rename {numbers : List ((String × Side × Nat) × Nat)} {key : String}
    (inj : ∀ e ∈ numbers, f key = f e.1.1 → key = e.1.1) (port : Side × Nat) :
    (numbers.map fun e => ((f e.1.1, e.1.2), e.2)).lookup (f key, port) =
      numbers.lookup (key, port) := by
  induction numbers with
  | nil => rfl
  | cons e r ih =>
    obtain ⟨⟨stage, rest⟩, number⟩ := e
    have hkey : ((f key, port) == (f stage, rest)) = ((key, port) == (stage, rest)) := by
      rw [Bool.eq_iff_iff]
      simp only [beq_iff_eq, Prod.mk.injEq]
      exact and_congr_left fun _ => ⟨inj _ List.mem_cons_self, congrArg f⟩
    rw [List.map_cons, List.lookup_cons, List.lookup_cons, hkey,
      ih fun e he => inj e (by simp [he])]

theorem idxOf_rename {links : List Link} {l : Link}
    (inj : ∀ k ∈ links, k.rename f = l.rename f → k = l) :
    (links.map (Link.rename f)).idxOf (l.rename f) = links.idxOf l := by
  induction links with
  | nil => rfl
  | cons k r ih =>
    have hk : (k.rename f == l.rename f) = (k == l) := by
      rw [Bool.eq_iff_iff, beq_iff_eq, beq_iff_eq]
      exact ⟨inj k (by simp), fun h => by rw [h]⟩
    rw [List.map_cons, List.idxOf_cons, List.idxOf_cons, hk, ih fun j hj => inj j (by simp [hj])]

section

variable (same : p.Corresponds q among other f)
include same

theorem readers_rename (hm : m ∈ p.members) (counts : m.id ∈ among) {c : Connector}
    (hc : c ∈ m.outputs) : readers q other (c.rename f) = readers p among c := by
  rw [readers, readers, same.links m hm counts .output c hc, List.length_map]

theorem feeds_rename (hm : m ∈ p.members) (counts : m.id ∈ among)
    (twin : Member.Twin settings layout f m n) :
    feeds q other n = (feeds p among m).map (Link.rename f) := by
  rw [feeds, feeds, Member.inputs, connectors_of_twin twin, List.flatMap_map, List.map_flatMap]
  exact List.flatMap_congr fun c hc => same.links m hm counts .input c hc

theorem lookup_numbers_rename (hw : w.Within among) {l : Link} (counts : l.source ∈ among) :
    (w.rename f).numbers.lookup ((l.rename f).placeOn .output) =
      w.numbers.lookup (l.placeOn .output) :=
  lookup_rename (fun e he heq => same.inj _ counts _ (hw.numbers e he) heq) (.output, l.sourceSlot)

theorem pipeOf_rename (h : p.Sound) (named : p.Named) (hw : w.Within among) (hm : m ∈ p.members)
    (counts : m.id ∈ among) {l : Link} (hl : l ∈ feeds p among m) :
    pipeOf q other (w.rename f).numbers (l.rename f) = pipeOf p among w.numbers l := by
  obtain ⟨hlinks, htarget, hsource⟩ := (mem_feeds h named hm).1 hl
  obtain ⟨k, hk, hid, c, hc, hplace⟩ := h.exists_connector named hlinks .output
  have hrename : (c.rename f).place = (l.rename f).placeOn .output :=
    congrArg (fun place => (f place.1, place.2)) hplace
  have hlist := same.links k hk (hid ▸ hsource) .output c hc
  rw [hrename, hplace] at hlist
  rw [pipeOf, pipeOf, hlist, lookup_numbers_rename same hw hsource, idxOf_rename fun k hk heq => ?_]
  have htarget : l.target ∈ among := htarget ▸ counts
  obtain ⟨⟨_, hnear⟩, hfar⟩ := h.mem_linksAmong.1 hk
  refine Link.eq_of_rename (fun side heq => ?_) heq
  cases side with
  | input => exact same.inj _ (within_some.1 hfar) _ htarget heq
  | output => exact congrArg Prod.fst hnear

theorem ready_rename (h : p.Sound) (named : p.Named) (hw : w.Within among) (hm : m ∈ p.members)
    (counts : m.id ∈ among) (twin : Member.Twin settings layout f m n) :
    Ready q other (w.rename f).written n ↔ Ready p among w.written m := by
  rw [Ready, Ready, feeds_rename same hm counts twin, List.forall_mem_map]
  refine forall₂_congr fun l hl => ⟨fun hmem => ?_, fun hmem => List.mem_map_of_mem hmem⟩
  obtain ⟨id, hid, heq⟩ := List.mem_map.1 hmem
  rwa [← same.inj _ (hw.written id hid) _ ((mem_feeds h named hm).1 hl).2.2 heq]

theorem after_rename (h : p.Sound) (named : p.Named) (hw : w.Within among) (hm : m ∈ p.members)
    (counts : m.id ∈ among) (twin : Member.Twin settings layout f m n) :
    after q settings layout other (w.rename f) n =
      (after p settings layout among w m).rename f := by
  have hreaders : ∀ c ∈ m.outputs, readers q other (c.rename f) = readers p among c :=
    fun c hc => readers_rename same hm counts hc
  have hnumbered : numberedOutputs q other w.last n =
      (numberedOutputs p among w.last m).map fun e => (e.1.rename f, e.2) := by
    rw [numberedOutputs, Member.outputs, connectors_of_twin twin]
    exact numbered_rename hreaders w.last
  have hlast : lastOf (readers q other) w.last n.outputs = lastOf (readers p among) w.last
      m.outputs := by
    rw [Member.outputs, connectors_of_twin twin]
    exact lastOf_rename hreaders w.last
  have hcounted : (numberedOutputs q other w.last n).map (countedFrom (readers q other)) =
      ((numberedOutputs p among w.last m).map (countedFrom (readers p among))).map
        fun e => ((f e.1.1, e.1.2), e.2) := by
    rw [hnumbered, List.map_map, List.map_map]
    refine List.map_congr_left fun e he => ?_
    simp only [Function.comp, countedFrom, hreaders e.1 (mem_of_numbered he)]
    rfl
  have htees : (numberedOutputs q other w.last n).filterMap (teeOf (readers q other)) =
      (numberedOutputs p among w.last m).filterMap (teeOf (readers p among)) := by
    rw [hnumbered, List.filterMap_map]
    refine List.filterMap_congr fun e he => ?_
    simp only [Function.comp, teeOf, hreaders e.1 (mem_of_numbered he)]
    rfl
  have htask : taskBlock q settings layout other (w.rename f) n =
      taskBlock p settings layout among w m := by
    simp only [taskBlock, twin.task, twin.values, feeds_rename same hm counts twin, List.map_map]
    congr 1
    · refine List.map_congr_left fun l hl => ?_
      rw [Function.comp, pipeOf_rename same h named hw hm counts hl]
      rfl
    · change (numberedOutputs q other w.last n).map _ = _
      rw [hnumbered, List.map_map]
      rfl
  simp only [after, Writing.rename, twin.id, hcounted, hlast, htees, List.map_cons,
    List.map_append, List.map_reverse]
  rw [← htask]
  rfl

end

theorem Within.after (hw : w.Within among) (counts : m.id ∈ among) :
    (Writing.after p settings layout among w m).Within among where
  written := List.forall_mem_cons.2 ⟨counts, hw.written⟩
  numbers := by
    intro e he
    rcases List.mem_append.1 he with he | he
    · obtain ⟨o, ho, rfl⟩ := List.mem_map.1 (List.mem_reverse.1 he)
      have hplace := Member.place_of_mem (mem_of_numbered ho)
      exact (congrArg Prod.fst hplace).symm ▸ counts
    · exact hw.numbers e he

inductive SameOutcome (f : String → String) :
    Except PipelineError Writing → Except PipelineError Writing → Prop
  | written (w : Writing) : SameOutcome f (.ok w) (.ok (w.rename f))
  | cycle (ids : List String) : SameOutcome f (.error (.cycle ids)) (.error (.cycle (ids.map f)))
  | mute (value : Document) : SameOutcome f (.error (.noText value)) (.error (.noText value))

theorem SameOutcome.eq_of_ok {result : Except PipelineError Writing}
    (h : SameOutcome f (.ok w) result) : result = .ok (w.rename f) := by
  cases h
  rfl

theorem writeQueue_rename (h : p.Sound) (named : p.Named) (h' : q.Sound) (named' : q.Named)
    (same : p.Corresponds q among other f) (waiting : Nat) {queue twins : List Member}
    (hw : HasNumbers p w) (within : w.Within among)
    (hq : ∀ m ∈ queue, m ∈ p.members ∧ m.id ∈ among)
    (hq' : ∀ n ∈ twins, n ∈ q.members ∧ n.id ∈ other)
    (pairs : List.Forall₂ (Member.Twin settings layout f) queue twins) :
    SameOutcome f (writeQueue p settings layout among waiting w queue)
      (writeQueue q settings layout other waiting (w.rename f) twins) := by
  induction waiting, w, queue using writeQueue.induct generalizing twins with
  | case1 waiting w =>
    cases pairs
    rw [writeQueue, writeQueue]
    exact .written w
  | case2 waiting w m r ihwritten ihback =>
    cases pairs with
    | @cons _ n _ rest twin pairs =>
    obtain ⟨hm, counts⟩ := hq m (by simp)
    obtain ⟨hn, counts'⟩ := hq' n (by simp)
    rw [writeQueue, writeQueue, isReady_eq h named, isReady_eq h' named', ok_bind, ok_bind]
    by_cases ready : Ready p among w.written m
    · have numbered := hw.of_ready h named hm ready
      have ready' := (ready_rename same h named within hm counts twin).2 ready
      have numbered' : ∀ l ∈ feeds q other n,
          ((w.rename f).numbers.lookup (l.placeOn .output)).isSome := by
        rw [feeds_rename same hm counts twin, List.forall_mem_map]
        intro l hl
        rw [lookup_numbers_rename same within ((mem_feeds h named hm).1 hl).2.2]
        exact numbered l hl
      rw [if_pos (ready_iff.2 ready), if_pos (ready_iff.2 ready')]
      by_cases spoken : m.task.Spoken settings
      · rw [writeMember_eq h named layout w spoken hm counts numbered,
          writeMember_eq h' named' layout _ (twin.task ▸ spoken) hn counts' numbered', ok_bind,
          ok_bind, after_rename same h named within hm counts twin]
        exact ihwritten _ (hw.after h named settings layout hm) (within.after counts)
          (fun k hk => hq k (by simp [hk])) (fun k hk => hq' k (by simp [hk])) pairs
      · rw [writeMember_of_mute spoken, writeMember_of_mute (twin.task ▸ spoken), twin.task]
        exact .mute _
    · have ready' := mt (ready_rename same h named within hm counts twin).1 ready
      rw [if_neg (mt ready_iff.1 ready), if_neg (mt ready_iff.1 ready'), pairs.length_eq]
      have back : List.Forall₂ (Member.Twin settings layout f) (r ++ [m]) (rest ++ [n]) :=
        List.rel_append pairs (.cons twin .nil)
      split
      · rw [ids_of_twins back]
        exact .cycle _
      · rename_i hturn
        refine ihback (by rwa [pairs.length_eq]) hw within (fun k hk => hq k ?_)
          (fun k hk => hq' k ?_) back
        · simpa [or_comm] using hk
        · simpa [or_comm] using hk

end Writing

end Sluice
