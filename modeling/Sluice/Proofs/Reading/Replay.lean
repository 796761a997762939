import Sluice.Proofs.Reading.Copy
import Sluice.Proofs.Reading.Labels
import Sluice.Proofs.Writing.Counting
import Sluice.Proofs.Writing.Script

/-! Reading a script. The reader follows the writer: after the commands of some members it has their
copies with the links into them, and every number that the writer would read under stands for the
output that it was given to. -/

namespace Sluice.Reading

open CommandLine Pipeline Writing

variable {p : Pipeline} {among : List String} {settings : Settings} {layout : Layout}
  {f : String → String} {order : List Member} {links : List Link} {catalogue : Catalogue}
  {s : Reading} {w : Writing} {done : List Member} {m : Member} {c : Command}

theorem step_ok {α : Type} (a : α) : step (.ok a) = .ok a := rfl

def outletOf (f : String → String) (l : Link) : Outlet :=
  ⟨f l.source, l.sourceSlot⟩

def branchOf (p : Pipeline) (among : List String) (l : Link) : Option Nat :=
  if (p.linksAmong (l.placeOn .output) (some among)).length ≤ 1 then none
  else some ((p.linksAmong (l.placeOn .output) (some among)).idxOf l)

def keepLink (p : Pipeline) (among : List String) (f : String → String)
    (kept : List (Outlet × List (Nat × Link))) (l : Link) : List (Outlet × List (Nat × Link)) :=
  (branchOf p among l).elim kept fun n => keepBranch (outletOf f l) (n, l.rename f) kept

/-- What the reader knows when it has read the commands of `done`. -/
structure Follows (p : Pipeline) (among : List String) (settings : Settings)
    (f : String → String) (done : List Member) (w : Writing) (s : Reading) : Prop where
  written : w.written = (done.map Member.id).reverse
  sources : ∀ l ∈ done.flatMap (feeds p among), l.source ∈ done.map Member.id
  copies : Copies settings f done (done.flatMap (feeds p among)) s.pipeline
  pending : s.pending = []
  branched : s.branched = (done.flatMap (feeds p among)).foldl (keepLink p among f) []
  labels : ∀ l ∈ p.links, l.source ∈ done.map Member.id → l.target ∈ among →
    s.Stands (pipeOf p among w.numbers l) (outletOf f l) (branchOf p among l) ∧
      pipeOf p among w.numbers l ≤ w.last

theorem follows_start (name : Option String) (blocks : List Block) :
    Follows p among settings f [] (Writing.start blocks) (Reading.start name) where
  written := rfl
  sources := by simp
  copies := .new settings f name
  pending := rfl
  branched := rfl
  labels := by simp

theorem Follows.source_of_ready (h : Follows p among settings f done w s)
    (ready : Ready p among w.written m) : ∀ l ∈ feeds p among m, l.source ∈ done.map Member.id := by
  intro l hl
  have := ready l hl
  rwa [h.written, List.mem_reverse] at this

theorem Follows.sources_append (h : Follows p among settings f done w s)
    (ready : Ready p among w.written m) : ∀ l ∈ (done ++ [m]).flatMap (feeds p among),
      l.source ∈ (done ++ [m]).map Member.id := by
  intro l hl
  rw [List.flatMap_append, List.mem_append] at hl
  rw [List.map_append, List.mem_append]
  refine .inl (hl.elim (h.sources l) fun hl => h.source_of_ready ready l (by simpa using hl))

theorem readTees_eq (catalogue : Catalogue) {readers : Connector → Nat} {last : Nat}
    {outputs : List Connector} {cs : List Command} {key : String}
    (tees : TeeScript readers (numbered readers last outputs) cs)
    (stands : ∀ e ∈ numbered readers last outputs, s.Stands e.2 ⟨key, e.1.slot⟩ none)
    (flows : ∀ d ∈ outputs, ∃ e, s.pipeline.outputAt key d.slot = .ok e ∧ e.flow = d.flow) :
    ∃ t, cs.foldlM (readCommand catalogue false) s = .ok t ∧
      Relabelled (fun n => last < n ∧ n ≤ lastOf readers last outputs) s t ∧
      ∀ e ∈ numbered readers last outputs,
        if readers e.1 ≤ 1 then t.Stands e.2 ⟨key, e.1.slot⟩ none
        else ∀ i < readers e.1, t.Stands (e.2 + 1 + i) ⟨key, e.1.slot⟩ (some i) := by
  induction outputs generalizing last s cs with
  | nil =>
    cases tees
    exact ⟨s, rfl, .refl _ s, by simp [numbered]⟩
  | cons d r ih =>
    have hlast := last_le_lastOf readers (last + span (readers d)) r
    have hstands := stands (d, last + 1) (by simp [numbered])
    have later : ∀ e ∈ numbered readers (last + span (readers d)) r,
        e ∈ numbered readers last (d :: r) := fun e he => List.mem_cons_of_mem _ he
    rw [lastOf_cons]
    cases tees with
    | single hone rest =>
      have hspan : span (readers d) = 1 := if_pos hone
      obtain ⟨t, ht, hst, hrest⟩ := ih rest (fun e he => stands e (later e he))
        fun e he => flows e (by simp [he])
      refine ⟨t, ht, hst.mono fun n hn => by omega, fun e he => ?_⟩
      rcases List.mem_cons.1 he with rfl | he
      · rw [if_pos hone]
        exact hst.kept _ (by simp only; omega) _ _ hstands
      · exact hrest e he
    | fan hmany hword tee rest =>
      have hspan : span (readers d) = readers d + 1 := if_neg (by simpa using hmany)
      simp only at hmany hword tee
      obtain ⟨e, he, hflow⟩ := flows d (by simp)
      obtain ⟨t, ht, hst, hbranches⟩ := readTee_eq tee hstands ⟨e, he, hflow⟩
      obtain ⟨u, hu, htu, hrest⟩ := ih (s := t) rest
        (fun o ho => hst.kept _ (by have := (bounds_of_numbered ho).1; omega) _ _
          (stands o (later o ho)))
        (fun o ho => by
          rw [hst.pipeline]
          exact flows o (by simp [ho]))
      refine ⟨u, ?_, (hst.mono fun n hn => by omega).trans (htu.mono fun n hn => by omega),
        fun o ho => ?_⟩
      · rw [List.foldlM_cons, readCommand, tee.name, (tee_word hword).2.2]
        simp only [ht, ok_bind]
        exact hu
      · rcases List.mem_cons.1 ho with rfl | ho
        · rw [if_neg (by simpa using hmany)]
          intro i hi
          simp only at hi ⊢
          exact htu.kept _ (by omega) _ _ (hbranches i hi)
        · exact hrest o ho

theorem pipeAt?_isSome {side : Side} {d : Connector} {e : Connector × Nat}
    {es : List (Connector × Nat)} (he : e ∈ es) (hslot : e.1.slot = d.slot)
    (hpipes : c.pipes side = (es.map fun e => (e.1.slot, e.2)).map pipeRef) :
    (c.pipeAt? side d.slot).isSome := by
  rw [Command.pipeAt?, hpipes, List.find?_isSome]
  refine ⟨pipeRef (e.1.slot, e.2), ?_, by simp [pipeRef, hslot]⟩
  exact List.mem_map_of_mem (List.mem_map.2 ⟨e, he, rfl⟩)

theorem outputs_closed {n : Member} (hn : n.outputs.length = m.outputs.length)
    (outPipes : c.outPipes = (writes p among w m).map pipeRef) :
    ∀ d ∈ n.outputs, (c.pipeAt? .output d.slot).isSome := by
  intro d hd
  obtain ⟨hlt, _⟩ := List.getElem?_eq_some_iff.1 (Member.mem_connectors hd).2.2
  have hget : m.outputs[d.slot]? = some m.outputs[d.slot] :=
    List.getElem?_eq_getElem (hn ▸ hlt)
  obtain ⟨k, hk⟩ := exists_numbered (readers p among) w.last (List.mem_of_getElem? hget)
  exact pipeAt?_isSome hk (Member.getElem?_connectors hget).2.2 outPipes

theorem writeOutputs_eq (p : Pipeline) (among : List String) (w : Writing) {n : Member}
    (hn : n.outputs.length = m.outputs.length) (s : Reading) :
    ∃ t, ((writes p among w m).map pipeRef).foldlM (writeLabel n) s = .ok t ∧
      Relabelled (w.last < ·) s t ∧
      ∀ e ∈ numberedOutputs p among w.last m, t.Stands e.2 ⟨n.key, e.1.slot⟩ none := by
  have slots : ∀ e ∈ writes p among w m, e.1 < n.outputs.length := by
    intro e he
    obtain ⟨o, ho, rfl⟩ := List.mem_map.1 he
    rw [hn]
    exact (List.getElem?_eq_some_iff.1 (Member.mem_connectors (mem_of_numbered ho)).2.2).1
  have nodup : ((writes p among w m).map Prod.snd).Nodup := by
    rw [writes, List.map_map]
    exact snd_numbered_nodup _ _ _
  obtain ⟨t, ht, hst, hstands⟩ := writeLabels_eq (writes p among w m) slots nodup s
  refine ⟨t, ht, hst.mono fun k hk => ?_, fun e he =>
    hstands (e.1.slot, e.2) (List.mem_map.2 ⟨e, he, rfl⟩)⟩
  obtain ⟨e, he, rfl⟩ := List.mem_map.1 hk
  obtain ⟨o, ho, rfl⟩ := List.mem_map.1 he
  exact (bounds_of_numbered ho).1

theorem readTask_eq {j : Job} {reads writes : List (Nat × Nat)} {key : String} {q : Pipeline}
    {n : Member} {t u : Reading} (command : TaskCommand settings j reads writes c)
    (lookup : catalogue.lookup (Text.lower (taskWord settings j.task)) = some j.task)
    (noTee : Flow.ofTee? (Text.lower (taskWord settings j.task)) = none)
    (added : s.pipeline.add
      { toJob := ⟨s.pipeline.size, j.task, j.arguments.map (Argument.readBack settings)⟩
        id := none } none = .ok (key, q))
    (found : q.find key = .ok n)
    (linked : (reads.map pipeRef).foldlM (readLabel c key) { s with pipeline := q } = .ok t)
    (pending : t.pending = [])
    (written : (writes.map pipeRef).foldlM (writeLabel n) t = .ok u)
    (closed : ∀ d ∈ n.outputs, (c.pipeAt? .output d.slot).isSome) :
    readCommand catalogue false s c = .ok u := by
  rw [← command.inPipes] at linked
  rw [← command.outPipes] at written
  rw [readCommand, command.name, noTee]
  simp only [readTask, command.name, lookup, command.values, ok_bind, added, step_ok, found]
  rw [linked, ok_bind, fillInputs_eq pending, ok_bind, written, ok_bind,
    offerOutputs_eq closed]
  rfl

section

variable (hp : p.Sound) (named : p.Named)
include hp named

theorem readLabels_eq (ren : Renames f order) (inside : ∀ m ∈ order, m ∈ p.members)
    (key : String) (number : Link → Nat) (ls : List Link)
    (copies : Copies settings f order links s.pipeline)
    (ends : ∀ l ∈ links ++ ls, l ∈ p.links ∧ ∀ side, l.endOn side ∈ order.map Member.id)
    (targets : ∀ l ∈ ls, f l.target = key) (nodup : (links ++ ls).Nodup)
    (stands : ∀ l ∈ ls, s.Stands (number l) (outletOf f l) (branchOf p among l)) :
    ∃ t, (ls.map fun l => pipeRef (l.targetSlot, number l)).foldlM (readLabel c key) s = .ok t ∧
      Copies settings f order (links ++ ls) t.pipeline ∧ t.labels = s.labels ∧
      t.branches = s.branches ∧ t.pending = s.pending ∧
      t.branched = ls.foldl (keepLink p among f) s.branched := by
  induction ls generalizing links s with
  | nil => exact ⟨s, rfl, by rwa [List.append_nil], rfl, rfl, rfl, rfl⟩
  | cons l r ih =>
    obtain ⟨hl, hends⟩ := ends l (by simp)
    have fresh : l ∉ links := fun hmem =>
      (List.nodup_append'.1 nodup).2.2 hmem List.mem_cons_self
    have hlinks : links.Nodup := (List.nodup_append'.1 nodup).1
    obtain ⟨q, hq, hcopies⟩ := copies.connect ren hp named inside
      (fun k hk => ends k (List.mem_append_left _ hk)) hlinks fresh hl hends
    rw [targets l (by simp)] at hq
    have hread := readLabel_eq (c := c) (stands l (by simp)) hq
    have append : links ++ [l] ++ r = links ++ l :: r := by simp
    obtain ⟨t, ht, htcopies, hlabels, hbranches, hpending, hbranched⟩ :=
      ih (s := { s with
          pipeline := q
          branched := keepLink p among f s.branched l })
        hcopies (append ▸ ends) (fun k hk => targets k (by simp [hk])) (append ▸ nodup)
        fun k hk => stands k (by simp [hk])
    refine ⟨t, ?_, append ▸ htcopies, hlabels, hbranches, hpending, hbranched⟩
    rw [List.map_cons, List.foldlM_cons, hread, ok_bind]
    exact ht

theorem ends_of_feeds (inside : ∀ k ∈ done, k ∈ p.members)
    (sources : ∀ l ∈ done.flatMap (feeds p among), l.source ∈ done.map Member.id) :
    ∀ l ∈ done.flatMap (feeds p among),
      l ∈ p.links ∧ ∀ side, l.endOn side ∈ done.map Member.id := by
  intro l hl
  obtain ⟨k, hk, hfeeds⟩ := List.mem_flatMap.1 hl
  obtain ⟨hlinks, htarget, _⟩ := (mem_feeds hp named (inside k hk)).1 hfeeds
  refine ⟨hlinks, fun side => ?_⟩
  cases side with
  | input => exact List.mem_map.2 ⟨k, hk, htarget.symm⟩
  | output => exact sources l hl

theorem flatMap_feeds_nodup (inside : ∀ k ∈ done, k ∈ p.members)
    (ids : (done.map Member.id).Nodup) : (done.flatMap (feeds p among)).Nodup := by
  refine List.nodup_flatMap.2 ⟨fun k _ => feeds_nodup hp k, ?_⟩
  refine (List.pairwise_map.1 ids).imp_of_mem fun {a b} ha hb hne l hla hlb => hne ?_
  have hta := ((mem_feeds hp named (inside a ha)).1 hla).2.1
  have htb := ((mem_feeds hp named (inside b hb)).1 hlb).2.1
  exact hta.symm.trans htb

theorem Follows.task (h : Follows p among settings f done w s)
    (inside : ∀ k ∈ done ++ [m], k ∈ p.members) (counts : m.id ∈ among)
    (ids : ((done ++ [m]).map Member.id).Nodup) (ready : Ready p among w.written m)
    (ren : Renames f (done ++ [m])) (proper : m.toJob.Proper)
    (name : Text.startsBlank m.task.name = false)
    (lookup : catalogue.lookup (Text.lower (taskWord settings m.task)) = some m.task)
    (noTee : Flow.ofTee? (Text.lower (taskWord settings m.task)) = none)
    (command : TaskCommand settings m.toJob (reads p among w m) (writes p among w m) c) :
    ∃ t, readCommand catalogue false s c = .ok t ∧
      Copies settings f (done ++ [m]) ((done ++ [m]).flatMap (feeds p among)) t.pipeline ∧
      t.pending = [] ∧
      t.branched = ((done ++ [m]).flatMap (feeds p among)).foldl (keepLink p among f) [] ∧
      (∀ n ≤ w.last, ∀ o branch, s.Stands n o branch → t.Stands n o branch) ∧
      ∀ e ∈ numberedOutputs p among w.last m, t.Stands e.2 ⟨f m.id, e.1.slot⟩ none := by
  have append : (done ++ [m]).flatMap (feeds p among) =
      done.flatMap (feeds p among) ++ feeds p among m := by simp
  have hm : m ∈ p.members := inside m (by simp)
  obtain ⟨r, n, hadd, hfind, hn, hcopies⟩ := h.copies.add proper name
  rw [← ren.last] at hadd hfind
  obtain ⟨t, ht, htcopies, hlabels, hbranches, hpending, hbranched⟩ :=
    readLabels_eq (c := c) (s := { s with pipeline := r }) hp named ren inside (f m.id)
      (pipeOf p among w.numbers) (feeds p among m) hcopies
      (append ▸ ends_of_feeds hp named inside (h.sources_append ready))
      (fun l hl => by rw [((mem_feeds hp named hm).1 hl).2.1])
      (append ▸ flatMap_feeds_nodup hp named inside ids)
      fun l hl => by
        obtain ⟨hlinks, htarget, _⟩ := (mem_feeds hp named hm).1 hl
        exact (h.labels l hlinks (h.source_of_ready ready l hl) (htarget ▸ counts)).1
  have linked : ((reads p among w m).map pipeRef).foldlM (readLabel c (f m.id))
      { s with pipeline := r } = .ok t := by
    rw [reads, List.map_map]
    exact ht
  have pending : t.pending = [] := hpending.trans h.pending
  have hlen : n.outputs.length = m.outputs.length := by rw [hn, Member.length_outputs_copy]
  have hkey : n.key = f m.id := by rw [ren.last, hn, Member.copy]
  obtain ⟨u, hu, htu, hstands⟩ := writeOutputs_eq p among w hlen t
  rw [hkey] at hstands
  refine ⟨u, ?_, ?_, ?_, ?_, fun k hk o branch hs => ?_, hstands⟩
  · exact readTask_eq command lookup noTee hadd hfind linked pending hu
      (outputs_closed hlen command.outPipes)
  · rw [htu.pipeline, append]
    exact htcopies
  · exact htu.pending.trans pending
  · rw [htu.branched, hbranched, append, List.foldl_append, ← h.branched]
  · refine htu.kept k (by omega) o branch ?_
    rw [Stands, hlabels, hbranches]
    exact hs

theorem exists_numberedOutput (among : List String) {l : Link} (hm : m ∈ p.members)
    (hl : l ∈ p.links) (hsource : l.source = m.id) (last : Nat) :
    ∃ e ∈ numberedOutputs p among last m, l.placeOn .output = e.1.place := by
  obtain ⟨k, hk, hid, c, hc, hplace⟩ := hp.exists_connector named hl .output
  obtain rfl : k = m := hp.eq_of_id named hk hm (hid.trans hsource)
  obtain ⟨number, hnumber⟩ := exists_numbered (readers p among) last hc
  exact ⟨_, hnumber, hplace.symm⟩

theorem stands_of_branches (layout : Layout) {l : Link} (hm : m ∈ p.members) (hl : l ∈ p.links)
    (hsource : l.source = m.id) (hto : l.target ∈ among)
    (branches : ∀ e ∈ numberedOutputs p among w.last m,
      if readers p among e.1 ≤ 1 then s.Stands e.2 ⟨f m.id, e.1.slot⟩ none
      else ∀ i < readers p among e.1, s.Stands (e.2 + 1 + i) ⟨f m.id, e.1.slot⟩ (some i)) :
    s.Stands (pipeOf p among (after p settings layout among w m).numbers l) (outletOf f l)
        (branchOf p among l) ∧
      pipeOf p among (after p settings layout among w m).numbers l ≤
        (after p settings layout among w m).last := by
  obtain ⟨e, he, hplace⟩ := exists_numberedOutput hp named among hm hl hsource w.last
  have hmem : l ∈ p.linksAmong (l.placeOn .output) (some among) :=
    hp.mem_linksAmong.2 ⟨⟨hl, rfl⟩, within_some.2 hto⟩
  have hreaders : readers p among e.1 =
      (p.linksAmong (l.placeOn .output) (some among)).length := by rw [readers, hplace]
  have hlt : (p.linksAmong (l.placeOn .output) (some among)).idxOf l < readers p among e.1 :=
    hreaders ▸ List.idxOf_lt_length_of_mem hmem
  have hslot : e.1.slot = l.sourceSlot := (congrArg (fun t => t.2.2) hplace).symm
  have hbound := (bounds_of_numbered he).2
  have hbranch := branches e he
  rw [pipeOf_after_new he hplace, branchOf, ← hreaders, outletOf, hsource, ← hslot]
  change _ ∧ _ ≤ lastOf (readers p among) w.last m.outputs
  by_cases hone : readers p among e.1 ≤ 1
  · have hfirst : (p.linksAmong (l.placeOn .output) (some among)).idxOf l = 0 := by omega
    rw [if_pos hone] at hbranch ⊢
    rw [if_pos hone, hfirst]
    rw [span, if_pos hone] at hbound
    exact ⟨hbranch, by omega⟩
  · rw [if_neg hone] at hbranch ⊢
    rw [if_neg hone]
    rw [span, if_neg hone] at hbound
    exact ⟨hbranch _ hlt, by omega⟩

theorem Follows.member (layout : Layout) {ts : List Command}
    (h : Follows p among settings f done w s)
    (inside : ∀ k ∈ done ++ [m], k ∈ p.members) (counts : m.id ∈ among)
    (ids : ((done ++ [m]).map Member.id).Nodup) (ready : Ready p among w.written m)
    (ren : Renames f (done ++ [m])) (proper : m.toJob.Proper)
    (name : Text.startsBlank m.task.name = false)
    (lookup : catalogue.lookup (Text.lower (taskWord settings m.task)) = some m.task)
    (noTee : Flow.ofTee? (Text.lower (taskWord settings m.task)) = none)
    (command : TaskCommand settings m.toJob (reads p among w m) (writes p among w m) c)
    (tees : TeeScript (readers p among) (numberedOutputs p among w.last m) ts) :
    ∃ t, (c :: ts).foldlM (readCommand catalogue false) s = .ok t ∧
      Follows p among settings f (done ++ [m]) (after p settings layout among w m) t := by
  have hm : m ∈ p.members := inside m (by simp)
  obtain ⟨t, ht, hcopies, hpending, hbranched, hkept, hstands⟩ :=
    h.task hp named inside counts ids ready ren proper name lookup noTee command
  obtain ⟨n, hn, hcopied⟩ :=
    member?_copy hcopies.frame hcopies.sound.keys_nodup ren (m := m) (by simp)
  have flows : ∀ d ∈ m.outputs,
      ∃ e, t.pipeline.outputAt (f m.id) d.slot = .ok e ∧ e.flow = d.flow := fun d hd =>
    ⟨d.rename f, outputAt_eq_ok.2 ⟨n, hn, hcopied (Member.mem_connectors hd).2.2⟩, rfl⟩
  obtain ⟨u, hu, htu, hbranches⟩ := readTees_eq catalogue tees hstands flows
  refine ⟨u, by rw [List.foldlM_cons, ht, ok_bind, hu], ?_, ?_, ?_, ?_, ?_, fun l hl hs hto => ?_⟩
  · simp [Writing.after, h.written]
  · exact h.sources_append ready
  · rwa [htu.pipeline]
  · rw [htu.pending, hpending]
  · rw [htu.branched, hbranched]
  · by_cases hold : l.source = m.id
    · exact stands_of_branches hp named layout hm hl hold hto hbranches
    · have hs : l.source ∈ done.map Member.id := by
        rw [List.map_append, List.mem_append] at hs
        exact hs.resolve_right (by simpa using hold)
      obtain ⟨hstand, hle⟩ := h.labels l hl hs hto
      rw [pipeOf_after_old hold]
      refine ⟨htu.kept _ (by omega) _ _ (hkept _ hle _ _ hstand), Nat.le_trans hle ?_⟩
      exact last_le_lastOf _ _ _

theorem Follows.run {order : List Member} {cs : List Command}
    (script : Script p settings layout among w order cs)
    (h : Follows p among settings f done w s) (inside : ∀ k ∈ done ++ order, k ∈ p.members)
    (counts : ∀ m ∈ order, m.id ∈ among) (ids : ((done ++ order).map Member.id).Nodup)
    (ready : ReadyOrder p among w.written order) (ren : Renames f (done ++ order))
    (proper : ∀ m ∈ order, m.toJob.Proper)
    (names : ∀ m ∈ order, Text.startsBlank m.task.name = false)
    (lookup : ∀ m ∈ order,
      catalogue.lookup (Text.lower (taskWord settings m.task)) = some m.task)
    (noTee : ∀ m ∈ order, Flow.ofTee? (Text.lower (taskWord settings m.task)) = none) :
    ∃ t, cs.foldlM (readCommand catalogue false) s = .ok t ∧
      Follows p among settings f (done ++ order) (order.foldl (after p settings layout among) w)
        t := by
  induction script generalizing done s with
  | nil w => exact ⟨s, rfl, by simpa using h⟩
  | @cons w m order c ts cs command tees _ ih =>
    have split : done ++ m :: order = done ++ [m] ++ order := by simp
    rw [split] at inside ids ren
    obtain ⟨t, ht, hfollows⟩ := h.member hp named layout
      (fun k hk => inside k (List.mem_append_left _ hk)) (counts m (by simp))
      (by
        rw [List.map_append] at ids
        exact (List.nodup_append'.1 ids).1)
      ready.1 ren.of_append (proper m (by simp)) (names m (by simp)) (lookup m (by simp))
      (noTee m (by simp)) command tees
    obtain ⟨u, hu, hdone⟩ := ih hfollows inside (fun k hk => counts k (by simp [hk])) ids ready.2
      ren (fun k hk => proper k (by simp [hk])) (fun k hk => names k (by simp [hk]))
      (fun k hk => lookup k (by simp [hk])) fun k hk => noTee k (by simp [hk])
    refine ⟨u, ?_, ?_⟩
    · rw [List.foldlM_append, ht, ok_bind, hu]
    · rw [split]
      exact hdone

end

end Sluice.Reading
