import Sluice.Proofs.Pipeline.Ends
import Sluice.Proofs.Writing.Schedule
import Sluice.Reading

/-! The order of branches. The links that were read by branches are kept by output, and at each
output they come into the order of the branches, on the positions that they have there. Links of
one branch stay in the order in which they were read, and all others stay where they are. -/

namespace Sluice.Reading

open Pipeline Writing
open scoped List

variable {p q : Pipeline}

theorem lookup_keepBranch (o : Outlet) (entry : Nat × Link)
    (kept : List (Outlet × List (Nat × Link))) (other : Outlet) :
    (keepBranch o entry kept).lookup other =
      if other = o then some ((kept.lookup o).getD [] ++ [entry]) else kept.lookup other := by
  induction kept with
  | nil =>
    by_cases ho : other = o
    · simp [keepBranch, ho]
    · simp [keepBranch, ho, List.lookup_cons, beq_false_of_ne ho]
  | cons e r ih =>
    obtain ⟨k, entries⟩ := e
    by_cases hk : k = o
    · subst hk
      by_cases ho : other = k
      · simp [keepBranch, ho]
      · simp [keepBranch, ho, List.lookup_cons, beq_false_of_ne ho]
    · by_cases ho : other = k
      · subst ho
        simp [keepBranch, hk]
      · simp [keepBranch, hk, List.lookup_cons, beq_false_of_ne ho, beq_false_of_ne (Ne.symm hk),
          ih]

theorem mem_map_fst_keepBranch {o other : Outlet} {entry : Nat × Link}
    {kept : List (Outlet × List (Nat × Link))}
    (h : other ∈ (keepBranch o entry kept).map Prod.fst) :
    other = o ∨ other ∈ kept.map Prod.fst := by
  rw [← Table.lookup_isSome_iff, lookup_keepBranch] at h
  by_cases ho : other = o
  · exact .inl ho
  · rw [if_neg ho] at h
    exact .inr (Table.lookup_isSome_iff.1 h)

theorem keepBranch_nodup {o : Outlet} {entry : Nat × Link}
    {kept : List (Outlet × List (Nat × Link))} (h : (kept.map Prod.fst).Nodup) :
    ((keepBranch o entry kept).map Prod.fst).Nodup := by
  induction kept with
  | nil => simp [keepBranch]
  | cons e r ih =>
    obtain ⟨hnew, hr⟩ := List.nodup_cons.1 h
    rw [keepBranch]
    split
    · exact h
    · rename_i hne
      refine List.nodup_cons.2 ⟨fun hmem => ?_, ih hr⟩
      exact (mem_map_fst_keepBranch hmem).elim hne hnew

section

variable (outlet : Link → Outlet) (entry : Link → Option (Nat × Link))

def keepEntry (kept : List (Outlet × List (Nat × Link))) (l : Link) :
    List (Outlet × List (Nat × Link)) :=
  (entry l).elim kept fun e => keepBranch (outlet l) e kept

def entriesAt (links : List Link) (o : Outlet) : List (Nat × Link) :=
  links.filterMap fun l => if outlet l = o then entry l else none

theorem keepEntries_eq (links : List Link) :
    ((links.foldl (keepEntry outlet entry) []).map Prod.fst).Nodup ∧
      ∀ o, (links.foldl (keepEntry outlet entry) []).lookup o =
        if entriesAt outlet entry links o = [] then none
        else some (entriesAt outlet entry links o) := by
  induction links using List.reverseRecOn with
  | nil => exact ⟨List.nodup_nil, fun o => rfl⟩
  | append_singleton ls l ih =>
    obtain ⟨hnodup, hlookup⟩ := ih
    rw [List.foldl_append]
    generalize ls.foldl (keepEntry outlet entry) [] = kept at hnodup hlookup
    have happend : ∀ o, entriesAt outlet entry (ls ++ [l]) o = entriesAt outlet entry ls o ++
        (if outlet l = o then entry l else none).toList := by
      intro o
      rw [entriesAt, List.filterMap_append]
      rfl
    rw [List.foldl_cons, List.foldl_nil, keepEntry]
    cases he : entry l with
    | none =>
      refine ⟨hnodup, fun o => ?_⟩
      rw [happend, he]
      simpa using hlookup o
    | some e =>
      refine ⟨keepBranch_nodup hnodup, fun o => ?_⟩
      rw [happend, he, Option.elim_some, lookup_keepBranch]
      by_cases ho : outlet l = o
      · subst ho
        rw [if_pos rfl, if_pos rfl, hlookup]
        split <;> simp_all
      · rw [if_neg (Ne.symm ho), if_neg ho, hlookup]
        simp

end

def inBranchOrder (entries : List (Nat × Link)) : List Link :=
  (entries.mergeSort fun a b => a.1 ≤ b.1).map (·.2)

@[simp] theorem inBranchOrder_nil : inBranchOrder [] = [] := by
  simp [inBranchOrder]

theorem inBranchOrder_perm (entries : List (Nat × Link)) :
    inBranchOrder entries ~ entries.map (·.2) :=
  (List.mergeSort_perm _ _).map _

theorem orderBranches_one (hq : q.Sound) (named : q.Named) {e : Outlet × List (Nat × Link)}
    (output : ∃ c, q.outputAt e.1.key e.1.slot = .ok c) (once : (e.2.map (·.2)).Nodup)
    (inside : ∀ l ∈ e.2.map (·.2), l ∈ q.linksAmong (e.1.key, .output, e.1.slot) none) :
    ∃ r, orderBranches q e = .ok r ∧ r.Sound ∧ r.frame = q.frame ∧ r.links = q.links ∧
      SharedOut (inBranchOrder e.2) (q.linksAmong (e.1.key, .output, e.1.slot) none)
        (r.linksAmong (e.1.key, .output, e.1.slot) none) ∧
      ∀ place, place ≠ (e.1.key, .output, e.1.slot) →
        r.linksAmong place none = q.linksAmong place none := by
  obtain ⟨c, hc⟩ := output
  obtain ⟨keys, place⟩ := place_of_outputAt named hc
  have perm := inBranchOrder_perm e.2
  rw [← place, linksAmong_none] at inside
  obtain ⟨r, hr, sound, frame, links, shared, others⟩ := hq.reorder_some keys
    (perm.nodup_iff.2 once) fun l hl => inside l (perm.mem_iff.1 hl)
  rw [place] at shared others
  refine ⟨r, ?_, sound, frame, links, shared, others⟩
  rw [orderBranches, hc, ok_bind]
  exact hr

theorem orderBranches_each (hq : q.Sound) (named : q.Named)
    {es : List (Outlet × List (Nat × Link))} (nodup : (es.map Prod.fst).Nodup)
    (each : ∀ e ∈ es, (∃ c, q.outputAt e.1.key e.1.slot = .ok c) ∧ (e.2.map (·.2)).Nodup ∧
      ∀ l ∈ e.2.map (·.2), l ∈ q.linksAmong (e.1.key, .output, e.1.slot) none) :
    ∃ r, es.foldlM orderBranches q = .ok r ∧ r.Sound ∧ r.frame = q.frame ∧ r.links = q.links ∧
      (∀ key slot, r.linksAmong (key, .input, slot) none = q.linksAmong (key, .input, slot) none) ∧
      ∀ key slot, SharedOut (((es.lookup ⟨key, slot⟩).map inBranchOrder).getD [])
        (q.linksAmong (key, .output, slot) none) (r.linksAmong (key, .output, slot) none) := by
  induction es generalizing q with
  | nil => exact ⟨q, rfl, hq, rfl, rfl, fun _ _ => rfl, fun _ _ => .of_nil _⟩
  | cons e r ih =>
    obtain ⟨fresh, nodup⟩ := List.nodup_cons.1 nodup
    obtain ⟨output, once, inside⟩ := each e List.mem_cons_self
    obtain ⟨t, ht, tsound, tframe, tlinks, here, others⟩ :=
      orderBranches_one hq named output once inside
    have apart : ∀ o : Outlet, o ≠ e.1 →
        (o.key, Side.output, o.slot) ≠ (e.1.key, .output, e.1.slot) := by
      rintro ⟨key, slot⟩ different same
      simp only [Prod.mk.injEq, true_and] at same
      exact different (by rw [same.1, same.2])
    obtain ⟨u, hu, usound, uframe, ulinks, inputs, outputs⟩ :=
      ih tsound (named.of_frame tframe) nodup fun d hd => by
        have different : d.1 ≠ e.1 := fun same => fresh (same ▸ List.mem_map_of_mem hd)
        obtain ⟨output, rest⟩ := each d (List.mem_cons_of_mem _ hd)
        exact ⟨by rwa [outputAt_eq_of_frame tframe], by rwa [others _ (apart d.1 different)]⟩
    refine ⟨u, ?_, usound, uframe.trans tframe, ulinks.trans tlinks, fun k i => ?_, fun k i => ?_⟩
    · rw [List.foldlM_cons, ht, ok_bind, hu]
    · rw [inputs, others _ (by simp)]
    · have rest := outputs k i
      obtain ⟨o, entries⟩ := e
      by_cases same : (⟨k, i⟩ : Outlet) = o
      · obtain rfl := same
        have unknown : r.lookup ⟨k, i⟩ = none := Table.lookup_eq_none_iff.2 fresh
        rw [unknown] at rest
        rw [List.lookup_cons_self, rest.eq_of_nil]
        exact here
      · rw [List.lookup_cons, beq_false_of_ne same]
        rwa [others _ (apart ⟨k, i⟩ same)] at rest

theorem orderBranches_all (hq : q.Sound) (named : q.Named)
    {es : List (Outlet × List (Nat × Link))} (nodup : (es.map Prod.fst).Nodup)
    (all : ∀ e ∈ es, (∃ c, q.outputAt e.1.key e.1.slot = .ok c) ∧
      inBranchOrder e.2 ~ q.linksAmong (e.1.key, .output, e.1.slot) none) :
    ∃ r, es.foldlM orderBranches q = .ok r ∧ r.Sound ∧ r.frame = q.frame ∧ r.links = q.links ∧
      (∀ key slot, r.linksAmong (key, .input, slot) none = q.linksAmong (key, .input, slot) none) ∧
      ∀ key slot, r.linksAmong (key, .output, slot) none =
        ((es.lookup ⟨key, slot⟩).map inBranchOrder).getD
          (q.linksAmong (key, .output, slot) none) := by
  have each : ∀ e ∈ es, (∃ c, q.outputAt e.1.key e.1.slot = .ok c) ∧ (e.2.map (·.2)).Nodup ∧
      ∀ l ∈ e.2.map (·.2), l ∈ q.linksAmong (e.1.key, .output, e.1.slot) none := by
    intro e he
    obtain ⟨output, perm⟩ := all e he
    have perm := (inBranchOrder_perm e.2).symm.trans perm
    exact ⟨output, perm.nodup_iff.2 (hq.linksAmong_nodup _ _), fun l hl => perm.mem_iff.1 hl⟩
  obtain ⟨r, run, sound, frame, links, inputs, outputs⟩ := orderBranches_each hq named nodup each
  refine ⟨r, run, sound, frame, links, inputs, fun key slot => ?_⟩
  have there := outputs key slot
  cases found : es.lookup ⟨key, slot⟩ with
  | none =>
    rw [found] at there
    exact there.eq_of_nil
  | some entries =>
    rw [found] at there
    exact there.eq_of_perm (all (⟨key, slot⟩, entries) (Table.mem_of_lookup found)).2

/-- Links with branches stand in the order of these on the positions that they had, in each branch
as they did before; links without one stand where they stood, and none is lost. -/
structure Branching (branch : Link → Option Nat) (made shown : List Link) : Prop where
  perm : shown ~ made
  kept : ∀ l, branch l = none → ∀ i : Nat, shown[i]? = some l ↔ made[i]? = some l
  sorted : shown.Pairwise fun k l => ∀ x ∈ branch k, ∀ y ∈ branch l, x ≤ y
  stable : ∀ n, (shown.filter fun l => branch l = some n) = made.filter fun l => branch l = some n

def branchEntries (branch : Link → Option Nat) (made : List Link) : List (Nat × Link) :=
  made.filterMap fun l => (branch l).map fun n => (n, l)

section

variable {branch : Link → Option Nat} {made shown : List Link}

theorem mem_branchEntries {e : Nat × Link} :
    e ∈ branchEntries branch made ↔ e.2 ∈ made ∧ branch e.2 = some e.1 := by
  simp only [branchEntries, List.mem_filterMap, Option.map_eq_some_iff]
  constructor
  · rintro ⟨l, hl, n, hn, rfl⟩
    exact ⟨hl, hn⟩
  · rintro ⟨hl, hn⟩
    exact ⟨e.2, hl, e.1, hn, rfl⟩

theorem filter_branchEntries (branch : Link → Option Nat) (made : List Link) (n : Nat) :
    ((branchEntries branch made).filter fun e => e.1 = n).map (·.2) =
      made.filter fun l => branch l = some n := by
  rw [branchEntries, List.filter_filterMap, List.map_filterMap, ← List.filterMap_eq_filter]
  refine List.filterMap_congr fun l _ => ?_
  cases h : branch l with
  | none => simp [Option.guard, h]
  | some m => by_cases hm : m = n <;> simp [Option.guard, h, hm]

theorem mem_inBranchOrder {l : Link} :
    l ∈ inBranchOrder (branchEntries branch made) ↔ l ∈ made ∧ branch l ≠ none := by
  rw [(inBranchOrder_perm _).mem_iff, List.mem_map]
  constructor
  · rintro ⟨e, he, rfl⟩
    obtain ⟨hl, hn⟩ := mem_branchEntries.1 he
    exact ⟨hl, by simp [hn]⟩
  · rintro ⟨hl, hn⟩
    obtain ⟨n, hn⟩ := Option.ne_none_iff_exists'.1 hn
    exact ⟨(n, l), mem_branchEntries.2 ⟨hl, hn⟩, rfl⟩

theorem sorted_inBranchOrder (branch : Link → Option Nat) (made : List Link) :
    (inBranchOrder (branchEntries branch made)).Pairwise fun k l =>
      ∀ x ∈ branch k, ∀ y ∈ branch l, x ≤ y := by
  rw [inBranchOrder, List.pairwise_map]
  refine (pairwise_mergeSort_rank Prod.fst (branchEntries branch made)).imp_of_mem
    fun {a b} ha hb le x hx y hy => ?_
  have ha := (mem_branchEntries.1 (List.mem_mergeSort.1 ha)).2
  have hb := (mem_branchEntries.1 (List.mem_mergeSort.1 hb)).2
  obtain rfl := Option.some.inj (ha.symm.trans hx)
  obtain rfl := Option.some.inj (hb.symm.trans hy)
  exact le

theorem stable_inBranchOrder (branch : Link → Option Nat) (made : List Link) (n : Nat) :
    ((inBranchOrder (branchEntries branch made)).filter fun l => branch l = some n) =
      made.filter fun l => branch l = some n := by
  rw [← filter_branchEntries branch made,
    ← filter_mergeSort Prod.fst (branchEntries branch made), inBranchOrder, List.filter_map]
  refine congrArg (List.map _) (List.filter_congr fun e he => ?_)
  have number := (mem_branchEntries.1 (List.mem_mergeSort.1 he)).2
  simp [number]

theorem Branching.of_sharedOut
    (h : SharedOut (inBranchOrder (branchEntries branch made)) made shown) :
    Branching branch made shown := by
  have branched : ∀ l ∈ shown, ∀ n, branch l = some n →
      l ∈ inBranchOrder (branchEntries branch made) := fun l hl n hn =>
    mem_inBranchOrder.2 ⟨h.perm.mem_iff.1 hl, by simp [hn]⟩
  refine ⟨h.perm, fun l hl i => h.getElem?_iff fun named => (mem_inBranchOrder.1 named).2 hl, ?_,
    fun n => ?_⟩
  · have sorted := sorted_inBranchOrder branch made
    rw [← h.order, List.pairwise_filter] at sorted
    refine sorted.imp_of_mem fun {k l} hk hl le x hx y hy => ?_
    exact le (decide_eq_true (branched k hk x hx)) (decide_eq_true (branched l hl y hy)) x hx y hy
  · have stable := stable_inBranchOrder branch made n
    rw [← stable]
    conv_rhs => rw [← h.order]
    rw [List.filter_filter]
    refine List.filter_congr fun l hl => ?_
    by_cases hn : branch l = some n
    · simp [hn, branched l hl n hn]
    · simp [hn]

end

end Sluice.Reading
