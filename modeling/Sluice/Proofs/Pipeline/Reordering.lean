import Sluice.Proofs.Pipeline.Placing

/-! What a reordering does to the list of links of a stage. Links that are not named keep their
positions, and those that are named keep theirs together. When none is named twice, they are
exchanged among each other and stand in the order in which they are named; a link that is named
twice can push another one out. -/

namespace Sluice.Pipeline

open scoped List

variable {is : List Nat} {ls listed links : List Link} {i : Nat} {l : Link}

@[simp] theorem length_place (is : List Nat) (ls listed : List Link) :
    (place is ls listed).length = listed.length := by
  induction is generalizing ls listed with
  | nil => rfl
  | cons i is ih =>
    cases ls with
    | nil => rfl
    | cons l ls => simp [place, ih]

theorem getElem?_place_of_not_mem (h : i ∉ is) (ls listed : List Link) :
    (place is ls listed)[i]? = listed[i]? := by
  induction is generalizing ls listed with
  | nil => rfl
  | cons j is ih =>
    obtain ⟨hne, his⟩ := not_or.1 (mt List.mem_cons.2 h)
    cases ls with
    | nil => rfl
    | cons l ls => rw [place, ih his, List.getElem?_set_ne (Ne.symm hne)]

theorem getElem?_place_of_mem (h : i ∈ is) (inside : i < listed.length)
    (len : is.length = ls.length) : ∃ l ∈ ls, (place is ls listed)[i]? = some l := by
  induction is generalizing ls listed with
  | nil => cases h
  | cons j is ih =>
    cases ls with
    | nil => cases len
    | cons k ls =>
      by_cases later : i ∈ is
      · have inside' : i < (listed.set j k).length := by rwa [List.length_set]
        obtain ⟨l, hl, found⟩ := ih later inside' (Nat.succ.inj len)
        exact ⟨l, List.mem_cons_of_mem k hl, found⟩
      · obtain rfl : i = j := (List.mem_cons.1 h).resolve_right later
        refine ⟨k, List.mem_cons_self, ?_⟩
        rw [place, getElem?_place_of_not_mem later, List.getElem?_set_self inside]

theorem map_getElem?_place (nodup : is.Nodup) (inside : ∀ i ∈ is, i < listed.length)
    (len : is.length = ls.length) :
    is.map (fun i => (place is ls listed)[i]?) = ls.map some := by
  induction is generalizing ls listed with
  | nil => rw [List.eq_nil_of_length_eq_zero len.symm, List.map_nil, List.map_nil]
  | cons j is ih =>
    cases ls with
    | nil => cases len
    | cons k ls =>
      obtain ⟨hj, his⟩ := List.nodup_cons.1 nodup
      rw [List.map_cons, List.map_cons]
      congr 1
      · rw [place, getElem?_place_of_not_mem hj, List.getElem?_set_self (inside j (by simp))]
      · exact ih his (fun i hi => by simpa using inside i (by simp [hi])) (Nat.succ.inj len)

section

variable (inside : ∀ l ∈ links, l ∈ listed)
include inside

theorem position_inside {i : Nat} (h : i ∈ (links.map listed.idxOf).mergeSort (· ≤ ·)) :
    i < listed.length ∧ ∃ l ∈ links, listed[i]? = some l := by
  obtain ⟨l, hl, rfl⟩ := List.mem_map.1 (List.mem_mergeSort.1 h)
  have lt := List.idxOf_lt_length_of_mem (inside l hl)
  exact ⟨lt, l, hl, by rw [List.getElem?_eq_getElem lt, List.getElem_idxOf]⟩

theorem rearranged_keeps (hl : l ∉ links) :
    (rearranged links listed)[i]? = some l ↔ listed[i]? = some l := by
  unfold rearranged
  by_cases h : i ∈ (links.map listed.idxOf).mergeSort (· ≤ ·)
  · obtain ⟨lt, k, hk, before⟩ := position_inside inside h
    have len : ((links.map listed.idxOf).mergeSort (· ≤ ·)).length = links.length := by simp
    obtain ⟨n, hn, after⟩ := getElem?_place_of_mem h lt len
    rw [before, after, Option.some_inj, Option.some_inj]
    exact iff_of_false (fun heq => hl (heq ▸ hn)) fun heq => hl (heq ▸ hk)
  · rw [getElem?_place_of_not_mem h]

theorem rearranged_shares :
    (∃ l ∈ links, (rearranged links listed)[i]? = some l) ↔ ∃ l ∈ links, listed[i]? = some l := by
  unfold rearranged
  by_cases h : i ∈ (links.map listed.idxOf).mergeSort (· ≤ ·)
  · obtain ⟨lt, k, hk, before⟩ := position_inside inside h
    exact iff_of_true (getElem?_place_of_mem h lt (by simp)) ⟨k, hk, before⟩
  · rw [getElem?_place_of_not_mem h]

theorem rearranged_orders (nodup : links.Nodup) : ∃ is, is ~ links.map listed.idxOf ∧
    is.Pairwise (· < ·) ∧ is.map (fun i => (rearranged links listed)[i]?) = links.map some := by
  have perm := List.mergeSort_perm (links.map listed.idxOf) fun a b => decide (a ≤ b)
  have apart : ((links.map listed.idxOf).mergeSort fun a b => decide (a ≤ b)).Nodup := by
    refine perm.nodup_iff.2 ((List.nodup_map_iff_inj_on nodup).2 fun l hl k _ same => ?_)
    exact (List.idxOf_inj (inside l hl)).1 same
  have sorted := pairwise_mergeSort_rank id (links.map listed.idxOf)
  refine ⟨_, perm, sorted.imp₂ (fun _ _ le ne => Nat.lt_of_le_of_ne le ne) apart, ?_⟩
  exact map_getElem?_place apart (fun i hi => (position_inside inside hi).1) (by simp)

end

structure SharedOut (links made shown : List Link) : Prop where
  perm : shown ~ made
  fixed : List.Forall₂ (fun k l => k = l ∨ k ∈ links ∧ l ∈ links) shown made
  order : (shown.filter fun l => l ∈ links) = links

namespace SharedOut

variable {made shown : List Link}

theorem of_nil (made : List Link) : SharedOut [] made made :=
  ⟨.refl made, List.forall₂_same.2 fun _ _ => .inl rfl, by simp⟩

theorem of_rearranged (nodup : listed.Nodup) (once : links.Nodup)
    (inside : ∀ l ∈ links, l ∈ listed) : SharedOut links listed (rearranged links listed) := by
  have perm := rearranged_perm once inside
  refine ⟨perm, List.forall₂_iff_get.2 ⟨perm.length_eq, fun i hi hi' => ?_⟩, ?_⟩
  · have before := List.getElem?_eq_getElem hi'
    have after := List.getElem?_eq_getElem hi
    by_cases named : listed[i] ∈ links
    · obtain ⟨k, hk, there⟩ := (rearranged_shares inside).2 ⟨_, named, before⟩
      obtain rfl : _ = k := Option.some.inj (after.symm.trans there)
      exact .inr ⟨hk, named⟩
    · exact .inl (Option.some.inj
        (after.symm.trans ((rearranged_keeps inside named).2 before)))
  · refine (filter_rearranged nodup ((List.perm_ext_iff_of_nodup once (nodup.filter _)).2
      fun l => ?_)).1
    simpa using inside l

theorem filter (h : SharedOut links made shown) {keep : Link → Bool}
    (own : ∀ l ∈ links, keep l = true) :
    SharedOut links (made.filter keep) (shown.filter keep) := by
  refine ⟨h.perm.filter keep, List.rel_filter (fun k l hkl => ?_) h.fixed, ?_⟩
  · rcases hkl with rfl | ⟨hk, hl⟩
    · rfl
    · simp [own k hk, own l hl]
  · rw [List.filter_comm, h.order, List.filter_eq_self.2 own]

theorem filter_of_others (h : SharedOut links made shown) (keep : Link → Bool)
    (others : ∀ l ∈ links, keep l = false) : shown.filter keep = made.filter keep := by
  have fixed := h.fixed
  clear h
  induction fixed with
  | nil => rfl
  | cons same _ ih =>
    rw [List.filter_cons, List.filter_cons, ih]
    rcases same with rfl | ⟨hk, hl⟩
    · rfl
    · simp [others _ hk, others _ hl]

theorem eq_of_nil (h : SharedOut [] made shown) : shown = made := by
  simpa using h.filter_of_others (fun _ => true) (by simp)

theorem eq_of_perm (h : SharedOut links made shown) (all : links ~ made) : shown = links := by
  have every : ∀ l ∈ shown, decide (l ∈ links) = true := fun l hl =>
    decide_eq_true (all.mem_iff.2 (h.perm.mem_iff.1 hl))
  rw [← h.order, List.filter_eq_self.2 every]

theorem getElem?_iff (h : SharedOut links made shown) {l : Link} (hl : l ∉ links) :
    shown[i]? = some l ↔ made[i]? = some l := by
  have len := h.fixed.length_eq
  rw [List.getElem?_eq_some_iff, List.getElem?_eq_some_iff]
  constructor
  · rintro ⟨hi, rfl⟩
    refine ⟨len ▸ hi, ?_⟩
    rcases List.forall₂_iff_get.1 h.fixed |>.2 i hi (len ▸ hi) with same | ⟨hk, _⟩
    · exact same.symm
    · exact absurd hk hl
  · rintro ⟨hi, rfl⟩
    refine ⟨len ▸ hi, ?_⟩
    rcases List.forall₂_iff_get.1 h.fixed |>.2 i (len ▸ hi) hi with same | ⟨_, hk⟩
    · exact same
    · exact absurd hk hl

end SharedOut

/-- What a reordering of the links at a connector leaves as it was, and what it does to the list of
the stage. -/
structure Reordered (p : Pipeline) (c : Connector) (links : List Link) (q : Pipeline) : Prop where
  table : q.links = p.links
  frame : q.frame = p.frame
  others : ∀ key side, ¬(key = c.stage ∧ side = c.side) → q.linksOn key side = p.linksOn key side
  length : (q.linksOn c.stage c.side).length = (p.linksOn c.stage c.side).length
  kept : ∀ (i : Nat) l, l ∉ links →
    ((q.linksOn c.stage c.side)[i]? = some l ↔ (p.linksOn c.stage c.side)[i]? = some l)
  shared : ∀ i : Nat, (∃ l ∈ links, (q.linksOn c.stage c.side)[i]? = some l) ↔
    ∃ l ∈ links, (p.linksOn c.stage c.side)[i]? = some l
  perm : links.Nodup → q.linksOn c.stage c.side ~ p.linksOn c.stage c.side
  ordered : links.Nodup → ∃ is, is ~ links.map (p.linksOn c.stage c.side).idxOf ∧
    is.Pairwise (· < ·) ∧ is.map (fun i : Nat => (q.linksOn c.stage c.side)[i]?) = links.map some

/-- A reordering moves only links that are named, at whatever connector and in whatever pipeline; if
none is named twice, none is lost, and they come into their order. -/
theorem reordered_of_reorder {p q : Pipeline} {c : Connector}
    (made : p.reorder c links = .ok q) : p.Reordered c links q := by
  obtain ⟨⟨_, fit⟩, _⟩ := reorder_eq_ok.1 made
  have inside : ∀ l ∈ links, l ∈ p.linksOn c.stage c.side := fun l hl => (fit l hl).1
  obtain ⟨table, frame, lists⟩ := reorder_effect made
  have list : q.linksOn c.stage c.side = rearranged links (p.linksOn c.stage c.side) :=
    (lists c.stage c.side).trans (if_pos ⟨rfl, rfl⟩)
  refine ⟨table, frame, fun key side other => (lists key side).trans (if_neg other), ?_,
    fun i l hl => ?_, fun i => ?_, fun nodup => ?_, fun nodup => ?_⟩
  all_goals rw [list]
  · exact length_place _ _ _
  · exact rearranged_keeps inside hl
  · exact rearranged_shares inside
  · exact rearranged_perm nodup inside
  · exact rearranged_orders inside nodup

def forkOutput : Connector :=
  ⟨"source_2", .output, .entity, 0, true, ""⟩

def toFirst : Link :=
  ⟨"source_2", 0, "first", 0⟩

def toSink : Link :=
  ⟨"source_2", 0, "sink_1", 0⟩

theorem fork_reordered : ∃ q, fork.reorder forkOutput [toSink, toFirst] = .ok q ∧
    fork.Reordered forkOutput [toSink, toFirst] q := by
  obtain ⟨q, made⟩ : ∃ q, fork.reorder forkOutput [toSink, toFirst] = .ok q :=
    ⟨_, reorder_eq_ok.2 ⟨by decide +kernel, rfl⟩⟩
  exact ⟨q, made, reordered_of_reorder made⟩

theorem named_twice_loses : Built Edit.Plain fork ∧ ∃ q,
    fork.reorder forkOutput [toSink, toFirst, toFirst] = .ok q ∧
    fork.linksOn "source_2" .output = [toFirst, toSink] ∧
    q.linksOn "source_2" .output = [toFirst, toFirst] ∧ q.links = [toFirst, toSink] ∧
    ¬q.linksOn "source_2" .output ~ fork.linksOn "source_2" .output := by
  obtain ⟨q, made⟩ : ∃ q, fork.reorder forkOutput [toSink, toFirst, toFirst] = .ok q :=
    ⟨_, reorder_eq_ok.2 ⟨by decide +kernel, rfl⟩⟩
  have before : fork.linksOn "source_2" .output = [toFirst, toSink] := by decide +kernel
  have positions : [toSink, toFirst, toFirst].map [toFirst, toSink].idxOf = [1, 0, 0] := by
    decide
  have twice : rearranged [toSink, toFirst, toFirst] [toFirst, toSink] = [toFirst, toFirst] := by
    rw [rearranged, positions]
    simp [List.mergeSort, place]
  obtain ⟨table, _, lists⟩ := reorder_effect made
  have after : q.linksOn "source_2" .output = [toFirst, toFirst] := by
    rw [lists, if_pos ⟨rfl, rfl⟩]
    exact (congrArg (rearranged _) before).trans twice
  refine ⟨fork_built, q, made, before, after, table.trans (by decide +kernel), fun perm => ?_⟩
  rw [before, after] at perm
  exact absurd (perm.mem_iff.2 (List.mem_cons_of_mem _ List.mem_cons_self)) (by decide)

end Sluice.Pipeline
