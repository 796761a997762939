import Sluice.Proofs.Pipeline.Effect

/-! Putting links at positions: what a reordering makes of the list that a stage has of its
links. -/

namespace Sluice.Pipeline

open scoped List

theorem set_append_old {listed : List Link} {i : Nat} {old : Link} (h : listed[i]? = some old)
    (l : Link) : listed.set i l ++ [old] ~ listed ++ [l] := by
  induction listed generalizing i with
  | nil => simp at h
  | cons a r ih =>
    cases i with
    | zero =>
      simp only [List.getElem?_cons_zero, Option.some.injEq] at h
      subst h
      simp only [List.set_cons_zero, List.cons_append]
      calc
        l :: (r ++ [a]) ~ l :: a :: r := (List.perm_append_singleton a r).cons l
        _ ~ a :: l :: r := .swap a l r
        _ ~ a :: (r ++ [l]) := (List.perm_append_singleton l r).symm.cons a
    | succ i => simpa using ih h

theorem place_append_old {is : List Nat} {ls listed : List Link} (nodup : is.Nodup)
    (inside : ∀ i ∈ is, i < listed.length) (len : is.length = ls.length) :
    place is ls listed ++ (is.filterMap fun i => listed[i]?) ~ listed ++ ls := by
  induction is generalizing ls listed with
  | nil =>
    cases ls with
    | nil => simp [place]
    | cons l ls => simp at len
  | cons i is ih =>
    cases ls with
    | nil => simp at len
    | cons l ls =>
      obtain ⟨hi, hn⟩ := List.nodup_cons.1 nodup
      obtain ⟨old, hold⟩ : ∃ old, listed[i]? = some old :=
        ⟨_, List.getElem?_eq_getElem (inside i (by simp))⟩
      have same : is.filterMap (fun j => (listed.set i l)[j]?) =
          is.filterMap fun j => listed[j]? := by
        refine List.filterMap_congr fun j hj => ?_
        rw [List.getElem?_set_ne]
        rintro rfl
        exact hi hj
      have rest : place is ls (listed.set i l) ++ is.filterMap (fun j => (listed.set i l)[j]?) ~
          listed.set i l ++ ls :=
        ih hn (fun j hj => by simpa using inside j (by simp [hj])) (by simpa using len)
      rw [same] at rest
      simp only [place, List.filterMap_cons, hold]
      calc
        place is ls (listed.set i l) ++ old :: is.filterMap (fun j => listed[j]?) ~
            old :: (place is ls (listed.set i l) ++ is.filterMap fun j => listed[j]?) :=
          List.perm_middle
        _ ~ old :: (listed.set i l ++ ls) := rest.cons _
        _ ~ (listed.set i l ++ [old]) ++ ls := by
          simpa using (List.perm_middle : listed.set i l ++ old :: ls ~ _).symm
        _ ~ (listed ++ [l]) ++ ls := (set_append_old hold l).append_right ls
        _ ~ listed ++ l :: ls := by simp

theorem place_perm {is : List Nat} {ls listed : List Link} (nodup : ls.Nodup)
    (inside : ∀ l ∈ ls, l ∈ listed) (positions : is ~ ls.map listed.idxOf) :
    place is ls listed ~ listed := by
  have inj : ∀ l ∈ ls, ∀ k ∈ ls, listed.idxOf l = listed.idxOf k → l = k := fun l hl k hk h =>
    (List.idxOf_inj (inside l hl)).1 h
  have hn : is.Nodup := positions.nodup_iff.2 ((List.nodup_map_iff_inj_on nodup).2 inj)
  have old : (is.filterMap fun i => listed[i]?) ~ ls := by
    refine (positions.filterMap _).trans ?_
    rw [List.filterMap_map]
    have : ∀ l ∈ ls, listed[listed.idxOf l]? = some l := fun l hl => by
      rw [List.getElem?_eq_getElem (List.idxOf_lt_length_of_mem (inside l hl)), List.getElem_idxOf]
    rw [show ls.filterMap ((fun i => listed[i]?) ∘ listed.idxOf) = ls.filterMap some from
      List.filterMap_congr this, List.filterMap_some]
  have lt : ∀ i ∈ is, i < listed.length := by
    intro i hi
    obtain ⟨l, hl, rfl⟩ := List.mem_map.1 (positions.mem_iff.1 hi)
    exact List.idxOf_lt_length_of_mem (inside l hl)
  have len : is.length = ls.length := by simpa using positions.length_eq
  have both := place_append_old hn lt len
  exact (List.perm_append_right_iff ls).1 ((old.symm.append_left _).trans both)

theorem positionOf_eq_ok {c : Connector} {listed : List Link} {l : Link} {i : Nat} :
    positionOf c listed l = .ok i ↔
      (l ∈ listed ∧ l.slotOn c.side = c.slot) ∧ listed.idxOf l = i := by
  unfold positionOf
  by_cases hl : l ∈ listed
  · by_cases hs : l.slotOn c.side = c.slot <;> simp [hl, hs]
  · simp [hl]

theorem mapM_positionOf {c : Connector} {listed links : List Link} {is : List Nat} :
    links.mapM (positionOf c listed) = .ok is ↔
      (∀ l ∈ links, l ∈ listed ∧ l.slotOn c.side = c.slot) ∧ links.map listed.idxOf = is := by
  simp only [mapM_eq_ok, positionOf_eq_ok]
  induction links generalizing is with
  | nil => simp [eq_comm]
  | cons l r ih =>
    simp only [List.forall₂_cons_left_iff, ih, List.mem_cons, forall_eq_or_imp, List.map_cons]
    constructor
    · rintro ⟨i, js, ⟨hl, rfl⟩, ⟨hr, rfl⟩, rfl⟩
      exact ⟨⟨hl, hr⟩, rfl⟩
    · rintro ⟨⟨hl, hr⟩, rfl⟩
      exact ⟨_, _, ⟨hl, rfl⟩, ⟨hr, rfl⟩, rfl⟩

def rearranged (links listed : List Link) : List Link :=
  place ((links.map listed.idxOf).mergeSort (· ≤ ·)) links listed

theorem rearranged_perm {links listed : List Link} (nodup : links.Nodup)
    (inside : ∀ l ∈ links, l ∈ listed) : rearranged links listed ~ listed :=
  place_perm nodup inside (List.mergeSort_perm _ _)

theorem place_subset {is : List Nat} {ls listed : List Link} (inside : ls ⊆ listed) :
    place is ls listed ⊆ listed := by
  suffices ∀ into, into ⊆ listed → place is ls into ⊆ listed from this listed fun _ h => h
  intro into sub
  induction is generalizing ls into with
  | nil => exact sub
  | cons i is ih =>
    cases ls with
    | nil => exact sub
    | cons l ls =>
      obtain ⟨hl, hls⟩ := List.cons_subset.1 inside
      refine ih hls (into.set i l) fun k hk => ?_
      rcases List.mem_or_eq_of_mem_set hk with hk | rfl
      · exact sub hk
      · exact hl

section

variable {α : Type} (rank : α → Nat)

theorem rank_total (a b : α) : (decide (rank a ≤ rank b) || decide (rank b ≤ rank a)) = true := by
  simpa using Nat.le_total (rank a) (rank b)

theorem rank_trans (a b c : α) : decide (rank a ≤ rank b) = true →
    decide (rank b ≤ rank c) = true → decide (rank a ≤ rank c) = true := by
  simpa using fun h h' => Nat.le_trans h h'

theorem pairwise_mergeSort_rank (as : List α) :
    (as.mergeSort fun a b => rank a ≤ rank b).Pairwise fun a b => rank a ≤ rank b := by
  have sorted := List.pairwise_mergeSort (rank_trans rank) (rank_total rank) as
  exact sorted.imp fun h => of_decide_eq_true h

theorem filter_mergeSort (as : List α) (n : Nat) :
    ((as.mergeSort fun a b => rank a ≤ rank b).filter fun a => rank a = n) =
      as.filter fun a => rank a = n := by
  have level : (as.filter fun a => rank a = n).Pairwise fun a b =>
      decide (rank a ≤ rank b) = true := by
    refine List.pairwise_of_forall_mem_list fun a ha b hb => decide_eq_true ?_
    have ha := of_decide_eq_true (List.mem_filter.1 ha).2
    have hb := of_decide_eq_true (List.mem_filter.1 hb).2
    exact Nat.le_of_eq (ha.trans hb.symm)
  have sub := (List.sublist_mergeSort (rank_trans rank) (rank_total rank) level
    List.filter_sublist).filter fun a => rank a = n
  simp only [List.filter_filter, Bool.and_self] at sub
  exact (sub.eq_of_length ((List.mergeSort_perm as _).filter _).length_eq.symm).symm

theorem mergeSort_eq {as bs : List α} (perm : as ~ bs)
    (sorted : bs.Pairwise fun a b => rank a < rank b) :
    as.mergeSort (fun a b => rank a ≤ rank b) = bs := by
  have nodup : (bs.map rank).Nodup := List.pairwise_map.2 (sorted.imp fun h => Nat.ne_of_lt h)
  have same := (List.mergeSort_perm as fun a b => decide (rank a ≤ rank b)).trans perm
  refine same.eq_of_pairwise ?_ (pairwise_mergeSort_rank rank as) (sorted.imp Nat.le_of_lt)
  intro a b ha hb hab hba
  exact List.inj_on_of_nodup_map nodup (same.mem_iff.1 ha) hb (Nat.le_antisymm hab hba)

end

variable {keep : Link → Bool}

theorem idxOf_filter_cons {l : Link} {r : List Link} (h : l ∉ r) :
    (r.filter keep).map (l :: r).idxOf = ((r.filter keep).map r.idxOf).map (· + 1) := by
  rw [List.map_map]
  refine List.map_congr_left fun k hk => ?_
  have hne : l ≠ k := by
    rintro rfl
    exact h (List.mem_filter.1 hk).1
  rw [List.idxOf_cons_ne _ hne]
  rfl

theorem idxOf_filter_sorted (keep : Link → Bool) {listed : List Link} (nodup : listed.Nodup) :
    ((listed.filter keep).map listed.idxOf).Pairwise (· < ·) := by
  induction listed with
  | nil => exact .nil
  | cons l r ih =>
    obtain ⟨hnew, hr⟩ := List.nodup_cons.1 nodup
    have hrest := (ih hr).map (· + 1) fun a b h => Nat.succ_lt_succ h
    rw [← idxOf_filter_cons hnew] at hrest
    rw [List.filter_cons]
    split
    · rw [List.map_cons, List.idxOf_cons_self]
      refine List.pairwise_cons.2 ⟨fun i hi => ?_, hrest⟩
      rw [idxOf_filter_cons hnew] at hi
      obtain ⟨j, _, rfl⟩ := List.mem_map.1 hi
      exact Nat.succ_pos j
    · exact hrest

theorem place_succ (is : List Nat) (ls : List Link) (l : Link) (r : List Link) :
    place (is.map (· + 1)) ls (l :: r) = l :: place is ls r := by
  induction is generalizing ls r with
  | nil => simp [place]
  | cons i is ih =>
    cases ls with
    | nil => simp [place]
    | cons k ks => simp only [List.map_cons, place, List.set_cons_succ, ih]

theorem filter_place {links listed : List Link} (nodup : listed.Nodup)
    (kind : ∀ l ∈ links, keep l = true) (len : links.length = (listed.filter keep).length) :
    (place ((listed.filter keep).map listed.idxOf) links listed).filter keep = links ∧
      ∀ other : Link → Bool, (∀ l, other l = true → keep l = false) →
        (place ((listed.filter keep).map listed.idxOf) links listed).filter other =
          listed.filter other := by
  induction listed generalizing links with
  | nil =>
    obtain rfl : links = [] := List.eq_nil_of_length_eq_zero len
    exact ⟨rfl, fun _ _ => rfl⟩
  | cons l r ih =>
    obtain ⟨hnew, hr⟩ := List.nodup_cons.1 nodup
    by_cases hl : keep l = true
    · rw [List.filter_cons_of_pos hl] at len ⊢
      cases links with
      | nil => simp at len
      | cons k ks =>
        have hk := kind k (by simp)
        obtain ⟨hsame, hother⟩ :=
          ih hr (fun j (hj : j ∈ ks) => kind j (by simp [hj])) (by simpa using len)
        rw [List.map_cons, List.idxOf_cons_self, idxOf_filter_cons hnew, place, List.set_cons_zero,
          place_succ]
        refine ⟨by rw [List.filter_cons_of_pos hk, hsame], fun other hdiff => ?_⟩
        have hnot : ∀ j, keep j = true → other j = false := fun j hj => by
          by_contra h
          have := hdiff j (by simpa using h)
          rw [hj] at this
          cases this
        rw [List.filter_cons_of_neg (by simp [hnot k hk]),
          List.filter_cons_of_neg (by simp [hnot l hl]), hother other hdiff]
    · rw [List.filter_cons_of_neg hl] at len ⊢
      obtain ⟨hsame, hother⟩ := ih hr kind len
      rw [idxOf_filter_cons hnew, place_succ]
      refine ⟨by rw [List.filter_cons_of_neg hl, hsame], fun other hdiff => ?_⟩
      rw [List.filter_cons, List.filter_cons, hother other hdiff]

theorem filter_rearranged {links listed : List Link} (nodup : listed.Nodup)
    (perm : links ~ listed.filter keep) :
    (rearranged links listed).filter keep = links ∧
      ∀ other : Link → Bool, (∀ l, other l = true → keep l = false) →
        (rearranged links listed).filter other = listed.filter other := by
  have hsort : (links.map listed.idxOf).mergeSort (· ≤ ·) =
      (listed.filter keep).map listed.idxOf :=
    mergeSort_eq id (perm.map _) (idxOf_filter_sorted keep nodup)
  rw [rearranged, hsort]
  exact filter_place nodup (fun l hl => (List.mem_filter.1 (perm.mem_iff.1 hl)).2) perm.length_eq

theorem reorder_eq_ok {p q : Pipeline} {c : Connector} {links : List Link} :
    p.reorder c links = .ok q ↔
      (c.stage ∈ p.keys ∧
        ∀ l ∈ links, l ∈ p.linksOn c.stage c.side ∧ l.slotOn c.side = c.slot) ∧
      p.modify c.stage (fun m =>
        m.setLinksOn c.side (rearranged links (p.linksOn c.stage c.side))) = q := by
  unfold reorder
  simp only [bind_eq_ok, find_eq_ok_iff, pure_eq_ok, mapM_positionOf]
  constructor
  · rintro ⟨m, hm, is, ⟨hl, rfl⟩, rfl⟩
    have on : p.linksOn c.stage c.side = m.linksOn c.side := by simp [linksOn, hm]
    rw [on]
    exact ⟨⟨mem_keys_of_member? hm, hl⟩, rfl⟩
  · rintro ⟨⟨hk, hl⟩, rfl⟩
    cases hm : p.member? c.stage with
    | none => exact absurd hk (member?_eq_none_iff.1 hm)
    | some m =>
      have on : p.linksOn c.stage c.side = m.linksOn c.side := by simp [linksOn, hm]
      rw [on] at hl ⊢
      exact ⟨m, rfl, _, ⟨hl, rfl⟩, rfl⟩

theorem reorder_effect {p q : Pipeline} {c : Connector} {links : List Link}
    (h : p.reorder c links = .ok q) :
    q.links = p.links ∧ q.frame = p.frame ∧ ∀ key side, q.linksOn key side =
      if key = c.stage ∧ side = c.side then rearranged links (p.linksOn c.stage c.side)
      else p.linksOn key side := by
  obtain ⟨⟨hk, _⟩, rfl⟩ := reorder_eq_ok.1 h
  refine ⟨rfl, frame_modify _ _ fun m => m.bare_setLinksOn _ _, fun key side => ?_⟩
  rw [linksOn_modify_setLinksOn]
  cases hm : p.member? c.stage with
  | none => exact absurd hk (member?_eq_none_iff.1 hm)
  | some m => rfl

theorem shrinks_reorder {p q : Pipeline} {c : Connector} {links : List Link}
    (h : p.reorder c links = .ok q) : p.Shrinks q := by
  obtain ⟨_, hframe, hlists⟩ := reorder_effect h
  refine ⟨hframe, fun key side => ?_⟩
  rw [hlists]
  split
  · rename_i hs
    obtain ⟨rfl, rfl⟩ := hs
    exact place_subset fun l hl => ((reorder_eq_ok.1 h).1.2 l hl).1
  · exact List.Subset.refl _

end Sluice.Pipeline
