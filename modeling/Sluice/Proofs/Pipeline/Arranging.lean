import Sluice.Pipeline.Order
import Sluice.Proofs.Pipeline.Acyclic
import Sluice.Proofs.Pipeline.Joining

/-! Dependency orders. While members are placed, the number of a member is that of the links into it
that are still open, and those without open links have been seen. In the end all members are placed
whose links all come from placed ones, so that without cycles none is left. -/

namespace Sluice.Pipeline

open scoped List

namespace Degrees

def adjust (key : String) (n : Int) (d : Degrees) : Degrees :=
  d.map fun e => if e.1 = key then (e.1, e.2 + n) else e

@[simp] theorem map_fst_adjust (key : String) (n : Int) (d : Degrees) :
    (adjust key n d).map Prod.fst = d.map Prod.fst := by
  simp only [adjust, List.map_map]
  refine List.map_congr_left fun e _ => ?_
  simp only [Function.comp]
  split <;> rfl

theorem adjust_of_not_mem {key : String} {d : Degrees} (h : key ∉ d.map Prod.fst) (n : Int) :
    adjust key n d = d := by
  refine (List.map_congr_left fun e he => if_neg ?_).trans (List.map_id d)
  rintro rfl
  exact h (List.mem_map_of_mem he)

theorem add?_eq {key : String} {d : Degrees} (nodup : (d.map Prod.fst).Nodup)
    (h : key ∈ d.map Prod.fst) (n : Int) :
    ∃ x, (key, x) ∈ d ∧ add? key n d = some (x + n, adjust key n d) := by
  induction d with
  | nil => simp at h
  | cons e r ih =>
    obtain ⟨k, x⟩ := e
    obtain ⟨hnew, hr⟩ := List.nodup_cons.1 nodup
    by_cases hk : k = key
    · subst hk
      have hrest : adjust k n r = r := adjust_of_not_mem hnew n
      refine ⟨x, List.mem_cons_self, ?_⟩
      rw [adjust] at hrest
      simp [add?, adjust, hrest]
    · have hmem : key ∈ r.map Prod.fst := (List.mem_cons.1 h).resolve_left (Ne.symm hk)
      obtain ⟨y, hy, hadd⟩ := ih hr hmem
      refine ⟨y, List.mem_cons_of_mem _ hy, ?_⟩
      simp [add?, hk, hadd, adjust]

end Degrees

variable {p : Pipeline} {closed : Link → Bool} {d : Degrees} {seen : List String}

def openInto (p : Pipeline) (closed : Link → Bool) (key : String) : List Link :=
  p.links.filter fun l => l.target = key && !closed l

structure Counts (p : Pipeline) (closed : Link → Bool) (d : Degrees) (seen : List String) :
    Prop where
  keys : d.map Prod.fst = p.keys
  degrees : ∀ e ∈ d, e.2 = (openInto p closed e.1).length
  nodup : seen.Nodup
  mem_seen : ∀ key, key ∈ seen ↔ key ∈ p.keys ∧ openInto p closed key = []

theorem openInto_eq_nil {key : String} :
    openInto p closed key = [] ↔ ∀ l ∈ p.links, l.target = key → closed l = true := by
  simp [openInto, List.filter_eq_nil_iff]

def closeLink (closed : Link → Bool) (l : Link) : Link → Bool :=
  fun k => closed k || k = l

theorem openInto_closeLink_of_ne {l : Link} {key : String} (h : l.target ≠ key) :
    openInto p (closeLink closed l) key = openInto p closed key := by
  refine List.filter_congr fun k _ => ?_
  by_cases hk : k = l
  · subst hk
    simp [h]
  · simp [closeLink, hk]

theorem length_openInto_closeLink (nodup : p.links.Nodup) {l : Link} (hl : l ∈ p.links)
    (hopen : closed l = false) :
    (openInto p (closeLink closed l) l.target).length + 1 =
      (openInto p closed l.target).length := by
  have hmem : l ∈ openInto p closed l.target := by simp [openInto, hl, hopen]
  have herase : openInto p (closeLink closed l) l.target =
      (openInto p closed l.target).erase l := by
    have hopens : (openInto p closed l.target).Nodup := nodup.filter _
    rw [hopens.erase_eq_filter, openInto, openInto, List.filter_filter]
    refine List.filter_congr fun k _ => ?_
    by_cases hk : k = l <;> simp [closeLink, hk, Bool.and_comm]
  rw [herase, List.length_erase_of_mem hmem]
  have := List.length_pos_of_mem hmem
  omega

theorem Counts.close_one (h : Counts p closed d seen) (hp : p.Sound) {l : Link}
    (hl : l ∈ p.links) (hopen : closed l = false) :
    ∃ n e, Degrees.add? l.target (-1) d = some (n, e) ∧
      (n = 0 ↔ openInto p (closeLink closed l) l.target = []) ∧
      Counts p (closeLink closed l) e (if n = 0 then seen ++ [l.target] else seen) := by
  have hkey : l.target ∈ p.keys := (hp.fits l hl).mem_keys .input
  obtain ⟨x, hx, hadd⟩ := Degrees.add?_eq (h.keys ▸ hp.keys_nodup) (h.keys ▸ hkey) (-1)
  have hlength := length_openInto_closeLink hp.links_nodup hl hopen
  have hdegree := h.degrees _ hx
  simp only at hdegree
  have hzero : x + -1 = 0 ↔ openInto p (closeLink closed l) l.target = [] := by
    rw [← List.length_eq_zero_iff]
    omega
  have hunseen : l.target ∉ seen := by
    rw [h.mem_seen]
    rintro ⟨_, hnil⟩
    rw [hnil] at hlength
    simp at hlength
  refine ⟨_, _, hadd, hzero, (Degrees.map_fst_adjust _ _ _).trans h.keys, fun e he => ?_, ?_,
    fun k => ?_⟩
  · obtain ⟨o, ho, rfl⟩ := List.mem_map.1 he
    have hold := h.degrees o ho
    by_cases hk : o.1 = l.target
    · rw [if_pos hk]
      simp only [hk] at hold ⊢
      omega
    · rw [if_neg hk, openInto_closeLink_of_ne (Ne.symm hk)]
      exact hold
  · split
    · exact List.nodup_append'.2 ⟨h.nodup, by simp, by simpa using hunseen⟩
    · exact h.nodup
  · by_cases hk : k = l.target
    · subst hk
      by_cases hz : x + -1 = 0
      · simp [hz, hkey, hzero.1 hz]
      · simp [hz, hunseen, hkey, mt hzero.2 hz]
    · rw [openInto_closeLink_of_ne (Ne.symm hk), ← h.mem_seen]
      by_cases hz : x + -1 = 0 <;> simp [hz, hk]

def freed (p : Pipeline) (closed : Link → Bool) (ls : List Link) : List String :=
  (ls.map Link.target).dedup.filter fun key =>
    openInto p (fun l => closed l || ls.contains l) key = []

theorem closeLink_contains (closed : Link → Bool) (l : Link) (r : List Link) :
    (fun k => closeLink closed l k || r.contains k) =
      fun k => closed k || (l :: r).contains k := by
  funext k
  simp [closeLink, Bool.or_assoc]

theorem freed_cons {l : Link} {r : List Link}
    (inside : ∀ k ∈ r, k ∈ p.links ∧ closeLink closed l k = false) :
    freed p closed (l :: r) =
      (if openInto p (closeLink closed l) l.target = [] then [l.target] else []) ++
        freed p (closeLink closed l) r := by
  rw [freed, freed, closeLink_contains, List.map_cons]
  by_cases later : l.target ∈ r.map Link.target
  · obtain ⟨k, hk, htarget⟩ := List.mem_map.1 later
    obtain ⟨hlinks, hopen⟩ := inside k hk
    have waits : openInto p (closeLink closed l) l.target ≠ [] := fun hnil => by
      simp [openInto_eq_nil.1 hnil k hlinks htarget] at hopen
    rw [List.dedup_cons_of_mem later, if_neg waits, List.nil_append]
  · have last : openInto p (fun k => closed k || (l :: r).contains k) l.target = [] ↔
        openInto p (closeLink closed l) l.target = [] := by
      rw [openInto_eq_nil, openInto_eq_nil]
      refine forall_congr' fun k => imp_congr_right fun _ => imp_congr_right fun htarget => ?_
      have hk : k ∉ r := fun hk => later (htarget ▸ List.mem_map_of_mem hk)
      simp [closeLink, hk]
    rw [List.dedup_cons_of_notMem later, List.filter_cons]
    simp only [last, decide_eq_true_eq]
    split <;> rfl

theorem Counts.close (h : Counts p closed d seen) (hp : p.Sound) {ls : List Link}
    (nodup : ls.Nodup) (inside : ∀ l ∈ ls, l ∈ p.links ∧ closed l = false) (queue : List String) :
    ∃ e, Pipeline.close ls d queue = .ok (e, queue ++ freed p closed ls) ∧
      Counts p (fun l => closed l || ls.contains l) e (seen ++ freed p closed ls) := by
  induction ls generalizing closed d seen queue with
  | nil => exact ⟨d, by simp [Pipeline.close, freed, pure, Except.pure], by simpa [freed] using h⟩
  | cons l r ih =>
    obtain ⟨hnew, hr⟩ := List.nodup_cons.1 nodup
    obtain ⟨hl, hopen⟩ := inside l (by simp)
    obtain ⟨n, e, hadd, hzero, hcounts⟩ := h.close_one hp hl hopen
    have hrest : ∀ k ∈ r, k ∈ p.links ∧ closeLink closed l k = false := by
      intro k hk
      obtain ⟨hlinks, hkopen⟩ := inside k (by simp [hk])
      have hne : k ≠ l := by
        rintro rfl
        exact hnew hk
      exact ⟨hlinks, by simp [closeLink, hkopen, hne]⟩
    obtain ⟨e', hclose, hfinal⟩ :=
      ih hcounts hr hrest (if n = 0 then queue ++ [l.target] else queue)
    rw [closeLink_contains] at hfinal
    simp only [freed_cons hrest, ← hzero]
    refine ⟨e', ?_, ?_⟩
    · rw [Pipeline.close, hadd]
      simp only [hclose]
      split <;> simp
    · split at hfinal <;> simp_all

def closedBy (done : List String) (l : Link) : Bool :=
  done.contains l.source

def DependencyOrder (p : Pipeline) : List String → List String → Prop
  | _, [] => True
  | done, key :: r =>
    (∀ l ∈ p.links, l.target = key → l.source ∈ done) ∧ DependencyOrder p (done ++ [key]) r

theorem countInto_eq {ls : List Link} {d : Degrees} (nodup : (d.map Prod.fst).Nodup)
    (h : ∀ l ∈ ls, l.target ∈ d.map Prod.fst) :
    countInto ls d = .ok (d.map fun e => (e.1, e.2 + (ls.countP fun l => l.target = e.1))) := by
  induction ls generalizing d with
  | nil => simp [countInto, pure, Except.pure]
  | cons l r ih =>
    obtain ⟨x, _, hadd⟩ := Degrees.add?_eq nodup (h l (by simp)) 1
    rw [countInto, hadd]
    simp only
    rw [ih (by rwa [Degrees.map_fst_adjust])
      fun k hk => by rw [Degrees.map_fst_adjust]; exact h k (by simp [hk])]
    rw [Degrees.adjust, List.map_map]
    congr 1
    refine List.map_congr_left fun e _ => ?_
    by_cases he : e.1 = l.target
    · simp only [Function.comp, he, if_true, List.countP_cons, decide_true]
      rw [Prod.mk.injEq]
      exact ⟨rfl, by push_cast; omega⟩
    · simp [he, Ne.symm he]

theorem exists_counts (hp : p.Sound) :
    ∃ d, countInto p.links (p.keys.map fun key => (key, 0)) = .ok d ∧
      Counts p (closedBy []) d ((d.filter fun e => e.2 == 0).map Prod.fst) := by
  let count (key : String) : Nat := p.links.countP fun l => l.target = key
  have hfst : ∀ g : String → Int, (p.keys.map fun key => (key, g key)).map Prod.fst = p.keys := by
    intro g
    rw [List.map_map]
    exact List.map_id _
  have hcount : countInto p.links (p.keys.map fun key => (key, 0)) =
      .ok (p.keys.map fun key => (key, (count key : Int))) := by
    rw [countInto_eq (by rw [hfst]; exact hp.keys_nodup)
      fun l hl => by rw [hfst]; exact (hp.fits l hl).mem_keys .input]
    simp [count, Function.comp_def]
  have hopen : ∀ key, (openInto p (closedBy []) key).length = count key := by
    intro key
    simp only [count, List.countP_eq_length_filter]
    simp [openInto, closedBy]
  refine ⟨_, hcount, hfst _, fun e he => ?_, ?_, fun key => ?_⟩
  · obtain ⟨key, _, rfl⟩ := List.mem_map.1 he
    rw [hopen]
  · refine List.Nodup.sublist (List.filter_sublist.map _) ?_
    rw [hfst]
    exact hp.keys_nodup
  · rw [← List.length_eq_zero_iff, hopen]
    simp

theorem openInto_congr {other : Link → Bool} (same : ∀ l ∈ p.links, closed l = other l) :
    openInto p other = openInto p closed := by
  funext key
  exact List.filter_congr fun l hl => by rw [same l hl]

theorem Counts.congr (h : Counts p closed d seen) {other : Link → Bool}
    (same : ∀ l ∈ p.links, closed l = other l) : Counts p other d seen := by
  have hopen := openInto_congr same
  exact ⟨h.keys, hopen ▸ h.degrees, h.nodup, hopen ▸ h.mem_seen⟩

theorem closedBy_place (hp : p.Sound) (done : List String) (key : String) {l : Link}
    (hl : l ∈ p.links) :
    (closedBy done l || (p.linksOn key .output).contains l) = closedBy (done ++ [key]) l := by
  have hiff : l ∈ p.linksOn key .output ↔ l.source = key := by
    rw [hp.mem_linksOn]
    exact and_iff_right hl
  rw [Bool.eq_iff_iff]
  simp [closedBy, hiff]

theorem Counts.fresh {done queue : List String} {key : String}
    (h : Counts p closed d (done ++ key :: queue)) : key ∉ done := fun hmem =>
  (List.nodup_append'.1 h.nodup).2.2 hmem List.mem_cons_self

theorem Counts.place (hp : p.Sound) {done queue : List String} {key : String}
    (h : Counts p (closedBy done) d (done ++ key :: queue)) :
    ∃ e, Pipeline.close (p.linksOn key .output) d queue =
        .ok (e, queue ++ freed p (closedBy done) (p.linksOn key .output)) ∧
      Counts p (closedBy (done ++ [key])) e
        (done ++ [key] ++ (queue ++ freed p (closedBy done) (p.linksOn key .output))) := by
  obtain ⟨e, hclose, hcounts⟩ := h.close hp (hp.linksOn_nodup key .output)
    (fun l hl => by
      obtain ⟨hlinks, hsource⟩ := hp.mem_linksOn.1 hl
      refine ⟨hlinks, ?_⟩
      rw [closedBy, show l.source = key from hsource]
      simpa using h.fresh) queue
  refine ⟨e, hclose, ?_⟩
  rw [List.append_assoc, List.singleton_append, ← List.cons_append, ← List.append_assoc]
  exact hcounts.congr fun l hl => closedBy_place hp done key hl

theorem arrangeFrom_eq (hp : p.Sound) (done : List String) {queue : List String}
    (h : Counts p (closedBy done) d (done ++ queue)) :
    ∃ placed e, p.arrangeFrom d queue = .ok placed ∧ DependencyOrder p done placed ∧
      Counts p (closedBy (done ++ placed)) e (done ++ placed) := by
  fun_induction p.arrangeFrom d queue generalizing done with
  | case1 d => exact ⟨[], d, rfl, trivial, by simpa using h⟩
  | case2 d key queue e he =>
    obtain ⟨e', hclose, _⟩ := h.place hp
    rw [he] at hclose
    cases hclose
  | case3 d key queue e rest he ih =>
    obtain ⟨e', hclose, hcounts⟩ := h.place hp
    rw [he, Except.ok.injEq, Prod.mk.injEq] at hclose
    obtain ⟨rfl, rfl⟩ := hclose
    obtain ⟨placed, e', hplaced, hordered, hfinal⟩ := ih (done ++ [key]) hcounts
    refine ⟨key :: placed, e', by rw [hplaced]; rfl, ⟨fun l hl ht => ?_, hordered⟩, ?_⟩
    · have hseen := ((h.mem_seen key).1 (by simp)).2
      simpa [closedBy] using openInto_eq_nil.1 hseen l hl ht
    · simpa using hfinal

theorem DependencyOrder.source_mem {done keys : List String} (h : DependencyOrder p done keys)
    {before rest : List String} {key : String} (split : keys = before ++ key :: rest) :
    ∀ l ∈ p.links, l.target = key → l.source ∈ done ++ before := by
  induction before generalizing done keys with
  | nil =>
    subst split
    simpa using h.1
  | cons k r ih =>
    subst split
    simpa using ih h.2 rfl

theorem DependencyOrder.topological {keys : List String} (h : DependencyOrder p [] keys) :
    Topological p.links keys :=
  fun _ _ _ split => h.source_mem split

theorem arrange_outcome (hp : p.Sound) :
    ∃ placed left, placed ++ left ~ p.keys ∧ DependencyOrder p [] placed ∧ left <+ p.keys ∧
      (∀ key, key ∈ left ↔ Trapped p.links key) ∧
      p.arrange = if left = [] then .ok placed else .error (.cycle left) := by
  obtain ⟨d, hd, hcounts⟩ := exists_counts hp
  obtain ⟨placed, e, hplaced, hordered, hfinal⟩ := arrangeFrom_eq hp [] hcounts
  rw [List.nil_append] at hfinal
  have within : ∀ key ∈ placed, key ∈ p.keys := fun key hkey => ((hfinal.mem_seen key).1 hkey).1
  have perm : placed ++ (p.keys.filter fun key => !placed.contains key) ~ p.keys := by
    refine (List.perm_ext_iff_of_nodup ?_ hp.keys_nodup).2 fun key => ?_
    · refine List.nodup_append'.2 ⟨hfinal.nodup, hp.keys_nodup.filter _, fun key hkey hleft => ?_⟩
      simp [hkey] at hleft
    · by_cases hkey : key ∈ placed
      · simp [hkey, within key hkey]
      · simp [hkey]
  have waits : ∀ key ∈ p.keys.filter fun key => !placed.contains key,
      ∃ l ∈ p.links, l.target = key ∧ l.source ∈ p.keys.filter fun key => !placed.contains key := by
    intro key hkey
    obtain ⟨hkey, hout⟩ : key ∈ p.keys ∧ key ∉ placed := by simpa using hkey
    have hopen : openInto p (closedBy placed) key ≠ [] := fun hnil =>
      hout ((hfinal.mem_seen key).2 ⟨hkey, hnil⟩)
    obtain ⟨l, hl, htarget, hsource⟩ : ∃ l ∈ p.links, l.target = key ∧ l.source ∉ placed := by
      simpa [openInto_eq_nil, closedBy] using hopen
    have hkeys : l.source ∈ p.keys := (hp.fits l hl).mem_keys .output
    exact ⟨l, hl, htarget, by simp [hkeys, hsource]⟩
  refine ⟨placed, _, perm, hordered, List.filter_sublist, fun key => ?_, ?_⟩
  · exact hordered.topological.mem_left_iff waits fun l hl =>
      perm.mem_iff.2 ((hp.fits l hl).mem_keys .input)
  · have hlength : placed.length = p.size ↔
        (p.keys.filter fun key => !placed.contains key) = [] := by
      have := perm.length_eq
      rw [← List.length_eq_zero_iff, size, ← List.length_map Member.key]
      simp only [List.length_append] at this
      change placed.length = p.keys.length ↔ _
      omega
    simp only [arrange, hd, ok_bind, hplaced, hlength]
    rfl

theorem arrange_of_acyclic (hp : p.Sound) (acyclic : Acyclic p.links) :
    ∃ placed, p.arrange = .ok placed ∧ placed ~ p.keys ∧ DependencyOrder p [] placed := by
  obtain ⟨placed, left, perm, ordered, _, trapped, result⟩ := arrange_outcome hp
  obtain rfl : left = [] := List.eq_nil_iff_forall_not_mem.2 fun key hkey =>
    acyclic_iff.1 acyclic key ((trapped key).1 hkey)
  exact ⟨placed, result, by simpa using perm, ordered⟩

/-- What arranging makes of a pipeline: an order of all members in which every link leads forward,
or, when there is a cycle, the members on one or behind one, as they stand in the pipeline. The
pipeline stays what it is; the order is given out beside it. -/
structure Arranged (p : Pipeline) : Prop where
  returns : (∃ ids, p.arrange = .ok ids) ↔ Acyclic p.links
  order : ∀ ids, p.arrange = .ok ids → ids ~ p.keys ∧ Topological p.links ids
  trapped : ¬Acyclic p.links → ∃ ids, ids <+ p.keys ∧ (∀ key, key ∈ ids ↔ Trapped p.links key) ∧
    p.arrange = .error (.cycle ids)

theorem Sound.arrange_or_cycle (hp : p.Sound) : p.Arranged := by
  obtain ⟨placed, left, perm, ordered, sub, trapped, result⟩ := arrange_outcome hp
  have none_left : left = [] ↔ Acyclic p.links := by
    rw [acyclic_iff, List.eq_nil_iff_forall_not_mem]
    exact forall_congr' fun key => not_congr (trapped key)
  by_cases acyclic : Acyclic p.links
  · obtain rfl := none_left.2 acyclic
    rw [if_pos rfl] at result
    rw [List.append_nil] at perm
    refine ⟨⟨fun _ => acyclic, fun _ => ⟨placed, result⟩⟩, fun ids hids => ?_, absurd acyclic⟩
    obtain rfl : placed = ids := Except.ok.inj (result.symm.trans hids)
    exact ⟨perm, ordered.topological⟩
  · rw [if_neg (mt none_left.1 acyclic)] at result
    have fails : ∀ ids, p.arrange ≠ .ok ids := fun ids hids => by
      rw [result] at hids
      cases hids
    exact ⟨⟨fun ⟨ids, hids⟩ => absurd hids (fails ids), fun h => absurd h acyclic⟩,
      fun ids hids => absurd hids (fails ids), fun _ => ⟨left, sub, trapped, result⟩⟩

/-- Whatever regular edits have made of a pipeline, it is arranged in a dependency order exactly if
it has no cycle. -/
theorem Built.arranged (b : Built Edit.Regular p) : p.Arranged :=
  b.sound.arrange_or_cycle

theorem fork_arranged : fork.Arranged :=
  Built.arranged fork_built.regular

end Sluice.Pipeline
