import Mathlib.Data.Fintype.EquivFin
import Mathlib.Order.WellFounded
import Sluice.Pipeline.Link

/-! Links with and without cycles. Without cycles, among any stages there is one into which no link
leads from the others. When stages are put in an order one by one, each after the sources of the
links into it, those that are left in the end are the stages on a cycle or behind one. -/

namespace Sluice

def Leads (links : List Link) (a b : String) : Prop :=
  ∃ l ∈ links, l.source = a ∧ l.target = b

/-- No way along the links comes back to where it started. -/
def Acyclic (links : List Link) : Prop :=
  ∀ key, ¬Relation.TransGen (Leads links) key key

namespace Acyclic

variable {links : List Link}

theorem of_rank (rank : String → Nat) (h : ∀ l ∈ links, rank l.source < rank l.target) :
    Acyclic links := by
  have up : ∀ a b, Relation.TransGen (Leads links) a b → rank a < rank b := by
    intro a b hab
    induction hab with
    | single hl =>
      obtain ⟨l, hl, rfl, rfl⟩ := hl
      exact h l hl
    | tail _ hl ih =>
      obtain ⟨l, hl, rfl, rfl⟩ := hl
      exact ih.trans (h l hl)
  exact fun key hkey => Nat.lt_irrefl _ (up key key hkey)

theorem mono {more : List Link} (h : Acyclic more) (sub : links ⊆ more) : Acyclic links := by
  have le : Leads links ≤ Leads more := by
    rintro a b ⟨l, hl, hs, ht⟩
    exact ⟨l, sub hl, hs, ht⟩
  exact fun key hkey => h key (Relation.TransGen.mono le key key hkey)

theorem exists_first (h : Acyclic links) {keys : List String} (hne : keys ≠ []) :
    ∃ key ∈ keys, ∀ l ∈ links, l.target = key → l.source ∉ keys := by
  let way (a b : { key // key ∈ keys }) : Prop := Relation.TransGen (Leads links) a b
  have : IsTrans _ way := ⟨fun _ _ _ => Relation.TransGen.trans⟩
  have : Std.Irrefl way := ⟨fun a => h a⟩
  have wf : WellFounded way := Finite.wellFounded_of_trans_of_irrefl way
  obtain ⟨key, hkey⟩ := List.exists_mem_of_ne_nil keys hne
  obtain ⟨first, _, hfirst⟩ := wf.has_min Set.univ ⟨⟨key, hkey⟩, trivial⟩
  refine ⟨first, first.2, fun l hl ht hs => ?_⟩
  exact hfirst ⟨l.source, hs⟩ trivial (.single ⟨l, hl, rfl, ht⟩)

end Acyclic

/-- The stage lies on a cycle of the links, or behind one. -/
def Trapped (links : List Link) (id : String) : Prop :=
  ∃ start, Relation.TransGen (Leads links) start start ∧
    Relation.ReflTransGen (Leads links) start id

def Topological (links : List Link) (ids : List String) : Prop :=
  ∀ before id rest, ids = before ++ id :: rest → ∀ l ∈ links, l.target = id → l.source ∈ before

section

variable {links : List Link} {id : String} {ids left : List String}

theorem acyclic_iff : Acyclic links ↔ ∀ id, ¬Trapped links id := by
  constructor
  · rintro h id ⟨start, cycle, -⟩
    exact h start cycle
  · exact fun h key cycle => h key ⟨key, cycle, .refl⟩

theorem Trapped.exists_link (h : Trapped links id) :
    ∃ l ∈ links, l.target = id ∧ Trapped links l.source := by
  obtain ⟨start, cycle, way⟩ := h
  have way' : Relation.TransGen (Leads links) start id := cycle.trans_left way
  obtain ⟨b, hb, l, hl, rfl, rfl⟩ := Relation.TransGen.tail'_iff.1 way'
  exact ⟨l, hl, rfl, start, cycle, hb⟩

theorem Topological.not_trapped (h : Topological links ids) : ∀ id ∈ ids, ¬Trapped links id := by
  suffices ∀ n before id rest, before.length = n → ids = before ++ id :: rest →
      ¬Trapped links id by
    intro id hid
    obtain ⟨before, rest, heq⟩ := List.append_of_mem hid
    exact this _ before id rest rfl heq
  intro n
  induction n using Nat.strongRecOn with
  | ind n ih =>
    intro before id rest hlength heq trapped
    obtain ⟨l, hl, htarget, hsource⟩ := trapped.exists_link
    obtain ⟨first, second, rfl⟩ := List.append_of_mem (h before id rest heq l hl htarget)
    refine ih first.length ?_ first l.source (second ++ id :: rest) rfl ?_ hsource
    · simp only [← hlength, List.length_append, List.length_cons]
      omega
    · simp [heq]

theorem trapped_of_waits (waits : ∀ id ∈ left, ∃ l ∈ links, l.target = id ∧ l.source ∈ left) :
    ∀ id ∈ left, Trapped links id := by
  classical
  intro id hid
  by_contra free
  -- Only stages from which a way leads to this one matter; a cycle among them would trap it.
  let upstream (key : String) : Prop := Relation.ReflTransGen (Leads links) key id
  have acyclic : Acyclic (links.filter fun l => upstream l.target) := by
    intro key cycle
    obtain ⟨_, _, l, hl, -, rfl⟩ := Relation.TransGen.tail'_iff.1 cycle
    refine free ⟨l.target, Relation.TransGen.mono (fun a b => ?_) _ _ cycle, ?_⟩
    · rintro ⟨k, hk, hs, ht⟩
      exact ⟨k, (List.mem_filter.1 hk).1, hs, ht⟩
    · exact of_decide_eq_true (List.mem_filter.1 hl).2
  have nonempty : (left.filter fun key => upstream key) ≠ [] :=
    List.ne_nil_of_mem (List.mem_filter.2 ⟨hid, decide_eq_true .refl⟩)
  obtain ⟨key, hkey, first⟩ := acyclic.exists_first nonempty
  obtain ⟨hleft, way⟩ := List.mem_filter.1 hkey
  obtain ⟨l, hl, rfl, hsource⟩ := waits key hleft
  have way' : upstream l.source := .head ⟨l, hl, rfl, rfl⟩ (of_decide_eq_true way)
  exact first l (List.mem_filter.2 ⟨hl, way⟩) rfl
    (List.mem_filter.2 ⟨hsource, decide_eq_true way'⟩)

theorem Topological.mem_left_iff (h : Topological links ids)
    (waits : ∀ id ∈ left, ∃ l ∈ links, l.target = id ∧ l.source ∈ left)
    (inside : ∀ l ∈ links, l.target ∈ ids ++ left) : id ∈ left ↔ Trapped links id := by
  refine ⟨trapped_of_waits waits id, fun trapped => ?_⟩
  obtain ⟨l, hl, rfl, -⟩ := trapped.exists_link
  exact (List.mem_append.1 (inside l hl)).resolve_left fun hid => h.not_trapped _ hid trapped

end

end Sluice
