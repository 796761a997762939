import Sluice.Proofs.Pipeline.Arranging
import Sluice.Proofs.Pipeline.Ends

/-! Links that lead forward. In a pipeline all of whose links lead from one member to a later one,
the order of the members is a dependency order; a link into the last member leads forward wherever
it comes from. -/

namespace Sluice.Pipeline

open scoped List

variable {p q : Pipeline}

def Forward (p : Pipeline) : Prop :=
  ∀ l ∈ p.links, p.keys.idxOf l.source < p.keys.idxOf l.target ∧ l.target ∈ p.keys

namespace Forward

theorem new (name : Option String) : (Pipeline.new name).Forward := by
  simp [Forward, Pipeline.new]

theorem congr (h : p.Forward) (keys : q.keys = p.keys) (links : q.links = p.links) :
    q.Forward := by
  unfold Forward at h ⊢
  rwa [keys, links]

theorem source_mem (h : p.Forward) {l : Link} (hl : l ∈ p.links) : l.source ∈ p.keys :=
  List.idxOf_lt_length_iff.1 (Nat.lt_of_lt_of_le (h l hl).1 List.idxOf_le_length)

theorem append (h : p.Forward) {key : String} (keys : q.keys = p.keys ++ [key])
    (links : q.links = p.links) : q.Forward := by
  intro l hl
  rw [links] at hl
  obtain ⟨lt, mem⟩ := h l hl
  rw [keys, List.idxOf_append_of_mem mem, List.idxOf_append_of_mem (h.source_mem hl)]
  exact ⟨lt, List.mem_append_left _ mem⟩

theorem link (h : p.Forward) (nodup : p.keys.Nodup) {l : Link} {old : List String}
    (last : p.keys = old ++ [l.target]) (fits : p.Fits l) : (p.link l).Forward := by
  have keys : (p.link l).keys = p.keys := keys_eq_of_frame (frame_link p l)
  intro k hk
  rw [keys]
  rcases List.mem_append.1 hk with hk | hk
  · exact h k hk
  · obtain rfl := List.mem_singleton.1 hk
    have source : k.source ∈ old := by
      have := fits.mem_keys .output
      rw [last, List.mem_append, List.mem_singleton] at this
      exact this.resolve_right fits.1
    have target : k.target ∉ old := by
      rw [last, List.nodup_append'] at nodup
      exact fun hmem => nodup.2.2 hmem (List.mem_singleton_self _)
    refine ⟨?_, fits.mem_keys .input⟩
    rw [last, List.idxOf_append_of_mem source, List.idxOf_append_of_notMem target]
    exact Nat.lt_add_right _ (List.idxOf_lt_length_of_mem source)

theorem acyclic (h : p.Forward) : Acyclic p.links :=
  .of_rank p.keys.idxOf fun l hl => (h l hl).1

theorem dependencyOrder (h : p.Forward) (nodup : p.keys.Nodup) : DependencyOrder p [] p.keys := by
  suffices ∀ done rest, p.keys = done ++ rest → DependencyOrder p done rest from this [] p.keys rfl
  intro done rest
  induction rest generalizing done with
  | nil => exact fun _ => trivial
  | cons key r ih =>
    intro split
    refine ⟨fun l hl target => ?_, ih _ (by simp [split])⟩
    have fresh : key ∉ done := by
      rw [split, List.nodup_append'] at nodup
      exact fun hmem => nodup.2.2 hmem List.mem_cons_self
    have lt := (h l hl).1
    rw [target, split, List.idxOf_append_of_notMem fresh, List.idxOf_cons_self, Nat.add_zero] at lt
    by_contra hout
    rw [List.idxOf_append_of_notMem hout] at lt
    omega

theorem arrange (h : p.Forward) (sound : p.Sound) : ∃ placed, p.arrange = .ok placed :=
  (arrange_of_acyclic sound h.acyclic).imp fun _ found => found.1

end Forward

end Sluice.Pipeline
