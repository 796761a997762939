import Sluice.Proofs.Reading.Lookup

/-! Keys for members that bring none. The search for a free one always ends. While a command line
is read it ends where it starts, so that every member has the number of its position, whatever the
tasks are called. -/

namespace Sluice

namespace Pipeline

/-- The search for a free key, from a number on: where no member has the number it ends, and
otherwise it goes on with the next one. -/
inductive SearchEnds (p : Pipeline) (task : String) : Nat → Nat → Prop
  | free {n : Nat} : numberedId task n ∉ p.keys → SearchEnds p task n n
  | taken {n last : Nat} : numberedId task n ∈ p.keys → SearchEnds p task (n + 1) last →
    SearchEnds p task n last

variable {p : Pipeline} {task : String}

theorem SearchEnds.of_first {n i : Nat} (taken : ∀ j < i, numberedId task (n + j) ∈ p.keys)
    (free : numberedId task (n + i) ∉ p.keys) : p.SearchEnds task n (n + i) := by
  induction i generalizing n with
  | zero => exact .free free
  | succ i ih =>
    have shift (j : Nat) : n + (j + 1) = n + 1 + j := by omega
    rw [shift] at free ⊢
    refine .taken (taken 0 (Nat.succ_pos i)) (ih (fun j hj => ?_) free)
    rw [← shift]
    exact taken (j + 1) (Nat.succ_lt_succ hj)

theorem searchEnds_freshId (p : Pipeline) (task : String) : ∃ n ≤ 2 * p.size,
    p.SearchEnds task p.size n ∧ p.freshId task = numberedId task n := by
  obtain ⟨i, hfind⟩ := p.exists_free task
  have fresh : p.freshId task = numberedId task (p.size + i) := by simp [freshId, hfind]
  obtain ⟨_, hmem, before⟩ := List.find?_range_eq_some.1 hfind
  have hi := List.mem_range.1 hmem
  refine ⟨p.size + i, by omega, .of_first (fun j hj => ?_) ?_, fresh⟩
  · have := before j hj
    rwa [Bool.not_not, contains_iff] at this
  · exact fresh ▸ p.freshId_not_mem task

end Pipeline

namespace Reader

open Pipeline Reading

variable {r : Reader} {text : String} {name : Option String} {s : Reading}

theorem Meets.enrolled (meets : r.Meets text name s) :
    ∃ cs, Enrolled r.catalogue.orBundled cs s.pipeline := by
  cases meets with
  | between _ passes =>
    obtain ⟨done, _, run⟩ := passes
    exact ⟨_, Enrolled.of_commands (.new name) run⟩
  | within _ _ run meets => exact ⟨_, meets.enrolled (Enrolled.of_commands (.new name) run)⟩
  | finishing _ run passes =>
    exact ⟨_, (Enrolled.of_commands (.new name) run).of_frame (frame_ordered passes)⟩

/-- Keys are free where they are given. In any pipeline and for any task the search ends, and what
it finds is the key of no member. At any time of reading a text, and in what is read, the members
have the numbers of their positions, so that no two have one key and the search for the next one
ends at the first number it tries. -/
theorem finds_fresh_keys (r : Reader) (text : String) (name : Option String) :
    (∀ (p : Pipeline) (task : String), p.freshId task ∉ p.keys ∧ ∃ n ≤ 2 * p.size,
      p.SearchEnds task p.size n ∧ p.freshId task = numberedId task n) ∧
    ∀ p : Pipeline, ((∃ s, r.Meets text name s ∧ s.pipeline = p) ∨ r.read text name = .ok p) →
      (∀ (n : Nat) (m : Member), p.members[n]? = some m → m.key = numberedId m.task.name n) ∧
      p.keys.Nodup ∧ ∀ task, p.SearchEnds task p.size p.size ∧
        p.freshId task = numberedId task p.size := by
  refine ⟨fun p task => ⟨p.freshId_not_mem task, p.searchEnds_freshId task⟩, fun p passed => ?_⟩
  have numbered : p.Numbered := by
    rcases passed with ⟨s, meets, rfl⟩ | read
    · obtain ⟨_, enrolled⟩ := meets.enrolled
      exact enrolled.numbered
    · obtain ⟨_, _, enrolled⟩ := enrolled_of_read read
      exact enrolled.numbered
  exact ⟨numbered, numbered.keys_nodup, fun task =>
    ⟨.free (numbered.next_free task), freshId_of_free (numbered.next_free task)⟩⟩

def bareTask (name : String) : Task :=
  ⟨name, .null, "", [], [], []⟩

def lookalikes : Reader :=
  ⟨((Catalogue.empty.register (bareTask "a")).1.register (bareTask "a_1")).1, "", false⟩

theorem lookalikes_find_fresh_keys :
    ∃ p, lookalikes.read "--a_1 --a --a --a_1" none = .ok p ∧
      p.keys = ["a_1_0", "a_1", "a_2", "a_1_3"] ∧
      (∀ (n : Nat) (m : Member), p.members[n]? = some m → m.key = numberedId m.task.name n) ∧
      p.keys.Nodup ∧ ∀ task, p.SearchEnds task p.size p.size ∧
        p.freshId task = numberedId task p.size := by
  obtain ⟨p, read, keys⟩ : ∃ p, lookalikes.read "--a_1 --a --a --a_1" none = .ok p ∧
      p.keys = ["a_1_0", "a_1", "a_2", "a_1_3"] := by decide +kernel
  exact ⟨p, read, keys, (finds_fresh_keys lookalikes _ none).2 p (.inr read)⟩

end Reader

end Sluice
