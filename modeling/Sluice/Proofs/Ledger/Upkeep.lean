import Sluice.Ledger.Acts
import Sluice.Proofs.Ledger.Agreement
import Sluice.Proofs.Pipeline.Effect

/-! Changes after which a ledger and a pipeline agree again. A member that comes in or goes changes
every part; a list of links, the table, the order and the values of a job are parts of their own. -/

namespace Sluice

open scoped List

open Pipeline (mem_of_member? mem_keys_of_member? member?_eq_none_iff member?_modify)

namespace Ledger.Agrees

variable {s : Ledger} {p q : Pipeline}

theorem links_changed (h : s.Agrees p) (links : List Link) :
    Agrees { s with links := links } { p with links := links } where
  name := h.name
  links := rfl
  nodup := h.nodup
  order := h.order
  entries := h.entries
  entries_keys := h.entries_keys
  lists := fun side => by
    cases side
    · exact h.lists .input
    · exact h.lists .output
  lists_keys := fun side => by
    cases side
    · exact h.lists_keys .input
    · exact h.lists_keys .output

theorem setList (h : s.Agrees p) {key : String} {m : Member} (hm : p.member? key = some m)
    (side : Side) (g : Member → List Link) :
    (s.setList key side (g m)).Agrees (p.modify key fun n => n.setLinksOn side (g n)) := by
  have keys : (p.modify key fun n => n.setLinksOn side (g n)).keys = p.keys :=
    Pipeline.keys_modify p key _ fun n => n.key_setLinksOn side (g n)
  have found := fun other => member?_modify p key other fun n => n.key_setLinksOn side (g n)
  have present : key ∈ (s.lists side).map Prod.fst :=
    (h.lists_keys side).mem_iff.2 (mem_keys_of_member? hm)
  refine ⟨?_, ?_, keys ▸ h.nodup, ?_, fun other => ?_, ?_, fun which other => ?_, fun which => ?_⟩
  · exact (name_setLists _ _ _).trans h.name
  · exact (links_setLists _ _ _).trans h.links
  · exact (order_setLists _ _ _).trans (h.order.trans keys.symm)
  · rw [Ledger.setList, entries_setLists, h.entries, found, Option.map_map]
    congr 1
    funext n
    by_cases hn : n.key = key <;> simp [hn]
  · simpa [Ledger.setList, keys] using h.entries_keys
  · rw [Ledger.setList, lists_setLists, found, Option.map_map]
    by_cases hw : which = side
    · subst hw
      rw [if_pos rfl]
      by_cases ho : other = key
      · subst ho
        simp [hm, (mem_of_member? hm).2, Member.linksOn_setLinksOn]
      · rw [Table.lookup_put_of_ne ho, h.lists]
        cases hn : p.member? other with
        | none => rfl
        | some n => simp [(mem_of_member? hn).2, ho]
    · rw [if_neg hw, h.lists]
      congr 1
      funext n
      by_cases hn : n.key = key <;> simp [hn, Member.linksOn_setLinksOn, hw]
  · rw [Ledger.setList, lists_setLists, keys]
    split
    · rw [Table.keys_put_of_mem present]
      exact h.lists_keys side
    · exact h.lists_keys which

theorem modifyJob (h : s.Agrees p) (serial : Nat) {f : Entry → Entry} {g : Member → Member}
    (key : ∀ m, (g m).key = m.key) (entry : ∀ m, (g m).entry = f m.entry)
    (links : ∀ m side, (g m).linksOn side = m.linksOn side) :
    (s.modifyJob serial f).Agrees (p.modifyJob serial g) := by
  have keys := Pipeline.keys_modifyJob p serial key
  have found := fun other => Pipeline.member?_modifyJob p serial other key
  refine ⟨h.name, h.links, keys ▸ h.nodup, h.order.trans keys.symm, fun other => ?_, ?_,
    fun side other => ?_, fun side => ?_⟩
  · rw [Ledger.modifyJob, Table.lookup_map (fun e => if e.serial = serial then f e else e),
      h.entries, found, Option.map_map, Option.map_map]
    congr 1
    funext m
    have same : m.entry.serial = m.serial := rfl
    by_cases hs : m.serial = serial <;> simp [same, hs, entry]
  · rw [Ledger.modifyJob, List.map_map, keys]
    exact h.entries_keys
  · have same : (s.modifyJob serial f).lists side = s.lists side := by cases side <;> rfl
    rw [same, h.lists, found, Option.map_map]
    congr 1
    funext m
    by_cases hs : m.serial = serial <;> simp [hs, links]
  · have same : (s.modifyJob serial f).lists side = s.lists side := by cases side <;> rfl
    rw [same, keys]
    exact h.lists_keys side

theorem member_added (h : s.Agrees p) {m : Member} (fresh : m.key ∉ p.keys)
    (bare : ∀ side, m.linksOn side = []) :
    Agrees { s with
        entries := Table.put m.key m.entry s.entries
        order := s.order ++ [m.key]
        incoming := Table.put m.key [] s.incoming
        outgoing := Table.put m.key [] s.outgoing }
      { p with members := p.members ++ [m] } := by
  have keys : ({ p with members := p.members ++ [m] } : Pipeline).keys = p.keys ++ [m.key] := by
    simp [Pipeline.keys]
  have old : ∀ other, other ≠ m.key →
      ({ p with members := p.members ++ [m] } : Pipeline).member? other = p.member? other := by
    intro other ho
    simp [Pipeline.member?, List.find?_append, Ne.symm ho]
  have new : ({ p with members := p.members ++ [m] } : Pipeline).member? m.key = some m := by
    have none : p.member? m.key = none := member?_eq_none_iff.2 fresh
    rw [Pipeline.member?] at none
    simp [Pipeline.member?, List.find?_append, none]
  have put_lists : ∀ side, ({ s with
        entries := Table.put m.key m.entry s.entries
        order := s.order ++ [m.key]
        incoming := Table.put m.key [] s.incoming
        outgoing := Table.put m.key [] s.outgoing } : Ledger).lists side =
      Table.put m.key [] (s.lists side) := fun side => by cases side <;> rfl
  refine ⟨h.name, h.links, ?_, ?_, fun other => ?_, ?_, fun side other => ?_, fun side => ?_⟩
  · rw [keys]
    exact List.nodup_append'.2 ⟨h.nodup, by simp, by simpa using fresh⟩
  · rw [keys, ← h.order]
  · by_cases ho : other = m.key
    · rw [ho, new]
      exact Table.lookup_put_self _ _ _
    · rw [old other ho, ← h.entries]
      exact Table.lookup_put_of_ne ho _ _
  · rw [keys, Table.keys_put_of_not_mem (h.entries_keys.mem_iff.not.2 fresh)]
    exact h.entries_keys.append_right _
  · rw [put_lists]
    by_cases ho : other = m.key
    · rw [ho, new, Table.lookup_put_self, Option.map_some, bare]
    · rw [old other ho, ← h.lists]
      exact Table.lookup_put_of_ne ho _ _
  · rw [put_lists, keys, Table.keys_put_of_not_mem ((h.lists_keys side).mem_iff.not.2 fresh)]
    exact (h.lists_keys side).append_right _

theorem order_erase (h : s.Agrees p) (key : String) :
    s.order.erase key = (p.members.filter fun m => m.key ≠ key).map Member.key := by
  rw [Pipeline.erase_eq_filter (h.order ▸ h.nodup), h.order, Pipeline.keys, List.filter_map]
  rfl

theorem member_left (h : s.Agrees p) (key : String) :
    Agrees { s with
        entries := Table.remove key s.entries
        order := s.order.erase key
        incoming := Table.remove key s.incoming
        outgoing := Table.remove key s.outgoing }
      { p with members := p.members.filter fun m => m.key ≠ key } := by
  have keys : ({ p with members := p.members.filter fun m => m.key ≠ key } : Pipeline).keys =
      p.keys.filter fun k => k ≠ key := by
    rw [Pipeline.keys, Pipeline.keys, List.filter_map]
    rfl
  have gone : ({ p with members := p.members.filter fun m => m.key ≠ key } : Pipeline).member? key =
      none := member?_eq_none_iff.2 (by rw [keys]; simp)
  have removed : ∀ side, ({ s with
        entries := Table.remove key s.entries
        order := s.order.erase key
        incoming := Table.remove key s.incoming
        outgoing := Table.remove key s.outgoing } : Ledger).lists side =
      Table.remove key (s.lists side) := fun side => by cases side <;> rfl
  refine ⟨h.name, h.links, ?_, ?_, fun other => ?_, ?_, fun side other => ?_, fun side => ?_⟩
  · rw [keys]
    exact h.nodup.filter _
  · exact h.order_erase key
  · by_cases ho : other = key
    · rw [ho, gone]
      exact Table.lookup_remove_self _ _
    · rw [Pipeline.member?_filter p ho, ← h.entries]
      exact Table.lookup_remove_of_ne ho _
  · rw [keys, Table.keys_remove]
    exact h.entries_keys.filter _
  · rw [removed]
    by_cases ho : other = key
    · rw [ho, gone]
      exact Table.lookup_remove_self _ _
    · rw [Pipeline.member?_filter p ho, ← h.lists]
      exact Table.lookup_remove_of_ne ho _
  · rw [removed, keys, Table.keys_remove]
    exact (h.lists_keys side).filter _

theorem member_moved (h : s.Agrees p) {key : String} {m : Member} (hm : p.member? key = some m)
    (position : Int) :
    Agrees { s with
        order := (s.order.erase key).insertIdx
          (min position.toNat (s.order.erase key).length) key }
      { p with
        members := (p.members.filter fun other => other.key ≠ key).insertIdx
          (min position.toNat (p.members.filter fun other => other.key ≠ key).length) m } := by
  have moved : p.move key position = .ok { p with
      members := (p.members.filter fun other => other.key ≠ key).insertIdx
        (min position.toNat (p.members.filter fun other => other.key ≠ key).length) m } := by
    rw [Pipeline.move, Pipeline.find, hm]
    rfl
  have perm := (Pipeline.move_perm h.nodup moved).1
  have found := Pipeline.member?_of_perm h.nodup perm
  refine ⟨h.name, h.links, (perm.map _).nodup_iff.2 h.nodup, ?_, ?_,
    h.entries_keys.trans (perm.map _).symm, fun side => ?_,
    fun side => .trans ?_ (perm.map _).symm⟩
  · rw [Pipeline.keys, List.map_insertIdx, h.order_erase, List.length_map, (mem_of_member? hm).2]
  · rw [found]
    exact h.entries
  · rw [found]
    cases side
    · exact h.lists .input
    · exact h.lists .output
  · cases side
    · exact h.lists_keys .input
    · exact h.lists_keys .output

end Ledger.Agrees

end Sluice
