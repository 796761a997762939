import Sluice.Proofs.Pipeline.Ends

/-! The id that a member goes by and the key that it was entered under. They are one text when each
stage that comes in is no member yet and its task does not start with a blank; the connectors of a
member then stand where its links are listed. Nothing is asked of the links of a reordering. -/

namespace Sluice.Pipeline

open scoped List

variable {p q : Pipeline}

/-- A stage that comes in is no member yet, and its own id has no blanks around it. -/
def Edit.Entering (p : Pipeline) : Edit → Prop
  | .add s _ => (∀ id, s.id = some id → Text.trim id = id) ∧ ∀ m ∈ p.members, m.serial ≠ s.serial
  | _ => True

theorem Edit.Regular.entering {e : Edit} (h : e.Regular p) : e.Entering p := by
  cases e with
  | add s id => exact ⟨h.1.id, h.2⟩
  | _ => trivial

structure Coherent (p : Pipeline) : Prop where
  keys_nodup : p.keys.Nodup
  ids : ∀ m ∈ p.members, m.id = Text.trim m.key
  trimmed : ∀ m ∈ p.members, Text.startsBlank m.task.name = false → Text.trim m.key = m.key
  listed : ∀ m ∈ p.members, ∀ side, ∀ l ∈ p.linksOn m.key side,
    l.slotOn side < (m.slots side).length

namespace Coherent

theorem relist (h : p.Coherent) (keys : q.keys.Nodup)
    (members : ∀ m ∈ q.members, ∃ n ∈ p.members, n.key = m.key ∧ n.id = m.id ∧ n.task = m.task)
    (listed : ∀ m ∈ p.members, m.key ∈ q.keys → ∀ side, ∀ l ∈ q.linksOn m.key side,
      l.slotOn side < (m.slots side).length) : q.Coherent := by
  refine ⟨keys, fun m hm => ?_, fun m hm hb => ?_, fun m hm side => ?_⟩
  · obtain ⟨n, hn, hkey, hid, _⟩ := members m hm
    rw [← hkey, ← hid, h.ids n hn]
  · obtain ⟨n, hn, hkey, _, htask⟩ := members m hm
    rw [← hkey]
    exact h.trimmed n hn (htask ▸ hb)
  · obtain ⟨n, hn, hkey, _, htask⟩ := members m hm
    have slots : m.slots side = n.slots side := by cases side <;> simp only [Job.slots, htask]
    rw [← hkey, slots]
    exact listed n hn (hkey ▸ List.mem_map_of_mem hm) side

theorem of_frame (h : p.Coherent) (frame : q.frame = p.frame)
    (listed : ∀ m ∈ p.members, ∀ side, ∀ l ∈ q.linksOn m.key side,
      l.slotOn side < (m.slots side).length) : q.Coherent := by
  refine h.relist (keys_eq_of_frame frame ▸ h.keys_nodup) (fun m hm => ?_)
    fun m hm _ => listed m hm
  obtain ⟨n, hn, hb⟩ := mem_of_frame frame hm
  exact ⟨n, hn, (congrArg Member.key hb :), (congrArg Member.id hb :),
    (congrArg (fun m => m.task) hb :)⟩

theorem of_shrinks (h : p.Coherent) (shrinks : p.Shrinks q) : q.Coherent :=
  h.of_frame shrinks.frame fun m hm side l hl => h.listed m hm side l (shrinks.lists _ _ hl)

theorem add (h : p.Coherent) {s : Stage} {id : Option String} {key : String}
    (trimmed : ∀ id, s.id = some id → Text.trim id = id)
    (fresh : ∀ m ∈ p.members, m.serial ≠ s.serial) (hq : p.add s id = .ok (key, q)) :
    q.Coherent := by
  obtain ⟨hentry, hnew, _, rfl⟩ := (add_eq_ok fresh).1 hq
  refine ⟨?_, fun m hm => ?_, fun m hm hb => ?_, fun m hm side l hl => ?_⟩
  · rw [keys_newMember]
    exact List.nodup_append'.2 ⟨h.keys_nodup, by simp, by simpa using hnew⟩
  · rcases List.mem_append.1 hm with hm | hm
    · exact h.ids m hm
    · rw [List.mem_singleton.1 hm]
      rfl
  · rcases List.mem_append.1 hm with hm | hm
    · exact h.trimmed m hm hb
    · obtain rfl := List.mem_singleton.1 hm
      change Text.trim key = key
      rw [hentry]
      exact trim_entryKey p trimmed id hb
  · rw [linksOn_newMember s hnew] at hl
    rcases List.mem_append.1 hm with hm | hm
    · exact h.listed m hm side l hl
    · obtain rfl := List.mem_singleton.1 hm
      change l ∈ p.linksOn key side at hl
      rw [linksOn_of_not_mem hnew] at hl
      cases hl

theorem connect (h : p.Coherent) {source target : String} {i j : Option Int} {l : Link}
    (hl : p.allowedLink source target i j = .ok l) : (p.link l).Coherent := by
  obtain ⟨c, d, allowed⟩ := allowed_of_ok hl
  refine h.of_frame (frame_link p l) fun m hm side k hk => ?_
  rw [linksOn_link (allowed.fits.mem_keys .output) (allowed.fits.mem_keys .input)] at hk
  split at hk
  · rename_i hend
    rcases List.mem_append.1 hk with hk | hk
    · exact h.listed m hm side k hk
    · obtain rfl := List.mem_singleton.1 hk
      obtain ⟨e, ends, _⟩ := allowed.fits.ends
      obtain ⟨n, hn, hkey, hget, _⟩ := ends side
      obtain rfl := List.inj_on_of_nodup_map h.keys_nodup hn hm (hkey.trans hend)
      simpa [Member.connectors] using (List.getElem?_eq_some_iff.1 hget).1
  · exact h.listed m hm side k hk

theorem edit (h : p.Coherent) {e : Edit} (he : e.Entering p) : (e.apply p).Coherent := by
  cases e with
  | add s id => exact settle_snd_keeps (P := Coherent) h fun key q hq => h.add he.1 he.2 hq
  | remove key =>
    obtain ⟨q, shrinks, hq | hq⟩ := p.remove_cases key
    · rw [Edit.apply, hq]
      exact h.of_shrinks shrinks
    · rw [Edit.apply, hq]
      have left := h.of_shrinks shrinks
      refine left.relist (left.keys_nodup.sublist (List.filter_sublist.map _))
        (fun m hm => ⟨m, (List.mem_filter.1 hm).1, rfl, rfl, rfl⟩) fun m hm hkey side l hl => ?_
      have hne : m.key ≠ key := by
        obtain ⟨n, hn, heq⟩ := exists_member hkey
        rw [← heq]
        simpa using (List.mem_filter.1 hn).2
      rw [linksOn, member?_filter q hne] at hl
      exact left.listed m hm side l hl
  | move key position =>
    refine settle_keeps (P := Coherent) h fun q hq => ?_
    obtain ⟨perm, _⟩ := move_perm h.keys_nodup hq
    refine h.relist ((perm.map _).nodup_iff.2 h.keys_nodup)
      (fun m hm => ⟨m, perm.subset hm, rfl, rfl, rfl⟩) fun m hm _ side l hl => ?_
    exact h.listed m hm side l (linksOn_of_perm h.keys_nodup perm ▸ hl)
  | connect source target i j =>
    refine settle_snd_keeps (P := Coherent) h fun l q hq => ?_
    obtain ⟨hl, rfl⟩ := connect_eq_ok.1 hq
    exact h.connect hl
  | disconnect l => exact h.of_shrinks (shrinks_disconnect p l)
  | unlink c => exact h.of_shrinks (shrinks_unlink p c)
  | reorder c links =>
    exact settle_keeps (P := Coherent) h fun q hq => h.of_shrinks (shrinks_reorder hq)
  | clear =>
    exact h.relist List.nodup_nil (fun m hm => absurd hm List.not_mem_nil)
      fun m _ hkey => absurd hkey List.not_mem_nil
  | give serial position given =>
    refine h.relist ((keys_give p serial position given).symm ▸ h.keys_nodup) (fun m hm => ?_)
      fun m hm _ side l hl => ?_
    · obtain ⟨n, hn, rfl⟩ := List.mem_map.1 hm
      exact ⟨n, hn, by split <;> exact ⟨rfl, rfl, rfl⟩⟩
    · exact h.listed m hm side l (linksOn_give p serial position given ▸ hl)

theorem mem_linksOn_iff (h : p.Coherent) {m : Member} (hm : m ∈ p.members) (hid : m.id = m.key)
    {side : Side} {l : Link} :
    l ∈ p.linksOn m.key side ↔ ∃ c ∈ m.connectors side, l ∈ p.linksAt c := by
  constructor
  · intro hl
    have hlt : l.slotOn side < (m.connectors side).length := by
      simpa [Member.connectors] using h.listed m hm side l hl
    obtain ⟨hstage, hside, hslot⟩ := Member.getElem?_connectors (List.getElem?_eq_getElem hlt)
    refine ⟨_, List.getElem_mem hlt, ?_⟩
    rw [linksAt, List.mem_filter, hstage, hside, hslot, hid]
    exact ⟨hl, beq_self_eq_true _⟩
  · rintro ⟨c, hc, hl⟩
    obtain ⟨hstage, hside, _⟩ := Member.mem_connectors hc
    rw [linksAt, hstage, hside, hid] at hl
    exact (List.mem_filter.1 hl).1

end Coherent

theorem Coherent.of_built (b : Built Edit.Entering p) : p.Coherent := by
  induction b with
  | new name =>
    exact ⟨List.nodup_nil, by simp [Pipeline.new], by simp [Pipeline.new], by simp [Pipeline.new]⟩
  | edit _ he ih => exact ih.edit he

/-- A member goes by its key, and its connectors have the links that it lists, unless the name of
its task starts with a blank; and it comes in under the id that it then goes by. -/
theorem Built.coherent (b : Built Edit.Entering p) :
    (∀ m ∈ p.members, m.id = Text.trim m.key ∧
      (Text.startsBlank m.task.name = false → m.id = m.key ∧ ∀ side l,
        l ∈ p.linksOn m.key side ↔ ∃ c ∈ m.connectors side, l ∈ p.linksAt c)) ∧
    ∀ s id key q, (Edit.add s id).Entering p → Text.startsBlank s.task.name = false →
      p.add s id = .ok (key, q) →
      ∃ m, q.member? key = some m ∧ m.serial = s.serial ∧ m.id = key := by
  have h := Coherent.of_built b
  refine ⟨fun m hm => ⟨h.ids m hm, fun names => ?_⟩, fun s id key q entering names hq => ?_⟩
  · have hid : m.id = m.key := (h.ids m hm).trans (h.trimmed m hm names)
    exact ⟨hid, fun side l => h.mem_linksOn_iff hm hid⟩
  · obtain ⟨hentry, hnew, _, rfl⟩ := (add_eq_ok entering.2).1 hq
    refine ⟨newMember s key, member?_newMember s hnew, rfl, ?_⟩
    change Text.trim key = key
    rw [hentry]
    exact trim_entryKey p entering.1 id names

theorem fork_coherent :
    (∀ m ∈ fork.members, m.id = Text.trim m.key ∧
      (Text.startsBlank m.task.name = false → m.id = m.key ∧ ∀ side l,
        l ∈ fork.linksOn m.key side ↔ ∃ c ∈ m.connectors side, l ∈ fork.linksAt c)) ∧
    ∀ s id key q, (Edit.add s id).Entering fork → Text.startsBlank s.task.name = false →
      fork.add s id = .ok (key, q) →
      ∃ m, q.member? key = some m ∧ m.serial = s.serial ∧ m.id = key :=
  Built.coherent (fork_built.regular.mono fun _ _ => Edit.Regular.entering)

def tabbed : Task :=
  ⟨"\tx", .text "q", "", [], [], []⟩

theorem ids_apart :
    (∃ found, (Pipeline.new none).add (Stage.ofTask 0 tabbed none) none = .ok found ∧
      (found.2.member? found.1).map (fun m => m.id) = some "x_0" ∧ found.1 = "\tx_0") ∧
    (([.add (Stage.ofTask 0 sink none) (some "a"),
        .add (Stage.ofTask 0 sink (some "a")) (some "b")].foldl Edit.apply
          (Pipeline.new none)).member? "a").map (fun m => m.id) = some "b" := by
  decide +kernel

end Sluice.Pipeline
