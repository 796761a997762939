import Sluice.Proofs.Reading.Restoring
import Sluice.Proofs.Writing.Outcome

/-! Who is written, and when. If there is no cycle among the members that are to be written, each
of them is written once, after those that it reads from, and in the order in which they came if
that would do. Otherwise the writer names those on a cycle or behind one, as the dependency order
does. -/

namespace Sluice

open Pipeline Writing
open scoped List

variable {p : Pipeline} {settings : Settings} {layout : Layout} {among : List String}
  {chosen order rest : List Member}

/-- The parts of a command line for some members: for each of them a task with its values, and
nothing but adapters up to the next one. -/
inductive Writing.Emits (settings : Settings) (layout : Layout) : List Member → List Block → Prop
  | nil : Emits settings layout [] []
  | cons {m : Member} {order : List Member} {tees blocks : List Block}
    (reads writes : List (Nat × Nat)) :
    (∀ b ∈ tees, ∃ word copies source first, b = .tee word copies source first) →
    Emits settings layout order blocks →
    Emits settings layout (m :: order)
      (.task (taskWord settings m.task) (valueParts settings layout m.toJob) reads writes ::
        tees ++ blocks)

structure Pipeline.Scheduled (p : Pipeline) (settings : Settings) (layout : Layout)
    (chosen : List Member) : Prop where
  written : Acyclic (induced p (chosen.map Member.id)) → ∃ order blocks, order ~ chosen ∧
    Topological (induced p (chosen.map Member.id)) (order.map Member.id) ∧
    (Topological (induced p (chosen.map Member.id)) (chosen.map Member.id) → order = chosen) ∧
    Emits settings layout order blocks ∧
    p.write settings layout (some (chosen.map Member.toStage)) =
      .ok (layout.separator.intercalate ((toolBlocks settings layout ++ blocks).map Block.render))
  trapped : ¬Acyclic (induced p (chosen.map Member.id)) → ∃ ids, ids.Nodup ∧
    (∀ id, id ∈ ids ↔ Trapped (induced p (chosen.map Member.id)) id) ∧
    p.write settings layout (some (chosen.map Member.toStage)) = .error (.cycle ids)

namespace Writing

theorem ReadyOrder.ready {written : List String} (h : ReadyOrder p among written order)
    {before : List Member} {m : Member} (split : order = before ++ m :: rest) :
    Ready p among ((before.map Member.id).reverse ++ written) m := by
  induction before generalizing written order with
  | nil =>
    subst split
    exact h.1
  | cons k r ih =>
    subst split
    simpa using ih h.2 rfl

theorem ReadyOrder.topological (h : ReadyOrder p among [] order) (hp : p.Sound) (named : p.Named)
    (inside : ∀ m ∈ order, m ∈ p.members) :
    Topological (induced p among) (order.map Member.id) := by
  intro before id after split l hl htarget
  obtain ⟨first, second, rfl, rfl, hsecond⟩ := List.map_eq_append_iff.1 split
  obtain ⟨m, r, rfl, rfl, rfl⟩ := List.map_eq_cons_iff.1 hsecond
  obtain ⟨hlinks, hsource, _⟩ := mem_induced.1 hl
  have hfeeds : l ∈ feeds p among m :=
    (mem_feeds hp named (inside m (by simp))).2 ⟨hlinks, htarget, hsource⟩
  simpa using h.ready rfl l hfeeds

theorem readyOrder_of_topological (hp : p.Sound) (named : p.Named)
    (inside : ∀ m ∈ order, m ∈ p.members) (counts : ∀ m ∈ order, m.id ∈ among)
    (h : Topological (induced p among) (order.map Member.id)) : ReadyOrder p among [] order := by
  suffices ∀ before rest, order = before ++ rest →
      ReadyOrder p among (before.map Member.id).reverse rest from this [] order rfl
  intro before rest split
  induction rest generalizing before with
  | nil => trivial
  | cons m r ih =>
    refine ⟨fun l hl => ?_, ?_⟩
    · have hm : m ∈ order := by simp [split]
      obtain ⟨hlinks, htarget, hsource⟩ := (mem_feeds hp named (inside m hm)).1 hl
      rw [List.mem_reverse]
      exact h _ m.id (r.map Member.id) (by simp [split]) l
        (mem_induced.2 ⟨hlinks, hsource, htarget ▸ counts m hm⟩) htarget
    · have := ih (before ++ [m]) (by simp [split])
      simpa using this

theorem emits_blocksAfter (w : Writing) (order : List Member) :
    Emits settings layout order (blocksAfter p settings layout among w order) := by
  induction order generalizing w with
  | nil => exact .nil
  | cons m r ih =>
    refine .cons _ _ (fun b hb => ?_) (ih _)
    obtain ⟨e, _, word, _, rfl⟩ := exists_tee hb
    exact ⟨word, _, _, _, rfl⟩

theorem text_through (p : Pipeline) (settings : Settings) (layout : Layout)
    (among : List String) (order : List Member) :
    ∃ blocks, Emits settings layout order blocks ∧
      (through p settings layout among order).text layout =
        layout.separator.intercalate
          ((toolBlocks settings layout ++ blocks).map Block.render) := by
  refine ⟨blocksAfter p settings layout among (start (toolBlocks settings layout)) order,
    emits_blocksAfter _ order, ?_⟩
  rw [text, through, blocks_foldl]
  rfl

theorem writeQueue_keeps (hp : p.Sound) (named : p.Named) {settings : Settings} (layout : Layout)
    (inside : ∀ m ∈ chosen, m ∈ p.members) (spoken : ∀ m ∈ chosen, m.task.Spoken settings)
    (acyclic : Acyclic (induced p (chosen.map Member.id))) :
    ∃ order, order ~ chosen ∧ ReadyOrder p (chosen.map Member.id) [] order ∧
      (Topological (induced p (chosen.map Member.id)) (chosen.map Member.id) → order = chosen) ∧
      writeQueue p settings layout (chosen.map Member.id) 0
          (start (toolBlocks settings layout)) chosen =
        .ok (through p settings layout (chosen.map Member.id) order) := by
  by_cases h : Topological (induced p (chosen.map Member.id)) (chosen.map Member.id)
  · have counts : ∀ m ∈ chosen, m.id ∈ chosen.map Member.id := fun m hm =>
      List.mem_map_of_mem hm
    have ready := readyOrder_of_topological hp named inside counts h
    exact ⟨chosen, .refl _, ready, fun _ => rfl, writeQueue_of_ready hp named layout
      (by simp [HasNumbers, start]) (fun m hm => ⟨inside m hm, counts m hm⟩) spoken ready⟩
  · obtain ⟨order, perm, ready, result⟩ :=
      writeQueue_of_acyclic hp named layout inside spoken acyclic (toolBlocks settings layout)
    exact ⟨order, perm, ready, fun h' => absurd h' h, result⟩

theorem writeQueue_trapped (hp : p.Sound) (named : p.Named) {settings : Settings}
    (layout : Layout) (inside : ∀ m ∈ chosen, m ∈ p.members)
    (spoken : ∀ m ∈ chosen, m.task.Spoken settings) :
    ∃ order rest, order ++ rest ~ chosen ∧
      (∀ id, id ∈ rest.map Member.id ↔ Trapped (induced p (chosen.map Member.id)) id) ∧
      writeQueue p settings layout (chosen.map Member.id) 0
          (start (toolBlocks settings layout)) chosen =
        if rest = [] then .ok (through p settings layout (chosen.map Member.id) order)
        else .error (.cycle (rest.map Member.id)) := by
  obtain ⟨order, rest, perm, ready, result⟩ :=
    writeQueue_spoken hp named layout inside spoken (toolBlocks settings layout)
  have all : ∀ id, id ∈ order.map Member.id ++ rest.map Member.id ↔ id ∈ chosen.map Member.id := by
    intro id
    rw [← List.map_append]
    exact (perm.map _).mem_iff
  have first := ready.topological hp named fun m hm =>
    inside m (perm.mem_iff.1 (List.mem_append_left _ hm))
  have waits : ∀ id ∈ rest.map Member.id, ∃ l ∈ induced p (chosen.map Member.id),
      l.target = id ∧ l.source ∈ rest.map Member.id := by
    by_cases left : rest = []
    · simp [left]
    · rw [if_neg left] at result
      exact waits_of_unready hp named inside perm result.1
  refine ⟨order, rest, perm, fun id => ?_, ?_⟩
  · exact first.mem_left_iff waits fun l hl => (all _).2 (mem_induced.1 hl).2.2
  · by_cases left : rest = []
    · rw [if_pos left] at result ⊢
      exact result
    · rw [if_neg left] at result ⊢
      exact result.2

end Writing

namespace Pipeline

theorem Sound.scheduled_among (hp : p.Sound) (named : p.Named) {settings : Settings}
    (layout : Layout) (inside : ∀ m ∈ chosen, m ∈ p.members)
    (spoken : ∀ m ∈ chosen, m.task.Spoken settings) (nodup : chosen.Nodup) :
    p.Scheduled settings layout chosen := by
  have write := write_eq hp named settings layout inside
  constructor
  · intro acyclic
    obtain ⟨order, perm, ready, same, result⟩ :=
      writeQueue_keeps hp named layout inside spoken acyclic
    obtain ⟨blocks, emits, text⟩ := text_through p settings layout (chosen.map Member.id) order
    refine ⟨order, blocks, perm, ?_, same, emits, ?_⟩
    · exact ready.topological hp named fun m hm => inside m (perm.mem_iff.1 hm)
    · rw [write, result, ← text]
      rfl
  · intro cyclic
    obtain ⟨order, rest, perm, trapped, result⟩ :=
      writeQueue_trapped hp named layout inside spoken
    have left : rest ≠ [] := by
      rintro rfl
      exact cyclic (acyclic_iff.2 fun id h => by simpa using (trapped id).2 h)
    rw [if_neg left] at result
    refine ⟨rest.map Member.id, ?_, trapped, ?_⟩
    · have ids := (perm.map Member.id).nodup_iff.2 (ids_nodup hp named inside nodup)
      rw [List.map_append] at ids
      exact (List.nodup_append'.1 ids).2.1
    · rw [write, result]
      rfl

theorem Sound.induced_members (hp : p.Sound) (named : p.Named) :
    induced p (p.members.map Member.id) = p.links := by
  refine List.filter_eq_self.2 fun l hl => ?_
  have ends : ∀ side, l.endOn side ∈ p.members.map Member.id := by
    intro side
    obtain ⟨m, hm, hid, _⟩ := hp.exists_connector named hl side
    exact List.mem_map.2 ⟨m, hm, hid⟩
  rw [Bool.and_eq_true, List.contains_iff_mem, List.contains_iff_mem]
  exact ⟨ends .output, ends .input⟩

theorem Sound.write_agrees_arrange (hp : p.Sound) (named : p.Named) {settings : Settings}
    (layout : Layout) (spoken : ∀ m ∈ p.members, m.task.Spoken settings) :
    (∃ text placed, p.write settings layout none = .ok text ∧ p.arrange = .ok placed) ∨
      ∃ ids left, p.write settings layout none = .error (.cycle ids) ∧
        p.arrange = .error (.cycle left) ∧ ∀ id, id ∈ ids ↔ id ∈ left := by
  obtain ⟨placed, left, _, _, _, trapped, arranged⟩ := arrange_outcome hp
  have scheduled := hp.scheduled_among named layout (fun _ hm => hm) spoken
    (List.Nodup.of_map Member.key hp.keys_nodup)
  have same := hp.induced_members named
  by_cases acyclic : Acyclic p.links
  · obtain ⟨_, _, _, _, _, _, hwrite⟩ := scheduled.written (same ▸ acyclic)
    have none_left : left = [] := List.eq_nil_iff_forall_not_mem.2 fun id hid =>
      acyclic_iff.1 acyclic id ((trapped id).1 hid)
    rw [if_pos none_left] at arranged
    exact .inl ⟨_, placed, hwrite, arranged⟩
  · obtain ⟨ids, _, hids, hwrite⟩ := scheduled.trapped (same ▸ acyclic)
    have some_left : left ≠ [] := by
      rintro rfl
      exact acyclic (acyclic_iff.2 fun id h => by simpa using (trapped id).2 h)
    rw [if_neg some_left] at arranged
    refine .inr ⟨ids, left, hwrite, arranged, fun id => ?_⟩
    rw [hids, trapped, same]

/-- The writer puts whichever members of a built pipeline it is to write in an order, or names those
that have none; with all members it agrees with the dependency order. -/
theorem Built.scheduled (b : Built Edit.Regular p)
    (names : ∀ m ∈ p.members, Text.startsBlank m.task.name = false) (settings : Settings)
    (layout : Layout) :
    (∀ chosen : List Member, (∀ m ∈ chosen, m ∈ p.members) →
      (∀ m ∈ chosen, m.task.Spoken settings) → chosen.Nodup →
      p.Scheduled settings layout chosen) ∧
    ((∀ m ∈ p.members, m.task.Spoken settings) →
      (∃ text placed, p.write settings layout none = .ok text ∧ p.arrange = .ok placed) ∨
        ∃ ids left, p.write settings layout none = .error (.cycle ids) ∧
          p.arrange = .error (.cycle left) ∧ ∀ id, id ∈ ids ↔ id ∈ left) :=
  ⟨fun _ => b.sound.scheduled_among (b.sound.named names) layout,
    b.sound.write_agrees_arrange (b.sound.named names) layout⟩

theorem fork_scheduled :
    fork.Scheduled Settings.default (Layout.ofDialect Dialect.bash true) fork.members ∧
    ((∃ text placed, fork.write Settings.default (Layout.ofDialect Dialect.bash true) none =
        .ok text ∧ fork.arrange = .ok placed) ∨
      ∃ ids left, fork.write Settings.default (Layout.ofDialect Dialect.bash true) none =
        .error (.cycle ids) ∧ fork.arrange = .error (.cycle left) ∧
        ∀ id, id ∈ ids ↔ id ∈ left) := by
  have h := fork_built.regular.scheduled (by decide +kernel) Settings.default
    (Layout.ofDialect Dialect.bash true)
  have spoken : ∀ m ∈ fork.members, m.task.Spoken Settings.default := fun _ _ =>
    Task.spoken_of_long rfl
  exact ⟨h.1 _ (fun _ hm => hm) spoken (List.Nodup.of_map Member.id (by decide +kernel)),
    h.2 spoken⟩

end Pipeline

end Sluice
