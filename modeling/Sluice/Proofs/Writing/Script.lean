import Sluice.Proofs.Writing.Blocks
import Sluice.Proofs.Writing.Schedule

/-! The script of a written order: for each member the command of its task, and then one command for
each of its outputs that has several readers. -/

namespace Sluice

open CommandLine Pipeline

structure Job.Writable (j : Job) (settings : Settings) (d : Dialect) : Prop where
  proper : j.Proper
  plain : j.task.Plain
  survives : j.Survives settings d
  word : Text.holdsBlank (Writing.taskWord settings j.task) = false

namespace Writing

variable {p : Pipeline} {settings : Settings} {layout : Layout} {among : List String}

def reads (p : Pipeline) (among : List String) (w : Writing) (m : Member) : List (Nat × Nat) :=
  (feeds p among m).map fun l => (l.targetSlot, pipeOf p among w.numbers l)

def writes (p : Pipeline) (among : List String) (w : Writing) (m : Member) : List (Nat × Nat) :=
  (numberedOutputs p among w.last m).map fun e => (e.1.slot, e.2)

inductive TeeScript (readers : Connector → Nat) : List (Connector × Nat) → List Command → Prop
  | nil : TeeScript readers [] []
  | single {e : Connector × Nat} {es : List (Connector × Nat)} {cs : List Command} :
    readers e.1 ≤ 1 → TeeScript readers es cs → TeeScript readers (e :: es) cs
  | fan {e : Connector × Nat} {es : List (Connector × Nat)} {word : String} {c : Command}
    {cs : List Command} :
    1 < readers e.1 → e.1.flow.tee? = some word →
    TeeCommand word (readers e.1) e.2 (e.2 + 1) c →
    TeeScript readers es cs → TeeScript readers (e :: es) (c :: cs)

inductive Script (p : Pipeline) (settings : Settings) (layout : Layout) (among : List String) :
    Writing → List Member → List Command → Prop
  | nil (w : Writing) : Script p settings layout among w [] []
  | cons {w : Writing} {m : Member} {order : List Member} {c : Command} {ts cs : List Command} :
    TaskCommand settings m.toJob (reads p among w m) (writes p among w m) c →
    TeeScript (readers p among) (numberedOutputs p among w.last m) ts →
    Script p settings layout among (after p settings layout among w m) order cs →
    Script p settings layout among w (m :: order) (c :: ts ++ cs)

def blocksAfter (p : Pipeline) (settings : Settings) (layout : Layout) (among : List String) :
    Writing → List Member → List Block
  | _, [] => []
  | w, m :: r =>
    taskBlock p settings layout among w m ::
      (numberedOutputs p among w.last m).filterMap (teeOf (readers p among)) ++
        blocksAfter p settings layout among (after p settings layout among w m) r

theorem blocks_foldl (w : Writing) (order : List Member) :
    (order.foldl (after p settings layout among) w).blocks =
      w.blocks ++ blocksAfter p settings layout among w order := by
  induction order generalizing w with
  | nil => simp [blocksAfter]
  | cons m r ih => simp [ih, blocksAfter, Writing.after]

theorem readable_slot {m : Member} (plain : m.task.Plain) {side : Side} {c : Connector}
    (hc : c ∈ m.connectors side) : Text.Readable c.slot := by
  obtain ⟨hlt, _⟩ := List.getElem?_eq_some_iff.1 (Member.mem_connectors hc).2.2
  rw [Member.connectors, Connector.length_ofSlots] at hlt
  cases side with
  | input => exact plain.slots m.task.inputs (by simp) _ hlt
  | output => exact plain.slots m.task.outputs (by simp) _ hlt

theorem readers_le (h : p.Sound) (named : p.Named) {m : Member} (hm : m ∈ p.members)
    {c : Connector} (hc : c ∈ m.outputs) : readers p among c ≤ c.flow.maxOut := by
  have hroom := h.room m hm (named m hm) .output c hc
  rw [Connector.capacity, (Member.mem_connectors hc).2.1] at hroom
  refine Nat.le_trans ?_ hroom
  rw [readers, linksAmong_place]
  exact List.length_filter_le _ _

section

variable {d : Dialect} {mark : Char} {marks : List Char} (marker : IsMarker mark marks)
include marker

theorem exists_tee_lines {es : List (Connector × Nat)} {readers : Connector → Nat}
    (fans : ∀ e ∈ es, readers e.1 ≤ 1 ∨ e.1.flow.tee?.isSome)
    (few : ∀ e ∈ es, readers e.1 ≤ e.1.flow.maxOut) :
    ∃ lines : List Line, (∀ l ∈ lines, l.Legible mark marks) ∧
      lines.map Line.render = (es.filterMap (teeOf readers)).map Block.render ∧
      TeeScript readers es (lines.map Line.command) := by
  induction es with
  | nil => exact ⟨[], by simp, rfl, .nil⟩
  | cons e r ih =>
    obtain ⟨lines, legible, hrender, script⟩ :=
      ih (fun o ho => fans o (by simp [ho])) fun o ho => few o (by simp [ho])
    by_cases hone : readers e.1 ≤ 1
    · refine ⟨lines, legible, ?_, .single hone script⟩
      rw [List.filterMap_cons_none (by rw [teeOf, if_pos hone]), hrender]
    · obtain ⟨word, hword⟩ := Option.isSome_iff_exists.1 ((fans e (by simp)).resolve_left hone)
      obtain ⟨l, hl, tee, hline⟩ :=
        exists_line_of_tee marker hword (by omega) (few e (by simp)) e.2 (e.2 + 1)
      refine ⟨l :: lines, ?_, ?_, .fan (by omega) hword tee script⟩
      · simpa using ⟨hl, legible⟩
      · have : teeOf readers e = some (.tee word (readers e.1) e.2 (e.2 + 1)) := by
          rw [teeOf, if_neg hone, hword]
          rfl
        rw [List.filterMap_cons_some this, List.map_cons, List.map_cons, hline, hrender]

theorem exists_lines (h : p.Sound) (named : p.Named) (among : List String) (hd : d ∈ Dialect.all)
    (hmark : d.marker.toList = mark :: marks) (addToolPath : Bool) {order : List Member}
    (members : ∀ m ∈ order, m ∈ p.members)
    (writable : ∀ m ∈ order, m.toJob.Writable settings d) (w : Writing) :
    ∃ lines : List Line, (∀ l ∈ lines, l.Legible mark marks) ∧
      lines.map Line.render =
        (blocksAfter p settings (Layout.ofDialect d addToolPath) among w order).map Block.render ∧
      Script p settings (Layout.ofDialect d addToolPath) among w order
        (lines.map Line.command) := by
  induction order generalizing w with
  | nil => exact ⟨[], by simp, rfl, .nil w⟩
  | cons m r ih =>
    obtain ⟨proper, plain, survives, word⟩ := writable m (by simp)
    have hm := members m (by simp)
    have hreads : ∀ e ∈ reads p among w m, Text.Readable e.1 := by
      intro e he
      obtain ⟨l, hl, rfl⟩ := List.mem_map.1 he
      obtain ⟨c, hc, hl⟩ := List.mem_flatMap.1 hl
      have hplace := (h.mem_linksAmong.1 hl).1.2
      simp only [Connector.place, (Member.mem_connectors hc).2.1] at hplace
      have hslot : l.targetSlot = c.slot := congrArg (fun t => t.2.2) hplace
      exact hslot ▸ readable_slot plain hc
    have hwrites : ∀ e ∈ writes p among w m, Text.Readable e.1 := by
      intro e he
      obtain ⟨o, ho, rfl⟩ := List.mem_map.1 he
      exact readable_slot plain (mem_of_numbered ho)
    obtain ⟨l, hl, task, hline⟩ := exists_line_of_task addToolPath hd hmark marker proper plain
      survives (taskWord_ne proper.task settings) word hreads hwrites
    have fans : ∀ e ∈ numberedOutputs p among w.last m,
        readers p among e.1 ≤ 1 ∨ e.1.flow.tee?.isSome := fun e he =>
      fans_of_sound h named hm (mem_of_numbered he)
    obtain ⟨tees, htees, htee, teeScript⟩ := exists_tee_lines marker fans fun e he =>
      readers_le h named hm (mem_of_numbered he)
    obtain ⟨lines, hlines, hrest, script⟩ :=
      ih (fun k hk => members k (by simp [hk])) (fun k hk => writable k (by simp [hk]))
        (after p settings (Layout.ofDialect d addToolPath) among w m)
    refine ⟨l :: tees ++ lines, ?_, ?_, ?_⟩
    · intro k hk
      simp only [List.cons_append, List.mem_cons, List.mem_append] at hk
      rcases hk with rfl | hk | hk
      · exact hl
      · exact htees k hk
      · exact hlines k hk
    · rw [blocksAfter, List.map_append, List.map_append, List.map_cons, List.map_cons, hline, htee,
        hrest]
      rfl
    · rw [List.map_append, List.map_cons]
      exact .cons task teeScript script

end

end Writing

end Sluice
