import Sluice.Proofs.Pipeline.Jobs
import Sluice.Proofs.Reading.Branches

/-! Reading what has been written. The text for some members of a pipeline without cycles is read,
and what is read has a copy of each of them. -/

namespace Sluice

open CommandLine Pipeline Writing Reading
open scoped List

structure Catalogue.Knows (c : Catalogue) (settings : Settings) (t : Task) : Prop where
  spoken : t.Spoken settings
  lookup : c.lookup (taskWord settings t) = some t
  no_tee : Flow.ofTee? (Text.lower (taskWord settings t)) = none
  word : Text.holdsBlank (taskWord settings t) = false

def Settings.Dashless (settings : Settings) : Prop :=
  startsDashes settings.toolPath.toList = false ∧ Calm settings.toolPath.toList

def Writing.text (layout : Layout) (w : Writing) : String :=
  layout.separator.intercalate (w.blocks.map Block.render)

def Writing.through (p : Pipeline) (settings : Settings) (layout : Layout) (among : List String)
    (order : List Member) : Writing :=
  order.foldl (after p settings layout among) (start (toolBlocks settings layout))

structure Job.Portable (j : Job) (catalogue : Catalogue) (settings : Settings) (d : Dialect) :
    Prop where
  known : catalogue.Knows settings j.task
  plain : j.task.Plain
  carried : j.Carried settings d

namespace Catalogue

theorem Knows.orBundled {c : Catalogue} {settings : Settings} {t : Task}
    (h : c.Knows settings t) : c.orBundled = c := by
  unfold Catalogue.orBundled
  split
  · rename_i hempty
    have hnil : c.tasks = [] := by simpa using hempty
    have := h.lookup
    rw [Catalogue.lookup, hnil, List.lookup_nil] at this
    cases hs : c.shortNames.lookup (key (taskWord settings t)) <;> simp [hs] at this
  · rfl

theorem key_lower {word : String} (h : Text.holdsBlank word = false) :
    key (Text.lower word) = key word := by
  rw [key, key, Text.trim_of_nonblank h, Text.trim_of_nonblank (Text.holdsBlank_lower h),
    Text.lower_lower]

theorem Knows.lookup_lower {c : Catalogue} {settings : Settings} {t : Task}
    (h : c.Knows settings t) :
    c.orBundled.lookup (Text.lower (taskWord settings t)) = some t := by
  rw [h.orBundled, Catalogue.lookup, key_lower h.word]
  exact h.lookup

end Catalogue

namespace Pipeline

variable {p : Pipeline} {settings : Settings} {d : Dialect} {chosen : List Member}

theorem memberOf_toStage (hp : p.Sound) (named : p.Named) {m : Member} (hm : m ∈ p.members) :
    memberOf p m.toStage = .ok m := by
  have hfound : p.member? m.id = some m := by
    rw [named m hm]
    exact member?_of_mem hp.keys_nodup hm
  simp [memberOf, holds, Member.toStage, hfound]

theorem write_eq (hp : p.Sound) (named : p.Named) (settings : Settings) (layout : Layout)
    (inside : ∀ m ∈ chosen, m ∈ p.members) :
    p.write settings layout (some (chosen.map Member.toStage)) =
      (writeQueue p settings layout (chosen.map Member.id) 0
        (Writing.start (toolBlocks settings layout)) chosen).map (Writing.text layout) := by
  have hmembers : (chosen.map Member.toStage).mapM (memberOf p) = .ok chosen := by
    rw [mapM_eq_ok, List.forall₂_map_left_iff, List.forall₂_same]
    exact fun m hm => memberOf_toStage hp named (inside m hm)
  simp only [Pipeline.write, Option.getD_some, blocksOf, hmembers, ok_bind]
  cases writeQueue p settings layout (chosen.map Member.id) 0
    (Writing.start (toolBlocks settings layout)) chosen <;> rfl

theorem exists_through (hp : p.Sound) (named : p.Named) {settings : Settings} (layout : Layout)
    (inside : ∀ m ∈ chosen, m ∈ p.members) (spoken : ∀ m ∈ chosen, m.task.Spoken settings)
    (acyclic : Acyclic (induced p (chosen.map Member.id))) :
    ∃ order, order ~ chosen ∧ ReadyOrder p (chosen.map Member.id) [] order ∧
      p.write settings layout (some (chosen.map Member.toStage)) =
        .ok ((through p settings layout (chosen.map Member.id) order).text layout) := by
  obtain ⟨order, perm, ready, hwrite⟩ := writeQueue_of_acyclic hp named layout inside spoken
    acyclic (toolBlocks settings layout)
  refine ⟨order, perm, ready, ?_⟩
  rw [write_eq hp named settings layout inside, hwrite]
  rfl

theorem lead_dashless {addToolPath : Bool} (hd : d ∈ Dialect.all)
    (h : addToolPath = true → settings.Dashless) :
    ∀ s ∈ (toolBlocks settings (Layout.ofDialect d addToolPath)).map Block.render,
      Calm s.toList ∧ startsDashes s.toList = false := by
  intro s hs
  unfold toolBlocks at hs
  split at hs
  · rename_i hadd
    simp only [Bool.and_eq_true] at hadd
    obtain ⟨hdash, hcalm⟩ := h hadd.1
    have hs : s = (Layout.ofDialect d addToolPath).quoteValue settings.toolPath := by
      simpa [Block.render, Block.words] using hs
    subst hs
    unfold Layout.quoteValue
    split
    · have hquote : (Layout.ofDialect d addToolPath).quote = "\"" := quote_eq hd
      have hend : Calm ['"'] := ⟨fun hb => absurd hb (by decide), trivial⟩
      rw [hquote, String.toList_append, String.toList_append]
      refine ⟨⟨fun hb => absurd hb (by decide), calm_append (by decide) hcalm hend⟩, ?_⟩
      exact startsDashes_of_ne (by decide) _
    · exact ⟨hcalm, hdash⟩
  · simp at hs

theorem ids_nodup (hp : p.Sound) (named : p.Named) (inside : ∀ m ∈ chosen, m ∈ p.members)
    (nodup : chosen.Nodup) : (chosen.map Member.id).Nodup := by
  refine (List.nodup_map_iff_inj_on nodup).2 fun m hm n hn heq => ?_
  exact hp.eq_of_id named (inside m hm) (inside n hn) heq

theorem read_of_commands {r : Reader} {text : String} {name : Option String}
    {commands : List Command} (h : CommandLine.read r.marker text = .ok commands) :
    r.read text name = r.readCommands name commands := by
  rw [Reader.read, h]

theorem read_writable (hp : p.Sound) (named : p.Named)
    (names : ∀ m ∈ p.members, Text.startsBlank m.task.name = false) {order : List Member}
    (inside : ∀ m ∈ order, m ∈ p.members) (nodup : order.Nodup) {among : List String}
    (all : ∀ id, id ∈ among ↔ id ∈ order.map Member.id) (acyclic : Acyclic (induced p among))
    (ready : ReadyOrder p among [] order) (hd : d ∈ Dialect.all) {addToolPath : Bool}
    (tool : addToolPath = true → settings.Dashless) {catalogue : Catalogue}
    (knows : ∀ m ∈ order, catalogue.Knows settings m.task)
    (writable : ∀ m ∈ order, m.toJob.Writable settings d) (name : Option String) :
    ∃ q, Reader.read ⟨catalogue, d.marker, false⟩
        ((through p settings (Layout.ofDialect d addToolPath) among order).text
          (Layout.ofDialect d addToolPath)) name = .ok q ∧
      Restores p among settings (newName order) order q := by
  have ids := ids_nodup hp named inside nodup
  have ren := renames_newName ids
  obtain ⟨mark, marks, hmark, marker⟩ := exists_marker hd
  obtain ⟨lines, legible, hlines, script⟩ := exists_lines marker hp named among hd hmark addToolPath
    inside writable (Writing.start (toolBlocks settings (Layout.ofDialect d addToolPath)))
  have legible' : ∀ m ms, d.marker.toList = m :: ms → ∀ l ∈ lines, l.Legible m ms := by
    intro m ms hms
    rw [hmark, List.cons.injEq] at hms
    obtain ⟨rfl, rfl⟩ := hms
    exact legible
  have hread := read_lines hd
    ((toolBlocks settings (Layout.ofDialect d addToolPath)).map Block.render)
    (by unfold toolBlocks; split <;> simp) (lead_dashless hd tool) legible'
  obtain ⟨s, hs, follows⟩ := (follows_start name _).run hp named
    script (by simpa using inside) (fun m hm => (all _).2 (List.mem_map_of_mem hm))
    (by simpa using ids) ready (by simpa using ren) (fun m hm => (writable m hm).proper)
    (fun m hm => names m (inside m hm)) (fun m hm => (knows m hm).lookup_lower)
    fun m hm => (knows m hm).no_tee
  rw [List.nil_append] at follows
  obtain ⟨q, hq, restores⟩ := follows.finish hp named inside ids all acyclic ren
  refine ⟨q, ?_, restores⟩
  have htext : (through p settings (Layout.ofDialect d addToolPath) among order).text
      (Layout.ofDialect d addToolPath) = d.separator.intercalate
        ((toolBlocks settings (Layout.ofDialect d addToolPath)).map Block.render ++
          lines.map Line.render) := by
    rw [Writing.text, through, blocks_foldl, List.map_append, ← hlines]
    rfl
  rw [htext, read_of_commands (r := ⟨catalogue, d.marker, false⟩) hread, Reader.readCommands, hs,
    ok_bind, hq]

theorem Built.read_through (b : Built Edit.Regular p)
    (names : ∀ m ∈ p.members, Text.startsBlank m.task.name = false) {order : List Member}
    (inside : ∀ m ∈ order, m ∈ p.members) (nodup : order.Nodup) {among : List String}
    (all : ∀ id, id ∈ among ↔ id ∈ order.map Member.id) (acyclic : Acyclic (induced p among))
    (ready : ReadyOrder p among [] order) (hd : d ∈ Dialect.all) {addToolPath : Bool}
    (tool : addToolPath = true → settings.Dashless) {catalogue : Catalogue}
    (portable : ∀ m ∈ order, m.toJob.Portable catalogue settings d) (name : Option String) :
    ∃ q, Reader.read ⟨catalogue, d.marker, false⟩
        ((through p settings (Layout.ofDialect d addToolPath) among order).text
          (Layout.ofDialect d addToolPath)) name = .ok q ∧
      Restores p among settings (newName order) order q := by
  refine read_writable b.sound (b.sound.named names) names inside nodup all acyclic ready hd tool
    (fun m hm => (portable m hm).known) (fun m hm => ?_) name
  obtain ⟨known, plain, carried⟩ := portable m hm
  have proper := b.proper m (inside m hm)
  exact ⟨proper, plain, carried.survives hd proper plain, known.word⟩

end Pipeline

end Sluice
