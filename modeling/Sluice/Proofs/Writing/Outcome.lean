import Sluice.Proofs.Writing.Schedule

/-! What can come of writing. The stages of a sound pipeline are written, or the writer says which
of them wait for each other; that an input reads what has no number, or that a flow without an
adapter has several readers, cannot be. -/

namespace Sluice

open Pipeline Writing
open scoped List

variable {p : Pipeline}

/-- Stages each of which reads from another of them, so that none can come first. -/
structure Pipeline.Stuck (p : Pipeline) (ids : List String) : Prop where
  nonempty : ids ≠ []
  waits : ∀ id ∈ ids, ∃ l ∈ p.links, l.target = id ∧ l.source ∈ ids

inductive Writes (p : Pipeline) (settings : Settings) {α : Type} : Except PipelineError α → Prop
  | written (a : α) : Writes p settings (.ok a)
  | stuck {ids : List String} : p.Stuck ids → Writes p settings (.error (.cycle ids))
  | mute {m : Member} : m ∈ p.members → ¬m.task.Spoken settings →
    Writes p settings (.error (.noText m.task.shortName))

namespace Writes

variable {settings : Settings} {α β : Type} {result : Except PipelineError α}

theorem map (h : Writes p settings result) (f : α → β) :
    Writes p settings (do pure (f (← result))) := by
  cases h with
  | written a => exact .written (f a)
  | stuck h => exact .stuck h
  | mute hm h => exact .mute hm h

end Writes

namespace Writing

theorem writes_queue (h : p.Sound) (named : p.Named) (settings : Settings) (layout : Layout)
    (blocks : List Block) {queue : List Member} (inside : ∀ m ∈ queue, m ∈ p.members) :
    Writes p settings
      (writeQueue p settings layout (queue.map Member.id) 0 (start blocks) queue) := by
  rcases writeQueue_start h named settings layout inside blocks with
    ⟨order, rest, perm, _, result⟩ | ⟨m, hm, mute, result⟩
  · by_cases left : rest = []
    · rw [if_pos left] at result
      exact result ▸ .written _
    · rw [if_neg left] at result
      refine result.2 ▸ .stuck ⟨by simpa using left, fun id hid => ?_⟩
      obtain ⟨l, hl, waits⟩ := waits_of_unready h named inside perm result.1 id hid
      exact ⟨l, (mem_induced.1 hl).1, waits⟩
  · exact result ▸ .mute (inside m hm) mute

theorem memberOf_of_holds {s : Stage} (h : p.holds s = true) :
    ∃ m ∈ p.members, memberOf p s = .ok m := by
  unfold memberOf
  rw [if_pos h]
  unfold holds at h
  cases hm : s.id.bind p.member? with
  | none => simp [hm] at h
  | some m =>
    obtain ⟨id, _, hm⟩ := Option.bind_eq_some_iff.1 hm
    exact ⟨m, (mem_of_member? hm).1, rfl⟩

theorem mapM_memberOf {ss : List Stage} (h : ∀ s ∈ ss, p.holds s = true) :
    ∃ ms, ss.mapM (memberOf p) = .ok ms ∧ ∀ m ∈ ms, m ∈ p.members := by
  induction ss with
  | nil => exact ⟨[], rfl, by simp⟩
  | cons s r ih =>
    obtain ⟨m, hm, hs⟩ := memberOf_of_holds (h s (by simp))
    obtain ⟨ms, hms, inside⟩ := ih fun s hs => h s (by simp [hs])
    refine ⟨m :: ms, by simp [List.mapM_cons, hs, hms], ?_⟩
    exact List.forall_mem_cons.2 ⟨hm, inside⟩

end Writing

namespace Pipeline

theorem holds_toStage (h : p.Sound) (named : p.Named) {m : Member} (hm : m ∈ p.members) :
    p.holds m.toStage = true := by
  have found : p.member? m.id = some m := named m hm ▸ member?_of_mem h.keys_nodup hm
  simp [holds, Member.toStage, found]

theorem Sound.chosen_held (h : p.Sound) (named : p.Named) {some? : Option (List Stage)}
    (held : ∀ ss ∈ some?, ∀ s ∈ ss, p.holds s = true) :
    ∀ s ∈ some?.getD p.stages, p.holds s = true := by
  cases some? with
  | none =>
    intro s hs
    obtain ⟨m, hm, rfl⟩ := List.mem_map.1 hs
    exact holds_toStage h named hm
  | some ss => exact held ss rfl

theorem Sound.writes (h : p.Sound) (named : p.Named) (settings : Settings) (layout : Layout)
    {some? : Option (List Stage)} (held : ∀ ss ∈ some?, ∀ s ∈ ss, p.holds s = true) :
    Writes p settings (p.write settings layout some?) := by
  obtain ⟨ms, hms, inside⟩ := mapM_memberOf (h.chosen_held named held)
  refine Writes.map ?_ _
  rw [blocksOf, hms, ok_bind]
  exact (writes_queue h named settings layout _ inside).map _

theorem writeBy_of_path {library : ConfigLibrary} {settings : Settings} {layout : Layout}
    {path : String} (read : settings.readPath library layout = .ok path)
    (some? : Option (List Stage)) :
    p.writeBy library settings layout some? =
      p.write { settings with toolPath := path } layout some? := by
  rw [writeBy, read]
  cases looked : (some?.getD p.stages).mapM (memberOf p) with
  | error e =>
    rw [write, blocksOf, looked]
    rfl
  | ok members => rfl

theorem readPath_eq {library : ConfigLibrary} {settings : Settings} {path : String}
    (given : library.given settings.toolPath = .ok (.text path)) (layout : Layout) :
    settings.readPath library layout = .ok path := by
  rw [Settings.readPath, Settings.get, given]
  rfl

theorem writeBy_plain {settings : Settings} (known : settings.toolPath ≠ ConfigLibrary.missingMark)
    (layout : Layout) (some? : Option (List Stage)) :
    p.writeBy .plain settings layout some? = p.write settings layout some? :=
  writeBy_of_path (readPath_eq (if_neg known) layout) some?

end Pipeline

end Sluice
