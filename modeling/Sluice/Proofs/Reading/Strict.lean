import Sluice.Proofs.Pipeline.Validity
import Sluice.Proofs.Reading.Course

/-! Strict and lenient reading. Links only lead into the task being read, so that an input that
finds no output stays without a link: the strict reader refuses exactly the texts of which the
lenient one makes a pipeline with such an input. -/

namespace Sluice

namespace Reading

open Pipeline

variable {catalogue : Catalogue} {strict : Bool} {s t u : Reading} {m : Member} {c : Command}

theorem pipeAt?_isSome_iff {side : Side} {slot : Nat} :
    (c.pipeAt? side slot).isSome = true ↔ slot ∈ (c.pipes side).map PipeRef.slot := by
  rw [Command.pipeAt?, List.find?_isSome, List.mem_map]
  exact exists_congr fun ref => and_congr_right fun _ => decide_eq_true_iff.trans Int.ofNat_inj

theorem pipeAt?_input_isSome {slot : Nat} :
    (c.pipeAt? .input slot).isSome = true ↔ slot ∈ c.inPipes.map PipeRef.slot :=
  pipeAt?_isSome_iff

theorem OnTask.joined_readLabels (h : OnTask m s) {refs : List PipeRef}
    (run : refs.foldlM (readLabel c m.key) s = .ok t) :
    OnTask m t ∧ Joined m.key (refs.map PipeRef.slot) s.pipeline t.pipeline := by
  induction refs generalizing s with
  | nil =>
    obtain rfl : s = t := by simpa using run
    exact ⟨h, .refl _ _⟩
  | cons ref r ih =>
    rw [List.foldlM_cons, bind_eq_ok] at run
    obtain ⟨u, first, rest⟩ := run
    obtain ⟨onTask, joined⟩ := h.of_readLabel first
    obtain ⟨onTask, more⟩ := ih onTask rest
    exact ⟨onTask, joined.trans more⟩

theorem OnTask.joined_fillInputs (h : OnTask m s) {inputs : List Connector}
    (run : inputs.foldlM (fillInput strict c m.key) s = .ok t) :
    OnTask m t ∧ ∃ slots, Joined m.key slots s.pipeline t.pipeline ∧
      slots ⊆ inputs.map Connector.slot ∧ (strict = true → ∀ d ∈ inputs, d.required = true →
        (c.pipeAt? .input d.slot).isSome = true ∨ d.slot ∈ slots) := by
  induction inputs generalizing s with
  | nil =>
    obtain rfl : s = t := by simpa using run
    exact ⟨h, [], .refl _ _, by simp⟩
  | cons input r ih =>
    rw [List.foldlM_cons, bind_eq_ok] at run
    obtain ⟨u, first, rest⟩ := run
    obtain ⟨onTask, filled⟩ := h.of_fillInput first
    obtain ⟨onTask, slots, more, sub, required⟩ := ih onTask rest
    rcases filled with ⟨joined, _⟩ | ⟨rfl, left⟩
    · refine ⟨onTask, input.slot :: slots, joined.trans more, List.cons_subset_cons _ sub, ?_⟩
      refine fun hstrict => List.forall_mem_cons.2 ⟨fun _ => .inr List.mem_cons_self, ?_⟩
      exact fun d hd hr => (required hstrict d hd hr).imp_right (List.mem_cons_of_mem _)
    · refine ⟨onTask, slots, more, List.subset_cons_of_subset _ sub, fun hstrict => ?_⟩
      refine List.forall_mem_cons.2 ⟨fun hr => .inl (left.resolve_right ?_), required hstrict⟩
      simp [hr, hstrict]

theorem Grounded.of_readTask (h : s.Grounded) (names : catalogue.Unindented)
    (read : readTask catalogue strict s c = .ok u) :
    ∃ (st : Stage) (key : String) (mid : Pipeline) (slots : List Nat),
      Given catalogue c st.toJob ∧ Appended st key s.pipeline mid ∧
        Joined key slots mid u.pipeline ∧ (strict = true →
          ∀ d ∈ (newMember st key).inputs, d.required = true → d.slot ∈ slots) := by
  obtain ⟨m, t, entered, labelled, hl, filled, hf, written, hw, rfl⟩ := readTask_eq_ok.1 read
  obtain ⟨onTask, st, given, appended, hm⟩ := entered.onTask h names
  obtain ⟨onTask, joined⟩ := onTask.joined_readLabels hl
  obtain ⟨onTask, slots, more, _, required⟩ := onTask.joined_fillInputs hf
  obtain ⟨onTask, same⟩ := onTask.writeLabels (.ends hw)
  have same := (onTask.offerOutputs (c := c) (List.Subset.refl _)).2.trans same
  refine ⟨st, m.key, t.pipeline, c.inPipes.map PipeRef.slot ++ slots, given, appended, ?_, ?_⟩
  · rw [same]
    exact joined.trans more
  · intro hstrict d hd hr
    rw [← hm] at hd
    rw [List.mem_append, ← pipeAt?_input_isSome]
    exact required hstrict d hd hr

theorem Grounded.of_readTee (h : s.Grounded) {flow : Flow} (read : readTee flow s c = .ok t) :
    t.pipeline = s.pipeline := by
  obtain ⟨count, o, u, output, _, found, hout, _, rfl⟩ := readTee_eq_ok.1 read
  obtain ⟨grounded, same, _⟩ := h.of_copied found
  exact (grounded.bindBranches hout c.outPipes).2.trans same

theorem Grounded.filled_of_readCommand (h : s.Grounded) (names : catalogue.Unindented)
    (read : readCommand catalogue strict s c = .ok t) :
    (t.pipeline.Filled → s.pipeline.Filled) ∧
      (strict = true → s.pipeline.Filled → t.pipeline.Filled) := by
  have growing := (h.of_readCommand names read).growing
  unfold readCommand at read
  cases htee : Flow.ofTee? c.name with
  | some flow =>
    simp only [htee] at read
    rw [h.of_readTee read]
    exact ⟨id, fun _ => id⟩
  | none =>
    simp only [htee] at read
    obtain ⟨st, key, mid, slots, _, appended, joined, required⟩ := h.of_readTask names read
    rw [h.growing.filled_append appended joined growing]
    exact ⟨And.left, fun hstrict filled => ⟨filled, required hstrict⟩⟩

theorem filled_of_commands (names : catalogue.Unindented) {cs : List Command} (h : s.Grounded)
    (run : cs.foldlM (readCommand catalogue strict) s = .ok t) :
    (t.pipeline.Filled → s.pipeline.Filled) ∧
      (strict = true → s.pipeline.Filled → t.pipeline.Filled) := by
  induction cs generalizing s with
  | nil =>
    obtain rfl : s = t := by simpa using run
    exact ⟨id, fun _ => id⟩
  | cons c r ih =>
    rw [List.foldlM_cons, bind_eq_ok] at run
    obtain ⟨u, first, rest⟩ := run
    obtain ⟨before, after⟩ := h.filled_of_readCommand names first
    obtain ⟨before', after'⟩ := ih (h.of_readCommand names first) rest
    exact ⟨fun filled => before (before' filled), fun hstrict filled =>
      after' hstrict (after hstrict filled)⟩

def Sides {α : Type} (left : α → Prop) (strict lenient : Except ReadError α) : Prop :=
  strict = lenient ∨
    (∃ task slot, strict = .error (.openInput task slot)) ∧ ∀ a, lenient = .ok a → left a

namespace Sides

variable {α β : Type} {left : α → Prop} {more : β → Prop} {x y : Except ReadError α}

theorem refl (left : α → Prop) (x : Except ReadError α) : Sides left x x :=
  .inl rfl

theorem after {f g : α → Except ReadError β} (h : ∀ a, x = .ok a → Sides more (f a) (g a)) :
    Sides more (x >>= f) (x >>= g) := by
  cases x with
  | error e => exact .inl rfl
  | ok a => exact h a rfl

theorem bind {f g : α → Except ReadError β} (h : Sides left x y)
    (same : ∀ a, y = .ok a → Sides more (f a) (g a))
    (keeps : ∀ a b, y = .ok a → left a → g a = .ok b → more b) :
    Sides more (x >>= f) (y >>= g) := by
  rcases h with rfl | ⟨⟨task, slot, rfl⟩, open_⟩
  · exact .after same
  · refine .inr ⟨⟨task, slot, rfl⟩, fun b hb => ?_⟩
    obtain ⟨a, ha, hb⟩ := bind_eq_ok.1 hb
    exact keeps a b ha (open_ a ha) hb

end Sides

theorem fillInput_sides (c : Command) (key : String) (s : Reading) (input : Connector) :
    Sides (fun t => t = s ∧ input.required = true ∧ (c.pipeAt? .input input.slot).isSome = false)
      (fillInput true c key s input) (fillInput false c key s input) := by
  unfold fillInput
  split
  · exact .refl _ _
  · rename_i hpipe
    split
    · exact .refl _ _
    · by_cases hr : input.required = true
      · refine .inr ⟨⟨c.name, input.slot, by simp [hr]; rfl⟩, fun t ht => ?_⟩
        have heq : s = t := by simpa using ht
        exact ⟨heq.symm, hr, by simpa using hpipe⟩
      · simp only [hr, Bool.false_and]
        exact .refl _ _

theorem fillInputs_sides (h : OnTask m s) {inputs : List Connector}
    (nodup : (inputs.map Connector.slot).Nodup)
    (unfed : ∀ d ∈ inputs, (c.pipeAt? .input d.slot).isSome = false →
      ¬s.pipeline.Fed m.key d.slot) :
    Sides (fun t => ∃ d ∈ inputs, d.required = true ∧ ¬t.pipeline.Fed m.key d.slot)
      (inputs.foldlM (fillInput true c m.key) s) (inputs.foldlM (fillInput false c m.key) s) := by
  induction inputs generalizing s with
  | nil => exact .refl _ _
  | cons input r ih =>
    obtain ⟨hnew, hr⟩ := List.nodup_cons.1 nodup
    obtain ⟨_, hrest⟩ := List.forall_mem_cons.1 unfed
    rw [List.foldlM_cons, List.foldlM_cons]
    refine (fillInput_sides c m.key s input).bind (fun t ht => ?_) fun t u ht left hu => ?_
    · obtain ⟨onTask, filled⟩ := h.of_fillInput ht
      have unfed' : ∀ d ∈ r, (c.pipeAt? .input d.slot).isSome = false →
          ¬t.pipeline.Fed m.key d.slot := by
        intro d hd hpipe
        rcases filled with ⟨joined, _⟩ | ⟨rfl, _⟩
        · rw [joined.fed_iff]
          have hne : d.slot ≠ input.slot := fun heq => hnew (heq ▸ List.mem_map_of_mem hd)
          simpa [hne] using hrest d hd hpipe
        · exact hrest d hd hpipe
      rcases ih onTask hr unfed' with same | ⟨refused, open_⟩
      · exact .inl same
      · refine .inr ⟨refused, fun u hu => ?_⟩
        obtain ⟨d, hd, found⟩ := open_ u hu
        exact ⟨d, List.mem_cons_of_mem _ hd, found⟩
    · obtain ⟨rfl, hrequired, hpipe⟩ := left
      obtain ⟨_, slots, joined, sub, _⟩ := h.joined_fillInputs hu
      refine ⟨input, List.mem_cons_self, hrequired, ?_⟩
      rw [joined.fed_iff, not_or]
      exact ⟨unfed input List.mem_cons_self hpipe, fun hfed => hnew (sub hfed.2)⟩

theorem OnTask.not_filled (h : OnTask m s) {d : Connector} (hd : d ∈ m.inputs)
    (required : d.required = true) (unfed : ¬s.pipeline.Fed m.key d.slot) :
    ¬s.pipeline.Filled := by
  intro filled
  obtain ⟨n, hn, hbare⟩ := h.held
  have hframe : m.bare ∈ s.pipeline.frame :=
    hbare ▸ List.mem_map_of_mem (mem_of_member? hn).1
  exact unfed (h.growing.filled_iff.1 filled m.bare hframe d hd required)

theorem readTask_sides (h : s.Grounded) (names : catalogue.Unindented) (c : Command) :
    Sides (fun t => ¬t.pipeline.Filled) (readTask catalogue true s c)
      (readTask catalogue false s c) := by
  unfold readTask
  cases hlookup : catalogue.lookup c.name with
  | none => exact .refl _ _
  | some task =>
    refine .after fun job hjob => .after fun ⟨key, p⟩ hadd => .after fun m hm =>
      .after fun labelled hl => ?_
    have hkey : m.key = key := (mem_of_member? (find_eq_ok_iff.1 (step_eq_ok.1 hm))).2
    subst hkey
    have entered : Entered catalogue s c m { s with pipeline := p } :=
      ⟨task, job, p, hlookup, hjob, step_eq_ok.1 hadd, step_eq_ok.1 hm, rfl⟩
    obtain ⟨onTask, st, _, appended, hnew⟩ := entered.onTask h names
    obtain ⟨onTask, joined⟩ := onTask.joined_readLabels hl
    have unfed : ∀ d ∈ m.inputs, (c.pipeAt? .input d.slot).isSome = false →
        ¬labelled.pipeline.Fed m.key d.slot := by
      intro d _ hpipe
      rw [joined.fed_iff, not_or]
      refine ⟨?_, fun hfed => ?_⟩
      · rintro ⟨l, hl, ht, _⟩
        rw [appended.links] at hl
        exact appended.fresh (ht ▸ (h.growing.forward l hl).2)
      · rw [pipeAt?_input_isSome.2 hfed.2] at hpipe
        cases hpipe
    refine (fillInputs_sides onTask (m.slots_nodup .input) unfed).bind
      (fun filled _ => .refl _ _) fun filled u hf left hu => ?_
    obtain ⟨onTask, _⟩ := onTask.joined_fillInputs hf
    obtain ⟨written, hw, hu⟩ := bind_eq_ok.1 hu
    obtain rfl := pure_eq_ok.1 hu
    obtain ⟨onTask, same⟩ := onTask.writeLabels (.ends hw)
    obtain ⟨onTask, same'⟩ := onTask.offerOutputs (c := c) (List.Subset.refl _)
    obtain ⟨d, hd, hr, hopen⟩ := left
    refine onTask.not_filled hd hr ?_
    rwa [same', same]

theorem readCommand_sides (h : s.Grounded) (names : catalogue.Unindented) (c : Command) :
    Sides (fun t => ¬t.pipeline.Filled) (readCommand catalogue true s c)
      (readCommand catalogue false s c) := by
  unfold readCommand
  split
  · exact .refl _ _
  · exact readTask_sides h names c

theorem commands_sides (names : catalogue.Unindented) (cs : List Command) (h : s.Grounded) :
    Sides (fun t => ¬t.pipeline.Filled) (cs.foldlM (readCommand catalogue true) s)
      (cs.foldlM (readCommand catalogue false) s) := by
  induction cs generalizing s with
  | nil => exact .refl _ _
  | cons c r ih =>
    rw [List.foldlM_cons, List.foldlM_cons]
    refine (readCommand_sides h names c).bind (fun t ht => ih (h.of_readCommand names ht))
      fun t u ht left hu filled => left ?_
    exact (filled_of_commands names (h.of_readCommand names ht) hu).1 filled

theorem Grounded.filled_of_finish (h : s.Grounded) {q : Pipeline} (finished : s.finish = .ok q) :
    q.Growing ∧ (q.Filled ↔ s.pipeline.Filled) := by
  rw [h.finish_eq, step_eq_ok] at finished
  obtain ⟨growing, frame, links⟩ := h.of_orderBranches (.ends finished)
  refine ⟨growing, ?_⟩
  rw [growing.filled_iff, h.growing.filled_iff, frame]
  simp only [Fed, links]

end Reading

namespace Reader

open Pipeline Reading

variable {r : Reader} {text : String} {name : Option String}

theorem filled_of_read (names : r.catalogue.Unindented) {q : Pipeline}
    (read : r.read text name = .ok q) : q.Growing ∧ (r.strict = true → q.Filled) := by
  unfold Reader.read at read
  split at read
  · obtain ⟨s, run, finished⟩ := bind_eq_ok.1 read
    obtain ⟨growing, filled⟩ :=
      (grounded_of_passes names (.ends run)).filled_of_finish finished
    refine ⟨growing, fun hstrict => filled.2 ?_⟩
    refine (filled_of_commands names.orBundled (.start name) run).2 hstrict ?_
    simp [Filled, start, Pipeline.new]
  · simp at read

theorem read_sides {catalogue : Catalogue} (names : catalogue.Unindented)
    (marker text : String) (name : Option String) :
    Sides (fun q => ¬q.Filled) (Reader.read ⟨catalogue, marker, true⟩ text name)
      (Reader.read ⟨catalogue, marker, false⟩ text name) := by
  unfold Reader.read
  cases CommandLine.read marker text with
  | error n =>
    dsimp only
    exact .refl _ _
  | ok commands =>
    dsimp only
    have grounded : ∀ s, commands.foldlM (readCommand catalogue.orBundled false) (start name) =
        .ok s → s.Grounded := fun s run =>
      grounded_of_passes (r := ⟨catalogue, marker, false⟩) names (.ends run)
    refine (commands_sides names.orBundled commands (.start name)).bind (fun s _ => .refl _ _) ?_
    intro s q run left finished
    rwa [((grounded s run).filled_of_finish finished).2]

/-- The strict reader gives what the lenient one gives, if that is valid; otherwise it refuses an
unconnected input. -/
theorem strict_iff_valid (catalogue : Catalogue) (names : catalogue.Unindented)
    (marker text : String) (name : Option String) :
    (∀ q, Reader.read ⟨catalogue, marker, true⟩ text name = .ok q ↔
      Reader.read ⟨catalogue, marker, false⟩ text name = .ok q ∧
        ∃ v, q.validate = .ok v ∧ v.isValid = true) ∧
    ∀ q, Reader.read ⟨catalogue, marker, false⟩ text name = .ok q →
      ∃ v, q.validate = .ok v ∧ (v.isValid = false →
        ∃ e, Reader.read ⟨catalogue, marker, true⟩ text name = .error e ∧ ∀ messages,
          ∃ refusal, e.refusal? messages = .ok (some refusal) ∧
            refusal.kind = .unconnectedInput) := by
  have valid : ∀ q : Pipeline, q.Growing →
      ∃ v, q.validate = .ok v ∧ (v.isValid = true ↔ q.Filled) :=
    fun q growing => growing.forward.validate growing.sound growing.named
  have sides := read_sides names marker text name
  refine ⟨fun q => ⟨fun read => ?_, fun ⟨read, v, hv, hvalid⟩ => ?_⟩, fun q read => ?_⟩
  · obtain ⟨growing, filled⟩ := filled_of_read (r := ⟨catalogue, marker, true⟩) names read
    obtain ⟨v, hv, hvalid⟩ := valid q growing
    rcases sides with same | ⟨⟨task, slot, refused⟩, _⟩
    · exact ⟨same ▸ read, v, hv, hvalid.2 (filled rfl)⟩
    · rw [refused] at read
      cases read
  · obtain ⟨growing, _⟩ := filled_of_read (r := ⟨catalogue, marker, false⟩) names read
    obtain ⟨w, hw, hfilled⟩ := valid q growing
    obtain rfl : v = w := by simpa [hv] using hw
    rcases sides with same | ⟨_, left⟩
    · rw [same, read]
    · exact absurd (hfilled.1 hvalid) (left q read)
  · obtain ⟨growing, _⟩ := filled_of_read (r := ⟨catalogue, marker, false⟩) names read
    obtain ⟨v, hv, hvalid⟩ := valid q growing
    refine ⟨v, hv, fun invalid => ?_⟩
    rcases sides with same | ⟨⟨task, slot, refused⟩, _⟩
    · have filled := (filled_of_read (r := ⟨catalogue, marker, true⟩) names (same.trans read)).2 rfl
      rw [hvalid.2 filled] at invalid
      cases invalid
    · exact ⟨_, refused, fun messages => ⟨_, rfl, rfl⟩⟩

theorem bundled_strict_iff_valid :
    (∀ q, Reader.read ⟨Catalogue.bundled, "\\", true⟩ "--wx a" none = .ok q ↔
      Reader.read ⟨Catalogue.bundled, "\\", false⟩ "--wx a" none = .ok q ∧
        ∃ v, q.validate = .ok v ∧ v.isValid = true) ∧
    ∀ q, Reader.read ⟨Catalogue.bundled, "\\", false⟩ "--wx a" none = .ok q →
      ∃ v, q.validate = .ok v ∧ (v.isValid = false →
        ∃ e, Reader.read ⟨Catalogue.bundled, "\\", true⟩ "--wx a" none = .error e ∧ ∀ messages,
          ∃ refusal, e.refusal? messages = .ok (some refusal) ∧
            refusal.kind = .unconnectedInput) :=
  strict_iff_valid Catalogue.bundled Catalogue.bundled_unindented "\\" "--wx a" none

end Reader

end Sluice
