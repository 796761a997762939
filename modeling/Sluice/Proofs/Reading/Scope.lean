import Sluice.Proofs.Reading.Lookup
import Sluice.Proofs.Reading.Strict

/-! What labels stand for. A label stands for the output that was given it last, by a task or by an
adapter; the labels of an adapter stand for the output that it copies. The output is found in the
text alone, latest command first, but for an adapter whose own label nothing stands behind: it
copies the oldest open output. -/

namespace Sluice

namespace Reading

open Pipeline

def stagesOf (commands : List Command) : Nat :=
  (commands.filter Command.namesTask).length

def denotation (keys : List String) (oldest : List Command → Flow → Option Outlet) :
    List Command → String → Option Outlet
  | [], _ => none
  | c :: before, label =>
    match c.outPipes.reverse.find? fun ref => ref.label = label with
    | none => denotation keys oldest before label
    | some ref =>
      match Flow.ofTee? c.name with
      | none => keys[stagesOf before]?.map fun key => ⟨key, ref.slot⟩
      | some flow =>
        (c.inPipes.getLast?.bind fun source => denotation keys oldest before source.label).or
          (oldest before flow)

structure Names (keys : List String) (oldest : List Command → Flow → Option Outlet)
    (before : List Command) (c : Command) (ref : PipeRef) (l : Link) : Prop where
  mem : ref ∈ c.inPipes
  source : denotation keys oldest before.reverse ref.label = some ⟨l.source, l.sourceSlot⟩
  target : keys[stagesOf before]? = some l.target
  slot : l.targetSlot = ref.slot

/-- Every label of an input of a task makes a link, and every other link leads into an input that
its task leaves without a label. -/
structure Resolves (keys : List String) (oldest : List Command → Flow → Option Outlet)
    (commands : List Command) (links : List Link) : Prop where
  labelled : ∀ before c, before ++ [c] <+: commands → c.namesTask = true →
    ∀ ref ∈ c.inPipes, ∃ l ∈ links, Names keys oldest before c ref l
  others : ∀ l ∈ links, ∃ before c, before ++ [c] <+: commands ∧ c.namesTask = true ∧
    keys[stagesOf before]? = some l.target ∧
    ((∃ ref, Names keys oldest before c ref l) ∨ ∀ ref ∈ c.inPipes, ref.slot ≠ l.targetSlot)

variable {catalogue : Catalogue} {strict : Bool} {s t : Reading} {c : Command} {o : Outlet}
  {flow : Flow} {label : String}

theorem lookup_puts {α : Type} (value : PipeRef → α) (refs : List PipeRef)
    (table : List (String × α)) (label : String) :
    (refs.foldl (fun t ref => Table.put ref.label (value ref) t) table).lookup label =
      match refs.reverse.find? fun ref => ref.label = label with
      | none => table.lookup label
      | some ref => some (value ref) := by
  induction refs generalizing table with
  | nil => rfl
  | cons ref r ih =>
    rw [List.foldl_cons, ih, List.reverse_cons, List.find?_append]
    cases later : r.reverse.find? fun ref => ref.label = label with
    | some found => rfl
    | none =>
      by_cases h : ref.label = label
      · subst h
        simp [Table.lookup_put_self]
      · simp [h, Table.lookup_put_of_ne (Ne.symm h)]

theorem labels_bindBranches (o : Outlet) (refs : List PipeRef) (s : Reading) :
    (refs.foldl (bindBranch o) s).labels =
      refs.foldl (fun ls ref => Table.put ref.label o ls) s.labels := by
  induction refs generalizing s with
  | nil => rfl
  | cons ref r ih => exact ih (bindBranch o s ref)

theorem labels_writeLabels {m : Member} {refs : List PipeRef}
    (run : refs.foldlM (writeLabel m) s = .ok t) :
    t.labels = refs.foldl (fun ls ref => Table.put ref.label ⟨m.key, ref.slot⟩ ls) s.labels := by
  induction refs generalizing s with
  | nil =>
    obtain rfl : s = t := by simpa using run
    rfl
  | cons ref r ih =>
    rw [List.foldlM_cons, bind_eq_ok] at run
    obtain ⟨u, first, rest⟩ := run
    rw [ih rest, List.foldl_cons]
    unfold writeLabel at first
    split at first
    · rw [← pure_eq_ok.1 first]
    · simp at first

theorem labels_offerOutputs (outputs : List Connector) (key : String) (s : Reading) :
    (outputs.foldl (offerOutput c key) s).labels = s.labels := by
  induction outputs generalizing s with
  | nil => rfl
  | cons d r ih =>
    rw [List.foldl_cons, ih]
    unfold offerOutput
    split <;> rfl

theorem links_connect {key : String} {slot : Nat} {l : Link}
    (made : s.connect o key slot = .ok (l, t)) : l = ⟨o.key, o.slot, key, slot⟩ ∧
      t.pipeline.links = s.pipeline.links ++ [l] ∧ t.labels = s.labels := by
  obtain ⟨p, hp, rfl⟩ := connect_eq_ok.1 made
  obtain ⟨allowed, rfl⟩ := Pipeline.connect_eq_ok.1 hp
  exact ⟨eq_of_allowedLink allowed, links_link _ _, rfl⟩

def Labelled (labels : List (String × Outlet)) (key : String) (ref : PipeRef) (l : Link) : Prop :=
  labels.lookup ref.label = some ⟨l.source, l.sourceSlot⟩ ∧ l.target = key ∧ l.targetSlot = ref.slot

theorem links_readLabel {key : String} {ref : PipeRef} (read : readLabel c key s ref = .ok t) :
    t.labels = s.labels ∧
      ∃ l, t.pipeline.links = s.pipeline.links ++ [l] ∧ Labelled s.labels key ref l := by
  obtain ⟨o, l, u, bound, made, rfl⟩ := readLabel_eq_ok.1 read
  obtain ⟨rfl, links, labels⟩ := links_connect made
  exact ⟨labels, _, links, bound, rfl, rfl⟩

theorem links_readLabels {key : String} {refs : List PipeRef}
    (run : refs.foldlM (readLabel c key) s = .ok t) : t.labels = s.labels ∧
      ∃ new, t.pipeline.links = s.pipeline.links ++ new ∧
        (∀ ref ∈ refs, ∃ l ∈ new, Labelled s.labels key ref l) ∧
        ∀ l ∈ new, ∃ ref ∈ refs, Labelled s.labels key ref l := by
  induction refs generalizing s with
  | nil =>
    obtain rfl : s = t := by simpa using run
    exact ⟨rfl, [], by simp⟩
  | cons ref r ih =>
    rw [List.foldlM_cons, bind_eq_ok] at run
    obtain ⟨u, first, rest⟩ := run
    obtain ⟨labels, l, links, made⟩ := links_readLabel first
    obtain ⟨labels', new, links', each, only⟩ := ih rest
    rw [labels] at each only
    refine ⟨labels'.trans labels, l :: new, ?_, ?_, ?_⟩
    · rw [links', links, List.append_assoc, List.singleton_append]
    · refine List.forall_mem_cons.2 ⟨⟨l, List.mem_cons_self, made⟩, fun ref hr => ?_⟩
      exact (each ref hr).imp fun k hk => ⟨List.mem_cons_of_mem l hk.1, hk.2⟩
    · refine List.forall_mem_cons.2 ⟨⟨ref, List.mem_cons_self, made⟩, fun k hk => ?_⟩
      exact (only k hk).imp fun other ho => ⟨List.mem_cons_of_mem ref ho.1, ho.2⟩

theorem links_fillInput {key : String} {input : Connector}
    (filled : fillInput strict c key s input = .ok t) : t.labels = s.labels ∧
      ∃ new, t.pipeline.links = s.pipeline.links ++ new ∧
        ∀ l ∈ new, l.target = key ∧ ∀ ref ∈ c.inPipes, ref.slot ≠ l.targetSlot := by
  rcases fillInput_cases filled with ⟨_, rfl⟩ | ⟨unlabelled, ⟨o, u, l, taken, made⟩ | ⟨_, _, rfl⟩⟩
  · exact ⟨rfl, [], by simp⟩
  · obtain ⟨rest, rfl⟩ := takePending_rest taken
    obtain ⟨rfl, links, labels⟩ := links_connect made
    refine ⟨labels, _, links, List.forall_mem_singleton.2 ⟨rfl, fun ref hr same => ?_⟩⟩
    have labelled := pipeAt?_input_isSome.2 (List.mem_map.2 ⟨ref, hr, same⟩)
    rw [unlabelled] at labelled
    cases labelled
  · exact ⟨rfl, [], by simp⟩

theorem links_fillInputs {key : String} {inputs : List Connector}
    (run : inputs.foldlM (fillInput strict c key) s = .ok t) : t.labels = s.labels ∧
      ∃ new, t.pipeline.links = s.pipeline.links ++ new ∧
        ∀ l ∈ new, l.target = key ∧ ∀ ref ∈ c.inPipes, ref.slot ≠ l.targetSlot := by
  induction inputs generalizing s with
  | nil =>
    obtain rfl : s = t := by simpa using run
    exact ⟨rfl, [], by simp⟩
  | cons input r ih =>
    rw [List.foldlM_cons, bind_eq_ok] at run
    obtain ⟨u, first, rest⟩ := run
    obtain ⟨labels, new, links, unlabelled⟩ := links_fillInput first
    obtain ⟨labels', new', links', unlabelled'⟩ := ih rest
    refine ⟨labels'.trans labels, new ++ new', by rw [links', links, List.append_assoc], ?_⟩
    exact fun l hl => (List.mem_append.1 hl).elim (unlabelled l) (unlabelled' l)

structure TaskRead (s : Reading) (c : Command) (key : String) (t : Reading) : Prop where
  keys : t.pipeline.keys = s.pipeline.keys ++ [key]
  links : ∃ named filled, t.pipeline.links = s.pipeline.links ++ (named ++ filled) ∧
    (∀ ref ∈ c.inPipes, ∃ l ∈ named, Labelled s.labels key ref l) ∧
    (∀ l ∈ named, ∃ ref ∈ c.inPipes, Labelled s.labels key ref l) ∧
    ∀ l ∈ filled, l.target = key ∧ ∀ ref ∈ c.inPipes, ref.slot ≠ l.targetSlot
  labels : ∀ label, t.labels.lookup label =
    match c.outPipes.reverse.find? fun ref => ref.label = label with
    | none => s.labels.lookup label
    | some ref => some ⟨key, ref.slot⟩

theorem Grounded.taskRead (h : s.Grounded) (names : catalogue.Unindented)
    (read : readTask catalogue strict s c = .ok t) : ∃ key, TaskRead s c key t := by
  obtain ⟨m, u, entered, labelled, hl, filled, hf, written, hw, rfl⟩ := readTask_eq_ok.1 read
  obtain ⟨onTask, _, _, appended, _⟩ := entered.onTask h names
  obtain ⟨onTask, joined⟩ := onTask.joined_readLabels hl
  obtain ⟨onTask, _, joined', _⟩ := onTask.joined_fillInputs hf
  obtain ⟨_, same⟩ := onTask.writeLabels (.ends hw)
  have start : u.labels = s.labels := by
    obtain ⟨_, _, _, _, _, _, _, rfl⟩ := entered
    rfl
  obtain ⟨labels, named, links, each, only⟩ := links_readLabels hl
  rw [start] at each only
  obtain ⟨labels', added, links', unlabelled⟩ := links_fillInputs hf
  refine ⟨m.key, ?_, ⟨named, added, ?_, each, only, unlabelled⟩, fun label => ?_⟩
  · rw [pipeline_offerOutputs, same, keys_eq_of_frame (joined'.frame.trans joined.frame),
      appended.keys]
  · rw [pipeline_offerOutputs, same, links', links, appended.links, List.append_assoc]
  · rw [labels_offerOutputs, labels_writeLabels hw, lookup_puts, labels', labels, start]

theorem outlet_of_copied (found : s.copied flow c = .ok (o, t)) :
    (c.inPipes.getLast?.bind fun source => s.labels.lookup source.label).or
      ((s.takePending flow).map Prod.fst) = some o := by
  unfold copied at found
  cases bound : c.inPipes.getLast?.bind fun source => s.labels.lookup source.label with
  | some b =>
    simp only [bound, pure_eq_ok, Prod.mk.injEq] at found
    exact congrArg some found.1
  | none =>
    cases taken : s.takePending flow with
    | some e =>
      simp only [bound, taken, pure_eq_ok] at found
      exact congrArg (fun e => some e.1) found
    | none => simp [bound, taken] at found

theorem labels_readTee (read : readTee flow s c = .ok t) (label : String) :
    t.labels.lookup label =
      match c.outPipes.reverse.find? fun ref => ref.label = label with
      | none => s.labels.lookup label
      | some _ =>
        (c.inPipes.getLast?.bind fun source => s.labels.lookup source.label).or
          ((s.takePending flow).map Prod.fst) := by
  obtain ⟨_, o, u, _, _, found, _, _, rfl⟩ := readTee_eq_ok.1 read
  obtain ⟨rest, hu⟩ := copied_rest found
  have labels : u.labels = s.labels := hu ▸ rfl
  change (c.outPipes.foldl (bindBranch o) u).labels.lookup label = _
  rw [labels_bindBranches, lookup_puts (fun _ => o), labels, outlet_of_copied found]

/-- The oldest open output of a flow when some commands are read, given the latest first. -/
def oldestOpen (catalogue : Catalogue) (strict : Bool) (name : Option String)
    (before : List Command) (flow : Flow) : Option Outlet :=
  match before.reverse.foldlM (readCommand catalogue strict) (start name) with
  | .ok s => (s.takePending flow).map Prod.fst
  | .error _ => none

variable {keys : List String} {oldest : List Command → Flow → Option Outlet}
  {done : List Command} {links named filled : List Link} {name : Option String}

theorem stagesOf_concat (done : List Command) (c : Command) :
    stagesOf (done ++ [c]) = stagesOf done + if c.namesTask then 1 else 0 := by
  cases h : c.namesTask <;> simp [stagesOf, List.filter_append, h]

theorem stagesOf_reverse (done : List Command) : stagesOf done.reverse = stagesOf done := by
  simp [stagesOf, List.filter_reverse]

theorem Resolves.skip (h : Resolves keys oldest done links) (tee : c.namesTask = false) :
    Resolves keys oldest (done ++ [c]) links := by
  refine ⟨fun before d hd names => ?_, fun l hl => ?_⟩
  · rcases List.prefix_concat_iff.1 hd with same | hd
    · obtain ⟨_, rfl⟩ := List.append_singleton_inj.1 same
      rw [tee] at names
      cases names
    · exact h.labelled before d hd names
  · obtain ⟨before, d, hd, found⟩ := h.others l hl
    exact ⟨before, d, hd.trans (List.prefix_append _ _), found⟩

theorem Resolves.task (h : Resolves keys oldest done links) (names : c.namesTask = true)
    {key : String} (target : keys[stagesOf done]? = some key) {labels : List (String × Outlet)}
    (denotes : ∀ label, labels.lookup label = denotation keys oldest done.reverse label)
    (each : ∀ ref ∈ c.inPipes, ∃ l ∈ named, Labelled labels key ref l)
    (only : ∀ l ∈ named, ∃ ref ∈ c.inPipes, Labelled labels key ref l)
    (unlabelled : ∀ l ∈ filled, l.target = key ∧ ∀ ref ∈ c.inPipes, ref.slot ≠ l.targetSlot) :
    Resolves keys oldest (done ++ [c]) (links ++ (named ++ filled)) := by
  have named' : ∀ ref l, ref ∈ c.inPipes → Labelled labels key ref l →
      Names keys oldest done c ref l := fun ref l mem ⟨source, ht, slot⟩ =>
    ⟨mem, denotes ref.label ▸ source, ht ▸ target, slot⟩
  refine ⟨fun before d hd task ref mem => ?_, fun l hl => ?_⟩
  · rcases List.prefix_concat_iff.1 hd with same | hd
    · obtain ⟨rfl, rfl⟩ := List.append_singleton_inj.1 same
      obtain ⟨l, hl, labelled⟩ := each ref mem
      exact ⟨l, by simp [hl], named' ref l mem labelled⟩
    · obtain ⟨l, hl, found⟩ := h.labelled before d hd task ref mem
      exact ⟨l, by simp [hl], found⟩
  · rcases List.mem_append.1 hl with hl | hl
    · obtain ⟨before, d, hd, found⟩ := h.others l hl
      exact ⟨before, d, hd.trans (List.prefix_append _ _), found⟩
    · refine ⟨done, c, List.prefix_refl _, names, ?_⟩
      rcases List.mem_append.1 hl with hl | hl
      · obtain ⟨ref, mem, labelled⟩ := only l hl
        exact ⟨(named' ref l mem labelled).target, .inl ⟨ref, named' ref l mem labelled⟩⟩
      · exact ⟨(unlabelled l hl).1 ▸ target, .inr (unlabelled l hl).2⟩

structure Scoped (oldest : List Command → Flow → Option Outlet) (done : List Command)
    (s : Reading) : Prop where
  stages : s.pipeline.keys.length = stagesOf done
  labels : ∀ keys, s.pipeline.keys <+: keys → ∀ label,
    s.labels.lookup label = denotation keys oldest done.reverse label
  resolves : ∀ keys, s.pipeline.keys <+: keys → Resolves keys oldest done s.pipeline.links

theorem Scoped.start (oldest : List Command → Flow → Option Outlet) (name : Option String) :
    Scoped oldest [] (start name) where
  stages := rfl
  labels _ _ _ := rfl
  resolves _ _ := ⟨by simp, by simp [Reading.start, Pipeline.new]⟩

theorem Scoped.of_readTee (h : Scoped oldest done s) (tee : Flow.ofTee? c.name = some flow)
    (front : oldest done.reverse flow = (s.takePending flow).map Prod.fst)
    (read : readTee flow s c = .ok t) : Scoped oldest (done ++ [c]) t := by
  have names : c.namesTask = false := by simp [Command.namesTask, tee]
  have same := pipeline_readTee read
  refine ⟨?_, fun keys sub label => ?_, fun keys sub => ?_⟩
  · simp [same, h.stages, stagesOf_concat, names]
  · rw [same] at sub
    rw [labels_readTee read, List.reverse_append, List.reverse_singleton, List.singleton_append,
      denotation]
    simp only [h.labels keys sub, tee, front]
  · rw [same] at sub ⊢
    exact (h.resolves keys sub).skip names

theorem Scoped.of_taskRead (h : Scoped oldest done s) (task : Flow.ofTee? c.name = none)
    {key : String} (read : TaskRead s c key t) : Scoped oldest (done ++ [c]) t := by
  have names : c.namesTask = true := by simp [Command.namesTask, task]
  -- The stage of the task comes right behind those of the tasks before.
  have target : ∀ keys, t.pipeline.keys <+: keys → keys[stagesOf done]? = some key := by
    rintro keys ⟨later, rfl⟩
    simp [read.keys, ← h.stages]
  have sub : ∀ keys, t.pipeline.keys <+: keys → s.pipeline.keys <+: keys := fun keys sub =>
    (List.prefix_append _ [key]).trans (read.keys ▸ sub)
  refine ⟨?_, fun keys ht label => ?_, fun keys ht => ?_⟩
  · simp [read.keys, h.stages, stagesOf_concat, names]
  · rw [read.labels, List.reverse_append, List.reverse_singleton, List.singleton_append, denotation]
    simp only [h.labels keys (sub keys ht), task, stagesOf_reverse, target keys ht]
    rfl
  · obtain ⟨named, filled, links, each, only, unlabelled⟩ := read.links
    rw [links]
    exact (h.resolves keys (sub keys ht)).task names (target keys ht)
      (h.labels keys (sub keys ht)) each only unlabelled

theorem scoped_of_commands (names : catalogue.Unindented)
    (run : done.foldlM (readCommand catalogue strict) (start name) = .ok s) :
    Scoped (oldestOpen catalogue strict name) done s := by
  induction done using List.reverseRecOn generalizing s with
  | nil =>
    obtain rfl : start name = s := by simpa using run
    exact .start _ name
  | append_singleton done c ih =>
    rw [List.foldlM_append, bind_eq_ok] at run
    obtain ⟨u, before, last⟩ := run
    have last : readCommand catalogue strict u c = .ok s := by simpa using last
    have grounded : u.Grounded :=
      foldlM_keeps (fun _ _ _ _ h read => h.of_readCommand names read) (.start name) before
    unfold readCommand at last
    cases tee : Flow.ofTee? c.name with
    | some flow =>
      simp only [tee] at last
      refine (ih before).of_readTee tee ?_ last
      simp only [oldestOpen, List.reverse_reverse, before]
    | none =>
      simp only [tee] at last
      obtain ⟨key, read⟩ := grounded.taskRead names last
      exact (ih before).of_taskRead tee read

end Reading

namespace Reader

open Pipeline Reading

variable {r : Reader} {text : String} {name : Option String}

/-- Labels stand for the outputs that were given them last, also through adapters. In whatever text
is read, the label of an input links what it denotes; other links lead into inputs without
labels. -/
theorem resolves_labels (names : r.catalogue.Unindented) {q : Pipeline}
    (read : r.read text name = .ok q) : ∃ commands, CommandLine.read r.marker text = .ok commands ∧
      q.keys.length = stagesOf commands ∧
      Resolves q.keys (oldestOpen r.catalogue.orBundled r.strict name) commands q.links := by
  unfold Reader.read at read
  split at read
  · rename_i commands found
    obtain ⟨s, run, finished⟩ := bind_eq_ok.1 read
    have grounded := grounded_of_passes names (.ends run)
    rw [grounded.finish_eq, step_eq_ok] at finished
    obtain ⟨_, frame, links⟩ := grounded.of_orderBranches (.ends finished)
    have between := scoped_of_commands names.orBundled run
    refine ⟨commands, found, ?_, ?_⟩
    · rw [keys_eq_of_frame frame, between.stages]
    · rw [keys_eq_of_frame frame, links]
      exact between.resolves _ (List.prefix_refl _)
  · simp at read

theorem rebound_resolved : ∃ q, Reader.read ⟨Catalogue.bundled, "\\", false⟩
      "--rx outPipe.0=A --tee inPipe.0=A outPipe.0=A --wx inPipe.0=A --wx" none = .ok q ∧
    q.links = [⟨"read-xml_0", 0, "write-xml_1", 0⟩, ⟨"read-xml_0", 0, "write-xml_2", 0⟩] ∧
    ∃ commands, CommandLine.read "\\"
        "--rx outPipe.0=A --tee inPipe.0=A outPipe.0=A --wx inPipe.0=A --wx" = .ok commands ∧
      q.keys.length = stagesOf commands ∧
      Resolves q.keys (oldestOpen Catalogue.bundled.orBundled false none) commands q.links := by
  obtain ⟨q, read, links⟩ : ∃ q, Reader.read ⟨Catalogue.bundled, "\\", false⟩
      "--rx outPipe.0=A --tee inPipe.0=A outPipe.0=A --wx inPipe.0=A --wx" none = .ok q ∧
      q.links = [⟨"read-xml_0", 0, "write-xml_1", 0⟩, ⟨"read-xml_0", 0, "write-xml_2", 0⟩] := by
    decide +kernel
  exact ⟨q, read, links, resolves_labels (r := ⟨Catalogue.bundled, "\\", false⟩)
    Catalogue.bundled_unindented read⟩

end Reader

end Sluice
