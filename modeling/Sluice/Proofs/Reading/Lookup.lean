import Sluice.Proofs.Reading.Outcomes

/-! Which catalogue decides. A catalogue with tasks is the only one that is looked at: every member
of what is read has the task that it finds for a command, with the values of the command and a key
with the number of its position, and a command whose task it does not find is refused as unknown.
Only a catalogue without tasks gives way to another. -/

namespace Sluice

def Catalogue.orShared (c shared : Catalogue) : Catalogue :=
  if c.tasks.isEmpty then shared else c

theorem Catalogue.orShared_of_tasks {c : Catalogue} (tasks : c.tasks ≠ []) (shared : Catalogue) :
    c.orShared shared = c :=
  if_neg (by simpa using tasks)

def Command.namesTask (c : Command) : Bool :=
  (Flow.ofTee? c.name).isNone

namespace Reading

open Pipeline

variable {catalogue : Catalogue} {strict : Bool} {s t : Reading} {c : Command} {o : Outlet}
  {flow : Flow}

structure Matched (catalogue : Catalogue) (cs : List Command) (p : Pipeline) : Prop where
  tasks : List.Forall₂ (fun c m => catalogue.lookup c.name = some m.task)
    (cs.filter Command.namesTask) p.members
  serials : ∀ m ∈ p.members, m.serial < p.size

structure EntersAt (catalogue : Catalogue) (e : Command × Nat) (m : Member) : Prop where
  task : catalogue.lookup e.1.name = some m.task
  values : giveAll e.1 (Job.ofTask e.2 m.task) = .ok m.toJob
  key : m.key = numberedId m.task.name e.2

theorem EntersAt.serial {e : Command × Nat} {m : Member} (h : EntersAt catalogue e m) :
    m.serial = e.2 :=
  (giveAll_eq_ok h.values).1

theorem entersAt_bare {e : Command × Nat} {m : Member} :
    EntersAt catalogue e m.bare ↔ EntersAt catalogue e m :=
  ⟨fun h => ⟨h.task, h.values, h.key⟩, fun h => ⟨h.task, h.values, h.key⟩⟩

def Enrolled (catalogue : Catalogue) (cs : List Command) (p : Pipeline) : Prop :=
  List.Forall₂ (EntersAt catalogue) (cs.filter Command.namesTask).zipIdx p.members

variable {cs : List Command} {p q : Pipeline}

namespace Enrolled

theorem new (name : Option String) : Enrolled catalogue [] (Pipeline.new name) :=
  .nil

theorem count (h : Enrolled catalogue cs p) : (cs.filter Command.namesTask).length = p.size := by
  simpa [size] using h.length_eq

theorem enters (h : Enrolled catalogue cs p) {n : Nat} {m : Member} (hm : p.members[n]? = some m) :
    ∃ c ∈ cs, EntersAt catalogue (c, n) m := by
  obtain ⟨hn, rfl⟩ := List.getElem?_eq_some_iff.1 hm
  have hn' : n < (cs.filter Command.namesTask).zipIdx.length := h.length_eq ▸ hn
  have := h.get hn' hn
  rw [List.get_eq_getElem, List.getElem_zipIdx, Nat.zero_add] at this
  exact ⟨_, (List.mem_filter.1 (List.getElem_mem _)).1, this⟩

theorem numbered (h : Enrolled catalogue cs p) : p.Numbered := by
  intro n m hm
  obtain ⟨_, _, enters⟩ := h.enters hm
  exact enters.key

theorem serial_lt (h : Enrolled catalogue cs p) {m : Member} (hm : m ∈ p.members) :
    m.serial < p.size := by
  obtain ⟨n, hn⟩ := List.getElem?_of_mem hm
  obtain ⟨_, _, enters⟩ := h.enters hn
  exact enters.serial ▸ (List.getElem?_eq_some_iff.1 hn).1

theorem of_frame (h : Enrolled catalogue cs p) (same : q.frame = p.frame) :
    Enrolled catalogue cs q := by
  have bare (r : Pipeline) : Enrolled catalogue cs r ↔ List.Forall₂ (EntersAt catalogue)
      (cs.filter Command.namesTask).zipIdx r.frame := by
    simp only [frame, List.forall₂_map_right_iff, entersAt_bare]
    rfl
  exact (bare q).2 (same ▸ (bare p).1 h)

theorem skip (h : Enrolled catalogue cs p) (tee : c.namesTask = false) :
    Enrolled catalogue (cs ++ [c]) p := by
  simpa [Enrolled, List.filter_append, tee] using h

theorem add (h : Enrolled catalogue cs p) (names : c.namesTask = true) {job : Job} {task : Task}
    {key : String} (found : catalogue.lookup c.name = some task)
    (given : giveAll c (Job.ofTask p.size task) = .ok job)
    (added : p.add { job with id := none } none = .ok (key, q)) :
    Enrolled catalogue (cs ++ [c]) q := by
  obtain ⟨serial, rfl⟩ := giveAll_eq_ok given
  have fresh : ∀ m ∈ p.members, m.serial ≠ job.serial := fun m hm =>
    ((h.serial_lt hm).trans_eq serial.symm).ne
  obtain ⟨rfl, _, _, rfl⟩ := (add_eq_ok fresh).1 added
  rw [Enrolled, List.filter_append, List.filter_cons_of_pos names, List.filter_nil,
    List.zipIdx_append, h.count, Nat.zero_add]
  exact List.rel_append h (.cons ⟨found, given, freshId_of_free (h.numbered.next_free _)⟩ .nil)

theorem pairs (h : Enrolled catalogue cs p) : List.Forall₂
    (fun c m => ∃ n, EntersAt catalogue (c, n) m) (cs.filter Command.namesTask) p.members := by
  have paired := h.imp (S := fun e m => ∃ n, EntersAt catalogue (e.1, n) m)
    fun e _ enters => ⟨e.2, enters⟩
  rw [← List.zipIdx_map_fst 0 (cs.filter Command.namesTask), List.forall₂_map_left_iff]
  exact paired

theorem matched (h : Enrolled catalogue cs p) : Matched catalogue cs p :=
  ⟨h.pairs.imp fun _ _ ⟨_, enters⟩ => enters.task, fun _ hm => h.serial_lt hm⟩

end Enrolled

theorem frame_connect {key : String} {slot : Nat} {l : Link}
    (made : s.connect o key slot = .ok (l, t)) : t.pipeline.frame = s.pipeline.frame := by
  obtain ⟨p, hp, rfl⟩ := connect_eq_ok.1 made
  obtain ⟨_, rfl⟩ := Pipeline.connect_eq_ok.1 hp
  exact frame_link _ _

theorem frame_readLabel {key : String} {ref : PipeRef} (read : readLabel c key s ref = .ok t) :
    t.pipeline.frame = s.pipeline.frame := by
  obtain ⟨o, l, u, _, made, rfl⟩ := readLabel_eq_ok.1 read
  exact (frame_connect made :)

theorem frame_fillInput {key : String} {input : Connector}
    (filled : fillInput strict c key s input = .ok t) :
    t.pipeline.frame = s.pipeline.frame := by
  rcases fillInput_cases filled with ⟨_, rfl⟩ | ⟨_, ⟨o, u, l, taken, made⟩ | ⟨_, _, rfl⟩⟩
  · rfl
  · obtain ⟨rest, rfl⟩ := takePending_rest taken
    exact (frame_connect made :)
  · rfl

theorem frame_writeLabel {m : Member} {ref : PipeRef} (written : writeLabel m s ref = .ok t) :
    t.pipeline.frame = s.pipeline.frame := by
  unfold writeLabel at written
  split at written
  · rw [← pure_eq_ok.1 written]
  · simp at written

theorem pipeline_offerOutputs (outputs : List Connector) (key : String) (s : Reading) :
    (outputs.foldl (offerOutput c key) s).pipeline = s.pipeline := by
  induction outputs generalizing s with
  | nil => rfl
  | cons d r ih =>
    rw [List.foldl_cons, ih]
    unfold offerOutput
    split <;> rfl

theorem pipeline_bindBranches (refs : List PipeRef) (s : Reading) :
    (refs.foldl (bindBranch o) s).pipeline = s.pipeline := by
  induction refs generalizing s with
  | nil => rfl
  | cons ref r ih => exact ih (bindBranch o s ref)

theorem TeeMeets.pipeline_eq (meets : TeeMeets flow s c t) : t.pipeline = s.pipeline := by
  cases meets with
  | copied found =>
    obtain ⟨rest, rfl⟩ := copied_rest found
    rfl
  | bound found _ _ _ =>
    obtain ⟨rest, rfl⟩ := copied_rest found
    exact pipeline_bindBranches _ _
  | reopened found _ _ _ hu _ =>
    obtain ⟨rest, rfl⟩ := copied_rest found
    subst hu
    exact pipeline_bindBranches c.outPipes _

theorem pipeline_readTee (read : readTee flow s c = .ok t) : t.pipeline = s.pipeline :=
  (TeeMeets.ends read).pipeline_eq

theorem pipeline_copyTo {count : Nat} (copied : copyTo flow s c count = .ok t) :
    t.pipeline = s.pipeline := by
  obtain ⟨⟨o, u⟩, found, rest⟩ := bind_eq_ok.1 copied
  obtain ⟨d, _, rest⟩ := bind_eq_ok.1 rest
  obtain ⟨_, rfl⟩ := copied_rest found
  dsimp only at rest
  split at rest
  · simp at rest
  · obtain rfl := pure_eq_ok.1 rest
    exact pipeline_bindBranches c.outPipes _

theorem frame_passes {α : Type} {f : Reading → α → Except ReadError Reading} {as : List α}
    (passes : Passes f as s t)
    (same : ∀ a s t, f s a = .ok t → t.pipeline.frame = s.pipeline.frame) :
    t.pipeline.frame = s.pipeline.frame :=
  passes.keeps (P := fun u => u.pipeline.frame = s.pipeline.frame)
    (fun a _ u v hu hv => (same a u v hv).trans hu) rfl

theorem TaskMeets.frame_eq (meets : TaskMeets catalogue strict s c t) :
    ∃ m u, Entered catalogue s c m u ∧ t.pipeline.frame = u.pipeline.frame := by
  have label {m : Member} {u v : Reading} (passes : Passes (readLabel c m.key) c.inPipes u v) :
      v.pipeline.frame = u.pipeline.frame := frame_passes passes fun _ _ _ => frame_readLabel
  have fill {m : Member} {u v : Reading}
      (passes : Passes (fillInput strict c m.key) m.inputs u v) :
      v.pipeline.frame = u.pipeline.frame := frame_passes passes fun _ _ _ => frame_fillInput
  have write {m : Member} {u v : Reading} (passes : Passes (writeLabel m) c.outPipes u v) :
      v.pipeline.frame = u.pipeline.frame := frame_passes passes fun _ _ _ => frame_writeLabel
  cases meets with
  | reads entered passes => exact ⟨_, _, entered, label passes⟩
  | fills entered labelled passes =>
    exact ⟨_, _, entered, (fill passes).trans (label (.ends labelled))⟩
  | takes entered labelled passes _ taken =>
    obtain ⟨rest, rfl⟩ := takePending_rest taken
    exact ⟨_, _, entered, (fill passes).trans (label (.ends labelled))⟩
  | writes entered labelled filled passes =>
    exact ⟨_, _, entered,
      (write passes).trans ((fill (.ends filled)).trans (label (.ends labelled)))⟩
  | offers entered labelled filled written _ =>
    refine ⟨_, _, entered, ?_⟩
    rw [pipeline_offerOutputs]
    exact (write (.ends written)).trans ((fill (.ends filled)).trans (label (.ends labelled)))

theorem frame_orderBranches {e : Outlet × List (Nat × Link)} (ordered : orderBranches p e = .ok q) :
    q.frame = p.frame := by
  obtain ⟨_, _, hq⟩ := bind_eq_ok.1 ordered
  exact (reorder_effect hq).2.1

theorem frame_ordered {entries : List (Outlet × List (Nat × Link))}
    (passes : Passes orderBranches entries p q) : q.frame = p.frame :=
  passes.keeps (P := fun r => r.frame = p.frame)
    (fun _ _ _ _ hr ordered => (frame_orderBranches ordered).trans hr) rfl

theorem frame_finish (finished : s.finish = .ok q) : q.frame = s.pipeline.frame := by
  obtain ⟨p, ordered, rest⟩ := bind_eq_ok.1 finished
  have same : p.frame = s.pipeline.frame := frame_ordered (.ends (step_eq_ok.1 ordered))
  split at rest
  · exact (pure_eq_ok.1 rest) ▸ same
  · obtain ⟨_, _, rest⟩ := bind_eq_ok.1 rest
    simp at rest
  · simp at rest

theorem Enrolled.of_task (h : Enrolled catalogue cs s.pipeline) (names : c.namesTask = true)
    (meets : TaskMeets catalogue strict s c t) : Enrolled catalogue (cs ++ [c]) t.pipeline := by
  obtain ⟨m, u, ⟨task, job, p, found, given, added, _, rfl⟩, same⟩ := meets.frame_eq
  exact (h.add names found given added).of_frame same

theorem CommandMeets.enrolled (h : Enrolled catalogue cs s.pipeline)
    (meets : CommandMeets catalogue strict s c t) : Enrolled catalogue (cs ++ [c]) t.pipeline := by
  unfold CommandMeets at meets
  cases tee : Flow.ofTee? c.name with
  | some flow =>
    simp only [tee] at meets
    rw [meets.pipeline_eq]
    exact h.skip (by simp [Command.namesTask, tee])
  | none =>
    simp only [tee] at meets
    exact h.of_task (by simp [Command.namesTask, tee]) meets

theorem Enrolled.of_readCommandBy {whole : String → Option Int}
    (h : Enrolled catalogue cs s.pipeline)
    (read : readCommandBy whole catalogue strict s c = .ok t) :
    Enrolled catalogue (cs ++ [c]) t.pipeline := by
  unfold readCommandBy at read
  cases tee : Flow.ofTee? c.name with
  | some flow =>
    simp only [tee] at read
    obtain ⟨count, _, copied⟩ := bind_eq_ok.1 read
    rw [pipeline_copyTo copied]
    exact h.skip (by simp [Command.namesTask, tee])
  | none =>
    simp only [tee] at read
    exact h.of_task (by simp [Command.namesTask, tee]) (.ends read)

theorem Enrolled.of_commandsBy {whole : String → Option Int} {more : List Command}
    (h : Enrolled catalogue cs s.pipeline)
    (run : more.foldlM (readCommandBy whole catalogue strict) s = .ok t) :
    Enrolled catalogue (cs ++ more) t.pipeline := by
  induction more generalizing cs s with
  | nil =>
    obtain rfl : s = t := by simpa using run
    simpa using h
  | cons c r ih =>
    rw [List.foldlM_cons, bind_eq_ok] at run
    obtain ⟨u, first, rest⟩ := run
    simpa using ih (h.of_readCommandBy first) rest

theorem Enrolled.of_commands {more : List Command} (h : Enrolled catalogue cs s.pipeline)
    (run : more.foldlM (readCommand catalogue strict) s = .ok t) :
    Enrolled catalogue (cs ++ more) t.pipeline :=
  h.of_commandsBy (readCommandBy_wholeNumber? ▸ run)

theorem Inner.ne_unknown {e : ReadError} (h : Inner e) (word : String) : e ≠ .unknownTask word :=
  fun heq => (heq ▸ h : Inner (.unknownTask word))

theorem readCommand_eq_unknown {word : String} :
    readCommand catalogue strict s c = .error (.unknownTask word) ↔
      c.namesTask = true ∧ catalogue.lookup c.name = none ∧ c.name = word := by
  unfold readCommand
  cases tee : Flow.ofTee? c.name with
  | some flow =>
    have known : readTee flow s c ≠ .error (.unknownTask word) :=
      fun heq => inner_readTee flow s c _ heq
    simp [Command.namesTask, tee, known]
  | none =>
    cases found : catalogue.lookup c.name with
    | none => simp [Command.namesTask, tee, readTask_of_unknown found]
    | some task =>
      have known : readTask catalogue strict s c ≠ .error (.unknownTask word) :=
        fun heq => inner_readTask found _ heq
      simp [known]

end Reading

namespace Reader

open Pipeline Reading

variable {r : Reader} {text : String} {name : Option String} {shared : Catalogue}

def readIn (shared : Catalogue) (r : Reader) (text : String) (name : Option String) :
    Except ReadError Pipeline :=
  match CommandLine.read r.marker text with
  | .ok commands => do
    let s ← commands.foldlM (readCommand (r.catalogue.orShared shared) r.strict) (start name)
    s.finish
  | .error n => throw (.overlong n)

theorem readIn_bundled : readIn Catalogue.bundled = read := rfl

theorem readIn_of_tasks (tasks : r.catalogue.tasks ≠ []) (shared other : Catalogue) :
    r.readIn shared text name = r.readIn other text name := by
  simp only [readIn, Catalogue.orShared_of_tasks tasks]

def Reaches (r : Reader) (text : String) (name : Option String) (c : Command) (s : Reading) :
    Prop :=
  ∃ done rest, CommandLine.read r.marker text = .ok (done ++ c :: rest) ∧
    done.foldlM (readCommand r.catalogue r.strict) (start name) = .ok s

theorem enrolled_of_read {p : Pipeline} (read : r.read text name = .ok p) :
    ∃ commands, CommandLine.read r.marker text = .ok commands ∧
      Enrolled r.catalogue.orBundled commands p := by
  unfold Reader.read at read
  split at read
  · rename_i commands found
    obtain ⟨s, run, finished⟩ := bind_eq_ok.1 read
    refine ⟨commands, found, Enrolled.of_frame ?_ (frame_finish finished)⟩
    exact (Enrolled.of_commands (.new name) run :)
  · simp at read

theorem matched_of_read (tasks : r.catalogue.tasks ≠ []) {commands : List Command} {p : Pipeline}
    (found : CommandLine.read r.marker text = .ok commands) (read : r.read text name = .ok p) :
    Matched r.catalogue commands p := by
  have own : r.catalogue.orBundled = r.catalogue := Catalogue.orShared_of_tasks tasks _
  obtain ⟨cs, cut, enrolled⟩ := enrolled_of_read read
  obtain rfl : cs = commands := Except.ok.inj (cut.symm.trans found)
  exact own ▸ enrolled.matched

theorem finish_ne_unknown (s : Reading) (word : String) :
    s.finish ≠ .error (.unknownTask word) := by
  have fails : FailsBy (fun e => ∀ word, e ≠ .unknownTask word) s.finish := by
    refine .bind (fun e he => (inner_step _ e he).ne_unknown) fun p _ => ?_
    split
    · exact .ok p
    · refine .bind (fun e he => ?_) fun names _ => .throws (by simp)
      exact (FailsBy.mapM (fun id => inner_step _) _ e he).ne_unknown
    · exact .throws (by simp)
  exact fun h => fails _ h word rfl

theorem read_eq_unknown (tasks : r.catalogue.tasks ≠ []) {word : String} :
    r.read text name = .error (.unknownTask word) ↔ ∃ c s, r.Reaches text name c s ∧
      c.namesTask = true ∧ r.catalogue.lookup c.name = none ∧ c.name = word := by
  rw [← readIn_bundled, readIn, Catalogue.orShared_of_tasks tasks]
  unfold Reaches
  cases found : CommandLine.read r.marker text with
  | error n => simp [throw, throwThe, MonadExceptOf.throw]
  | ok commands =>
    simp only [Except.ok.injEq]
    constructor
    · intro h
      cases run : commands.foldlM (readCommand r.catalogue r.strict) (start name) with
      | ok s =>
        rw [run, ok_bind] at h
        exact absurd h (finish_ne_unknown s word)
      | error e =>
        rw [run] at h
        obtain rfl : e = .unknownTask word := Except.error.inj h
        obtain ⟨done, c, rest, s, rfl, before, failed⟩ := foldlM_eq_error.1 run
        exact ⟨c, s, ⟨done, rest, rfl, before⟩, readCommand_eq_unknown.1 failed⟩
    · rintro ⟨c, s, ⟨done, rest, rfl, before⟩, unknown⟩
      have failed : readCommand r.catalogue r.strict s c = .error (.unknownTask word) :=
        readCommand_eq_unknown.2 unknown
      rw [foldlM_eq_error.2 ⟨done, c, rest, s, rfl, before, failed⟩]
      rfl

/-- The catalogue decides. When it has tasks, no catalogue that the process shares is looked at,
even if the choice is made twice; the members are the tasks that the catalogue finds for the
commands, in their order; and a command is refused as unknown when the reader comes to it and the
catalogue does not find its task, and only then. -/
theorem decided_by_catalogue (r : Reader) (tasks : r.catalogue.tasks ≠ []) (text : String)
    (name : Option String) :
    (∀ shared, r.readIn shared text name = r.read text name ∧
      readIn shared { r with catalogue := r.catalogue.orShared shared } text name =
        r.read text name) ∧
    (∀ commands p, CommandLine.read r.marker text = .ok commands → r.read text name = .ok p →
      List.Forall₂ (fun c m => r.catalogue.lookup c.name = some m.task)
        (commands.filter Command.namesTask) p.members) ∧
    (∀ c s, r.Reaches text name c s → c.namesTask = true →
      (readCommand r.catalogue r.strict s c = .error (.unknownTask c.name) ↔
        r.catalogue.lookup c.name = none)) ∧
    ∀ word, r.read text name = .error (.unknownTask word) ↔ ∃ c s, r.Reaches text name c s ∧
      c.namesTask = true ∧ r.catalogue.lookup c.name = none ∧ c.name = word := by
  refine ⟨fun shared => ?_, fun commands p found read => (matched_of_read tasks found read).tasks,
    fun c s _ names => by simp [readCommand_eq_unknown, names], fun word => read_eq_unknown tasks⟩
  rw [Catalogue.orShared_of_tasks tasks, and_self, ← readIn_bundled]
  exact readIn_of_tasks tasks shared Catalogue.bundled

theorem decided_by_one_task :
    ∃ r : Reader, r.catalogue.tasks.map (·.1) = ["read-empty"] ∧
      (∀ shared, r.readIn shared "--re --rx a" none = r.read "--re --rx a" none ∧
        readIn shared { r with catalogue := r.catalogue.orShared shared } "--re --rx a" none =
          r.read "--re --rx a" none) ∧
      (∀ commands p, CommandLine.read r.marker "--re --rx a" = .ok commands →
        r.read "--re --rx a" none = .ok p →
        List.Forall₂ (fun c m => r.catalogue.lookup c.name = some m.task)
          (commands.filter Command.namesTask) p.members) ∧
      (∀ c s, r.Reaches "--re --rx a" none c s → c.namesTask = true →
        (readCommand r.catalogue r.strict s c = .error (.unknownTask c.name) ↔
          r.catalogue.lookup c.name = none)) ∧
      ∀ word, r.read "--re --rx a" none = .error (.unknownTask word) ↔
        ∃ c s, r.Reaches "--re --rx a" none c s ∧
          c.namesTask = true ∧ r.catalogue.lookup c.name = none ∧ c.name = word :=
  ⟨⟨(Catalogue.empty.register Catalogue.Bundled.readEmpty).1, "\\", false⟩, by decide +kernel,
    decided_by_catalogue ⟨(Catalogue.empty.register Catalogue.Bundled.readEmpty).1, "\\", false⟩
      (by decide +kernel) "--re --rx a" none⟩

theorem empty_catalogue_overruled : Catalogue.empty.lookup "rx" = none ∧
    ∃ p, Reader.read ⟨Catalogue.empty, "\\", false⟩ "--rx a.osm" none = .ok p ∧
      p.members.map (fun m => m.task.name) = ["read-xml"] := by
  decide +kernel

end Reader

end Sluice
