import Sluice.Proofs.Reading.Grounded

/-! The course of a reading. Whatever state the reader passes through, its labels and open outputs
lead to outputs of members and all its links lead to later members. In the end the order of the
members is a dependency order, so that no command line is refused for a cycle. -/

namespace Sluice

open Pipeline

def Passes {ε σ α : Type} (f : σ → α → Except ε σ) (as : List α) (s t : σ) : Prop :=
  ∃ done, done <+: as ∧ done.foldlM f s = .ok t

namespace Passes

variable {ε σ α : Type} {f : σ → α → Except ε σ} {as : List α} {s t : σ}

theorem ends (h : as.foldlM f s = .ok t) : Passes f as s t :=
  ⟨as, List.prefix_refl as, h⟩

theorem keeps {P : σ → Prop} (h : Passes f as s t)
    (step : ∀ a ∈ as, ∀ s t, P s → f s a = .ok t → P t) (start : P s) : P t := by
  obtain ⟨done, sub, run⟩ := h
  exact foldlM_keeps (fun a ha => step a (sub.subset ha)) start run

end Passes

namespace Reading

variable {catalogue : Catalogue} {strict : Bool} {s t : Reading} {c : Command} {flow : Flow}

inductive TeeMeets (flow : Flow) (s : Reading) (c : Command) : Reading → Prop
  | copied {o : Outlet} {t : Reading} : s.copied flow c = .ok (o, t) → TeeMeets flow s c t
  | bound {o : Outlet} {t : Reading} {output : Connector} {refs : List PipeRef} :
    s.copied flow c = .ok (o, t) → t.pipeline.outputAt o.key o.slot = .ok output →
    output.flow = flow → refs <+: c.outPipes → TeeMeets flow s c (refs.foldl (bindBranch o) t)
  | reopened {o : Outlet} {t u : Reading} {output : Connector} {count times : Nat} :
    s.copied flow c = .ok (o, t) → t.pipeline.outputAt o.key o.slot = .ok output →
    output.flow = flow → copies c = .ok count → u = c.outPipes.foldl (bindBranch o) t →
    times ≤ count - c.outPipes.length →
    TeeMeets flow s c { u with pending := u.pending ++ List.replicate times (flow, o) }

inductive TaskMeets (catalogue : Catalogue) (strict : Bool) (s : Reading) (c : Command) :
    Reading → Prop
  | reads {m : Member} {t u : Reading} : Entered catalogue s c m t →
    Passes (readLabel c m.key) c.inPipes t u → TaskMeets catalogue strict s c u
  | fills {m : Member} {t labelled u : Reading} : Entered catalogue s c m t →
    c.inPipes.foldlM (readLabel c m.key) t = .ok labelled →
    Passes (fillInput strict c m.key) m.inputs labelled u → TaskMeets catalogue strict s c u
  | takes {m : Member} {t labelled filled u : Reading} {input : Connector} {o : Outlet} :
    Entered catalogue s c m t → c.inPipes.foldlM (readLabel c m.key) t = .ok labelled →
    Passes (fillInput strict c m.key) m.inputs labelled filled → input ∈ m.inputs →
    filled.takePending input.flow = some (o, u) → TaskMeets catalogue strict s c u
  | writes {m : Member} {t labelled filled u : Reading} : Entered catalogue s c m t →
    c.inPipes.foldlM (readLabel c m.key) t = .ok labelled →
    m.inputs.foldlM (fillInput strict c m.key) labelled = .ok filled →
    Passes (writeLabel m) c.outPipes filled u → TaskMeets catalogue strict s c u
  | offers {m : Member} {t labelled filled written : Reading} {outputs : List Connector} :
    Entered catalogue s c m t → c.inPipes.foldlM (readLabel c m.key) t = .ok labelled →
    m.inputs.foldlM (fillInput strict c m.key) labelled = .ok filled →
    c.outPipes.foldlM (writeLabel m) filled = .ok written → outputs <+: m.outputs →
    TaskMeets catalogue strict s c (outputs.foldl (offerOutput c m.key) written)

def CommandMeets (catalogue : Catalogue) (strict : Bool) (s : Reading) (c : Command)
    (t : Reading) : Prop :=
  match Flow.ofTee? c.name with
  | some flow => TeeMeets flow s c t
  | none => TaskMeets catalogue strict s c t

theorem TeeMeets.keeps (h : s.Grounded) (meets : TeeMeets flow s c t) : t.Grounded := by
  cases meets with
  | copied found => exact (h.of_copied found).1
  | bound found output _ _ => exact ((h.of_copied found).1.bindBranches output _).1
  | reopened found output hflow _ hu _ =>
    obtain ⟨grounded, same⟩ := (h.of_copied found).1.bindBranches output c.outPipes
    subst hu hflow
    exact grounded.reopen (same ▸ output) _

theorem readTee_eq_ok : readTee flow s c = .ok t ↔ ∃ count o u output, copies c = .ok count ∧
    s.copied flow c = .ok (o, u) ∧ u.pipeline.outputAt o.key o.slot = .ok output ∧
    output.flow = flow ∧
    t = { c.outPipes.foldl (bindBranch o) u with
      pending := (c.outPipes.foldl (bindBranch o) u).pending ++
        List.replicate (count - c.outPipes.length) (flow, o) } := by
  simp only [readTee, bind_eq_ok, step_eq_ok, Prod.exists, ne_eq]
  constructor
  · rintro ⟨count, hcount, o, u, found, output, hout, h⟩
    split at h
    · simp at h
    · rename_i hflow
      exact ⟨count, o, u, output, hcount, found, hout, not_not.1 hflow, (pure_eq_ok.1 h).symm⟩
  · rintro ⟨count, o, u, output, hcount, found, hout, hflow, rfl⟩
    refine ⟨count, hcount, o, u, found, output, hout, ?_⟩
    rw [if_neg (not_not.2 hflow)]
    rfl

theorem TeeMeets.ends (h : readTee flow s c = .ok t) : TeeMeets flow s c t := by
  obtain ⟨count, o, u, output, hcount, found, hout, hflow, rfl⟩ := readTee_eq_ok.1 h
  exact .reopened found hout hflow hcount rfl (Nat.le_refl _)

theorem OnTask.readLabels {m : Member} (h : OnTask m s)
    (passes : Passes (readLabel c m.key) c.inPipes s t) : OnTask m t :=
  passes.keeps (fun _ _ _ _ hs hr => (hs.of_readLabel hr).1) h

theorem OnTask.fillInputs {m : Member} (h : OnTask m s)
    (passes : Passes (fillInput strict c m.key) m.inputs s t) : OnTask m t :=
  passes.keeps (fun _ _ _ _ hs hf => (hs.of_fillInput hf).1) h

theorem OnTask.writeLabels {m : Member} (h : OnTask m s)
    (passes : Passes (writeLabel m) c.outPipes s t) : OnTask m t ∧ t.pipeline = s.pipeline := by
  refine passes.keeps (P := fun u => OnTask m u ∧ u.pipeline = s.pipeline)
    (fun _ _ u v hu hw => ?_) ⟨h, rfl⟩
  obtain ⟨onTask, same⟩ := hu.1.of_writeLabel hw
  exact ⟨onTask, same.trans hu.2⟩

theorem OnTask.offerOutputs {m : Member} (h : OnTask m s) {outputs : List Connector}
    (sub : outputs ⊆ m.outputs) :
    OnTask m (outputs.foldl (offerOutput c m.key) s) ∧
      (outputs.foldl (offerOutput c m.key) s).pipeline = s.pipeline := by
  induction outputs generalizing s with
  | nil => exact ⟨h, rfl⟩
  | cons d r ih =>
    obtain ⟨hd, hr⟩ := List.cons_subset.1 sub
    obtain ⟨onTask, same⟩ := h.of_offerOutput (c := c) hd
    exact ⟨(ih onTask hr).1, (ih onTask hr).2.trans same⟩

theorem TaskMeets.keeps (h : s.Grounded) (names : catalogue.Unindented)
    (meets : TaskMeets catalogue strict s c t) : t.Grounded := by
  cases meets with
  | reads entered passes => exact ((entered.onTask h names).1.readLabels passes).toGrounded
  | fills entered labelled passes =>
    exact (((entered.onTask h names).1.readLabels (.ends labelled)).fillInputs passes).toGrounded
  | takes entered labelled passes _ taken =>
    have onTask := ((entered.onTask h names).1.readLabels (.ends labelled)).fillInputs passes
    exact (onTask.toGrounded.of_takePending taken).1
  | writes entered labelled filled passes =>
    have onLabels := (entered.onTask h names).1.readLabels (.ends labelled)
    have onTask := onLabels.fillInputs (.ends filled)
    exact (onTask.writeLabels passes).1.toGrounded
  | offers entered labelled filled written sub =>
    have onLabels := (entered.onTask h names).1.readLabels (.ends labelled)
    have onTask := onLabels.fillInputs (.ends filled)
    exact ((onTask.writeLabels (.ends written)).1.offerOutputs sub.subset).1.toGrounded

theorem TaskMeets.ends (h : readTask catalogue strict s c = .ok t) :
    TaskMeets catalogue strict s c t := by
  obtain ⟨m, u, entered, labelled, hl, filled, hf, written, hw, rfl⟩ := readTask_eq_ok.1 h
  exact .offers entered hl hf hw (List.prefix_refl _)

theorem CommandMeets.keeps (h : s.Grounded) (names : catalogue.Unindented)
    (meets : CommandMeets catalogue strict s c t) : t.Grounded := by
  unfold CommandMeets at meets
  split at meets
  · exact meets.keeps h
  · exact meets.keeps h names

theorem CommandMeets.ends (h : readCommand catalogue strict s c = .ok t) :
    CommandMeets catalogue strict s c t := by
  unfold readCommand at h
  unfold CommandMeets
  cases htee : Flow.ofTee? c.name with
  | some flow =>
    simp only [htee] at h ⊢
    exact .ends h
  | none =>
    simp only [htee] at h ⊢
    exact .ends h

theorem Grounded.of_readCommand (h : s.Grounded) (names : catalogue.Unindented)
    (read : readCommand catalogue strict s c = .ok t) : t.Grounded :=
  (CommandMeets.ends read).keeps h names

theorem orderBranches_keeps {p q : Pipeline} (growing : p.Growing)
    {entry : Outlet × List (Nat × Link)} (nodup : (entry.2.map Prod.snd).Nodup)
    (ordered : orderBranches p entry = .ok q) :
    q.Growing ∧ q.frame = p.frame ∧ q.links = p.links := by
  simp only [orderBranches, bind_eq_ok] at ordered
  obtain ⟨output, _, hq⟩ := ordered
  have perm := (List.mergeSort_perm entry.2 fun a b => a.1 ≤ b.1).map Prod.snd
  obtain ⟨links, frame, _⟩ := reorder_effect hq
  have keys := keys_eq_of_frame frame
  refine ⟨⟨growing.sound.reorder (perm.nodup_iff.2 nodup) hq, growing.named.of_frame frame,
    fun m hm => ?_, growing.forward.congr keys links⟩, frame, links⟩
  obtain ⟨n, hn, hb⟩ := mem_of_frame frame hm
  have hserial : n.serial = m.serial := (congrArg (fun m : Member => m.serial) hb :)
  have hsize : q.size = p.size := by
    have := congrArg List.length frame
    simpa [Pipeline.frame, size] using this
  rw [← hserial, hsize]
  exact growing.serials n hn

theorem Grounded.of_orderBranches (h : s.Grounded) {p : Pipeline}
    (passes : Passes orderBranches s.branched s.pipeline p) :
    p.Growing ∧ p.frame = s.pipeline.frame ∧ p.links = s.pipeline.links := by
  refine passes.keeps
    (P := fun p => p.Growing ∧ p.frame = s.pipeline.frame ∧ p.links = s.pipeline.links)
    (fun e he p q hp hq => ?_) ⟨h.growing, rfl, rfl⟩
  obtain ⟨growing, frame, links⟩ := orderBranches_keeps hp.1 (h.branched e he).1 hq
  exact ⟨growing, frame.trans hp.2.1, links.trans hp.2.2⟩

theorem Grounded.finish_eq (h : s.Grounded) :
    s.finish = step (s.branched.foldlM orderBranches s.pipeline) := by
  unfold finish
  cases hp : s.branched.foldlM orderBranches s.pipeline with
  | error e => rfl
  | ok p =>
    obtain ⟨growing, _⟩ := h.of_orderBranches (.ends hp)
    obtain ⟨placed, hplaced⟩ := growing.forward.arrange growing.sound
    simp only [step, pure, Except.pure, ok_bind, hplaced]

def NoLoop {α : Type} (result : Except ReadError α) : Prop :=
  ∀ tasks, result ≠ .error (.loop tasks)

namespace NoLoop

variable {α β : Type}

theorem ok (a : α) : NoLoop (pure a) := by
  simp [NoLoop, pure, Except.pure]

theorem throws {e : ReadError} (h : ∀ tasks, e ≠ .loop tasks) :
    NoLoop (throw e : Except ReadError α) := by
  simpa [NoLoop, throw, throwThe, MonadExceptOf.throw] using h

theorem bind {result : Except ReadError α} {f : α → Except ReadError β} (h : NoLoop result)
    (next : ∀ a, NoLoop (f a)) : NoLoop (result >>= f) := by
  cases result with
  | error e =>
    intro tasks heq
    exact h tasks (congrArg Except.error (Except.error.inj heq))
  | ok a => exact next a

theorem foldlM {f : β → α → Except ReadError β} (h : ∀ b a, NoLoop (f b a)) (as : List α) (b : β) :
    NoLoop (as.foldlM f b) := by
  induction as generalizing b with
  | nil => exact .ok b
  | cons a r ih =>
    rw [List.foldlM_cons]
    exact (h b a).bind ih

theorem step (result : Except PipelineError α) : NoLoop (Reading.step result) := by
  cases result with
  | error e => exact .throws (by simp)
  | ok a => exact .ok a

end NoLoop

def Inner : ReadError → Prop
  | .unknownTask _ => False
  | .loop _ => False
  | _ => True

theorem inner_step {α : Type} (result : Except PipelineError α) : FailsBy Inner (step result) := by
  cases result with
  | error e => exact .throws trivial
  | ok a => exact .ok a

theorem inner_connect (s : Reading) (o : Outlet) (key : String) (slot : Nat) :
    FailsBy Inner (s.connect o key slot) := by
  unfold Reading.connect
  split
  · exact .ok _
  · exact (inner_step _).bind fun _ _ => (inner_step _).bind fun _ _ => .throws trivial
  · exact .throws trivial

theorem inner_readTee (flow : Flow) (s : Reading) (c : Command) :
    FailsBy Inner (readTee flow s c) := by
  refine .bind ?_ fun count _ => .bind ?_ fun ⟨o, t⟩ _ => (inner_step _).bind fun output _ => ?_
  · unfold copies
    dsimp only
    split
    · exact .ok _
    · split
      · split
        · exact .throws trivial
        · exact .ok _
      · exact .throws trivial
  · unfold copied
    split
    · exact .ok _
    · split
      · exact .ok _
      · exact .throws trivial
  · dsimp only
    split
    · exact (inner_step _).bind fun _ _ => .bind (.throws trivial) fun _ _ => .ok _
    · exact .ok _

theorem inner_giveAll (c : Command) (j : Job) : FailsBy Inner (giveAll c j) := by
  unfold giveAll
  split
  · exact .ok _
  · refine .each (fun k t => ?_) _ _
    unfold giveToken
    split
    all_goals
      split
      · exact .ok _
      · exact .throws trivial

theorem inner_readTask {task : Task} (found : catalogue.lookup c.name = some task) :
    FailsBy Inner (readTask catalogue strict s c) := by
  unfold readTask
  simp only [found]
  refine (inner_giveAll c _).bind fun job _ => (inner_step _).bind fun ⟨key, p⟩ _ =>
    (inner_step _).bind fun m _ => (FailsBy.each (fun t ref => ?_) _ _).bind fun t _ =>
      (FailsBy.each (fun u input => ?_) _ _).bind fun u _ =>
        (FailsBy.each (fun v ref => ?_) _ _).bind fun v _ => .ok _
  · unfold readLabel
    split
    · refine (inner_connect _ _ _ _).bind fun ⟨l, t⟩ _ => ?_
      dsimp only
      split <;> exact .ok _
    · exact .throws trivial
  · unfold fillInput
    split
    · exact .ok _
    · split
      · exact (inner_connect _ _ _ _).bind fun _ _ => .ok _
      · split
        · exact .throws trivial
        · exact .ok _
  · unfold writeLabel
    split
    · exact .ok _
    · exact .throws trivial

theorem readTask_of_unknown (unknown : catalogue.lookup c.name = none) :
    readTask catalogue strict s c = .error (.unknownTask c.name) := by
  unfold readTask
  simp only [unknown]
  rfl

theorem noLoop_of_inner {α : Type} {result : Except ReadError α} (h : FailsBy Inner result) :
    NoLoop result :=
  fun _ heq => h _ heq

theorem noLoop_readCommand (catalogue : Catalogue) (strict : Bool) (s : Reading) (c : Command) :
    NoLoop (readCommand catalogue strict s c) := by
  unfold readCommand
  split
  · exact noLoop_of_inner (inner_readTee _ s c)
  · cases found : catalogue.lookup c.name with
    | none =>
      rw [readTask_of_unknown found]
      exact .throws (by simp)
    | some task => exact noLoop_of_inner (inner_readTask found)

/-- Labels and open outputs lead to outputs of members, open ones of the flow under which they wait,
and links lead to later members. -/
structure InCourse (s : Reading) : Prop where
  labels : ∀ e ∈ s.labels, ∃ m ∈ s.pipeline.members, m.key = e.2.key ∧
    ∃ d, m.outputs[e.2.slot]? = some d
  pending : ∀ e ∈ s.pending, ∃ m ∈ s.pipeline.members, m.key = e.2.key ∧
    ∃ d, m.outputs[e.2.slot]? = some d ∧ d.flow = e.1
  forward : s.pipeline.Forward

theorem Grounded.inCourse (h : s.Grounded) : s.InCourse where
  labels e he := by
    obtain ⟨d, hd⟩ := h.labels e he
    obtain ⟨m, hm, hget⟩ := outputAt_eq_ok.1 hd
    exact ⟨m, (mem_of_member? hm).1, (mem_of_member? hm).2, d, hget⟩
  pending e he := by
    obtain ⟨d, hd, hflow⟩ := h.pending e he
    obtain ⟨m, hm, hget⟩ := outputAt_eq_ok.1 hd
    exact ⟨m, (mem_of_member? hm).1, (mem_of_member? hm).2, d, hget, hflow⟩
  forward := h.growing.forward

end Reading

theorem Catalogue.bundled_unindented : Catalogue.bundled.Unindented := by
  unfold Catalogue.Unindented
  decide +kernel

theorem Catalogue.Unindented.orBundled {catalogue : Catalogue} (h : catalogue.Unindented) :
    catalogue.orBundled.Unindented := by
  unfold Catalogue.orBundled
  split
  · exact bundled_unindented
  · exact h

namespace Reader

open Reading

variable {r : Reader} {text : String} {name : Option String} {s t : Reading}

/-- The states that the reader passes through: between the commands of a text, within one of them,
and while the links at branches are put in order. -/
inductive Meets (r : Reader) (text : String) (name : Option String) : Reading → Prop
  | between {commands : List Command} {s : Reading} :
    CommandLine.read r.marker text = .ok commands →
    Passes (readCommand r.catalogue.orBundled r.strict) commands (start name) s →
    Meets r text name s
  | within {commands done rest : List Command} {c : Command} {s t : Reading} :
    CommandLine.read r.marker text = .ok commands → commands = done ++ c :: rest →
    done.foldlM (readCommand r.catalogue.orBundled r.strict) (start name) = .ok s →
    CommandMeets r.catalogue.orBundled r.strict s c t → Meets r text name t
  | finishing {commands : List Command} {s : Reading} {p : Pipeline} :
    CommandLine.read r.marker text = .ok commands →
    commands.foldlM (readCommand r.catalogue.orBundled r.strict) (start name) = .ok s →
    Passes orderBranches s.branched s.pipeline p → Meets r text name { s with pipeline := p }

theorem grounded_of_passes (names : r.catalogue.Unindented) {commands : List Command}
    (passes : Passes (readCommand r.catalogue.orBundled r.strict) commands (start name) s) :
    s.Grounded :=
  passes.keeps (fun _ _ _ _ hs hr => hs.of_readCommand names.orBundled hr) (.start name)

theorem Meets.grounded (names : r.catalogue.Unindented) (meets : r.Meets text name s) :
    s.Grounded := by
  cases meets with
  | between _ passes => exact grounded_of_passes names passes
  | within _ _ run meets => exact meets.keeps (grounded_of_passes names (.ends run)) names.orBundled
  | finishing _ run passes =>
    have grounded := grounded_of_passes names (.ends run)
    obtain ⟨growing, frame, links⟩ := grounded.of_orderBranches passes
    refine grounded.grow growing ⟨fun key slot d hd => ?_, links ▸ fun _ hl => hl⟩
    rwa [outputAt_eq_of_frame frame]

theorem Meets.of_read (names : r.catalogue.Unindented) {q : Pipeline}
    (read : r.read text name = .ok q) : ∃ s, r.Meets text name s ∧ s.pipeline = q := by
  unfold Reader.read at read
  split at read
  · rename_i commands hcommands
    obtain ⟨s, run, finished⟩ := bind_eq_ok.1 read
    rw [(grounded_of_passes names (.ends run)).finish_eq, step_eq_ok] at finished
    exact ⟨_, .finishing hcommands run (.ends finished), rfl⟩
  · simp at read

/-- No command line closes a cycle. At any time labels and open outputs lead to outputs of members
and links to later members; the members of what is read stand in a dependency order, one is always
found, and no text is refused for a cycle. -/
theorem keeps_course (r : Reader) (names : r.catalogue.Unindented) (text : String)
    (name : Option String) :
    (∀ s, r.Meets text name s → s.InCourse) ∧
      (∀ q, r.read text name = .ok q →
        DependencyOrder q [] q.keys ∧ ∃ placed, q.arrange = .ok placed) ∧
      ∀ tasks, r.read text name ≠ .error (.loop tasks) := by
  refine ⟨fun s meets => (meets.grounded names).inCourse, fun q read => ?_, ?_⟩
  · obtain ⟨s, meets, rfl⟩ := Meets.of_read names read
    have growing := (meets.grounded names).growing
    exact ⟨growing.forward.dependencyOrder growing.sound.keys_nodup,
      growing.forward.arrange growing.sound⟩
  · change NoLoop (r.read text name)
    unfold Reader.read
    split
    · rename_i commands _
      unfold readCommands
      have loopless := NoLoop.foldlM (noLoop_readCommand r.catalogue.orBundled r.strict) commands
        (start name)
      cases run : commands.foldlM (readCommand r.catalogue.orBundled r.strict) (start name) with
      | error e =>
        intro tasks heq
        exact loopless tasks (run.trans (congrArg Except.error (Except.error.inj heq)))
      | ok s =>
        rw [ok_bind, (grounded_of_passes names (.ends run)).finish_eq]
        exact .step _
    · exact .throws (by simp)

theorem bundled_keeps_course :
    (∀ s, Meets ⟨Catalogue.bundled, "\\", true⟩ "--rx a --tee --wx b --wx c" none s → s.InCourse) ∧
      (∀ q, Reader.read ⟨Catalogue.bundled, "\\", true⟩ "--rx a --tee --wx b --wx c" none = .ok q →
        DependencyOrder q [] q.keys ∧ ∃ placed, q.arrange = .ok placed) ∧
      ∀ tasks, Reader.read ⟨Catalogue.bundled, "\\", true⟩ "--rx a --tee --wx b --wx c" none ≠
        .error (.loop tasks) :=
  keeps_course ⟨Catalogue.bundled, "\\", true⟩ Catalogue.bundled_unindented _ none

end Reader

end Sluice
