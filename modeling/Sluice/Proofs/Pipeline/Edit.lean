import Sluice.Pipeline.Connect
import Sluice.Pipeline.Removal
import Sluice.Pipeline.Reorder

/-! Edits of pipelines, and the pipelines that sequences of edits lead to from an empty one. An
edit may be refused; what it has done up to then stays. -/

namespace Sluice

/-- A job has the arguments of its task, and the task and its parameters pass their checks. -/
structure Job.Proper (j : Job) : Prop where
  arguments : j.arguments.map Argument.parameter = j.task.parameters
  parameters : ∀ a ∈ j.task.parameters, a.checked = .ok a
  task : j.task.checked = .ok j.task

/-- The id of a stage, if it has one, has no blanks around it. -/
structure Stage.Proper (s : Stage) : Prop extends Job.Proper s.toJob where
  id : ∀ id, s.id = some id → Text.trim id = id

theorem Job.proper_ofTask (serial : Nat) {t : Task} (ht : t.checked = .ok t)
    (hp : ∀ a ∈ t.parameters, a.checked = .ok a) : (Job.ofTask serial t).Proper where
  arguments := by simp [Job.ofTask, Function.comp_def]
  parameters := hp
  task := ht

theorem Stage.proper_ofTask (serial : Nat) {t : Task} (id : Option String)
    (ht : t.checked = .ok t) (hp : ∀ a ∈ t.parameters, a.checked = .ok a) :
    (Stage.ofTask serial t id).Proper where
  toProper := Job.proper_ofTask serial ht hp
  id := by
    intro i hi
    cases id with
    | none => simp [Stage.ofTask] at hi
    | some s =>
      by_cases hs : s = ""
      · simp [Stage.ofTask, hs] at hi
      · simp only [Stage.ofTask, hs, if_false, Option.some.injEq] at hi
        rw [← hi, Text.trim_trim]

namespace Pipeline

/-- What can be done to a pipeline. `give` sets the value of one argument of a job, or takes it
back. -/
inductive Edit
  | add : Stage → (id : Option String) → Edit
  | remove : (key : String) → Edit
  | move : (key : String) → (position : Int) → Edit
  | connect : (source target : String) → (sourceSlot targetSlot : Option Int) → Edit
  | disconnect : Link → Edit
  | unlink : Connector → Edit
  | reorder : Connector → List Link → Edit
  | clear : Edit
  | give : (serial : Nat) → (position : Nat) → (given : Option String) → Edit

def give (p : Pipeline) (serial position : Nat) (given : Option String) : Pipeline :=
  p.modifyJob serial fun m =>
    { m with arguments := m.arguments.modify position fun a => { a with given := given } }

def settle (p : Pipeline) : Except PipelineError Pipeline → Pipeline
  | .ok q => q
  | .error _ => p

theorem settle_keeps {P : Pipeline → Prop} {p : Pipeline} (old : P p)
    {result : Except PipelineError Pipeline} (new : ∀ q, result = .ok q → P q) :
    P (p.settle result) := by
  cases result with
  | error e => exact old
  | ok q => exact new q rfl

theorem settle_snd_keeps {α : Type} {P : Pipeline → Prop} {p : Pipeline} (old : P p)
    {result : Except PipelineError (α × Pipeline)} (new : ∀ a q, result = .ok (a, q) → P q) :
    P (p.settle (result.map Prod.snd)) := by
  cases result with
  | error e => exact old
  | ok found => exact new found.1 found.2 rfl

def Edit.apply (p : Pipeline) : Edit → Pipeline
  | .add s id => p.settle ((p.add s id).map Prod.snd)
  | .remove key => (p.remove key).1
  | .move key position => p.settle (p.move key position)
  | .connect source target i j => p.settle ((p.connect source target i j).map Prod.snd)
  | .disconnect l => (p.disconnect l).1
  | .unlink c => (p.unlink c).1
  | .reorder c links => p.settle (p.reorder c links)
  | .clear => p.clear
  | .give serial position given => p.give serial position given

/-- What is asked of the caller: a stage that comes in is proper and no member yet, and links are
not named twice when they are reordered. -/
def Edit.Regular (p : Pipeline) : Edit → Prop
  | .add s _ => s.Proper ∧ ∀ m ∈ p.members, m.serial ≠ s.serial
  | .reorder _ links => links.Nodup
  | _ => True

/-- A regular edit that is no reordering. -/
def Edit.Plain (p : Pipeline) : Edit → Prop
  | .reorder _ _ => False
  | e => e.Regular p

/-- The pipelines that allowed edits lead to. -/
inductive Built (allowed : Pipeline → Edit → Prop) : Pipeline → Prop
  | new (name : Option String) : Built allowed (Pipeline.new name)
  | edit {p : Pipeline} {e : Edit} : Built allowed p → allowed p e → Built allowed (e.apply p)

def Allows (allowed : Pipeline → Edit → Prop) : Pipeline → List Edit → Prop
  | _, [] => True
  | p, e :: r => allowed p e ∧ Allows allowed (e.apply p) r

theorem Built.edits {allowed : Pipeline → Edit → Prop} {p : Pipeline} (b : Built allowed p)
    {es : List Edit} (h : Allows allowed p es) : Built allowed (es.foldl Edit.apply p) := by
  induction es generalizing p with
  | nil => exact b
  | cons e r ih => exact ih (.edit b h.1) h.2

theorem Edit.Plain.regular {p : Pipeline} {e : Edit} (h : e.Plain p) : e.Regular p := by
  cases e with
  | reorder c links => exact h.elim
  | _ => exact h

theorem Built.mono {allowed more : Pipeline → Edit → Prop}
    (h : ∀ p e, allowed p e → more p e) {p : Pipeline} (b : Built allowed p) : Built more p := by
  induction b with
  | new name => exact .new name
  | edit _ he ih => exact .edit ih (h _ _ he)

theorem Built.regular {p : Pipeline} (b : Built Edit.Plain p) : Built Edit.Regular p :=
  b.mono fun _ _ => Edit.Plain.regular

def source : Task :=
  ⟨"source", .text "s", "", [⟨"file", some "-", true, false, ""⟩], [], [⟨.entity, true, ""⟩]⟩

def sink : Task :=
  ⟨"sink", .null, "", [⟨"file", none, false, false, ""⟩], [⟨.entity, true, ""⟩], []⟩

def forkEdits : List Edit :=
  [.add (Stage.ofTask 0 sink (some "first")) none,
    .add (Stage.ofTask 1 sink none) none,
    .add (Stage.ofTask 2 source none) none,
    .connect "source_2" "first" none none,
    .connect "source_2" "sink_1" none none,
    .give 1 0 (some "x y")]

def fork : Pipeline :=
  forkEdits.foldl Edit.apply (Pipeline.new none)

theorem proper_source (serial : Nat) (id : Option String) :
    (Stage.ofTask serial source id).Proper := by
  refine Stage.proper_ofTask serial id rfl ?_
  simp only [source, List.mem_singleton, forall_eq]
  rfl

theorem proper_sink (serial : Nat) (id : Option String) :
    (Stage.ofTask serial sink id).Proper := by
  refine Stage.proper_ofTask serial id rfl ?_
  simp only [sink, List.mem_singleton, forall_eq]
  rfl

theorem fork_built : Built Edit.Plain fork := by
  refine .edits (.new none) ?_
  simp only [forkEdits, Allows]
  exact ⟨⟨proper_sink 0 _, by decide +kernel⟩, ⟨proper_sink 1 _, by decide +kernel⟩,
    ⟨proper_source 2 _, by decide +kernel⟩, trivial, trivial, trivial, trivial⟩

end Pipeline

end Sluice
