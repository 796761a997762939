import Sluice.Proofs.Messages
import Sluice.Proofs.Pipeline.Renaming
import Sluice.Proofs.Reading.Course

/-! Refusals. Whatever a command asks for, reading it either succeeds or is refused for what the
command says: the members, outputs and slots that the reader looks up are there, and a new member
always gets in. -/

namespace Sluice

namespace ReadError

/-- The command line is at fault, without closing a cycle: neither its numbers nor a step of the
pipeline go wrong. -/
def Ordinary : ReadError → Prop
  | .overlong _ => False
  | .pipeline _ => False
  | .loop _ => False
  | _ => True

theorem Ordinary.exists_message {e : ReadError} (h : e.Ordinary) {messages : Messages}
    (simple : messages.Simple) : ∃ refusal message,
      e.refusal? messages = .ok (some refusal) ∧ refusal.message messages = .ok message := by
  have told : ∃ refusal, e.refusal? messages = .ok (some refusal) := by
    cases e with
    | overlong n => exact h.elim
    | pipeline e => exact h.elim
    | loop tasks => exact h.elim
    | notPermitted source target reason =>
      obtain ⟨why, hwhy⟩ := simple.exists_tell ("Pipeline.Connect." ++ reason) []
      simp only [refusal?, reasonText, hwhy, ok_bind]
      exact ⟨_, rfl⟩
    | _ => exact ⟨_, rfl⟩
  obtain ⟨refusal, hrefusal⟩ := told
  obtain ⟨message, hmessage⟩ := simple.exists_tell ("Parser.Error." ++ refusal.kind.code)
    refusal.context
  exact ⟨refusal, message, hrefusal, hmessage⟩

end ReadError

namespace Reading

open Pipeline ReadError

variable {catalogue : Catalogue} {strict : Bool} {s t : Reading} {m : Member} {c : Command}
  {o : Outlet} {flow : Flow}

theorem taskNameOf_eq {key : String} (h : s.pipeline.member? key = some m) :
    s.taskNameOf key = .ok m.task.name := by
  simp only [taskNameOf, h]
  rfl

theorem taskNameOf_of_outputAt {d : Connector} (h : s.pipeline.outputAt o.key o.slot = .ok d) :
    ∃ task, s.taskNameOf o.key = .ok task := by
  obtain ⟨n, hn, _⟩ := outputAt_eq_ok.1 h
  exact ⟨n.task.name, taskNameOf_eq hn⟩

/-- How many copies an adapter makes when numbers are read in some way. -/
def copiesBy (whole : String → Option Int) (c : Command) : Except ReadError Nat :=
  let written := match c.parameter? none with
    | some value => some value
    | none => c.parameter? (some copiesKey)
  match written with
  | none => pure defaultCopies
  | some value =>
    match whole value with
    | some n => if n < 1 then throw (.invalidValue c.name copiesKey value) else pure n.toNat
    | none => throw (.invalidValue c.name copiesKey value)

def copyTo (flow : Flow) (s : Reading) (c : Command) (count : Nat) : Except ReadError Reading := do
  let (o, s) ← s.copied flow c
  let output ← step (s.pipeline.outputAt o.key o.slot)
  if output.flow ≠ flow then
    throw (.notPermitted (← s.taskNameOf o.key) c.name "type_mismatch")
  let bound := c.outPipes.foldl (bindBranch o) s
  let unlabelled := List.replicate (count - c.outPipes.length) (flow, o)
  pure { bound with pending := bound.pending ++ unlabelled }

theorem copiesBy_fails (whole : String → Option Int) (c : Command) :
    FailsBy Ordinary (copiesBy whole c) := by
  unfold copiesBy
  dsimp only
  split
  · exact .ok _
  · split
    · split
      · exact .throws trivial
      · exact .ok _
    · exact .throws trivial

theorem copied_fails (flow : Flow) (s : Reading) (c : Command) :
    FailsBy Ordinary (s.copied flow c) := by
  unfold copied
  split
  · exact .ok _
  · split
    · exact .ok _
    · exact .throws trivial

theorem Grounded.copyTo_fails (h : s.Grounded) (flow : Flow) (c : Command) (count : Nat) :
    FailsBy Ordinary (copyTo flow s c count) := by
  refine (copied_fails flow s c).bind fun ⟨o, t⟩ found => ?_
  obtain ⟨_, same, d, output⟩ := h.of_copied found
  rw [← same] at output
  obtain ⟨task, named⟩ := taskNameOf_of_outputAt output
  refine (FailsBy.of_ok ⟨d, step_eq_ok.2 output⟩).bind fun output _ => ?_
  split
  · exact (FailsBy.of_ok ⟨task, named⟩).bind fun _ _ => .throws trivial
  · exact .ok _

theorem giveToken_fails (c : Command) (j : Job) (t : Token) :
    FailsBy Ordinary (giveToken c j t) := by
  unfold giveToken
  split
  all_goals
    split
    · exact .ok _
    · exact .throws trivial

theorem giveAll_fails (c : Command) (j : Job) : FailsBy Ordinary (giveAll c j) := by
  unfold giveAll
  split
  · exact .ok _
  · exact .foldlM (P := fun _ => True) (fun t _ k _ => giveToken_fails c k t)
      (fun _ _ _ _ _ _ => trivial) trivial

theorem Grounded.exists_entered (h : s.Grounded) {j : Job} (serial : j.serial = s.pipeline.size) :
    ∃ m p, s.pipeline.add { j with id := none } none = .ok (m.key, p) ∧ p.find m.key = .ok m := by
  have fresh : ∀ n ∈ s.pipeline.members, n.serial ≠ j.serial := fun n hn =>
    serial ▸ Nat.ne_of_lt (h.growing.serials n hn)
  obtain ⟨p, added⟩ := s.pipeline.exists_add (s := { j with id := none }) rfl
  obtain ⟨_, new, _, rfl⟩ := (add_eq_ok fresh).1 added
  exact ⟨newMember _ _, _, added, find_eq_ok_iff.2 (member?_newMember _ new)⟩

theorem OnTask.connect_fails (h : OnTask m s) {d : Connector}
    (output : s.pipeline.outputAt o.key o.slot = .ok d) (slot : Nat) :
    FailsBy Ordinary (s.connect o m.key slot) := by
  obtain ⟨source, hsource⟩ := taskNameOf_of_outputAt output
  obtain ⟨n, hn, _⟩ := h.held
  unfold Reading.connect
  split
  · exact .ok _
  · refine (FailsBy.of_ok ⟨source, hsource⟩).bind fun _ _ => ?_
    exact (FailsBy.of_ok ⟨n.task.name, taskNameOf_eq hn⟩).bind fun _ _ => .throws trivial
  · rename_i e other he
    obtain ⟨r, rfl⟩ := h.growing.sound.connect_fails h.growing.named _ _ _ _ e he
    exact (other r rfl).elim

theorem OnTask.readLabel_fails (h : OnTask m s) (c : Command) (ref : PipeRef) :
    FailsBy Ordinary (readLabel c m.key s ref) := by
  unfold readLabel
  cases hlabel : s.labels.lookup ref.label with
  | none => exact .throws trivial
  | some o =>
    obtain ⟨d, output⟩ := h.label hlabel
    refine (h.connect_fails output ref.slot).bind fun ⟨l, t⟩ _ => ?_
    dsimp only
    split <;> exact .ok _

theorem OnTask.fillInput_fails (h : OnTask m s) (strict : Bool) (c : Command) (input : Connector) :
    FailsBy Ordinary (fillInput strict c m.key s input) := by
  unfold fillInput
  split
  · exact .ok _
  · split
    · rename_i o t taken
      obtain ⟨grounded, same, d, output, _⟩ := h.of_takePending taken
      have onTask : OnTask m t := ⟨grounded, same ▸ h.last, same ▸ h.held⟩
      exact (onTask.connect_fails (same ▸ output) input.slot).bind fun _ _ => .ok _
    · split
      · exact .throws trivial
      · exact .ok _

theorem writeLabel_fails (m : Member) (s : Reading) (ref : PipeRef) :
    FailsBy Ordinary (writeLabel m s ref) := by
  unfold writeLabel
  split
  · exact .ok _
  · exact .throws trivial

theorem OnTask.readLabels_fails (h : OnTask m s) (c : Command) (refs : List PipeRef) :
    FailsBy Ordinary (refs.foldlM (readLabel c m.key) s) :=
  .foldlM (P := OnTask m) (fun ref _ _ ht => ht.readLabel_fails c ref)
    (fun _ _ _ _ ht hu => (ht.of_readLabel hu).1) h

theorem OnTask.fillInputs_fails (h : OnTask m s) (strict : Bool) (c : Command)
    (inputs : List Connector) : FailsBy Ordinary (inputs.foldlM (fillInput strict c m.key) s) :=
  .foldlM (P := OnTask m) (fun input _ _ ht => ht.fillInput_fails strict c input)
    (fun _ _ _ _ ht hu => (ht.of_fillInput hu).1) h

theorem writeLabels_fails (m : Member) (s : Reading) (refs : List PipeRef) :
    FailsBy Ordinary (refs.foldlM (writeLabel m) s) :=
  .foldlM (P := fun _ => True) (fun ref _ t _ => writeLabel_fails m t ref)
    (fun _ _ _ _ _ _ => trivial) trivial

theorem Grounded.readTask_fails (h : s.Grounded) (names : catalogue.Unindented) (strict : Bool)
    (c : Command) : FailsBy Ordinary (readTask catalogue strict s c) := by
  unfold readTask
  cases hlookup : catalogue.lookup c.name with
  | none => exact .throws trivial
  | some task =>
    refine (giveAll_fails c _).bind fun job hjob => ?_
    obtain ⟨m, p, hadd, hm⟩ := h.exists_entered (giveAll_eq_ok hjob).1
    rw [hadd]
    -- The two steps that take the task in give this key and this member, and no others.
    refine (FailsBy.ok (m.key, p)).bind fun _ hentered => ?_
    obtain rfl := Except.ok.inj hentered
    refine (FailsBy.of_ok ⟨m, step_eq_ok.2 hm⟩).bind fun n hn => ?_
    obtain rfl := Except.ok.inj ((step_eq_ok.2 hm).symm.trans hn)
    have entered : Entered catalogue s c m { s with pipeline := p } :=
      ⟨task, job, p, hlookup, hjob, hadd, hm, rfl⟩
    have onTask := (entered.onTask h names).1
    refine (onTask.readLabels_fails c c.inPipes).bind fun labelled hl => ?_
    have onTask := onTask.readLabels (.ends hl)
    refine (onTask.fillInputs_fails strict c m.inputs).bind fun filled _ => ?_
    exact (writeLabels_fails m filled c.outPipes).bind fun written _ => .ok _

end Reading

end Sluice
