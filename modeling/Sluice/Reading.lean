import Sluice.Catalogue.Bundled
import Sluice.CommandLine.Command
import Sluice.Pipeline.Connect
import Sluice.Pipeline.Order
import Sluice.Pipeline.Reorder
import Sluice.Reading.Error

/-! Reading command lines. Commands are taken from left to right. An input with a label reads the
output that the label stands for; an input without one takes the oldest output of its flow that
is still open. An adapter makes no stage: its labels stand for the output it copies, and that
output is open again once for each copy without a label. -/

namespace Sluice

/-- An output of a member. -/
structure Outlet where
  key : String
  slot : Nat
  deriving DecidableEq, Repr

/-- What has been read: `labels` and `pending` tell which outputs can be read by name and in turn,
`branches` gives the labels of adapters their branch numbers, and `branched` keeps the links made
through such labels, by output. -/
structure Reading where
  pipeline : Pipeline
  labels : List (String × Outlet)
  branches : List (String × Nat)
  branched : List (Outlet × List (Nat × Link))
  pending : List (Flow × Outlet)

namespace Reading

def start (name : Option String) : Reading :=
  ⟨Pipeline.new name, [], [], [], []⟩

def takeFirst {α : Type} (fits : α → Bool) : List α → Option (α × List α)
  | [] => none
  | a :: r =>
    if fits a then some (a, r)
    else (takeFirst fits r).map fun (b, others) => (b, a :: others)

/-- The oldest open output of a flow. -/
def takePending (s : Reading) (flow : Flow) : Option (Outlet × Reading) :=
  (takeFirst (fun e => e.1 = flow) s.pending).map fun (e, rest) =>
    (e.2, { s with pending := rest })

def offer (s : Reading) (flow : Flow) (o : Outlet) : Reading :=
  { s with pending := s.pending ++ [(flow, o)] }

def step {α : Type} (result : Except PipelineError α) : Except ReadError α :=
  match result with
  | .ok a => pure a
  | .error e => throw (.pipeline e)

def defaultCopies : Nat :=
  2

def copiesKey : String :=
  "outputCount"

def copies (c : Command) : Except ReadError Nat :=
  let written := match c.parameter? none with
    | some value => some value
    | none => c.parameter? (some copiesKey)
  match written with
  | none => pure defaultCopies
  | some value =>
    match Text.wholeNumber? value with
    | some n => if n < 1 then throw (.invalidValue c.name copiesKey value) else pure n.toNat
    | none => throw (.invalidValue c.name copiesKey value)

/-- The output that an adapter copies: what its last label stands for, or else the oldest open
output of its flow. -/
def copied (s : Reading) (flow : Flow) (c : Command) : Except ReadError (Outlet × Reading) :=
  match c.inPipes.getLast?.bind fun ref => s.labels.lookup ref.label with
  | some o => pure (o, s)
  | none =>
    match s.takePending flow with
    | some found => pure found
    | none => throw (.nothingToCopy c.name)

def bindBranch (o : Outlet) (s : Reading) (ref : PipeRef) : Reading :=
  { s with
    labels := Table.put ref.label o s.labels
    branches := Table.put ref.label ref.slot s.branches }

def taskNameOf (s : Reading) (key : String) : Except ReadError String :=
  step (match s.pipeline.member? key with
    | some m => pure m.task.name
    | none => throw (.strayEnd key))

def readTee (flow : Flow) (s : Reading) (c : Command) : Except ReadError Reading := do
  let count ← copies c
  let (o, s) ← s.copied flow c
  let output ← step (s.pipeline.outputAt o.key o.slot)
  if output.flow ≠ flow then
    throw (.notPermitted (← s.taskNameOf o.key) c.name "type_mismatch")
  let bound := c.outPipes.foldl (bindBranch o) s
  let unlabelled := List.replicate (count - c.outPipes.length) (flow, o)
  pure { bound with pending := bound.pending ++ unlabelled }

def giveToken (c : Command) (j : Job) (t : Token) : Except ReadError Job :=
  match t.key with
  | none =>
    match j.give? (fun a => a.parameter.positional) (some t.value) with
    | some j => pure j
    | none => throw (.noPositional c.name t.value)
  | some key =>
    match j.give? (fun a => a.isNamed key) (some t.value) with
    | some j => pure j
    | none => throw (.unknownParameter c.name key)

/-- Gives a job the values of a command. A task with one verbatim parameter takes the whole text
and no other value. -/
def giveAll (c : Command) (j : Job) : Except ReadError Job :=
  if (j.arguments.filter fun a => a.parameter.verbatim).length = 1 then
    let text := CommandLine.verbatimText c.text
    let given := if text = "" then none else some text
    pure ((j.give? (fun a => a.parameter.verbatim) given).getD j)
  else c.parameters.foldlM (giveToken c) j

def connect (s : Reading) (o : Outlet) (key : String) (slot : Nat) :
    Except ReadError (Link × Reading) :=
  match s.pipeline.connect o.key key (some o.slot) (some slot) with
  | .ok (l, p) => pure (l, { s with pipeline := p })
  | .error (.refused r) => do
    throw (.notPermitted (← s.taskNameOf o.key) (← s.taskNameOf key) r.reason)
  | .error e => throw (.pipeline e)

/-- Keeps a link under its output, with the number of its branch. -/
def keepBranch (o : Outlet) (entry : Nat × Link) :
    List (Outlet × List (Nat × Link)) → List (Outlet × List (Nat × Link))
  | [] => [(o, [entry])]
  | (other, entries) :: r =>
    if other = o then (other, entries ++ [entry]) :: r
    else (other, entries) :: keepBranch o entry r

def readLabel (c : Command) (key : String) (s : Reading) (ref : PipeRef) :
    Except ReadError Reading := do
  let some o := s.labels.lookup ref.label | throw (.unwrittenLabel c.name ref.label)
  let (l, s) ← s.connect o key ref.slot
  match s.branches.lookup ref.label with
  | some n => pure { s with branched := keepBranch o (n, l) s.branched }
  | none => pure s

/-- Links an input without a label to the oldest open output of its flow. When strict, a required
input must find one. -/
def fillInput (strict : Bool) (c : Command) (key : String) (s : Reading) (input : Connector) :
    Except ReadError Reading := do
  if (c.pipeAt? .input input.slot).isSome then pure s
  else
    match s.takePending input.flow with
    | some (o, s) => do
      let (_, s) ← s.connect o key input.slot
      pure s
    | none =>
      if input.required && strict then throw (.openInput c.name input.slot) else pure s

def writeLabel (m : Member) (s : Reading) (ref : PipeRef) : Except ReadError Reading :=
  if ref.slot < m.outputs.length then
    pure { s with
      labels := Table.put ref.label ⟨m.key, ref.slot⟩ s.labels
      branches := s.branches.filter fun e => e.1 ≠ ref.label }
  else throw (.notPermitted m.task.name ref.label "no_such_connector")

def offerOutput (c : Command) (key : String) (s : Reading) (output : Connector) : Reading :=
  if (c.pipeAt? .output output.slot).isSome then s else s.offer output.flow ⟨key, output.slot⟩

def readTask (catalogue : Catalogue) (strict : Bool) (s : Reading) (c : Command) :
    Except ReadError Reading := do
  let some t := catalogue.lookup c.name | throw (.unknownTask c.name)
  let job ← giveAll c (Job.ofTask s.pipeline.size t)
  let (key, p) ← step (s.pipeline.add { job with id := none } none)
  let m ← step (p.find key)
  let s ← c.inPipes.foldlM (readLabel c key) { s with pipeline := p }
  let s ← m.inputs.foldlM (fillInput strict c key) s
  let s ← c.outPipes.foldlM (writeLabel m) s
  pure (m.outputs.foldl (offerOutput c key) s)

def readCommand (catalogue : Catalogue) (strict : Bool) (s : Reading) (c : Command) :
    Except ReadError Reading :=
  match Flow.ofTee? c.name with
  | some flow => readTee flow s c
  | none => readTask catalogue strict s c

def orderBranches (p : Pipeline) (entry : Outlet × List (Nat × Link)) :
    Except PipelineError Pipeline := do
  let output ← p.outputAt entry.1.key entry.1.slot
  let ordered := entry.2.mergeSort fun a b => a.1 ≤ b.1
  p.reorder output (ordered.map (·.2))

def finish (s : Reading) : Except ReadError Pipeline := do
  let p ← step (s.branched.foldlM orderBranches s.pipeline)
  match p.arrange with
  | .ok _ => pure p
  | .error (.cycle ids) => do
    let names ← ids.mapM fun id => ({ s with pipeline := p } : Reading).taskNameOf id
    throw (.loop names)
  | .error e => throw (.pipeline e)

end Reading

/-- How a command line is read. -/
structure Reader where
  catalogue : Catalogue
  marker : String
  strict : Bool

namespace Reader

def readCommands (r : Reader) (name : Option String) (commands : List Command) :
    Except ReadError Pipeline := do
  let s ← commands.foldlM (Reading.readCommand r.catalogue.orBundled r.strict) (Reading.start name)
  s.finish

def read (r : Reader) (text : String) (name : Option String) : Except ReadError Pipeline :=
  match CommandLine.read r.marker text with
  | .ok commands => r.readCommands name commands
  | .error n => throw (.overlong n)

end Reader

end Sluice
