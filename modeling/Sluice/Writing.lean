import Sluice.Dialect
import Sluice.Pipeline.Peers
import Sluice.Settings

/-! Writing command lines. A stage is written once everything it reads from is written; until then
it goes back to the end of the queue. Outputs are numbered as they are written. An output with
several readers is followed by an adapter that gives each reader a number of its own. -/

namespace Sluice

/-- How the parts of a command line are put together. -/
structure Layout where
  marker : String
  lineEnd : String
  quote : String
  addToolPath : Bool

namespace Layout

def ofDialect (d : Dialect) (addToolPath : Bool) : Layout :=
  ⟨d.marker, d.lineEnd, d.quote, addToolPath⟩

def separator (l : Layout) : String :=
  " " ++ l.marker ++ l.lineEnd

def quoteValue (l : Layout) (value : String) : String :=
  if Text.holdsBlank value then l.quote ++ value ++ l.quote else value

end Layout

/-- The parts of a command line: the tool, a task with its pipes as slots and numbers, and an
adapter that copies pipe `source` to the pipes from `first` on. -/
inductive Block
  | tool : (path : String) → Block
  | task : (word : String) → (values : List String) → (reads writes : List (Nat × Nat)) → Block
  | tee : (word : String) → (copies source first : Nat) → Block

namespace Block

def inPipe (pipe : Nat × Nat) : String :=
  "inPipe." ++ toString pipe.1 ++ "=" ++ toString pipe.2

def outPipe (pipe : Nat × Nat) : String :=
  "outPipe." ++ toString pipe.1 ++ "=" ++ toString pipe.2

def words : Block → List String
  | .tool path => [path]
  | .task word values reads writes =>
    ("--" ++ word) :: values ++ reads.map inPipe ++ writes.map outPipe
  | .tee word copies source first =>
    ("--" ++ word) :: toString copies :: inPipe (0, source) ::
      (List.range copies).map fun i => outPipe (i, first + i)

def render (b : Block) : String :=
  " ".intercalate b.words

end Block

/-- What has been written: the ids of the stages, the number of each output that readers count
from, the last number given out, and the parts of the command line. -/
structure Writing where
  written : List String
  numbers : List ((String × Side × Nat) × Nat)
  last : Nat
  blocks : List Block

namespace Writing

def start (blocks : List Block) : Writing :=
  ⟨[], [], 0, blocks⟩

/-- The word of a task. A short name that is no text cannot stand behind dashes. -/
def wordOf (settings : Settings) (t : Task) : Except PipelineError String :=
  if settings.shortNames && t.shortName.isTrue then
    match t.shortName with
    | .text s => pure s
    | d => throw (.noText d)
  else pure t.name

/-- How a value is written; a value that holds anyway is left out unless it is to be exported, and
so is an empty one that says nothing new. -/
def valuePart? (settings : Settings) (layout : Layout) (a : Argument) : Option String :=
  if a.isDefault && !settings.exportDefaults then none
  else if a.value = "" then
    if !a.isDefault && !a.parameter.verbatim then
      some (a.name ++ "=" ++ layout.quote ++ layout.quote)
    else none
  else if a.parameter.verbatim && a.parameter.positional then some a.value
  else some (a.name ++ "=" ++ layout.quoteValue a.value)

def valueParts (settings : Settings) (layout : Layout) (j : Job) : List String :=
  j.arguments.filterMap (valuePart? settings layout)

def isReady (p : Pipeline) (among written : List String) (m : Member) :
    Except PipelineError Bool :=
  m.inputs.allM fun c => do
    pure ((← p.peers c (some among)).all fun peer => written.contains peer.stage)

def readNumber (p : Pipeline) (among : List String) (w : Writing) (c peer : Connector) :
    Except PipelineError (Nat × Nat) := do
  let offset ← p.offset c peer (some among)
  match w.numbers.lookup peer.place with
  | some n => pure (c.slot, n + offset)
  | none => throw (.inconsistent (.neverWritten peer c))

def readNumbers (p : Pipeline) (among : List String) (w : Writing) (m : Member) :
    Except PipelineError (List (Nat × Nat)) := do
  let perInput ← m.inputs.mapM fun c => do
    (← p.peers c (some among)).mapM (w.readNumber p among c)
  pure perInput.flatten

/-- Numbers an output; with several readers an adapter follows, and they count from its first
copy. The pipes and adapters of the stage are collected. -/
def writeOutput (p : Pipeline) (among : List String)
    (state : Writing × List (Nat × Nat) × List Block) (c : Connector) :
    Except PipelineError (Writing × List (Nat × Nat) × List Block) := do
  let (w, writes, tees) := state
  let number := w.last + 1
  let writes := writes ++ [(c.slot, number)]
  let readers := (← p.peers c (some among)).length
  if readers ≤ 1 then
    pure ({ w with numbers := (c.place, number) :: w.numbers, last := number }, writes, tees)
  else
    match c.flow.tee? with
    | none => throw (.inconsistent (.cannotFanOut c readers))
    | some word =>
      let tee := Block.tee word readers number (number + 1)
      pure ({ w with
          numbers := (c.place, number + 1) :: w.numbers
          last := number + readers }, writes, tees ++ [tee])

def writeMember (p : Pipeline) (settings : Settings) (layout : Layout) (among : List String)
    (w : Writing) (m : Member) : Except PipelineError Writing := do
  let word ← wordOf settings m.task
  let reads ← w.readNumbers p among m
  let (w, writes, tees) ← m.outputs.foldlM (writeOutput p among) (w, [], [])
  let block := Block.task word (valueParts settings layout m.toJob) reads writes
  pure { w with written := m.id :: w.written, blocks := w.blocks ++ block :: tees }

/-- Writes the members of the queue. `waiting` counts the members that went back since the last
one was written; when all have, none of them will ever be ready. -/
def writeQueue (p : Pipeline) (settings : Settings) (layout : Layout) (among : List String)
    (waiting : Nat) (w : Writing) : List Member → Except PipelineError Writing
  | [] => pure w
  | m :: r => do
    if ← isReady p among w.written m then
      writeQueue p settings layout among 0 (← w.writeMember p settings layout among m) r
    else if _h : r.length + 1 < waiting + 1 then throw (.cycle ((r ++ [m]).map Member.id))
    else writeQueue p settings layout among (waiting + 1) w (r ++ [m])
termination_by queue => (queue.length, queue.length + 1 - waiting)
decreasing_by
  · apply Prod.Lex.left
    simp
  · have hlen : (r ++ [m]).length = (m :: r).length := by simp
    rw [hlen]
    apply Prod.Lex.right
    simp only [List.length_cons]
    omega

def memberOf (p : Pipeline) (s : Stage) : Except PipelineError Member :=
  if p.holds s then
    match s.id.bind p.member? with
    | some m => pure m
    | none => throw (.notMember (some s))
  else throw (.notMember (some s))

def toolBlocks (settings : Settings) (layout : Layout) : List Block :=
  if layout.addToolPath && settings.toolPath ≠ "" then
    [.tool (layout.quoteValue settings.toolPath)]
  else []

def blocksOf (p : Pipeline) (settings : Settings) (layout : Layout) (stages : List Stage) :
    Except PipelineError (List Block) := do
  let members ← stages.mapM (memberOf p)
  let among := members.map Member.id
  let w ← writeQueue p settings layout among 0 (start (toolBlocks settings layout)) members
  pure w.blocks

end Writing

namespace Pipeline

def stages (p : Pipeline) : List Stage :=
  p.members.map Member.toStage

def write (p : Pipeline) (settings : Settings) (layout : Layout) (some? : Option (List Stage)) :
    Except PipelineError String := do
  let blocks ← Writing.blocksOf p settings layout (some?.getD p.stages)
  pure (layout.separator.intercalate (blocks.map Block.render))

end Pipeline

/-- The path that is read for the tool, none if what is read counts as no. Only a text can be
written. -/
def Settings.readPath (library : ConfigLibrary) (settings : Settings) (layout : Layout) :
    Except PipelineError String :=
  match settings.get library .toolPath with
  | .error e => throw (.unread e)
  | .ok (.text path) => pure path
  | .ok d => if layout.addToolPath && d.isTrue then throw (.noText d) else pure ""

def Pipeline.writeBy (library : ConfigLibrary) (p : Pipeline) (settings : Settings)
    (layout : Layout) (some? : Option (List Stage)) : Except PipelineError String := do
  let _ ← (some?.getD p.stages).mapM (Writing.memberOf p)
  let path ← settings.readPath library layout
  p.write { settings with toolPath := path } layout some?

end Sluice
