import Sluice.Catalogue.Bundled
import Sluice.Pipeline.Connect
import Sluice.Pipeline.Removal
import Sluice.Pipeline.Reorder
import Sluice.Pipeline.Validation
import Sluice.Writing

/-! A bench holds stages by name beside a pipeline. A held stage and the member that was made of
it are views of one job: what is done to one shows in the other. -/

namespace Sluice

/-- A name can hold nothing as well. `next` is the serial number of the next job. -/
structure Bench where
  pipeline : Pipeline
  held : List (String × Option Stage)
  next : Nat

/-- A stage by the id of a member or by the name it is held under. -/
inductive StageRef
  | id : String → StageRef
  | held : String → StageRef

/-- What a reference stands for when no member is looked up. -/
inductive Referent
  | id : String → Referent
  | stage : Stage → Referent
  | nothing : Referent

/-- A connector of a stage, or one that belongs to no task. -/
inductive ConnectorRef
  | ofStage : StageRef → Side → (slot : Int) → ConnectorRef
  | free : Connector → ConnectorRef

inductive BenchError
  | pipeline : PipelineError → BenchError
  | stage : StageError → BenchError
  | catalogue : CatalogueError → BenchError
  | notHeld : (name : String) → BenchError
  /-- Nothing, or no more than an id, where a stage or a connector is needed. -/
  | absent : BenchError

namespace Bench

def new (name : Option String) : Bench :=
  ⟨Pipeline.new name, [], 0⟩

def lift {ε α : Type} (wrap : ε → BenchError) : Except ε α → Except BenchError α
  | .ok a => pure a
  | .error e => throw (wrap e)

def needed {α : Type} : Option α → Except BenchError α
  | some a => pure a
  | none => throw .absent

def referent (b : Bench) : StageRef → Except BenchError Referent
  | .id id => pure (.id id)
  | .held name =>
    match b.held.lookup name with
    | some (some s) => pure (.stage s)
    | some none => pure .nothing
    | none => throw (.notHeld name)

def stage? (b : Bench) (r : StageRef) : Except BenchError (Option Stage) := do
  match ← b.referent r with
  | .id id => pure ((b.pipeline.member? id).map Member.toStage)
  | .stage s => pure (some s)
  | .nothing => pure none

def stage (b : Bench) (r : StageRef) : Except BenchError Stage := do
  needed (← b.stage? r)

def idOf : Referent → Except BenchError (Option String)
  | .id id => pure (some id)
  | .stage s =>
    match s.id with
    | some id => pure (some id)
    | none => throw (.pipeline (.unidentified s))
  | .nothing => pure none

def memberId (b : Bench) (r : StageRef) : Except BenchError String := do
  match ← idOf (← b.referent r) with
  | some id => pure id
  | none => throw (.pipeline (.notFound Text.absent))

def connector? (b : Bench) : ConnectorRef → Except BenchError (Option Connector)
  | .free c => pure (some c)
  | .ofStage r side slot => do lift .stage ((← b.stage r).connector? side slot)

def connector (b : Bench) (c : ConnectorRef) : Except BenchError Connector := do
  needed (← b.connector? c)

def hold (b : Bench) (name : String) (s : Option Stage) : Bench :=
  { b with held := Table.put name s b.held }

def modifyHeld (b : Bench) (serial : Nat) (f : Stage → Stage) : List (String × Option Stage) :=
  b.held.map fun (name, s) => (name, s.map fun s => if s.serial = serial then f s else s)

def setArguments (b : Bench) (serial : Nat) (arguments : List Argument) : Bench :=
  { b with
    pipeline := b.pipeline.modifyJob serial fun m => { m with arguments := arguments }
    held := b.modifyHeld serial fun s => { s with arguments := arguments } }

def setIds (b : Bench) (serial : Nat) (id : String) : Bench :=
  { b with
    pipeline := b.pipeline.modifyJob serial fun m => { m with id := id }
    held := b.modifyHeld serial fun s => { s with id := some id } }

def build (b : Bench) (catalogue : Catalogue) (name word : String) (id : Option (Option String)) :
    Except BenchError (Stage × Bench) := do
  let s ← match id with
    | some id => do pure (Stage.ofTask b.next (← needed (catalogue.lookup word)) id)
    | none => do
      let t ← lift .catalogue (catalogue.find word)
      pure (Stage.ofTask b.next t none)
  pure (s, { b.hold name (some s) with next := b.next + 1 })

def addTask (b : Bench) (catalogue : Catalogue) (word : String) (id : Option String) :
    Except BenchError (String × Bench) := do
  let t ← lift .catalogue (catalogue.orBundled.find word)
  let (key, p) ← lift .pipeline (b.pipeline.add (Stage.ofTask b.next t none) id)
  pure (key, { b with pipeline := p, next := b.next + 1 })

def addStage (b : Bench) (s : Stage) (id : Option String) :
    Except BenchError (String × Bench) := do
  let (key, p) ← lift .pipeline (b.pipeline.add s id)
  let entered := { b with pipeline := p }
  pure (key, entered.setIds s.serial (Text.trim key))

/-- Enters what a reference stands for; a word stands for a new stage of its task. Where there is
nothing to enter, an id that is taken is still refused first. -/
def add (b : Bench) (catalogue : Catalogue) (r : StageRef) (id : Option String) :
    Except BenchError (String × Bench) := do
  match ← b.referent r, id.map Text.trim with
  | .id word, _ => b.addTask catalogue word id
  | .stage s, _ => b.addStage s id
  | .nothing, some id =>
    if b.pipeline.contains id then throw (.pipeline (.taken id)) else throw .absent
  | .nothing, none => throw .absent

def remove (b : Bench) (r : StageRef) : Bench × Except BenchError Stage :=
  match b.memberId r with
  | .error e => (b, throw e)
  | .ok id =>
    match b.pipeline.remove id with
    | (p, .ok m) => ({ b with pipeline := p }, pure m.toStage)
    | (p, .error e) => ({ b with pipeline := p }, throw (.pipeline e))

def rename (b : Bench) (r : StageRef) (id : String) : Except BenchError Bench := do
  match ← b.referent r with
  | .stage s => do pure (b.setIds s.serial (← lift .stage (Stage.idOf id)))
  | _ => throw .absent

def setArgument (b : Bench) (r : StageRef) (name : String) (given : Option String) :
    Except BenchError (List (String × String) × Bench) := do
  let s ← b.stage r
  let j ← lift .stage (s.toJob.setArgument name given)
  pure (j.values, b.setArguments s.serial j.arguments)

def contains (b : Bench) (r : StageRef) : Except BenchError Bool := do
  match ← b.referent r with
  | .id id => pure (b.pipeline.contains id)
  | .stage s => pure (b.pipeline.holds s)
  | .nothing => pure false

def move (b : Bench) (r : StageRef) (position : Int) : Except BenchError Bench := do
  let p ← lift .pipeline (b.pipeline.move (← b.memberId r) position)
  pure { b with pipeline := p }

def index (b : Bench) (r : StageRef) : Except BenchError Nat := do
  lift .pipeline (b.pipeline.index (← b.memberId r))

def linksOn (b : Bench) (r : StageRef) (side : Side) : Except BenchError (List Link) := do
  match ← idOf (← b.referent r) with
  | some id => pure (b.pipeline.linksOn id side)
  | none => pure []

def dependencies (b : Bench) (r : StageRef) : Except BenchError (List String) := do
  match ← idOf (← b.referent r) with
  | some id => pure (b.pipeline.dependencies id)
  | none => pure []

def endIds (b : Bench) (source target : StageRef) :
    Except BenchError (Option String × Option String) := do
  let a ← b.referent source
  let c ← b.referent target
  pure (← idOf a, ← idOf c)

def noEnd : PipelineError :=
  .refused (.notInPipeline Text.absent)

def connect (b : Bench) (source target : StageRef) (sourceSlot targetSlot : Option Int) :
    Except BenchError (Link × Bench) := do
  match ← b.endIds source target with
  | (some a, some c) => do
    let (l, p) ← lift .pipeline (b.pipeline.connect a c sourceSlot targetSlot)
    pure (l, { b with pipeline := p })
  | (some a, none) => do
    let _ ← lift .pipeline (b.pipeline.member a)
    throw (.pipeline noEnd)
  | (none, _) => throw (.pipeline noEnd)

def canConnect (b : Bench) (source target : StageRef) (sourceSlot targetSlot : Option Int) :
    Except BenchError Bool := do
  match ← b.endIds source target with
  | (some a, some c) => lift .pipeline (b.pipeline.canConnect a c sourceSlot targetSlot)
  | _ => pure false

def unlink (b : Bench) (c : ConnectorRef) : Bench × Except BenchError Nat :=
  match b.connector c with
  | .error e => (b, throw e)
  | .ok c =>
    let (p, count) := b.pipeline.unlink c
    ({ b with pipeline := p }, lift .pipeline count)

def reorder (b : Bench) (c : Option Connector) (links : List Link) : Except BenchError Bench := do
  let p ← lift .pipeline (b.pipeline.reorder (← needed c) links)
  pure { b with pipeline := p }

def peers (b : Bench) (c : ConnectorRef) (among : Option (List String)) :
    Except BenchError (List Connector) := do
  lift .pipeline (b.pipeline.peers (← b.connector c) among)

/-- The place of a connector among the peers of another. A connector that is not there has no
place. -/
def offset (b : Bench) (c peer : Option Connector) (among : Option (List String)) :
    Except BenchError Nat := do
  let peer ← needed peer
  match c with
  | some c => lift .pipeline (b.pipeline.offset c peer among)
  | none => do
    let _ ← lift .pipeline (b.pipeline.peers peer among)
    throw (.pipeline (.inconsistent (.oneSided peer none)))

def isFull (b : Bench) (c : ConnectorRef) : Except BenchError Bool := do
  lift .pipeline (b.pipeline.isFull (← b.connector c))

def written (b : Bench) : Option Stage → Except BenchError Stage
  | some s => do
    let _ ← lift .pipeline (Writing.memberOf b.pipeline s)
    pure s
  | none => throw (.pipeline (.notMember none))

def write (b : Bench) (settings : Settings) (layout : Layout) (refs : Option (List StageRef)) :
    Except BenchError String := do
  let chosen ← match refs with
    | none => pure none
    | some refs => do
      let stages ← refs.mapM b.stage?
      pure (some (← stages.mapM b.written))
  lift .pipeline (b.pipeline.writeBy .plain settings layout chosen)

end Bench

end Sluice
