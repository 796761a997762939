import Sluice.Pipeline.Error

/-! Pipelines: stages in an order, joined by links. The table of links is kept in the order in
which they were made, and every member lists the links that end or start at it. -/

namespace Sluice

/-- A stage of a pipeline. `key` is the id it was entered under and `id` the one it goes by. -/
structure Member extends Job where
  key : String
  id : String
  incoming : List Link
  outgoing : List Link

namespace Member

def toStage (m : Member) : Stage :=
  { m.toJob with id := some m.id }

def connectors (m : Member) (side : Side) : List Connector :=
  Connector.ofSlots m.id side (m.slots side)

def inputs (m : Member) : List Connector :=
  m.connectors .input

def outputs (m : Member) : List Connector :=
  m.connectors .output

/-- The links that the member lists on one side. -/
def linksOn (m : Member) : Side → List Link
  | .input => m.incoming
  | .output => m.outgoing

def setLinksOn (m : Member) (side : Side) (links : List Link) : Member :=
  match side with
  | .input => { m with incoming := links }
  | .output => { m with outgoing := links }

end Member

structure Pipeline where
  name : String
  members : List Member
  links : List Link

namespace Pipeline

def new (name : Option String) : Pipeline :=
  ⟨match name with
    | none => "pipeline"
    | some s => if s = "" then "pipeline" else s, [], []⟩

def size (p : Pipeline) : Nat :=
  p.members.length

def keys (p : Pipeline) : List String :=
  p.members.map Member.key

def member? (p : Pipeline) (key : String) : Option Member :=
  p.members.find? fun m => m.key == key

def contains (p : Pipeline) (key : String) : Bool :=
  (p.member? key).isSome

def holds (p : Pipeline) (s : Stage) : Bool :=
  match s.id.bind p.member? with
  | some m => m.serial == s.serial
  | none => false

def modify (p : Pipeline) (key : String) (f : Member → Member) : Pipeline :=
  { p with members := p.members.map fun m => if m.key = key then f m else m }

/-- Changes every member that is a view of one job. -/
def modifyJob (p : Pipeline) (serial : Nat) (f : Member → Member) : Pipeline :=
  { p with members := p.members.map fun m => if m.serial = serial then f m else m }

def find (p : Pipeline) (key : String) : Except PipelineError Member :=
  match p.member? key with
  | some m => pure m
  | none => throw (.notFound key)

def index (p : Pipeline) (key : String) : Except PipelineError Nat := do
  let _ ← p.find key
  pure (p.keys.idxOf key)

/-- The links that a member lists on one side; a stranger lists none. -/
def linksOn (p : Pipeline) (key : String) (side : Side) : List Link :=
  match p.member? key with
  | some m => m.linksOn side
  | none => []

def idBase (task : String) : String :=
  String.ofList (task.toList.map fun c => if c = '/' ∨ c = ' ' then '_' else c)

def numberedId (task : String) (n : Nat) : String :=
  idBase task ++ "_" ++ toString n

/-- The id for a stage that brings none: the first free one, counting from the number of members.
One of as many ids as there are members and one more is free. -/
def freshId (p : Pipeline) (task : String) : String :=
  let free := (List.range (p.size + 1)).find? fun i => !p.contains (numberedId task (p.size + i))
  numberedId task (p.size + free.getD 0)

/-- The key under which a stage is entered: the id asked for, its own, or a fresh one. -/
def entryKey (p : Pipeline) (s : Stage) (id : Option String) : String :=
  match id, s.id with
  | some id, _ => Text.trim id
  | none, some id => id
  | none, none => p.freshId s.task.name

/-- Enters a stage at the end and gives it the key as its id. The new id shows in every view of
the job. -/
def add (p : Pipeline) (s : Stage) (id : Option String) :
    Except PipelineError (String × Pipeline) := do
  let key := p.entryKey s id
  if p.contains key then throw (.taken key)
  match Stage.idOf key with
  | .error e => throw (.badStage e)
  | .ok newId =>
    let renamed := p.modifyJob s.serial fun m => { m with id := newId }
    let member : Member :=
      { s.toJob with key := key, id := newId, incoming := [], outgoing := [] }
    pure (key, { renamed with members := renamed.members ++ [member] })

/-- Takes a member to a position; one before the first or after the last is moved to the end
that is nearer. -/
def move (p : Pipeline) (key : String) (position : Int) : Except PipelineError Pipeline := do
  let m ← p.find key
  let others := p.members.filter fun other => other.key ≠ key
  pure { p with members := others.insertIdx (min position.toNat others.length) m }

def clear (p : Pipeline) : Pipeline :=
  { p with members := [], links := [] }

def shown (p : Pipeline) : String :=
  "Pipeline(pipeline_id=" ++ Text.quoted p.name ++ ", functions=" ++ toString p.size ++
    ", connections=" ++ toString p.links.length ++ ")"

@[simp] theorem keys_modify (p : Pipeline) (key : String) (f : Member → Member)
    (h : ∀ m, (f m).key = m.key) : (p.modify key f).keys = p.keys := by
  simp only [keys, modify, List.map_map]
  refine List.map_congr_left fun m _ => ?_
  simp only [Function.comp]
  split <;> simp [h]

end Pipeline

end Sluice
