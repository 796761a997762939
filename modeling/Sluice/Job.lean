import Sluice.Task

/-! Jobs: tasks with values of their own for the parameters. A stage is a job that can carry an
id, which it needs before it has connectors. -/

namespace Sluice

/-- A parameter with the value given for it, if any. -/
structure Argument where
  parameter : Parameter
  given : Option String

namespace Argument

def name (a : Argument) : String :=
  a.parameter.name

def fallback (a : Argument) : String :=
  a.parameter.default.getD ""

def value (a : Argument) : String :=
  a.given.getD a.fallback

def isDefault (a : Argument) : Bool :=
  match a.given with
  | none => true
  | some v => v == a.fallback

def isNamed (a : Argument) (name : String) : Bool :=
  Text.lower a.name == Text.lower name

end Argument

/-- Two values with one serial number are views of one and the same job. -/
structure Job where
  serial : Nat
  task : Task
  arguments : List Argument

inductive StageError
  | blankId : StageError
  | idMissing : (task : String) → StageError
  | unknownParameter : (task : String) → (name : String) → StageError

def StageError.message : StageError → String
  | .blankId => "function_id must be non-empty"
  | .idMissing task => "Function for task " ++ Text.quoted task ++ " has no function_id yet"
  | .unknownParameter task name =>
    "Task " ++ Text.quoted task ++ " has no parameter " ++ Text.quoted name

namespace Job

def ofTask (serial : Nat) (t : Task) : Job :=
  ⟨serial, t, t.parameters.map fun p => ⟨p, none⟩⟩

def argument? (j : Job) (name : String) : Option Argument :=
  j.arguments.find? fun a => a.isNamed name

def positional? (j : Job) : Option Argument :=
  j.arguments.find? fun a => a.parameter.positional

def giveFirst (fits : Argument → Bool) (given : Option String) :
    List Argument → Option (List Argument)
  | [] => none
  | a :: r =>
    if fits a then some ({ a with given := given } :: r)
    else (giveFirst fits given r).map (a :: ·)

def give? (j : Job) (fits : Argument → Bool) (given : Option String) : Option Job :=
  (giveFirst fits given j.arguments).map fun arguments => { j with arguments := arguments }

def setArgument (j : Job) (name : String) (given : Option String) : Except StageError Job :=
  match j.give? (fun a => a.isNamed name) given with
  | some j => pure j
  | none => throw (.unknownParameter j.task.name name)

def values (j : Job) : List (String × String) :=
  j.arguments.map fun a => (a.name, a.value)

def slots (j : Job) : Side → List Slot
  | .input => j.task.inputs
  | .output => j.task.outputs

def shownAs (j : Job) (id : Option String) : String :=
  "Function(function_id=" ++ (id.map Text.quoted).getD Text.absent ++ ", task=" ++
    Text.quoted j.task.name ++ ")"

end Job

structure Stage extends Job where
  id : Option String

namespace Stage

/-- A new stage of a task; an empty id is none. -/
def ofTask (serial : Nat) (t : Task) (id : Option String) : Stage :=
  let trimmed : Option String :=
    match id with
    | none => none
    | some s => if s = "" then none else some (Text.trim s)
  { Job.ofTask serial t with id := trimmed }

/-- An id that is set is not blank and loses the blanks around it. -/
def idOf (id : String) : Except StageError String :=
  if Text.isVoid id then throw .blankId else pure (Text.trim id)

def setId (s : Stage) (id : String) : Except StageError Stage := do
  pure { s with id := some (← idOf id) }

def connectors (s : Stage) (side : Side) : Except StageError (List Connector) :=
  match s.id with
  | none => throw (.idMissing s.task.name)
  | some id => pure (Connector.ofSlots id side (s.slots side))

def connector? (s : Stage) (side : Side) (slot : Int) : Except StageError (Option Connector) := do
  let cs ← s.connectors side
  pure (if slot < 0 then none else cs[slot.toNat]?)

def shown (s : Stage) : String :=
  s.shownAs s.id

end Stage

end Sluice
