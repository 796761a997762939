import Sluice.Connector
import Sluice.Document

/-! Tasks: what a command line can ask for. A task has a name, often a short one, parameters, and
slots for the flows it takes in and gives out. -/

namespace Sluice

/-- `positional` takes the value written without a key; `verbatim` takes the whole text of the
task, blanks included. -/
structure Parameter where
  name : String
  default : Option String
  positional : Bool
  verbatim : Bool
  description : String

/-- A catalogue may hold anything as the short name; only a text that is not empty is one. -/
structure Task where
  name : String
  shortName : Document
  description : String
  parameters : List Parameter
  inputs : List Slot
  outputs : List Slot

/-- Why something is no task. -/
inductive TaskError
  | nameMissing : TaskError
  | fieldMissing : (key : String) → TaskError
  | unknownFlow : (value : Document) → TaskError
  | blankParameter : TaskError
  | blankName : TaskError
  | severalPositional : (task : String) → (names : List String) → TaskError
  | repeatedParameter : (task : String) → TaskError
  /-- A value without parts where parts are read. -/
  | noParts : TaskError
  /-- A value of another kind where a text or a record is needed. -/
  | wrongKind : TaskError

namespace TaskError

def message : TaskError → Option String
  | .nameMissing => some "Template config must contain 'name'"
  | .fieldMissing key => some key
  | .unknownFlow value =>
    some ("Unknown connector type: " ++ value.quoted ++ ". Known: " ++
      ", ".intercalate (Flow.all.map Flow.name))
  | .blankParameter => some "Parameter name must be non-empty"
  | .blankName => some "Task name must be non-empty"
  | .severalPositional task names =>
    some ("Task " ++ Text.quoted task ++ " declares more than one positional parameter: " ++
      Text.quotedList names)
  | .repeatedParameter task =>
    some ("Task " ++ Text.quoted task ++ " declares duplicate parameter names")
  | .noParts => none
  | .wrongKind => none

end TaskError

def Parameter.checked (p : Parameter) : Except TaskError Parameter :=
  if Text.isVoid p.name then throw .blankParameter else pure p

namespace Task

def positionalNames (t : Task) : List String :=
  (t.parameters.filter Parameter.positional).map Parameter.name

/-- A task has a name, at most one positional parameter, and names for its parameters that
differ in more than case. -/
def checked (t : Task) : Except TaskError Task :=
  if Text.isVoid t.name then throw .blankName
  else if 1 < t.positionalNames.length then throw (.severalPositional t.name t.positionalNames)
  else if (t.parameters.map fun p => Text.lower p.name).Nodup then pure t
  else throw (.repeatedParameter t.name)

def short? (t : Task) : Option String :=
  match t.shortName with
  | .text s => if s = "" then none else some s
  | _ => none

/-- The word is the name or the short name of the task; blanks around the word and the case of
both do not matter. -/
def isNamed (t : Task) (word : String) : Except TaskError Bool :=
  let key := Text.lower (Text.trim word)
  if Text.lower t.name = key then pure true
  else
    match t.shortName with
    | .null => pure false
    | .text s => pure (Text.lower s = key)
    | _ => throw .wrongKind

end Task

end Sluice
