import Sluice.Task

/-! Tasks as catalogue entries declare them: a record with a name and, each of them optional, a
short name, a description, parameters, inputs and outputs. -/

namespace Sluice.Task

/-- The parts that a value has when it is gone through: the items of a list, the characters of a
text, the keys of a record. -/
def parts : Document → Except TaskError (List Document)
  | .list items => pure items
  | .text s => pure (s.toList.map fun c => .text (String.singleton c))
  | .record fields => pure (fields.map fun field => .text field.1)
  | _ => throw .noParts

def optionalParts (key : String) (fields : List (String × Document)) :
    Except TaskError (List Document) :=
  match Document.find? key fields with
  | none => pure []
  | some d => if d.isTrue then parts d else pure []

def flag (key : String) (fields : List (String × Document)) (absent : Bool) : Bool :=
  ((Document.find? key fields).map Document.isTrue).getD absent

def descriptionOf (fields : List (String × Document)) : String :=
  ((Document.find? "description" fields).map Document.shown).getD ""

def requiredField (key : String) : Document → Except TaskError (Document × List (String × Document))
  | .record fields =>
    match Document.find? key fields with
    | some d => pure (d, fields)
    | none => throw (.fieldMissing key)
  | _ => throw .noParts

def defaultOf (fields : List (String × Document)) : Option String :=
  match Document.find? "default" fields with
  | none => none
  | some .null => none
  | some d => some d.shown

def parameterOf (entry : Document) : Except TaskError Parameter := do
  let (name, fields) ← requiredField "name" entry
  Parameter.checked
    { name := name.shown
      default := defaultOf fields
      positional := flag "positional" fields false
      verbatim := flag "spaces" fields false
      description := descriptionOf fields }

def flowOf (value : Document) : Except TaskError Flow :=
  let name : Except TaskError String :=
    match value with
    | .text s => pure s
    | d => if d.isTrue then throw .wrongKind else pure ""
  do
    match Flow.ofName? (← name) with
    | some flow => pure flow
    | none => throw (.unknownFlow value)

def slotOf : Document → Except TaskError Slot
  | .text s => do pure ⟨← flowOf (.text s), true, ""⟩
  | entry => do
    let (type, fields) ← requiredField "type" entry
    pure ⟨← flowOf type, flag "required" fields true, descriptionOf fields⟩

def entryFields : Document → Except TaskError (List (String × Document))
  | .record fields =>
    if (Document.find? "name" fields).isSome then pure fields else throw .nameMissing
  | .list items =>
    let isName : Document → Bool
      | .text s => s = "name"
      | _ => false
    if items.any isName then throw .wrongKind else throw .nameMissing
  | .text s => if (s.splitOn "name").length = 1 then throw .nameMissing else throw .wrongKind
  | _ => throw .noParts

/-- Parameters are read first, then inputs, then outputs; the task as a whole is checked last. -/
def ofDocument (entry : Document) : Except TaskError Task := do
  let fields ← entryFields entry
  let parameters ← (← optionalParts "parameters" fields).mapM parameterOf
  let name := ((Document.find? "name" fields).getD .null).shown
  let shortName := (Document.find? "short_name" fields).getD .null
  let inputs ← (← optionalParts "inputs" fields).mapM slotOf
  let outputs ← (← optionalParts "outputs" fields).mapM slotOf
  checked ⟨name, shortName, descriptionOf fields, parameters, inputs, outputs⟩

end Sluice.Task
