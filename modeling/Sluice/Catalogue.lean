import Sluice.Table
import Sluice.Task.Config
import Sluice.Text.Likeness

/-! Catalogues of tasks. A task is found by its name or its short name; a later task takes the
place of an earlier one of its name, and a later short name points away from the earlier owner.
The adapters that copy a flow are no tasks and cannot be entered. -/

namespace Sluice

/-- `tasks` is keyed by the name of a task in lower case, `shortNames` leads from a short name in
lower case to such a key. -/
structure Catalogue where
  tasks : List (String × Task)
  shortNames : List (String × String)

inductive CatalogueError
  | reserved : (name : String) → CatalogueError
  | badTask : TaskError → CatalogueError
  | unknownTask : (word : String) → (similar : List String) → CatalogueError
  /-- A catalogue file that holds no record. -/
  | noRecord : (path : String) → CatalogueError

namespace CatalogueError

def message : CatalogueError → Option String
  | .reserved name => some (Text.quoted name ++ " is reserved for fan-out adapters")
  | .badTask e => e.message
  | .unknownTask word similar =>
    let hint := if similar.isEmpty then ""
      else " Did you mean: " ++ ", ".intercalate similar ++ "?"
    some ("Unknown task: " ++ Text.quoted word ++ "." ++ hint)
  | .noRecord path =>
    some ("Template catalogue " ++ path ++ " must be a mapping with a 'tasks' list")

end CatalogueError

namespace Catalogue

def empty : Catalogue :=
  ⟨[], []⟩

def size (c : Catalogue) : Nat :=
  c.tasks.length

def key (word : String) : String :=
  Text.lower (Text.trim word)

def isReserved (key : String) : Bool :=
  (Flow.ofTee? key).isSome

/-- Enters a task. The task is in before its short name is looked at, so that a short name which
is no text is refused with the task already entered. -/
def register (c : Catalogue) (t : Task) : Catalogue × Option CatalogueError :=
  let name := key t.name
  if isReserved name then (c, some (.reserved t.name))
  else
    let entered := { c with tasks := Table.put name t c.tasks }
    match t.shortName with
    | .text s =>
      if s = "" then (entered, none)
      else ({ entered with shortNames := Table.put (key s) name c.shortNames }, none)
    | d => (entered, if d.isTrue then some (.badTask .wrongKind) else none)

def lookup (c : Catalogue) (word : String) : Option Task :=
  match c.tasks.lookup (key word) with
  | some t => some t
  | none => (c.shortNames.lookup (key word)).bind fun name => c.tasks.lookup name

/-- The task for a word; a word without one brings up to three names like it. -/
def find (c : Catalogue) (word : String) : Except CatalogueError Task :=
  match c.lookup word with
  | some t => pure t
  | none => throw (.unknownTask word (Text.closeTo (Text.lower word) (c.tasks.map (·.1)) 3))

def sorted (c : Catalogue) : List Task :=
  (c.tasks.mergeSort fun a b => a.1 ≤ b.1).map (·.2)

def registerEntry (c : Catalogue) (entry : Document) : Catalogue × Option CatalogueError :=
  match Task.ofDocument entry with
  | .ok t => c.register t
  | .error e => (c, some (.badTask e))

/-- Enters the entries one after the other up to the first that is refused. -/
def registerAll (c : Catalogue) : List Document → Catalogue × Option CatalogueError
  | [] => (c, none)
  | entry :: r =>
    match c.registerEntry entry with
    | (next, none) => next.registerAll r
    | (next, some e) => (next, some e)

def load (c : Catalogue) (path : String) : Document → Catalogue × Except CatalogueError Nat
  | .record fields =>
    match Task.optionalParts "tasks" fields with
    | .error e => (c, throw (.badTask e))
    | .ok entries =>
      match c.registerAll entries with
      | (next, none) => (next, pure entries.length)
      | (next, some e) => (next, throw e)
  | _ => (c, throw (.noRecord path))

end Catalogue

end Sluice
