import Sluice.Document.Json
import Sluice.Yaml

/-! Document files. What they hold is a record or a list in the end: an empty file stands for an
empty record and a mere word for a record with that word as its only field. -/

namespace Sluice

/-- What makes a document file unusable. -/
inductive ConfigError
  /-- A number or a truth value. -/
  | scalar : ConfigError
  /-- A text that writes a number or a truth value. -/
  | scalarText : ConfigError
  | yaml : YamlError → ConfigError

/-- Why a value that is kept is not given back. -/
inductive StoreError
  | missing : StoreError
  | reference : (text : String) → StoreError

/-- What a library for settings does: `load` makes a document of the text of a file, and `given`
tells what is read where a text has been put. The text may be the mark of a value that is missing,
or refer to another value. -/
structure ConfigLibrary where
  load : String → Except ConfigError Document
  given : String → Except StoreError Document

namespace Document

def readConfig (text : String) : Except ConfigError Document :=
  match Yaml.read text with
  | .ok d => pure d
  | .error e => throw (.yaml e)

def ofConfig (text : String) : Except ConfigError Document := do
  match ← readConfig text with
  | .record fields => pure (.record fields)
  | .list items => pure (.list items)
  | .null => pure (.record [])
  | .text s =>
    match ← readConfig s with
    | .record fields => pure (.record fields)
    | .list items => pure (.list items)
    | .null => pure (.record [])
    | .text t => pure (.record [(t, .null)])
    | _ => throw .scalarText
  | _ => throw .scalar

def config (d : Document) : Except ConfigError Document :=
  ofConfig d.plainJson

end Document

namespace ConfigLibrary

def missingMark : String :=
  "???"

def plain : ConfigLibrary where
  load := Document.ofConfig
  given s := if s = missingMark then throw .missing else pure (.text s)

end ConfigLibrary

end Sluice
