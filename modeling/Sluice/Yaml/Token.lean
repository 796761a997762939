import Sluice.Yaml.Cursor

/-! Tokens of a YAML text. Indentation shows as the starts and ends of blocks. -/

namespace Sluice.Yaml

inductive Token
  | streamEnd : Token
  | version : (major minor : Nat) → Token
  | tagPrefix : (handle lead : String) → Token
  | documentStart : Token
  | documentEnd : Token
  | blockSequence : Token
  | blockMapping : Token
  | blockEnd : Token
  | flowSequence : Token
  | flowSequenceEnd : Token
  | flowMapping : Token
  | flowMappingEnd : Token
  | flowEntry : Token
  | blockEntry : Token
  | key : Token
  | value : Token
  | alias : (name : String) → Token
  | anchor : (name : String) → Token
  | tag : (handle suffix : String) → Token
  | scalar : (plain : Bool) → (text : String) → Token
  deriving DecidableEq, Repr

/-- The tokens of a text up to a place where there is none. -/
structure Tokens where
  tokens : List Token
  fault : Option YamlError

end Sluice.Yaml
