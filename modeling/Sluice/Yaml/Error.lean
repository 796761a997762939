import Sluice.Text.Digits
import Sluice.Text.Quoted

/-! What can be wrong with a YAML text. -/

namespace Sluice

inductive YamlError
  /-- A character that no text may hold. -/
  | strayCharacter : YamlError
  /-- A place where no token can start, go on or end. -/
  | badToken : YamlError
  /-- Tokens that make no node together. -/
  | badNode : YamlError
  /-- An unknown alias, a second anchor of one name, or a second document. -/
  | badReference : YamlError
  /-- A node that stands for no value. -/
  | badValue : YamlError
  /-- A truth value that is neither a yes nor a no. -/
  | badTruth : (word : String) → YamlError
  | badWhole : (base : Nat) → (text : String) → YamlError
  | badFraction : (text : String) → YamlError
  | overlong : Text.OverlongNumber → YamlError
  /-- A record with nothing as a key. -/
  | nullKey : YamlError

def YamlError.message : YamlError → Option String
  | .badTruth word => some word
  | .badWhole base text =>
    some ("invalid literal for int() with base " ++ toString base ++ ": " ++ Text.quoted text)
  | .badFraction text => some ("could not convert string to float: " ++ Text.quoted text)
  | .overlong n => some n.message
  | _ => none

end Sluice
