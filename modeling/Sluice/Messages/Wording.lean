import Sluice.Document
import Sluice.Text.Digits

/-! Wordings: message texts with fields in braces for the details. A field is numbered, or takes
the next detail when it has no number; doubled braces stand for themselves. -/

namespace Sluice

inductive WordingError
  /-- A field without a detail to fill it. -/
  | tooFew : WordingError
  | malformed : (message : String) → WordingError
  /-- A field that goes by a name, or a field of a record that it does not have. -/
  | unknownName : (name : String) → WordingError
  | noAttribute : WordingError
  /-- An item or a layout that a detail does not have. -/
  | unsupported : WordingError
  /-- A number that its layout cannot show. -/
  | outOfRange : WordingError
  /-- A width that no text can have. -/
  | tooWide : WordingError

namespace Wording

/-- How the fields of a wording have been numbered so far. -/
inductive Numbering
  | unset : Numbering
  | counted : (next : Nat) → Numbering
  | given : Numbering

/-- A field between its braces: what it shows, how that is turned into a text, and the layout of
the text. -/
structure Field where
  name : List Char
  conversion : Option Char
  layout : List Char

def malformed {α : Type} (message : String) : Except WordingError α :=
  throw (.malformed message)

/-- The name of a field up to the character that ends it. Between brackets all characters count
as part of the name. -/
def fieldName (bracketed : Bool) : List Char → Except WordingError (List Char × Char × List Char)
  | [] => malformed "expected '\x7d' before end of string"
  | c :: r =>
    if bracketed then do
      let (name, stop, rest) ← fieldName (c != ']') r
      pure (c :: name, stop, rest)
    else if c = '\x7b' then malformed "unexpected '\x7b' in field name"
    else if c = '\x7d' ∨ c = ':' ∨ c = '!' then pure ([], c, r)
    else do
      let (name, stop, rest) ← fieldName (c == '[') r
      pure (c :: name, stop, rest)

def fieldLayout (nested : Nat) : List Char → Except WordingError (List Char × List Char)
  | [] => malformed "unmatched '\x7b' in format spec"
  | c :: r =>
    if c = '\x7d' ∧ nested = 0 then pure ([], r)
    else do
      let depth := if c = '\x7b' then nested + 1 else if c = '\x7d' then nested - 1 else nested
      let (layout, rest) ← fieldLayout depth r
      pure (c :: layout, rest)

def field (cs : List Char) : Except WordingError (Field × List Char) := do
  let (name, stop, r) ← fieldName false cs
  if stop = '\x7d' then pure (⟨name, none, []⟩, r)
  else if stop = ':' then
    let (layout, rest) ← fieldLayout 0 r
    pure (⟨name, none, layout⟩, rest)
  else
    match r with
    | [] => malformed "end of string while looking for conversion specifier"
    | [_] => malformed "unmatched '\x7b' in format spec"
    | conversion :: '\x7d' :: rest => pure (⟨name, some conversion, []⟩, rest)
    | conversion :: ':' :: r =>
      let (layout, rest) ← fieldLayout 0 r
      pure (⟨name, some conversion, layout⟩, rest)
    | _ => malformed "expected ':' after conversion specifier"

def largest : Nat :=
  (1 <<< 63) - 1

/-- The number that a part of a wording is, if it is one. Digits that go beyond the largest number
are refused, whatever comes after them. -/
def number? (cs : List Char) : Except WordingError (Option Nat) := do
  let n := Text.digitsValue? (cs.takeWhile Text.isDigit)
  if largest < n.getD 0 then malformed "Too many decimal digits in format string"
  pure (if cs.all Text.isDigit then n else none)

end Wording

end Sluice
