import Sluice.Messages.Fraction

/-! Filling a wording with details. -/

namespace Sluice.Wording

def splitName (name : List Char) : List Char × List Char :=
  (name.takeWhile fun c => c != '.' && c != '[', name.dropWhile fun c => c != '.' && c != '[')

mutual

def fillField (fuel depth : Nat) (args : List Document) (numbering : Numbering) (f : Field) :
    Except WordingError (List Char × Numbering) :=
  match fuel with
  | 0 => malformed "Max string recursion exceeded"
  | fuel + 1 => do
    let (first, path) := splitName f.name
    let (picked, numbering) ← pick args numbering first
    let followed ← (Target.value picked).follow path.length path
    let converted ← followed.convert f.conversion
    if f.layout.contains '\x7b' then
      let (layout, numbering) ← fillFrom fuel (depth - 1) args numbering f.layout
      pure (← lay layout converted, numbering)
    else pure (← lay f.layout converted, numbering)

def fillFrom (fuel depth : Nat) (args : List Document) (numbering : Numbering)
    (cs : List Char) : Except WordingError (List Char × Numbering) :=
  match fuel with
  | 0 => malformed "Max string recursion exceeded"
  | fuel + 1 =>
    if depth = 0 then malformed "Max string recursion exceeded"
    else
      match cs with
      | [] => pure ([], numbering)
      | ['\x7b'] => malformed "Single '\x7b' encountered in format string"
      | '\x7b' :: '\x7b' :: r => do
        let (rest, numbering) ← fillFrom fuel depth args numbering r
        pure ('\x7b' :: rest, numbering)
      | '\x7d' :: '\x7d' :: r => do
        let (rest, numbering) ← fillFrom fuel depth args numbering r
        pure ('\x7d' :: rest, numbering)
      | '\x7d' :: _ => malformed "Single '\x7d' encountered in format string"
      | '\x7b' :: r => do
        let (f, rest) ← field r
        let (shown, numbering) ← fillField fuel depth args numbering f
        let (rest, numbering) ← fillFrom fuel depth args numbering rest
        pure (shown ++ rest, numbering)
      | c :: r => do
        let (rest, numbering) ← fillFrom fuel depth args numbering r
        pure (c :: rest, numbering)

end

/-- The wording with its fields filled; layouts may hold fields, but not fields with layouts that
hold fields. No part of a wording is read twice, so its length bounds the steps. -/
def fill (wording : String) (args : List Document) : Except WordingError String := do
  let cs := wording.toList
  let (filled, _) ← fillFrom (2 * cs.length + 2) 2 args .unset cs
  pure (String.ofList filled)

end Sluice.Wording
