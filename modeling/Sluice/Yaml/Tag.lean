import Sluice.Text.Digits
import Sluice.Yaml.Token

/-! Anchors, aliases, tags and directives. -/

namespace Sluice.Yaml

def endsAnchor (c : Char) : Bool :=
  isGap c || "?:,]\x7d%@\x60".contains c

def anchorName (c : Cursor) : Except YamlError (String × Cursor) :=
  let (name, after) := c.span isNameChar
  if name = [] ∨ after.rest.head?.any (fun x => !endsAnchor x) then throw .badToken
  else pure (String.ofList name, after)

def isTagChar (whole : Bool) (c : Char) : Bool :=
  isNameChar c || ";/?:@&=+$.!~*'()%".contains c || (whole && ",[]".contains c)

def unescaped : List Char → Except YamlError (List Char)
  | [] => pure []
  | '%' :: a :: b :: r =>
    match Text.hexValue? a, Text.hexValue? b with
    | some x, some y =>
      if x < 8 then do pure (Char.ofNat (16 * x + y) :: (← unescaped r)) else throw .badToken
    | _, _ => throw .badToken
  | '%' :: _ => throw .badToken
  | c :: r => do pure (c :: (← unescaped r))

def tagText (whole : Bool) (c : Cursor) : Except YamlError (List Char × Cursor) := do
  let (cs, after) := c.span (isTagChar whole)
  pure (← unescaped cs, after)

def handle? (c : Cursor) : Option (String × Cursor) :=
  match c.rest with
  | '!' :: r =>
    let name := r.takeWhile isNameChar
    match r.drop name.length with
    | '!' :: _ => some (String.ofList ('!' :: name ++ ['!']), c.skip (name.length + 2))
    | _ => none
  | _ => none

def checkTagEnd (flow : Bool) (c : Cursor) : Except YamlError Unit :=
  if endsWord c.rest || (flow && c.startsWith (· == ',')) then pure () else throw .badToken

def tag (flow : Bool) (c : Cursor) : Except YamlError (Token × Cursor) := do
  match c.rest with
  | '!' :: '<' :: _ =>
    let (cs, after) ← tagText true (c.skip 2)
    if cs = [] ∨ !after.startsWith (· == '>') then throw .badToken
    checkTagEnd flow after.next
    pure (.tag "" (String.ofList cs), after.next)
  | _ =>
    match handle? c with
    | some (handle, after) =>
      let (cs, after) ← tagText false after
      if cs = [] then throw .badToken
      checkTagEnd flow after
      pure (.tag handle (String.ofList cs), after)
    | none =>
      let (cs, after) ← tagText false c.next
      checkTagEnd flow after
      pure (if cs = [] then .tag "" "!" else .tag "!" (String.ofList cs), after)

def versionNumber (c : Cursor) : Except YamlError (Nat × Cursor) :=
  let (digits, after) := c.span Char.isDigit
  match Text.digitsValue? digits with
  | some n => if 9 < digits.length then throw .badToken else pure (n, after)
  | none => throw .badToken

def directive (c : Cursor) : Except YamlError (Token × Cursor) := do
  let (name, c) := c.span isNameChar
  if name = [] ∨ !endsWord c.rest then throw .badToken
  let c := c.skipWhile isSpace
  if name = "YAML".toList then
    let (major, c) ← versionNumber c
    if !c.startsWith (· == '.') then throw .badToken
    let (minor, c) ← versionNumber c.next
    pure (.version major minor, ← c.afterComment)
  else if name = "TAG".toList then
    let (handle, c) ← match handle? c with
      | some found => pure found
      | none => if c.rest.head? = some '!' then pure ("!", c.next) else throw .badToken
    if !c.startsWith isSpace then throw .badToken
    let (lead, c) ← tagText true (c.skipWhile isSpace)
    if lead = [] ∨ !endsWord c.rest then throw .badToken
    pure (.tagPrefix handle (String.ofList lead), ← c.afterComment)
  else throw .badToken

end Sluice.Yaml
