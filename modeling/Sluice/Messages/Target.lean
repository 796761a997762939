import Sluice.Messages.TypeNotes
import Sluice.Messages.Wording

/-! What the fields of a wording lead to: a detail, a part of one, or the type of a value. A field
name starts with the detail and goes on with attributes after points and items in brackets. -/

namespace Sluice.Wording

inductive Target
  | value : Document → Target
  | type : (name : String) → Target
  | types : (names : List String) → Target
  /-- A type of lists or records with a word or a number for what they hold. -/
  | typeOf : (name : String) → (held : Document) → Target

def typeName : Document → String
  | .null => "NoneType"
  | .truth _ => "bool"
  | .whole _ => "int"
  | .decimal _ => "float"
  | .text _ => "str"
  | .list _ => "list"
  | .record _ => "dict"

namespace Target

def typeText (name : String) : String :=
  "<class '" ++ name ++ "'>"

def quoted : Target → String
  | .value d => d.quoted
  | .type name => typeText name
  | .types [name] => "(" ++ typeText name ++ ",)"
  | .types names => "(" ++ ", ".intercalate (names.map typeText) ++ ")"
  | .typeOf name held => name ++ "[" ++ held.quoted ++ "]"

def shown : Target → String
  | .value d => d.shown
  | t => t.quoted

def partOf (n : Int) (name : String) : Except WordingError Target :=
  if name = "real" ∨ name = "numerator" then pure (.value (.whole n))
  else if name = "imag" then pure (.value (.whole 0))
  else if name = "denominator" then pure (.value (.whole 1))
  else throw .noAttribute

def partAt (d : Document) (name : String) : Except WordingError Target :=
  match d with
  | .whole n => partOf n name
  | .truth b => partOf (if b then 1 else 0) name
  | .decimal _ =>
    if name = "real" then pure (.value d)
    else if name = "imag" then pure (.value (.decimal .zero))
    else throw .noAttribute
  | _ => throw .noAttribute

def callOf (owner : String) : Document :=
  if owner = "list" ∨ owner = "tuple" then .text "(iterable=(), /)"
  else if owner = "float" then .text "(x=0, /)"
  else if owner = "object" then .text "()"
  else .null

def lineOf (name : String) : List String :=
  if name = "object" then ["object"]
  else if name = "bool" then ["bool", "int", "object"]
  else [name, "object"]

def isNoKey (name : String) : Bool :=
  name == "list" || name == "dict"

def aboutType (owner name : String) : Except WordingError Target :=
  if name = "__name__" ∨ name = "__qualname__" then pure (.value (.text owner))
  else if name = "__module__" then pure (.value (.text "builtins"))
  else if name = "__text_signature__" then pure (.value (callOf owner))
  else if name = "__mro__" then pure (.types (lineOf owner))
  else if name = "__bases__" then pure (.types ((lineOf owner).drop 1 |>.take 1))
  else if name = "__base__" then
    match (lineOf owner).drop 1 with
    | base :: _ => pure (.type base)
    | [] => pure (.value .null)
  else throw .noAttribute

def shared (owner name : String) : Except WordingError Target :=
  if name = "__hash__" ∧ isNoKey owner then pure (.value .null)
  else if name = "__doc__" then
    pure (.value (match typeNotes.lookup owner with
      | some note => .text note
      | none => .null))
  else throw .noAttribute

def orShared (owner name : String) (own : Except WordingError Target) :
    Except WordingError Target :=
  match own with
  | .ok t => pure t
  | .error _ => shared owner name

def attributeAt (t : Target) (name : String) : Except WordingError Target :=
  if name = "__class__" then
    match t with
    | .value d => pure (.type (typeName d))
    | .type _ => pure (.type "type")
    | .types _ => pure (.type "tuple")
    | .typeOf _ _ => pure (.type "types.GenericAlias")
  else
    match t with
    | .value d => orShared (typeName d) name (partAt d name)
    | .type owner => orShared owner name (aboutType owner name)
    | .types _ => shared "tuple" name
    | .typeOf owner _ => orShared owner name (aboutType owner name)

def item (t : Target) (key : List Char) : Except WordingError Target := do
  let n ← number? key
  if key = [] then malformed "Empty attribute in format string"
  match t, n with
  | .value (.text s), some n =>
    match s.toList[n]? with
    | some c => pure (.value (.text (String.singleton c)))
    | none => throw .tooFew
  | .value (.list items), some n =>
    match items[n]? with
    | some d => pure (.value d)
    | none => throw .tooFew
  | .value (.record fields), none =>
    match Document.find? (String.ofList key) fields with
    | some d => pure (.value d)
    | none => throw (.unknownName (String.ofList key))
  | .value (.record _), some n => throw (.unknownName (toString n))
  | .types names, some n =>
    match names[n]? with
    | some name => pure (.type name)
    | none => throw .tooFew
  | .type owner, n =>
    if isNoKey owner ∨ owner = "tuple" ∨ owner = "type" then
      pure (.typeOf owner (match n with
        | some n => .whole n
        | none => .text (String.ofList key)))
    else throw .unsupported
  | _, _ => throw .unsupported

def follow (fuel : Nat) (t : Target) (path : List Char) : Except WordingError Target :=
  match fuel, path with
  | _, [] => pure t
  | 0, _ => pure t
  | fuel + 1, c :: r =>
    if c = '[' then
      match r.dropWhile (· != ']') with
      | [] => malformed "Missing ']' in format string"
      | _ :: rest => do (← t.item (r.takeWhile (· != ']'))).follow fuel rest
    else if c = '.' then
      match r.takeWhile fun x => x != '.' && x != '[' with
      | [] => malformed "Empty attribute in format string"
      | name => do
        (← t.attributeAt (String.ofList name)).follow fuel
          (r.dropWhile fun x => x != '.' && x != '[')
    else malformed "Only '.' or '[' may follow ']' in format field specifier"

def convert (conversion : Option Char) (t : Target) : Except WordingError Target :=
  match conversion with
  | none => pure t
  | some '\x00' => pure t
  | some 's' => pure (.value (.text t.shown))
  | some 'r' => pure (.value (.text t.quoted))
  | some 'a' =>
    let ascii (c : Char) : List Char := if c.toNat < 128 then [c] else Text.escapeCode c
    pure (.value (.text (String.ofList (t.quoted.toList.flatMap ascii))))
  | some c =>
    if 32 < c.toNat ∧ c.toNat < 127 then
      malformed ("Unknown conversion specifier " ++ String.singleton c)
    else
      malformed ("Unknown conversion specifier \\x" ++
        String.ofList (Nat.toDigits 16 c.toNat))

end Target

def detail (args : List Document) (n : Nat) : Except WordingError Document :=
  match args[n]? with
  | some d => pure d
  | none => throw .tooFew

def pick (args : List Document) (numbering : Numbering) (name : List Char) :
    Except WordingError (Document × Numbering) := do
  match name, ← number? name, numbering with
  | [], _, .unset => do pure (← detail args 0, .counted 1)
  | [], _, .counted n => do pure (← detail args n, .counted (n + 1))
  | [], _, .given =>
    malformed
      "cannot switch from manual field specification to automatic field numbering"
  | _, some _, .counted _ =>
    malformed
      "cannot switch from automatic field numbering to manual field specification"
  | _, some n, _ => do pure (← detail args n, .given)
  | _, none, _ => throw (.unknownName (String.ofList name))

end Sluice.Wording
