import Sluice.Yaml.Token

/-! Block scalars: indented lines after a header. In the literal form the lines stand as they are,
in the folded form a line end between two lines of text becomes a space. -/

namespace Sluice.Yaml

/-- The header of a block scalar: whether the line ends after its text are kept, dropped, or kept
up to the first, and how far it is indented if that is told. -/
structure BlockHeader where
  chomp : Option Bool
  indent : Option Nat

def isChomp (c : Char) : Bool :=
  c == '+' || c == '-'

def indicator? : List Char → Except YamlError (Option Nat)
  | [] => pure none
  | x :: _ =>
    if x = '0' then throw .badToken
    else pure (if x.isDigit then some (x.toNat - '0'.toNat) else none)

def blockHeader (c : Cursor) : Except YamlError (BlockHeader × Cursor) := do
  match c.rest with
  | x :: r =>
    if isChomp x then
      match ← indicator? r with
      | some n => pure (⟨some (x == '+'), some n⟩, c.skip 2)
      | none => pure (⟨some (x == '+'), none⟩, c.skip 1)
    else
      match ← indicator? c.rest with
      | none => pure (⟨none, none⟩, c)
      | some n =>
        match r with
        | y :: _ =>
          if isChomp y then pure (⟨some (y == '+'), some n⟩, c.skip 2)
          else pure (⟨none, some n⟩, c.skip 1)
        | [] => pure (⟨none, some n⟩, c.skip 1)
  | [] => pure (⟨none, none⟩, c)

/-- Empty lines before a line of text: their ends, the widest indentation met, and the place after
them. Indentation holds no tabs. -/
structure EmptyLines where
  ends : List Char
  widest : Nat
  after : Cursor

def emptyLinesFrom (indent : Option Nat) :
    Nat → (widest : Nat) → Cursor → Except YamlError EmptyLines
  | 0, widest, c => pure ⟨[], widest, c⟩
  | fuel + 1, widest, c => do
    let inside (column : Nat) : Bool := indent.all fun n => column < n
    let spaces := c.rest.takeWhile (· == ' ')
    let count := match indent with
      | none => spaces.length
      | some n => min spaces.length (n - c.column)
    let c := c.skip count
    let widest := max widest c.column
    if inside c.column && c.startsWith (· == '\t') then throw .badToken
    match c.rest with
    | [] => pure ⟨[], widest, c⟩
    | x :: _ =>
      if isLineEnd x then do
        let found ← emptyLinesFrom indent fuel widest c.next
        pure { found with ends := lineEnd x :: found.ends }
      else pure ⟨[], widest, c⟩

def emptyLines (indent : Option Nat) (c : Cursor) : Except YamlError EmptyLines :=
  emptyLinesFrom indent (c.size + 1) 0 c

/-- Lines of a block scalar: their text, what ends the last one, and the empty lines after it. -/
structure BlockText where
  text : List Char
  last : List Char
  ends : List Char
  after : Cursor

def blockLinesFrom (literal : Bool) (indent : Nat) :
    Nat → (last ends : List Char) → (indented : Bool) → Cursor → Except YamlError BlockText
  | 0, last, ends, _, c => pure ⟨[], last, ends, c⟩
  | fuel + 1, last, ends, indented, c => do
    if c.column ≠ indent ∨ c.rest = [] then pure ⟨[], last, ends, c⟩
    else
      let spaced := c.startsWith isSpace
      let join :=
        if !literal && last = ['\n'] && !indented && !spaced then
          if ends = [] then [' '] else ends
        else last ++ ends
      let (line, after) := c.span fun _ => true
      let stop := (after.rest.head?.map lineEnd).toList
      let found ← emptyLines (some indent) after.next
      let more ← blockLinesFrom literal indent fuel stop found.ends spaced found.after
      pure { more with text := join ++ line ++ more.text }

def blockScalar (literal : Bool) (indent : Int) (c : Cursor) :
    Except YamlError (Token × Cursor) := do
  let (header, c) ← blockHeader c
  let c ← c.afterComment
  let told := header.indent.map fun n => (max indent 0).toNat + n
  let first ← emptyLines told c
  let width := told.getD (max (max first.widest (indent + 1).toNat) 1)
  let found ← blockLinesFrom literal width (c.size + 1) [] first.ends false first.after
  let tail := match header.chomp with
    | some false => []
    | none => found.last
    | some true => found.last ++ found.ends
  pure (.scalar false (String.ofList (found.text ++ tail)), found.after)

end Sluice.Yaml
