import Sluice.Yaml.Error

/-! Places in a YAML text, with the characters that matter for its layout. -/

namespace Sluice.Yaml

def isLineEnd (c : Char) : Bool :=
  c == '\n' || c == '\r' || c == '\x85' || c == '\u2028' || c == '\u2029'

def lineEnd (c : Char) : Char :=
  if c = '\u2028' ∨ c = '\u2029' then c else '\n'

def isSpace (c : Char) : Bool :=
  c == ' ' || c == '\t'

def isGap (c : Char) : Bool :=
  isSpace c || isLineEnd c

def endsWord : List Char → Bool
  | [] => true
  | c :: _ => isGap c

def isNameChar (c : Char) : Bool :=
  c.isAlphanum || c == '_' || c == '-'

def isAllowed (c : Char) : Bool :=
  let n := c.toNat
  n == 0x9 || n == 0xa || n == 0xd || (0x20 ≤ n && n ≤ 0x7e) || n == 0x85 ||
    (0xa0 ≤ n && n ≤ 0xfffd) || 0x10000 ≤ n

/-- A place in a text of some size: what is left of it and how far it is from the start. -/
structure Cursor where
  rest : List Char
  size : Nat
  index : Nat
  line : Nat
  column : Nat

namespace Cursor

def ofChars (cs : List Char) : Cursor :=
  ⟨cs, cs.length, 0, 0, 0⟩

def next (c : Cursor) : Cursor :=
  match c.rest with
  | [] => c
  | '\r' :: '\n' :: r => ⟨r, c.size, c.index + 2, c.line + 1, 0⟩
  | x :: r =>
    if isLineEnd x then ⟨r, c.size, c.index + 1, c.line + 1, 0⟩
    else ⟨r, c.size, c.index + 1, c.line, c.column + 1⟩

def skip (c : Cursor) (n : Nat) : Cursor :=
  ⟨c.rest.drop n, c.size, c.index + n, c.line, c.column + n⟩

def span (c : Cursor) (fits : Char → Bool) : List Char × Cursor :=
  let found := c.rest.takeWhile fun x => fits x && !isLineEnd x
  (found, c.skip found.length)

def skipWhile (c : Cursor) (fits : Char → Bool) : Cursor :=
  (c.span fits).2

def startsWith (c : Cursor) (fits : Char → Bool) : Bool :=
  c.rest.head?.any fits

def atMark (c : Cursor) (mark : Char) : Bool :=
  match c.rest with
  | x :: y :: z :: r => c.column == 0 && x == mark && y == mark && z == mark && endsWord r
  | _ => false

def atDocumentMark (c : Cursor) : Bool :=
  c.atMark '-' || c.atMark '.'

def afterComment (c : Cursor) : Except YamlError Cursor :=
  let c := c.skipWhile isSpace
  let c := if c.startsWith (· == '#') then c.skipWhile fun _ => true else c
  if c.rest = [] ∨ c.startsWith isLineEnd then pure c.next else throw .badToken

end Cursor

end Sluice.Yaml
