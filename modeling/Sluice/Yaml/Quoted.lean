import Sluice.Text.Quoted
import Sluice.Yaml.Token

/-! Gaps between words and quoted scalars. A gap on one line stands for itself. A gap over
several lines is folded: one line end becomes a space, and of more line ends the first is left
out. -/

namespace Sluice.Yaml

/-- The spaces of a gap on one line, or its line ends. With `broken` there has been a line end, and
`first` is none if that was an escaped one. -/
structure Gap where
  spaces : List Char
  broken : Bool
  first : Option Char
  more : List Char

namespace Gap

def start : Gap :=
  ⟨[], false, none, []⟩

def escaped : Gap :=
  ⟨[], true, none, []⟩

def addLineEnd (g : Gap) (c : Char) : Gap :=
  if g.broken then { g with more := g.more ++ [lineEnd c] }
  else ⟨[], true, some (lineEnd c), []⟩

def folded (g : Gap) : List Char :=
  match g.broken, g.first with
  | false, _ => g.spaces
  | true, none => g.more
  | true, some c => if c = '\n' then (if g.more = [] then [' '] else g.more) else c :: g.more

def takeFrom (indent : Int) : Nat → Gap → Cursor → Except YamlError (Gap × Cursor)
  | 0, g, c => pure (g, c)
  | fuel + 1, g, c =>
    match c.rest with
    | [] => pure (g, c)
    | x :: _ =>
      if isSpace x then
        let (spaces, after) := c.span isSpace
        if g.broken then
          if (spaces.take (indent - c.column).toNat).contains '\t' then throw .badToken
          else takeFrom indent fuel g after
        else takeFrom indent fuel { g with spaces := spaces } after
      else if isLineEnd x then takeFrom indent fuel (g.addLineEnd x) c.next
      else pure (g, c)

def take (indent : Int) (g : Gap) (c : Cursor) : Except YamlError (Gap × Cursor) :=
  takeFrom indent (c.size + 1) g c

end Gap

def escape? : Char → Option Char
  | '0' => some '\x00'
  | 'a' => some '\x07'
  | 'b' => some '\x08'
  | 't' => some '\t'
  | '\t' => some '\t'
  | 'n' => some '\n'
  | 'v' => some '\x0b'
  | 'f' => some '\x0c'
  | 'r' => some '\r'
  | 'e' => some '\x1b'
  | ' ' => some ' '
  | '"' => some '"'
  | '/' => some '/'
  | '\\' => some '\\'
  | 'N' => some '\x85'
  | '_' => some '\xa0'
  | 'L' => some '\u2028'
  | 'P' => some '\u2029'
  | _ => none

def codeLength? : Char → Option Nat
  | 'x' => some 2
  | 'u' => some 4
  | 'U' => some 8
  | _ => none

def codePoint? (digits : List Char) : Option Char := do
  let n ← digits.foldlM (fun n c => do some (16 * n + (← Text.hexValue? c))) 0
  if n < 0xd800 ∨ (0xdfff < n ∧ n ≤ 0x10ffff) then some (Char.ofNat n) else none

def escaped (c : Cursor) : Except YamlError (Char × Cursor) :=
  match c.rest with
  | [] => throw .badToken
  | x :: r =>
    match escape? x, codeLength? x with
    | some y, _ => pure (y, c.skip 1)
    | none, some n =>
      if r.length < n then throw .badToken
      else
        match codePoint? (r.take n) with
        | some y => pure (y, c.skip (n + 1))
        | none => throw .badToken
    | none, none => throw .badToken

def quotedFrom (mark : Char) : Nat → Cursor → Except YamlError (List Char × Cursor)
  | 0, _ => throw .badToken
  | fuel + 1, c => do
    if c.atDocumentMark then throw .badToken
    let gapThen (g : Gap) (c : Cursor) : Except YamlError (List Char × Cursor) := do
      let (g, c) ← g.take 0 c
      let (cs, after) ← quotedFrom mark fuel c
      pure (g.folded ++ cs, after)
    match c.rest with
    | [] => throw .badToken
    | x :: r =>
      if x = mark then
        if mark = '\'' ∧ r.head? = some '\'' then do
          let (cs, after) ← quotedFrom mark fuel (c.skip 2)
          pure (x :: cs, after)
        else pure ([], c.next)
      else if x = '\\' ∧ mark = '"' then
        if r.head?.any isLineEnd then gapThen .escaped c.next.next
        else do
          let (y, c) ← escaped c.next
          let (cs, after) ← quotedFrom mark fuel c
          pure (y :: cs, after)
      else if isGap x then gapThen .start c
      else do
        let (cs, after) ← quotedFrom mark fuel c.next
        pure (x :: cs, after)

def quotedScalar (mark : Char) (c : Cursor) : Except YamlError (Token × Cursor) := do
  let (cs, after) ← quotedFrom mark (c.size + 1) c.next
  pure (.scalar false (String.ofList cs), after)

end Sluice.Yaml
