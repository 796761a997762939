import Sluice.Yaml.Quoted

/-! Plain scalars: words without quotes, with gaps between them. -/

namespace Sluice.Yaml

def isFlowMark (c : Char) : Bool :=
  c == ',' || c == '[' || c == ']' || c == '\x7b' || c == '\x7d'

def startsPlain (flow : Bool) (c : Cursor) : Bool :=
  match c.rest with
  | [] => false
  | x :: r =>
    if isGap x || isFlowMark x || "#&*!|>'\"%@\x60".contains x then false
    else if x = '-' then !r.head?.any isSpace
    else if x = '?' ∨ x = ':' then !flow && !endsWord r
    else true

def plainWord (flow : Bool) : List Char → Except YamlError (List Char)
  | [] => pure []
  | x :: r => do
    if isGap x then pure []
    else if flow && x = ':' && r.head?.any (fun y => isFlowMark y || y == '?') then throw .badToken
    else if (x = ':' && endsWord r) || (flow && isFlowMark x) then pure []
    else do pure (x :: (← plainWord flow r))

/-- A plain scalar with the place after it and after any gap there. `broken` tells that the last
gap holds a line end. -/
structure PlainText where
  text : List Char
  broken : Bool
  after : Cursor

def plainFrom (flow : Bool) (indent : Int) :
    Nat → (broken : Bool) → Cursor → Except YamlError PlainText
  | 0, broken, c => pure ⟨[], broken, c⟩
  | fuel + 1, broken, c => do
    if c.atDocumentMark || c.startsWith (· == '#') then pure ⟨[], broken, c⟩
    else
      let word ← plainWord flow c.rest
      let after := c.skip word.length
      if word = [] then pure ⟨[], broken, c⟩
      else if !after.startsWith isGap then pure ⟨word, false, after⟩
      else do
        let (g, next) ← Gap.start.take indent after
        if !flow && next.column < indent then pure ⟨word, g.broken, next⟩
        else do
          let more ← plainFrom flow indent fuel g.broken next
          if more.text = [] then pure ⟨word, more.broken, more.after⟩
          else pure ⟨word ++ g.folded ++ more.text, more.broken, more.after⟩

def plainScalar (flow : Bool) (indent : Int) (c : Cursor) : Except YamlError PlainText :=
  plainFrom flow (indent + 1) (c.size + 1) false c

end Sluice.Yaml
