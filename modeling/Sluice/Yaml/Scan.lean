import Sluice.Yaml.Block
import Sluice.Yaml.Plain
import Sluice.Yaml.Tag

/-! The tokens of a text. A token at which a key can start is held back until it is clear whether a
colon follows: a key without a mark of its own stands on one line and takes at most 1024
characters. -/

namespace Sluice.Yaml

/-- A place where a key can start: the number of its token and where it stands. A required one has
to turn out to be a key. -/
structure KeyStart where
  required : Bool
  number : Nat
  at' : Cursor

/-- The state of reading tokens. `blocks` are the indentations of the open blocks, the inner ones
first, and `indent` is that of the innermost. `keys` has a place for each open bracket and one for
the blocks around them. `done` and `held` are the tokens so far, the last ones first. -/
structure Scan where
  cursor : Cursor
  indent : Int
  blocks : List Int
  keyAllowed : Bool
  keys : List (Option KeyStart)
  done : List Token
  released : Nat
  held : List Token

namespace Scan

def start (cs : List Char) : Scan :=
  ⟨Cursor.ofChars cs, -1, [], true, [none], [], 0, []⟩

def inFlow (s : Scan) : Bool :=
  1 < s.keys.length

def count (s : Scan) : Nat :=
  s.released + s.held.length

def add (s : Scan) (t : Token) : Scan :=
  { s with held := t :: s.held }

def insert (s : Scan) (number : Nat) (t : Token) : Scan :=
  { s with held := s.held.insertIdx (s.count - number) t }

def isStale (s : Scan) (k : KeyStart) : Bool :=
  k.at'.line < s.cursor.line || k.at'.index + 1024 < s.cursor.index

def giveUp (s : Scan) (k : Option KeyStart) : Except YamlError (Option KeyStart) :=
  match k with
  | none => pure none
  | some k =>
    if s.isStale k then (if k.required then throw .badToken else pure none) else pure (some k)

def dropStale (s : Scan) : Except YamlError Scan := do
  pure { s with keys := ← s.keys.mapM s.giveUp }

def endKey (s : Scan) : Except YamlError Scan :=
  match s.keys with
  | some k :: r => if k.required then throw .badToken else pure { s with keys := none :: r }
  | _ => pure s

def saveKey (s : Scan) : Except YamlError Scan := do
  if s.keyAllowed then
    let required := !s.inFlow && s.indent == s.cursor.column
    let s' ← s.endKey
    pure { s' with keys := some ⟨required, s.count, s.cursor⟩ :: s'.keys.drop 1 }
  else pure s

def openBlock (s : Scan) (column : Nat) (number : Nat) (t : Token) : Scan :=
  if !s.inFlow && s.indent < column then
    { s with indent := column, blocks := s.indent :: s.blocks }.insert number t
  else s

def closeBlocks (s : Scan) (column : Int) : Scan :=
  if s.inFlow then s
  else
    let rec go (s : Scan) : List Int → Scan
      | [] => s
      | outer :: r =>
        if column < s.indent then go { s.add .blockEnd with indent := outer, blocks := r } r else s
    go s s.blocks

def toTokenFrom : Nat → Scan → Scan
  | 0, s => s
  | fuel + 1, s =>
    let c := s.cursor
    let c := if c.column = 0 ∧ c.startsWith (· == '\ufeff') then c.next else c
    let c := c.skipWhile fun x => x == ' ' || ((s.inFlow || !s.keyAllowed) && x == '\t')
    let c := if c.startsWith (· == '#') then c.skipWhile fun _ => true else c
    if c.startsWith isLineEnd then
      toTokenFrom fuel { s with cursor := c.next, keyAllowed := s.keyAllowed || !s.inFlow }
    else { s with cursor := c }

def toToken (s : Scan) : Scan :=
  toTokenFrom (s.cursor.size + 1) s

def single (s : Scan) (t : Token) (keyAllowed : Bool) : Scan :=
  { s.add t with cursor := s.cursor.next, keyAllowed := keyAllowed }

def takeDocumentMark (s : Scan) (t : Token) : Except YamlError Scan := do
  let s ← (s.closeBlocks (-1)).endKey
  pure { s.add t with cursor := s.cursor.skip 3, keyAllowed := false }

def takeDirective (s : Scan) : Except YamlError Scan := do
  let s ← (s.closeBlocks (-1)).endKey
  let (t, after) ← directive s.cursor.next
  pure { s.add t with cursor := after, keyAllowed := false }

def takeOpening (s : Scan) (t : Token) : Except YamlError Scan := do
  let s ← s.saveKey
  pure { s.single t true with keys := none :: s.keys }

def takeClosing (s : Scan) (t : Token) : Except YamlError Scan := do
  let s ← s.endKey
  pure { s.single t false with keys := if s.inFlow then s.keys.drop 1 else s.keys }

def takeFlowEntry (s : Scan) : Except YamlError Scan := do
  let s ← s.endKey
  pure (s.single .flowEntry true)

def takeBlockEntry (s : Scan) : Except YamlError Scan := do
  if !s.inFlow && !s.keyAllowed then throw .badToken
  let s ← (s.openBlock s.cursor.column s.count .blockSequence).endKey
  pure (s.single .blockEntry true)

def takeKeyMark (s : Scan) : Except YamlError Scan := do
  if !s.inFlow && !s.keyAllowed then throw .badToken
  let s ← (s.openBlock s.cursor.column s.count .blockMapping).endKey
  pure (s.single .key (!s.inFlow))

def takeValueMark (s : Scan) : Except YamlError Scan := do
  match s.keys with
  | some k :: r =>
    let s := ({ s with keys := none :: r }).insert k.number .key
    pure ((s.openBlock k.at'.column k.number .blockMapping).single .value false)
  | _ =>
    if !s.inFlow && !s.keyAllowed then throw .badToken
    let s := s.openBlock s.cursor.column s.count .blockMapping
    pure (s.single .value (!s.inFlow))

def takeText (s : Scan) (read : Cursor → Except YamlError (Token × Cursor)) :
    Except YamlError Scan := do
  let s ← s.saveKey
  let (t, after) ← read s.cursor
  pure { s.add t with cursor := after, keyAllowed := false }

def takeName (s : Scan) (make : String → Token) : Except YamlError Scan :=
  s.takeText fun c => do
    let (name, after) ← anchorName c.next
    pure (make name, after)

def takeBlockScalar (s : Scan) (literal : Bool) : Except YamlError Scan := do
  let s ← s.endKey
  let (t, after) ← blockScalar literal s.indent s.cursor.next
  pure { s.add t with cursor := after, keyAllowed := true }

def takePlain (s : Scan) : Except YamlError Scan := do
  let s ← s.saveKey
  let found ← plainScalar s.inFlow s.indent s.cursor
  pure { s.add (.scalar true (String.ofList found.text)) with
    cursor := found.after
    keyAllowed := found.broken }

def takeToken (s : Scan) (x : Char) (r : List Char) : Except YamlError Scan :=
  let c := s.cursor
  if c.column = 0 ∧ x = '%' then s.takeDirective
  else if c.atMark '-' then s.takeDocumentMark .documentStart
  else if c.atMark '.' then s.takeDocumentMark .documentEnd
  else if x = '[' then s.takeOpening .flowSequence
  else if x = '\x7b' then s.takeOpening .flowMapping
  else if x = ']' then s.takeClosing .flowSequenceEnd
  else if x = '\x7d' then s.takeClosing .flowMappingEnd
  else if x = ',' then s.takeFlowEntry
  else if x = '-' ∧ endsWord r then s.takeBlockEntry
  else if x = '?' ∧ (s.inFlow ∨ endsWord r) then s.takeKeyMark
  else if x = ':' ∧ (s.inFlow ∨ endsWord r) then s.takeValueMark
  else if x = '*' then s.takeName .alias
  else if x = '&' then s.takeName .anchor
  else if x = '!' then s.takeText (tag s.inFlow)
  else if x = '|' ∧ !s.inFlow then s.takeBlockScalar true
  else if x = '>' ∧ !s.inFlow then s.takeBlockScalar false
  else if x = '\'' ∨ x = '"' then s.takeText (quotedScalar x)
  else if startsPlain s.inFlow c then s.takePlain
  else throw .badToken

def finish (s : Scan) : Except YamlError Scan := do
  let c := s.cursor
  let s := if c.column = 0 then s else { s with cursor := ⟨[], c.size, c.index, c.line + 1, 0⟩ }
  let s ← (s.closeBlocks (-1)).endKey
  pure (s.add .streamEnd)

/-- Lets go of the tokens before the first one that can still turn out to start a key. -/
def release (s : Scan) : Except YamlError Scan := do
  let s ← s.dropStale
  let free := match (s.keys.filterMap fun k => k.map KeyStart.number).min? with
    | some first => first - s.released
    | none => s.held.length
  let kept := s.held.length - free
  pure { s with
    done := s.held.drop kept ++ s.done
    released := s.released + free
    held := s.held.take kept }

def step (s : Scan) : Except YamlError Scan := do
  let s ← s.toToken.dropStale
  let s := s.closeBlocks s.cursor.column
  match s.cursor.rest with
  | [] => (← s.finish).release
  | x :: r => (← s.takeToken x r).release

def run : Nat → Scan → Tokens
  | 0, s => ⟨s.done.reverse, none⟩
  | fuel + 1, s =>
    match s.step with
    | .error e => ⟨s.done.reverse, some e⟩
    | .ok next =>
      if next.done.head? = some .streamEnd then ⟨next.done.reverse, none⟩ else run fuel next

end Scan

def tokensOf (cs : List Char) : Tokens :=
  Scan.run (cs.length + 2) (Scan.start cs)

end Sluice.Yaml
