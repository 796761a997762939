import Sluice.Yaml.Kind
import Sluice.Yaml.Scan

/-! Nodes: what the tokens of a text make together. A node can be given a name by an anchor, and an
alias stands for the node with its name. -/

namespace Sluice.Yaml

inductive Node
  | scalar : Kind → String → Node
  | sequence : Kind → List Node → Node
  | mapping : Kind → List (Node × Node) → Node

def Node.empty : Node :=
  .scalar .nothing ""

/-- What is left of the tokens, the nodes with names, and what the handles of tags stand for. -/
structure Source where
  tokens : List Token
  fault : YamlError
  anchors : List (String × Node)
  handles : List (String × String)

abbrev Taking (α : Type) :=
  StateT Source (Except YamlError) α

namespace Taking

/-- The next token. Behind the last one stands the fault that ends them. -/
def peek : Taking Token := do
  let s ← get
  match s.tokens with
  | [] => throw s.fault
  | t :: _ => pure t

def skip : Taking Unit :=
  modify fun s => { s with tokens := s.tokens.drop 1 }

def advance : Taking Token := do
  skip
  peek

end Taking

open Taking

def usualHandles : List (String × String) :=
  [("!", "!"), ("!!", "tag:yaml.org,2002:")]

def wholeTag (handle suffix : String) : Taking String := do
  if handle = "" then pure suffix
  else
    match (← get).handles.lookup handle with
    | some lead => pure (lead ++ suffix)
    | none => throw .badNode

/-- The anchor and the tag before a node, in any order, and the token after them. -/
structure Properties where
  anchor : Option String
  tag : Option (String × String)
  next : Token

def properties (t : Token) : Taking Properties := do
  match t with
  | .anchor name =>
    match ← advance with
    | .tag handle suffix => pure ⟨some name, some (handle, suffix), ← advance⟩
    | t => pure ⟨some name, none, t⟩
  | .tag handle suffix =>
    match ← advance with
    | .anchor name => pure ⟨some name, some (handle, suffix), ← advance⟩
    | t => pure ⟨none, some (handle, suffix), t⟩
  | t => pure ⟨none, none, t⟩

def kindOf (tag : Option String) (usual : Kind) : Kind :=
  match tag with
  | none => usual
  | some tag => if tag = "!" then usual else Kind.ofTag tag

def scalarKind (tag : Option String) (plain : Bool) (text : String) : Kind :=
  match tag with
  | none => if plain then Kind.ofPlain text else .text
  | some tag => if tag = "!" then Kind.ofPlain text else Kind.ofTag tag

def checkAnchor (anchor : Option String) : Taking Unit := do
  match anchor with
  | some name => if ((← get).anchors.lookup name).isSome then throw .badReference
  | none => pure ()

def name (anchor : Option String) (n : Node) : Taking Node := do
  match anchor with
  | some name => modify fun s => { s with anchors := (name, n) :: s.anchors }
  | none => pure ()
  pure n

def endsEntry (flow : Bool) : Token → Bool
  | .key => !flow
  | .value => true
  | .blockEnd => !flow
  | .flowEntry => flow
  | .flowMappingEnd => flow
  | _ => false

mutual

def node (block compact : Bool) : Nat → Taking Node
  | 0 => throw .badNode
  | fuel + 1 => do
    match ← peek with
    | .alias name =>
      skip
      match (← get).anchors.lookup name with
      | some n => pure n
      | none => throw .badReference
    | t =>
      let p ← properties t
      let tag ← p.tag.mapM fun (handle, suffix) => wholeTag handle suffix
      match p.next with
      | .scalar plain text =>
        skip
        checkAnchor p.anchor
        name p.anchor (.scalar (scalarKind tag plain text) text)
      | .flowSequence =>
        checkAnchor p.anchor
        skip
        name p.anchor (.sequence (kindOf tag .sequence) (← flowSequence true fuel))
      | .flowMapping =>
        checkAnchor p.anchor
        skip
        name p.anchor (.mapping (kindOf tag .mapping) (← flowMapping true fuel))
      | next =>
        if compact && next = .blockEntry then
          checkAnchor p.anchor
          name p.anchor (.sequence (kindOf tag .sequence) (← compactSequence fuel))
        else if block && next = .blockSequence then
          checkAnchor p.anchor
          skip
          name p.anchor (.sequence (kindOf tag .sequence) (← blockSequence fuel))
        else if block && next = .blockMapping then
          checkAnchor p.anchor
          skip
          name p.anchor (.mapping (kindOf tag .mapping) (← blockMapping fuel))
        else if p.anchor.isSome || tag.isSome then
          checkAnchor p.anchor
          name p.anchor (.scalar (scalarKind tag tag.isNone "") "")
        else throw .badNode

def blockSequence : Nat → Taking (List Node)
  | 0 => throw .badNode
  | fuel + 1 => do
    match ← peek with
    | .blockEntry =>
      let next ← advance
      let n ← if next = .blockEntry ∨ next = .blockEnd then pure Node.empty
        else node true false fuel
      pure (n :: (← blockSequence fuel))
    | .blockEnd =>
      skip
      pure []
    | _ => throw .badNode

def compactSequence : Nat → Taking (List Node)
  | 0 => throw .badNode
  | fuel + 1 => do
    match ← peek with
    | .blockEntry =>
      let next ← advance
      let n ← if next = .blockEntry ∨ endsEntry false next then pure Node.empty
        else node true false fuel
      pure (n :: (← compactSequence fuel))
    | _ => pure []

def blockMapping : Nat → Taking (List (Node × Node))
  | 0 => throw .badNode
  | fuel + 1 => do
    match ← peek with
    | .key =>
      let next ← advance
      let key ← if endsEntry false next then pure Node.empty else node true true fuel
      let value ← match ← peek with
        | .value => do
          let next ← advance
          if endsEntry false next then pure Node.empty else node true true fuel
        | _ => pure Node.empty
      pure ((key, value) :: (← blockMapping fuel))
    | .blockEnd =>
      skip
      pure []
    | _ => throw .badNode

def flowSequence (first : Bool) : Nat → Taking (List Node)
  | 0 => throw .badNode
  | fuel + 1 => do
    let t ← peek
    if t = .flowSequenceEnd then
      skip
      pure []
    else
      let t ← if first then pure t else if t = .flowEntry then advance else throw .badNode
      if t = .key then
        let n ← pairAfterKey fuel
        pure (n :: (← flowSequence false fuel))
      else if t = .flowSequenceEnd then
        skip
        pure []
      else
        let n ← node false false fuel
        pure (n :: (← flowSequence false fuel))

def pairAfterKey : Nat → Taking Node
  | 0 => throw .badNode
  | fuel + 1 => do
    let next ← advance
    let key ← if next = .value ∨ next = .flowEntry ∨ next = .flowSequenceEnd then do
        skip
        pure Node.empty
      else node false false fuel
    let value ← match ← peek with
      | .value => do
        let next ← advance
        if next = .flowEntry ∨ next = .flowSequenceEnd then pure Node.empty
        else node false false fuel
      | _ => pure Node.empty
    let _ ← peek
    pure (.mapping .mapping [(key, value)])

def flowMapping (first : Bool) : Nat → Taking (List (Node × Node))
  | 0 => throw .badNode
  | fuel + 1 => do
    let t ← peek
    if t = .flowMappingEnd then
      skip
      pure []
    else
      let t ← if first then pure t else if t = .flowEntry then advance else throw .badNode
      if t = .key then
        let next ← advance
        let key ← if endsEntry true next then pure Node.empty else node false false fuel
        let value ← match ← peek with
          | .value => do
            let next ← advance
            if next = .flowEntry ∨ next = .flowMappingEnd then pure Node.empty
            else node false false fuel
          | _ => pure Node.empty
        pure ((key, value) :: (← flowMapping false fuel))
      else if t = .flowMappingEnd then
        skip
        pure []
      else
        let key ← node false false fuel
        let _ ← peek
        pure ((key, Node.empty) :: (← flowMapping false fuel))

end

def directives (versioned : Bool) : Nat → Taking Unit
  | 0 => throw .badNode
  | fuel + 1 => do
    match ← peek with
    | .version major minor =>
      if versioned ∨ major ≠ 1 ∨ (minor ≠ 1 ∧ minor ≠ 2) then throw .badNode
      skip
      directives true fuel
    | .tagPrefix handle lead =>
      let s ← get
      if (s.handles.lookup handle).isSome then throw .badNode
      set { s with handles := (handle, lead) :: s.handles, tokens := s.tokens.drop 1 }
      directives versioned fuel
    | _ => modify fun s =>
      { s with handles := s.handles ++ usualHandles.filter fun h =>
          (s.handles.lookup h.1).isNone }

def markedStart (fuel : Nat) : Taking Unit := do
  modify fun s => { s with handles := [] }
  directives false fuel
  if (← peek) = .documentStart then skip else throw .badNode

def isDirective : Token → Bool
  | .version _ _ => true
  | .tagPrefix _ _ => true
  | _ => false

def endsDocument (t : Token) : Bool :=
  isDirective t || t = .documentStart || t = .documentEnd || t = .streamEnd

def document (fuel : Nat) : Taking (Option Node) := do
  let t ← peek
  if t = .streamEnd then pure none
  else
    let n ←
      if isDirective t || t = .documentStart then do
        markedStart fuel
        if endsDocument (← peek) then pure Node.empty else node true false fuel
      else node true false fuel
    if (← peek) = .documentEnd then skip
    pure (some n)

def onlyOne : Nat → Taking Unit
  | 0 => throw .badNode
  | fuel + 1 => do
    let t ← peek
    if t = .documentEnd then
      skip
      onlyOne fuel
    else if t = .streamEnd then pure ()
    else
      markedStart fuel
      throw .badReference

def nodeOf? (t : Tokens) : Except YamlError (Option Node) := do
  let fuel := 2 * t.tokens.length + 4
  let go : Taking (Option Node) := do
    let n ← document fuel
    onlyOne fuel
    pure n
  let (n, _) ← go.run ⟨t.tokens, t.fault.getD .badNode, [], usualHandles⟩
  pure n

end Sluice.Yaml
