import Sluice.Pipeline

/-! Peers: the connectors at the other ends of the links of a connector. They come in the order in
which the owner lists its links, and can be cut down to those of some stages. -/

namespace Sluice.Pipeline

def outputAt (p : Pipeline) (key : String) (slot : Nat) : Except PipelineError Connector :=
  match p.member? key with
  | none => throw (.strayEnd key)
  | some m =>
    match m.outputs[slot]? with
    | some c => pure c
    | none => throw (.inconsistent (.missingOutput key slot))

def inputAt (p : Pipeline) (key : String) (slot : Nat) : Except PipelineError Connector :=
  match p.member? key with
  | none => throw (.strayEnd key)
  | some m =>
    match m.inputs[slot]? with
    | some c => pure c
    | none => throw (.inconsistent (.missingInput key slot))

def farEnd (p : Pipeline) (side : Side) (l : Link) : Except PipelineError Connector :=
  match side with
  | .input => p.outputAt l.source l.sourceSlot
  | .output => p.inputAt l.target l.targetSlot

def linksAt (p : Pipeline) (c : Connector) : List Link :=
  (p.linksOn c.stage c.side).filter fun l => l.slotOn c.side == c.slot

def within (among : Option (List String)) (id : String) : Bool :=
  match among with
  | none => true
  | some ids => ids.contains id

def peers (p : Pipeline) (c : Connector) (among : Option (List String)) :
    Except PipelineError (List Connector) := do
  let ends ← (p.linksAt c).mapM (p.farEnd c.side)
  pure (ends.filter fun peer => within among peer.stage)

def isFull (p : Pipeline) (c : Connector) : Except PipelineError Bool := do
  pure (c.capacity ≤ (← p.peers c none).length)

def offset (p : Pipeline) (c peer : Connector) (among : Option (List String)) :
    Except PipelineError Nat := do
  match (← p.peers peer among).findIdx? (· == c) with
  | some i => pure i
  | none => throw (.inconsistent (.oneSided peer (some c)))

def dependencies (p : Pipeline) (key : String) : List String :=
  ((p.linksOn key .input).map Link.source).eraseDups

end Sluice.Pipeline
