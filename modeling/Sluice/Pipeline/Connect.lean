import Sluice.Pipeline.Peers

/-! Linking an output of one member to an input of another. Slots that are left open are filled
with the first pair of one flow that has room on both sides. -/

namespace Sluice.Pipeline

def firstOpen? (p : Pipeline) (output : Connector) :
    List Connector → Except PipelineError (Option Connector)
  | [] => pure none
  | c :: r => do
    if output.feeds c then
      if ← p.isFull c then p.firstOpen? output r else pure (some c)
    else p.firstOpen? output r

def firstPair? (p : Pipeline) (inputs : List Connector) :
    List Connector → Except PipelineError (Option (Connector × Connector))
  | [] => pure none
  | c :: r => do
    if ← p.isFull c then p.firstPair? inputs r
    else
      match ← p.firstOpen? c inputs with
      | some d => pure (some (c, d))
      | none => p.firstPair? inputs r

def inSlot (slot : Option Int) (cs : List Connector) : List Connector :=
  match slot with
  | none => cs
  | some i => cs.filter fun c => (c.slot : Int) == i

def chooseSlots (p : Pipeline) (source target : Member) (sourceSlot targetSlot : Option Int) :
    Except PipelineError (Int × Int) :=
  match sourceSlot, targetSlot with
  | some i, some j => pure (i, j)
  | _, _ => do
    match ← p.firstPair? (inSlot targetSlot target.inputs) (inSlot sourceSlot source.outputs) with
    | some (a, b) => pure (a.slot, b.slot)
    | none => throw (.refused (.noFreePair source.key target.key))

def atSlot? (cs : List Connector) (slot : Int) : Option Connector :=
  if slot < 0 then none else cs[slot.toNat]?

def member (p : Pipeline) (key : String) : Except PipelineError Member :=
  match p.member? key with
  | some m => pure m
  | none => throw (.refused (.notInPipeline key))

/-- The link between two members, if nothing stands against it: both connectors exist, are of one
flow, are not linked yet and have room. -/
def allowedLink (p : Pipeline) (source target : String) (sourceSlot targetSlot : Option Int) :
    Except PipelineError Link := do
  let a ← p.member source
  let b ← p.member target
  if source = target then throw (.refused (.sameStage source))
  let (i, j) ← p.chooseSlots a b sourceSlot targetSlot
  let some c := atSlot? a.outputs i | throw (.refused (.noOutput source i))
  let some d := atSlot? b.inputs j | throw (.refused (.noInput target j))
  if !c.feeds d then throw (.refused (.flowsDiffer c source d target))
  let l : Link := ⟨source, c.slot, target, d.slot⟩
  if p.links.contains l then throw (.refused (.alreadyLinked l))
  if ← p.isFull c then throw (.refused (.full c))
  if ← p.isFull d then throw (.refused (.full d))
  pure l

def link (p : Pipeline) (l : Link) : Pipeline :=
  let table := { p with links := p.links ++ [l] }
  let sourced := table.modify l.source fun m => { m with outgoing := m.outgoing ++ [l] }
  sourced.modify l.target fun m => { m with incoming := m.incoming ++ [l] }

def connect (p : Pipeline) (source target : String) (sourceSlot targetSlot : Option Int) :
    Except PipelineError (Link × Pipeline) := do
  let l ← p.allowedLink source target sourceSlot targetSlot
  pure (l, p.link l)

def canConnect (p : Pipeline) (source target : String) (sourceSlot targetSlot : Option Int) :
    Except PipelineError Bool :=
  match p.allowedLink source target sourceSlot targetSlot with
  | .ok _ => pure true
  | .error (.refused _) => pure false
  | .error e => throw e

end Sluice.Pipeline
