import Sluice.Connector
import Sluice.Text.Quoted

/-! Links of a pipeline: from a slot of one stage to a slot of another. -/

namespace Sluice

structure Link where
  source : String
  sourceSlot : Nat
  target : String
  targetSlot : Nat
  deriving DecidableEq, Repr

inductive LinkError
  | blankSource : LinkError
  | blankTarget : LinkError
  | negativeSlot : LinkError

def LinkError.message : LinkError → String
  | .blankSource => "source_function must be non-empty"
  | .blankTarget => "target_function must be non-empty"
  | .negativeSlot => "Connector slots must be non-negative"

namespace Link

def between (source : String) (sourceSlot : Int) (target : String) (targetSlot : Int) :
    Except LinkError Link :=
  if Text.isVoid source then throw .blankSource
  else if Text.isVoid target then throw .blankTarget
  else if sourceSlot < 0 ∨ targetSlot < 0 then throw .negativeSlot
  else pure ⟨source, sourceSlot.toNat, target, targetSlot.toNat⟩

def shown (l : Link) : String :=
  "Connection(source_function=" ++ Text.quoted l.source ++ ", source_slot=" ++
    toString l.sourceSlot ++ ", target_function=" ++ Text.quoted l.target ++ ", target_slot=" ++
    toString l.targetSlot ++ ")"

def slotOn (l : Link) : Side → Nat
  | .input => l.targetSlot
  | .output => l.sourceSlot

end Link

end Sluice
