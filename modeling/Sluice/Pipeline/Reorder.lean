import Sluice.Pipeline

/-! Giving the links at a connector another order. They share out among themselves the positions
that they have in the list of their stage, so that no other link moves. -/

namespace Sluice.Pipeline

def positionOf (c : Connector) (listed : List Link) (l : Link) : Except PipelineError Nat :=
  if !listed.contains l then throw (.linkNotFound l)
  else if l.slotOn c.side ≠ c.slot then throw (.foreignLink l c)
  else pure (listed.idxOf l)

def place : List Nat → List Link → List Link → List Link
  | i :: is, l :: ls, listed => place is ls (listed.set i l)
  | _, _, listed => listed

def reorder (p : Pipeline) (c : Connector) (links : List Link) : Except PipelineError Pipeline := do
  let m ← p.find c.stage
  let listed := m.linksOn c.side
  let positions ← links.mapM (positionOf c listed)
  let ordered := place (positions.mergeSort (· ≤ ·)) links listed
  pure (p.modify c.stage fun m => m.setLinksOn c.side ordered)

end Sluice.Pipeline
