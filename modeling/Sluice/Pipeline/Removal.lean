import Sluice.Pipeline

/-! Taking links and members out of a pipeline. Links are taken out one by one; when one is not
where it should be, the pipeline stays as the steps before have left it. -/

namespace Sluice.Pipeline

def unlist (p : Pipeline) (key : String) (side : Side) (l : Link) :
    Pipeline × Option PipelineError :=
  match p.member? key with
  | none => (p, some (.strayEnd key))
  | some m =>
    if (m.linksOn side).contains l then
      (p.modify key fun m => m.setLinksOn side ((m.linksOn side).erase l), none)
    else (p, some .unlistedLink)

def drop (p : Pipeline) (l : Link) : Pipeline × Option PipelineError :=
  if p.links.contains l then
    match { p with links := p.links.erase l }.unlist l.source .output l with
    | (q, some e) => (q, some e)
    | (q, none) => q.unlist l.target .input l
  else (p, some .unlistedLink)

def dropAll (p : Pipeline) : List Link → Pipeline × Option PipelineError
  | [] => (p, none)
  | l :: r =>
    match p.drop l with
    | (q, none) => q.dropAll r
    | (q, some e) => (q, some e)

def disconnect (p : Pipeline) (l : Link) : Pipeline × Option PipelineError :=
  if p.links.contains l then p.drop l else (p, some (.linkNotFound l))

def unlink (p : Pipeline) (c : Connector) : Pipeline × Except PipelineError Nat :=
  let doomed := (p.linksOn c.stage c.side).filter fun l => l.slotOn c.side == c.slot
  match p.dropAll doomed with
  | (q, none) => (q, pure doomed.length)
  | (q, some e) => (q, throw e)

/-- Takes out a member with all its links. -/
def remove (p : Pipeline) (key : String) : Pipeline × Except PipelineError Member :=
  match p.member? key with
  | none => (p, throw (.notFound key))
  | some m =>
    match p.dropAll (m.incoming ++ m.outgoing) with
    | (q, some e) => (q, throw e)
    | (q, none) => ({ q with members := q.members.filter fun other => other.key ≠ key }, pure m)

end Sluice.Pipeline
