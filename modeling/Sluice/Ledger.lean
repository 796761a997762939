import Sluice.Pipeline.Connect
import Sluice.Table

/-! Ledgers: pipelines as they are kept. The order of the members, the members themselves and the
links that each of them takes in and gives out stand in parts of their own, and each part can lack
a key that another has. -/

namespace Sluice

/-- A member in a ledger. `id` is the id it goes by, which need not be the key it stands under. -/
structure Entry extends Job where
  id : String

def Entry.connectors (e : Entry) (side : Side) : List Connector :=
  Connector.ofSlots e.id side (e.slots side)

structure Ledger where
  name : String
  entries : List (String × Entry)
  order : List String
  links : List Link
  incoming : List (String × List Link)
  outgoing : List (String × List Link)

namespace Ledger

def new (name : Option String) : Ledger :=
  ⟨(Pipeline.new name).name, [], [], [], [], []⟩

def lists (s : Ledger) : Side → List (String × List Link)
  | .input => s.incoming
  | .output => s.outgoing

def setLists (s : Ledger) (side : Side) (lists : List (String × List Link)) : Ledger :=
  match side with
  | .input => { s with incoming := lists }
  | .output => { s with outgoing := lists }

def setList (s : Ledger) (key : String) (side : Side) (links : List Link) : Ledger :=
  s.setLists side (Table.put key links (s.lists side))

def holds (s : Ledger) (key : String) : Bool :=
  (s.entries.lookup key).isSome

/-- What stands under a key that has to be there. -/
def look {α : Type} (t : List (String × α)) (key : String) : Except PipelineError α :=
  match t.lookup key with
  | some a => pure a
  | none => throw (.strayEnd key)

def outputAt (s : Ledger) (key : String) (slot : Nat) : Except PipelineError Connector := do
  let e ← look s.entries key
  match (e.connectors .output)[slot]? with
  | some c => pure c
  | none => throw (.inconsistent (.missingOutput key slot))

def inputAt (s : Ledger) (key : String) (slot : Nat) : Except PipelineError Connector := do
  let e ← look s.entries key
  match (e.connectors .input)[slot]? with
  | some c => pure c
  | none => throw (.inconsistent (.missingInput key slot))

def farEnd (s : Ledger) (side : Side) (l : Link) : Except PipelineError Connector :=
  match side with
  | .input => s.outputAt l.source l.sourceSlot
  | .output => s.inputAt l.target l.targetSlot

def linksAt (s : Ledger) (c : Connector) : Except PipelineError (List Link) := do
  pure ((← look (s.lists c.side) c.stage).filter fun l => l.slotOn c.side == c.slot)

def peers (s : Ledger) (c : Connector) (among : Option (List String)) :
    Except PipelineError (List Connector) := do
  if s.holds c.stage then
    let ends ← (← s.linksAt c).mapM (s.farEnd c.side)
    pure (ends.filter fun peer => Pipeline.within among peer.stage)
  else pure []

def isFull (s : Ledger) (c : Connector) : Except PipelineError Bool := do
  pure (c.capacity ≤ (← s.peers c none).length)

def firstOpen? (s : Ledger) (output : Connector) :
    List Connector → Except PipelineError (Option Connector)
  | [] => pure none
  | c :: r => do
    if output.feeds c then
      if ← s.isFull c then s.firstOpen? output r else pure (some c)
    else s.firstOpen? output r

def firstPair? (s : Ledger) (inputs : List Connector) :
    List Connector → Except PipelineError (Option (Connector × Connector))
  | [] => pure none
  | c :: r => do
    if ← s.isFull c then s.firstPair? inputs r
    else
      match ← s.firstOpen? c inputs with
      | some d => pure (some (c, d))
      | none => s.firstPair? inputs r

def member (s : Ledger) (key : String) : Except PipelineError Entry :=
  match s.entries.lookup key with
  | some e => pure e
  | none => throw (.refused (.notInPipeline key))

def chooseSlots (s : Ledger) (source target : String) (sourceSlot targetSlot : Option Int) :
    Except PipelineError (Int × Int) :=
  match sourceSlot, targetSlot with
  | some i, some j => pure (i, j)
  | _, _ => do
    let a ← look s.entries source
    let b ← look s.entries target
    let outputs := Pipeline.inSlot sourceSlot (a.connectors .output)
    match ← s.firstPair? (Pipeline.inSlot targetSlot (b.connectors .input)) outputs with
    | some (c, d) => pure (c.slot, d.slot)
    | none => throw (.refused (.noFreePair source target))

def allowedLink (s : Ledger) (source target : String) (sourceSlot targetSlot : Option Int) :
    Except PipelineError Link := do
  let a ← s.member source
  let b ← s.member target
  if source = target then throw (.refused (.sameStage source))
  let (i, j) ← s.chooseSlots source target sourceSlot targetSlot
  let some c := Pipeline.atSlot? (a.connectors .output) i |
    throw (.refused (.noOutput source i))
  let some d := Pipeline.atSlot? (b.connectors .input) j | throw (.refused (.noInput target j))
  if !c.feeds d then throw (.refused (.flowsDiffer c source d target))
  let l : Link := ⟨source, c.slot, target, d.slot⟩
  if s.links.contains l then throw (.refused (.alreadyLinked l))
  if ← s.isFull c then throw (.refused (.full c))
  if ← s.isFull d then throw (.refused (.full d))
  pure l

def freshId (s : Ledger) (task : String) : String :=
  let n := s.entries.length
  let free := (List.range (n + 1)).find? fun i => !s.holds (Pipeline.numberedId task (n + i))
  Pipeline.numberedId task (n + free.getD 0)

def entryKey (s : Ledger) (stage : Stage) (id : Option String) : String :=
  match id, stage.id with
  | some id, _ => Text.trim id
  | none, some id => id
  | none, none => s.freshId stage.task.name

end Ledger

end Sluice
