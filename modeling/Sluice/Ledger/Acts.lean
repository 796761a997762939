import Sluice.Ledger
import Sluice.Pipeline.Reorder

/-! Acts on a ledger. Each changes the parts one after the other, and what it has changed before it
fails stays changed. -/

namespace Sluice

/-- A step that changes a ledger, fails or does both. -/
abbrev Act (α : Type) : Type :=
  EStateM PipelineError Ledger α

namespace Ledger

def ask {α : Type} (query : Ledger → Except PipelineError α) : Act α := do
  match query (← get) with
  | .ok a => pure a
  | .error e => throw e

def check (passes : Ledger → Bool) (e : PipelineError) : Act Unit :=
  ask fun s => if passes s then pure () else throw e

def modifyJob (s : Ledger) (serial : Nat) (f : Entry → Entry) : Ledger :=
  { s with entries := s.entries.map fun e => (e.1, if e.2.serial = serial then f e.2 else e.2) }

def add (stage : Stage) (id : Option String) : Act String := do
  let key := (← get).entryKey stage id
  check (fun s => !s.holds key) (.taken key)
  let newId ← ask fun _ => (Stage.idOf key).mapError .badStage
  modify fun s => s.modifyJob stage.serial fun e => { e with id := newId }
  modify fun s => { s with entries := Table.put key { stage.toJob with id := newId } s.entries }
  modify fun s => { s with order := s.order ++ [key] }
  modify fun s => s.setList key .input []
  modify fun s => s.setList key .output []
  pure key

def strike (l : Link) : Act Unit := do
  check (fun s => s.links.contains l) .unlistedLink
  modify fun s => { s with links := s.links.erase l }

def list (key : String) (side : Side) (l : Link) : Act Unit := do
  let listed ← ask fun s => look (s.lists side) key
  modify fun s => s.setList key side (listed ++ [l])

def unlist (key : String) (side : Side) (l : Link) : Act Unit := do
  let listed ← ask fun s => look (s.lists side) key
  check (fun _ => listed.contains l) .unlistedLink
  modify fun s => s.setList key side (listed.erase l)

def drop (l : Link) : Act Unit := do
  strike l
  unlist l.source .output l
  unlist l.target .input l

def dropAll : List Link → Act Unit
  | [] => pure ()
  | l :: r => do
    drop l
    dropAll r

def unorder (key : String) : Act Unit := do
  check (fun s => s.order.contains key) (.unordered key)
  modify fun s => { s with order := s.order.erase key }

def close (key : String) (side : Side) : Act Unit := do
  let _ ← ask fun s => look (s.lists side) key
  modify fun s => s.setLists side (Table.remove key (s.lists side))

def pop (key : String) : Act Entry := do
  let e ← ask fun s => look s.entries key
  modify fun s => { s with entries := Table.remove key s.entries }
  pure e

def leave (key : String) : Act Entry := do
  close key .input
  close key .output
  unorder key
  pop key

def remove (key : String) : Act Entry := do
  check (fun s => s.holds key) (.notFound key)
  let incoming ← ask fun s => look s.incoming key
  let outgoing ← ask fun s => look s.outgoing key
  dropAll (incoming ++ outgoing)
  leave key

def move (key : String) (position : Int) : Act Unit := do
  check (fun s => s.holds key) (.notFound key)
  unorder key
  modify fun s =>
    { s with order := s.order.insertIdx (min position.toNat s.order.length) key }

def connect (source target : String) (sourceSlot targetSlot : Option Int) : Act Link := do
  let l ← ask fun s => s.allowedLink source target sourceSlot targetSlot
  modify fun s => { s with links := s.links ++ [l] }
  list l.source .output l
  list l.target .input l
  pure l

def disconnect (l : Link) : Act Unit := do
  check (fun s => s.links.contains l) (.linkNotFound l)
  drop l

def unlink (c : Connector) : Act Nat := do
  if (← get).holds c.stage then
    let doomed ← ask fun s => s.linksAt c
    dropAll doomed
    pure doomed.length
  else pure 0

def reorder (c : Connector) (links : List Link) : Act Unit := do
  check (fun s => s.holds c.stage) (.notFound c.stage)
  let listed ← ask fun s => look (s.lists c.side) c.stage
  let positions ← ask fun _ => links.mapM (Pipeline.positionOf c listed)
  modify fun s =>
    s.setList c.stage c.side (Pipeline.place (positions.mergeSort (· ≤ ·)) links listed)

def clear : Act Unit := do
  modify fun s => { s with entries := [] }
  modify fun s => { s with order := [] }
  modify fun s => { s with links := [] }
  modify fun s => { s with incoming := [] }
  modify fun s => { s with outgoing := [] }

def give (serial position : Nat) (given : Option String) : Act Unit :=
  modify fun s => s.modifyJob serial fun e =>
    { e with arguments := e.arguments.modify position fun a => { a with given := given } }

end Ledger

end Sluice
