import Sluice.Flow

/-! Connectors: the places where a stage takes in or gives out a flow. A connector is known by its
stage, its side and its slot; flow, need and description follow from the task of the stage. -/

namespace Sluice

inductive Side
  | input : Side
  | output : Side
  deriving DecidableEq, Repr

def Side.name : Side → String
  | .input => "in"
  | .output => "out"

def Side.ofName? (name : String) : Option Side :=
  [Side.input, Side.output].find? fun side => side.name = name

/-- What a task declares about one of its connectors. -/
structure Slot where
  flow : Flow
  required : Bool
  description : String

structure Connector where
  stage : String
  side : Side
  flow : Flow
  slot : Nat
  required : Bool
  description : String

namespace Connector

def place (c : Connector) : String × Side × Nat :=
  (c.stage, c.side, c.slot)

/-- Connectors at one place are the same, whatever they declare. -/
instance : BEq Connector where
  beq a b := a.place == b.place

def free? (stage : String) (side : Side) (flow : Flow) (slot : Int) (required : Bool)
    (description : String) : Option Connector :=
  if slot < 0 then none else some ⟨stage, side, flow, slot.toNat, required, description⟩

def capacity (c : Connector) : Nat :=
  match c.side with
  | .input => c.flow.maxIn
  | .output => c.flow.maxOut

def feeds (a b : Connector) : Bool :=
  a.side = .output && b.side = .input && a.flow = b.flow

def shown (c : Connector) : String :=
  "Connector(" ++ c.stage ++ "." ++ c.side.name ++ "[" ++ toString c.slot ++ "], " ++
    c.flow.name ++ ")"

def ofSlots (stage : String) (side : Side) (slots : List Slot) : List Connector :=
  slots.zipIdx.map fun (s, i) => ⟨stage, side, s.flow, i, s.required, s.description⟩

@[simp] theorem length_ofSlots (stage : String) (side : Side) (slots : List Slot) :
    (ofSlots stage side slots).length = slots.length := by
  simp [ofSlots]

end Connector

end Sluice
