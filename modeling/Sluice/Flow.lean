import Sluice.Text.Lower

/-! The kinds of data that travel between the stages of a pipeline. A kind fixes how many links a
connector of it may have and by which adapter one output of it feeds several readers. -/

namespace Sluice

inductive Flow
  | entity : Flow
  | change : Flow
  | dataset : Flow
  deriving DecidableEq, Repr

namespace Flow

def all : List Flow :=
  [.entity, .change, .dataset]

def name : Flow → String
  | .entity => "entity"
  | .change => "change"
  | .dataset => "dataset"

def maxIn : Flow → Nat
  | .entity => 1
  | .change => 1
  | .dataset => 1

/-- A stream can be copied to many readers, a dataset is read once. -/
def maxOut : Flow → Nat
  | .entity => 1024
  | .change => 1024
  | .dataset => 1

def tee? : Flow → Option String
  | .entity => some "tee"
  | .change => some "tee-change"
  | .dataset => none

def ofTee? (task : String) : Option Flow :=
  all.find? fun flow => flow.tee? = some task

def ofName? (name : String) : Option Flow :=
  all.find? fun flow => flow.name = Text.lower (Text.trim name)

end Flow

end Sluice
