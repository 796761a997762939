import Sluice.Pipeline.Order
import Sluice.Pipeline.Peers

/-! The check of a whole pipeline: a cycle and a required input without a link are errors, an
output without a link is worth a warning. -/

namespace Sluice

structure Validation where
  errors : List String
  warnings : List String

def Validation.isValid (v : Validation) : Bool :=
  v.errors.isEmpty

namespace Pipeline

def cycleErrors (p : Pipeline) : Except PipelineError (List String) :=
  match p.arrange with
  | .ok _ => pure []
  | .error (.cycle ids) => pure [PipelineError.cycleMessage ids]
  | .error e => throw e

def openInput (id : String) (c : Connector) : String :=
  "Required input " ++ id ++ ".in[" ++ toString c.slot ++ "] (" ++ c.flow.name ++
    ") is not connected"

def openOutput (id : String) (c : Connector) : String :=
  "Output " ++ id ++ ".out[" ++ toString c.slot ++ "] (" ++ c.flow.name ++ ") is not connected"

def unlinked (p : Pipeline) (cs : List Connector) : Except PipelineError (List Connector) :=
  cs.filterM fun c => do pure (← p.peers c none).isEmpty

def validateMember (p : Pipeline) (v : Validation) (m : Member) :
    Except PipelineError Validation := do
  let inputs ← p.unlinked (m.inputs.filter Connector.required)
  let outputs ← p.unlinked m.outputs
  pure ⟨v.errors ++ inputs.map (openInput m.id), v.warnings ++ outputs.map (openOutput m.id)⟩

def validate (p : Pipeline) : Except PipelineError Validation := do
  let errors ← p.cycleErrors
  p.members.foldlM p.validateMember ⟨errors, []⟩

def validateStrictly (p : Pipeline) : Except PipelineError Validation := do
  let v ← p.validate
  if v.isValid then pure v else throw (.invalid v.errors)

end Pipeline

end Sluice
