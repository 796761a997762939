import Sluice.Document.Config
import Sluice.Job
import Sluice.Pipeline.Link

/-! What can go wrong with a pipeline. A refused link leaves the pipeline as it was. -/

namespace Sluice

/-- Why two stages are not linked. -/
inductive Refusal
  | notInPipeline : (id : String) → Refusal
  | sameStage : (id : String) → Refusal
  | noOutput : (id : String) → (slot : Int) → Refusal
  | noInput : (id : String) → (slot : Int) → Refusal
  | noFreePair : (source : String) → (target : String) → Refusal
  | flowsDiffer : (source : Connector) → (sourceId : String) →
      (target : Connector) → (targetId : String) → Refusal
  | alreadyLinked : Link → Refusal
  | full : Connector → Refusal

namespace Refusal

def reason : Refusal → String
  | .notInPipeline _ => "not_in_pipeline"
  | .sameStage _ => "same_function"
  | .noOutput _ _ => "no_such_connector"
  | .noInput _ _ => "no_such_connector"
  | .noFreePair _ _ => "no_such_connector"
  | .flowsDiffer _ _ _ _ => "type_mismatch"
  | .alreadyLinked _ => "already_connected"
  | .full _ => "full"

def message : Refusal → String
  | .notInPipeline id => "Function not found in pipeline: " ++ id
  | .sameStage id => "Cannot connect function " ++ id ++ " to itself"
  | .noOutput id slot => "Function " ++ id ++ " has no output " ++ toString slot
  | .noInput id slot => "Function " ++ id ++ " has no input " ++ toString slot
  | .noFreePair source target =>
    "No free connector pair of matching type between " ++ source ++ " and " ++ target
  | .flowsDiffer a source b target =>
    "Connector types differ: " ++ source ++ ".out[" ++ toString a.slot ++ "] (" ++ a.flow.name ++
      ") -> " ++ target ++ ".in[" ++ toString b.slot ++ "] (" ++ b.flow.name ++ ")"
  | .alreadyLinked l => "Already connected: " ++ l.shown
  | .full c =>
    "Connector " ++ c.shown ++ " already has " ++ toString c.capacity ++ " connection(s)"

end Refusal

/-- How two views of one link fail to agree. -/
inductive Inconsistency
  /-- The far end does not lead back to a connector, or there is none to lead back to. -/
  | oneSided : (peer : Connector) → (connector : Option Connector) → Inconsistency
  | missingOutput : (id : String) → (slot : Nat) → Inconsistency
  | missingInput : (id : String) → (slot : Nat) → Inconsistency
  | neverWritten : (peer : Connector) → (connector : Connector) → Inconsistency
  | cannotFanOut : (connector : Connector) → (readers : Nat) → Inconsistency

def Inconsistency.message : Inconsistency → String
  | .oneSided peer connector =>
    "Connection " ++ peer.shown ++ " -> " ++ (connector.map Connector.shown).getD Text.absent ++
      " is only visible from one side"
  | .missingOutput id slot =>
    "Connection refers to missing output " ++ id ++ ".out[" ++ toString slot ++ "]"
  | .missingInput id slot =>
    "Connection refers to missing input " ++ id ++ ".in[" ++ toString slot ++ "]"
  | .neverWritten peer connector =>
    peer.shown ++ " feeds " ++ connector.shown ++ " but was never written"
  | .cannotFanOut connector readers =>
    connector.shown ++ " has " ++ toString readers ++ " readers but its type cannot fan out"

inductive PipelineError
  | taken : (id : String) → PipelineError
  | notFound : (id : String) → PipelineError
  /-- A stage that has no id stands for no member. -/
  | unidentified : (stage : Stage) → PipelineError
  /-- A stage, or nothing at all, where a member is needed. -/
  | notMember : Option Stage → PipelineError
  | badStage : StageError → PipelineError
  | linkNotFound : Link → PipelineError
  | foreignLink : Link → Connector → PipelineError
  | refused : Refusal → PipelineError
  /-- The stages that a cycle keeps from being placed. -/
  | cycle : (ids : List String) → PipelineError
  | inconsistent : Inconsistency → PipelineError
  /-- A link of the table whose end is no member. -/
  | strayEnd : (id : String) → PipelineError
  /-- A link of the table that its end no longer lists. -/
  | unlistedLink : PipelineError
  /-- A member that the order lacks. -/
  | unordered : (id : String) → PipelineError
  | invalid : (errors : List String) → PipelineError
  /-- A value that is no text where a command line has a text. -/
  | noText : (value : Document) → PipelineError
  | unread : StoreError → PipelineError

namespace PipelineError

def cycleMessage (ids : List String) : String :=
  "Pipeline contains a cycle involving functions: " ++ Text.quotedList ids

def message : PipelineError → Option String
  | .taken id => some ("Function already exists: " ++ id)
  | .notFound id => some ("Function not found: " ++ id)
  | .unidentified s => some (s.shown ++ " has no function_id")
  | .notMember s => some ((s.map Stage.shown).getD Text.absent ++ " is not part of the pipeline")
  | .badStage e => some e.message
  | .linkNotFound l => some ("Connection not found: " ++ l.shown)
  | .foreignLink l c => some (l.shown ++ " does not belong to " ++ c.shown)
  | .refused r => some r.message
  | .cycle ids => some (cycleMessage ids)
  | .inconsistent i => some i.message
  | .strayEnd id => some id
  | .unlistedLink => none
  | .unordered _ => none
  | .invalid errors => some ("; ".intercalate errors)
  | .noText _ => none
  | .unread _ => none

end PipelineError

end Sluice
