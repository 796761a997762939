import Sluice.Messages
import Sluice.Pipeline.Error

/-! Why a command line is refused. A refusal names the task at fault first and then the details. -/

namespace Sluice

inductive RefusalKind
  | unknownTask : RefusalKind
  | unknownPipeStream : RefusalKind
  | noDefaultParameter : RefusalKind
  | unknownParameter : RefusalKind
  | missingCounterpartPipe : RefusalKind
  | connectionNotPermitted : RefusalKind
  | loopDetected : RefusalKind
  | invalidValue : RefusalKind
  | unconnectedInput : RefusalKind
  deriving DecidableEq, Repr

namespace RefusalKind

def all : List RefusalKind :=
  [.unknownTask, .unknownPipeStream, .noDefaultParameter, .unknownParameter,
    .missingCounterpartPipe, .connectionNotPermitted, .loopDetected, .invalidValue,
    .unconnectedInput]

def code : RefusalKind → String
  | .unknownTask => "UNKNOWN_TASK"
  | .unknownPipeStream => "UNKNOWN_PIPE_STREAM"
  | .noDefaultParameter => "NO_DEFAULT_PARAMETER"
  | .unknownParameter => "UNKNOWN_PARAMETER"
  | .missingCounterpartPipe => "MISSING_COUNTERPART_PIPE"
  | .connectionNotPermitted => "CONNECTION_NOT_PERMITTED"
  | .loopDetected => "LOOP_DETECTED"
  | .invalidValue => "INVALID_VALUE"
  | .unconnectedInput => "UNCONNECTED_INPUT"

def ofCode? (code : String) : Option RefusalKind :=
  all.find? fun kind => kind.code = code

end RefusalKind

/-- A kind of refusal with its details. -/
structure TextRefusal where
  kind : RefusalKind
  context : List Document

namespace TextRefusal

def message (messages : Messages) (r : TextRefusal) : Except WordingError String :=
  messages.tell ("Parser.Error." ++ r.kind.code) r.context

def task? (r : TextRefusal) : Option Document :=
  r.context.head?

end TextRefusal

inductive ReadError
  | unknownTask : (task : String) → ReadError
  /-- An adapter that finds nothing to copy. -/
  | nothingToCopy : (task : String) → ReadError
  | noPositional : (task : String) → (value : String) → ReadError
  | unknownParameter : (task : String) → (key : String) → ReadError
  /-- A label that no earlier task writes. -/
  | unwrittenLabel : (task : String) → (label : String) → ReadError
  | notPermitted : (source : String) → (target : String) → (reason : String) → ReadError
  | loop : (tasks : List String) → ReadError
  | invalidValue : (task : String) → (key : String) → (value : String) → ReadError
  | openInput : (task : String) → (slot : Nat) → ReadError
  /-- A slot that cannot be read. -/
  | overlong : Text.OverlongNumber → ReadError
  /-- The pipeline under construction does not allow a step. -/
  | pipeline : PipelineError → ReadError

namespace ReadError

def reasonText (messages : Messages) (reason : String) : Except WordingError String :=
  messages.tell ("Pipeline.Connect." ++ reason) []

def refusal? (messages : Messages) (e : ReadError) : Except WordingError (Option TextRefusal) :=
  match e with
  | .unknownTask task => pure (some ⟨.unknownTask, [.text task]⟩)
  | .nothingToCopy task => pure (some ⟨.unknownPipeStream, [.text task]⟩)
  | .noPositional task value => pure (some ⟨.noDefaultParameter, [.text task, .text value]⟩)
  | .unknownParameter task key => pure (some ⟨.unknownParameter, [.text task, .text key]⟩)
  | .unwrittenLabel task label => pure (some ⟨.missingCounterpartPipe, [.text task, .text label]⟩)
  | .notPermitted source target reason => do
    let why ← reasonText messages reason
    pure (some ⟨.connectionNotPermitted, [.text source, .text target, .text why]⟩)
  | .loop tasks => pure (some ⟨.loopDetected, [.text (", ".intercalate tasks)]⟩)
  | .invalidValue task key value =>
    pure (some ⟨.invalidValue, [.text task, .text key, .text value]⟩)
  | .openInput task slot => pure (some ⟨.unconnectedInput, [.text task, .whole slot]⟩)
  | .overlong _ => pure none
  | .pipeline _ => pure none

end ReadError

end Sluice
