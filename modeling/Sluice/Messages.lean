import Sluice.Messages.Fill
import Sluice.Table

/-! Messages: the wordings of what users are told, by key. A catalogue of messages can be
replaced or added to; a key without a wording, or with nothing for one, is its own message. -/

namespace Sluice

abbrev Messages :=
  List (String × Document)

namespace Messages

def englishWordings : List (String × String) :=
  [("Parser.Error.UNKNOWN_TASK", "Unknown task '--\x7b0\x7d'."),
    ("Parser.Error.UNKNOWN_PIPE_STREAM", "Task '--\x7b0\x7d' has no stream to read from."),
    ("Parser.Error.NO_DEFAULT_PARAMETER",
      "Task '--\x7b0\x7d' does not take a value without a key."),
    ("Parser.Error.UNKNOWN_PARAMETER", "Task '--\x7b0\x7d' has no parameter '\x7b1\x7d'."),
    ("Parser.Error.MISSING_COUNTERPART_PIPE",
      "Task '--\x7b0\x7d' reads pipe '\x7b1\x7d' which is never written."),
    ("Parser.Error.CONNECTION_NOT_PERMITTED",
      "Cannot connect '--\x7b0\x7d' to '--\x7b1\x7d': \x7b2\x7d"),
    ("Parser.Error.LOOP_DETECTED", "The pipeline contains a loop: \x7b0\x7d"),
    ("Parser.Error.INVALID_VALUE",
      "Task '--\x7b0\x7d' has an invalid value for '\x7b1\x7d': \x7b2\x7d"),
    ("Parser.Error.UNCONNECTED_INPUT", "Input \x7b1\x7d of task '--\x7b0\x7d' is not connected."),
    ("Pipeline.Connect.not_in_pipeline", "the function is not part of the pipeline"),
    ("Pipeline.Connect.same_function", "a function cannot be connected to itself"),
    ("Pipeline.Connect.no_such_connector", "there is no matching connector"),
    ("Pipeline.Connect.type_mismatch", "the connector types differ"),
    ("Pipeline.Connect.full", "the connector has no free connection left"),
    ("Pipeline.Connect.already_connected", "the connectors are already connected")]

def english : Messages :=
  englishWordings.map fun (key, wording) => (key, .text wording)

def update (messages others : Messages) : Messages :=
  others.foldl (fun m (key, wording) => Table.put key wording m) messages

def knows (messages : Messages) (key : String) : Bool :=
  (messages.lookup key).isSome

/-- The message for a key with its details. A wording that asks for more details than there are is
shown as it is, and a key without a wording is shown with the details after it. Only a text can be
filled. -/
def tell (messages : Messages) (key : String) (args : List Document) :
    Except WordingError String :=
  match (messages.lookup key).getD .null with
  | .null => pure (" ".intercalate (key :: args.map Document.shown))
  | .text wording =>
    match Wording.fill wording args with
    | .error .tooFew => pure wording
    | filled => filled
  | _ => throw .noAttribute

end Messages

end Sluice
