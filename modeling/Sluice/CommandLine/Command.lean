import Sluice.CommandLine.PipeKey
import Sluice.CommandLine.Token
import Sluice.Text.Lower

/-! Commands: the parts of a command line that start with two dashes and a name at the start of a
word. The text of a command reaches to the next two dashes that start a word. -/

namespace Sluice

/-- The pipe at a slot of a task, by its label. -/
structure PipeRef where
  slot : Nat
  label : String
  deriving DecidableEq, Repr

structure Command where
  name : String
  text : String
  parameters : List Token
  inPipes : List PipeRef
  outPipes : List PipeRef

namespace CommandLine

def startsDashes : List Char → Bool
  | '-' :: '-' :: _ => true
  | _ => false

def upToDashes : List Char → List Char × List Char
  | [] => ([], [])
  | c :: r =>
    if Text.isBlank c && startsDashes r then ([], c :: r)
    else
      let (body, rest) := upToDashes r
      (c :: body, rest)

theorem upToDashes_append (cs : List Char) : (upToDashes cs).1 ++ (upToDashes cs).2 = cs := by
  induction cs with
  | nil => rfl
  | cons c r ih =>
    unfold upToDashes
    split
    · rfl
    · simp [ih]

theorem length_upToDashes_snd_le (cs : List Char) : (upToDashes cs).2.length ≤ cs.length := by
  have := congrArg List.length (upToDashes_append cs)
  simp only [List.length_append] at this
  omega

/-- Names and texts of the commands. `atWord` tells that the character before the text is a blank
or that there is none. -/
def split (atWord : Bool) : List Char → List (List Char × List Char)
  | [] => []
  | c :: r =>
    if atWord && startsDashes (c :: r) && !(r.tail.takeWhile isWordChar).isEmpty then
      let body := upToDashes (r.tail.dropWhile isWordChar)
      (r.tail.takeWhile isWordChar, body.1) :: split false body.2
    else split (Text.isBlank c) r
termination_by cs => cs.length
decreasing_by
  · have h1 := length_upToDashes_snd_le (r.tail.dropWhile isWordChar)
    have h2 := length_dropWhile_le isWordChar r.tail
    have h3 : r.tail.length ≤ r.length := by simp
    simp only [List.length_cons]
    omega
  · simp

end CommandLine

namespace Command

open CommandLine

def pipe? (side : Side) (t : Token) : Option PipeRef := do
  let (found, slot) ← pipeKey? (← t.key)
  if found = side then some ⟨slot, t.value⟩ else none

def isParameter (t : Token) : Bool :=
  (t.key.bind pipeKey?).isNone

def ofParts (name text : List Char) : Command :=
  let trimmed := Text.Chars.trim text
  let all := scan trimmed
  { name := Text.lower (String.ofList name)
    text := String.ofList trimmed
    parameters := all.filter isParameter
    inPipes := all.filterMap (pipe? .input)
    outPipes := all.filterMap (pipe? .output) }

/-- The last value with this key, in any case; without a key, the last positional value. -/
def parameter? (c : Command) (key : Option String) : Option String :=
  let fits (t : Token) : Bool :=
    match t.key, key with
    | none, none => true
    | some k, some key => Text.lower k == Text.lower key
    | _, _ => false
  (c.parameters.reverse.find? fits).map Token.value

def pipes (c : Command) : Side → List PipeRef
  | .input => c.inPipes
  | .output => c.outPipes

def pipeAt? (c : Command) (side : Side) (slot : Int) : Option PipeRef :=
  (c.pipes side).find? fun ref => (ref.slot : Int) == slot

end Command

namespace CommandLine

def sections (marker text : String) : List (List Char × List Char) :=
  split true (normalChars marker.toList text.toList)

def commands (marker text : String) : List Command :=
  (sections marker text).map fun (name, body) => Command.ofParts name body

/-- The first slot in a text that has more digits than are read. -/
def overlong? (marker text : String) : Option Text.OverlongNumber :=
  (sections marker text).findSome? fun (_, body) =>
    (scan (Text.Chars.trim body)).findSome? fun t => t.key.bind overlongSlot?

def read (marker text : String) : Except Text.OverlongNumber (List Command) :=
  match overlong? marker text with
  | some n => throw n
  | none => pure (commands marker text)

end CommandLine

end Sluice
