import Sluice.Connector
import Sluice.Text.Digits

/-! Pipe keys: `inPipe.<slot>` and `outPipe.<slot>`, in any case, name the pipe of a slot. -/

namespace Sluice.CommandLine

/-- The character is the small letter or its capital; a dotted capital I and a dotless small one
pass for an i. -/
def isLetter (letter c : Char) : Bool :=
  c.toLower == letter || (letter == 'i' && (c == 'İ' || c == 'ı'))

def afterWord? : List Char → List Char → Option (List Char)
  | [], cs => some cs
  | _ :: _, [] => none
  | w :: ws, c :: cs => if isLetter w c then afterWord? ws cs else none

/-- What follows `in` or `out` at the start of a text, with the side. Only a plain `in` stands
for the inputs. -/
def side? (cs : List Char) : Option (Side × List Char) :=
  match afterWord? "in".toList cs with
  | some r => some (if (cs.take 2).map Char.toLower = "in".toList then .input else .output, r)
  | none => (afterWord? "out".toList cs).map fun r => (.output, r)

def startsPipe (cs : List Char) : Bool :=
  match side? cs with
  | some (_, r) => (afterWord? "pipe".toList r).isSome
  | none => false

/-- The side of a pipe key and the digits of its slot. One line end may follow it. -/
def slotDigits? (cs : List Char) : Option (Side × List Char) := do
  let (side, r) ← side? cs
  match ← afterWord? "pipe".toList r with
  | '.' :: r =>
    let rest := r.dropWhile Text.isDigit
    if rest = [] ∨ rest = ['\n'] then some (side, r.takeWhile Text.isDigit) else none
  | _ => none

def pipeKey? (key : String) : Option (Side × Nat) := do
  let (side, digits) ← slotDigits? key.toList
  some (side, ← Text.digitsValue? digits)

def overlongSlot? (key : String) : Option Text.OverlongNumber := do
  let (_, digits) ← slotDigits? key.toList
  if Text.digitLimit < digits.length then some ⟨digits.length⟩ else none

def readPipeKey (key : String) : Except Text.OverlongNumber (Option (Side × Nat)) :=
  match overlongSlot? key with
  | some n => throw n
  | none => pure (pipeKey? key)

def beforePipe : List Char → List Char
  | [] => []
  | c :: r => if startsPipe (c :: r) then [] else c :: beforePipe r

/-- The value of a parameter that takes the whole text of a task: all before the first mention of
a pipe, trimmed. -/
def verbatimText (text : String) : String :=
  String.ofList (Text.Chars.trim (beforePipe text.toList))

end Sluice.CommandLine
