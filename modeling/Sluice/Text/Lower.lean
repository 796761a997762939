import Sluice.Text.Blank
import Sluice.Text.LowerTable

/-! Lower-casing of texts by the full Unicode rules: a capital with a single partner becomes that
partner, the dotted capital I becomes two characters, and a capital sigma takes its final form at
the end of a word. Names of tasks, parameters and dialects are compared in lower case. -/

namespace Sluice.Text

def lowerByTable (c : Char) : Char :=
  let n := c.toNat
  match capitalRuns.find? fun run =>
      run.first ≤ n && n ≤ run.last && (n - run.first) % run.step == 0 with
  | some run => Char.ofNat (n + run.shift).toNat
  | none => c

def lowerChar (c : Char) : Char :=
  if c.toNat < 128 then c.toLower else lowerByTable c

def meetsCased (cs : List Char) : Bool :=
  match cs.dropWhile fun c => inRanges caseIgnorableRanges c.toNat with
  | [] => false
  | c :: _ => inRanges casedRanges c.toNat

/-- The lower case of `c` between the characters before it, nearest first, and those after it. -/
def lowerBetween (before : List Char) (c : Char) (after : List Char) : List Char :=
  if c = 'İ' then ['i', '\u0307']
  else if c = 'Σ' then [if meetsCased before && !meetsCased after then 'ς' else 'σ']
  else [lowerChar c]

def lowerFrom (before : List Char) : List Char → List Char
  | [] => []
  | c :: r => lowerBetween before c r ++ lowerFrom (c :: before) r

def lower (s : String) : String :=
  String.ofList (lowerFrom [] s.toList)

end Sluice.Text
