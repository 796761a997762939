import Sluice.Document
import Sluice.Yaml.Error

/-! What scalars stand for. The kind of a plain scalar is that of its form: nothing, a truth value,
a whole number, a fraction, or else a text. A tag tells the kind of a node. -/

namespace Sluice.Yaml

inductive Kind
  | nothing : Kind
  | truth : Kind
  | whole : Kind
  | fraction : Kind
  | text : Kind
  /-- The key of mappings that are taken over. -/
  | merge : Kind
  /-- A mere equals sign. -/
  | default : Kind
  | sequence : Kind
  | mapping : Kind
  | unknown : Kind
  deriving DecidableEq, Repr

namespace Kind

def ofTag (tag : String) : Kind :=
  match tag with
  | "tag:yaml.org,2002:null" => .nothing
  | "tag:yaml.org,2002:bool" => .truth
  | "tag:yaml.org,2002:int" => .whole
  | "tag:yaml.org,2002:float" => .fraction
  | "tag:yaml.org,2002:str" => .text
  | "tag:yaml.org,2002:merge" => .merge
  | "tag:yaml.org,2002:value" => .default
  | "tag:yaml.org,2002:seq" => .sequence
  | "tag:yaml.org,2002:map" => .mapping
  | _ => .unknown

end Kind

def nothingWords : List String :=
  ["", "~", "null", "Null", "NULL"]

def yesWords : List String :=
  ["yes", "Yes", "YES", "true", "True", "TRUE", "on", "On", "ON"]

def noWords : List String :=
  ["no", "No", "NO", "false", "False", "FALSE", "off", "Off", "OFF"]

def unsigned : List Char → List Char
  | c :: r => if c = '+' ∨ c = '-' then r else c :: r
  | [] => []

def isDigitMark (c : Char) : Bool :=
  c.isDigit || c == '_'

def isHexMark (c : Char) : Bool :=
  (Text.hexValue? c).isSome || c == '_'

def sixtieths : List Char → Option (List Char)
  | ':' :: a :: b :: r =>
    if '0' ≤ a && a ≤ '5' && b.isDigit then some ((sixtieths r).getD r)
    else if a.isDigit then some ((sixtieths (b :: r)).getD (b :: r))
    else none
  | [':', a] => if a.isDigit then some [] else none
  | _ => none

def isWhole (cs : List Char) : Bool :=
  match unsigned cs with
  | '0' :: 'b' :: c :: r => (c :: r).all fun x => x == '0' || x == '1' || x == '_'
  | '0' :: 'x' :: c :: r => (c :: r).all isHexMark
  | '0' :: r => r.all fun x => ('0' ≤ x && x ≤ '7') || x == '_'
  | c :: r =>
    c.isDigit && (r.all isDigitMark || sixtieths (r.dropWhile isDigitMark) = some [])
  | [] => false

def isPower (signed : Bool) : List Char → Bool
  | c :: r =>
    let digits := unsigned r
    (c == 'e' || c == 'E') && !digits.isEmpty && digits.all Char.isDigit &&
      (!signed || digits.length < r.length)
  | [] => false

def isFraction (cs : List Char) : Bool :=
  let body := unsigned cs
  match body with
  | '.' :: r =>
    ["inf", "Inf", "INF"].contains (String.ofList r) ||
      (body.length == cs.length &&
        (["nan", "NaN", "NAN"].contains (String.ofList r) ||
          (r.head?.any isDigitMark &&
            (let rest := r.dropWhile isDigitMark
             rest.isEmpty || isPower true rest))))
  | c :: r =>
    let rest := r.dropWhile isDigitMark
    c.isDigit &&
      (isPower false rest ||
        (match rest with
          | '.' :: s =>
            let rest := s.dropWhile isDigitMark
            rest.isEmpty || isPower false rest
          | _ =>
            match sixtieths rest with
            | some ('.' :: s) => s.all isDigitMark
            | _ => false))
  | [] => false

def Kind.ofPlain (s : String) : Kind :=
  let cs := s.toList
  if nothingWords.contains s then .nothing
  else if yesWords.contains s ∨ noWords.contains s then .truth
  else if isFraction cs then .fraction
  else if isWhole cs then .whole
  else if s = "<<" then .merge
  else if s = "=" then .default
  else .text

def natOf (base : Nat) (cs : List Char) : Nat :=
  cs.foldl (fun n c => base * n + (Text.hexValue? c).getD 0) 0

def partsOf (cs : List Char) : List (List Char) :=
  cs.splitOn ':'

def sixtiethsOf (parts : List (List Char)) : Nat :=
  parts.foldl (fun n part => 60 * n + natOf 10 part) 0

def digitsOf (base : Nat) (cs : List Char) : Except YamlError Nat :=
  let fits (c : Char) : Bool := (Text.hexValue? c).any fun n => n < base
  if cs = [] ∨ !cs.all fits then throw (.badWhole base (String.ofList cs))
  else if base = 10 ∧ Text.digitLimit < cs.length then throw (.overlong ⟨cs.length⟩)
  else pure (natOf base cs)

def sizeOf (cs : List Char) : Except YamlError Nat :=
  match cs with
  | ['0'] => pure 0
  | '0' :: 'b' :: r => digitsOf 2 r
  | '0' :: 'x' :: r => digitsOf 16 r
  | '0' :: r => digitsOf 8 r
  | cs => (partsOf cs).foldlM (fun n part => do pure (60 * n + (← digitsOf 10 part))) 0

def isNegative (cs : List Char) : Bool :=
  cs.head? == some '-'

def wholeOf (s : String) : Except YamlError Document := do
  let cs := s.toList.filter (· ≠ '_')
  let n ← sizeOf (unsigned cs)
  pure (.whole (if isNegative cs then -(n : Int) else n))

def powerOf (cs : List Char) : Int :=
  if isNegative cs then -(natOf 10 (unsigned cs) : Int) else natOf 10 (unsigned cs)

def fractionOf (s : String) : Except YamlError Document := do
  let cs := s.toList.filter (· ≠ '_')
  let negative := isNegative cs
  let body := (unsigned cs).map Char.toLower
  if body = ".inf".toList then pure (.decimal (.infinite negative))
  else if body = ".nan".toList then pure (.decimal .undefined)
  else
    let digits := body.takeWhile (· ≠ 'e')
    let power := powerOf (body.drop (digits.length + 1))
    let front := digits.takeWhile (· ≠ '.')
    let places := digits.drop (front.length + 1)
    if !digits.any Char.isDigit || !digits.all fun c => c.isDigit || c == '.' || c == ':' then
      throw (.badFraction (String.ofList body))
    else
      let n := sixtiethsOf (partsOf front) * Nat.pow 10 places.length + natOf 10 places
      pure (.decimal (.written negative n (power - places.length)))

def truthOf (s : String) : Except YamlError Document :=
  let word := s.map Char.toLower
  if yesWords.contains word then pure (.truth true)
  else if noWords.contains word then pure (.truth false)
  else throw (.badTruth word)

def valueOf (kind : Kind) (s : String) : Except YamlError Document :=
  match kind with
  | .nothing => pure .null
  | .truth => truthOf s
  | .whole => wholeOf s
  | .fraction => fractionOf s
  | .text => pure (.text s)
  | _ => throw .badValue

end Sluice.Yaml
