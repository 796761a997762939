import Sluice.Document
import Sluice.Text.Digits

/-! Documents written as JSON: the reader and the printer. The reader takes what is left of the
text and gives a value with the rest; no part of a text is longer than the text, so its length
bounds the nesting. What no digits write stands as a word, `Infinity` or `NaN`. -/

namespace Sluice.Document

def infinityWord : String :=
  "Infinity"

def undefinedWord : String :=
  "NaN"

def jsonDecimal (x : Decimal) : String :=
  x.signed (x.sizeText infinityWord undefinedWord)

def isGap (c : Char) : Bool :=
  c == ' ' || c == '\t' || c == '\n' || c == '\r'

def skipGap (cs : List Char) : List Char :=
  cs.dropWhile isGap

def unit? (a b c d : Char) : Option Nat := do
  let digit := Text.hexValue?
  some ((((← digit a) * 16 + (← digit b)) * 16 + (← digit c)) * 16 + (← digit d))

def shortEscape? : Char → Option Char
  | '"' => some '"'
  | '\\' => some '\\'
  | '/' => some '/'
  | 'b' => some '\x08'
  | 'f' => some '\x0c'
  | 'n' => some '\n'
  | 'r' => some '\r'
  | 't' => some '\t'
  | _ => none

/-- The characters up to the closing quote. Two units beyond the basic plane make one character;
a half without its partner becomes the replacement character. -/
def readText : List Char → Option (List Char × List Char)
  | [] => none
  | '"' :: r => some ([], r)
  | '\\' :: 'u' :: a :: b :: c :: d :: '\\' :: 'u' :: e :: f :: g :: h :: r =>
    match unit? a b c d, unit? e f g h with
    | some x, some y =>
      if 0xd800 ≤ x ∧ x < 0xdc00 ∧ 0xdc00 ≤ y ∧ y < 0xe000 then do
        let (cs, rest) ← readText r
        some (Char.ofNat (0x10000 + (x - 0xd800) * 0x400 + (y - 0xdc00)) :: cs, rest)
      else do
        let (cs, rest) ← readText ('\\' :: 'u' :: e :: f :: g :: h :: r)
        some ((if 0xd800 ≤ x ∧ x < 0xe000 then '\ufffd' else Char.ofNat x) :: cs, rest)
    | _, _ => none
  | '\\' :: 'u' :: a :: b :: c :: d :: r => do
    let x ← unit? a b c d
    let (cs, rest) ← readText r
    some ((if 0xd800 ≤ x ∧ x < 0xe000 then '\ufffd' else Char.ofNat x) :: cs, rest)
  | '\\' :: c :: r => do
    let e ← shortEscape? c
    let (cs, rest) ← readText r
    some (e :: cs, rest)
  | c :: r => do
    let (cs, rest) ← readText r
    some (c :: cs, rest)
termination_by cs => cs.length

def natOf (cs : List Char) : Nat :=
  cs.foldl (fun n c => 10 * n + (c.toNat - '0'.toNat)) 0

def readDigits (cs : List Char) : Option (List Char × List Char) :=
  match cs.takeWhile Char.isDigit with
  | [] => none
  | ds => some (ds, cs.dropWhile Char.isDigit)

def readPower : List Char → Option (Option Int × List Char)
  | c :: r =>
    if c = 'e' ∨ c = 'E' then
      match r with
      | '-' :: r => do
        let (ds, rest) ← readDigits r
        some (some (-(natOf ds : Int)), rest)
      | '+' :: r => do
        let (ds, rest) ← readDigits r
        some (some (natOf ds), rest)
      | r => do
        let (ds, rest) ← readDigits r
        some (some (natOf ds), rest)
    else some (none, c :: r)
  | [] => some (none, [])

def readNumber (negative : Bool) (cs : List Char) : Option (Document × List Char) := do
  let (ds, rest) ← readDigits cs
  let (fraction, rest) ←
    match rest with
    | '.' :: r => do
      let (fs, rest) ← readDigits r
      some (some fs, rest)
    | _ => some (none, rest)
  let (power, rest) ← readPower rest
  match fraction, power with
  | none, none => some (.whole (if negative then -(natOf ds : Int) else natOf ds), rest)
  | _, _ =>
    let fs := fraction.getD []
    some (.decimal (.written negative (natOf (ds ++ fs)) (power.getD 0 - fs.length)), rest)

def afterWord? (word : String) (cs : List Char) : Option (List Char) :=
  if word.toList.isPrefixOf cs then some (cs.drop word.length) else none

def readAmount (negative : Bool) (cs : List Char) : Option (Document × List Char) :=
  match afterWord? infinityWord cs with
  | some r => some (.decimal (.infinite negative), r)
  | none => readNumber negative cs

mutual

def readValue : Nat → List Char → Option (Document × List Char)
  | 0, _ => none
  | depth + 1, cs =>
    match skipGap cs with
    | 'n' :: 'u' :: 'l' :: 'l' :: r => some (.null, r)
    | 't' :: 'r' :: 'u' :: 'e' :: r => some (.truth true, r)
    | 'f' :: 'a' :: 'l' :: 's' :: 'e' :: r => some (.truth false, r)
    | '"' :: r => do
      let (s, rest) ← readText r
      some (.text (String.ofList s), rest)
    | '[' :: r =>
      match skipGap r with
      | ']' :: r => some (.list [], r)
      | r => do
        let (items, rest) ← readItems depth r
        some (.list items, rest)
    | '{' :: r =>
      match skipGap r with
      | '}' :: r => some (.record [], r)
      | r => do
        let (fields, rest) ← readFields depth r
        some (.record fields, rest)
    | 'N' :: 'a' :: 'N' :: r => some (.decimal .undefined, r)
    | '-' :: r => readAmount true r
    | r => readAmount false r

def readItems : Nat → List Char → Option (List Document × List Char)
  | 0, _ => none
  | depth + 1, cs => do
    let (d, rest) ← readValue depth cs
    match skipGap rest with
    | ',' :: r => do
      let (items, rest) ← readItems depth r
      some (d :: items, rest)
    | ']' :: r => some ([d], r)
    | _ => none

def readFields : Nat → List Char → Option (List (String × Document) × List Char)
  | 0, _ => none
  | depth + 1, cs =>
    match skipGap cs with
    | '"' :: r => do
      let (key, rest) ← readText r
      match skipGap rest with
      | ':' :: r => do
        let (d, rest) ← readValue depth r
        match skipGap rest with
        | ',' :: r => do
          let (fields, rest) ← readFields depth r
          some ((String.ofList key, d) :: fields, rest)
        | '}' :: r => some ([(String.ofList key, d)], r)
        | _ => none
      | _ => none
    | _ => none

end

def ofJson? (s : String) : Option Document :=
  let cs := s.toList
  match readValue (cs.length + 1) cs with
  | some (d, rest) => if (skipGap rest).isEmpty then some d else none
  | none => none

def unitEscape (n : Nat) : List Char :=
  '\\' :: 'u' :: Text.hexDigits 4 n

/-- How a character stands in a JSON text. With `ascii` the text holds no characters beyond the
first 128. -/
def jsonChar (ascii : Bool) (c : Char) : List Char :=
  if c = '"' ∨ c = '\\' then ['\\', c]
  else if c = '\n' then ['\\', 'n']
  else if c = '\r' then ['\\', 'r']
  else if c = '\t' then ['\\', 't']
  else if c = '\x08' then ['\\', 'b']
  else if c = '\x0c' then ['\\', 'f']
  else
    let n := c.toNat
    if 0x20 ≤ n ∧ (n ≤ 0x7f ∨ !ascii) then [c]
    else if n < 0x10000 then unitEscape n
    else
      unitEscape (0xd800 + (n - 0x10000) / 0x400) ++ unitEscape (0xdc00 + (n - 0x10000) % 0x400)

def jsonText (ascii : Bool) (s : String) : String :=
  String.ofList ('"' :: s.toList.flatMap (jsonChar ascii) ++ ['"'])

mutual

def toJson (ascii : Bool) : Document → String
  | .null => "null"
  | .truth b => if b then "true" else "false"
  | .whole n => toString n
  | .decimal x => jsonDecimal x
  | .text s => jsonText ascii s
  | .list items => "[" ++ ", ".intercalate (jsonItems ascii items) ++ "]"
  | .record fields => "\x7b" ++ ", ".intercalate (jsonFields ascii fields) ++ "\x7d"

def jsonItems (ascii : Bool) : List Document → List String
  | [] => []
  | d :: r => toJson ascii d :: jsonItems ascii r

def jsonFields (ascii : Bool) : List (String × Document) → List String
  | [] => []
  | (key, d) :: r => (jsonText ascii key ++ ": " ++ toJson ascii d) :: jsonFields ascii r

end

def json (d : Document) : String :=
  d.toJson true

def plainJson (d : Document) : String :=
  d.toJson false

end Sluice.Document
