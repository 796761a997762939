import Sluice.Messages.Layout

/-! Fractions in the layouts of a wording: a fixed number of places, a power of ten, or whichever
of both is shorter. All rounding goes to the nearest digit, and a tie to the even one. -/

namespace Sluice.Wording

open Decimal (roundDiv scale magnitude padStart Binary)

def fixedText (places : Nat) (alternate : Bool) (n d : Nat) : List Char × List Char :=
  let digits := padStart (places + 1) (Nat.toDigits 10 (roundDiv (n * Nat.pow 10 places) d))
  let whole := digits.length - places
  let point := if places = 0 ∧ !alternate then [] else ['.']
  (digits.take whole, point ++ digits.drop whole)

def leading (places n d : Nat) : Nat × Int :=
  if n = 0 then (0, 0)
  else
    let k := magnitude 10 n d (((n.log2 : Int) - d.log2) * 30103 / 100000)
    let (x, y) := scale 10 n d (places - k)
    let m := roundDiv x y
    if m = Nat.pow 10 (places + 1) then (Nat.pow 10 places, k + 1) else (m, k)

def powerText (power : Int) : List Char :=
  let sign := if power < 0 then '-' else '+'
  'e' :: sign :: padStart 2 (Nat.toDigits 10 power.natAbs)

def poweredText (places : Nat) (alternate : Bool) (n d : Nat) :
    List Char × List Char × List Char :=
  let (m, k) := leading places n d
  let digits := padStart (places + 1) (Nat.toDigits 10 m)
  let point := if places = 0 ∧ !alternate then [] else ['.']
  (digits.take 1, point ++ digits.drop 1, powerText k)

def dropZeros (cs : List Char) : List Char :=
  match (cs.reverse.dropWhile (· = '0')).reverse with
  | ['.'] => []
  | cs => cs

def significantDigits : Nat :=
  1100

def generalText (digits : Nat) (alternate pointed : Bool) (n d : Nat) : List Char × List Char :=
  let digits := max (if alternate then digits else min digits significantDigits) 1
  let trim (cs : List Char) : List Char := if alternate then cs else dropZeros cs
  let (_, k) := leading (digits - 1) n d
  let limit : Int := if pointed then digits - 1 else digits
  if -4 ≤ k ∧ k < limit then
    let (whole, places) := fixedText ((digits : Int) - 1 - k).toNat alternate n d
    let kept := if places.contains '.' then trim places else places
    (whole, if pointed && kept.length ≤ 1 then ['.', '0'] else kept)
  else
    let (whole, places, power) := poweredText (digits - 1) alternate n d
    (whole, (if places.contains '.' then trim places else places) ++ power)

def plainText (alternate : Bool) (x : Decimal) : List Char × List Char :=
  let cs := x.sizeText "inf" "nan"
  let rest := cs.dropWhile Char.isDigit
  (cs.takeWhile Char.isDigit, if alternate && rest.head? = some 'e' then '.' :: rest else rest)

def isFractionKind (k : Char) : Bool :=
  ['e', 'E', 'f', 'F', 'g', 'G', 'n', '%'].contains k

def quotientText (l : FieldLayout) (n d : Nat) : List Char × List Char :=
  let places := l.precision.getD 6
  match l.kind.map Char.toLower with
  | some 'e' =>
    let (whole, rest, power) := poweredText places l.alternate n d
    (whole, rest ++ power)
  | some 'f' => fixedText places l.alternate n d
  | some '%' => fixedText places l.alternate n d
  | some _ => generalText places l.alternate false n d
  | none => generalText places l.alternate true n d

def hundredfold : Binary → Binary
  | .finite bits power =>
    if bits = 0 then .finite 0 0
    else
      let (n, d) := scale 2 (bits * 100) 1 power
      Decimal.toBinary n d
  | b => b

def binaryText (l : FieldLayout) : Binary → List Char × List Char
  | .infinite => ([], "inf".toList)
  | .undefined => ([], "nan".toList)
  | .finite bits power =>
    let (n, d) := scale 2 bits 1 power
    quotientText l n d

def largestPrecision : Nat :=
  (1 <<< 31) - 1

def layFraction (l : FieldLayout) (x : Decimal) : Except WordingError (List Char) := do
  if largestPrecision < l.precision.getD 0 then malformed "precision too big"
  let (digits, rest) :=
    match l.kind, l.precision with
    | none, none => plainText l.alternate x
    | some '%', _ =>
      let (digits, rest) := binaryText l (hundredfold x.binary)
      (digits, rest ++ ['%'])
    | _, _ => binaryText l x.binary
  let raised := l.kind.any fun k => 'A' ≤ k && k ≤ 'Z'
  let rest := if raised then rest.map Char.toUpper else rest
  let shown := digits ++ rest.takeWhile fun c => c = '.' ∨ c.isDigit
  let isZero := shown ≠ [] ∧ shown.all fun c => c = '0' ∨ c = '.'
  layNumber l ⟨x.negative && !(l.foldZero && isZero), [], digits, rest⟩

def layInteger (owner : String) (layout : List Char) (n : Int) :
    Except WordingError (List Char) := do
  let l ← FieldLayout.ofChars owner (some 'd') layout
  if (base? l.kind).isSome ∨ l.kind = some 'c' then layWhole l n
  else if l.kind.any isFractionKind then
    let x : Decimal := .written (n < 0) n.natAbs 0
    match x.binary with
    | .finite _ _ => layFraction l x
    | _ => throw .outOfRange
  else unknownKind l.kind owner

def lay (layout : List Char) (t : Target) : Except WordingError (List Char) := do
  if layout = [] then return t.shown.toList
  match t with
  | .value (.text s) => layText (← FieldLayout.ofChars "str" (some 's') layout) s
  | .value (.whole n) => layInteger "int" layout n
  | .value (.truth b) => layInteger "bool" layout (if b then 1 else 0)
  | .value (.decimal x) =>
    let l ← FieldLayout.ofChars "float" none layout
    if l.kind.all isFractionKind then layFraction l x else unknownKind l.kind "float"
  | _ => throw .unsupported

end Sluice.Wording
