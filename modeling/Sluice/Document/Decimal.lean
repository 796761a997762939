/-! Decimal fractions in documents. A fraction has the precision of a binary number with 53
significant bits; its text has the fewest digits that read back as the same number. All steps are
exact arithmetic on whole numbers. Two marks stand beside the written fractions: one for what is
larger than all of them, and one for what is no number. -/

namespace Sluice

inductive Decimal
  /-- The fraction `± digits * 10 ^ power`. -/
  | written : (negative : Bool) → (digits : Nat) → (power : Int) → Decimal
  | infinite : (negative : Bool) → Decimal
  | undefined : Decimal

namespace Decimal

def zero : Decimal :=
  .written false 0 0

def negative : Decimal → Bool
  | .written b _ _ => b
  | .infinite b => b
  | .undefined => false

/-- The number `bits * 2 ^ power`, one beyond the largest, or none. -/
inductive Binary
  | finite : (bits : Nat) → (power : Int) → Binary
  | infinite : Binary
  | undefined : Binary

def roundDiv (n d : Nat) : Nat :=
  let q := n / d
  let twice := 2 * (n % d)
  if twice < d then q else if d < twice then q + 1 else q + q % 2

def scale (base : Nat) (n d : Nat) (power : Int) : Nat × Nat :=
  if 0 ≤ power then (n * Nat.pow base power.toNat, d) else (n, d * Nat.pow base (-power).toNat)

/-- The exponent `k` with `base ^ k ≤ n / d < base ^ (k + 1)`, corrected from a guess one off. -/
def magnitude (base n d : Nat) (guess : Int) : Int :=
  let atLeast (k : Int) : Bool :=
    let (x, y) := scale base 1 1 k
    x * d ≤ n * y
  if atLeast (guess + 1) then guess + 1 else if atLeast guess then guess else guess - 1

def toBinary (n d : Nat) : Binary :=
  let k := magnitude 2 n d ((n.log2 : Int) - d.log2)
  let power := max (k - 52) (-1074)
  let (x, y) := scale 2 n d (-power)
  let bits := roundDiv x y
  if 971 < power ∨ (power = 971 ∧ bits = 1 <<< 53) then .infinite
  else if bits = 1 <<< 53 then .finite (1 <<< 52) (power + 1)
  else .finite bits power

/-- Rounding takes `n / d` to the binary number: it lies between the midpoints to both
neighbours, which belong to the even one. -/
def roundsTo (bits : Nat) (power : Int) (n d : Nat) : Bool :=
  let low := if bits = 1 <<< 52 ∧ -1074 < power then 4 * bits - 1 else 4 * bits - 2
  let (x, y) := scale 2 n d (2 - power)
  let (l, h) := (low * y, (4 * bits + 2) * y)
  if bits % 2 = 0 then l ≤ x && x ≤ h else l < x && x < h

/-- With a step of `10 ^ power`, the multiple nearest to `n / d` among its two neighbours that
rounds to the binary number. Of two as near, the even one is taken. -/
def nearestOnGrid (bits : Nat) (binary power : Int) (n d : Nat) : Option Nat :=
  let (x, y) := scale 10 n d (-power)
  let low := x / y
  let reads (m : Nat) : Bool :=
    let (a, b) := scale 10 m 1 power
    roundsTo bits binary a b
  let lowNearer := 2 * (x % y) + low % 2 ≤ y
  match reads low, reads (low + 1) with
  | true, true => some (if lowNearer then low else low + 1)
  | true, false => some low
  | false, true => some (low + 1)
  | false, false => none

def shortest (bits : Nat) (binary : Int) : Nat × Int :=
  let (n, d) := scale 2 bits 1 binary
  let k := magnitude 10 n d (((bits.log2 : Int) + binary) * 30103 / 100000)
  let found := (List.range 17).findSome? fun (i : Nat) =>
    let power := k - i
    (nearestOnGrid bits binary power n d).map (·, power)
  found.getD (bits, 0)

def padEnd (width : Nat) (cs : List Char) : List Char :=
  cs ++ List.replicate (width - cs.length) '0'

def padStart (width : Nat) (cs : List Char) : List Char :=
  List.replicate (width - cs.length) '0' ++ cs

def positional (cs : List Char) (whole : Int) : List Char :=
  if whole ≤ 0 then '0' :: '.' :: (List.replicate (-whole).toNat '0' ++ cs)
  else
    let front := padEnd whole.toNat (cs.take whole.toNat)
    let back := cs.drop whole.toNat
    front ++ '.' :: (if back.isEmpty then ['0'] else back)

def scientific (cs : List Char) (power : Int) : List Char :=
  let sign := if power < 0 then '-' else '+'
  let point := if cs.length ≤ 1 then [] else '.' :: cs.drop 1
  cs.take 1 ++ point ++ 'e' :: sign :: padStart 2 (Nat.toDigits 10 power.natAbs)

def render (digits : Nat) (power : Int) : List Char :=
  let cs := Nat.toDigits 10 digits
  let significant := (cs.reverse.dropWhile (· = '0')).reverse
  let whole := (cs.length : Int) + power
  if -4 < whole ∧ whole ≤ 16 then positional significant whole
  else scientific significant (whole - 1)

/-- The size of a fraction. From ten to the 309th on it is beyond the largest number, and below ten
to the -324th it is nearest to zero. -/
def binary : Decimal → Binary
  | .written _ digits power =>
    if digits = 0 ∨ (Nat.toDigits 10 digits).length + power < -323 then .finite 0 0
    else if 308 < power then .infinite
    else
      let (n, d) := scale 10 digits 1 power
      toBinary n d
  | .infinite _ => .infinite
  | .undefined => .undefined

def isZero (x : Decimal) : Bool :=
  match x.binary with
  | .finite bits _ => bits == 0
  | _ => false

def sizeText (infinite undefined : String) (x : Decimal) : List Char :=
  match x.binary with
  | .infinite => infinite.toList
  | .undefined => undefined.toList
  | .finite bits power =>
    if bits = 0 then "0.0".toList
    else
      let (digits, tens) := shortest bits power
      render digits tens

def signed (x : Decimal) (size : List Char) : String :=
  String.ofList (if x.negative then '-' :: size else size)

def text (x : Decimal) : String :=
  x.signed (x.sizeText "inf" "nan")

end Decimal

end Sluice
