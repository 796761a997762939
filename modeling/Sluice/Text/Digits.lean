import Sluice.Text.Blank

/-! Decimal digits of every script and the whole numbers written with them. -/

namespace Sluice.Text

def zeros : List Nat :=
  [0x30, 0x660, 0x6f0, 0x7c0, 0x966, 0x9e6, 0xa66, 0xae6, 0xb66, 0xbe6, 0xc66, 0xce6, 0xd66,
    0xde6, 0xe50, 0xed0, 0xf20, 0x1040, 0x1090, 0x17e0, 0x1810, 0x1946, 0x19d0, 0x1a80, 0x1a90,
    0x1b50, 0x1bb0, 0x1c40, 0x1c50, 0xa620, 0xa8d0, 0xa900, 0xa9d0, 0xa9f0, 0xaa50, 0xabf0,
    0xff10, 0x104a0, 0x10d30, 0x11066, 0x110f0, 0x11136, 0x111d0, 0x112f0, 0x11450, 0x114d0,
    0x11650, 0x116c0, 0x11730, 0x118e0, 0x11950, 0x11c50, 0x11d50, 0x11da0, 0x16a60, 0x16ac0,
    0x16b50, 0x1d7ce, 0x1d7d8, 0x1d7e2, 0x1d7ec, 0x1d7f6, 0x1e140, 0x1e2f0, 0x1e950, 0x1fbf0]

def digit? (c : Char) : Option Nat :=
  (zeros.find? fun z => z ≤ c.toNat && c.toNat < z + 10).map (c.toNat - ·)

def isDigit (c : Char) : Bool :=
  (digit? c).isSome

def hexValue? (c : Char) : Option Nat :=
  if '0' ≤ c ∧ c ≤ '9' then some (c.toNat - '0'.toNat)
  else if 'a' ≤ c ∧ c ≤ 'f' then some (c.toNat - 'a'.toNat + 10)
  else if 'A' ≤ c ∧ c ≤ 'F' then some (c.toNat - 'A'.toNat + 10)
  else none

def moreDigits (n : Nat) : List Char → Option Nat
  | [] => some n
  | '_' :: c :: r => do moreDigits (10 * n + (← digit? c)) r
  | c :: r => do moreDigits (10 * n + (← digit? c)) r

/-- The most digits that a number is read from. -/
def digitLimit : Nat :=
  4300

/-- A number that is written with more digits than are read. -/
structure OverlongNumber where
  digits : Nat
  deriving DecidableEq, Repr

def OverlongNumber.message (n : OverlongNumber) : String :=
  "Exceeds the limit (" ++ toString digitLimit ++
    " digits) for integer string conversion: value has " ++ toString n.digits ++
    " digits; use sys.set_int_max_str_digits() to increase the limit"

def unsigned? (cs : List Char) : Option Nat :=
  if digitLimit < (cs.filter (· ≠ '_')).length then none
  else
    match cs with
    | [] => none
    | c :: r => do moreDigits (← digit? c) r

def wholeNumber? (s : String) : Option Int :=
  match Chars.trim s.toList with
  | '+' :: r => (unsigned? r).map Int.ofNat
  | '-' :: r => (unsigned? r).map fun n => -Int.ofNat n
  | r => (unsigned? r).map Int.ofNat

def digitsValue? (cs : List Char) : Option Nat :=
  match cs with
  | [] => none
  | _ => cs.foldlM (fun n c => do some (10 * n + (← digit? c))) 0

end Sluice.Text
