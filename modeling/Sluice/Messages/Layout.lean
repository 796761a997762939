import Sluice.Messages.Target

/-! Layouts of the fields of a wording: the width a text is filled up to and on which side, how
many of its characters are kept, and the sign, kind and grouping of a number. -/

namespace Sluice.Wording

/-- `align` is one of `<`, `>`, `^` and `=`; with `=` the filling stands after the sign. A layout
with `foldZero` shows no minus sign before a zero. -/
structure FieldLayout where
  fill : Option Char
  align : Option Char
  sign : Option Char
  foldZero : Bool
  alternate : Bool
  zeroed : Bool
  width : Nat
  grouping : Option Char
  precision : Option Nat
  kind : Option Char

def isAlign (c : Char) : Bool :=
  c == '<' || c == '>' || c == '^' || c == '='

def alignment : List Char → Option Char × Option Char × List Char
  | f :: a :: r =>
    if isAlign a then (some f, some a, r)
    else if isAlign f then (none, some f, a :: r)
    else (none, none, f :: a :: r)
  | [a] => if isAlign a then (none, some a, []) else (none, none, [a])
  | [] => (none, none, [])

def optional (fits : Char → Bool) : List Char → Option Char × List Char
  | [] => (none, [])
  | c :: r => if fits c then (some c, r) else (none, c :: r)

def kindText (k : Char) : String :=
  if 32 < k.toNat ∧ k.toNat < 128 then String.singleton k
  else "\\x" ++ String.ofList (Nat.toDigits 16 k.toNat)

def canGroup (mark : Char) : Option Char → Bool
  | none => true
  | some k =>
    ['d', 'e', 'f', 'g', 'E', 'F', 'G', '%'].contains k ||
      (mark == '_' && ['b', 'o', 'x', 'X'].contains k)

def groupingMark (cs : List Char) : Except WordingError (Option Char × List Char) :=
  match cs with
  | ',' :: '_' :: _ => malformed "Cannot specify both ',' and '_'."
  | '_' :: ',' :: _ => malformed "Cannot specify both ',' and '_'."
  | cs => pure (optional (fun c => c == ',' || c == '_') cs)

/-- The parts of a layout, in their fixed order, for a detail of the type `owner`, whose kind is
`usual` unless the layout gives one. The null character stands for no kind. -/
def FieldLayout.ofChars (owner : String) (usual : Option Char) (cs : List Char) :
    Except WordingError FieldLayout := do
  let (fill, align, r) := alignment cs
  let (sign, r) := optional (fun c => c == '+' || c == '-' || c == ' ') r
  let (fold, r) := optional (· == 'z') r
  let (hash, r) := optional (· == '#') r
  let (zeroed, r) := optional (· == '0') r
  let width := (← number? (r.takeWhile Text.isDigit)).getD 0
  let (grouping, r) ← groupingMark (r.dropWhile Text.isDigit)
  let (precision, r) ←
    match r with
    | '.' :: r =>
      match ← number? (r.takeWhile Text.isDigit) with
      | some n => pure (some n, r.dropWhile Text.isDigit)
      | none => malformed "Format specifier missing precision"
    | r => pure (none, r)
  let kind ←
    match r with
    | [] => pure usual
    | [k] => pure (if k = '\x00' then none else some k)
    | _ =>
      malformed ("Invalid format specifier '" ++ String.ofList cs ++ "' for object of type '" ++
        owner ++ "'")
  match grouping with
  | none => pure ()
  | some g =>
    if !canGroup g kind then
      malformed ("Cannot specify '" ++ String.singleton g ++ "' with '" ++
        kindText (kind.getD '\x00') ++ "'.")
  pure ⟨fill, align, sign, fold.isSome, hash.isSome, zeroed.isSome, width, grouping, precision,
    kind⟩

def largestWidth : Nat :=
  1 <<< 40

def fillUp (width : Nat) (fill align : Char) (lead body : List Char) : List Char :=
  let missing := width - (lead.length + body.length)
  let filling (n : Nat) := List.replicate n fill
  if align = '<' then lead ++ body ++ filling missing
  else if align = '>' then filling missing ++ lead ++ body
  else if align = '=' then lead ++ filling missing ++ body
  else filling (missing / 2) ++ lead ++ body ++ filling (missing - missing / 2)

def FieldLayout.checkWidth (l : FieldLayout) : Except WordingError Unit :=
  if largestWidth < l.width then throw .tooWide else pure ()

def unknownKind {α : Type} (kind : Option Char) (owner : String) : Except WordingError α :=
  malformed ("Unknown format code '" ++ kindText (kind.getD '\x00') ++ "' for object of type '" ++
    owner ++ "'")

def FieldLayout.filling (l : FieldLayout) : Char :=
  l.fill.getD (if l.zeroed then '0' else ' ')

def layText (l : FieldLayout) (s : String) : Except WordingError (List Char) := do
  if l.kind ≠ some 's' then unknownKind l.kind "str"
  match l.sign with
  | none => pure ()
  | some ' ' => malformed "Space not allowed in string format specifier"
  | some _ => malformed "Sign not allowed in string format specifier"
  if l.foldZero then
    malformed "Negative zero coercion (z) not allowed in string format specifier"
  if l.alternate then malformed "Alternate form (#) not allowed in string format specifier"
  if l.align = some '=' then malformed "'=' alignment not allowed in string format specifier"
  l.checkWidth
  let kept := match l.precision with
    | some n => s.toList.take n
    | none => s.toList
  pure (fillUp l.width l.filling (l.align.getD '<') [] kept)

/-- A number to lay out: what stands after its sign, the digits that can be grouped, and the rest
of it. -/
structure NumberText where
  negative : Bool
  start : List Char
  digits : List Char
  rest : List Char

def group (size : Nat) (mark : Char) (digits : List Char) : List Char :=
  let rec go (n : Nat) : List Char → List Char
    | [] => []
    | c :: r => if n = size then mark :: c :: go 1 r else c :: go (n + 1) r
  (go 0 digits.reverse).reverse

/-- Digits with their groups, and with as few zeros before them as a width needs: one character in
`size + 1` can be a mark. -/
def groupWide (size : Nat) (mark : Option Char) (width : Nat) (digits : List Char) : List Char :=
  match mark with
  | some mark => group size mark (Decimal.padStart (width - (width - 1) / (size + 1)) digits)
  | none => Decimal.padStart width digits

def groupSize : Option Char → Nat
  | some 'b' => 4
  | some 'o' => 4
  | some 'x' => 4
  | some 'X' => 4
  | _ => 3

def layNumber (l : FieldLayout) (x : NumberText) : Except WordingError (List Char) := do
  l.checkWidth
  let sign := if x.negative then ['-']
    else match l.sign with
      | some '+' => ['+']
      | some ' ' => [' ']
      | _ => []
  let lead := sign ++ x.start
  let align := l.align.getD (if l.zeroed then '=' else '>')
  let zeros := l.filling = '0' ∧ align = '=' ∧ x.digits ≠ []
  let width := if zeros then l.width - (lead.length + x.rest.length) else 0
  let digits := groupWide (groupSize l.kind) l.grouping width x.digits
  pure (fillUp l.width l.filling align lead (digits ++ x.rest))

def base? : Option Char → Option (Nat × List Char)
  | some 'd' => some (10, [])
  | some 'n' => some (10, [])
  | some 'b' => some (2, ['0', 'b'])
  | some 'o' => some (8, ['0', 'o'])
  | some 'x' => some (16, ['0', 'x'])
  | some 'X' => some (16, ['0', 'X'])
  | _ => none

def layCharacter (l : FieldLayout) (n : Int) : Except WordingError (List Char) := do
  if l.sign.isSome then malformed "Sign not allowed with integer format specifier 'c'"
  if l.alternate then
    malformed "Alternate form (#) not allowed with integer format specifier 'c'"
  if n < 0 ∨ 0x10ffff < n then throw .outOfRange
  layNumber l ⟨false, [], [], [Char.ofNat n.toNat]⟩

def layWhole (l : FieldLayout) (n : Int) : Except WordingError (List Char) := do
  if l.precision.isSome then malformed "Precision not allowed in integer format specifier"
  if l.foldZero then
    malformed "Negative zero coercion (z) not allowed in integer format specifier"
  match base? l.kind with
  | none => layCharacter l n
  | some (base, start) =>
    let digits := Nat.toDigits base n.natAbs
    let digits := if l.kind = some 'X' then digits.map Char.toUpper else digits
    layNumber l ⟨n < 0, if l.alternate then start else [], digits, []⟩

end Sluice.Wording
