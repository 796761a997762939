import Sluice.Dialect

/-! Paths of files: their normal form, the places they lead to, and what a path tells about the
dialect of its file. -/

namespace Sluice

/-- The parts of a path; empty parts and single points say nothing. -/
structure Path where
  root : String
  parts : List String

namespace Path

def rootOf (cs : List Char) : String :=
  match cs.takeWhile (· = '/') with
  | [] => ""
  | [_, _] => "//"
  | _ => "/"

def ofString (s : String) : Path :=
  ⟨rootOf s.toList, (s.splitOn "/").filter fun part => part ≠ "" ∧ part ≠ "."⟩

def toString (p : Path) : String :=
  let joined := p.root ++ "/".intercalate p.parts
  if joined = "" then "." else joined

def isTop (part : String) : Bool :=
  part == ".." || part.startsWith "/"

/-- One part further from a place. A point stays there; double points lead back, and beyond the
start they are kept. -/
def step (place : List String) (part : String) : List String :=
  if part = "." then place
  else if part = ".." then
    match place.getLast? with
    | none => [".."]
    | some last =>
      if last = ".." then place ++ [".."] else if isTop last then place else place.dropLast
  else place ++ [part]

def start (p : Path) : List String :=
  if p.root = "" then [] else [p.root]

def place (p : Path) : List String :=
  p.parts.foldl step p.start

/-- The path to the same place that never leads back, whatever is on the way. -/
def straight (p : Path) : Path :=
  ⟨p.root, p.place.drop p.start.length⟩

def steps (s : String) : List String :=
  (s.splitOn "/").filter (· ≠ "")

def name (p : Path) : String :=
  p.parts.getLastD ""

def suffix (p : Path) : String :=
  let reversed := p.name.toList.reverse
  let ending := reversed.takeWhile (· ≠ '.')
  match reversed.dropWhile (· ≠ '.') with
  | point :: _ :: _ => if ending = [] then "" else String.ofList (point :: ending.reverse)
  | _ => ""

def dialect (p : Path) : String :=
  let suffix := Text.lower p.suffix
  if suffix = ".sh" ∨ suffix = ".bash" then Dialect.bash.name
  else if suffix = ".bat" ∨ suffix = ".cmd" then Dialect.cmd.name
  else Dialect.plain.name

end Path

end Sluice
