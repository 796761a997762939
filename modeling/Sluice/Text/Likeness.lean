/-! How alike two words are: the share of characters in their matching blocks. The longest common
block is taken first and the parts before and after it are compared in the same way. Suggestions
for a misspelt task name are the likest names. -/

namespace Sluice.Text

/-- A common block: where it starts in each word and how long it is. -/
structure Block where
  left : Nat
  right : Nat
  size : Nat

/-- Lengths of the common runs that end at one character of the left word and each character of
the right word, from the lengths for the character before it. `carried` is the length for the
left neighbours of both. Only characters that `seeds` accepts start or continue a run. -/
def runRow (seeds : Char → Bool) (c : Char) : Nat → List Char → List Nat → List Nat
  | _, [], _ => []
  | carried, d :: ds, above =>
    (if c = d && seeds d then carried + 1 else 0) :: runRow seeds c (above.headD 0) ds above.tail

/-- The better of the best block so far and the runs of one row; an earlier block stays unless a
longer one comes. -/
def betterInRow (row : Nat) : Nat → List Nat → Block → Block
  | _, [], best => best
  | col, run :: runs, best =>
    betterInRow row (col + 1) runs
      (if best.size < run then ⟨row + 1 - run, col + 1 - run, run⟩ else best)

def longestSeeded (seeds : Char → Bool) (right : List Char) :
    Nat → List Char → List Nat → Block → Block
  | _, [], _, best => best
  | row, c :: cs, above, best =>
    let runs := runRow seeds c 0 right above
    longestSeeded seeds right (row + 1) cs runs (betterInRow row 0 runs best)

def commonStart : List Char → List Char → Nat
  | a :: as, b :: bs => if a = b then commonStart as bs + 1 else 0
  | _, _ => 0

def Block.extend (block : Block) (left right : List Char) : Block :=
  let back := commonStart (left.take block.left).reverse (right.take block.right).reverse
  let start : Block := ⟨block.left - back, block.right - back, block.size + back⟩
  let more := commonStart (left.drop (start.left + start.size))
    (right.drop (start.right + start.size))
  { start with size := start.size + more }

def longestBlock (seeds : Char → Bool) (left right : List Char) : Block :=
  (longestSeeded seeds right 0 left [] ⟨0, 0, 0⟩).extend left right

def matching (seeds : Char → Bool) (left right : List Char) : Nat :=
  match longestBlock seeds left right with
  | ⟨i, j, size⟩ =>
    if _h : 0 < size ∧ i < left.length then
      size + matching seeds (left.take i) (right.take j) +
        matching seeds (left.drop (i + size)) (right.drop (j + size))
    else 0
termination_by left.length
decreasing_by
  · simp only [List.length_take]; omega
  · simp only [List.length_drop]; omega

/-- In a word of 200 characters or more, a character that makes up over a hundredth of it is too
common to start a block. -/
def seedsOf (word : List Char) (c : Char) : Bool :=
  word.length < 200 || word.count c ≤ word.length / 100 + 1

/-- A candidate with its likeness to a word: `2 * shared / total`, or 1 if both are empty. -/
structure Candidate where
  name : String
  shared : Nat
  total : Nat

def Candidate.of (word name : String) : Candidate :=
  ⟨name, matching (seedsOf word.toList) name.toList word.toList, name.length + word.length⟩

def Candidate.isClose (c : Candidate) : Bool :=
  3 * c.total ≤ 10 * c.shared

def Candidate.before (a b : Candidate) : Bool :=
  let x := a.shared * b.total
  let y := b.shared * a.total
  y < x || (x == y && b.name ≤ a.name)

def closeTo (word : String) (names : List String) (limit : Nat) : List String :=
  (((names.map (Candidate.of word)).filter Candidate.isClose).mergeSort Candidate.before).take limit
    |>.map Candidate.name

end Sluice.Text
