import Sluice.Document.Decimal
import Sluice.Text.Quoted

/-! Documents: the values that settings files and task catalogues are made of, as an answer shows
them. A record keeps its fields in the order of the file. -/

namespace Sluice

inductive Document
  | null : Document
  | truth : Bool → Document
  | whole : Int → Document
  | decimal : Decimal → Document
  | text : String → Document
  | list : List Document → Document
  | record : List (String × Document) → Document

namespace Document

def isTrue : Document → Bool
  | .null => false
  | .truth b => b
  | .whole n => n != 0
  | .decimal x => !x.isZero
  | .text s => s != ""
  | .list items => !items.isEmpty
  | .record fields => !fields.isEmpty

def truthText (b : Bool) : String :=
  if b then "True" else "False"

mutual

def quoted : Document → String
  | .null => Text.absent
  | .truth b => truthText b
  | .whole n => toString n
  | .decimal x => x.text
  | .text s => Text.quoted s
  | .list items => Text.bracketed (quotedItems items)
  | .record fields => "\x7b" ++ ", ".intercalate (quotedFields fields) ++ "\x7d"

def quotedItems : List Document → List String
  | [] => []
  | d :: r => quoted d :: quotedItems r

def quotedFields : List (String × Document) → List String
  | [] => []
  | (key, d) :: r => (Text.quoted key ++ ": " ++ quoted d) :: quotedFields r

end

/-- The value as a text: a text is itself and anything else its quoted form. -/
def shown : Document → String
  | .text s => s
  | d => d.quoted

def find? (key : String) (fields : List (String × Document)) : Option Document :=
  (fields.reverse.find? fun field => field.1 == key).map (·.2)

end Document

end Sluice
