import Sluice.Document.Json
import Sluice.Files.Path

/-! Files by place. A file holds a text, or bytes that need not be one. Directories are those that
files lie in, those that are named, and the tops. -/

namespace Sluice

inductive Content
  | text : String → Content
  | bytes : ByteArray → Content
  | directory : Content

def Content.text? : Content → Option String
  | .text s => some s
  | .bytes b => String.fromUTF8? b
  | .directory => none

abbrev Files :=
  List (List String × Content)

inductive FileError
  | notFound : (path : String) → FileError
  | isDirectory : (path : String) → FileError
  | notDirectory : (path : String) → FileError
  | nameTooLong : (path : String) → FileError
  /-- A path with a null character, which is no path. -/
  | noPath : FileError
  /-- Bytes that are no text. -/
  | notText : FileError

def FileError.report? : FileError → Option String
  | .notFound path => some ("[Errno 2] No such file or directory: " ++ Text.quoted path)
  | .isDirectory path => some ("[Errno 21] Is a directory: " ++ Text.quoted path)
  | .notDirectory path => some ("[Errno 20] Not a directory: " ++ Text.quoted path)
  | .nameTooLong path => some ("[Errno 36] File name too long: " ++ Text.quoted path)
  | .noPath => none
  | .notText => none

def FileError.noPathMessage : String :=
  "embedded null byte"

namespace Files

def nameLimit : Nat :=
  255

def pathLimit : Nat :=
  4095

def content? (files : Files) (place : List String) : Option Content :=
  (files.find? fun file => file.1 == place).map (·.2)

def isFile (files : Files) (place : List String) : Bool :=
  match files.content? place with
  | none => false
  | some .directory => false
  | some _ => true

def isDirectory (files : Files) (place : List String) : Bool :=
  place.all Path.isTop || files.any fun file =>
    place.isPrefixOf file.1 &&
      (place.length < file.1.length || match file.2 with | .directory => true | _ => false)

def walk (files : Files) (path : String) (place : List String) :
    List String → Except FileError (List String)
  | [] => pure place
  | part :: r =>
    if files.isDirectory place then
      if nameLimit < part.utf8ByteSize then throw (.nameTooLong path)
      else files.walk path (Path.step place part) r
    else if files.isFile place then throw (.notDirectory path)
    else throw (.notFound path)

def follow (files : Files) (path : String) (steps : List String) :
    Except FileError (List String) := do
  if path.contains '\x00' then throw .noPath
  if path = "" then throw (.notFound path)
  if pathLimit < path.utf8ByteSize then throw (.nameTooLong path)
  files.walk path (Path.ofString path).start steps

def locate (files : Files) (path : String) : Except FileError (List String) := do
  let place ← files.follow path (Path.steps path)
  if path.endsWith "/" && files.isFile place then throw (.notDirectory path)
  pure place

def text? (files : Files) (path : String) : Option String :=
  match files.locate path with
  | .ok place => (files.content? place).bind Content.text?
  | .error _ => none

def unifyLineEnds : List Char → List Char
  | [] => []
  | '\r' :: '\n' :: r => '\n' :: unifyLineEnds r
  | '\r' :: r => '\n' :: unifyLineEnds r
  | c :: r => c :: unifyLineEnds r

def read (files : Files) (path : String) : Except FileError String := do
  let place ← files.locate path
  if files.isDirectory place then throw (.isDirectory path)
  match files.content? place with
  | none => throw (.notFound path)
  | some c =>
    match c.text? with
    | some s => pure (String.ofList (unifyLineEnds s.toList))
    | none => throw .notText

def put (files : Files) (place : List String) (text : String) : Files :=
  match files with
  | [] => [(place, .text text)]
  | file :: r =>
    if file.1 = place then (place, .text text) :: r else file :: Files.put r place text

/-- Writes a text to a path; the directory of the file has to be there. With a slash at its end
the path is that of a directory, whatever its last step leads to. -/
def write (files : Files) (path text : String) : Except FileError Files := do
  if path.endsWith "/" then
    let _ ← files.follow path ((Path.steps path).dropLast ++ ["."])
    throw (.isDirectory path)
  let place ← files.locate path
  if files.isDirectory place then throw (.isDirectory path)
  pure (files.put place text)

end Files

end Sluice
