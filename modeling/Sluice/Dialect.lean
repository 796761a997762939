import Sluice.Text.Lower
import Sluice.Text.Quoted

/-! Dialects of command lines: the marker that breaks a line, the line end after it, and the
quotes around values. -/

namespace Sluice

structure Dialect where
  name : String
  marker : String
  lineEnd : String
  quote : String

namespace Dialect

def plain : Dialect :=
  ⟨"commandline", "<linebreak>", "\n", "\""⟩

def bash : Dialect :=
  ⟨"bash", "\\", "\n", "\""⟩

def cmd : Dialect :=
  ⟨"cmd", "^", "\r\n", "\""⟩

def all : List Dialect :=
  [bash, cmd, plain]

def names : List String :=
  all.map Dialect.name

def ofName? (name : String) : Option Dialect :=
  all.find? fun d => d.name = Text.lower name

def unknownMessage (name : String) : String :=
  "Unknown dialect: " ++ Text.quoted name ++ ". Known: " ++ Text.quotedList names

def separator (d : Dialect) : String :=
  " " ++ d.marker ++ d.lineEnd

end Dialect

end Sluice
