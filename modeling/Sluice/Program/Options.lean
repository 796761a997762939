import Sluice.Dialect
import Sluice.Program.Arguments

/-! The options of the program and of its commands. -/

namespace Sluice

structure ConvertOptions where
  input : String
  output : Option String
  source : Option String
  target : Option String
  shortNames : Bool
  exportDefaults : Bool
  toolPath : Bool

structure CheckOptions where
  input : String
  source : Option String
  strict : Bool

inductive ProgramCommand
  | convert : ConvertOptions → ProgramCommand
  | check : CheckOptions → ProgramCommand
  | tasks : ProgramCommand

structure ProgramOptions where
  templates : Option String
  settings : Option String
  verbose : Bool
  command : ProgramCommand

namespace ProgramOptions

def help : CommandOption :=
  ⟨["--help", "-h"], .stops .help⟩

def flag (name : String) : CommandOption :=
  ⟨[name], .flag⟩

def valued (name : String) : CommandOption :=
  ⟨[name], .valued none⟩

def dialectOption (name : String) : CommandOption :=
  ⟨[name], .valued (some Dialect.names)⟩

def grammar : Grammar :=
  ⟨[help, ⟨["--version"], .stops .version⟩, valued "--templates", valued "--settings",
      ⟨["--verbose", "-v"], .flag⟩], .rest⟩

def convertGrammar : Grammar :=
  ⟨[help, ⟨["--output", "-o"], .valued none⟩, dialectOption "--from", dialectOption "--to",
      flag "--short-names", flag "--export-defaults", flag "--no-tool-path"], .single 1⟩

def checkGrammar : Grammar :=
  ⟨[help, dialectOption "--from", flag "--strict-inputs"], .single 1⟩

def tasksGrammar : Grammar :=
  ⟨[help], .single 0⟩

def filled (value : Option String) : Option String :=
  value.bind fun s => if s = "" then none else some s

def convertOf (a : Arguments) : ProgramCommand :=
  .convert
    { input := a.operands.headD ""
      output := filled (a.value? "--output")
      source := filled (a.value? "--from")
      target := filled (a.value? "--to")
      shortNames := a.has "--short-names"
      exportDefaults := a.has "--export-defaults"
      toolPath := !a.has "--no-tool-path" }

def checkOf (a : Arguments) : ProgramCommand :=
  .check ⟨a.operands.headD "", filled (a.value? "--from"), a.has "--strict-inputs"⟩

/-- The command that a word and the arguments after it stand for, with the arguments that it does
not know. -/
def commandOf : List String → Except Stop (ProgramCommand × List String)
  | "convert" :: r => do
    let a ← convertGrammar.parse r
    pure (convertOf a, a.strangers)
  | "check" :: r => do
    let a ← checkGrammar.parse r
    pure (checkOf a, a.strangers)
  | "tasks" :: r => do
    let a ← tasksGrammar.parse r
    pure (.tasks, a.strangers)
  | _ => throw .usage

def ofArguments (args : List String) : Except Stop ProgramOptions := do
  let a ← grammar.parse args
  let (command, strangers) ← commandOf a.operands
  if a.strangers.isEmpty && strangers.isEmpty then
    pure ⟨filled (a.value? "--templates"), filled (a.value? "--settings"), a.has "--verbose",
      command⟩
  else throw .usage

end ProgramOptions

end Sluice
