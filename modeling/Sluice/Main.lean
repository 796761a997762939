import Sluice.Program

/-! The command line of the program. The files that the arguments name are read, the run is made on
them, and the files that it changed are written. -/

namespace Sluice.Program

def writtenPaths (o : ProgramOptions) : List String :=
  match o.command with
  | .convert c => c.output.toList
  | _ => []

def paths (o : ProgramOptions) : List String :=
  let input := match o.command with
    | .convert c => [(Path.ofString c.input).toString]
    | .check c => [(Path.ofString c.input).toString]
    | .tasks => []
  let documents := (o.templates.toList ++ o.settings.toList).map fun path =>
    (Path.ofString path).straight.toString
  documents ++ input ++ writtenPaths o

def breakMessage : ProgramError → String
  | .file e => (e.report?).getD "the file holds no text"
  | .config _ => "the file holds no document"
  | .catalogue e => e.message.getD "the catalogue is malformed"
  | .settings e => e.message.getD "the settings are malformed"
  | .wording _ => "a message is malformed"
  | .exchange _ => "the pipeline cannot be written"

end Sluice.Program

open Sluice

/-- What is at a path, if anything is there; what is no file that can be read is a directory. -/
def loadContent (path : String) : IO (Option Content) := do
  try
    pure (some (.bytes (← IO.FS.readBinFile path)))
  catch _ =>
    try
      let _ ← IO.FS.realPath path
      pure (some .directory)
    catch _ =>
      pure none

def wayTo (path : String) : List Path :=
  let p := Path.ofString path
  (List.range (p.parts.length + 1)).map fun n => ⟨p.root, p.parts.take n⟩

def loadFiles (paths : List String) : IO Files := do
  let mut files : Files := []
  for p in paths.flatMap wayTo do
    if let some content ← loadContent p.toString then
      files := (p.place, content) :: files
  pure files

def storeFiles (paths : List String) (files : Files) : IO Unit := do
  for path in paths do
    if let some (.text text) := files.content? (Path.ofString path).place then
      IO.FS.writeFile path text

def main (args : List String) : IO UInt32 := do
  match ProgramOptions.ofArguments args with
  | .error stop => do
    let o := Program.stopped [] stop
    IO.print o.output
    pure o.status.toUInt32
  | .ok o => do
    let files ← loadFiles (Program.paths o)
    match Program.runOptions .plain Messages.english files o with
    | .error e => do
      IO.eprintln (Program.breakMessage e)
      pure 1
    | .ok outcome => do
      storeFiles (Program.writtenPaths o) outcome.files
      IO.print outcome.output
      for report in outcome.reports do
        IO.eprintln report
      pure outcome.status.toUInt32
