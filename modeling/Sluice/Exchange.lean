import Sluice.Files
import Sluice.Pipeline.Validation
import Sluice.Reading
import Sluice.Writing

/-! Exchange of pipelines with command line files. Unless a dialect is given, the name of the file
tells it. -/

namespace Sluice

inductive ExchangeError
  | file : FileError → ExchangeError
  | unknownDialect : (name : String) → ExchangeError
  | read : ReadError → ExchangeError
  | pipeline : PipelineError → ExchangeError

namespace Exchange

def dialectName (given : Option String) (path : String) : String :=
  match given with
  | none => (Path.ofString path).dialect
  | some "" => (Path.ofString path).dialect
  | some name => name

def dialect (name : String) : Except ExchangeError Dialect :=
  match Dialect.ofName? name with
  | some d => pure d
  | none => throw (.unknownDialect name)

def lift {ε α : Type} (wrap : ε → ExchangeError) : Except ε α → Except ExchangeError α
  | .ok a => pure a
  | .error e => throw (wrap e)

def importFrom (files : Files) (catalogue : Catalogue) (strict : Bool) (given : Option String)
    (path : String) : Except ExchangeError Pipeline := do
  let text ← lift .file (files.read (Path.ofString path).toString)
  let d ← dialect (dialectName given path)
  lift .read (Reader.read ⟨catalogue, d.marker, strict⟩ text none)

def render (write : Layout → Except PipelineError String) (addToolPath : Bool) (name : String) :
    Except ExchangeError (String × Dialect) := do
  let d ← dialect name
  let text ← lift .pipeline (write (Layout.ofDialect d addToolPath))
  pure (text, d)

def exportTo (files : Files) (settings : Settings) (addToolPath : Bool) (given : Option String)
    (path : String) (p : Pipeline) : Except ExchangeError (String × Files) := do
  let write layout := p.writeBy .plain settings layout none
  let (text, d) ← render write addToolPath (dialectName given path)
  let files ← lift .file (files.write (Path.ofString path).toString (text ++ d.lineEnd))
  pure (text, files)

end Exchange

end Sluice
