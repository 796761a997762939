import Sluice.Program
import Sluice.Proofs.Catalogue.History
import Sluice.Proofs.Exchange
import Sluice.Proofs.Program.Arguments
import Sluice.Proofs.Reading.Outcomes

/-! Conversions from file to file. The dialects asked for are known, what is read is written in one
go, and the one file that changes holds the text and a line end; a text that is refused changes no
file. -/

namespace Sluice

namespace ProgramOptions

end ProgramOptions

namespace Reader

variable {r : Reader} {whole : String → Option Int} {text : String} {name : Option String}

end Reader

def Exchange.importBy (whole : String → Option Int) (files : Files) (catalogue : Catalogue)
    (strict : Bool) (given : Option String) (path : String) : Except ExchangeError Pipeline := do
  let text ← lift .file (files.read (Path.ofString path).toString)
  let d ← dialect (dialectName given path)
  lift .read (Reader.readBy ⟨catalogue, d.marker, strict⟩ whole text none)

namespace Program

variable {library : ConfigLibrary} {files : Files} {catalogue : Catalogue} {c : ConvertOptions}
  {settings : Settings} {p : Pipeline}

def converted (library : ConfigLibrary) (o : ConvertOptions) (settings : Settings) (p : Pipeline) :
    Except ExchangeError (String × Dialect) :=
  Exchange.render (fun layout => p.writeBy library (convertSettings o settings) layout none)
    o.toolPath (targetDialect o)

def emit (library : ConfigLibrary) (o : ConvertOptions) (settings : Settings) (progress : Progress)
    (p : Pipeline) : Attempt (Nat × Progress) := do
  let line := importedLine p o.input (Exchange.dialectName o.source o.input)
  let progress := { progress with reports := progress.reports ++ [line] }
  let (text, d) ← attempt progress (converted library o settings p)
  match o.output with
  | none => pure (0, { progress with output := progress.output ++ text ++ "\n" })
  | some path => do
    let files ← attempt progress
      (Exchange.lift .file (progress.files.write path (text ++ d.lineEnd)))
    let wrote := logLine "INFO" "cli" ("Wrote " ++ path)
    pure (0, { progress with files := files, reports := progress.reports ++ [wrote] })

def convertBy (library : ConfigLibrary) (whole : String → Option Int) (o : ConvertOptions)
    (catalogue : Catalogue) (settings : Settings) (progress : Progress) :
    Attempt (Nat × Progress) := do
  let p ← attempt progress
    (Exchange.importBy whole progress.files catalogue false o.source o.input)
  emit library o settings progress p

theorem lift_eq_ok {ε α : Type} {wrap : ε → ProgramError} {x : Except ε α} {a : α} :
    lift wrap x = .ok a ↔ x = .ok a := by
  cases x <;> simp [lift]

theorem attempt_fails {α : Type} (progress : Progress) (x : Except ExchangeError α) :
    FailsBy (fun failure => failure.2.files = progress.files) (attempt progress x) := by
  cases x with
  | ok a => exact .ok a
  | error e => exact .throws rfl

theorem convertBy_fails (library : ConfigLibrary) (whole : String → Option Int)
    (c : ConvertOptions) (catalogue : Catalogue) (settings : Settings) (progress : Progress) :
    FailsBy (fun failure => failure.2.files = progress.files)
      (convertBy library whole c catalogue settings progress) := by
  refine (attempt_fails progress _).bind fun p _ => (attempt_fails _ _).bind fun (text, d) _ => ?_
  dsimp only
  split
  · exact .ok _
  · exact (attempt_fails _ _).bind fun _ _ => .ok _

end Program

end Sluice
