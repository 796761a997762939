import Sluice.Exchange
import Sluice.Program.Options

/-! The program: it converts command line files between dialects, checks them, and lists the tasks
it knows. A run is a function from arguments and files to an outcome and files. -/

namespace Sluice

/-- What a run shows and leaves behind. -/
structure Outcome where
  status : Nat
  output : String
  reports : List String
  files : Files

/-- Why a run breaks off without an outcome. -/
inductive ProgramError
  | file : FileError → ProgramError
  | config : ConfigError → ProgramError
  | catalogue : CatalogueError → ProgramError
  | settings : SettingsError → ProgramError
  | wording : WordingError → ProgramError
  | exchange : ExchangeError → ProgramError

namespace Program

def versionText : String :=
  "taskweave 0.1.0\n"

def logLine (level part message : String) : String :=
  level ++ ":taskweave." ++ part ++ ":" ++ message

def lift {ε α : Type} (wrap : ε → ProgramError) : Except ε α → Except ProgramError α
  | .ok a => pure a
  | .error e => throw (wrap e)

section

variable (library : ConfigLibrary)

def document (files : Files) (path : String) : Except ProgramError Document := do
  let text ← lift .file (files.read (Path.ofString path).straight.toString)
  lift .config (library.load text)

def catalogueOf (files : Files) (verbose : Bool) (path : Option String) :
    Except ProgramError (Catalogue × List String) := do
  match path with
  | none => pure (Catalogue.bundled, [])
  | some path => do
    let (c, loaded) := Catalogue.empty.load path (← document library files path)
    let count ← lift .catalogue loaded
    let line := logLine "DEBUG" "foundation.registry"
      ("Loaded " ++ toString count ++ " task templates from " ++ path)
    pure (c, if verbose then [line] else [])

def settingsOf (files : Files) (path : Option String) :
    Except ProgramError (Settings × List String) := do
  match path with
  | none => pure (Settings.default, [])
  | some path => do
    let (s, ignored) ← lift .settings (Settings.load path (← document library files path))
    let warn (key : String) : String :=
      logLine "WARNING" "settings" ("Ignoring unknown setting '" ++ key ++ "' in " ++ path)
    pure (s, ignored.map warn)

end

def importedLine (p : Pipeline) (path dialect : String) : String :=
  logLine "INFO" "pipeline_io" ("Imported " ++ toString p.size ++ " function(s) from " ++
    (Path.ofString path).toString ++ " (" ++ dialect ++ ")")

/-- What a command has shown when it ends or fails. -/
structure Progress where
  output : String
  reports : List String
  files : Files

abbrev Attempt (α : Type) :=
  Except (ExchangeError × Progress) α

def attempt {α : Type} (progress : Progress) : Except ExchangeError α → Attempt α
  | .ok a => pure a
  | .error e => throw (e, progress)

def convertSettings (o : ConvertOptions) (s : Settings) : Settings :=
  { s with
    shortNames := s.shortNames || o.shortNames
    exportDefaults := s.exportDefaults || o.exportDefaults }

def targetDialect (o : ConvertOptions) : String :=
  match o.target, o.output with
  | some name, _ => name
  | none, some path => (Path.ofString path).dialect
  | none, none => Dialect.plain.name

def convert (library : ConfigLibrary) (o : ConvertOptions) (catalogue : Catalogue)
    (settings : Settings) (progress : Progress) : Attempt (Nat × Progress) := do
  let p ← attempt progress (Exchange.importFrom progress.files catalogue false o.source o.input)
  let line := importedLine p o.input (Exchange.dialectName o.source o.input)
  let progress := { progress with reports := progress.reports ++ [line] }
  let write layout := p.writeBy library (convertSettings o settings) layout none
  let (text, d) ← attempt progress (Exchange.render write o.toolPath (targetDialect o))
  match o.output with
  | none => pure (0, { progress with output := progress.output ++ text ++ "\n" })
  | some path => do
    let files ← attempt progress
      (Exchange.lift .file (progress.files.write path (text ++ d.lineEnd)))
    let wrote := logLine "INFO" "cli" ("Wrote " ++ path)
    pure (0, { progress with files := files, reports := progress.reports ++ [wrote] })

def check (o : CheckOptions) (catalogue : Catalogue) (progress : Progress) :
    Attempt (Nat × Progress) := do
  let p ← attempt progress (Exchange.importFrom progress.files catalogue o.strict o.source o.input)
  let line := importedLine p o.input (Exchange.dialectName o.source o.input)
  let progress := { progress with reports := progress.reports ++ [line] }
  let v ← attempt progress (Exchange.lift .pipeline p.validate)
  let count := toString p.size ++ " function(s), " ++ toString p.links.length ++ " connection(s)"
  let lines := v.warnings.map ("warning: " ++ ·) ++ v.errors.map ("error: " ++ ·) ++ [count]
  let output := String.join (lines.map (· ++ "\n"))
  pure (if v.isValid then 0 else 1, { progress with output := progress.output ++ output })

def taskLine (t : Task) : String :=
  let short := match t.short? with
    | some s => " (" ++ s ++ ")"
    | none => ""
  "--" ++ t.name ++ short ++ "  " ++ t.description ++ "\n"

def listTasks (catalogue : Catalogue) (progress : Progress) : Nat × Progress :=
  (0, { progress with
    output := progress.output ++ String.join (catalogue.sorted.map taskLine) })

/-- The report of a failure that ends a run with an outcome: a refused text or a file that the
system does not give. -/
def failureReport (messages : Messages) (e : ExchangeError) : Except ProgramError String :=
  match e with
  | .read r => do
    match ← lift .wording (r.refusal? messages) with
    | none => throw (.exchange (.read r))
    | some refusal => do
      pure ("error: " ++ (← lift .wording (refusal.message messages)))
  | .file f =>
    match f.report? with
    | some report => pure ("error: " ++ report)
    | none => throw (.file f)
  | e => throw (.exchange e)

def finish (messages : Messages) : Attempt (Nat × Progress) → Except ProgramError Outcome
  | .ok (status, p) => pure ⟨status, p.output, p.reports, p.files⟩
  | .error (e, p) => do
    let report ← failureReport messages e
    pure ⟨2, p.output, p.reports ++ [report], p.files⟩

/-- A run with options. Catalogue and settings are loaded first; what goes wrong with them is no
outcome. -/
def runOptions (library : ConfigLibrary) (messages : Messages) (files : Files)
    (o : ProgramOptions) : Except ProgramError Outcome := do
  let (catalogue, lines) ← catalogueOf library files o.verbose o.templates
  let (settings, warnings) ← settingsOf library files o.settings
  let progress : Progress := ⟨"", lines ++ warnings, files⟩
  match o.command with
  | .convert c => finish messages (convert library c catalogue settings progress)
  | .check c => finish messages (check c catalogue progress)
  | .tasks => finish messages (pure (listTasks catalogue progress))

def stopped (files : Files) : Stop → Outcome
  | .usage => ⟨2, "", [], files⟩
  | .version => ⟨0, versionText, [], files⟩
  | .help => ⟨0, "", [], files⟩

/-- A run that comes to an outcome, or is ended by its arguments. -/
def runBy (library : ConfigLibrary) (messages : Messages) (files : Files) (args : List String) :
    Except ProgramError (Stop ⊕ Outcome) :=
  match ProgramOptions.ofArguments args with
  | .error stop => pure (.inl stop)
  | .ok o => do pure (.inr (← runOptions library messages files o))

def run : Messages → Files → List String → Except ProgramError (Stop ⊕ Outcome) :=
  runBy .plain

end Program

end Sluice
