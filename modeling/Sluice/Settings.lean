import Sluice.Document.Config
import Sluice.Text.Lower

/-! Settings of the writer: which tool a command line starts with, whether tasks go by their short
names, and whether values are written that hold anyway. -/

namespace Sluice

inductive Setting
  | toolPath : Setting
  | shortNames : Setting
  | exportDefaults : Setting
  deriving DecidableEq, Repr

namespace Setting

def all : List Setting :=
  [.toolPath, .shortNames, .exportDefaults]

def key : Setting → String
  | .toolPath => "default_tool_path"
  | .shortNames => "use_short_task_names"
  | .exportDefaults => "export_parameters_with_default_values"

def ofKey? (key : String) : Option Setting :=
  all.find? fun s => s.key = key

end Setting

inductive SettingsError
  | unparsable : Setting → (value : Document) → SettingsError
  | unknown : (key : Document) → SettingsError
  | noRecord : (path : String) → SettingsError
  | config : ConfigError → SettingsError

def SettingsError.message : SettingsError → Option String
  | .unparsable setting value =>
    some ("Cannot parse " ++ value.quoted ++ " for setting '" ++ setting.key ++ "'")
  | .unknown key => some ("Unknown setting: " ++ key.quoted)
  | .noRecord path => some ("Settings file " ++ path ++ " must contain a mapping")
  | .config _ => none

structure Settings where
  toolPath : String
  shortNames : Bool
  exportDefaults : Bool

namespace Settings

def default : Settings :=
  ⟨"osmosis", false, false⟩

def yes : List String :=
  ["true", "yes", "on", "1"]

def no : List String :=
  ["false", "no", "off", "0"]

def truthOf? (value : Document) : Option Bool :=
  match value with
  | .truth b => some b
  | d =>
    let word := Text.lower (Text.trim d.shown)
    if yes.contains word then some true else if no.contains word then some false else none

def truthOf (setting : Setting) (value : Document) : Except SettingsError Bool :=
  match truthOf? value with
  | some b => pure b
  | none => throw (.unparsable setting value)

def pathOf : Document → String
  | .null => ""
  | d => d.shown

def set (s : Settings) (setting : Setting) (value : Document) : Except SettingsError Settings :=
  match setting with
  | .toolPath => pure { s with toolPath := pathOf value }
  | .shortNames => do pure { s with shortNames := ← truthOf setting value }
  | .exportDefaults => do pure { s with exportDefaults := ← truthOf setting value }

def kept (s : Settings) : Setting → Document
  | .toolPath => .text s.toolPath
  | .shortNames => .truth s.shortNames
  | .exportDefaults => .truth s.exportDefaults

/-- What is read for a setting. A truth value is read as it is kept. -/
def get (library : ConfigLibrary) (s : Settings) : Setting → Except StoreError Document
  | .toolPath => library.given s.toolPath
  | setting => pure (s.kept setting)

def settingOf (key : Document) : Except SettingsError Setting :=
  match key with
  | .text k =>
    match Setting.ofKey? k with
    | some setting => pure setting
    | none => throw (.unknown key)
  | _ => throw (.unknown key)

def setKey (s : Settings) (key value : Document) : Except SettingsError Settings := do
  s.set (← settingOf key) value

def getKey (s : Settings) (key : Document) : Except SettingsError Document := do
  pure (s.kept (← settingOf key))

def ofFields (fields : List (String × Document)) : Except SettingsError Settings :=
  fields.foldlM (fun s (key, value) => s.setKey (.text key) value) default

def load (path : String) : Document → Except SettingsError (Settings × List String)
  | .record fields =>
    fields.foldlM
      (fun (s, ignored) (key, value) => do
        match Setting.ofKey? key with
        | some setting => pure (← s.set setting value, ignored)
        | none => pure (s, ignored ++ [key]))
      (default, [])
  | _ => throw (.noRecord path)

def fields (s : Settings) : List (String × Document) :=
  Setting.all.map fun setting => (setting.key, s.kept setting)

def shown (s : Settings) : String :=
  "Settings(" ++ (Document.record s.fields).quoted ++ ")"

end Settings

end Sluice
