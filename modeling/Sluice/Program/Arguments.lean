import Sluice.Text.Digits

/-! Arguments of a command: options with one or two dashes, values attached by an equals sign or
in the next argument, long options cut short, short options run together, and operands. Two dashes
alone end the options. -/

namespace Sluice

/-- Why a run ends with the arguments. -/
inductive Stop
  | usage : Stop
  | version : Stop
  | help : Stop
  deriving DecidableEq, Repr

inductive OptionKind
  | flag : OptionKind
  /-- Takes a value, perhaps one of some choices. -/
  | valued : (choices : Option (List String)) → OptionKind
  /-- Ends the run. -/
  | stops : Stop → OptionKind

structure CommandOption where
  names : List String
  kind : OptionKind

def CommandOption.key (o : CommandOption) : String :=
  o.names.headD ""

/-- Which operands a command takes: as many single ones, or a word and all that follows it. -/
inductive Operands
  | single : Nat → Operands
  | rest : Operands

structure Grammar where
  options : List CommandOption
  operands : Operands

/-- What an argument is: the dashes that end the options, an operand, or an option, known or not,
with a value attached to it. -/
inductive Mark
  | dashes : Mark
  | operand : Mark
  | option : (known : Option CommandOption) → (name : String) → (attached : Option String) → Mark

namespace Mark

def isOption : Mark → Bool
  | .option _ _ _ => true
  | _ => false

end Mark

/-- The options, operands and strangers among the arguments. -/
structure Arguments where
  options : List (String × String)
  operands : List String
  strangers : List String

namespace Arguments

def value? (a : Arguments) (key : String) : Option String :=
  a.options.reverse.lookup key

def has (a : Arguments) (key : String) : Bool :=
  (a.value? key).isSome

end Arguments

namespace Grammar

def named? (g : Grammar) (name : String) : Option CommandOption :=
  g.options.find? fun o => o.names.contains name

def hasStart (start s : String) : Bool :=
  start.toList.isPrefixOf s.toList

def cut? (s : String) : Option (String × String) :=
  match s.toList.dropWhile (· ≠ '=') with
  | [] => none
  | _ :: r => some (String.ofList (s.toList.takeWhile (· ≠ '=')), String.ofList r)

def longMatches (g : Grammar) (arg : String) : List Mark :=
  let (start, attached) := match cut? arg with
    | some (start, value) => (start, some value)
    | none => (arg, none)
  g.options.flatMap fun o =>
    (o.names.filter (hasStart start)).map fun name => .option (some o) name attached

/-- The options that an argument with one dash can stand for: a short option with a value or more
short options run into it, or an option that starts with the whole argument. -/
def shortMatches (g : Grammar) (arg : String) : List Mark :=
  let short := String.ofList (arg.toList.take 2)
  g.options.flatMap fun o =>
    o.names.filterMap fun name =>
      if name = short then some (.option (some o) name (some (String.ofList (arg.toList.drop 2))))
      else if hasStart arg name then some (.option (some o) name none)
      else none

def isNumeral (cs : List Char) : Bool :=
  let rest := cs.dropWhile Text.isDigit
  !(cs.takeWhile Text.isDigit).isEmpty && (rest = [] || rest = ['\n'])

def isNegativeNumber (arg : String) : Bool :=
  match arg.toList with
  | '-' :: r =>
    match r.dropWhile Text.isDigit with
    | '.' :: back => isNumeral back
    | _ => isNumeral r
  | _ => false

def markDashed (g : Grammar) (arg : String) : Except Stop Mark :=
  match g.named? arg with
  | some o => pure (.option (some o) arg none)
  | none =>
    let exact := (cut? arg).bind fun (name, value) =>
      (g.named? name).map fun o => Mark.option (some o) name (some value)
    match exact with
    | some m => pure m
    | none =>
      match if hasStart "--" arg then g.longMatches arg else g.shortMatches arg with
      | [m] => pure m
      | _ :: _ :: _ => throw .usage
      | [] =>
        if isNegativeNumber arg || arg.contains ' ' then pure .operand
        else pure (.option none arg none)

def mark (g : Grammar) (arg : String) : Except Stop Mark :=
  if !hasStart "-" arg || arg = "-" then pure .operand else g.markDashed arg

def marks (g : Grammar) : List String → Except Stop (List (String × Mark))
  | [] => pure []
  | arg :: r =>
    if arg = "--" then pure ((arg, .dashes) :: r.map fun a => (a, .operand))
    else do
      let m ← g.mark arg
      pure ((arg, m) :: (← g.marks r))

/-- What is known in the midst of the arguments: `wanted` operands are still to come. -/
structure State where
  found : Arguments
  wanted : Nat

def operand? : List (String × Mark) → Option (String × List (String × Mark))
  | (_, .dashes) :: (arg, .operand) :: r => some (arg, r)
  | (arg, .operand) :: (_, .dashes) :: r => some (arg, r)
  | (arg, .operand) :: r => some (arg, r)
  | _ => none

def takeOperands (g : Grammar) (s : State) (args : List (String × Mark)) :
    State × List (String × Mark) :=
  match g.operands with
  | .rest =>
    let starts := match args with
      | (_, .operand) :: _ => true
      | (_, .dashes) :: (_, .operand) :: _ => true
      | _ => false
    if s.wanted = 0 || !starts then (s, args)
    else ({ found := { s.found with operands := args.map (·.1) }, wanted := 0 }, [])
  | .single _ =>
    match s.wanted, operand? args with
    | n + 1, some (arg, rest) =>
      ({ found := { s.found with operands := s.found.operands ++ [arg] }, wanted := n }, rest)
    | _, _ => (s, args)

def allows (choices : Option (List String)) (value : String) : Bool :=
  match choices with
  | none => true
  | some names => names.contains value

def keep (s : State) (o : CommandOption) (value : String) : State :=
  { s with found := { s.found with options := s.found.options ++ [(o.key, value)] } }

def keepValue (s : State) (o : CommandOption) (choices : Option (List String)) (value : String) :
    Except Stop State :=
  if value = "--" then pure (keep s o "")
  else if allows choices value then pure (keep s o value)
  else throw .usage

def raise (s : State) (o : CommandOption) : Except Stop State :=
  match o.kind with
  | .stops stop => throw stop
  | _ => pure (keep s o "")

/-- Short options run into one argument: those before the last, the last one, and the value that
the rest of the argument gives it. -/
structure Run where
  before : List CommandOption
  last : CommandOption
  value : Option String

def runTogether (g : Grammar) (before : List CommandOption) (o : CommandOption) :
    List Char → Except Stop Run
  | [] => pure ⟨before, o, none⟩
  | c :: r =>
    match o.kind with
    | .valued _ => pure ⟨before, o, some (String.ofList (c :: r))⟩
    | _ =>
      match g.named? (String.ofList ['-', c]) with
      | some next => g.runTogether (before ++ [o]) next r
      | none => throw .usage

def addStranger (s : State) (arg : String) : State :=
  { s with found := { s.found with strangers := s.found.strangers ++ [arg] } }

def nextValue : List (String × Mark) → Except Stop String
  | (next, .operand) :: _ => pure next
  | _ => throw .usage

/-- An option and its value, if it takes one, from the arguments after it; tells whether the first
of those is taken. -/
def takeOption (g : Grammar) (s : State) (arg : String) (known : Option CommandOption)
    (name : String) (attached : Option String) (r : List (String × Mark)) :
    Except Stop (State × Bool) :=
  match known with
  | none => pure (addStranger s arg, false)
  | some o =>
    match attached, o.kind with
    | some value, .valued choices => do pure (← keepValue s o choices value, false)
    | some value, _ =>
      if hasStart "--" name || value = "" then throw .usage
      else do
        let run ← g.runTogether [] o value.toList
        match run.last.kind, run.value with
        | .valued choices, some value => do
          pure (← keepValue (← run.before.foldlM raise s) run.last choices value, false)
        | .valued choices, none => do
          let value ← nextValue r
          pure (← keepValue (← run.before.foldlM raise s) run.last choices value, true)
        | _, _ => do pure (← raise (← run.before.foldlM raise s) run.last, false)
    | none, .valued choices => do pure (← keepValue s o choices (← nextValue r), true)
    | none, _ => do pure (← raise s o, false)

def parseFrom (g : Grammar) (fuel : Nat) (s : State) (args : List (String × Mark)) :
    Except Stop State :=
  match fuel with
  | 0 => throw .usage
  | fuel + 1 =>
    if !args.any fun a => a.2.isOption then
      let (s, rest) := g.takeOperands s args
      pure { s with found := { s.found with
        strangers := s.found.strangers ++ rest.map (·.1) } }
    else
      match args with
      | (arg, .option known name attached) :: r => do
        let (s, consumed) ← g.takeOption s arg known name attached r
        g.parseFrom fuel s (if consumed then r.tail else r)
      | _ =>
        let (t, rest) := g.takeOperands s args
        if rest.length < args.length then g.parseFrom fuel t rest
        else
          let skipped := args.takeWhile fun a => !a.2.isOption
          let t := { t with found := { t.found with
            strangers := t.found.strangers ++ skipped.map (·.1) } }
          g.parseFrom fuel t (args.dropWhile fun a => !a.2.isOption)

def parse (g : Grammar) (args : List String) : Except Stop Arguments := do
  let marked ← g.marks args
  let wanted := match g.operands with
    | .single n => n
    | .rest => 1
  let s ← g.parseFrom (2 * marked.length + 1) ⟨⟨[], [], []⟩, wanted⟩ marked
  if s.wanted = 0 then pure s.found else throw .usage

end Grammar

end Sluice
