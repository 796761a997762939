import Sluice.Table
import Sluice.Yaml.Node

/-! YAML texts. A text holds at most one document, which is nothing, a single value, or a list or
a record of values. -/

namespace Sluice

namespace Yaml

def isMerge : Node → Bool
  | .scalar .merge _ => true
  | _ => false

def keyText? : Node → Option String
  | .scalar .text s => some s
  | _ => none

def repeatsKey (entries : List (Node × Node)) : Bool :=
  let keys := entries.filterMap fun e => keyText? e.1
  keys.eraseDups.length < keys.length

def lent : Node → Except YamlError (List (Node × Node))
  | .mapping _ entries => pure entries
  | .sequence _ items => do
    let lists ← items.mapM fun n => match n with
      | .mapping _ entries => pure entries
      | _ => throw .badValue
    pure lists.reverse.flatten
  | .scalar _ _ => throw .badValue

def spread (entries : List (Node × Node)) : Except YamlError (List (Node × Node)) := do
  let (merges, own) := entries.partition fun e => isMerge e.1
  let taken ← merges.mapM fun e => lent e.2
  pure (taken.flatten ++ own.map fun e =>
    match e.1 with
    | .scalar .default s => (.scalar .text s, e.2)
    | _ => e)

mutual

def merged : Node → Except YamlError Node
  | .scalar kind s => pure (.scalar kind s)
  | .sequence kind items => do pure (.sequence kind (← mergedItems items))
  | .mapping kind entries => do
    if repeatsKey entries then throw .badValue
    pure (.mapping kind (← spread (← mergedEntries entries)))

def mergedItems : List Node → Except YamlError (List Node)
  | [] => pure []
  | n :: r => do pure ((← merged n) :: (← mergedItems r))

def mergedEntries : List (Node × Node) → Except YamlError (List (Node × Node))
  | [] => pure []
  | (k, v) :: r => do pure ((← merged k, ← merged v) :: (← mergedEntries r))

end

def keyOf : Document → Except YamlError String
  | .null => throw .nullKey
  | .list _ => throw .badValue
  | .record _ => throw .badValue
  | d => pure d.shown

mutual

def value : Node → Except YamlError Document
  | .scalar kind s => valueOf kind s
  | .sequence kind items =>
    if kind = .sequence then do pure (.list (← items' items)) else throw .badValue
  | .mapping kind entries =>
    if kind = .mapping then do pure (.record (← fields [] entries)) else throw .badValue

def items' : List Node → Except YamlError (List Document)
  | [] => pure []
  | n :: r => do pure ((← value n) :: (← items' r))

def fields (before : List (String × Document)) :
    List (Node × Node) → Except YamlError (List (String × Document))
  | [] => pure before
  | (k, v) :: r => do
    let key ← keyOf (← value k)
    let d ← value v
    fields (Table.put key d before) r

end

def read (s : String) : Except YamlError Document := do
  let cs := match s.toList with
    | '\ufeff' :: r => r
    | cs => cs
  if !cs.all isAllowed then throw .strayCharacter
  match ← nodeOf? (tokensOf cs) with
  | none => pure .null
  | some n => value (← merged n)

end Yaml

end Sluice
