import ZMachine.Toml.Value

/-! # Adding to tables

    Tables are found by paths. Tables that a path names and that are not there
    yet come into being; an array of tables stands for its last element. A path
    of a dotted key leads only through tables without a header of their own, and
    no path leads into a table that was written between braces. -/

namespace ZMachine.Toml

namespace Entries

/-- Changes the value under a key that is there. -/
def replace (entries : Entries) (key : String) (v : Value) : Entries :=
  entries.map fun e => if e.1 == key then (key, v) else e

/-- Changes the entries of the table at the end of a path. The change is told how
    that table came to be; `link` is how tables come to be along the path. -/
def modifyAt (link : Origin) (change : Origin → Entries → Option Entries) :
    (path : List String) → Origin → Entries → Option Entries
  | [], origin, entries => change origin entries
  | key :: path, _, entries =>
      match entries.lookup key with
      | none => do
          let inner ← modifyAt link change path link []
          pure (entries ++ [(key, .table link inner)])
      | some (.table origin inner) =>
          if origin = .closed ∨ (link = .dotted ∧ origin = .stated) then none
          else do
            let inner ← modifyAt link change path origin inner
            pure (replace entries key (.table origin inner))
      | some (.tables elements) => do
          let last ← elements.getLast?
          let last ← modifyAt link change path .stated last
          pure (replace entries key (.tables (elements.dropLast ++ [last])))
      | some _ => none

/-- Adds a value under a key that is new. -/
def add (key : String) (v : Value) (entries : Entries) : Option Entries :=
  if (entries.lookup key).isSome then none else some (entries ++ [(key, v)])

/-- Adds a value under a dotted key, whose last part is given apart. Only a dotted
    key adds to a table that came to be through one. -/
def addPair (path : List String) (key : String) (v : Value) :
    Origin → Entries → Option Entries :=
  modifyAt .dotted (fun origin entries =>
    if (origin = .dotted) = path.isEmpty then none else add key v entries) path

/-- States the table with a given header, which may only have been implied before. -/
def stateTable (path : List String) (key : String) (root : Entries) : Option Entries :=
  modifyAt .implied (fun _ entries =>
    match entries.lookup key with
    | none => some (entries ++ [(key, .table .stated [])])
    | some (.table .implied inner) => some (replace entries key (.table .stated inner))
    | some _ => none) path .stated root

/-- Adds an element to the array of tables with a given header. -/
def stateElement (path : List String) (key : String) (root : Entries) : Option Entries :=
  modifyAt .implied (fun _ entries =>
    match entries.lookup key with
    | none => some (entries ++ [(key, .tables [[]])])
    | some (.tables elements) => some (replace entries key (.tables (elements ++ [[]])))
    | some _ => none) path .stated root

end Entries

end ZMachine.Toml
