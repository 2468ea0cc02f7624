import MacroSweep.Toml.Value

/-! How the tables of a document come about. A table is written once, by a header or by dotted keys;
what only leads to another table may still be written. -/
namespace MacroSweep.Toml

/-- How a table came about. -/
inductive Origin where
  | written
  | implied
  | dotted
  deriving DecidableEq, Repr

/-- What a key of an unfinished table stands for. A value is finished; of a list of tables the last
may still grow. -/
inductive Node where
  | value (v : Value)
  | table (origin : Origin) (fields : List (String × Node))
  | tables (items : List (List (String × Node)))

abbrev Fields := List (String × Node)

namespace Fields

/-- Replaces what a key stands for. -/
def set (fs : Fields) (key : String) (node : Node) : Fields :=
  fs.map fun f => if f.1 = key then (key, node) else f

/-- Changes the last of a list of tables. -/
def alterLast (f : Fields → Option Fields) (items : List Fields) : Option (List Fields) := do
  return items.dropLast ++ [← f (← items.getLast?)]

/-- Goes along a path of tables, which are implied where they are missing, and changes the one at
its end. -/
def alterAt (change : Fields → Option Fields) : List String → Fields → Option Fields
  | [], fs => change fs
  | key :: path, fs =>
    match fs.lookup key with
    | none => (alterAt change path []).map fun g => fs ++ [(key, .table .implied g)]
    | some (.table origin g) => (alterAt change path g).map fun g => fs.set key (.table origin g)
    | some (.tables items) =>
      (alterLast (alterAt change path) items).map fun items => fs.set key (.tables items)
    | some (.value _) => none

/-- Writes a table that was not written before. -/
def writeTable (key : String) (fs : Fields) : Option Fields :=
  match fs.lookup key with
  | none => some (fs ++ [(key, .table .written [])])
  | some (.table .implied g) => some (fs.set key (.table .written g))
  | some _ => none

/-- Adds a table to a list of tables. -/
def addTable (key : String) (fs : Fields) : Option Fields :=
  match fs.lookup key with
  | none => some (fs ++ [(key, .tables [[]])])
  | some (.tables items) => some (fs.set key (.tables (items ++ [[]])))
  | some _ => none

/-- Gives a key a value, once. -/
def define (key : String) (v : Value) (fs : Fields) : Option Fields :=
  match fs.lookup key with
  | none => some (fs ++ [(key, .value v)])
  | some _ => none

/-- Gives a dotted key a value. The table it lies in is one that dotted keys made, as is each that
is missing; a written table is not entered. -/
def defineDotted (v : Value) : (path : List String) → (isDotted : Bool) → Fields → Option Fields
  | [], _, _ => none
  | [key], isDotted, fs => if isDotted then define key v fs else none
  | key :: path, _, fs =>
    match fs.lookup key with
    | none => (defineDotted v path true []).map fun g => fs ++ [(key, .table .dotted g)]
    | some (.table .written _) => none
    | some (.table origin g) =>
      (defineDotted v path (origin == .dotted) g).map fun g => fs.set key (.table origin g)
    | some (.tables items) =>
      (alterLast (defineDotted v path false) items).map fun items => fs.set key (.tables items)
    | some (.value _) => none

/-- Gives a key, plain or dotted, a value. -/
def insert (path : List String) (v : Value) (fs : Fields) : Option Fields :=
  match path with
  | [key] => define key v fs
  | path => defineDotted v path false fs

end Fields

mutual

/-- The value of what a key stands for. -/
def Node.finish : Node → Value
  | .value v => v
  | .table _ fields => .table (finishFields fields)
  | .tables items => .array (finishItems items)

def finishFields : List (String × Node) → List (String × Value)
  | [] => []
  | (key, node) :: rest => (key, node.finish) :: finishFields rest

def finishItems : List (List (String × Node)) → List Value
  | [] => []
  | fields :: rest => .table (finishFields fields) :: finishItems rest

end

/-- The value of a table written within one value. -/
def inlineTable? (entries : List (List String × Value)) : Option Value := do
  let fs ← entries.foldlM (fun fs e => Fields.insert e.1 e.2 fs) []
  return .table (finishFields fs)

end MacroSweep.Toml
