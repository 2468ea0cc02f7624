import MacroSweep.Cache.Record

/-! A directory of records, one for each unit and configuration. -/
namespace MacroSweep.Cache

/-- A directory of records, and the tag of the checker whose records count. -/
structure Store where
  directory : Path
  tag : String
  deriving DecidableEq, Repr

/-- Why a record is not stored. -/
inductive StoreError where
  | createDirectory (path : Path) (failure : FileFailure)
  | write (path : Path) (failure : FileFailure)

/-- The files as the failure left them. -/
def StoreError.tree : StoreError → FileTree
  | createDirectory _ failure => failure.tree
  | write _ failure => failure.tree

/-- What tells apart the temporary files that records are written to. -/
structure Ticket where
  process : Nat := 0
  count : Nat := 0
  deriving DecidableEq, Repr

def Ticket.fileName : Ticket → String
  | ⟨process, count⟩ => s!".{process}.{count}.tmp"

namespace Store

/-- The bytes that stand for a unit and a configuration. -/
def keyBytes (unit : Path) (signature : String) : List UInt8 :=
  Text.encode unit.text.toList ++ 0 :: Text.encode signature.toList

/-- The file of a record. -/
def recordPath (store : Store) (unit : Path) (signature : String) : Path :=
  store.directory.join ⟨Digest.fingerprint (keyBytes unit signature) ++ ".json"⟩

/-- Whether dependencies are the same, file by file. -/
def sameDependencies : List Dependency → List Dependency → Bool
  | [], [] => true
  | d :: ds, e :: es =>
    d.path.same e.path && d.fingerprint == e.fingerprint && sameDependencies ds es
  | _, _ => false

/-- Whether a record still tells what the pass would find. -/
def isCurrent (store : Store) (unit : SourceUnit) (signature : String) (r : Record) : Bool :=
  r.format == layout && r.unit.same unit.path && r.signature == signature &&
    r.checkerVersion == store.tag && r.fingerprint == unit.fingerprint &&
    sameDependencies r.dependencies unit.dependencies

/-- The record of a unit under a configuration. One that cannot be read or is out of date does not
count. -/
def lookup (store : Store) (tree : FileTree) (unit : SourceUnit) (signature : String) :
    Option Record := do
  let bytes ← (tree.read (store.recordPath unit.path signature)).toOption
  let r ← Record.decode? bytes
  if store.isCurrent unit signature r then some r else none

/-- The record for the result of a pass. -/
def record (store : Store) (unit : SourceUnit) (signature : String) (analysis : Checker.Analysis) :
    Record where
  unit := unit.path
  signature
  fingerprint := unit.fingerprint
  dependencies := unit.dependencies
  checkerVersion := store.tag
  findings := analysis.findings
  facts := analysis.facts

/-- The file that a record is written to before it takes its place. -/
def temporaryPath (store : Store) (ticket : Ticket) : Path :=
  store.directory.join ⟨ticket.fileName⟩

/-- Stores the result of a pass in place of an earlier one. -/
def save (store : Store) (tree : FileTree) (unit : SourceUnit) (signature : String)
    (analysis : Checker.Analysis) (ticket : Ticket := {}) : Except StoreError FileTree :=
  let path := store.recordPath unit.path signature
  match tree.createDirectories store.directory with
  | .error failure => .error (.createDirectory store.directory failure)
  | .ok tree =>
    match tree.replaceFile (store.temporaryPath ticket) path
        (store.record unit signature analysis).encode with
    | .error failure => .error (.write path failure)
    | .ok tree => .ok tree

/-- The files after the result of a pass was stored, or could not be. -/
def keep (store : Store) (tree : FileTree) (unit : SourceUnit) (signature : String)
    (analysis : Checker.Analysis) (ticket : Ticket) : FileTree :=
  match store.save tree unit signature analysis ticket with
  | .ok tree => tree
  | .error e => e.tree

end Store

end MacroSweep.Cache
