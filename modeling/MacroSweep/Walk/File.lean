import MacroSweep.Checker.Basic
import MacroSweep.Condition.Value
import MacroSweep.Walk.Definition
import MacroSweep.Walk.Group

/-! The walk through a unit: its lines in order, with included files in place of the directives
that include them. -/
namespace MacroSweep.Walk

open Checker Condition Source Text

/-- How many files may include one another before no further one is entered. -/
def maxIncludes : Nat := 200

/-- The macros defined so far, and what was found. -/
structure State where
  macros : MacroTable := ∅
  findings : List Finding := []
  facts : Program.Facts := {}

namespace State

def report (s : State) (f : Finding) : State := { s with findings := s.findings ++ [f] }

def reference (s : State) (names : List String) : State :=
  { s with facts := names.foldl .reference s.facts }

/-- Reports something ill-formed. -/
def syntaxError (s : State) (location : Location) (message : String) : State :=
  s.report { id := "syntaxError", severity := .error, location, message }

end State

/-- Whether the code of a line goes on in the next. -/
def isContinued (line : Line) : Bool := (trimEnd line.code).getLast? == some '\\'

/-- The lines to act on, each with the directive that starts there. Lines that continue another are
left out, and a directive waits until its line comes. -/
def dispatch (continued : Bool) : List Line → List Directive → List (Line × Option Directive)
  | [], _ => []
  | line :: lines, directives =>
    if continued then dispatch (isContinued line) lines directives
    else
      match directives with
      | d :: rest =>
        if d.line = line.number then (line, some d) :: dispatch (isContinued line) lines rest
        else (line, none) :: dispatch (isContinued line) lines directives
      | [] => (line, none) :: dispatch (isContinued line) lines []

/-- The column of the first character of a line, counted in bytes. -/
def column (line : Line) : Nat := byteLength (line.code.takeWhile isBlank) + 1

/-- What a directive does. -/
inductive Action where
  | opening
  | elif
  | otherwise
  | endif
  | define
  | undef
  | error
  | enter
  | other
  deriving DecidableEq, Repr

def Action.ofKeyword : String → Action
  | "if" | "ifdef" | "ifndef" => opening
  | "elif" => elif
  | "else" => otherwise
  | "endif" => endif
  | "define" => define
  | "undef" => undef
  | "error" => error
  | "include" => enter
  | _ => other

/-- Whether a directive asks if one macro is defined. -/
def asksName (d : Directive) : Bool := d.keyword == "ifdef" || d.keyword == "ifndef"

/-- The names a condition asks about. -/
def conditionUses (d : Directive) : List String :=
  if asksName d then (leadingIdentifier? d.rest).toList else conditionNames d.rest

/-- Whether a condition holds, or why it has no value. -/
def holds (macros : MacroTable) (d : Directive) : Except Condition.Error Bool :=
  if asksName d then
    let defined := macros.contains ((leadingIdentifier? d.rest).getD "")
    .ok (if d.keyword == "ifdef" then defined else !defined)
  else (evaluate macros d.rest).map (· != 0)

/-- Decides a condition; one without a value does not hold and is reported. -/
def decideCondition (s : State) (d : Directive) (location : Location) : Bool × State :=
  match holds s.macros d with
  | .ok b => (b, s)
  | .error e =>
    (false, s.syntaxError location s!"failed to evaluate #{d.keyword} condition: {e.message}")

/-- Acts on a macro definition. -/
def actDefine (s : State) (d : Directive) (location : Location) : State :=
  match Definition.parse d.rest with
  | .error e => s.syntaxError location e.message
  | .ok definition =>
    let used := s.reference definition.uses
    { used with
      facts := used.facts.define definition.name location
      macros := used.macros.insert definition.name definition.value }

def actUndef (s : State) (d : Directive) : State :=
  match leadingIdentifier? d.rest with
  | some name => { s with macros := s.macros.erase name }
  | none => s

/-- Reports an error directive that is reached. -/
def actError (s : State) (d : Directive) (location : Location) : State :=
  s.report {
    id := "preprocessorErrorDirective"
    severity := .error
    location
    message := if d.rest.isEmpty then "#error" else s!"#error {String.ofList d.rest}" }

/-- The dependency an include directive leads to: the file beside the including one, or the first
whose path ends in the name given. -/
def resolve? (dependencies : List Dependency) (source : Path) (d : Directive) : Option Path := do
  let (target, system) ← includeTarget? d.rest
  let beside := (source.directory.join ⟨target⟩).normalize
  let sibling := if system then none else dependencies.find? (·.path.same beside)
  let found ← sibling <|> dependencies.find? (·.path.endsWith ⟨target⟩)
  return found.path

/-- The walk within one file: its open groups, the innermost first, how many groups were opened,
and whether the limit on them was reported. -/
structure Position where
  groups : List Group := []
  opened : Nat := 0
  limited : Bool := false
  state : State

namespace Position

def isActive (p : Position) : Bool := Group.allActive p.groups

/-- The finding for groups beyond the limit. -/
def limitFinding (location : Location) : Finding where
  id := "normalCheckLevelMaxBranches"
  severity := .information
  location
  message :=
    "Limiting analysis of branches. Use --check-level=exhaustive to analyze all branches."

/-- Whether a group with the given number is beyond the limit. -/
def isBeyond (settings : Settings) (number : Nat) : Bool :=
  settings.maxIfCount < number && settings.level != .exhaustive

/-- Reports the limit where the first active group is beyond it. -/
def noteLimit (p : Position) (beyond : Bool) (location : Location) : Position :=
  if beyond && !p.limited && p.isActive then
    { p with limited := true, state := p.state.report (limitFinding location) }
  else p

/-- Opens a group. -/
def openGroup (settings : Settings) (p : Position) (d : Directive) (location : Location) :
    Position :=
  let number := p.opened + 1
  let beyond := isBeyond settings number
  let p := { p with opened := number, state := p.state.reference (conditionUses d) }
  let p := p.noteLimit beyond location
  let reached := p.isActive && !beyond
  let (taken, state) := if reached then decideCondition p.state d location else (false, p.state)
  { p with groups := .start d.keyword location.line reached taken :: p.groups, state }

/-- Reports a directive that does not nest. -/
def misplaced (p : Position) (location : Location) (e : NestingError) : Position :=
  { p with state := p.state.syntaxError location e.message }

/-- Goes to a branch with a condition, which is looked at if no earlier branch was taken. -/
def nextBranch (p : Position) (d : Directive) (location : Location) : Position :=
  let p := { p with state := p.state.reference (conditionUses d) }
  match p.groups with
  | [] => p.misplaced location .elifWithoutIf
  | g :: groups =>
    if g.seenElse then p.misplaced location .elifAfterElse
    else
      let (taken, state) :=
        if g.awaits then decideCondition p.state d location else (false, p.state)
      { p with groups := g.branch taken :: groups, state }

/-- Goes to the last branch. -/
def lastBranch (p : Position) (location : Location) : Position :=
  match p.groups with
  | [] => p.misplaced location .elseWithoutIf
  | g :: groups =>
    if g.seenElse then p.misplaced location .elseAfterElse
    else { p with groups := g.otherwise :: groups }

/-- Closes the innermost group. -/
def closeGroup (p : Position) (location : Location) : Position :=
  match p.groups with
  | [] => p.misplaced location .endifWithoutIf
  | _ :: groups => { p with groups }

/-- Acts on a directive. Files are entered by `enter`. -/
def act (pass : Pass) (enter : Path → State → Except Failure State) (path : Path) (p : Position)
    (d : Directive) (location : Location) : Except Failure Position :=
  match Action.ofKeyword d.keyword with
  | .opening => .ok (p.openGroup pass.settings d location)
  | .elif => .ok (p.nextBranch d location)
  | .otherwise => .ok (p.lastBranch location)
  | .endif => .ok (p.closeGroup location)
  | action =>
    if p.isActive then
      match action with
      | .define => .ok { p with state := actDefine p.state d location }
      | .undef => .ok { p with state := actUndef p.state d }
      | .error => .ok { p with state := actError p.state d location }
      | .enter =>
        match if pass.settings.level = .reduced then none
          else resolve? pass.unit.dependencies path d with
        | some target => do return { p with state := ← enter target p.state }
        | none => .ok p
      | _ => .ok p
    else .ok p

/-- Acts on a line: on its directive, or else on the names in its code. -/
def step (pass : Pass) (enter : Path → State → Except Failure State) (path : Path) (p : Position)
    (item : Line × Option Directive) : Except Failure Position :=
  match item with
  | (line, some d) => p.act pass enter path d ⟨path, line.number, column line⟩
  | (line, none) =>
    .ok (if p.isActive then { p with state := p.state.reference (codeNames line.code) } else p)

/-- Reports the groups that are still open, the outermost first. -/
def finish (path : Path) (p : Position) : State :=
  p.groups.reverse.foldl (fun s g =>
    s.syntaxError ⟨path, g.line, 1⟩ (NestingError.unterminated g.keyword).message) p.state

end Position

/-- Walks a file, unless it is being walked already or `room` for open files has run out. -/
def walkFile (pass : Pass) : (room : Nat) → (stack : List Path) → Path → State →
    Except Failure State
  | 0, _, _, s => .ok s
  | room + 1, stack, path, s =>
    if stack.any path.same then .ok s
    else do
      let lines := sourceLines (← pass.read path)
      let items := dispatch false lines (directives lines)
      let p ← items.foldlM (Position.step pass (walkFile pass room (path :: stack)) path)
        { state := s }
      return p.finish path

/-- The macros that a configuration defines. -/
def initialMacros (c : Configuration) : MacroTable := c.defines.mapWithKey fun _ => .object

/-- Walks a unit. -/
def walkUnit (pass : Pass) : Except Failure State :=
  walkFile pass maxIncludes [] pass.unit.path { macros := initialMacros pass.configuration }

end MacroSweep.Walk
