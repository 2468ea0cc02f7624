import MacroSweep.Command.Format
import MacroSweep.Options.Basic

/-! What the command line can set. -/
namespace MacroSweep

open Text

/-- A change of options. -/
inductive Setting where
  | define (text : String)
  | undefine (name : String)
  | includePath (path : Path)
  | force
  | maxConfigs (n : Nat)
  | jobs (n : Nat)
  | buildDir (path : Path)
  | suppress (rule : String)
  | suppressionList (path : Path)
  | suppressionDocument (path : Path)
  | inlineMarkers
  | reportUnused
  | level (level : Checker.Level)
  | maxIfCount (n : Nat)
  | templateRecursion (n : Nat)
  | exclude (pattern : String)
  | failOn (severity : Severity)
  deriving DecidableEq, Repr

/-- Changes options: lists grow, and other values are replaced. -/
def Options.set (o : Options) : Setting → Options
  | .define text => { o with defines := o.defines ++ [text] }
  | .undefine name => { o with undefines := o.undefines ++ [name] }
  | .includePath path => { o with includePaths := o.includePaths ++ [path] }
  | .force => { o with force := true }
  | .maxConfigs n => { o with maxConfigs := some n }
  | .jobs n => { o with jobs := some n }
  | .buildDir path => { o with buildDir := some path }
  | .suppress rule =>
    { o with suppressions := { o.suppressions with rules := o.suppressions.rules ++ [rule] } }
  | .suppressionList path =>
    { o with suppressions := { o.suppressions with lists := o.suppressions.lists ++ [path] } }
  | .suppressionDocument path =>
    { o with
      suppressions := { o.suppressions with documents := o.suppressions.documents ++ [path] } }
  | .inlineMarkers => { o with suppressions := { o.suppressions with inline := true } }
  | .reportUnused => { o with suppressions := { o.suppressions with reportUnused := true } }
  | .level level => { o with checker := { o.checker with level } }
  | .maxIfCount n => { o with checker := { o.checker with maxIfCount := n } }
  | .templateRecursion n => { o with checker := { o.checker with templateRecursion := n } }
  | .exclude pattern =>
    { o with filter := { o.filter with exclude := o.filter.exclude ++ [pattern] } }
  | .failOn severity => { o with failOn := some severity }

namespace Command

/-- What a switch on the command line means. -/
inductive Effect where
  | set (s : Setting)
  | format (f : Format)
  | config (path : Path)
  | verbose
  | overwrite
  | help
  | version
  deriving DecidableEq, Repr

/-- Whether a switch takes a value, and how often it may be given. -/
inductive Form where
  | flag (e : Effect)
  | once (read : String → Option Effect)
  | many (read : String → Option Effect)

/-- A switch with its long name and perhaps a letter. -/
structure Switch where
  name : String
  letter : Option Char
  form : Form

def readPath (effect : Path → Effect) (text : String) : Option Effect :=
  if text = "" then none else some (effect ⟨text⟩)

def readNumber (setting : Nat → Setting) (text : String) : Option Effect :=
  (word? text.toList).map fun n => .set (setting n)

/-- The switches that stand before or after a command. -/
def sharedSwitches : List Switch := [
  ⟨"verbose", some 'v', .flag .verbose⟩,
  ⟨"config", some 'c', .once (readPath .config)⟩,
  ⟨"help", some 'h', .flag .help⟩]

/-- The switches that stand before a command. -/
def mainSwitches : List Switch := ⟨"version", some 'V', .flag .version⟩ :: sharedSwitches

/-- The switches of the command that checks. -/
def checkSwitches : List Switch := [
  ⟨"format", some 'f', .once fun text => (Format.ofName? text).map .format⟩,
  ⟨"define", some 'D', .many fun text => some (.set (.define text))⟩,
  ⟨"undefine", some 'U', .many fun text => some (.set (.undefine text))⟩,
  ⟨"include", some 'I', .many (readPath fun path => .set (.includePath path))⟩,
  ⟨"force", none, .flag (.set .force)⟩,
  ⟨"max-configs", none, .once (readNumber .maxConfigs)⟩,
  ⟨"jobs", some 'j', .once (readNumber .jobs)⟩,
  ⟨"build-dir", none, .once (readPath fun path => .set (.buildDir path))⟩,
  ⟨"suppress", none, .many fun text => some (.set (.suppress text))⟩,
  ⟨"suppressions-list", none, .many (readPath fun path => .set (.suppressionList path))⟩,
  ⟨"suppress-xml", none, .many (readPath fun path => .set (.suppressionDocument path))⟩,
  ⟨"inline-suppr", none, .flag (.set .inlineMarkers)⟩,
  ⟨"report-unused-suppressions", none, .flag (.set .reportUnused)⟩,
  ⟨"check-level", none, .once fun text =>
    (Checker.Level.ofName? text).map fun level => .set (.level level)⟩,
  ⟨"max-if-count", none, .once (readNumber .maxIfCount)⟩,
  ⟨"template-recursion", none, .once (readNumber .templateRecursion)⟩,
  ⟨"exclude", some 'e', .many fun text => some (.set (.exclude text))⟩,
  ⟨"fail-on", none, .once fun text =>
    (Severity.parse text).toOption.map fun severity => .set (.failOn severity)⟩] ++ sharedSwitches

/-- The switches of the command that writes an options file. -/
def initSwitches : List Switch := ⟨"force", none, .flag .overwrite⟩ :: sharedSwitches

end Command

end MacroSweep
