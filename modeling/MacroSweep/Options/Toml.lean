import MacroSweep.Options.Basic
import MacroSweep.Toml.Reader
import MacroSweep.Toml.Record

/-! Options in a TOML file. Missing options have their defaults, and unknown ones are ignored. -/
namespace MacroSweep

open Toml Value

def pathOf? (v : Value) : Option Path := (string? v).map Path.mk

def SuppressionOptions.ofToml? (v : Value) : Option SuppressionOptions := do
  match ← record? ["rules", "files", "xml", "inline", "report_unused"] v with
  | [rules, files, documents, inline, reportUnused] =>
    return {
      rules := ← orDefault [] (list? string?) rules
      lists := ← orDefault [] (list? pathOf?) files
      documents := ← orDefault [] (list? pathOf?) documents
      inline := ← orDefault false boolean? inline
      reportUnused := ← orDefault false boolean? reportUnused }
  | _ => none

namespace Options

/-- The names of the options on what is checked and how. -/
def analyzerNames : List String :=
  ["exclude", "extensions", "respect_gitignore", "include_paths", "defines", "undefines", "force",
    "max_configs", "jobs", "build_dir", "check_level", "max_if_count", "template_recursion"]

/-- Reads the options on what is checked and how. -/
def ofAnalyzer? (v : Value) : Option Options := do
  let default : Options := {}
  match ← record? analyzerNames v with
  | [exclude, extensions, respectGitignore, includePaths, defines, undefines, force, maxConfigs,
      jobs, buildDir, level, maxIfCount, templateRecursion] =>
    return {
      filter := {
        exclude := ← orDefault [] (list? string?) exclude
        extensions := ← orDefault default.filter.extensions (list? string?) extensions
        respectGitignore := ← orDefault true boolean? respectGitignore }
      includePaths := ← orDefault [] (list? pathOf?) includePaths
      defines := ← orDefault [] (list? string?) defines
      undefines := ← orDefault [] (list? string?) undefines
      force := ← orDefault false boolean? force
      maxConfigs := ← orDefault none (fun v => (natural? v).map some) maxConfigs
      jobs := ← orDefault none (fun v => (natural? v).map some) jobs
      buildDir := ← orDefault none (fun v => (pathOf? v).map some) buildDir
      checker := {
        level := ← orDefault .normal (fun v => (variant? v).bind Checker.Level.ofName?) level
        maxIfCount := ← orDefault default.checker.maxIfCount natural? maxIfCount
        templateRecursion :=
          ← orDefault default.checker.templateRecursion natural? templateRecursion } }
  | _ => none

def ofToml? (v : Value) : Option Options := do
  match ← record? ["fail_on", "analyzer", "suppressions"] v with
  | [failOn, analyzer, suppressions] =>
    return {
      ← orDefault {} ofAnalyzer? analyzer with
      failOn := ← orDefault none
        (fun v => ((variant? v).bind Severity.ofName?).map some) failOn
      suppressions := ← orDefault {} SuppressionOptions.ofToml? suppressions }
  | _ => none

/-- Reads the text of an options file. -/
def parse? (text : List Char) : Option Options := do ofToml? (← Toml.parse? text)

/-- Why options cannot be taken from a file. -/
inductive Error where
  | unreadable (path : Path) (cause : FileError)
  | malformed
  deriving DecidableEq, Repr

/-- The text of an error, and of what caused it. -/
def Error.messages : Error → List String
  | unreadable path cause =>
    [s!"Failed to read config file {path.text}: {cause.message}", cause.message]
  | malformed => ["Failed to parse config: the file holds no valid options"]

/-- Reads an options file. -/
def ofFile (tree : FileTree) (path : Path) : Except Error Options :=
  match tree.readText path with
  | .error cause => .error (.unreadable path cause)
  | .ok text =>
    match parse? text with
    | some o => .ok o
    | none => .error .malformed

end Options

end MacroSweep
