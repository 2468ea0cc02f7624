import MacroSweep.Checker.Directives
import MacroSweep.Command.Arguments
import MacroSweep.Ignore.UserFile
import MacroSweep.Options.Toml

/-! What the command line does. -/
namespace MacroSweep.Command

/-- What the surroundings of a command give: the directory of the options that all projects share,
the directory of the user, and the directory of the user's settings of all programs. -/
structure Environment where
  configDir : Option Path := none
  home : Option Path := none
  settingsDir : Option Path := none

/-- What a command leaves: its exit status, what it prints, and the files. -/
structure Outcome where
  exit : Nat
  stdout : String := ""
  stderr : String := ""
  tree : FileTree

/-- A failure, and what caused it, one cause behind the other. -/
structure Failure where
  message : String
  causes : List String := []
  deriving DecidableEq, Repr

/-- The text of a failure. Several causes are numbered. -/
def Failure.render (f : Failure) : String :=
  let causes := match f.causes with
    | [] => ""
    | [cause] => s!"\n\nCaused by:\n    {cause}"
    | causes => "\n\nCaused by:" ++
      String.join (causes.zipIdx.map fun (p : String × Nat) => s!"\n    {p.2}: {p.1}")
  s!"Error: {f.message}{causes}\n"

/-- The names an options file has in a project. -/
def projectFiles : List String := ["cfgcheck.toml", ".cfgcheck.toml"]

/-- The directory of the options that all projects share. -/
def Environment.sharedDirectory (env : Environment) : Option Path :=
  env.configDir <|> env.home.map (·.join ⟨".cfgcheck"⟩)

/-- The ignore file of the user, which counts in all repositories. -/
def Environment.ignoreFile (env : Environment) (tree : FileTree) (home : Path) : Path :=
  Ignore.userFile tree home (env.settingsDir.getD (home.join ⟨".config"⟩))

/-- The rules of the user on what all repositories ignore. -/
def Environment.userRules (env : Environment) (tree : FileTree) : List Ignore.Rule :=
  env.home.toList.flatMap fun home => Ignore.rulesAt tree (env.ignoreFile tree home)

/-- The options file of a run: the one that is named, else that of the project, else the one that
all projects share. -/
def optionsFile (env : Environment) (tree : FileTree) (project : Path) (named : Option Path) :
    Option Path :=
  named <|> (projectFiles.map fun name => project.join ⟨name⟩).find? tree.isFile <|>
    (env.sharedDirectory.map (·.join ⟨"config.toml"⟩)).filter tree.isFile

/-- Reads the options file, if there is one. -/
def loadOptions (tree : FileTree) : Option Path → Except Failure Options
  | none => .ok {}
  | some path =>
    match Options.ofFile tree path with
    | .ok o => .ok o
    | .error e => .error ⟨s!"Failed to load config: {path.text}", e.messages⟩

/-- The directory whose options file counts: the first input, if it is one. -/
def projectOf (tree : FileTree) : List Path → Path
  | input :: _ => if tree.isDirectory input then input else ⟨"."⟩
  | [] => ⟨"."⟩

/-- The options of a check: those of the options file, changed by the command line. -/
def effectiveOptions (env : Environment) (tree : FileTree) (inputs : List Path)
    (settings : List Setting) (config : Option Path) : Except Failure Options := do
  let file := optionsFile env tree (projectOf tree inputs) config
  return settings.foldl Options.set (← loadOptions tree file)

/-- Checks inputs. A report with a finding that is severe enough gives a failing status. -/
def check (env : Environment) (tree : FileTree) (inputs : List Path) (format : Format)
    (settings : List Setting) (config : Option Path) : Except Failure Outcome := do
  let options ← effectiveOptions env tree inputs settings config
  match Discovery.discover tree options.filter (env.userRules tree) inputs with
  | .error e => .error ⟨"Failed to collect input files", [e.message, e.detail]⟩
  | .ok files =>
    match (options.plan tree Checker.directives).run tree files with
    | .error e => .error ⟨"Analysis failed", [e.message]⟩
    | .ok (report, tree) =>
      .ok {
        exit := if report.reaches options.threshold then 1 else 0
        stdout := format.render report
        tree }

/-- The lines of the options file that is written for a new project. -/
def optionsTemplate : List String := [
  "# cfgcheck configuration",
  "",
  "# Lowest severity that makes `cfgcheck check` exit with status 1:",
  "# error, warning, style, performance, portability, information",
  "fail_on = \"error\"",
  "",
  "[analyzer]",
  "# Glob patterns of unit paths to skip",
  "exclude = [",
  "    \"**/build/**\",",
  "    \"**/third_party/**\",",
  "]",
  "",
  "# Extensions analyzed when walking directories",
  "# extensions = [\"c\", \"cc\", \"cpp\", \"cxx\", \"c++\", \"h\", \"hh\", \"hpp\", \"hxx\"]",
  "",
  "# Respect .gitignore files",
  "respect_gitignore = true",
  "",
  "# Include search directories (-I)",
  "# include_paths = [\"include\"]",
  "",
  "# Forced macro state (-D / -U). With defines and no max_configs only the",
  "# forced configuration is analyzed unless `force` is set.",
  "# defines = [\"DEBUG=1\"]",
  "# undefines = [\"NDEBUG\"]",
  "# force = false",
  "# max_configs = 12",
  "",
  "# Worker threads (default: available parallelism)",
  "# jobs = 4",
  "",
  "# Directory for the incremental analysis cache",
  "# build_dir = \".cfgcheck-cache\"",
  "",
  "# Checker knobs",
  "# check_level = \"normal\"    # reduced | normal | exhaustive",
  "# max_if_count = 100",
  "# template_recursion = 100",
  "",
  "[suppressions]",
  "# Rules in the `id[:file[:line]]` grammar",
  "# rules = [\"unusedMacro:src/legacy/*\"]",
  "",
  "# Plain-text and XML suppression files",
  "# files = [\"suppressions.txt\"]",
  "# xml = [\"suppressions.xml\"]",
  "",
  "# Honor `// cppcheck-suppress id` comments",
  "inline = false",
  "",
  "# Report suppressions that matched nothing",
  "report_unused = false"]

/-- Writes an options file; one that is there is kept unless it may be overwritten. -/
def init (tree : FileTree) (overwrite : Bool) : Except Failure Outcome :=
  let path : Path := ⟨"cfgcheck.toml"⟩
  if (tree.lookup path).toBool && !overwrite then
    .error ⟨s!"Configuration file already exists at {path.text}. Use --force to overwrite.", []⟩
  else
    match tree.write path (Text.encode (String.join (optionsTemplate.map (· ++ "\n"))).toList) with
    | .error cause => .error ⟨s!"Failed to write {path.text}", [cause.message]⟩
    | .ok tree =>
      .ok {
        exit := 0
        stdout := "Created cfgcheck.toml\n\nNext steps:\n" ++
          "  1. Edit cfgcheck.toml to configure the analysis\n  2. Run: cfgcheck check\n"
        tree }

/-- How the program is called. -/
def usageText : String :=
  "Usage: cfgcheck [-v] [-c FILE] check [OPTIONS] [PATH]...\n       cfgcheck init [--force]\n"

/-- Runs the command line on a tree of files. -/
def run (env : Environment) (tree : FileTree) (args : List String) : Outcome :=
  match parse args with
  | .error .usage => { exit := 2, stderr := usageText, tree }
  | .error .help => { exit := 0, stdout := usageText, tree }
  | .error .version => { exit := 0, stdout := "cfgcheck 0.3.0\n", tree }
  | .ok request =>
    let result := match request with
      | .check inputs format settings config => check env tree inputs format settings config
      | .init overwrite => init tree overwrite
    match result with
    | .ok outcome => outcome
    | .error failure => { exit := 1, stderr := failure.render, tree }

end MacroSweep.Command
