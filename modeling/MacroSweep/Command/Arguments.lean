import MacroSweep.Command.Switch

/-! Reading the command line. -/
namespace MacroSweep.Command

open Text

/-- Why arguments are not read to their end: they are wrong, or ask for a text only. -/
inductive Stop where
  | usage
  | help
  | version
  deriving DecidableEq, Repr

/-- What was read of arguments: the effects of switches, the names of those that may not be given
again, and the other arguments. -/
structure Reading where
  effects : List Effect := []
  given : List String := []
  operands : List String := []

namespace Reading

/-- Adds the effect of a switch that may be given once. -/
def addOnce (r : Reading) (name : String) (e : Effect) : Except Stop Reading :=
  if r.given.contains name then .error .usage
  else .ok { r with effects := r.effects ++ [e], given := name :: r.given }

/-- Adds a flag. -/
def addFlag (r : Reading) (name : String) (e : Effect) : Except Stop Reading :=
  match e with
  | .help => .error .help
  | .version => .error .version
  | e => r.addOnce name e

/-- Adds a switch with its value. -/
def addValue (r : Reading) (s : Switch) (value : String) : Except Stop Reading :=
  match s.form with
  | .flag _ => .error .usage
  | .once read =>
    match read value with
    | some e => r.addOnce s.name e
    | none => .error .usage
  | .many read =>
    match read value with
    | some e => .ok { r with effects := r.effects ++ [e] }
    | none => .error .usage

end Reading

/-- Whether an argument can only be a switch. -/
def looksLikeSwitch (text : List Char) : Bool := text.head? == some '-' && text.length != 1

/-- What an argument with switches leaves: nothing, or a switch whose value is the next argument. -/
abbrev Open := Option Switch

/-- Reads a switch by its long name, with its value after a sign of equality. -/
def readName (switches : List Switch) (r : Reading) (text : List Char) :
    Except Stop (Reading × Open) :=
  let (name, value?) := match cutAt? (· == '=') text with
    | some (name, value) => (name, some (String.ofList value))
    | none => (text, none)
  match switches.find? (·.name == String.ofList name), value? with
  | none, _ => .error .usage
  | some s, some value => do return (← r.addValue s value, none)
  | some s, none =>
    match s.form with
    | .flag e => do return (← r.addFlag s.name e, none)
    | _ => .ok (r, some s)

/-- Reads switches by their letters. After the letter of a switch with a value comes the value, with
or without a sign of equality. -/
def readLetters (switches : List Switch) (r : Reading) : List Char → Except Stop (Reading × Open)
  | [] => .ok (r, none)
  | c :: cs =>
    match switches.find? (·.letter == some c) with
    | none => .error .usage
    | some s =>
      match s.form, cs with
      | .flag e, cs => do readLetters switches (← r.addFlag s.name e) cs
      | _, [] => .ok (r, some s)
      | _, '=' :: value => do return (← r.addValue s (String.ofList value), none)
      | _, value => do return (← r.addValue s (String.ofList value), none)

/-- Reads an argument that looks like switches. -/
def readSwitches (switches : List Switch) (r : Reading) (text : List Char) :
    Except Stop (Reading × Open) :=
  match text with
  | '-' :: '-' :: name => readName switches r name
  | _ => readLetters switches r text.tail

/-- Reads the arguments of a command. Two dashes end the switches. -/
def readArguments (switches : List Switch) (r : Reading) : List String → Except Stop Reading
  | [] => .ok r
  | arg :: args =>
    if arg = "--" then .ok { r with operands := r.operands ++ args }
    else if looksLikeSwitch arg.toList then do
      match ← readSwitches switches r arg.toList with
      | (r, none) => readArguments switches r args
      | (r, some s) =>
        match args with
        | [] => .error .usage
        | value :: args =>
          if looksLikeSwitch value.toList then .error .usage
          else readArguments switches (← r.addValue s value) args
    else readArguments switches { r with operands := r.operands ++ [arg] } args

/-- Reads the switches before a command; the first other argument names it. -/
def readCommand (r : Reading) : List String → Except Stop (Reading × String × List String)
  | [] => .error .usage
  | arg :: args =>
    if arg = "--" then .error .usage
    else if looksLikeSwitch arg.toList then do
      match ← readSwitches mainSwitches r arg.toList with
      | (r, none) => readCommand r args
      | (r, some s) =>
        match args with
        | [] => .error .usage
        | value :: args =>
          if looksLikeSwitch value.toList then .error .usage
          else readCommand (← r.addValue s value) args
    else .ok (r, arg, args)

/-- What the command line asks for. -/
inductive Request where
  | check (inputs : List Path) (format : Format) (settings : List Setting) (config : Option Path)
  | init (overwrite : Bool)
  deriving DecidableEq, Repr

/-- The options file that switches name; one named after the command wins. -/
def configOf (effects : List Effect) : Option Path :=
  effects.foldl (fun config e =>
    match e with
    | .config path => some path
    | _ => config) none

def formatOf (effects : List Effect) : Format :=
  effects.foldl (fun format e =>
    match e with
    | .format f => f
    | _ => format) .text

def settingsOf (effects : List Effect) : List Setting :=
  effects.filterMap fun e =>
    match e with
    | .set s => some s
    | _ => none

/-- The request to check inputs, which is the working directory if none is given. -/
def checkRequest (effects : List Effect) (operands : List String) : Except Stop Request :=
  if operands.contains "" then .error .usage
  else
    let inputs := if operands.isEmpty then ["."] else operands
    .ok (.check (inputs.map Path.mk) (formatOf effects) (settingsOf effects) (configOf effects))

/-- Reads the command line. -/
def parse (args : List String) : Except Stop Request := do
  let (before, name, args) ← readCommand {} args
  match name with
  | "check" =>
    let after ← readArguments checkSwitches {} args
    checkRequest (before.effects ++ after.effects) after.operands
  | "init" =>
    let after ← readArguments initSwitches {} args
    if after.operands.isEmpty then .ok (.init (after.effects.contains .overwrite))
    else .error .usage
  | "help" => .error .help
  | _ => .error .usage

end MacroSweep.Command
