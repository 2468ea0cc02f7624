/-! How thorough a check is. -/
namespace MacroSweep.Checker

inductive Level where
  | reduced
  | normal
  | exhaustive
  deriving DecidableEq, Repr

namespace Level

def name : Level → String
  | reduced => "reduced"
  | normal => "normal"
  | exhaustive => "exhaustive"

def ofName? : String → Option Level
  | "reduced" => some reduced
  | "normal" => some normal
  | "exhaustive" => some exhaustive
  | _ => none

/-- Reads the name of a level, or says what is wrong with it. -/
def parse (text : String) : Except String Level :=
  match ofName? text with
  | some level => .ok level
  | none => .error s!"unknown check level `{text}`, expected reduced, normal, or exhaustive"

end Level

/-- The settings every pass of a run has. -/
structure Settings where
  level : Level := .normal
  maxIfCount : Nat := 100
  templateRecursion : Nat := 100
  deriving DecidableEq, Repr

end MacroSweep.Checker
