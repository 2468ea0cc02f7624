import MacroSweep.Walk.File

/-! The checker of preprocessor directives. -/
namespace MacroSweep.Checker

/-- Reports reachable error directives, ill-formed directives, and macros that nothing uses. -/
def directives : Checker where
  name := "directives"
  version := "0.3.0"
  analyze pass guard := do
    let state ← Walk.walkUnit pass
    return ({ findings := state.findings, facts := state.facts }, guard)
  conclude := Program.Facts.unusedMacros

end MacroSweep.Checker
