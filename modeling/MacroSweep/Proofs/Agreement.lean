import MacroSweep.Checker.Directives
import Mathlib.Tactic.SplitIfs

/-! What a pass depends on: two passes that agree on the settings, on the files of the unit and on
the definitions give the same. -/
namespace MacroSweep.Walk

open Checker Source

/-- Whether two passes see the same. -/
structure Agree (a b : Pass) : Prop where
  settings : a.settings = b.settings
  path : a.unit.path = b.unit.path
  dependencies : a.unit.dependencies = b.unit.dependencies
  reads : ∀ p ∈ a.unit.files, a.tree.read p = b.tree.read p
  defines : a.configuration.defines = b.configuration.defines

variable {a b : Pass} {enter enter' : Path → State → Except Failure State} {path target : Path}

theorem mem_of_resolve? {dependencies : List Dependency} {d : Directive}
    (h : resolve? dependencies path d = some target) : target ∈ dependencies.map (·.path) := by
  simp only [resolve?, Option.bind_eq_bind, Option.bind_eq_some_iff] at h
  obtain ⟨⟨name, system⟩, -, d, hd, htarget⟩ := h
  cases htarget
  apply List.mem_map_of_mem
  rw [Option.orElse_eq_orElse, Option.orElse_eq_or] at hd
  rcases Option.or_eq_some_iff.mp hd with hbeside | ⟨-, hends⟩
  · split_ifs at hbeside
    exact List.mem_of_find?_eq_some hbeside
  · exact List.mem_of_find?_eq_some hends

/-- A step does the same if it enters included files the same way. -/
theorem Agree.step (h : Agree a b)
    (henter : ∀ target ∈ a.unit.dependencies.map (·.path), ∀ s, enter target s = enter' target s)
    (p : Position) (item : Line × Option Directive) :
    p.step a enter path item = p.step b enter' path item := by
  obtain ⟨line, directive⟩ := item
  cases directive with
  | none => rfl
  | some d =>
    simp only [Position.step, Position.act, ← h.settings, ← h.dependencies]
    cases Action.ofKeyword d.keyword with
    | enter =>
      cases hfound : (if a.settings.level = .reduced then none
        else resolve? a.unit.dependencies path d) with
      | none => rfl
      | some target =>
        have hmem : target ∈ a.unit.dependencies.map (·.path) := by
          split_ifs at hfound
          exact mem_of_resolve? hfound
        simp only [henter target hmem]
    | _ => rfl

theorem Agree.walkFile (h : Agree a b) {room : Nat} {stack : List Path} (hp : path ∈ a.unit.files)
    (s : State) : Walk.walkFile a room stack path s = Walk.walkFile b room stack path s := by
  induction room generalizing stack path s with
  | zero => rfl
  | succ room ih =>
    rw [Walk.walkFile, Walk.walkFile]
    split
    · rfl
    · have hread : a.read path = b.read path := by
        rw [Pass.read, Pass.read, h.reads path hp]
      have hstep : Position.step a (Walk.walkFile a room (path :: stack)) path =
          Position.step b (Walk.walkFile b room (path :: stack)) path := by
        funext p item
        exact h.step (fun target ht s => ih (List.mem_cons_of_mem _ ht) s) p item
      rw [hread, hstep]

end MacroSweep.Walk

namespace MacroSweep.Checker

/-- Passes that see the same find the same. -/
theorem run_directives_congr {a b : Pass} (h : Walk.Agree a b) :
    directives.run a = directives.run b := by
  have hwalk : Walk.walkUnit a = Walk.walkUnit b := by
    rw [Walk.walkUnit, Walk.walkUnit, h.walkFile List.mem_cons_self, h.path, Walk.initialMacros,
      Walk.initialMacros, h.defines]
  simp only [run, directives, hwalk, h.settings]

end MacroSweep.Checker
