import MacroSweep.Proofs.Schedules
import Mathlib.Algebra.BigOperators.Group.List.Basic

/-! What a report counts. Whatever order the workers take their steps in, each configuration is
counted as a hit or as a miss. -/
namespace MacroSweep.Run

variable {plan : Plan} {tree tree' : FileTree} {units : List SourceUnit} {files : List Path}
  {w w' : Worker} {s : Stage} {report : Report}

/-- One if a pass was begun that is not yet counted as done. -/
def Phase.begun : Phase → Nat
  | .ready => 0
  | .missed | .analyzed _ => 1

/-- Whether each configuration that a worker is through with is a hit or a miss. -/
def Worker.Counted (w : Worker) : Prop :=
  w.outcome.hits + w.outcome.misses + w.todo.length = w.outcome.configurations + w.phase.begun

theorem Worker.Counted.step (h : w.Counted) (hstep : Worker.Step plan tree w tree' w') :
    w'.Counted := by
  unfold Counted at h ⊢
  cases hstep with
  | hit hphase htodo _ =>
    simp only [htodo, hphase, List.length_cons, Outcome.add] at h ⊢
    omega
  | miss hphase htodo _ =>
    simp only [hphase, Phase.begun] at h ⊢
    omega
  | analyze hphase _ =>
    simp only [hphase, Phase.begun] at h ⊢
    omega
  | keep hphase htodo =>
    simp only [htodo, hphase, List.length_cons, Outcome.add, Phase.begun] at h ⊢
    omega
  | fail hphase htodo =>
    simp only [htodo, hphase, List.length_cons, Outcome.add, Phase.begun] at h ⊢
    omega

theorem invariant_counted (plan : Plan) (units : List SourceUnit) :
    Worker.Invariant plan units fun _ w => w.Counted where
  step _ h hstep := h.step hstep
  other _ _ _ h _ _ := h
  told h := h

namespace Stage

theorem counted_of_run (hnodup : units.Nodup)
    (hrun : Relation.ReflTransGen (Step plan) (.start plan tree units) s) :
    s.Sound units fun _ w => w.Counted :=
  sound_of_run (invariant_counted plan units) hnodup
    (fun unit _ => by simp [fresh, Worker.Counted, Phase.begun]) hrun

/-- When all workers are through, each configuration is a hit or a miss. -/
theorem Sound.hits_add_misses (h : s.Sound units fun _ w => w.Counted)
    (htold : ∀ w ∈ s.workers, w.told = true) :
    s.progress.hits + s.progress.misses = s.progress.configurations := by
  simp only [progress, ← List.sum_map_add]
  refine congrArg List.sum (List.map_congr_left fun w hw => ?_)
  obtain ⟨hphase, htodo⟩ := h.through w hw (htold w hw)
  have hcount := h.holds w hw
  rw [Worker.Counted, hphase, htodo] at hcount
  exact hcount

end Stage

/-- Whatever order the workers take their steps in, each configuration is a hit or a miss. -/
theorem hits_add_misses_of_gives (h : plan.Gives tree files (.ok report)) :
    report.cacheHits + report.cacheMisses = report.configurationsChecked := by
  generalize hresult : Except.ok report = result at h
  cases h with
  | noUnits => cases hresult
  | report _ hrun htold =>
    have hs := Stage.counted_of_run (SourceUnit.nodup_loadAll _ _ _) hrun
    obtain rfl := Except.ok.inj (hresult.trans (hs.report_eq_ok htold plan))
    exact hs.hits_add_misses htold

theorem gives_of_run_eq_ok (h : plan.run tree files = .ok (report, tree')) :
    plan.Gives tree files (.ok report) := by
  have hgives := plan.gives_run tree files
  rwa [h] at hgives

end MacroSweep.Run
