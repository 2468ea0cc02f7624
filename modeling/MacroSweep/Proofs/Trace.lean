import MacroSweep.Proofs.Nesting

/-! The walk of a file with a record of what it does: which lines it acts on and which branches it
takes. -/
namespace MacroSweep.Walk

open Checker Source

/-- What the walk of a file does at a line: whether it acts on it, or whether it takes the branch of
a group that starts there. A group is told by the line that opens it. -/
inductive Event where
  | line (number : Nat) (acted : Bool)
  | branch (group : Nat) (taken : Bool)
  deriving DecidableEq, Repr

/-- A part of a walk that may fail, with what it did up to then. -/
abbrev Traced := ExceptT Failure (StateM (List Event))

namespace Traced

variable {α β : Type}

def note (e : Event) : Traced Unit := modify (· ++ [e])

def attempt (r : Except Failure α) : Traced α := ExceptT.mk (pure r)

/-- What comes out, if the events before are `log`, and the events then. -/
def runFrom (m : Traced α) (log : List Event) : Except Failure α × List Event := m.run.run log

def result (m : Traced α) : Except Failure α := (m.runFrom []).1

def events (m : Traced α) : List Event := (m.runFrom []).2

theorem attempt_ok (a : α) : attempt (.ok a) = pure a := rfl

theorem attempt_map (f : α → β) (r : Except Failure α) :
    attempt (f <$> r) = f <$> attempt r := by
  cases r <;> rfl

theorem runFrom_bind (m : Traced α) (f : α → Traced β) (log : List Event) :
    (m >>= f).runFrom log =
      match m.runFrom log with
      | (.ok a, log') => (f a).runFrom log'
      | (.error e, log') => (.error e, log') := by
  change (ExceptT.bindCont f (m.runFrom log).1).run (m.runFrom log).2 = _
  obtain ⟨r, log'⟩ := m.runFrom log
  cases r <;> rfl

theorem runFrom_map (f : α → β) (m : Traced α) (log : List Event) :
    (f <$> m).runFrom log = (f <$> (m.runFrom log).1, (m.runFrom log).2) := by
  rw [map_eq_pure_bind, runFrom_bind]
  obtain ⟨r, log'⟩ := m.runFrom log
  cases r <;> rfl

theorem result_map (f : α → β) (m : Traced α) : (f <$> m).result = f <$> m.result := by
  rw [result, runFrom_map, result]

theorem events_map (f : α → β) (m : Traced α) : (f <$> m).events = m.events := by
  rw [events, runFrom_map, events]

/-- Whether `r` comes out of a part of a walk, whatever was done before. -/
def Yields (m : Traced α) (r : Except Failure α) : Prop := ∀ log, (m.runFrom log).1 = r

theorem yields_attempt (r : Except Failure α) : (attempt r).Yields r := fun _ => rfl

theorem yields_note (e : Event) : (note e).Yields (.ok ()) := fun _ => rfl

theorem Yields.bind {m : Traced α} {r : Except Failure α} {f : α → Traced β}
    {g : α → Except Failure β} (hm : m.Yields r) (hf : ∀ a, (f a).Yields (g a)) :
    (m >>= f).Yields (r >>= g) := by
  intro log
  have hr := hm log
  rw [runFrom_bind]
  cases h : m.runFrom log with
  | mk r' log' =>
    rw [h] at hr
    subst hr
    cases r' with
    | ok a => exact hf a log'
    | error e => rfl

/-- Whether part of a walk takes at most so many branches of a group. -/
def TakesAtMost (m : Traced α) (group bound : Nat) : Prop :=
  ∀ log, (m.runFrom log).2.count (.branch group true) ≤ log.count (.branch group true) + bound

variable {group : Nat}

theorem takesAtMost_pure (a : α) : (pure a : Traced α).TakesAtMost group 0 := fun _ => Nat.le_refl _

theorem takesAtMost_attempt (r : Except Failure α) : (attempt r).TakesAtMost group 0 :=
  fun _ => Nat.le_refl _

theorem takesAtMost_note (e : Event) (group : Nat) :
    (note e).TakesAtMost group (if e = .branch group true then 1 else 0) := by
  intro log
  have h : ((note e).runFrom log).2 = log ++ [e] := rfl
  rw [h, List.count_append, List.count_singleton]
  simp

theorem TakesAtMost.bind {m : Traced α} {f : α → Traced β} {j k : Nat}
    (hm : m.TakesAtMost group j) (hf : ∀ a, (f a).TakesAtMost group k) :
    (m >>= f).TakesAtMost group (j + k) := by
  intro log
  have hj := hm log
  rw [runFrom_bind]
  cases h : m.runFrom log with
  | mk r log' =>
    rw [h] at hj
    cases r with
    | ok a =>
      have hk := hf a log'
      dsimp only at hj ⊢
      omega
    | error e =>
      dsimp only at hj ⊢
      omega

theorem TakesAtMost.mono {m : Traced α} {j k : Nat} (hm : m.TakesAtMost group j) (h : j ≤ k) :
    m.TakesAtMost group k :=
  fun log => Nat.le_trans (hm log) (by omega)

end Traced

open Traced

/-- The event of a line where a branch starts: whether the innermost group takes it. -/
def branchEvent (p : Position) : Option Event := p.groups.head?.map fun g => .branch g.line g.active

/-- A step of the walk, traced. -/
def Position.tracedStep (pass : Pass) (enter : Path → State → Except Failure State) (path : Path)
    (p : Position) (item : Item) : Traced Position :=
  match item.2.map fun d => Action.ofKeyword d.keyword with
  | some .opening | some .elif | some .otherwise => do
    let q ← attempt (p.step pass enter path item)
    (branchEvent q).forM note
    return q
  | some .endif => attempt (p.step pass enter path item)
  | _ => do
    note (.line item.1.number p.isActive)
    attempt (p.step pass enter path item)

variable {pass : Pass} {enter : Path → State → Except Failure State} {path : Path}

theorem yields_branchEvent (p : Position) :
    (do (branchEvent p).forM note; return p : Traced Position).Yields (.ok p) := by
  intro log
  cases h : branchEvent p <;> rfl

theorem yields_tracedStep (p : Position) (item : Item) :
    (p.tracedStep pass enter path item).Yields (p.step pass enter path item) := by
  have hbranch := (yields_attempt (p.step pass enter path item)).bind yields_branchEvent
  rw [show p.step pass enter path item >>= Except.ok = p.step pass enter path item from
    bind_pure _] at hbranch
  rw [Position.tracedStep]
  split
  · exact hbranch
  · exact hbranch
  · exact hbranch
  · exact yields_attempt _
  · exact (yields_note _).bind fun _ => yields_attempt _

/-- Tracing a walk does not change what comes out of it. -/
theorem yields_foldlM_tracedStep (items : List Item) (p : Position) :
    (items.foldlM (Position.tracedStep pass enter path) p).Yields
      (items.foldlM (Position.step pass enter path) p) := by
  induction items generalizing p with
  | nil => exact fun _ => rfl
  | cons item items ih =>
    rw [List.foldlM_cons, List.foldlM_cons]
    exact (yields_tracedStep p item).bind ih

end MacroSweep.Walk
