import Mathlib.Control.Monad.Basic
import MacroSweep.Proofs.Denotation

/-! Conditions are evaluated while they are read. What comes out is what the tree of the condition
denotes, and a condition that has no tree has no value. -/
namespace MacroSweep.Condition

variable {live : Bool} {ts us vs : List Token} {e : Expr} {v : Int64} {task : Task}

theorem ok_bind {α β : Type} (a : α) (f : α → Except Error β) : (Except.ok a >>= f) = f a := rfl

theorem error_bind {α β : Type} (e : Error) (f : α → Except Error β) :
    (Except.error e >>= f) = .error e := rfl

theorem exists_of_bind {α β : Type} {x : Except Error α} {f : α → Except Error β} {b : β}
    (h : x >>= f = .ok b) : ∃ a, x = .ok a ∧ f a = .ok b := by
  cases x with
  | error e => cases h
  | ok a => exact ⟨a, rfl, h⟩

/-- The result of a tree read at once: operands that are not `live` have values too, with zero for
a division by zero. -/
def Expr.reading (live : Bool) : Expr → Except Error Int64
  | num n => .ok n
  | unary op e => op.meaning <$> e.reading live
  | binary op l r => do
    let a ← l.reading live
    let b ← r.reading (op.rightLive live a)
    op.apply (op.rightLive live a) a b
  | conditional c a b => do
    let k ← c.reading live
    let x ← a.reading (live && k != 0)
    let y ← b.reading (live && k == 0)
    .ok (if k = 0 then y else x)

theorem BinaryOp.apply_dead (op : BinaryOp) (a b : Int64) : ∃ v, op.apply false a b = .ok v := by
  unfold apply
  split
  · next v _ => exact ⟨v, rfl⟩
  · exact ⟨0, rfl⟩

/-- Nothing fails in a part that is not evaluated. -/
theorem Expr.exists_reading_dead (e : Expr) : ∃ v, e.reading false = .ok v := by
  induction e with
  | num n => exact ⟨n, rfl⟩
  | unary op e ih =>
    obtain ⟨v, hv⟩ := ih
    exact ⟨op.meaning v, by rw [reading, hv]; rfl⟩
  | binary op l r ihl ihr =>
    obtain ⟨a, ha⟩ := ihl
    obtain ⟨b, hb⟩ := ihr
    obtain ⟨v, hv⟩ := op.apply_dead a b
    have hdead : op.rightLive false a = false := by cases op <;> rfl
    refine ⟨v, ?_⟩
    simp [reading, ha, hb, hdead, hv, ok_bind]
  | conditional c a b ihc iha ihb =>
    obtain ⟨k, hk⟩ := ihc
    obtain ⟨x, hx⟩ := iha
    obtain ⟨y, hy⟩ := ihb
    exact ⟨if k = 0 then y else x, by simp [reading, hk, hx, hy, ok_bind]⟩

/-- A value as the result of an evaluation that fails where there is none. -/
def outcome (value : Option Int64) : Except Error Int64 := value.elim (.error .divisionByZero) .ok

theorem BinaryOp.apply_live (op : BinaryOp) (a b : Int64) :
    op.apply true a b = outcome (op.meaning? a b) := by
  rw [apply, op.value?_eq_meaning?]
  cases op.meaning? a b <;> rfl

/-- A left operand that decides an operation leaves the right one out, and whatever stands there
does not count. -/
theorem BinaryOp.of_shortcut? {op : BinaryOp} {a v : Int64} (h : op.shortcut? a = some v) :
    op.rightLive true a = false ∧ ∀ b, op.apply false a b = .ok v := by
  cases op with
  | or =>
    have ha : a ≠ 0 ∧ 1 = v := by simpa [shortcut?] using h
    exact ⟨by simp [rightLive, ha.1], fun b => by simp [apply, value?, truth, ha]⟩
  | and =>
    have ha : a = 0 ∧ 0 = v := by simpa [shortcut?] using h
    exact ⟨by simp [rightLive, ha.1], fun b => by simp [apply, value?, truth, ha]⟩
  | _ => cases h

theorem BinaryOp.rightLive_of_shortcut? {op : BinaryOp} {a : Int64} (h : op.shortcut? a = none) :
    op.rightLive true a = true := by
  cases op <;> simp_all [shortcut?, rightLive]

/-- Read where it is evaluated, a tree gives what it denotes. -/
theorem Expr.reading_live (e : Expr) : e.reading true = outcome e.value := by
  induction e with
  | num n => rfl
  | unary op e ih =>
    rw [reading, ih, value]
    cases e.value <;> rfl
  | binary op l r ihl ihr =>
    rw [reading, ihl, value]
    cases l.value with
    | none => rfl
    | some a =>
      cases hs : op.shortcut? a with
      | some v =>
        obtain ⟨hlive, happly⟩ := BinaryOp.of_shortcut? hs
        obtain ⟨b, hb⟩ := r.exists_reading_dead
        simp [outcome, hs, hlive, hb, happly, ok_bind]
      | none =>
        have hlive := BinaryOp.rightLive_of_shortcut? hs
        cases hr : r.value with
        | none => simp [outcome, hs, hlive, ihr, hr, ok_bind, error_bind]
        | some b => simp [outcome, hs, hlive, ihr, hr, ok_bind, BinaryOp.apply_live]
  | conditional c a b ihc iha ihb =>
    rw [reading, ihc, value]
    cases c.value with
    | none => rfl
    | some k =>
      by_cases hk : k = 0
      · subst hk
        obtain ⟨x, hx⟩ := a.exists_reading_dead
        cases hb : b.value <;>
          simp [outcome, hx, ihb, hb, ok_bind, error_bind]
      · obtain ⟨y, hy⟩ := b.exists_reading_dead
        have hfirst : (k != 0) = true := by simpa using hk
        have hsecond : (k == 0) = false := by simpa using hk
        cases ha : a.value <;>
          simp [outcome, hy, iha, ha, hk, hfirst, hsecond, ok_bind, error_bind]

/-- What a reader gives, without the proof that it leaves less. -/
def taken {p : List Token → Prop} (x : Except Error (Int64 × { rest : List Token // p rest })) :
    Except Error (Int64 × List Token) :=
  x.map fun y => (y.1, y.2.1)

/-- What follows a token that must come next. -/
def after (t : Token) : List Token → Except Error (List Token)
  | [] => .error .unexpectedEnd
  | u :: us => if u = t then .ok us else .error (.unexpectedToken u)

theorem map_expect (t : Token) (ts : List Token) :
    (expect t ts).map Subtype.val = after t ts := by
  cases ts with
  | nil => rfl
  | cons u us =>
    simp only [expect, after]
    split <;> rfl

theorem eq_cons_of_after {t : Token} (h : after t ts = .ok us) : ts = t :: us := by
  cases ts with
  | nil => cases h
  | cons u vs =>
    rw [after] at h
    split at h
    · next hu =>
      cases h
      rw [hu]
    · cases h

theorem of_taken {p : List Token → Prop}
    {x : Except Error (Int64 × { rest : List Token // p rest })} (h : taken x = .ok (v, us)) :
    p us := by
  cases x with
  | error e => cases h
  | ok y =>
    cases h
    exact y.2.2

theorem taken_readTernary (live : Bool) (ts : List Token) :
    taken (readTernary live ts) = (do
      let x ← taken (readBinary 1 live ts)
      match after (.sign .question) x.2 with
      | .error _ => .ok x
      | .ok vs => do
        let a ← taken (readTernary (live && x.1 != 0) vs)
        let xs ← after (.sign .colon) a.2
        let b ← taken (readTernary (live && x.1 == 0) xs)
        .ok (if x.1 = 0 then b.1 else a.1, b.2)) := by
  rw [readTernary]
  cases readBinary 1 live ts with
  | error e => rfl
  | ok x =>
    obtain ⟨c, us, hu⟩ := x
    simp only [taken, Except.map, ok_bind, ← map_expect]
    cases expect (.sign .question) us with
    | error e => rfl
    | ok y =>
      obtain ⟨vs, hv⟩ := y
      dsimp only
      cases readTernary (live && c != 0) vs with
      | error e => rfl
      | ok z =>
        obtain ⟨a, ws, hw⟩ := z
        simp only [ok_bind]
        cases expect (.sign .colon) ws with
        | error e => rfl
        | ok y =>
          obtain ⟨xs, hx⟩ := y
          simp only [ok_bind]
          cases readTernary (live && c == 0) xs with
          | error e => rfl
          | ok z => rfl

theorem taken_readBinary (n : Nat) (live : Bool) (ts : List Token) :
    taken (readBinary n live ts) = (do
      let x ← taken (readUnary live ts)
      taken (readOperators n live x.1 x.2)) := by
  rw [readBinary]
  cases readUnary live ts with
  | error e => rfl
  | ok x =>
    obtain ⟨a, us, hu⟩ := x
    simp only [taken, Except.map, ok_bind]
    cases readOperators n live a us <;> rfl

theorem taken_readOperators_stop {n : Nat} (a : Int64) (h : Stops n ts) :
    taken (readOperators n live a ts) = .ok (a, ts) := by
  rw [readOperators.eq_def]
  split
  · next op us =>
    have hlevel : op.level < n := h
    rw [if_pos hlevel]
    rfl
  · rfl

theorem taken_readOperators_step {n : Nat} {op : BinaryOp} (a : Int64) (h : n ≤ op.level) :
    taken (readOperators n live a (.sign (.binary op) :: us)) = (do
      let x ← taken (readBinary (op.level + 1) (op.rightLive live a) us)
      let v ← op.apply (op.rightLive live a) a x.1
      taken (readOperators n live v x.2)) := by
  rw [readOperators, if_neg (Nat.not_lt.mpr h)]
  dsimp only
  cases readBinary (op.level + 1) (op.rightLive live a) us with
  | error e => rfl
  | ok x =>
    obtain ⟨b, vs, hv⟩ := x
    simp only [taken, Except.map, ok_bind]
    cases op.apply (op.rightLive live a) a b with
    | error e => rfl
    | ok v =>
      simp only [ok_bind]
      cases readOperators n live v vs <;> rfl

theorem taken_readUnary_sign (live : Bool) (s : Sign) (ts : List Token) :
    taken (readUnary live (.sign s :: ts)) =
      match s.unaryOp? with
      | some op => (taken (readUnary live ts)).map fun x => (op.meaning x.1, x.2)
      | none => .error (.unexpectedToken (.sign s)) := by
  rw [readUnary]
  dsimp only
  rw [s.unary?_eq]
  cases s.unaryOp? with
  | none => rfl
  | some op => cases readUnary live ts <;> rfl

theorem taken_readUnary_opening (live : Bool) (ts : List Token) :
    taken (readUnary live (.opening :: ts)) = (do
      let x ← taken (readTernary live ts)
      let us ← after .closing x.2
      .ok (x.1, us)) := by
  rw [readUnary]
  cases readTernary live ts with
  | error e => rfl
  | ok x =>
    obtain ⟨v, us, hu⟩ := x
    simp only [taken, Except.map, ok_bind, ← map_expect]
    cases expect .closing us <;> rfl

theorem exists_of_not_stops {n : Nat} (h : ¬ Stops n ts) :
    ∃ op rest, ts = .sign (.binary op) :: rest ∧ n ≤ op.level := by
  unfold Stops at h
  split at h
  · next op rest => exact ⟨op, rest, rfl, Nat.not_lt.mp h⟩
  · exact absurd trivial h

/-- What the reader of a task gives. A row goes on from what its left operand gives. -/
def Task.run (task : Task) (live : Bool) (ts : List Token) : Except Error (Int64 × List Token) :=
  match task with
  | .ternary => taken (readTernary live ts)
  | .binary n => taken (readBinary n live ts)
  | .operators n left => do
    let a ← left.reading live
    taken (readOperators n live a ts)
  | .operand => taken (readUnary live ts)

/-- A reader that finds a tree gives what the tree gives. -/
theorem Reads.run_eq (h : Reads task ts e us) (live : Bool) :
    task.run live ts = (e.reading live).map (·, us) := by
  induction h generalizing live with
  | num =>
    rw [Task.run, readUnary]
    rfl
  | @unary s op ts us e hs _ ih =>
    have hrest : taken (readUnary live ts) = (e.reading live).map (·, us) := ih live
    simp only [Task.run, taken_readUnary_sign, hs, hrest, Expr.reading]
    cases e.reading live <;> rfl
  | @group ts us e _ ih =>
    have hinner : taken (readTernary live ts) = (e.reading live).map (·, .closing :: us) := ih live
    simp only [Task.run, taken_readUnary_opening, hinner]
    cases e.reading live <;> rfl
  | @binary n ts us vs a e _ _ iha ih =>
    have hfirst : taken (readUnary live ts) = (a.reading live).map (·, us) := iha live
    rw [← ih live, Task.run, taken_readBinary, hfirst, Task.run]
    cases a.reading live <;> rfl
  | @stop n ts a hstop =>
    simp only [Task.run, taken_readOperators_stop _ hstop]
    cases a.reading live <;> rfl
  | @step n op us vs ws a b e hop _ _ ihb ih =>
    rw [← ih live]
    simp only [Task.run, Expr.reading, taken_readOperators_step _ hop]
    cases a.reading live with
    | error err => rfl
    | ok x =>
      have hright : taken (readBinary (op.level + 1) (op.rightLive live x) us) =
        (b.reading (op.rightLive live x)).map (·, vs) := ihb _
      simp only [ok_bind, hright]
      cases b.reading (op.rightLive live x) <;> rfl
  | @plain ts us e _ hq ih =>
    have hrow : taken (readBinary 1 live ts) = (e.reading live).map (·, us) := ih live
    have hnone : ∃ err, after (.sign .question) us = .error err := by
      cases us with
      | nil => exact ⟨_, rfl⟩
      | cons t us => exact ⟨.unexpectedToken t, by simpa [after] using hq⟩
    obtain ⟨err, hnone⟩ := hnone
    rw [Task.run, taken_readTernary, hrow]
    cases e.reading live with
    | error err => rfl
    | ok v => simp [Except.map, ok_bind, hnone]
  | @conditional ts us vs ws c a b _ _ _ ihc iha ihb =>
    have hcond : taken (readBinary 1 live ts) = (c.reading live).map (·, .sign .question :: us) :=
      ihc live
    rw [Task.run, taken_readTernary, hcond, Expr.reading]
    cases c.reading live with
    | error err => rfl
    | ok k =>
      have hthen : taken (readTernary (live && k != 0) us) =
        (a.reading (live && k != 0)).map (·, .sign .colon :: vs) := iha _
      have helse : taken (readTernary (live && k == 0) vs) =
        (b.reading (live && k == 0)).map (·, ws) := ihb _
      simp only [Except.map, ok_bind, after, if_true, hthen]
      cases a.reading (live && k != 0) with
      | error err => rfl
      | ok x =>
        simp only [ok_bind, if_true, helse]
        cases b.reading (live && k == 0) <;> rfl

mutual

/-- What a reader takes has a tree. -/
theorem exists_reads_ternary (live : Bool) (ts : List Token) {v : Int64} {us : List Token}
    (h : taken (readTernary live ts) = .ok (v, us)) : ∃ e, Reads .ternary ts e us := by
  rw [taken_readTernary] at h
  obtain ⟨⟨k, rest⟩, hcond, h⟩ := exists_of_bind h
  have hlen : rest.length < ts.length := of_taken hcond
  obtain ⟨c, hc⟩ := exists_reads_binary 1 live ts hcond
  dsimp only at h
  split at h
  · next hnone =>
    cases h
    refine ⟨c, .plain hc fun hq => ?_⟩
    obtain ⟨ws, rfl⟩ := List.head?_eq_some_iff.mp hq
    simp [after] at hnone
  · next vs hq =>
    rw [eq_cons_of_after hq] at hc hlen
    have hvs : vs.length < ts.length := Nat.lt_of_succ_lt hlen
    obtain ⟨⟨x, ws⟩, hthen, h⟩ := exists_of_bind h
    obtain ⟨xs, hcolon, h⟩ := exists_of_bind h
    obtain ⟨⟨y, zs⟩, helse, h⟩ := exists_of_bind h
    have hws : ws = .sign .colon :: xs := eq_cons_of_after hcolon
    rw [hws] at hthen
    have hxs : xs.length < ts.length := Nat.lt_trans (Nat.lt_of_succ_lt (of_taken hthen)) hvs
    obtain ⟨a, ha⟩ := exists_reads_ternary _ vs hthen
    obtain ⟨b, hb⟩ := exists_reads_ternary _ xs helse
    cases h
    exact ⟨.conditional c a b, .conditional hc ha hb⟩
termination_by (ts.length, 2)

theorem exists_reads_binary (n : Nat) (live : Bool) (ts : List Token) {v : Int64} {us : List Token}
    (h : taken (readBinary n live ts) = .ok (v, us)) : ∃ e, Reads (.binary n) ts e us := by
  rw [taken_readBinary] at h
  obtain ⟨⟨x, rest⟩, hfirst, h⟩ := exists_of_bind h
  have hlen : rest.length < ts.length := of_taken hfirst
  obtain ⟨a, ha⟩ := exists_reads_operand live ts hfirst
  obtain ⟨e, he⟩ := exists_reads_operators n live x rest a h
  exact ⟨e, .binary ha he⟩
termination_by (ts.length, 1)

theorem exists_reads_operators (n : Nat) (live : Bool) (x : Int64) (ts : List Token) (left : Expr)
    {v : Int64} {us : List Token} (h : taken (readOperators n live x ts) = .ok (v, us)) :
    ∃ e, Reads (.operators n left) ts e us := by
  by_cases hstop : Stops n ts
  · rw [taken_readOperators_stop x hstop] at h
    cases h
    exact ⟨left, .stop hstop⟩
  · obtain ⟨op, rest, hts, hop⟩ := exists_of_not_stops hstop
    rw [hts, taken_readOperators_step x hop] at h
    obtain ⟨⟨y, vs⟩, hright, h⟩ := exists_of_bind h
    obtain ⟨z, -, h⟩ := exists_of_bind h
    have hrest : rest.length < ts.length := by simp [hts]
    have hlen : vs.length < ts.length := Nat.lt_trans (of_taken hright) hrest
    obtain ⟨b, hb⟩ := exists_reads_binary _ _ rest hright
    obtain ⟨e, he⟩ := exists_reads_operators n live z vs (.binary op left b) h
    rw [hts]
    exact ⟨e, .step hop hb he⟩
termination_by (ts.length, 0)

theorem exists_reads_operand (live : Bool) (ts : List Token) {v : Int64} {us : List Token}
    (h : taken (readUnary live ts) = .ok (v, us)) : ∃ e, Reads .operand ts e us := by
  match ts with
  | [] =>
    rw [readUnary] at h
    cases h
  | .num n :: ts =>
    rw [readUnary] at h
    cases h
    exact ⟨.num n, .num⟩
  | .sign s :: ts =>
    rw [taken_readUnary_sign] at h
    split at h
    · next op hs =>
      cases hrest : taken (readUnary live ts) with
      | error err => simp [hrest, Except.map] at h
      | ok x =>
        rw [hrest] at h
        cases h
        obtain ⟨e, he⟩ := exists_reads_operand live ts hrest
        exact ⟨.unary op e, .unary hs he⟩
    · cases h
  | .opening :: ts =>
    rw [taken_readUnary_opening] at h
    obtain ⟨⟨x, rest⟩, hinner, h⟩ := exists_of_bind h
    obtain ⟨ws, hclose, h⟩ := exists_of_bind h
    have hrest : rest = .closing :: ws := eq_cons_of_after hclose
    rw [hrest] at hinner
    obtain ⟨e, he⟩ := exists_reads_ternary live ts hinner
    cases h
    exact ⟨e, .group he⟩
  | .closing :: ts | .name _ :: ts =>
    rw [readUnary] at h
    cases h
termination_by (ts.length, 0)

end

/-- Tokens without names stay as they are. -/
theorem expand_of_no_names (macros : MacroTable) (stack : List String)
    (h : ∀ name, .name name ∉ ts) : expand macros stack ts = .ok ts := by
  induction ts with
  | nil => rw [expand]
  | cons t ts ih =>
    have hrest := ih fun name hmem => h name (List.mem_cons_of_mem _ hmem)
    cases t with
    | name n => exact absurd List.mem_cons_self (h n)
    | num | sign | opening | closing =>
      rw [expand, hrest]
      · rfl
      · rintro n ⟨⟩

theorem valueOf_eq (hne : ts ≠ []) :
    valueOf ts = (do
      let x ← taken (readTernary true ts)
      match x.2 with
      | [] => .ok x.1
      | t :: _ => .error (.unexpectedToken t)) := by
  rw [valueOf, if_neg (by simpa using hne)]
  cases readTernary true ts with
  | error err => rfl
  | ok x =>
    obtain ⟨v, rest, hrest⟩ := x
    cases rest <;> rfl

/-- A list that has a tree gives what the tree denotes. -/
theorem valueOf_of_derives (h : Derives .ternary ts e) : valueOf ts = outcome e.value := by
  have hread : taken (readTernary true ts) = (outcome e.value).map (·, []) := by
    rw [← e.reading_live]
    exact (derives_iff_reads.mp h).run_eq true
  rw [valueOf_eq h.ne_nil, hread]
  cases e.value <;> rfl

theorem exists_derives_of_valueOf (h : valueOf ts = .ok v) : ∃ e, Derives .ternary ts e := by
  have hne : ts ≠ [] := by
    rintro rfl
    cases h
  rw [valueOf_eq hne] at h
  obtain ⟨⟨w, rest⟩, hread, h⟩ := exists_of_bind h
  cases rest with
  | nil =>
    obtain ⟨e, he⟩ := exists_reads_ternary true ts hread
    exact ⟨e, derives_iff_reads.mpr he⟩
  | cons t rest => cases h

theorem evaluate_eq_valueOf {macros : MacroTable} {condition : List Char}
    (htokens : tokenize condition = .ok ts) (hnames : ∀ name, .name name ∉ ts) :
    evaluate macros condition = valueOf ts := by
  rw [evaluate, htokens, ok_bind]
  cases ts with
  | nil => rfl
  | cons t ts =>
    rw [expand_of_no_names macros [] hnames]
    rfl

theorem outcome_eq_ok_iff {value : Option Int64} : outcome value = .ok v ↔ value = some v := by
  cases value <;> simp [outcome]

theorem outcome_eq_error_iff {value : Option Int64} {err : Error} :
    outcome value = .error err ↔ err = .divisionByZero ∧ value = none := by
  cases value <;> simp [outcome, eq_comm]

/-- A condition without names is evaluated by its grammar: it has a value if its tokens have a tree
that denotes one, it fails with a tree only where the tree divides by zero, it fails without one,
and there is one tree at most. -/
theorem evaluate_iff_derives {macros : MacroTable} {condition : List Char}
    (htokens : tokenize condition = .ok ts) (hnames : ∀ name, .name name ∉ ts) :
    (∀ v, evaluate macros condition = .ok v ↔ ∃ e, Derives .ternary ts e ∧ e.value = some v) ∧
      (∀ e, Derives .ternary ts e → ∀ err, evaluate macros condition = .error err ↔
        err = .divisionByZero ∧ e.DividesByZero) ∧
      ((¬∃ e, Derives .ternary ts e) → ∃ err, evaluate macros condition = .error err) ∧
      ∀ d e, Derives .ternary ts d → Derives .ternary ts e → d = e := by
  rw [evaluate_eq_valueOf htokens hnames]
  refine ⟨?_, ?_, ?_, fun d e hd he => hd.unique he⟩
  · intro v
    constructor
    · intro h
      obtain ⟨e, he⟩ := exists_derives_of_valueOf h
      rw [valueOf_of_derives he, outcome_eq_ok_iff] at h
      exact ⟨e, he, h⟩
    · rintro ⟨e, he, hv⟩
      rw [valueOf_of_derives he, outcome_eq_ok_iff, hv]
  · intro e he err
    rw [valueOf_of_derives he, outcome_eq_error_iff, Expr.value_eq_none_iff]
  · intro hnone
    cases hvalue : valueOf ts with
    | error err => exact ⟨err, rfl⟩
    | ok v => exact absurd (exists_derives_of_valueOf hvalue) hnone

/-- The quotient in the right operand has no value, but the left operand decides. -/
theorem evaluate_of_dead_quotient :
    let condition := "1 || 2 / 0".toList
    let ts : List Token := [.num 1, .sign (.binary .or), .num 2, .sign (.binary .div), .num 0]
    tokenize condition = .ok ts ∧ (∀ name, .name name ∉ ts) ∧ evaluate ∅ condition = .ok 1 := by
  intro condition ts
  have htokens : tokenize condition = .ok ts := by decide +kernel
  have hnames : ∀ name, .name name ∉ ts := by simp [ts]
  have hnum : ∀ (n : Int64) (k : Nat), k ≤ 11 → Derives (.level k) [.num n] (.num n) :=
    fun n k hk => (Derives.num n).operand.looser hk
  have hright : Derives (.level 10) [.num 2, .sign (.binary .div), .num 0]
      (.binary .div (.num 2) (.num 0)) :=
    .binary (by decide) (hnum 2 10 (by decide)) (hnum 0 11 (by decide))
  have htree : Derives .ternary ts (.binary .or (.num 1) (.binary .div (.num 2) (.num 0))) :=
    .loose (.binary (by decide) (hnum 1 1 (by decide)) (hright.looser (by decide)))
  exact ⟨htokens, hnames, ((evaluate_iff_derives htokens hnames).1 1).mpr ⟨_, htree, rfl⟩⟩

end MacroSweep.Condition
