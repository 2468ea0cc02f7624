import MacroSweep.Condition.Value

/-! The grammar of conditions: a conditional operator that groups to the right, over ten levels of
binary operators that group to the left, over operands. Reading by levels with one token of
lookahead finds the trees of the grammar, so a list of tokens has at most one. -/
namespace MacroSweep.Condition

/-- Operators in front of an operand. -/
inductive UnaryOp where
  | not
  | complement
  | negate
  | plus
  deriving DecidableEq, Repr

def Sign.unaryOp? : Sign → Option UnaryOp
  | not => some .not
  | complement => some .complement
  | binary .sub => some .negate
  | binary .add => some .plus
  | _ => none

/-- The tree of an expression, in which parentheses leave no trace. -/
inductive Expr where
  | num (value : Int64)
  | unary (op : UnaryOp) (e : Expr)
  | binary (op : BinaryOp) (l r : Expr)
  | conditional (c a b : Expr)
  deriving DecidableEq

/-- The operators of each level, from the loosest to the tightest. -/
def operators : Nat → List BinaryOp
  | 1 => [.or]
  | 2 => [.and]
  | 3 => [.bitOr]
  | 4 => [.bitXor]
  | 5 => [.bitAnd]
  | 6 => [.eq, .ne]
  | 7 => [.lt, .le, .gt, .ge]
  | 8 => [.shl, .shr]
  | 9 => [.add, .sub]
  | 10 => [.mul, .div, .rem]
  | _ => []

/-- The kinds of phrases. -/
inductive Phrase where
  | ternary
  | level (n : Nat)
  | operand

/-- The grammar: which tokens are a phrase of a kind, and with which tree. -/
inductive Derives : Phrase → List Token → Expr → Prop where
  | num (n : Int64) : Derives .operand [.num n] (.num n)
  | unary {s op ts e} (hs : Sign.unaryOp? s = some op) (h : Derives .operand ts e) :
    Derives .operand (.sign s :: ts) (.unary op e)
  | group {ts e} (h : Derives .ternary ts e) : Derives .operand (.opening :: ts ++ [.closing]) e
  /-- The operands of the operators of level ten stand at the level above. -/
  | operand {ts e} (h : Derives .operand ts e) : Derives (.level 11) ts e
  | tighter {n ts e} (h : Derives (.level (n + 1)) ts e) : Derives (.level n) ts e
  | binary {n op ls rs l r} (hop : op ∈ operators n) (hl : Derives (.level n) ls l)
      (hr : Derives (.level (n + 1)) rs r) :
    Derives (.level n) (ls ++ .sign (.binary op) :: rs) (.binary op l r)
  | loose {ts e} (h : Derives (.level 1) ts e) : Derives .ternary ts e
  | conditional {cs as bs c a b} (hc : Derives (.level 1) cs c) (ha : Derives .ternary as a)
      (hb : Derives .ternary bs b) :
    Derives .ternary (cs ++ .sign .question :: (as ++ .sign .colon :: bs)) (.conditional c a b)

/-- Whether no operator that binds at least as tightly as level `n` comes next. -/
def Stops (n : Nat) : List Token → Prop
  | .sign (.binary op) :: _ => op.level < n
  | _ => True

/-- What is read next: a phrase, or the rest of a row of operands from its left operand on. -/
inductive Task where
  | ternary
  | binary (level : Nat)
  | operators (level : Nat) (left : Expr)
  | operand

/-- Reading by levels: `Reads task ts e us` says that `task` finds the tree `e` at the start of `ts`
and leaves `us`. -/
inductive Reads : Task → List Token → Expr → List Token → Prop where
  | num {n ts} : Reads .operand (.num n :: ts) (.num n) ts
  | unary {s op ts us e} (hs : Sign.unaryOp? s = some op) (h : Reads .operand ts e us) :
    Reads .operand (.sign s :: ts) (.unary op e) us
  | group {ts us e} (h : Reads .ternary ts e (.closing :: us)) :
    Reads .operand (.opening :: ts) e us
  | binary {n ts us vs a e} (ha : Reads .operand ts a us) (h : Reads (.operators n a) us e vs) :
    Reads (.binary n) ts e vs
  | stop {n ts a} (h : Stops n ts) : Reads (.operators n a) ts a ts
  | step {n op us vs ws a b e} (hop : n ≤ op.level) (hb : Reads (.binary (op.level + 1)) us b vs)
      (h : Reads (.operators n (.binary op a b)) vs e ws) :
    Reads (.operators n a) (.sign (.binary op) :: us) e ws
  | plain {ts us e} (h : Reads (.binary 1) ts e us) (hq : us.head? ≠ some (.sign .question)) :
    Reads .ternary ts e us
  | conditional {ts us vs ws c a b} (hc : Reads (.binary 1) ts c (.sign .question :: us))
      (ha : Reads .ternary us a (.sign .colon :: vs)) (hb : Reads .ternary vs b ws) :
    Reads .ternary ts (.conditional c a b) ws

variable {task : Task} {phrase : Phrase} {ts us vs : List Token} {e e' : Expr} {m n : Nat}

theorem Stops.mono (h : Stops m ts) (hmn : m ≤ n) : Stops n ts := by
  unfold Stops at *
  split at h
  · exact Nat.lt_of_lt_of_le h hmn
  · trivial

/-- Reading finds one tree. -/
theorem Reads.functional (h : Reads task ts e us) (h' : Reads task ts e' vs) :
    e = e' ∧ us = vs := by
  induction h generalizing e' vs with
  | num =>
    cases h' with
    | num => exact ⟨rfl, rfl⟩
  | unary hs _ ih =>
    cases h' with
    | unary hs' h' =>
      obtain ⟨rfl, rfl⟩ := ih h'
      rw [hs, Option.some.injEq] at hs'
      rw [hs']
      exact ⟨rfl, rfl⟩
  | group _ ih =>
    cases h' with
    | group h' =>
      obtain ⟨rfl, hrest⟩ := ih h'
      exact ⟨rfl, (List.cons.inj hrest).2⟩
  | binary _ _ iha ih =>
    cases h' with
    | binary ha' h' =>
      obtain ⟨rfl, rfl⟩ := iha ha'
      exact ih h'
  | stop hstop =>
    cases h' with
    | stop => exact ⟨rfl, rfl⟩
    | step hop => exact absurd hstop (Nat.not_lt.mpr hop)
  | step hop _ _ ihb ih =>
    cases h' with
    | stop hstop => exact absurd hstop (Nat.not_lt.mpr hop)
    | step _ hb' h' =>
      obtain ⟨rfl, rfl⟩ := ihb hb'
      exact ih h'
  | plain _ hq ih =>
    cases h' with
    | plain h' => exact ih h'
    | conditional hc' =>
      obtain ⟨-, rfl⟩ := ih hc'
      exact absurd rfl hq
  | conditional _ _ _ ihc iha ihb =>
    cases h' with
    | plain h' hq =>
      obtain ⟨-, rfl⟩ := ihc h'
      exact absurd rfl hq
    | conditional hc' ha' hb' =>
      obtain ⟨rfl, hrest⟩ := ihc hc'
      obtain ⟨-, rfl⟩ := List.cons.inj hrest
      obtain ⟨rfl, hrest⟩ := iha ha'
      obtain ⟨-, rfl⟩ := List.cons.inj hrest
      obtain ⟨rfl, rfl⟩ := ihb hb'
      exact ⟨rfl, rfl⟩

theorem mem_operators_level (op : BinaryOp) : op ∈ operators op.level := by
  cases op <;> decide

theorem level_eq_of_mem_operators {op : BinaryOp} (h : op ∈ operators n) : op.level = n := by
  unfold operators at h
  split at h
  all_goals
    cases op
    all_goals first | rfl | simp at h

theorem Derives.ne_nil (h : Derives phrase ts e) : ts ≠ [] := by
  induction h <;> simp_all

/-- Whether no binary operator and no question mark comes next. -/
def Ends (ts : List Token) : Prop := Stops 1 ts ∧ ts.head? ≠ some (.sign .question)

/-- How reading finds a phrase: an operand before any tokens, a row of operands by going on from its
tree through operators that bind no tighter, a whole expression where it ends. -/
def Phrase.FoundAs (phrase : Phrase) (ts : List Token) (e : Expr) : Prop :=
  match phrase with
  | .operand => ∀ us, Reads .operand (ts ++ us) e us
  | .level k => ∀ n us e' vs, n ≤ k → Stops (k + 1) us → Reads (.operators n e) us e' vs →
      Reads (.binary n) (ts ++ us) e' vs
  | .ternary => ∀ us, Ends us → Reads .ternary (ts ++ us) e us

theorem Derives.foundAs (h : Derives phrase ts e) : phrase.FoundAs ts e := by
  induction h with
  | num n => exact fun us => .num
  | unary hs _ ih => exact fun us => .unary hs (ih us)
  | @group ts e _ ih =>
    intro us
    have hread := ih (.closing :: us) ⟨trivial, by simp⟩
    simpa using Reads.group hread
  | operand _ ih => exact fun n us e' vs _ _ hrest => .binary (ih us) hrest
  | tighter _ ih =>
    intro n us e' vs hn hstop hrest
    exact ih n us e' vs (Nat.le_succ_of_le hn) (hstop.mono (Nat.le_succ _)) hrest
  | @binary _ op ls rs l r hop _ _ ihl ihr =>
    -- The left operand is found up to the operator, which the row then takes with its right one.
    obtain rfl := level_eq_of_mem_operators hop
    intro n us e' vs hn hstop hrest
    have hright : Reads (.binary (op.level + 1)) (rs ++ us) r us :=
      ihr _ us r us (Nat.le_refl _) (hstop.mono (Nat.le_succ _)) (.stop hstop)
    have hleft := ihl n (.sign (.binary op) :: (rs ++ us)) e' vs hn (Nat.lt_succ_self _)
      (.step hn hright hrest)
    simpa using hleft
  | @loose ts e _ ih =>
    intro us hends
    exact .plain (ih 1 us e us (Nat.le_refl _) (hends.1.mono (by omega)) (.stop hends.1)) hends.2
  | @conditional cs as bs c a b _ _ _ ihc iha ihb =>
    intro us hends
    have hcond := ihc 1 (.sign .question :: (as ++ .sign .colon :: (bs ++ us))) c _ (Nat.le_refl _)
      trivial (.stop trivial)
    have hthen := iha (.sign .colon :: (bs ++ us)) ⟨trivial, by simp⟩
    simpa using Reads.conditional hcond hthen (ihb us hends)

theorem BinaryOp.level_le (op : BinaryOp) : op.level ≤ 10 := by
  cases op <;> decide

theorem stops_of_tightest (ts : List Token) : Stops 11 ts := by
  unfold Stops
  split
  · next op _ => exact Nat.lt_succ_of_le op.level_le
  · trivial

theorem Derives.looser (h : Derives (.level m) ts e) (hn : n ≤ m) : Derives (.level n) ts e := by
  induction hn with
  | refl => exact h
  | step _ ih => exact ih h.tighter

/-- What reading takes off a list is a phrase. A row goes on from a left operand that stands at a
level which no operator that comes next exceeds. -/
def Task.IsSound (task : Task) (ts : List Token) (e : Expr) (us : List Token) : Prop :=
  match task with
  | .operand => ∃ used, ts = used ++ us ∧ Derives .operand used e
  | .binary n => n ≤ 11 → ∃ used, ts = used ++ us ∧ Derives (.level n) used e ∧ Stops n us
  | .operators n a => ∀ m as, n ≤ m → Stops (m + 1) ts → Derives (.level m) as a →
      ∃ used, ts = used ++ us ∧ Derives (.level n) (as ++ used) e ∧ Stops n us
  | .ternary => ∃ used, ts = used ++ us ∧ Derives .ternary used e

theorem Reads.isSound (h : Reads task ts e us) : task.IsSound ts e us := by
  induction h with
  | @num n ts => exact ⟨[.num n], rfl, .num n⟩
  | unary hs _ ih =>
    obtain ⟨used, rfl, hd⟩ := ih
    exact ⟨_ :: used, rfl, .unary hs hd⟩
  | group _ ih =>
    obtain ⟨used, rfl, hd⟩ := ih
    exact ⟨.opening :: used ++ [.closing], by simp, .group hd⟩
  | binary _ _ iha ih =>
    intro hn
    obtain ⟨first, rfl, hfirst⟩ := iha
    obtain ⟨used, rfl, hd, hstop⟩ :=
      ih 11 first hn ((stops_of_tightest _).mono (by omega)) hfirst.operand
    exact ⟨first ++ used, by simp, hd, hstop⟩
  | stop hstop =>
    intro m as hn _ hleft
    exact ⟨[], rfl, by simpa using hleft.looser hn, hstop⟩
  | @step n op us vs ws a b e hop _ _ ihb ih =>
    intro m as hn hstop hleft
    have hm : op.level ≤ m := Nat.le_of_lt_succ hstop
    obtain ⟨right, rfl, hright, hnext⟩ := ihb (Nat.succ_le_succ op.level_le)
    obtain ⟨used, rfl, hd, hstop'⟩ :=
      ih op.level _ hop hnext (.binary (mem_operators_level op) (hleft.looser hm) hright)
    exact ⟨.sign (.binary op) :: (right ++ used), by simp, by simpa using hd, hstop'⟩
  | plain _ _ ih =>
    obtain ⟨used, rfl, hd, -⟩ := ih (by omega)
    exact ⟨used, rfl, .loose hd⟩
  | conditional _ _ _ ihc iha ihb =>
    obtain ⟨cs, rfl, hc, -⟩ := ihc (by omega)
    obtain ⟨as, rfl, ha⟩ := iha
    obtain ⟨bs, rfl, hb⟩ := ihb
    exact ⟨_, by simp, .conditional hc ha hb⟩

/-- Reading all of a list finds the trees that the grammar gives it. -/
theorem derives_iff_reads : Derives .ternary ts e ↔ Reads .ternary ts e [] := by
  constructor
  · intro h
    simpa using h.foundAs [] ⟨trivial, by simp⟩
  · intro h
    obtain ⟨used, rfl, hd⟩ := h.isSound
    simpa using hd

/-- The grammar gives a list of tokens one tree at most. -/
theorem Derives.unique (h : Derives .ternary ts e) (h' : Derives .ternary ts e') : e = e' :=
  ((derives_iff_reads.mp h).functional (derives_iff_reads.mp h')).1

end MacroSweep.Condition
