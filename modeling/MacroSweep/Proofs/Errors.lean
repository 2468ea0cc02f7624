import MacroSweep.Proofs.Evaluation

/-! What each stage of an evaluation may complain about: the text when tokens are read from it, the
tokens when a value is read from them. -/
namespace MacroSweep.Condition

variable {live : Bool} {ts us : List Token} {e : Error} {x : Except Error (Int64 × List Token)}

/-- The errors about text that holds no token. -/
def Error.isLexical : Error → Bool
  | unexpectedChar _ => true
  | invalidLiteral _ => true
  | _ => false

theorem isLexical_of_number {literal : List Char} (h : number literal = .error e) :
    e.isLexical = true := by
  unfold number at h
  dsimp only at h
  split at h <;> cases h
  rfl

theorem isLexical_of_characterLiteral {cs : List Char} (h : characterLiteral cs = .error e) :
    e.isLexical = true := by
  unfold characterLiteral at h
  dsimp only at h
  split at h
  · cases h
    rfl
  · split at h <;> cases h
    rfl

theorem isLexical_of_signToken {c : Char} {cs : List Char} (h : signToken c cs = .error e) :
    e.isLexical = true := by
  unfold signToken at h
  split at h
  · cases h
  · split at h <;> cases h
    rfl

theorem isLexical_of_nextToken {c : Char} {cs : List Char} (h : nextToken c cs = .error e) :
    e.isLexical = true := by
  unfold nextToken at h
  split at h
  · dsimp only at h
    cases hn : number (Text.splitWord (c :: cs)).1 with
    | ok n => simp [hn, Except.map] at h
    | error err =>
      obtain rfl : err = e := by simpa [hn, Except.map] using h
      exact isLexical_of_number hn
  · split at h
    · cases h
    · split at h
      · exact isLexical_of_characterLiteral h
      · split at h
        · cases h
        · split at h
          · cases h
          · exact isLexical_of_signToken h

theorem isLexical_of_tokenize {cs : List Char} (h : tokenize cs = .error e) :
    e.isLexical = true := by
  fun_induction tokenize cs with
  | case1 => cases h
  | case2 c cs _ ih => exact ih h
  | case3 c cs _ err hnext =>
    cases h
    exact isLexical_of_nextToken hnext
  | case4 c cs _ t rest _ ih =>
    cases hrest : tokenize rest with
    | ok ts => simp [hrest, Except.map] at h
    | error err =>
      obtain rfl : err = e := by simpa [hrest, Except.map] using h
      exact ih hrest

/-- The errors of reading a value: the text ends too early, a divisor is zero, or a token that was
there to read stands in the wrong place. -/
def IsReadError (ts : List Token) : Error → Prop
  | .unexpectedEnd => True
  | .divisionByZero => True
  | .unexpectedToken t => t ∈ ts
  | _ => False

/-- A reader leaves and complains about nothing but tokens it was given. -/
def Within (ts : List Token) : Except Error (Int64 × List Token) → Prop
  | .ok y => y.2 ⊆ ts
  | .error e => IsReadError ts e

theorem IsReadError.mono (h : IsReadError us e) (hsub : us ⊆ ts) : IsReadError ts e := by
  unfold IsReadError at h ⊢
  split at h
  · trivial
  · trivial
  · exact hsub h
  · exact h.elim

namespace Within

theorem mono (h : Within us x) (hsub : us ⊆ ts) : Within ts x := by
  cases x with
  | ok y => exact List.Subset.trans h hsub
  | error e => exact IsReadError.mono h hsub

theorem bind {f : Int64 × List Token → Except Error (Int64 × List Token)} (h : Within ts x)
    (hf : ∀ v us, x = .ok (v, us) → us ⊆ ts → Within ts (f (v, us))) : Within ts (x >>= f) := by
  cases x with
  | ok y => exact hf y.1 y.2 rfl h
  | error e => exact h

theorem bind_after {f : List Token → Except Error (Int64 × List Token)} {t : Token}
    (hus : us ⊆ ts) (hf : ∀ vs, us = t :: vs → vs ⊆ ts → Within ts (f vs)) :
    Within ts (after t us >>= f) := by
  cases us with
  | nil => exact trivial
  | cons u us =>
    rw [after]
    split
    · next hu => exact hf us (hu ▸ rfl) fun _ hmem => hus (List.mem_cons_of_mem _ hmem)
    · exact hus List.mem_cons_self

end Within

theorem BinaryOp.isReadError_of_apply {op : BinaryOp} {a b : Int64}
    (h : op.apply live a b = .error e) (ts : List Token) : IsReadError ts e := by
  unfold apply at h
  split at h
  · cases h
  · split at h <;> cases h
    trivial

mutual

theorem within_ternary (live : Bool) (ts : List Token) :
    Within ts (taken (readTernary live ts)) := by
  rw [taken_readTernary]
  refine (within_binary 1 live ts).bind fun k us hcond hus => ?_
  have hlen : us.length < ts.length := of_taken hcond
  dsimp only
  cases hq : after (.sign .question) us with
  | error err => exact hus
  | ok vs =>
    obtain rfl := eq_cons_of_after hq
    have hvs : vs ⊆ ts := fun _ hmem => hus (List.mem_cons_of_mem _ hmem)
    have hvlen : vs.length < ts.length := Nat.lt_of_succ_lt hlen
    refine ((within_ternary _ vs).mono hvs).bind fun a ws hthen hws => ?_
    refine Within.bind_after hws fun xs hxs hsub => ?_
    obtain rfl : ws = .sign .colon :: xs := hxs
    have hxlen : xs.length < ts.length := Nat.lt_trans (Nat.lt_of_succ_lt (of_taken hthen)) hvlen
    exact ((within_ternary _ xs).mono hsub).bind fun b ys _ hys => hys
termination_by (ts.length, 2)

theorem within_binary (n : Nat) (live : Bool) (ts : List Token) :
    Within ts (taken (readBinary n live ts)) := by
  rw [taken_readBinary]
  refine (within_operand live ts).bind fun a us hfirst hus => ?_
  have hlen : us.length < ts.length := of_taken hfirst
  exact (within_operators n live a us).mono hus
termination_by (ts.length, 1)

theorem within_operators (n : Nat) (live : Bool) (a : Int64) (ts : List Token) :
    Within ts (taken (readOperators n live a ts)) := by
  by_cases hstop : Stops n ts
  · rw [taken_readOperators_stop a hstop]
    exact List.Subset.refl ts
  · obtain ⟨op, us, hts, hop⟩ := exists_of_not_stops hstop
    have hus : us ⊆ ts := hts ▸ List.subset_cons_self _ us
    have hlen : us.length < ts.length := by simp [hts]
    rw [hts, taken_readOperators_step a hop, ← hts]
    refine ((within_binary _ _ us).mono hus).bind fun b vs hright hvs => ?_
    have hvlen : vs.length < ts.length := Nat.lt_trans (of_taken hright) hlen
    dsimp only
    cases happly : op.apply (op.rightLive live a) a b with
    | error err => exact BinaryOp.isReadError_of_apply happly ts
    | ok v => exact (within_operators n live v vs).mono hvs
termination_by (ts.length, 0)

theorem within_operand (live : Bool) (ts : List Token) : Within ts (taken (readUnary live ts)) := by
  match ts with
  | [] =>
    rw [readUnary]
    exact trivial
  | .num n :: ts =>
    rw [readUnary]
    exact List.subset_cons_self _ ts
  | .sign s :: ts =>
    rw [taken_readUnary_sign]
    split
    · have hrest := (within_operand live ts).mono (List.subset_cons_self (.sign s) ts)
      cases hr : taken (readUnary live ts) <;> rw [hr] at hrest <;> exact hrest
    · exact List.mem_cons_self
  | .opening :: ts =>
    rw [taken_readUnary_opening]
    refine ((within_ternary live ts).mono (List.subset_cons_self _ ts)).bind fun v us _ hus => ?_
    exact Within.bind_after hus fun vs _ hvs => hvs
  | .closing :: ts | .name _ :: ts =>
    rw [readUnary]
    exact List.mem_cons_self
termination_by (ts.length, 0)

end

/-- A token list is empty or has an error of reading if it has no value. -/
theorem eq_empty_or_isReadError_of_valueOf (h : valueOf ts = .error e) :
    e = .empty ∨ IsReadError ts e := by
  by_cases hne : ts = []
  · subst hne
    cases h
    exact .inl rfl
  · refine .inr ?_
    rw [valueOf_eq hne] at h
    have hwithin := within_ternary true ts
    cases hr : taken (readTernary true ts) with
    | error err =>
      rw [hr] at h hwithin
      cases h
      exact hwithin
    | ok x =>
      rw [hr] at h hwithin
      obtain ⟨v, rest⟩ := x
      cases rest with
      | nil => cases h
      | cons t rest =>
        cases h
        exact hwithin List.mem_cons_self

end MacroSweep.Condition
