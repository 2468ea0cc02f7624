import MacroSweep.Proofs.Errors
import MacroSweep.Proofs.Ordered
import Mathlib.Data.List.Perm.Subperm

/-! Macro expansion as a machine with a stack. A token tells the machine what to do next. For a call
it expands the arguments, puts the name of the macro on the stack, expands the body and takes the
name off again. Every run of the machine ends, with the stack it began with, and gives what
`expand` gives. -/
namespace MacroSweep.Condition

/-- What the machine does at a token: it stops, gives a token and goes on with the rest, or calls a
macro before it does. -/
inductive Move where
  | stop (e : Error)
  | emit (t : Token) (rest : List Token)
  | call (name : String) (body : List Token) (args : List (String × List Token)) (rest : List Token)

/-- What it does at the name of a macro that is not open. -/
def callMove (n : String) (d : MacroDef) (ts : List Token) : Move :=
  match tokenize d.body.toList, d.params with
  | .error e, _ => .stop e
  | .ok body, none => .call n body [] ts
  | .ok body, some params =>
    match readCall n params ts with
    | .error e => .stop e
    | .ok none => .emit (.num 0) ts
    | .ok (some (bindings, rest)) => .call n body bindings.toList rest

/-- What it does at the token `t` with `ts` behind it. -/
def move (macros : MacroTable) (stack : List String) (t : Token) (ts : List Token) : Move :=
  match t with
  | .name n =>
    if n = "defined" then
      match readDefined ts with
      | .error e => .stop e
      | .ok (target, rest) => .emit (.num (truth (macros.contains target))) rest
    else
      match if stack.contains n then none else macros.find? n with
      | none => .emit (.num (truth (n == "true"))) ts
      | some d => if maxDepth ≤ stack.length then .stop (.tooDeep n) else callMove n d ts
  | t => .emit t ts

/-- What the machine has to do: expand a text, or carry out a call, with the arguments that are
still to be expanded and those that are done, and expand the text behind it. -/
inductive Job where
  | text (ts : List Token)
  | call (name : String) (body : List Token) (todo bound : List (String × List Token))
      (rest : List Token)

/-- The runs of the machine: the job, the stack before and after it, and the result. -/
inductive Runs (macros : MacroTable) :
    Job → List String → List String → Except Error (List Token) → Prop
  | done {stack} : Runs macros (.text []) stack stack (.ok [])
  | stop {stack t ts e} :
      move macros stack t ts = .stop e →
      Runs macros (.text (t :: ts)) stack stack (.error e)
  | emit {stack stack' t ts u rest r} :
      move macros stack t ts = .emit u rest →
      Runs macros (.text rest) stack stack' r →
      Runs macros (.text (t :: ts)) stack stack' (r.map (u :: ·))
  | call {stack stack' t ts n body args rest r} :
      move macros stack t ts = .call n body args rest →
      Runs macros (.call n body args [] rest) stack stack' r →
      Runs macros (.text (t :: ts)) stack stack' r
  | argument {stack stack₁ stack₂ n body param arg value todo bound rest r} :
      Runs macros (.text arg) stack stack₁ (.ok value) →
      Runs macros (.call n body todo (bound ++ [(param, value)]) rest) stack₁ stack₂ r →
      Runs macros (.call n body ((param, arg) :: todo) bound rest) stack stack₂ r
  | argumentError {stack stack₁ n body param arg todo bound rest e} :
      Runs macros (.text arg) stack stack₁ (.error e) →
      Runs macros (.call n body ((param, arg) :: todo) bound rest) stack stack₁ (.error e)
  | enter {stack stack₁ stack₂ n body bound rest value r} :
      Runs macros (.text (substitute bound body)) (n :: stack) stack₁ (.ok value) →
      Runs macros (.text rest) stack₁.tail stack₂ r →
      Runs macros (.call n body [] bound rest) stack stack₂ (r.map (value ++ ·))
  | enterError {stack stack₁ n body bound rest e} :
      Runs macros (.text (substitute bound body)) (n :: stack) stack₁ (.error e) →
      Runs macros (.call n body [] bound rest) stack stack₁.tail (.error e)

/-- The result of a job, computed by `expand`. -/
def Job.result (macros : MacroTable) (stack : List String) : Job → Except Error (List Token)
  | text ts => expand macros stack ts
  | call n body todo bound rest => do
    let args ← todo.mapM fun a => do return (a.1, ← expand macros stack a.2)
    let value ← expand macros (n :: stack) (substitute (bound ++ args) body)
    let after ← expand macros stack rest
    return value ++ after

variable {macros : MacroTable} {stack stack' : List String} {ts us rest body : List Token}
  {t u : Token} {n : String} {e : Error} {args todo bound : List (String × List Token)}

@[simp] theorem substitute_nil (body : List Token) : substitute [] body = body := by
  induction body with
  | nil => rfl
  | cons t body ih =>
    rw [substitute, List.flatMap_cons, ← substitute, ih]
    cases t <;> rfl

/-- One step of `expand` makes a move. -/
theorem expand_cons (macros : MacroTable) (stack : List String) (t : Token) (ts : List Token) :
    expand macros stack (t :: ts) =
      match move macros stack t ts with
      | .stop e => .error e
      | .emit u rest => (expand macros stack rest).map (u :: ·)
      | .call n body args rest => Job.result macros stack (.call n body args [] rest) := by
  cases t with
  | name n =>
    rw [expand, move]
    split
    · cases readDefined ts <;> rfl
    · cases (if stack.contains n then none else macros.find? n) with
      | none => rfl
      | some d =>
        obtain ⟨params?, body⟩ := d
        dsimp only
        split
        · rfl
        · rw [callMove]
          dsimp only
          cases htok : tokenize body.toList with
          | error e => rfl
          | ok tokens =>
            cases params? with
            | none =>
              simp [Job.result, substitute_nil]
            | some params =>
              dsimp only
              cases hcall : readCall n params ts with
              | error e => rfl
              | ok c =>
                cases c with
                | none => rfl
                | some c =>
                  obtain ⟨bindings, rest⟩ := c
                  dsimp only [Job.result]
                  rw [List.mapM_subtype (g := fun a : String × List Token => do
                    return (a.1, ← expand macros stack a.2)) fun _ _ => rfl, List.unattach_attach]
                  rfl
  | num | sign | opening | closing =>
    rw [expand]
    · rfl
    · rintro n ⟨⟩

/-- A run leaves the stack as it was, and there is one result at most. -/
theorem Runs.eq {job : Job} {r : Except Error (List Token)} (h : Runs macros job stack stack' r) :
    stack' = stack ∧ r = job.result macros stack := by
  induction h with
  | done => exact ⟨rfl, by rw [Job.result, expand]⟩
  | stop hmove => exact ⟨rfl, by rw [Job.result, expand_cons, hmove]⟩
  | emit hmove _ ih =>
    obtain ⟨rfl, rfl⟩ := ih
    exact ⟨rfl, by simp only [Job.result, expand_cons, hmove]⟩
  | call hmove _ ih =>
    obtain ⟨rfl, rfl⟩ := ih
    exact ⟨rfl, by rw [Job.result, expand_cons, hmove]⟩
  | argument _ _ iharg ih =>
    obtain ⟨rfl, harg⟩ := iharg
    obtain ⟨rfl, rfl⟩ := ih
    rw [Job.result] at harg
    refine ⟨rfl, ?_⟩
    simp [Job.result, ← harg, ok_bind]
  | argumentError _ iharg =>
    obtain ⟨rfl, harg⟩ := iharg
    rw [Job.result] at harg
    refine ⟨rfl, ?_⟩
    simp [Job.result, ← harg, error_bind]
  | enter _ _ ihbody ih =>
    obtain ⟨rfl, hbody⟩ := ihbody
    obtain ⟨rfl, rfl⟩ := ih
    rw [Job.result] at hbody
    refine ⟨rfl, ?_⟩
    simp only [Job.result, List.mapM_nil, pure_bind, List.append_nil, ← hbody, ok_bind]
    rfl
  | enterError _ ihbody =>
    obtain ⟨rfl, hbody⟩ := ihbody
    rw [Job.result] at hbody
    refine ⟨rfl, ?_⟩
    simp [Job.result, ← hbody, error_bind]

theorem suffix_of_readDefined (h : readDefined ts = .ok (n, rest)) : rest <:+ ts := by
  unfold readDefined at h
  split at h
  · cases h
    exact ⟨[_, _, _], rfl⟩
  · cases h
    exact List.suffix_cons _ _
  · cases h

theorem joinArguments_consToken (t : Token) (args : List (List Token)) :
    joinArguments (consToken t args) = t :: joinArguments args := by
  match args with
  | [] | [_] | _ :: _ :: _ => rfl

/-- Arguments are what stands between commas, up to a closing parenthesis. -/
theorem eq_of_readArguments {depth : Nat} {args : List (List Token)}
    (h : readArguments depth ts = some (args, rest)) :
    args ≠ [] ∧ ts = joinArguments args ++ .closing :: rest := by
  fun_induction readArguments depth ts generalizing args with
  | case1 => cases h
  | case2 ts =>
    cases h
    exact ⟨by simp, rfl⟩
  | case5 ts ih =>
    obtain ⟨⟨as, r⟩, hr, heq⟩ := Option.map_eq_some_iff.mp h
    cases heq
    obtain ⟨hne, rfl⟩ := ih hr
    obtain ⟨a, as, rfl⟩ := List.exists_cons_of_ne_nil hne
    exact ⟨by simp, rfl⟩
  | case3 | case4 | case6 =>
    rename_i ih
    obtain ⟨⟨as, r⟩, hr, heq⟩ := Option.map_eq_some_iff.mp h
    cases heq
    obtain ⟨hne, rfl⟩ := ih hr
    rw [joinArguments_consToken]
    exact ⟨by cases as <;> simp [consToken], rfl⟩

theorem infix_joinArguments_of_mem {a : List Token} {args : List (List Token)} (h : a ∈ args) :
    a <:+: joinArguments args := by
  fun_induction joinArguments args with
  | case1 => cases h
  | case2 b =>
    obtain rfl := List.mem_singleton.mp h
    exact List.infix_rfl
  | case3 b c as ih =>
    rcases List.mem_cons.mp h with rfl | h
    · exact (List.prefix_append _ _).isInfix
    · exact (ih h).trans ((List.suffix_cons _ _).trans (List.suffix_append _ _)).isInfix

theorem joinArguments_drop_suffix (k : Nat) (args : List (List Token)) :
    joinArguments (args.drop k) <:+ joinArguments args := by
  induction k generalizing args with
  | zero => exact List.suffix_rfl
  | succ k ih =>
    match args with
    | [] => exact List.suffix_rfl
    | [a] =>
      rw [List.drop_succ_cons, List.drop_nil]
      exact List.nil_suffix
    | a :: b :: as =>
      rw [List.drop_succ_cons, joinArguments]
      exact (ih (b :: as)).trans ((List.suffix_cons _ _).trans (List.suffix_append _ _))

/-- What is bound to a name stands together in the text. -/
theorem infix_of_bindArguments {params : List String} {args : List (List Token)} {b : Bindings}
    (h : bindArguments n params args = .ok b) {a : String × List Token} (ha : a ∈ b.toList) :
    a.2 <:+: joinArguments args := by
  unfold bindArguments at h
  dsimp only at h
  split at h
  · cases h
    obtain ⟨p, hp, heq⟩ := SortedMap.exists_of_mem_ofList ha
    have hgiven : a.2 <:+: joinArguments (givenArguments (namedCount params) args) := by
      rw [heq]
      rcases List.mem_append.mp hp with hp | hp
      · exact infix_joinArguments_of_mem (List.mem_of_mem_take (List.of_mem_zip hp).2)
      · split at hp
        · obtain rfl := List.mem_singleton.mp hp
          exact (joinArguments_drop_suffix _ _).isInfix
        · cases hp
    refine hgiven.trans ?_
    unfold givenArguments
    split
    · exact List.nil_infix
    · exact List.infix_rfl
  · cases h

theorem readCall_eq_some {params : List String} {b : Bindings}
    (h : readCall n params ts = .ok (some (b, rest))) : ∃ us args, ts = .opening :: us ∧
      readArguments 0 us = some (args, rest) ∧ bindArguments n params args = .ok b := by
  unfold readCall at h
  split at h
  · next us =>
    cases hargs : readArguments 0 us with
    | none => simp [hargs] at h
    | some x =>
      obtain ⟨args, r⟩ := x
      cases hb : bindArguments n params args with
      | error e => simp [hargs, hb, Except.map] at h
      | ok b' =>
        obtain ⟨rfl, rfl⟩ : b' = b ∧ r = rest := by simpa [hargs, hb, Except.map] using h
        exact ⟨us, args, rfl, hargs, hb⟩
  · cases h

theorem of_readCall {params : List String} {b : Bindings}
    (h : readCall n params ts = .ok (some (b, rest))) :
    rest <:+ ts ∧ ∀ a ∈ b.toList, a.2 <:+: ts := by
  obtain ⟨us, args, rfl, hargs, hb⟩ := readCall_eq_some h
  obtain ⟨-, rfl⟩ := eq_of_readArguments hargs
  refine ⟨?_, fun a ha => ?_⟩
  · exact (List.suffix_cons _ _).trans ((List.suffix_append _ _).trans (List.suffix_cons _ _))
  · have hjoined : joinArguments args <:+: joinArguments args ++ .closing :: rest :=
      (List.prefix_append _ _).isInfix
    exact (infix_of_bindArguments hb ha).trans (hjoined.trans (List.suffix_cons _ _).isInfix)

theorem contains_of_find? {d : MacroDef} (h : macros.find? n = some d) :
    macros.contains n = true := by
  rw [SortedMap.contains_eq_isSome, h]
  rfl

/-- The errors of a move. It is too deep only for a macro that is not open, on a full stack. -/
def IsMoveError (macros : MacroTable) (stack : List String) : Error → Prop
  | .tooDeep n => n ∉ stack ∧ macros.contains n = true ∧ maxDepth ≤ stack.length
  | .empty => False
  | .unexpectedToken _ => False
  | .divisionByZero => False
  | _ => True

theorem isMoveError_of_isLexical (h : e.isLexical = true) : IsMoveError macros stack e := by
  cases e <;> trivial

theorem isMoveError_of_readDefined (h : readDefined ts = .error e) :
    IsMoveError macros stack e := by
  unfold readDefined at h
  split at h <;> cases h
  trivial

theorem isMoveError_of_readCall {params : List String} (h : readCall n params ts = .error e) :
    IsMoveError macros stack e := by
  unfold readCall at h
  split at h
  · split at h
    · cases h
      trivial
    · unfold bindArguments at h
      dsimp only at h
      split at h <;> cases h
      trivial
  · cases h

/-- What a move can be. Only names of macros that are not open are called, and only with room on the
stack. What is given is no name, and what is read later comes from the text. -/
def Move.Follows (macros : MacroTable) (stack : List String) (t : Token) (ts : List Token) :
    Move → Prop
  | stop e => IsMoveError macros stack e
  | emit u rest => (∀ n, u ≠ .name n) ∧ rest <:+ ts
  | call n body args rest => t = .name n ∧ n ≠ "defined" ∧ n ∉ stack ∧ stack.length < maxDepth ∧
    (∃ d, macros.find? n = some d ∧ tokenize d.body.toList = .ok body) ∧ rest <:+ ts ∧
    ∀ a ∈ args, a.2.length < ts.length ∧ ∀ m, .name m ∈ a.2 → .name m ∈ ts

theorem follows_move (macros : MacroTable) (stack : List String) (t : Token) (ts : List Token) :
    (move macros stack t ts).Follows macros stack t ts := by
  cases t with
  | name n =>
    rw [move]
    split
    · cases h : readDefined ts with
      | error e => exact isMoveError_of_readDefined h
      | ok d => exact ⟨nofun, suffix_of_readDefined h⟩
    · next hdefined =>
      by_cases hopen : n ∈ stack
      · rw [if_pos (by simpa using hopen)]
        exact ⟨nofun, List.suffix_refl ts⟩
      · rw [if_neg (by simpa using hopen)]
        cases hfind : macros.find? n with
        | none => exact ⟨nofun, List.suffix_refl ts⟩
        | some d =>
          dsimp only
          split
          · next hfull =>
            exact ⟨hopen, contains_of_find? hfind, hfull⟩
          · next hroom =>
            have hroom := Nat.lt_of_not_le hroom
            rw [callMove]
            cases htok : tokenize d.body.toList with
            | error e => exact isMoveError_of_isLexical (isLexical_of_tokenize htok)
            | ok body =>
              have hmacro : ∃ d, macros.find? n = some d ∧ tokenize d.body.toList = .ok body :=
                ⟨d, hfind, htok⟩
              cases d.params with
              | none =>
                exact ⟨rfl, hdefined, hopen, hroom, hmacro, List.suffix_refl ts, nofun⟩
              | some params =>
                dsimp only
                cases hcall : readCall n params ts with
                | error e => exact isMoveError_of_readCall hcall
                | ok c =>
                  cases c with
                  | none => exact ⟨nofun, List.suffix_refl ts⟩
                  | some c =>
                    obtain ⟨hrest, hinside⟩ := of_readCall hcall
                    have hlength := (length_readCall hcall).2
                    exact ⟨rfl, hdefined, hopen, hroom, hmacro, hrest,
                      fun a ha => ⟨hlength a ha, fun m hm => (hinside a ha).subset hm⟩⟩
  | num | sign | opening | closing => exact ⟨nofun, List.suffix_refl ts⟩

theorem follows_of_move {m : Move} (h : move macros stack t ts = m) : m.Follows macros stack t ts :=
  h ▸ follows_move macros stack t ts

/-- A call ends if its arguments, its body and the text behind it do. -/
theorem exists_runs_call (hargs : ∀ a ∈ todo, ∃ r, Runs macros (.text a.2) stack stack r)
    (hbody : ∀ bound, ∃ r, Runs macros (.text (substitute bound body)) (n :: stack) (n :: stack) r)
    (hrest : ∃ r, Runs macros (.text rest) stack stack r) (bound : List (String × List Token)) :
    ∃ r, Runs macros (.call n body todo bound rest) stack stack r := by
  induction todo generalizing bound with
  | nil =>
    obtain ⟨r, hr⟩ := hrest
    obtain ⟨value, hvalue⟩ := hbody bound
    cases value with
    | error e => exact ⟨_, .enterError hvalue⟩
    | ok value => exact ⟨_, .enter hvalue hr⟩
  | cons a todo ih =>
    obtain ⟨hfirst, hargs⟩ := List.forall_mem_cons.mp hargs
    obtain ⟨value, hvalue⟩ := hfirst
    cases value with
    | error e => exact ⟨_, .argumentError hvalue⟩
    | ok value =>
      obtain ⟨r, hr⟩ := ih hargs (bound ++ [(a.1, value)])
      exact ⟨r, .argument hvalue hr⟩

/-- Every run ends: a body is expanded with one more name on the stack, and all else is shorter than
the text at hand. -/
theorem exists_runs (macros : MacroTable) (stack : List String) (ts : List Token) :
    ∃ r, Runs macros (.text ts) stack stack r := by
  match ts with
  | [] => exact ⟨_, .done⟩
  | t :: ts =>
    cases hmove : move macros stack t ts with
    | stop e => exact ⟨_, .stop hmove⟩
    | emit u rest =>
      have hlen := (follows_of_move hmove).2.length_le
      obtain ⟨r, hr⟩ := exists_runs macros stack rest
      exact ⟨_, .emit hmove hr⟩
    | call n body args rest =>
      obtain ⟨-, -, -, hroom, -, hrest, hargs⟩ := follows_of_move hmove
      have hlen := hrest.length_le
      have harg : ∀ a ∈ args, ∃ r, Runs macros (.text a.2) stack stack r := fun a ha =>
        have hshort := (hargs a ha).1
        exists_runs macros stack a.2
      have hbody : ∀ bound, ∃ r,
          Runs macros (.text (substitute bound body)) (n :: stack) (n :: stack) r := fun bound =>
        exists_runs macros (n :: stack) (substitute bound body)
      obtain ⟨r, hr⟩ := exists_runs_call harg hbody (exists_runs macros stack rest) []
      exact ⟨r, .call hmove hr⟩
termination_by (maxDepth - stack.length, ts.length)
decreasing_by
  · exact Prod.Lex.right _ (Nat.lt_succ_of_le hlen)
  · exact Prod.Lex.right _ (Nat.lt_succ_of_lt hshort)
  · exact Prod.Lex.left _ _ (by simp only [List.length_cons]; omega)
  · exact Prod.Lex.right _ (Nat.lt_succ_of_le hlen)

/-- The runs of a text are what `expand` computes. -/
theorem runs_text_iff {r : Except Error (List Token)} :
    Runs macros (.text ts) stack stack' r ↔ stack' = stack ∧ r = expand macros stack ts := by
  constructor
  · exact Runs.eq
  · rintro ⟨rfl, rfl⟩
    obtain ⟨r, hr⟩ := exists_runs macros stack' ts
    obtain ⟨-, rfl⟩ := hr.eq
    exact hr

theorem runs_expand (macros : MacroTable) (stack : List String) (ts : List Token) :
    Runs macros (.text ts) stack stack (expand macros stack ts) :=
  runs_text_iff.mpr ⟨rfl, rfl⟩

/-- A run gives no names. -/
theorem Runs.no_names {job : Job} {r : Except Error (List Token)}
    (h : Runs macros job stack stack' r) (hr : r = .ok us) (m : String) : .name m ∉ us := by
  induction h generalizing us with
  | done =>
    cases hr
    exact List.not_mem_nil
  | stop | argumentError | enterError => cases hr
  | @emit stack stack' t ts u rest r hmove _ ih =>
    cases r with
    | error e => cases hr
    | ok vs =>
      cases hr
      intro hmem
      rcases List.mem_cons.mp hmem with heq | hmem
      · exact (follows_of_move hmove).1 m heq.symm
      · exact ih rfl hmem
  | call _ _ ih => exact ih hr
  | argument _ _ _ ih => exact ih hr
  | @enter stack stack₁ stack₂ n body bound rest value r _ _ ihbody ih =>
    cases r with
    | error e => cases hr
    | ok vs =>
      cases hr
      intro hmem
      rcases List.mem_append.mp hmem with hmem | hmem
      · exact ihbody rfl hmem
      · exact ih rfl hmem

/-- The stacks that runs go through: different macros of the table. -/
def Opened (macros : MacroTable) (stack : List String) : Prop :=
  stack.Nodup ∧ ∀ n ∈ stack, macros.contains n = true

/-- The names of a table are as many as its entries. -/
theorem length_le_of_opened (h : Opened macros stack) : stack.length ≤ macros.toList.length := by
  have hkeys : stack ⊆ macros.toList.map (·.1) := by
    intro n hn
    have hcontains := h.2 n hn
    rw [SortedMap.contains_eq_isSome, Option.isSome_iff_exists] at hcontains
    obtain ⟨d, hd⟩ := hcontains
    exact List.mem_map.mpr ⟨(n, d), SortedMap.mem_toList_iff.mpr hd, rfl⟩
  have hle := (List.subperm_of_subset h.1 hkeys).length_le
  rwa [List.length_map] at hle

/-- A call may be made of a macro that is not open. -/
def Job.Fits (macros : MacroTable) (stack : List String) : Job → Prop
  | text _ => True
  | call n _ _ _ _ => Opened macros (n :: stack)

theorem opened_nil (macros : MacroTable) : Opened macros [] :=
  ⟨List.nodup_nil, List.forall_mem_nil _⟩

theorem opened_cons (h : Opened macros stack) (hn : n ∉ stack) (hmem : macros.contains n = true) :
    Opened macros (n :: stack) :=
  ⟨List.nodup_cons.mpr ⟨hn, h.1⟩, List.forall_mem_cons.mpr ⟨hmem, h.2⟩⟩

/-- A run that fails does so at a move. -/
theorem Runs.exists_isMoveError {job : Job} {r : Except Error (List Token)}
    (h : Runs macros job stack stack' r) (hr : r = .error e) (hopened : Opened macros stack)
    (hfits : job.Fits macros stack) :
    ∃ stack, Opened macros stack ∧ IsMoveError macros stack e := by
  induction h with
  | done => cases hr
  | @stop stack t ts e hmove =>
    cases hr
    exact ⟨stack, hopened, follows_of_move hmove⟩
  | @emit stack stack' t ts u rest r hmove _ ih =>
    cases r with
    | error e => exact ih hr hopened trivial
    | ok vs => cases hr
  | @call stack stack' t ts m body args rest r hmove _ ih =>
    obtain ⟨-, -, hfresh, -, ⟨d, hfind, -⟩, -⟩ := follows_of_move hmove
    exact ih hr hopened (opened_cons hopened hfresh (contains_of_find? hfind))
  | argument harg _ _ ih =>
    obtain ⟨rfl, -⟩ := harg.eq
    exact ih hr hopened hfits
  | argumentError _ iharg => exact iharg hr hopened trivial
  | @enter stack stack₁ stack₂ m body bound rest value r hbody _ _ ih =>
    obtain ⟨rfl, -⟩ := hbody.eq
    cases r with
    | error e => exact ih hr hopened trivial
    | ok vs => cases hr
  | enterError _ ihbody => exact ihbody hr hfits trivial

/-- The names on a full stack and one more are all in the table. -/
theorem maxDepth_lt_of_isMoveError (h : IsMoveError macros stack (.tooDeep n))
    (hopened : Opened macros stack) : maxDepth < macros.toList.length := by
  obtain ⟨hfresh, hmem, hfull⟩ := h
  have hle := length_le_of_opened (opened_cons hopened hfresh hmem)
  rw [List.length_cons] at hle
  omega

/-- An evaluation fails where the text is none of tokens, at a move of the expansion, or where no
value is read from what the expansion gives. -/
theorem error_cases_of_evaluate {condition : List Char} (h : evaluate macros condition = .error e) :
    e.isLexical = true ∨ e = .empty ∨
      (∃ stack, Opened macros stack ∧ IsMoveError macros stack e) ∨
      ∃ ts, (∀ m, .name m ∉ ts) ∧ IsReadError ts e := by
  rw [evaluate] at h
  cases htok : tokenize condition with
  | error err =>
    rw [htok] at h
    cases h
    exact .inl (isLexical_of_tokenize htok)
  | ok ts =>
    rw [htok, ok_bind] at h
    have hruns := runs_expand macros [] ts
    split at h
    · cases h
      exact .inr (.inl rfl)
    · cases hexpand : expand macros [] ts with
      | error err =>
        rw [hexpand] at h
        cases h
        exact .inr (.inr (.inl (hruns.exists_isMoveError hexpand (opened_nil macros) trivial)))
      | ok us =>
        rw [hexpand] at h
        rcases eq_empty_or_isReadError_of_valueOf h with rfl | herror
        · exact .inr (.inl rfl)
        · exact .inr (.inr (.inr ⟨us, hruns.no_names hexpand, herror⟩))

/-- Expansion ends for every table. Each run leaves the stack as it was and gives what `expand`
does, which holds no name, so no name is left for a value to be read from. It is too deep only where
more than 64 macros are defined. -/
theorem expand_ends (macros : MacroTable) :
    (∀ stack ts stack' r,
      Runs macros (.text ts) stack stack' r ↔ stack' = stack ∧ r = expand macros stack ts) ∧
    (∀ stack ts us, expand macros stack ts = .ok us → ∀ m, .name m ∉ us) ∧
    (∀ condition m, evaluate macros condition ≠ .error (.unexpectedToken (.name m))) ∧
    (∀ stack, Opened macros stack → ∀ ts n, expand macros stack ts = .error (.tooDeep n) →
      65 ≤ macros.toList.length) ∧
    (∀ condition n, evaluate macros condition = .error (.tooDeep n) →
      65 ≤ macros.toList.length) := by
  have hruns := runs_expand macros
  refine ⟨fun stack ts stack' r => runs_text_iff, fun stack ts us h => (hruns stack ts).no_names h,
    fun condition m h => ?_, fun stack hopened ts n h => ?_, fun condition n h => ?_⟩
  · rcases error_cases_of_evaluate h with h | h | ⟨stack, -, h⟩ | ⟨us, hnames, h⟩
    · cases h
    · cases h
    · exact h
    · exact hnames m h
  · obtain ⟨stack, hopened, herror⟩ := (hruns stack ts).exists_isMoveError h hopened trivial
    exact maxDepth_lt_of_isMoveError herror hopened
  · rcases error_cases_of_evaluate h with h | h | ⟨stack, hopened, h⟩ | ⟨us, -, h⟩
    · cases h
    · cases h
    · exact maxDepth_lt_of_isMoveError h hopened
    · exact h.elim

end MacroSweep.Condition
