import MacroSweep.Proofs.Relevance
import Mathlib.Logic.Relation

/-! Macros that stand for another name. What is read from a text does not depend on the names in
it, and what a text gives does not depend on open macros that it does not lead to. So the name may
be written in place of the macro, unless it takes arguments and they follow: the body of a macro is
expanded apart from the text behind it. -/
namespace MacroSweep.Condition

section Renaming

/-- A token with another name. -/
def Token.rename (f : String → String) : Token → Token
  | name n => name (f n)
  | t => t

/-- A move with other names in the text. -/
def Move.rename (f : String → String) : Move → Move
  | stop e => stop e
  | emit u rest => emit u (rest.map (Token.rename f))
  | call n body args rest =>
    call n body (args.map (Prod.map id (List.map (Token.rename f)))) (rest.map (Token.rename f))

variable {macros : MacroTable} {stack : List String} {n : String} (f : String → String)

theorem readDefined_rename (ts : List Token) : readDefined (ts.map (Token.rename f)) =
    (readDefined ts).map (Prod.map f (List.map (Token.rename f))) := by
  rcases ts with _ | ⟨_ | _ | _ | _ | _, _ | ⟨_ | _ | _ | _ | _, _ | ⟨_ | _ | _ | _ | _, ts⟩⟩⟩
  all_goals rfl

theorem map_consToken (t : Token) (args : List (List Token)) :
    (consToken t args).map (List.map (Token.rename f)) =
      consToken (t.rename f) (args.map (List.map (Token.rename f))) := by
  cases args <;> rfl

theorem readArguments_rename (depth : Nat) (ts : List Token) :
    readArguments depth (ts.map (Token.rename f)) = (readArguments depth ts).map
      (Prod.map (List.map (List.map (Token.rename f))) (List.map (Token.rename f))) := by
  induction ts generalizing depth with
  | nil => rfl
  | cons t ts ih =>
    have hcons : ∀ depth', (readArguments depth' (ts.map (Token.rename f))).map
          (fun r => (consToken (t.rename f) r.1, r.2)) =
        ((readArguments depth' ts).map fun r => (consToken t r.1, r.2)).map
          (Prod.map (List.map (List.map (Token.rename f))) (List.map (Token.rename f))) := by
      intro depth'
      rw [ih, Option.map_map, Option.map_map]
      congr 1
      funext r
      exact Prod.ext (map_consToken f t r.1).symm rfl
    cases t with
    | name | num | opening => cases depth <;> exact hcons _
    | closing =>
      cases depth with
      | zero => rfl
      | succ depth => exact hcons depth
    | sign s =>
      cases s with
      | binary | not | complement | question | colon => cases depth <;> exact hcons _
      | comma =>
        cases depth with
        | zero =>
          change (readArguments 0 (ts.map (Token.rename f))).map _ = _
          rw [ih, readArguments, Option.map_map, Option.map_map]
          rfl
        | succ depth => exact hcons (depth + 1)

theorem joinArguments_rename (args : List (List Token)) :
    joinArguments (args.map (List.map (Token.rename f))) =
      (joinArguments args).map (Token.rename f) := by
  fun_induction joinArguments args with
  | case1 | case2 => rfl
  | case3 a b as ih =>
    rw [List.map_cons, List.map_cons, joinArguments, ← List.map_cons, ih, List.map_append]
    rfl

theorem bindArguments_rename (params : List String) (args : List (List Token)) :
    bindArguments n params (args.map (List.map (Token.rename f))) =
      (bindArguments n params args).map (·.mapWithKey fun _ => List.map (Token.rename f)) := by
  have hgiven : givenArguments (namedCount params) (args.map (List.map (Token.rename f))) =
      (givenArguments (namedCount params) args).map (List.map (Token.rename f)) := by
    unfold givenArguments
    have hempty : args.map (List.map (Token.rename f)) = [[]] ↔ args = [[]] := by
      simp [List.map_eq_cons_iff]
    simp only [hempty]
    split <;> rfl
  have hpair : ∀ args, pairArguments params (args.map (List.map (Token.rename f))) =
      (pairArguments params args).map (Prod.map id (List.map (Token.rename f))) := by
    intro args
    unfold pairArguments
    dsimp only
    rw [← List.map_take, List.zip_map_right, ← List.map_drop, joinArguments_rename, List.map_append]
    split <;> rfl
  unfold bindArguments
  dsimp only
  rw [hgiven, List.length_map, hpair, SortedMap.ofList_map]
  split <;> rfl

theorem readCall_rename (params : List String) (ts : List Token) :
    readCall n params (ts.map (Token.rename f)) = (readCall n params ts).map (Option.map (Prod.map
      (·.mapWithKey fun _ => List.map (Token.rename f)) (List.map (Token.rename f)))) := by
  cases ts with
  | nil => rfl
  | cons t ts =>
    cases t with
    | name | num | sign | closing => rfl
    | opening =>
      change readCall n params (.opening :: ts.map (Token.rename f)) = _
      rw [readCall, readCall, readArguments_rename]
      cases readArguments 0 ts with
      | none => rfl
      | some r =>
        obtain ⟨args, rest⟩ := r
        change (bindArguments n params (args.map _)).map _ =
          ((bindArguments n params args).map _).map _
        rw [bindArguments_rename]
        cases bindArguments n params args <;> rfl

/-- At a name, a move takes no notice of the names behind it. -/
theorem move_rename (hn : n ≠ "defined") (ts : List Token) :
    move macros stack (.name n) (ts.map (Token.rename f)) =
      (move macros stack (.name n) ts).rename f := by
  rw [move, move, if_neg hn, if_neg hn]
  cases (if stack.contains n then none else macros.find? n) with
  | none => rfl
  | some d =>
    dsimp only
    split
    · rfl
    · unfold callMove
      cases tokenize d.body.toList with
      | error e => rfl
      | ok body =>
        cases d.params with
        | none => rfl
        | some params =>
          dsimp only
          rw [readCall_rename]
          rcases readCall n params ts with e | _ | ⟨bindings, rest⟩ <;> rfl

end Renaming

section Arguments

variable {macros : MacroTable} {stack : List String} {n m : String} {t : Token}
  {ts body rest : List Token} {args : List (String × List Token)} {d : MacroDef}

/-- The names that stand for arguments, where a parameter list is given. -/
def boundNames (params : List String) : List String :=
  params.take (namedCount params) ++ if isVariadic params then [restName] else []

/-- The names in the body of a macro that stand for no argument. -/
def MacroDef.references (d : MacroDef) : List String :=
  match tokenize d.body.toList with
  | .error _ => []
  | .ok body => body.filterMap fun
    | .name n =>
      if n = "defined" ∨ n ∈ (d.params.map boundNames).getD [] then none else some n
    | _ => none

theorem MacroDef.mem_references (htok : tokenize d.body.toList = .ok body) (hm : .name m ∈ body)
    (hdefined : m ≠ "defined") (hbound : m ∉ (d.params.map boundNames).getD []) :
    m ∈ d.references := by
  rw [references, htok]
  exact List.mem_filterMap.mpr ⟨.name m, hm, if_neg (not_or.mpr ⟨hdefined, hbound⟩)⟩

/-- Every parameter is bound. -/
theorem contains_of_bindArguments {params : List String} {args : List (List Token)} {b : Bindings}
    (h : bindArguments n params args = .ok b)
    (hm : m ∈ boundNames params) : b.contains m = true := by
  unfold bindArguments at h
  dsimp only at h
  split at h
  · next hcount =>
    cases h
    rw [SortedMap.contains_ofList, List.any_eq_true]
    suffices ∃ a, (m, a) ∈ pairArguments params (givenArguments (namedCount params) args) by
      obtain ⟨a, ha⟩ := this
      exact ⟨_, ha, by simp⟩
    generalize givenArguments (namedCount params) args = given at hcount
    unfold pairArguments
    dsimp only
    rcases List.mem_append.mp hm with hm | hm
    · obtain ⟨i, hi, rfl⟩ := List.mem_iff_getElem.mp hm
      have hbounds : i < namedCount params ∧ i < params.length := by simpa using hi
      have hgiven : i < given.length := by omega
      have hzip : (params[i], given[i]) ∈ params.zip (given.take (namedCount params)) :=
        List.mem_iff_getElem.mpr ⟨i, by simp; omega, by simp⟩
      rw [List.getElem_take]
      exact ⟨_, List.mem_append_left _ hzip⟩
    · split at hm
      · next hvariadic =>
        obtain rfl := List.mem_singleton.mp hm
        rw [if_pos hvariadic]
        exact ⟨_, List.mem_append_right _ (List.mem_singleton_self _)⟩
      · cases hm
  · cases h

/-- A call binds all parameters of its macro, to what stands together in the text. -/
theorem of_callMove (h : callMove n d ts = .call m body args rest) :
    (∀ k ∈ (d.params.map boundNames).getD [], k ∈ args.map (·.1)) ∧ ∀ a ∈ args, a.2 <:+: ts := by
  unfold callMove at h
  cases htok : tokenize d.body.toList with
  | error e => simp [htok] at h
  | ok tokens =>
    cases hparams : d.params with
    | none =>
      simp only [htok, hparams] at h
      cases h
      exact ⟨nofun, nofun⟩
    | some params =>
      simp only [htok, hparams] at h
      cases hcall : readCall n params ts with
      | error e => simp [hcall] at h
      | ok c =>
        cases c with
        | none => simp [hcall] at h
        | some c =>
          obtain ⟨b, rest'⟩ := c
          simp only [hcall] at h
          cases h
          obtain ⟨us, given, -, -, hb⟩ := readCall_eq_some hcall
          refine ⟨fun k hk => ?_, (of_readCall hcall).2⟩
          have hcontains := contains_of_bindArguments hb hk
          rw [SortedMap.contains_eq_isSome, Option.isSome_iff_exists] at hcontains
          obtain ⟨value, hvalue⟩ := hcontains
          exact List.mem_map.mpr ⟨(k, value), SortedMap.mem_toList_iff.mpr hvalue, rfl⟩

theorem move_eq_call (h : move macros stack t ts = .call n body args rest) :
    ∃ d, macros.find? n = some d ∧ callMove n d ts = .call n body args rest := by
  obtain ⟨rfl, hdefined, hopen, hroom, ⟨d, hfind, -⟩, -⟩ := follows_of_move h
  refine ⟨d, hfind, ?_⟩
  rw [move, if_neg hdefined, if_neg (by simpa using hopen), hfind] at h
  dsimp only at h
  rwa [if_neg (by omega)] at h

end Arguments

section Stack

variable {S : Set String} {macros : MacroTable} {stack stack' : List String} {n m a : String}
  {t : Token} {ts body rest : List Token} {args bound : List (String × List Token)}

def Refers (macros : MacroTable) (n m : String) : Prop :=
  ∃ d, macros.find? n = some d ∧ m ∈ d.references

/-- A set of names that holds with a macro those that it refers to. -/
def ReferenceClosed (S : Set String) (macros : MacroTable) : Prop :=
  ∀ n ∈ S, ∀ m, Refers macros n m → m ∈ S

/-- The names of a job are in the set. In the body of a call, arguments may stand for others. -/
def Job.Within (S : Set String) : Job → Prop
  | text ts => Condition.InScope S ts
  | call _ body todo bound rest =>
    (∀ m, .name m ∈ body → m = "defined" ∨ m ∈ S ∨ m ∈ (bound ++ todo).map (·.1)) ∧
    (∀ a ∈ todo, Condition.InScope S a.2) ∧ (∀ a ∈ bound, Condition.InScope S a.2) ∧
    Condition.InScope S rest

/-- A call that a text in scope leads to is in scope. -/
theorem within_of_move (hclosed : ReferenceClosed S macros) (h : InScope S (t :: ts))
    (hmove : move macros stack t ts = .call n body args rest) :
    (Job.call n body args [] rest).Within S := by
  obtain ⟨d, hfind, hcall⟩ := move_eq_call hmove
  obtain ⟨rfl, hn, -, -, ⟨d', hfind', htok⟩, hrest, hargs⟩ := follows_of_move hmove
  obtain rfl := Option.some.inj (hfind.symm.trans hfind')
  have hmem := (h n List.mem_cons_self).resolve_left hn
  have hts := h.of_subset (List.subset_cons_self _ ts)
  refine ⟨fun m hm => ?_, fun a ha m hm => hts m ((hargs a ha).2 m hm), nofun,
    hts.of_subset hrest.subset⟩
  by_cases hdefined : m = "defined"
  · exact .inl hdefined
  by_cases hbound : m ∈ (d.params.map boundNames).getD []
  · exact .inr (.inr ((of_callMove hcall).1 m hbound))
  · exact .inr (.inl (hclosed n hmem m ⟨d, hfind, d.mem_references htok hm hdefined hbound⟩))

/-- There is room for every macro on a stack of a small table. -/
theorem length_lt_of_opened (hsize : macros.toList.length ≤ maxDepth) (h : Opened macros stack)
    (hn : n ∉ stack) (hmem : macros.contains n = true) : stack.length < maxDepth :=
  Nat.lt_of_lt_of_le (length_le_of_opened (opened_cons h hn hmem)) hsize

/-- An open macro that is not in scope makes no difference to a move. -/
theorem move_append_open (hsize : macros.toList.length ≤ maxDepth) (ha : a ∉ S)
    (hopened : Opened macros (stack ++ [a])) (h : InScope S (t :: ts)) :
    move macros (stack ++ [a]) t ts = move macros stack t ts := by
  cases t with
  | name n =>
    rw [move, move]
    by_cases hdefined : n = "defined"
    · rw [if_pos hdefined, if_pos hdefined]
    · rw [if_neg hdefined, if_neg hdefined]
      have hn := (h n List.mem_cons_self).resolve_left hdefined
      have hne : n ≠ a := fun heq => ha (heq ▸ hn)
      by_cases hopen : n ∈ stack
      · simp [hopen]
      · have hfresh : n ∉ stack ++ [a] := by simp [hopen, hne]
        rw [if_neg (by simpa using hfresh), if_neg (by simpa using hopen)]
        cases hfind : macros.find? n with
        | none => rfl
        | some d =>
          have hroom := length_lt_of_opened hsize hopened hfresh (contains_of_find? hfind)
          have hroom' : stack.length < maxDepth := by
            rw [List.length_append] at hroom
            omega
          dsimp only
          rw [if_neg (by omega), if_neg (by omega)]
  | num | sign | opening | closing => rfl

/-- A run is also one with another macro open, if it is not in scope. -/
theorem Runs.append_open (hsize : macros.toList.length ≤ maxDepth)
    (hclosed : ReferenceClosed S macros) (ha : a ∉ S) {job : Job} {r : Except Error (List Token)}
    (h : Runs macros job stack stack' r) (hopened : Opened macros (stack ++ [a]))
    (hfits : job.Fits macros (stack ++ [a])) (hjob : job.Within S) :
    Runs macros job (stack ++ [a]) (stack' ++ [a]) r := by
  induction h with
  | done => exact .done
  | stop hmove =>
    rw [← move_append_open hsize ha hopened hjob] at hmove
    exact .stop hmove
  | @emit stack stack' t ts u rest r hmove _ ih =>
    have hrest := (follows_of_move hmove).2.subset
    rw [← move_append_open hsize ha hopened hjob] at hmove
    exact .emit hmove
      (ih hopened trivial (hjob.of_subset (List.subset_cons_of_subset t hrest)))
  | call hmove _ ih =>
    have hcall := within_of_move hclosed hjob hmove
    rw [← move_append_open hsize ha hopened hjob] at hmove
    obtain ⟨-, -, hfresh, -, ⟨d, hfind, -⟩, -⟩ := follows_of_move hmove
    exact .call hmove (ih hopened (opened_cons hopened hfresh (contains_of_find? hfind)) hcall)
  | argument harg _ iharg ih =>
    obtain ⟨rfl, -⟩ := harg.eq
    obtain ⟨hbody, htodo, hbound, hrest⟩ := hjob
    obtain ⟨hfirst, htodo⟩ := List.forall_mem_cons.mp htodo
    refine .argument (iharg hopened trivial hfirst)
      (ih hopened hfits ⟨by simpa using hbody, htodo, ?_, hrest⟩)
    refine List.forall_mem_append.mpr ⟨hbound, List.forall_mem_singleton.mpr ?_⟩
    exact inScope_of_no_names (harg.no_names rfl)
  | argumentError _ iharg =>
    obtain ⟨-, htodo, -, -⟩ := hjob
    exact .argumentError (iharg hopened trivial (List.forall_mem_cons.mp htodo).1)
  | enter hrun _ ihbody ih =>
    obtain ⟨rfl, -⟩ := hrun.eq
    obtain ⟨hbody, -, hbound, hrest⟩ := hjob
    have hscope := inScope_substitute_of_bound (by simpa using hbody) hbound
    exact .enter (ihbody hfits trivial hscope) (ih hopened trivial hrest)
  | enterError hrun ihbody =>
    obtain ⟨rfl, -⟩ := hrun.eq
    obtain ⟨hbody, -, hbound, -⟩ := hjob
    have hscope := inScope_substitute_of_bound (by simpa using hbody) hbound
    exact .enterError (ihbody hfits trivial hscope)

theorem expand_append_open (hsize : macros.toList.length ≤ maxDepth)
    (hclosed : ReferenceClosed S macros) (ha : a ∉ S) (hopened : Opened macros (stack ++ [a]))
    (h : InScope S ts) : expand macros (stack ++ [a]) ts = expand macros stack ts :=
  ((runs_expand macros stack ts).append_open hsize hclosed ha hopened trivial h).eq.2.symm

end Stack

variable {macros : MacroTable} {stack : List String} {k n m : String} {ts us : List Token}

/-- Whether no macro refers to itself, directly or through others. -/
def Acyclic (macros : MacroTable) : Prop := ∀ n, ¬Relation.TransGen (Refers macros) n n

/-- Whether a macro stands for a name: it takes no arguments, and the name is its body. The word
`defined` is an operator. -/
structure IsAlias (macros : MacroTable) (n m : String) : Prop where
  stands : ∃ body, macros.find? n = some (.object body) ∧ tokenize body.toList = .ok [.name m]
  ne_defined : n ≠ "defined" ∧ m ≠ "defined"

def takesArguments (macros : MacroTable) (n : String) : Bool :=
  (macros.find? n).any (·.params.isSome)

/-- Whether a text asks for a name with `defined`. -/
def AsksFor (ts : List Token) (n : String) : Prop :=
  [.name "defined", .name n] <:+: ts ∨ [.name "defined", .opening, .name n, .closing] <:+: ts

instance : Decidable (AsksFor ts n) := inferInstanceAs (Decidable (_ ∨ _))

/-- Whether another name may be written for one in a text: the text does not ask for it, and no
arguments follow it if the other takes them. -/
structure Replaceable (macros : MacroTable) (n m : String) (ts : List Token) : Prop where
  not_asked : ¬AsksFor ts n
  not_called : takesArguments macros m = true → ¬[.name n, .opening] <:+: ts

theorem Replaceable.inside (h : Replaceable macros n m ts) (hus : us <:+: ts) :
    Replaceable macros n m us where
  not_asked hasked := h.not_asked (hasked.imp (·.trans hus) (·.trans hus))
  not_called htakes hcalled := h.not_called htakes (hcalled.trans hus)

/-- Whether no arguments are taken from the text behind a name. -/
def Bare (macros : MacroTable) (n : String) (ts : List Token) : Prop :=
  takesArguments macros n = true → ts.head? ≠ some .opening

theorem readCall_of_bare {d : MacroDef} {params : List String} (h : Bare macros m ts)
    (hfind : macros.find? m = some d) (hparams : d.params = some params) :
    readCall m params ts = .ok none := by
  have hhead := h (by simp [takesArguments, hfind, hparams])
  cases ts with
  | nil => rfl
  | cons t ts =>
    cases t with
    | opening => exact absurd rfl hhead
    | name | num | sign | closing => rfl

/-- What a move at a name is without arguments, whatever the text behind it. -/
theorem move_of_bare (macros : MacroTable) (stack : List String) (hm : m ≠ "defined") :
    (∃ e, ∀ ts, Bare macros m ts → move macros stack (.name m) ts = .stop e) ∨
    (∃ u, ∀ ts, Bare macros m ts → move macros stack (.name m) ts = .emit u ts) ∨
    ∃ body, ∀ ts, Bare macros m ts → move macros stack (.name m) ts = .call m body [] ts := by
  simp only [move, if_neg hm]
  by_cases hopen : m ∈ stack
  · simp only [List.contains_iff_mem.mpr hopen, if_true]
    exact .inr (.inl ⟨_, fun _ _ => rfl⟩)
  simp only [List.contains_eq_mem, hopen, decide_false, Bool.false_eq_true, if_false]
  cases hfind : macros.find? m with
  | none => exact .inr (.inl ⟨_, fun _ _ => rfl⟩)
  | some d =>
    by_cases hfull : maxDepth ≤ stack.length
    · simp only [hfull, if_true]
      exact .inl ⟨_, fun _ _ => rfl⟩
    simp only [hfull, if_false, callMove]
    cases tokenize d.body.toList with
    | error e => exact .inl ⟨e, fun _ _ => rfl⟩
    | ok body =>
      cases hparams : d.params with
      | none => exact .inr (.inr ⟨body, fun _ _ => rfl⟩)
      | some params =>
        refine .inr (.inl ⟨.num 0, fun ts hts => ?_⟩)
        simp only [readCall_of_bare hts hfind hparams]

/-- A name without arguments is expanded apart from the text behind it. -/
theorem expand_of_bare (hm : m ≠ "defined") (hts : Bare macros m ts) :
    expand macros stack (.name m :: ts) = do
      let value ← expand macros stack [.name m]
      let after ← expand macros stack ts
      return value ++ after := by
  have hnil : expand macros stack [] = .ok [] := by rw [expand]
  have hbare : Bare macros m [] := by
    intro _ hhead
    cases hhead
  rcases move_of_bare macros stack hm with ⟨e, hmove⟩ | ⟨u, hmove⟩ | ⟨body, hmove⟩
  · simp only [expand_cons, hmove ts hts, hmove [] hbare]
    rfl
  · simp only [expand_cons, hmove ts hts, hmove [] hbare, hnil]
    cases expand macros stack ts <;> rfl
  · simp only [expand_cons, hmove ts hts, hmove [] hbare, Job.result, hnil]
    cases hvalue : expand macros (m :: stack) body <;> simp [hvalue, ok_bind, error_bind]

/-- An alias gives what its name does with nothing behind it. -/
theorem expand_of_isAlias (h : IsAlias macros n m) (ts : List Token) :
    expand macros [] (.name n :: ts) = do
      let value ← expand macros [n] [.name m]
      let after ← expand macros [] ts
      return value ++ after := by
  obtain ⟨body, hfind, htok⟩ := h.stands
  have hmove : move macros [] (.name n) ts = .call n [.name m] [] ts := by
    simp [move, h.ne_defined.1, hfind, maxDepth, callMove, htok, MacroDef.object]
  simp only [expand_cons macros [] (.name n), hmove, Job.result, List.mapM_nil, pure_bind,
    List.append_nil, substitute_nil]

/-- A name without arguments gives what its alias does. -/
theorem expand_alias (hsize : macros.toList.length ≤ maxDepth) (hacyclic : Acyclic macros)
    (h : IsAlias macros n m) (hts : Bare macros m ts) :
    expand macros [] (.name n :: ts) = expand macros [] (.name m :: ts) := by
  obtain ⟨body, hfind, htok⟩ := h.stands
  have hrefers : Refers macros n m :=
    ⟨_, hfind, MacroDef.mem_references htok (List.mem_singleton_self _) h.ne_defined.2 nofun⟩
  -- The names that `m` leads to do not lead back to it, so none of them is `n`.
  have hopen : expand macros ([] ++ [n]) [.name m] = expand macros [] [.name m] := by
    apply expand_append_open (S := {k | Relation.ReflTransGen (Refers macros) m k}) hsize
    · exact fun k hk j hj => Relation.ReflTransGen.tail hk hj
    · exact fun hback => hacyclic n (Relation.TransGen.head' hrefers hback)
    · exact opened_cons (opened_nil macros) List.not_mem_nil (contains_of_find? hfind)
    · intro k hk
      obtain ⟨⟩ := List.mem_singleton.mp hk
      exact .inr .refl
  rw [expand_of_isAlias h, expand_of_bare h.ne_defined.2 hts]
  exact congrArg (· >>= _) hopen

theorem mapM_congr_of_mem {α β : Type} {f g : α → Except Error β} {l : List α}
    (h : ∀ a ∈ l, f a = g a) : l.mapM f = l.mapM g := by
  induction l with
  | nil => rfl
  | cons a l ih =>
    obtain ⟨hfirst, hl⟩ := List.forall_mem_cons.mp h
    rw [List.mapM_cons, List.mapM_cons, hfirst, ih hl]

/-- The names behind a name may be changed if that makes no difference to parts of the text. -/
theorem expand_cons_rename {f : String → String} (hk : k ≠ "defined")
    (h : ∀ us, us <:+: ts →
      expand macros stack (us.map (Token.rename f)) = expand macros stack us) :
    expand macros stack (.name k :: ts.map (Token.rename f)) =
      expand macros stack (.name k :: ts) := by
  rw [expand_cons, expand_cons, move_rename f hk]
  cases hmove : move macros stack (.name k) ts with
  | stop e => rfl
  | emit u rest =>
    simp only [Move.rename, h rest (follows_of_move hmove).2.isInfix]
  | call j body args rest =>
    obtain ⟨-, -, -, -, -, hrest, -⟩ := follows_of_move hmove
    obtain ⟨d, -, hcall⟩ := move_eq_call hmove
    have hargs : (args.map (Prod.map id (List.map (Token.rename f)))).mapM (fun a => do
          return (a.1, ← expand macros stack a.2)) =
        args.mapM (fun a => do return (a.1, ← expand macros stack a.2)) := by
      rw [List.mapM_map]
      apply mapM_congr_of_mem
      intro a ha
      simp [h a.2 ((of_callMove hcall).2 a ha)]
    simp only [Move.rename, Job.result, hargs, h rest hrest.isInfix]

theorem asksFor_of_readDefined {rest : List Token} (h : readDefined ts = .ok (n, rest)) :
    AsksFor (.name "defined" :: ts) n := by
  unfold readDefined at h
  split at h
  · cases h
    exact .inr (List.prefix_append [_, _, _, _] rest).isInfix
  · cases h
    exact .inl (List.prefix_append [_, _] rest).isInfix
  · cases h

/-- The text with a name in place of its alias expands to the same. -/
theorem expand_rename_alias (hsize : macros.toList.length ≤ maxDepth) (hacyclic : Acyclic macros)
    (h : IsAlias macros n m) (ts : List Token) (hts : Replaceable macros n m ts) :
    expand macros [] (ts.map (Token.rename (Function.update id n m))) = expand macros [] ts := by
  match ts with
  | [] => rfl
  | t :: ts =>
    have hparts : ∀ us, us <:+: ts →
        expand macros [] (us.map (Token.rename (Function.update id n m))) = expand macros [] us :=
      fun us hus =>
        have hlen := hus.length_le
        expand_rename_alias hsize hacyclic h us
          (hts.inside (hus.trans (List.suffix_cons t ts).isInfix))
    cases t with
    | name k =>
      rw [List.map_cons, Token.rename]
      by_cases hk : k = n
      · subst hk
        have hbare : Bare macros m ts := by
          intro htakes hhead
          obtain ⟨us, rfl⟩ := List.head?_eq_some_iff.mp hhead
          exact hts.not_called htakes (List.prefix_append [_, _] us).isInfix
        rw [Function.update_self, expand_cons_rename h.ne_defined.2 hparts,
          expand_alias hsize hacyclic h hbare]
      · rw [Function.update_of_ne hk, id]
        by_cases hdefined : k = "defined"
        · subst hdefined
          rw [expand_cons, expand_cons, move, move, if_pos rfl, if_pos rfl, readDefined_rename]
          cases hread : readDefined ts with
          | error e => rfl
          | ok r =>
            obtain ⟨target, rest⟩ := r
            have hne : target ≠ n := by
              rintro rfl
              exact hts.not_asked (asksFor_of_readDefined hread)
            have hrest := hparts rest (suffix_of_readDefined hread).isInfix
            simp only [Except.map, Prod.map, Function.update_of_ne hne, id, hrest]
        · exact expand_cons_rename hdefined hparts
    | num | sign | opening | closing =>
      rw [List.map_cons, expand_cons, expand_cons]
      exact congrArg (Except.map _) (hparts ts List.infix_rfl)
termination_by ts.length
decreasing_by exact Nat.lt_succ_of_le hlen

/-- A name may be written in place of a macro that stands for it, wherever it takes no arguments
from the text, in a condition that does not ask whether the macro is defined. -/
theorem evaluate_eq_of_alias (hsize : macros.toList.length ≤ 64) (hacyclic : Acyclic macros)
    (h : IsAlias macros n m) {condition condition' : List Char}
    (hcondition : ∀ ts, tokenize condition = .ok ts → Replaceable macros n m ts)
    (hreplaced : tokenize condition' =
      (tokenize condition).map (List.map (Token.rename (Function.update id n m)))) :
    evaluate macros condition' = evaluate macros condition := by
  rw [evaluate, evaluate, hreplaced]
  cases htok : tokenize condition with
  | error e => rfl
  | ok ts =>
    have hexpand := expand_rename_alias hsize hacyclic h ts (hcondition ts htok)
    simp only [Except.map, ok_bind, hexpand, List.isEmpty_map]

/-- Macros do not refer to themselves if each refers only to such as come before it. -/
theorem acyclic_of_rank (rank : String → Nat)
    (h : ∀ e ∈ macros.toList, ∀ m ∈ e.2.references, rank m < rank e.1) : Acyclic macros := by
  have hlt : ∀ n m, Relation.TransGen (Refers macros) n m → rank m < rank n := by
    have hstep : ∀ n m, Refers macros n m → rank m < rank n := by
      rintro n m ⟨d, hfind, hm⟩
      exact h (n, d) (SortedMap.mem_toList_iff.mpr hfind) m hm
    intro n m hnm
    induction hnm with
    | single hlast => exact hstep _ _ hlast
    | tail _ hlast ih => exact Nat.lt_trans (hstep _ _ hlast) ih
  exact fun n hn => Nat.lt_irrefl _ (hlt n n hn)

/-- A table where `A` stands for `B`, and another macro takes an argument and mentions `A`. -/
def sumTable : MacroTable :=
  .ofList [("A", .object "B"), ("B", .object "C + 1"), ("C", .object "2"),
    ("SUM", ⟨some ["x"], "x + A"⟩)]

theorem evaluate_of_alias_in_argument :
    evaluate sumTable "SUM(B) == 6 && defined(B)".toList =
      evaluate sumTable "SUM(A) == 6 && defined(B)".toList := by
  have htokens : tokenize "SUM(A) == 6 && defined(B)".toList =
      .ok [.name "SUM", .opening, .name "A", .closing, .sign (.binary .eq), .num 6,
        .sign (.binary .and), .name "defined", .opening, .name "B", .closing] := by decide +kernel
  have hacyclic : Acyclic sumTable :=
    acyclic_of_rank (fun n => ["C", "B", "A", "SUM"].idxOf n) (by decide +kernel)
  have halias : IsAlias sumTable "A" "B" :=
    ⟨⟨"B", by decide +kernel, by decide +kernel⟩, by decide⟩
  refine evaluate_eq_of_alias (by decide +kernel) hacyclic halias ?_ (by decide +kernel)
  intro ts hts
  rw [htokens] at hts
  cases hts
  exact ⟨by decide, by decide⟩

/-- A table where `A` stands for `F`, which takes an argument. -/
def callTable : MacroTable := .ofList [("A", .object "F"), ("F", ⟨some ["x"], "x"⟩)]

/-- The argument that follows `A` is not taken by `F`. -/
theorem evaluate_ne_of_called_alias :
    callTable.toList.length ≤ 64 ∧ Acyclic callTable ∧ IsAlias callTable "A" "F" ∧
      (∀ ts, tokenize "A(1)".toList = .ok ts → ¬AsksFor ts "A") ∧
      tokenize "F(1)".toList = (tokenize "A(1)".toList).map
        (List.map (Token.rename (Function.update id "A" "F"))) ∧
      evaluate callTable "A(1)".toList = .error (.unexpectedToken .opening) ∧
      evaluate callTable "F(1)".toList = .ok 1 := by
  have htokens : tokenize "A(1)".toList = .ok [.name "A", .opening, .num 1, .closing] := by
    decide +kernel
  have htokens' : tokenize "F(1)".toList = .ok [.name "F", .opening, .num 1, .closing] := by
    decide +kernel
  have hbody : tokenize ['x'] = .ok [.name "x"] := by decide +kernel
  have hcall : readCall "F" ["x"] [.opening, .num 1, .closing] =
      .ok (some (.ofList [("x", [.num 1])], [])) := by decide +kernel
  have hfind : callTable.find? "F" = some ⟨some ["x"], "x"⟩ := by decide +kernel
  have halias : IsAlias callTable "A" "F" :=
    ⟨⟨"F", by decide +kernel, by decide +kernel⟩, by decide⟩
  have hplain : ∀ stack ts, (∀ n, .name n ∉ ts) → expand callTable stack ts = .ok ts :=
    fun stack ts => expand_of_no_names callTable stack
  have hvalue : expand callTable ["A"] [.name "F"] = .ok [.num 0] := by
    simp [expand_cons, move, callMove, hfind, hbody, readCall, maxDepth, hplain _ [], Except.map]
  have hexpand : expand callTable [] [.name "F", .opening, .num 1, .closing] = .ok [.num 1] := by
    have hbound : (SortedMap.ofList [("x", [Token.num 1])]).toList = [("x", [.num 1])] := rfl
    simp [expand_cons, move, callMove, hfind, hbody, hcall, hbound, maxDepth, Job.result,
      substitute, hplain _ [], hplain _ [.num 1], ok_bind]
  refine ⟨by decide +kernel, acyclic_of_rank (fun n => ["F", "A"].idxOf n) (by decide +kernel),
    halias, ?_, by decide +kernel, ?_, ?_⟩
  · intro ts hts
    rw [htokens] at hts
    cases hts
    decide
  · rw [evaluate, htokens, ok_bind, if_neg (by simp), expand_of_isAlias halias, hvalue, ok_bind,
      hplain _ _ (by simp), ok_bind]
    cbv
  · rw [evaluate, htokens', ok_bind, if_neg (by simp), hexpand]
    cbv

end MacroSweep.Condition
