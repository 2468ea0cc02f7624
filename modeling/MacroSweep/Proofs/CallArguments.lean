import MacroSweep.Proofs.Expansion

/-! The arguments of a call. A parenthesis is closed by the first closing one with only paired
parentheses before it, and the commas outside inner parentheses part what stands between the two.
Reading from left to right with the number of inner parentheses that are open finds exactly this
close and these commas, and the number never falls below zero. -/
namespace MacroSweep.Condition

variable {t : Token} {ts a b inside after rest : List Token} {args : List (List Token)}

/-- Tokens in which every parenthesis that is opened is closed, and no other is. -/
inductive Balanced : List Token → Prop where
  | nil : Balanced []
  | token {t : Token} {ts : List Token} : t ≠ .opening → t ≠ .closing → Balanced ts →
      Balanced (t :: ts)
  | nest {inside after : List Token} : Balanced inside → Balanced after →
      Balanced (.opening :: (inside ++ .closing :: after))

/-- The text of an argument: its parentheses are paired, and no comma stands outside them. -/
structure IsArgument (a : List Token) : Prop where
  balanced : Balanced a
  comma_nested {before after : List Token} : a = before ++ .sign .comma :: after → ¬Balanced before

/-- These tokens close the parenthesis that was opened right before them. -/
def HasClose (ts : List Token) : Prop :=
  ∃ inside rest, ts = inside ++ .closing :: rest ∧ Balanced inside

theorem joinArguments_eq_intercalate (args : List (List Token)) :
    joinArguments args = [Token.sign .comma].intercalate args := by
  fun_induction joinArguments args with
  | case1 => rfl
  | case2 a => simp
  | case3 a b as ih => rw [ih, List.intercalate_cons_cons, List.append_assoc]; rfl

/-- Adds tokens in front of the first argument. -/
def prepend (ts : List Token) (args : List (List Token)) : List (List Token) :=
  ts.foldr consToken args

theorem prepend_cons (ts a : List Token) (args : List (List Token)) :
    prepend ts (a :: args) = (ts ++ a) :: args := by
  induction ts with
  | nil => rfl
  | cons t ts ih => rw [prepend, List.foldr_cons, ← prepend, ih]; rfl

theorem prepend_append (ts us : List Token) (args : List (List Token)) :
    prepend (ts ++ us) args = prepend ts (prepend us args) :=
  List.foldr_append ..

section Reading

variable (depth : Nat) (ts : List Token)

theorem readArguments_opening : readArguments depth (.opening :: ts) =
    (readArguments (depth + 1) ts).map (Prod.map (prepend [.opening]) id) := by
  cases depth <;> rfl

theorem readArguments_closing : readArguments (depth + 1) (.closing :: ts) =
    (readArguments depth ts).map (Prod.map (prepend [.closing]) id) :=
  rfl

theorem readArguments_comma : readArguments 0 (.sign .comma :: ts) =
    (readArguments 0 ts).map (Prod.map ([] :: ·) id) :=
  rfl

/-- A token that is no parenthesis goes to the argument being read, unless it is a comma outside
inner parentheses. -/
theorem readArguments_token (hopening : t ≠ .opening) (hclosing : t ≠ .closing)
    (hcomma : depth = 0 → t ≠ .sign .comma) : readArguments depth (t :: ts) =
      (readArguments depth ts).map (Prod.map (prepend [t]) id) := by
  cases t with
  | opening => exact absurd rfl hopening
  | closing => exact absurd rfl hclosing
  | num | name => cases depth <;> rfl
  | sign s =>
    cases depth with
    | zero =>
      cases s with
      | comma => exact absurd rfl (hcomma rfl)
      | _ => rfl
    | succ depth => cases s <;> rfl

end Reading

/-- Within this many inner parentheses, the tokens go to the argument being read, all of them. -/
def TakenAt (depth : Nat) (a : List Token) : Prop :=
  ∀ ts, readArguments depth (a ++ ts) = (readArguments depth ts).map (Prod.map (prepend a) id)

namespace TakenAt

variable {depth : Nat}

theorem nil : TakenAt depth [] := by
  intro ts
  have hid : Prod.map (prepend []) (id : List Token → List Token) = id := rfl
  rw [List.nil_append, hid, Option.map_id_fun, id]

theorem token (hopening : t ≠ .opening) (hclosing : t ≠ .closing)
    (hcomma : depth = 0 → t ≠ .sign .comma) (h : TakenAt depth a) : TakenAt depth (t :: a) := by
  intro ts
  rw [List.cons_append, readArguments_token _ _ hopening hclosing hcomma, h, Option.map_map]
  rfl

theorem nest (hinside : TakenAt (depth + 1) inside) (hafter : TakenAt depth after) :
    TakenAt depth (.opening :: (inside ++ .closing :: after)) := by
  intro ts
  rw [List.cons_append, List.append_assoc, List.cons_append, readArguments_opening, hinside,
    readArguments_closing, hafter]
  simp only [Option.map_map, Prod.map_comp_map, Function.comp_id]
  congr 2
  funext args
  simp [← prepend_append]

end TakenAt

/-- Commas inside inner parentheses part nothing. -/
theorem Balanced.takenAt_succ (h : Balanced b) (depth : Nat) : TakenAt (depth + 1) b := by
  induction h generalizing depth with
  | nil => exact .nil
  | token hopening hclosing _ ih => exact .token hopening hclosing (by simp) (ih depth)
  | nest _ _ ihinside ihafter => exact .nest (ihinside (depth + 1)) (ihafter depth)

/-- A parenthesis has one close. -/
theorem Balanced.unique {rest' : List Token} (hb : Balanced b) (hinside : Balanced inside)
    (h : b ++ .closing :: rest = inside ++ .closing :: rest') : b = inside ∧ rest = rest' := by
  induction hb generalizing inside rest rest' with
  | nil =>
    cases hinside with
    | nil => simpa using h
    | token _ hclosing _ => exact absurd (List.cons.inj h).1.symm hclosing
    | nest => simp at h
  | token hopening hclosing _ ih =>
    cases hinside with
    | nil => exact absurd (List.cons.inj h).1 hclosing
    | token _ _ htail =>
      obtain ⟨rfl, htokens⟩ := List.cons.inj h
      obtain ⟨rfl, rfl⟩ := ih htail htokens
      exact ⟨rfl, rfl⟩
    | nest => exact absurd (List.cons.inj h).1 hopening
  | nest _ _ ihinside ihafter =>
    cases hinside with
    | nil => simp at h
    | token hopening _ _ => exact absurd (List.cons.inj h).1.symm hopening
    | nest hinside hafter =>
      simp only [List.cons_append, List.append_assoc, List.cons.injEq, true_and] at h
      obtain ⟨rfl, hrest⟩ := ihinside hinside h
      obtain ⟨rfl, rfl⟩ := ihafter hafter hrest
      exact ⟨rfl, rfl⟩

namespace IsArgument

theorem nil : IsArgument [] := ⟨.nil, by simp⟩

theorem token (hopening : t ≠ .opening) (hclosing : t ≠ .closing) (hcomma : t ≠ .sign .comma)
    (h : IsArgument a) : IsArgument (t :: a) := by
  refine ⟨.token hopening hclosing h.balanced, ?_⟩
  rintro _ after heq (_ | ⟨-, -, hbefore⟩ | -)
  · exact hcomma (List.cons.inj heq).1
  · exact h.comma_nested (List.cons.inj heq).2 hbefore
  · exact hopening (List.cons.inj heq).1

theorem nest (hinside : Balanced inside) (h : IsArgument a) :
    IsArgument (.opening :: (inside ++ .closing :: a)) := by
  refine ⟨.nest hinside h.balanced, ?_⟩
  rintro _ after heq (_ | ⟨hopening, -, -⟩ | ⟨hinside', hbefore⟩)
  · simp at heq
  · exact hopening (List.cons.inj heq).1.symm
  · simp only [List.cons_append, List.append_assoc, List.cons.injEq, true_and] at heq
    exact h.comma_nested (hinside.unique hinside' heq).2 hbefore

theorem takenAt_zero (h : IsArgument a) : TakenAt 0 a := by
  obtain ⟨hbalanced, hcomma⟩ := h
  induction hbalanced with
  | nil => exact .nil
  | token hopening hclosing _ ih =>
    refine .token hopening hclosing (fun _ => ?_) (ih ?_)
    · rintro rfl
      exact hcomma (List.nil_append _).symm .nil
    · rintro before after rfl hbefore
      exact hcomma List.cons_append.symm (.token hopening hclosing hbefore)
  | @nest inside _ hinside _ _ ih =>
    refine .nest (hinside.takenAt_succ 0) (ih ?_)
    rintro before after rfl hbefore
    have hsplit : Token.opening :: (inside ++ .closing :: (before ++ .sign .comma :: after)) =
        .opening :: (inside ++ .closing :: before) ++ .sign .comma :: after := by simp
    exact hcomma hsplit (.nest hinside hbefore)

end IsArgument

/-- Arguments that are written with commas between them are read as they are. -/
theorem readArguments_joinArguments (hne : args ≠ []) (h : ∀ a ∈ args, IsArgument a)
    (rest : List Token) :
    readArguments 0 (joinArguments args ++ .closing :: rest) = some (args, rest) := by
  fun_induction joinArguments args with
  | case1 => exact absurd rfl hne
  | case2 a =>
    rw [(h a (by simp)).takenAt_zero, readArguments]
    simp [prepend_cons]
  | case3 a b as ih =>
    rw [List.append_assoc, (h a (by simp)).takenAt_zero, List.cons_append, readArguments_comma,
      ih (by simp) fun c hc => h c (List.mem_cons_of_mem _ hc)]
    simp [prepend_cons]

theorem joinArguments_prepend (ts : List Token) (args : List (List Token)) :
    joinArguments (prepend ts args) = ts ++ joinArguments args := by
  induction ts with
  | nil => rfl
  | cons t ts ih =>
    rw [prepend, List.foldr_cons, ← prepend, joinArguments_consToken, ih, List.cons_append]

/-- What is balanced consists of arguments with commas between them. -/
theorem Balanced.exists_arguments (h : Balanced b) :
    ∃ a as, (∀ c ∈ a :: as, IsArgument c) ∧ b = joinArguments (a :: as) := by
  induction h with
  | nil => exact ⟨[], [], by simpa using IsArgument.nil, rfl⟩
  | @token t ts hopening hclosing _ ih =>
    obtain ⟨a, as, hall, rfl⟩ := ih
    by_cases hcomma : t = .sign .comma
    · exact ⟨[], a :: as, List.forall_mem_cons.mpr ⟨.nil, hall⟩, by rw [hcomma]; rfl⟩
    · obtain ⟨ha, has⟩ := List.forall_mem_cons.mp hall
      have hta := IsArgument.token hopening hclosing hcomma ha
      exact ⟨t :: a, as, List.forall_mem_cons.mpr ⟨hta, has⟩, (joinArguments_consToken t _).symm⟩
  | @nest inside after hinside _ _ ih =>
    obtain ⟨a, as, hall, rfl⟩ := ih
    obtain ⟨ha, has⟩ := List.forall_mem_cons.mp hall
    refine ⟨_, as, List.forall_mem_cons.mpr ⟨.nest hinside ha, has⟩, ?_⟩
    have hprepend := joinArguments_prepend (.opening :: (inside ++ [.closing])) (a :: as)
    rw [prepend_cons] at hprepend
    simpa using hprepend.symm

theorem HasClose.nest (h : HasClose ts) (hinside : Balanced inside) :
    HasClose (.opening :: (inside ++ .closing :: ts)) := by
  obtain ⟨b, rest, rfl, hb⟩ := h
  exact ⟨_, rest, by simp, .nest hinside hb⟩

theorem HasClose.token (h : HasClose ts) (hopening : t ≠ .opening) (hclosing : t ≠ .closing) :
    HasClose (t :: ts) := by
  obtain ⟨b, rest, rfl, hb⟩ := h
  exact ⟨t :: b, rest, rfl, .token hopening hclosing hb⟩

/-- Without a close the arguments do not end, however many parentheses are open. -/
theorem readArguments_of_not_hasClose (depth : Nat) (h : ¬HasClose ts) :
    readArguments depth ts = none := by
  -- An inner parenthesis is skipped with what it holds, so the induction is on the length.
  induction hlength : ts.length using Nat.strongRecOn generalizing ts depth with
  | ind length ih =>
  subst hlength
  rcases ts with _ | ⟨t, ts⟩
  · rfl
  by_cases hopening : t = .opening
  · rw [hopening, readArguments_opening]
    by_cases hclose : HasClose ts
    · obtain ⟨inside, rest, rfl, hinside⟩ := hclose
      have hrest : ¬HasClose rest := fun hrest => h (hopening ▸ hrest.nest hinside)
      have hlength : rest.length < (t :: (inside ++ .closing :: rest)).length := by
        simp only [List.length_cons, List.length_append]
        omega
      rw [hinside.takenAt_succ, readArguments_closing, ih _ hlength _ hrest rfl]
      rfl
    · rw [ih _ (by simp) _ hclose rfl]
      rfl
  by_cases hclosing : t = .closing
  · exact absurd ⟨[], ts, by rw [hclosing]; rfl, .nil⟩ h
  have hts : readArguments depth ts = none :=
    ih _ (by simp) depth (fun hts => h (hts.token hopening hclosing)) rfl
  by_cases hcomma : depth = 0 ∧ t = .sign .comma
  · obtain ⟨rfl, rfl⟩ := hcomma
    rw [readArguments_comma, hts]
    rfl
  · rw [readArguments_token _ _ hopening hclosing fun hd ht => hcomma ⟨hd, ht⟩, hts]
    rfl

/-- Up to a close, tokens are arguments with commas between them. -/
theorem HasClose.exists_arguments (h : HasClose ts) : ∃ args rest,
    args ≠ [] ∧ (∀ a ∈ args, IsArgument a) ∧ ts = joinArguments args ++ .closing :: rest := by
  obtain ⟨b, rest, rfl, hb⟩ := h
  obtain ⟨a, as, hall, rfl⟩ := hb.exists_arguments
  exact ⟨a :: as, rest, by simp, hall, rfl⟩

theorem readArguments_eq_some_iff : readArguments 0 ts = some (args, rest) ↔
    args ≠ [] ∧ (∀ a ∈ args, IsArgument a) ∧ ts = joinArguments args ++ .closing :: rest := by
  constructor
  · intro h
    have hclose : HasClose ts := by
      by_contra hclose
      rw [readArguments_of_not_hasClose 0 hclose] at h
      cases h
    obtain ⟨args', rest', hne, hall, rfl⟩ := hclose.exists_arguments
    rw [readArguments_joinArguments hne hall] at h
    cases h
    exact ⟨hne, hall, rfl⟩
  · rintro ⟨hne, hall, rfl⟩
    exact readArguments_joinArguments hne hall rest

theorem readArguments_eq_none_iff : readArguments 0 ts = none ↔ ¬HasClose ts := by
  refine ⟨?_, readArguments_of_not_hasClose 0⟩
  intro h hclose
  obtain ⟨args, rest, hne, hall, rfl⟩ := hclose.exists_arguments
  rw [readArguments_joinArguments hne hall] at h
  cases h

theorem readCall_eq_unexpectedEnd_iff (n : String) (params : List String) :
    readCall n params (.opening :: ts) = .error .unexpectedEnd ↔ ¬HasClose ts := by
  rw [← readArguments_eq_none_iff, readCall]
  cases hargs : readArguments 0 ts with
  | none => simp
  | some r =>
    have hbind : bindArguments n params r.1 ≠ .error .unexpectedEnd := by
      unfold bindArguments
      dsimp only
      split <;> simp
    cases hb : bindArguments n params r.1 with
    | ok b => simp [hb, Except.map]
    | error e => simpa [hb, Except.map] using hbind

/-- Reading arguments as a loop: those that are complete, the one being read, and the number of
inner parentheses that are open in it. -/
structure Collected where
  complete : List (List Token) := []
  current : List Token := []
  depth : Int := 0

namespace Collected

variable {c c' : Collected}

def arguments (c : Collected) : List (List Token) := c.complete ++ [c.current]

/-- Adds a token to the argument being read. -/
def push (c : Collected) (t : Token) : Collected := { c with current := c.current ++ [t] }

/-- One turn of the loop; none at the token that ends it. -/
def take (c : Collected) : Token → Option Collected
  | .closing => if c.depth = 0 then none else some { c.push .closing with depth := c.depth - 1 }
  | .opening => some { c.push .opening with depth := c.depth + 1 }
  | .sign .comma =>
    if c.depth = 0 then some { c with complete := c.arguments, current := [] }
    else some (c.push (.sign .comma))
  | t => some (c.push t)

/-- The loop. It gives the arguments and what follows the token that ends it. -/
def collect (c : Collected) : List Token → Option (List (List Token) × List Token)
  | [] => none
  | t :: ts =>
    match c.take t with
    | none => some (c.arguments, ts)
    | some c' => c'.collect ts

theorem take_token (hopening : t ≠ .opening) (hclosing : t ≠ .closing)
    (hcomma : c.depth = 0 → t ≠ .sign .comma) : c.take t = some (c.push t) := by
  unfold take
  split
  · exact absurd rfl hclosing
  · exact absurd rfl hopening
  · exact if_neg fun hzero => hcomma hzero rfl
  · rfl

theorem take_comma (h : c.depth = 0) :
    c.take (.sign .comma) = some { c with complete := c.arguments, current := [] } :=
  if_pos h

theorem take_closing (h : c.depth ≠ 0) :
    c.take .closing = some { c.push .closing with depth := c.depth - 1 } :=
  if_neg h

/-- A turn counts the parentheses that are open, and the count stays at zero or above. -/
theorem depth_take (h : c.take t = some c') (hc : 0 ≤ c.depth) : 0 ≤ c'.depth ∧
    c'.depth = c.depth + (if t = .opening then 1 else 0) - (if t = .closing then 1 else 0) := by
  unfold take at h
  split at h
  · split at h
    · cases h
    · next hne =>
      cases h
      exact ⟨by dsimp only; omega, by simp⟩
  · cases h
    exact ⟨by dsimp only; omega, by simp⟩
  · split at h <;> cases h <;> exact ⟨hc, by simp [push]⟩
  · next hclosing hopening _ =>
    cases h
    exact ⟨hc, by rw [if_neg hopening, if_neg hclosing]; simp [push]⟩

theorem depth_foldlM (h : ts.foldlM take c = some c') (hc : 0 ≤ c.depth) :
    0 ≤ c'.depth ∧ c'.depth = c.depth + ts.count .opening - ts.count .closing := by
  induction ts generalizing c with
  | nil =>
    cases h
    simp [hc]
  | cons t ts ih =>
    obtain ⟨d, hd, hrest⟩ := Option.bind_eq_some_iff.mp h
    obtain ⟨hnonneg, hdepth⟩ := depth_take hd hc
    obtain ⟨hnonneg', hdepth'⟩ := ih hrest hnonneg
    refine ⟨hnonneg', ?_⟩
    rw [hdepth', hdepth, List.count_cons, List.count_cons]
    simp only [beq_iff_eq]
    split <;> split <;> omega

theorem collect_of_take (h : c.take t = some c') (ts : List Token) :
    c.collect (t :: ts) = c'.collect ts := by
  rw [collect, h]

/-- The loop gives what is read with its number of open parentheses, in front of which stands what
it has collected. -/
theorem collect_eq (complete : List (List Token)) (current : List Token) (depth : Nat)
    (ts : List Token) :
    collect ⟨complete, current, depth⟩ ts =
      (readArguments depth ts).map (Prod.map (complete ++ prepend current ·) id) := by
  induction ts generalizing complete current depth with
  | nil => rfl
  | cons t ts ih =>
    -- All turns but one at a comma outside inner parentheses add the token to the current argument.
    have hpush : ∀ d d' : Nat, take ⟨complete, current, d⟩ t =
          some ⟨complete, current ++ [t], d'⟩ →
        readArguments d (t :: ts) = (readArguments d' ts).map (Prod.map (prepend [t]) id) →
        collect ⟨complete, current, d⟩ (t :: ts) =
          (readArguments d (t :: ts)).map (Prod.map (complete ++ prepend current ·) id) := by
      intro d d' htake hread
      rw [collect_of_take htake, ih, hread, Option.map_map, Prod.map_comp_map, Function.comp_id]
      simp only [Function.comp_def, prepend_append]
    by_cases hopening : t = .opening
    · subst hopening
      exact hpush depth (depth + 1) rfl (readArguments_opening depth ts)
    by_cases hclosing : t = .closing
    · subst hclosing
      cases depth with
      | zero => simp [collect, take, arguments, readArguments, prepend_cons]
      | succ depth =>
        refine hpush (depth + 1) depth ?_ (readArguments_closing depth ts)
        rw [take_closing (Int.natCast_ne_zero.mpr depth.succ_ne_zero)]
        simp [push]
    by_cases hcomma : depth = 0 ∧ t = .sign .comma
    · obtain ⟨rfl, rfl⟩ := hcomma
      rw [collect_of_take (take_comma rfl), ih, readArguments_comma, Option.map_map,
        Prod.map_comp_map, Function.comp_id]
      simp only [Function.comp_def, prepend_cons, arguments]
      simp [prepend]
    · refine hpush depth depth (take_token hopening hclosing fun hd ht => hcomma ⟨?_, ht⟩)
        (readArguments_token depth ts hopening hclosing fun hd ht => hcomma ⟨hd, ht⟩)
      exact Int.ofNat_eq_zero.mp hd

/-- From its beginning the loop gives what is read. -/
theorem collect_start (ts : List Token) : collect {} ts = readArguments 0 ts := by
  have hid : Prod.map ([] ++ prepend [] ·) (id : List Token → List Token) = id := rfl
  have h := collect_eq [] [] 0 ts
  rwa [hid, Option.map_id_fun, id] at h

end Collected

theorem joinArguments_drop_givenArguments (named : Nat) (args : List (List Token)) :
    joinArguments ((givenArguments named args).drop named) = joinArguments (args.drop named) := by
  unfold givenArguments
  split
  · next h =>
    obtain ⟨rfl, rfl⟩ := h
    rfl
  · rfl

theorem le_length_givenArguments_iff (named : Nat) (args : List (List Token)) :
    named ≤ (givenArguments named args).length ↔ named ≤ args.length := by
  unfold givenArguments
  split
  · next h => simp [h.1]
  · rfl

theorem find?_ofList_concat (bound : List (String × List Token)) (name : String)
    (a : List Token) : (SortedMap.ofList (bound ++ [(name, a)])).find? name = some a := by
  rw [SortedMap.ofList, List.foldl_append]
  exact (SortedMap.find?_insert ..).trans (if_pos Std.ReflOrd.compare_self)

/-- An ellipsis takes the arguments that are left, if each name before it has got one. -/
theorem bindArguments_variadic (n : String) (named : List String) (args : List (List Token)) :
    if named.length ≤ args.length then
      ∃ b, bindArguments n (named ++ ["..."]) args = .ok b ∧
        b.find? "__VA_ARGS__" = some (joinArguments (args.drop named.length))
    else
      bindArguments n (named ++ ["..."]) args =
        .error (.argumentCount n named.length args.length) := by
  have hvariadic : isVariadic (named ++ ["..."]) = true := by simp [isVariadic, ellipsis]
  have hnamed : namedCount (named ++ ["..."]) = named.length := by simp [namedCount, hvariadic]
  have hlength := le_length_givenArguments_iff named.length args
  unfold bindArguments
  dsimp only
  rw [hnamed]
  split
  · next h =>
    rw [if_pos (.inr ⟨hvariadic, hlength.mpr h⟩)]
    refine ⟨_, rfl, ?_⟩
    unfold pairArguments
    dsimp only
    rw [hnamed, if_pos hvariadic, joinArguments_drop_givenArguments]
    exact find?_ofList_concat ..
  · next h =>
    have hgiven : givenArguments named.length args = args := if_neg (by rintro ⟨hzero, -⟩; omega)
    rw [if_neg, hgiven]
    rw [hgiven]
    omega

/-- Arguments are parted at exactly the commas outside inner parentheses, and they end at the close
of the parenthesis before them; a call fails for want of an end exactly if there is none. The loop
that reads them counts the inner parentheses that are open, and the count never falls below zero. An
ellipsis takes the arguments after the named ones, with the commas between them. -/
theorem arguments_part_at_outer_commas (n : String) (params : List String) (ts : List Token) :
    (∀ args rest, readArguments 0 ts = some (args, rest) ↔
      args ≠ [] ∧ (∀ a ∈ args, IsArgument a) ∧
        ts = [.sign .comma].intercalate args ++ .closing :: rest) ∧
    (∀ args rest, readArguments 0 ts = some (args, rest) →
      readCall n params (.opening :: ts) =
        (bindArguments n params args).map fun b => some (b, rest)) ∧
    (readCall n params (.opening :: ts) = .error .unexpectedEnd ↔ ¬HasClose ts) ∧
    Collected.collect {} ts = readArguments 0 ts ∧
    (∀ c, ts.foldlM Collected.take {} = some c →
      0 ≤ c.depth ∧ c.depth = ts.count .opening - ts.count .closing) ∧
    ∀ (named : List String) (args : List (List Token)),
      if named.length ≤ args.length then
        ∃ b, bindArguments n (named ++ ["..."]) args = .ok b ∧
          b.find? "__VA_ARGS__" = some ([.sign .comma].intercalate (args.drop named.length))
      else
        bindArguments n (named ++ ["..."]) args =
          .error (.argumentCount n named.length args.length) := by
  simp only [← joinArguments_eq_intercalate]
  refine ⟨fun args rest => readArguments_eq_some_iff, fun args rest hargs => ?_,
    readCall_eq_unexpectedEnd_iff n params, Collected.collect_start ts, fun c hc => ?_,
    bindArguments_variadic n⟩
  · rw [readCall, hargs]
  · obtain ⟨hnonneg, hdepth⟩ := Collected.depth_foldlM hc le_rfl
    exact ⟨hnonneg, by rw [hdepth, zero_add]⟩

/-- In the call `F(1, (2, 3)) 4` one comma parts the arguments, so that an ellipsis after one name
takes `(2, 3)`. After `((2)` one parenthesis is open. -/
theorem arguments_of_nested_comma :
    (∃ b, readCall "F" ["a", "..."] [.opening, .num 1, .sign .comma, .opening, .num 2,
        .sign .comma, .num 3, .closing, .closing, .num 4] = .ok (some (b, [.num 4])) ∧
      b.find? "__VA_ARGS__" = some [.opening, .num 2, .sign .comma, .num 3, .closing]) ∧
    ∃ c, [.opening, .opening, .num 2, .closing].foldlM Collected.take {} = some c ∧
      c.depth = 1 ∧ 0 ≤ c.depth := by
  have hpair : Balanced [.num 2, .sign .comma, .num 3] :=
    .token (by simp) (by simp) (.token (by simp) (by simp) (.token (by simp) (by simp) .nil))
  have hall : ∀ a ∈ [[.num 1], [.opening, .num 2, .sign .comma, .num 3, .closing]],
      IsArgument a := by
    intro a ha
    rcases List.mem_cons.mp ha with rfl | ha
    · exact .token (by simp) (by simp) (by simp) .nil
    · obtain rfl := List.mem_singleton.mp ha
      exact .nest hpair .nil
  have hopen : [.opening, .opening, .num 2, .closing].foldlM Collected.take {} =
    some ⟨[], [.opening, .opening, .num 2, .closing], 1⟩ := rfl
  obtain ⟨hread, hcall, -, -, -, hbind⟩ := arguments_part_at_outer_commas "F" ["a", "..."]
    [.num 1, .sign .comma, .opening, .num 2, .sign .comma, .num 3, .closing, .closing, .num 4]
  obtain ⟨b, hb, hfind⟩ := (if_pos (by decide)).mp
    (hbind ["a"] [[.num 1], [.opening, .num 2, .sign .comma, .num 3, .closing]])
  refine ⟨⟨b, ?_, hfind⟩, _, hopen, rfl, ?_⟩
  · rw [hcall _ _ ((hread _ _).mpr ⟨by simp, hall, rfl⟩)]
    exact congrArg (Except.map fun b => some (b, [Token.num 4])) hb
  · exact ((arguments_part_at_outer_commas "F" [] _).2.2.2.2.1 _ hopen).1

end MacroSweep.Condition
