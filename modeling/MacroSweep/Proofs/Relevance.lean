import MacroSweep.Proofs.ConditionNames
import MacroSweep.Proofs.Expansion
import Mathlib.Data.Set.Basic

/-! The macros that a condition depends on. Take a set of names that holds the names of the
condition, and with a macro the names of its body. Whatever is defined outside of it, the condition
has the same value. -/
namespace MacroSweep.Condition

open Source

variable {S : Set String} {macros macros' : MacroTable} {stack stack' : List String}
  {ts us rest body : List Token} {t : Token} {n : String}

/-- A set of names that is closed: it holds the feature checks, and with a macro what its body
mentions. -/
structure Closed (S : Set String) (macros : MacroTable) : Prop where
  checks : ∀ n : String, featureCheckStart.isPrefixOf n.toList = true → n ∈ S
  bodies : ∀ n ∈ S, ∀ d, macros.find? n = some d → ∀ m ∈ conditionNames d.body.toList, m ∈ S

/-- Tables that agree on a set, and on whether there is a macro called `defined`. -/
structure AgreeOn (S : Set String) (macros macros' : MacroTable) : Prop where
  find? : ∀ n ∈ S, macros.find? n = macros'.find? n
  defined : macros.contains "defined" = macros'.contains "defined"

/-- The names of a token list are in the set, apart from `defined`. -/
def InScope (S : Set String) (ts : List Token) : Prop := ∀ n, .name n ∈ ts → n = "defined" ∨ n ∈ S

theorem InScope.of_subset (h : InScope S ts) (hsub : us ⊆ ts) : InScope S us :=
  fun n hn => h n (hsub hn)

theorem inScope_of_no_names (h : ∀ n, .name n ∉ ts) : InScope S ts := fun n hn => absurd hn (h n)

/-- The tokens of a text are in a closed set that holds its names. -/
theorem inScope_of_tokenize (hclosed : Closed S macros) {cs : List Char}
    (hcs : ∀ n ∈ conditionNames cs, n ∈ S) (h : tokenize cs = .ok ts) : InScope S ts := by
  intro n hn
  rcases mayAsk_of_tokenize h hn with hmem | rfl | hcheck
  · exact .inr (hcs n hmem)
  · exact .inl rfl
  · exact .inr (hclosed.checks n hcheck)

/-- A body is in scope once its arguments are put in. -/
theorem inScope_substitute_of_bound {bound : List (String × List Token)}
    (hbody : ∀ m, .name m ∈ body → m = "defined" ∨ m ∈ S ∨ m ∈ bound.map (·.1))
    (hbound : ∀ a ∈ bound, InScope S a.2) : InScope S (substitute bound body) := by
  intro n hn
  obtain ⟨t, ht, hn⟩ := List.mem_flatMap.mp hn
  cases t with
  | name m =>
    cases hlookup : bound.lookup m with
    | none =>
      obtain rfl : n = m := by simpa [hlookup] using hn
      rcases hbody n ht with hn | hn | hn
      · exact .inl hn
      · exact .inr hn
      · obtain ⟨a, ha, rfl⟩ := List.mem_map.mp hn
        simpa using List.lookup_eq_none_iff.mp hlookup a ha
    | some arg =>
      have harg : .name n ∈ arg := by simpa [hlookup] using hn
      obtain ⟨before, after, hbinding, -⟩ := List.lookup_eq_some_iff.mp hlookup
      exact hbound (m, arg) (by simp [hbinding]) n harg
  | num | sign | opening | closing => simp at hn

/-- A body with its arguments put in is in scope if they all are. -/
theorem inScope_substitute {bound : List (String × List Token)} (hbody : InScope S body)
    (hbound : ∀ a ∈ bound, InScope S a.2) : InScope S (substitute bound body) :=
  inScope_substitute_of_bound (fun m hm => (hbody m hm).imp_right .inl) hbound

theorem AgreeOn.contains_eq (h : AgreeOn S macros macros') (hn : n = "defined" ∨ n ∈ S) :
    macros.contains n = macros'.contains n := by
  rcases hn with rfl | hn
  · exact h.defined
  · rw [SortedMap.contains_eq_isSome, SortedMap.contains_eq_isSome, h.find? n hn]

theorem name_mem_of_readDefined (h : readDefined ts = .ok (n, rest)) : .name n ∈ ts := by
  unfold readDefined at h
  split at h
  · cases h
    simp
  · cases h
    exact List.mem_cons_self
  · cases h

/-- At a token in scope, both tables lead to the same move. -/
theorem move_congr (hagree : AgreeOn S macros macros') (h : InScope S (t :: ts)) :
    move macros stack t ts = move macros' stack t ts := by
  cases t with
  | name n =>
    rw [move, move]
    by_cases hn : n = "defined"
    · rw [if_pos hn, if_pos hn]
      cases hd : readDefined ts with
      | error e => rfl
      | ok d =>
        obtain ⟨target, rest⟩ := d
        have hmem := List.mem_cons_of_mem (.name n) (name_mem_of_readDefined hd)
        simp only [hagree.contains_eq (h target hmem)]
    · rw [if_neg hn, if_neg hn, hagree.find? n ((h n List.mem_cons_self).resolve_left hn)]
  | num | sign | opening | closing => rfl

/-- The names of a job are in the set. -/
def Job.InScope (S : Set String) : Job → Prop
  | text ts => Condition.InScope S ts
  | call _ body todo bound rest => Condition.InScope S body ∧
    (∀ a ∈ todo, Condition.InScope S a.2) ∧ (∀ a ∈ bound, Condition.InScope S a.2) ∧
    Condition.InScope S rest

/-- A call that a text in scope leads to is in scope. -/
theorem inScope_of_move (hclosed : Closed S macros) (h : InScope S (t :: ts))
    {args : List (String × List Token)} (hmove : move macros stack t ts = .call n body args rest) :
    (Job.call n body args [] rest).InScope S := by
  obtain ⟨rfl, hn, -, -, ⟨d, hfind, htok⟩, hrest, hargs⟩ := follows_of_move hmove
  have hmem := (h n List.mem_cons_self).resolve_left hn
  have hts := h.of_subset (List.subset_cons_self _ ts)
  exact ⟨inScope_of_tokenize hclosed (hclosed.bodies n hmem d hfind) htok,
    fun a ha m hm => hts m ((hargs a ha).2 m hm), nofun, hts.of_subset hrest.subset⟩

/-- A run that stays in a closed set is a run with either table. -/
theorem Runs.congr (hclosed : Closed S macros) (hagree : AgreeOn S macros macros') {job : Job}
    {r : Except Error (List Token)} (h : Runs macros job stack stack' r) (hjob : job.InScope S) :
    Runs macros' job stack stack' r := by
  induction h with
  | done => exact .done
  | stop hmove =>
    rw [move_congr hagree hjob] at hmove
    exact .stop hmove
  | @emit stack stack' t ts u rest r hmove _ ih =>
    have hrest := (follows_of_move hmove).2.subset
    rw [move_congr hagree hjob] at hmove
    exact .emit hmove (ih (hjob.of_subset (List.subset_cons_of_subset t hrest)))
  | call hmove _ ih =>
    have hcall := inScope_of_move hclosed hjob hmove
    rw [move_congr hagree hjob] at hmove
    exact .call hmove (ih hcall)
  | argument harg _ iharg ih =>
    obtain ⟨hbody, htodo, hbound, hrest⟩ := hjob
    obtain ⟨hfirst, htodo⟩ := List.forall_mem_cons.mp htodo
    refine .argument (iharg hfirst) (ih ⟨hbody, htodo, ?_, hrest⟩)
    refine List.forall_mem_append.mpr ⟨hbound, List.forall_mem_singleton.mpr ?_⟩
    -- What an argument expands to holds no names.
    exact inScope_of_no_names (harg.no_names rfl)
  | argumentError _ iharg =>
    obtain ⟨-, htodo, -, -⟩ := hjob
    exact .argumentError (iharg (List.forall_mem_cons.mp htodo).1)
  | enter _ _ ihbody ih =>
    obtain ⟨hbody, -, hbound, hrest⟩ := hjob
    exact .enter (ihbody (inScope_substitute hbody hbound)) (ih hrest)
  | enterError _ ihbody =>
    obtain ⟨hbody, -, hbound, -⟩ := hjob
    exact .enterError (ihbody (inScope_substitute hbody hbound))

theorem expand_congr (hclosed : Closed S macros) (hagree : AgreeOn S macros macros')
    (h : InScope S ts) : expand macros stack ts = expand macros' stack ts :=
  ((runs_expand macros stack ts).congr hclosed hagree h).eq.2

/-- The value of a condition, or the error, depends on nothing but the macros that it can mention:
those of a closed set that holds its names, and whether there is a macro called `defined`. -/
theorem evaluate_eq_of_agreeOn {condition : List Char} (hclosed : Closed S macros)
    (hcondition : ∀ n ∈ conditionNames condition, n ∈ S) (hagree : AgreeOn S macros macros') :
    evaluate macros condition = evaluate macros' condition := by
  rw [evaluate, evaluate]
  cases htok : tokenize condition with
  | error e => rfl
  | ok ts =>
    rw [ok_bind, ok_bind, expand_congr hclosed hagree (inScope_of_tokenize hclosed hcondition htok)]

/-- A macro that `A` does not lead to makes no difference to `A`. -/
theorem evaluate_of_unmentioned_macro :
    let macros : MacroTable := .ofList [("A", .object "B + 1"), ("B", .object "1")]
    let condition := "A == 2".toList
    evaluate macros condition = evaluate (macros.insert "C" (.object "A")) condition := by
  intro macros condition
  refine evaluate_eq_of_agreeOn
    (S := {n | n ∈ ["A", "B"] ∨ featureCheckStart.isPrefixOf n.toList = true})
    ⟨fun n hn => .inr hn, ?_⟩ ?_ ⟨?_, by decide +kernel⟩
  · intro n _ d hd
    have hbodies : ∀ e ∈ macros.toList, ∀ m ∈ conditionNames e.2.body.toList, m ∈ ["A", "B"] := by
      decide +kernel
    exact fun m hm => .inl (hbodies (n, d) (SortedMap.mem_toList_iff.mpr hd) m hm)
  · have hnames : conditionNames condition = ["A"] := by decide +kernel
    simp [hnames]
  · intro n hn
    have hne : n ≠ "C" := by
      rintro rfl
      revert hn
      decide +kernel
    rw [SortedMap.find?_insert, if_neg (by simpa using hne)]

/-- The condition `defined defined` asks for a macro called `defined`. -/
theorem evaluate_defined_defined (macros : MacroTable) :
    evaluate macros "defined defined".toList = .ok (truth (macros.contains "defined")) := by
  have htokens : tokenize "defined defined".toList = .ok [.name "defined", .name "defined"] := by
    decide +kernel
  have hexpand : expand macros [] [.name "defined", .name "defined"] =
      .ok [.num (truth (macros.contains "defined"))] := by
    simp [expand_cons, move, readDefined, expand, Except.map]
  have htree : Derives .ternary [.num (truth (macros.contains "defined"))]
      (.num (truth (macros.contains "defined"))) :=
    .loose ((Derives.num _).operand.looser (by decide))
  rw [evaluate, htokens, ok_bind, if_neg (by simp), hexpand, ok_bind, valueOf_of_derives htree]
  rfl

/-- It mentions no names, but two tables that differ in `defined` give it different values. -/
theorem evaluate_ne_of_macro_defined :
    let S : Set String := {n | featureCheckStart.isPrefixOf n.toList = true}
    let macros : MacroTable := .ofList [("defined", .object "1")]
    let condition := "defined defined".toList
    Closed S ∅ ∧ Closed S macros ∧ (∀ n ∈ conditionNames condition, n ∈ S) ∧
      (∀ n ∈ S, (∅ : MacroTable).find? n = macros.find? n) ∧
      evaluate ∅ condition = .ok 0 ∧ evaluate macros condition = .ok 1 := by
  intro S macros condition
  have hnames : conditionNames condition = [] := by decide +kernel
  have hfind : ∀ n ∈ S, (∅ : MacroTable).find? n = macros.find? n := by
    intro n hn
    have hne : n ≠ "defined" := by
      rintro rfl
      revert hn
      decide +kernel
    have hinsert : macros = (∅ : MacroTable).insert "defined" (.object "1") := rfl
    rw [hinsert, SortedMap.find?_insert, if_neg (by simpa using hne)]
  refine ⟨⟨fun n hn => hn, fun n _ d hd => nomatch hd⟩, ⟨fun n hn => hn, fun n hn d hd => ?_⟩, ?_,
    hfind, evaluate_defined_defined ∅, evaluate_defined_defined macros⟩
  · rw [← hfind n hn] at hd
    cases hd
  · simp [hnames]

end MacroSweep.Condition
