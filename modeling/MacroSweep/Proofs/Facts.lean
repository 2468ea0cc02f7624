import MacroSweep.Program.Facts
import MacroSweep.Proofs.Ordered
import MacroSweep.Proofs.Path

/-! Joined facts tell what one of them tells. Facts that tell the same give the same findings in the
same order, but for the spelling of paths, which is not looked at when facts are joined. -/
namespace MacroSweep

namespace Finding

/-- Findings that are equal but for the spelling of the path in their location. -/
def Alike (f g : Finding) : Prop :=
  compare f.location g.location = .eq ∧ { f with location := g.location } = g

instance : DecidableRel Alike := fun f g =>
  inferInstanceAs (Decidable (compare f.location g.location = .eq ∧
    { f with location := g.location } = g))

end Finding

namespace Program

/-- One thing that facts may tell. -/
inductive Observation where
  /-- A symbol is defined, be it nowhere. -/
  | symbol (name : String)
  /-- A symbol is defined at a place. -/
  | site (name : String) (place : Location)
  /-- A symbol is used. -/
  | use (name : String)

namespace Facts

variable {f g : Facts}

/-- Whether facts tell something. Places are compared by the components of their paths. -/
def tells (facts : Facts) : Observation → Bool
  | .symbol name => facts.definitions.contains name
  | .site name place => (facts.sites name).contains place
  | .use name => facts.uses.contains name

theorem tells_empty (o : Observation) : tells {} o = false := by
  cases o <;> rfl

theorem tells_site_eq_any (f : Facts) (name : String) (place : Location) :
    f.tells (.site name place) =
      f.definitions.toList.any fun e => compare name e.1 == .eq && e.2.contains place := by
  refine Eq.trans ?_ (SortedMap.any_toList f.definitions name (·.contains place)).symm
  cases h : f.definitions.find? name with
  | none => simp only [Option.any_none, tells, sites, h, Option.getD_none]; rfl
  | some places => simp [tells, sites, h]

theorem sites_defineAll (f : Facts) (symbol : String) (added : List Location) (name : String) :
    (f.defineAll symbol added).sites name =
      if name = symbol then (f.sites name).insertAll added else f.sites name := by
  simp only [sites, defineAll, SortedMap.find?_insert, Std.LawfulEqOrd.compare_eq_iff_eq]
  by_cases h : name = symbol
  · simp [h]
  · simp [h]

theorem tells_defineAll (f : Facts) (symbol : String) (added : List Location) (o : Observation) :
    (f.defineAll symbol added).tells o = (f.tells o || match o with
      | .symbol name => compare name symbol == .eq
      | .site name place => compare name symbol == .eq && added.any (compare place · == .eq)
      | .use _ => false) := by
  cases o with
  | symbol name =>
    simp only [tells, defineAll, SortedMap.contains_eq_isSome, SortedMap.find?_insert,
      Std.LawfulEqOrd.compare_eq_iff_eq]
    by_cases h : name = symbol <;> simp [h]
  | site name place =>
    simp only [tells, sites_defineAll]
    by_cases h : name = symbol
    · simp [h, SortedSet.contains_insertAll_eq, Bool.or_comm]
    · simp [h]
  | use name => simp [tells, defineAll]

theorem tells_foldl_defineAll (entries : List (String × SortedSet Location)) (f : Facts)
    (o : Observation) :
    (entries.foldl (fun facts e => facts.defineAll e.1 e.2.toList) f).tells o =
      (f.tells o || match o with
        | .symbol name => entries.any fun e => compare name e.1 == .eq
        | .site name place => entries.any fun e => compare name e.1 == .eq && e.2.contains place
        | .use _ => false) := by
  induction entries generalizing f with
  | nil => cases o <;> simp
  | cons e entries ih =>
    rw [List.foldl_cons, ih, tells_defineAll]
    cases o <;> simp [SortedSet.contains_eq_any, Bool.or_assoc]

/-- Joined facts tell what one of them tells. -/
theorem tells_merge (f g : Facts) (o : Observation) :
    (f.merge g).tells o = (f.tells o || g.tells o) := by
  have h := tells_foldl_defineAll g.definitions.toList f o
  cases o with
  | symbol name => exact h
  | site name place =>
    rw [tells_site_eq_any g]
    exact h
  | use name =>
    simp only [tells, merge, SortedSet.contains_insertAll_eq] at h ⊢
    rw [← SortedSet.contains_eq_any]
    simp [h, Bool.or_comm]

/-- The symbols that are defined and not used, each with each of its places. -/
def unusedPlaces (facts : Facts) : List (String × Location) :=
  (facts.definitions.toList.filter fun e => !facts.uses.contains e.1).flatMap fun e =>
    e.2.toList.map (e.1, ·)

theorem unusedMacros_eq_map (facts : Facts) :
    facts.unusedMacros = facts.unusedPlaces.map fun e => unusedMacro e.1 e.2 := by
  simp only [unusedMacros, unusedPlaces, List.map_flatMap, List.map_map, Function.comp_def]

/-- The order of places of symbols: by symbol, then by place. -/
def placeOrder : String × Location → String × Location → Ordering :=
  compareLex (compareOn Prod.fst) (compareOn Prod.snd)

instance : Std.TransCmp placeOrder :=
  inferInstanceAs (Std.TransCmp (compareLex (compareOn Prod.fst) (compareOn Prod.snd)))

theorem placeOrder_eq_iff {d e : String × Location} :
    placeOrder d e = .eq ↔ d.1 = e.1 ∧ compare d.2 e.2 = .eq := by
  simp [placeOrder, compareLex, compareOn, Ordering.then_eq_eq]

theorem pairwise_unusedPlaces (facts : Facts) :
    facts.unusedPlaces.Pairwise fun d e => placeOrder d e = .lt := by
  refine List.pairwise_flatMap.mpr ⟨fun d hd => ?_, ?_⟩
  · refine List.pairwise_map.mpr (d.2.pairwise_toList.imp fun hlt => ?_)
    simp [placeOrder, compareLex, compareOn, hlt]
  · refine (facts.definitions.increasing.filter _).imp fun {a b} hlt => ?_
    intro d hd e he
    obtain ⟨p, -, rfl⟩ := List.mem_map.mp hd
    obtain ⟨q, -, rfl⟩ := List.mem_map.mp he
    simp [placeOrder, compareLex, compareOn, hlt]

/-- The unused places are those that are told and whose symbol is not told to be used. -/
theorem exists_mem_unusedPlaces_iff (facts : Facts) (e : String × Location) :
    (∃ d ∈ facts.unusedPlaces, placeOrder e d = .eq) ↔
      facts.tells (.site e.1 e.2) = true ∧ facts.tells (.use e.1) = false := by
  simp only [tells_site_eq_any, SortedSet.contains_eq_any, List.any_eq_true, Bool.and_eq_true,
    beq_iff_eq, Std.LawfulEqOrd.compare_eq_iff_eq, placeOrder_eq_iff]
  constructor
  · rintro ⟨d, hd, hname, hplace⟩
    obtain ⟨entry, hentry, hd⟩ := List.mem_flatMap.mp hd
    obtain ⟨place, hmem, rfl⟩ := List.mem_map.mp hd
    obtain ⟨hentry, hunused⟩ := List.mem_filter.mp hentry
    exact ⟨⟨entry, hentry, hname, place, hmem, hplace⟩, by simpa [tells, hname] using hunused⟩
  · rintro ⟨⟨entry, hentry, hname, place, hmem, hplace⟩, hunused⟩
    refine ⟨(entry.1, place), List.mem_flatMap.mpr ⟨entry, ?_, ?_⟩, hname, hplace⟩
    · exact List.mem_filter.mpr ⟨hentry, by simpa [tells, hname] using hunused⟩
    · exact List.mem_map_of_mem hmem

theorem alike_unusedMacro_iff {d e : String × Location} :
    (unusedMacro d.1 d.2).Alike (unusedMacro e.1 e.2) ↔ placeOrder d e = .eq := by
  rw [placeOrder_eq_iff]
  constructor
  · rintro ⟨hplace, heq⟩
    exact ⟨Option.some.inj (congrArg Finding.symbol heq), hplace⟩
  · rintro ⟨hname, hplace⟩
    exact ⟨hplace, by simp [unusedMacro, hname]⟩

/-- Facts that tell the same places and uses give the same findings in the same order. -/
theorem forall₂_alike_unusedMacros (h : ∀ o, f.tells o = g.tells o) :
    List.Forall₂ Finding.Alike f.unusedMacros g.unusedMacros := by
  rw [unusedMacros_eq_map, unusedMacros_eq_map, List.forall₂_map_left_iff,
    List.forall₂_map_right_iff]
  simp only [alike_unusedMacro_iff]
  refine forall₂_of_pairwise_lt f.pairwise_unusedPlaces g.pairwise_unusedPlaces fun e => ?_
  rw [exists_mem_unusedPlaces_iff, exists_mem_unusedPlaces_iff, h, h]

/-- There is one finding for a place that is told and whose symbol is not told to be used. -/
theorem countP_alike_unusedMacros (f : Facts) (name : String) (place : Location) :
    f.unusedMacros.countP ((unusedMacro name place).Alike ·) =
      if f.tells (.site name place) = true ∧ f.tells (.use name) = false then 1 else 0 := by
  have hiff := f.exists_mem_unusedPlaces_iff (name, place)
  have hle := countP_le_one_of_pairwise_lt f.pairwise_unusedPlaces (name, place)
  have hcount : f.unusedMacros.countP ((unusedMacro name place).Alike ·) =
      f.unusedPlaces.countP (placeOrder (name, place) · == .eq) := by
    rw [unusedMacros_eq_map, List.countP_map]
    refine List.countP_congr fun e _ => ?_
    simpa using alike_unusedMacro_iff (d := (name, place)) (e := e)
  rw [hcount]
  split
  · next h =>
    obtain ⟨e, he, heq⟩ := hiff.mpr h
    exact Nat.le_antisymm hle (List.countP_pos_iff.mpr ⟨e, he, by simpa using heq⟩)
  · next h =>
    refine List.countP_eq_zero.mpr fun e he heq => h (hiff.mp ⟨e, he, by simpa using heq⟩)

/-- Whether all places are in normal spelling. -/
def IsNormal (facts : Facts) : Prop :=
  ∀ e ∈ facts.definitions.toList, ∀ place ∈ e.2.toList, place.file.IsNormal

theorem isNormal_empty : IsNormal {} := fun _ he => nomatch he

theorem IsNormal.defineAll {symbol : String} {added : List Location} (h : f.IsNormal)
    (hadded : ∀ place ∈ added, place.file.IsNormal) : (f.defineAll symbol added).IsNormal := by
  intro e he place hplace
  rcases SortedMap.eq_or_mem_of_mem_put he with ⟨-, hsites⟩ | he
  · rw [hsites] at hplace
    rcases SortedSet.mem_or_mem_of_mem_insertAll hplace with hplace | hplace
    · exact hadded place hplace
    · unfold sites at hplace
      cases hfind : f.definitions.find? symbol with
      | none => simp [hfind] at hplace; cases hplace
      | some places =>
        rw [hfind] at hplace
        exact h (symbol, places) (SortedMap.mem_toList_iff.mpr hfind) place hplace
  · exact h e he place hplace

theorem IsNormal.merge (hf : f.IsNormal) (hg : g.IsNormal) : (f.merge g).IsNormal := by
  have general : ∀ (entries : List (String × SortedSet Location)) (f : Facts), f.IsNormal →
      (∀ e ∈ entries, ∀ place ∈ e.2.toList, place.file.IsNormal) →
        IsNormal (entries.foldl (fun facts e => facts.defineAll e.1 e.2.toList) f) := by
    intro entries
    induction entries with
    | nil => exact fun f hf _ => hf
    | cons e entries ih =>
      intro f hf hentries
      refine ih _ (hf.defineAll (hentries e List.mem_cons_self)) fun d hd => ?_
      exact hentries d (List.mem_cons_of_mem _ hd)
  exact general _ f hf hg

theorem eq_of_compare_eq {a b : Location} (ha : a.file.IsNormal) (hb : b.file.IsNormal)
    (h : compare a b = .eq) : a = b := by
  obtain ⟨hfile, h⟩ := Ordering.then_eq_eq.mp h
  obtain ⟨hline, hcolumn⟩ := Ordering.then_eq_eq.mp h
  obtain ⟨file, line, column⟩ := a
  obtain ⟨file', line', column'⟩ := b
  obtain rfl : file = file' := ha.eq_of_same hb (beq_iff_eq.mpr hfile)
  obtain rfl : line = line' := Std.LawfulEqOrd.eq_of_compare hline
  obtain rfl : column = column' := Std.LawfulEqOrd.eq_of_compare hcolumn
  rfl

theorem mem_of_contains {places : SortedSet Location} {place : Location}
    (hplaces : ∀ p ∈ places.toList, p.file.IsNormal) (hplace : place.file.IsNormal)
    (h : places.contains place = true) : place ∈ places.toList := by
  rw [SortedSet.contains_eq_any] at h
  obtain ⟨p, hp, heq⟩ := List.any_eq_true.mp h
  rwa [eq_of_compare_eq hplace (hplaces p hp) (by simpa using heq)]

theorem contains_of_mem {places : SortedSet Location} {place : Location}
    (h : place ∈ places.toList) : places.contains place = true := by
  rw [SortedSet.contains_eq_any]
  exact List.any_eq_true.mpr ⟨place, h, by simp⟩

/-- Facts in normal spelling are known by what they tell. -/
theorem IsNormal.eq_of_tells (hf : f.IsNormal) (hg : g.IsNormal)
    (h : ∀ o, f.tells o = g.tells o) : f = g := by
  have huses : f.uses = g.uses := by
    refine SortedSet.ext_toList (eq_of_pairwise_lt f.uses.pairwise_toList
      g.uses.pairwise_toList fun name => ?_)
    rw [← SortedSet.contains_iff_mem, ← SortedSet.contains_iff_mem]
    exact Bool.eq_iff_iff.mp (h (.use name))
  have hsites : ∀ name places places', f.definitions.find? name = some places →
      g.definitions.find? name = some places' → places = places' := by
    intro name places places' hp hp'
    have hn := hf (name, places) (SortedMap.mem_toList_iff.mpr hp)
    have hn' := hg (name, places') (SortedMap.mem_toList_iff.mpr hp')
    have hsame : ∀ place, places.contains place = places'.contains place := by
      intro place
      simpa [tells, sites, hp, hp'] using h (.site name place)
    refine SortedSet.ext_toList (eq_of_pairwise_lt places.pairwise_toList
      places'.pairwise_toList fun place => ⟨fun hm => ?_, fun hm => ?_⟩)
    · exact mem_of_contains hn' (hn place hm) (hsame place ▸ contains_of_mem hm)
    · exact mem_of_contains hn (hn' place hm) (hsame place ▸ contains_of_mem hm)
  have hfind : ∀ name, f.definitions.find? name = g.definitions.find? name := by
    intro name
    -- A symbol may have an entry with no place in it, which only this observation tells.
    have hsymbol := h (.symbol name)
    simp only [tells, SortedMap.contains_eq_isSome] at hsymbol
    cases hp : f.definitions.find? name with
    | none =>
      rw [hp] at hsymbol
      exact (Option.not_isSome_iff_eq_none.mp (by simp [← hsymbol])).symm
    | some places =>
      rw [hp] at hsymbol
      obtain ⟨places', hp'⟩ := Option.isSome_iff_exists.mp hsymbol.symm
      rw [hp', hsites name places places' hp hp']
  have hdefinitions : f.definitions = g.definitions := by
    have hincreasing : ∀ m : SortedMap String (SortedSet Location),
        m.toList.Pairwise fun d e => compareOn Prod.fst d e = .lt := fun m => m.increasing
    refine SortedMap.ext_toList (eq_of_pairwise_lt (hincreasing _) (hincreasing _) fun e => ?_)
    rw [SortedMap.mem_toList_iff, SortedMap.mem_toList_iff, hfind]
  obtain ⟨definitions, uses⟩ := f
  obtain rfl := hdefinitions
  obtain rfl := huses
  rfl

end Facts

end Program

end MacroSweep
