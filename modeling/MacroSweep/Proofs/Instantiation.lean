import MacroSweep.Template.Guard
import Mathlib.Data.List.Nodup
import Mathlib.Logic.Relation

/-! Expansion of templates with a list of waiting requests. The expansion ends, whatever templates
ask for: every new instance is deeper than the one that asked for it. A request that is left out is
cut at the bound or its template is known, so without a cut all that can be reached is expanded.
Where a template is first reached at the bound, a shorter chain to it does not help. -/
namespace MacroSweep.Template

/-- A request that waits: the template, the number of the instance that asks for it, and where. -/
structure Request where
  name : String
  parent : Option Nat
  location : Location

/-- An expansion under way: the requests that wait, the next first, and those that were granted, in
order. What a template asks for is found out when its request is granted. -/
structure Expansion where
  guard : Guard
  waiting : List Request
  granted : List Request

/-- What the instance of a template asks for. -/
def requests (children : String → List (String × Location)) (id : Nat) (name : String) :
    List Request :=
  (children name).map fun c => ⟨c.1, some id, c.2⟩

/-- Takes the next request. If it is granted, what the new instance asks for comes before all that
waits. -/
def Expansion.next? (children : String → List (String × Location)) (s : Expansion) :
    Option Expansion :=
  match s.waiting with
  | [] => none
  | r :: rest =>
    match s.guard.instantiate r.name r.parent r.location with
    | (.proceed id, g) => some ⟨g, requests children id r.name ++ rest, s.granted ++ [r]⟩
    | (_, g) => some ⟨g, rest, s.granted⟩

/-- The expansion goes on for some steps. -/
def Runs (children : String → List (String × Location)) : Expansion → Expansion → Prop :=
  Relation.ReflTransGen fun s t => s.next? children = some t

/-- The expansion of a root by a fresh guard. -/
def Expansion.start (bound : Nat) (root : String × Location) : Expansion :=
  ⟨{ bound }, [⟨root.1, none, root.2⟩], []⟩

variable {children : String → List (String × Location)} {g g' : Guard} {s t : Expansion}
  {r w : Request} {rest granted : List Request} {name : String} {root : String × Location}
  {bound k p room : Nat} {i : Instantiation}

theorem getElem?_extend {arena arena' : List Instantiation} (h : arena <+: arena')
    (hi : arena[k]? = some i) : arena'[k]? = some i := by
  obtain ⟨more, rfl⟩ := h
  obtain ⟨hk, -⟩ := List.getElem?_eq_some_iff.mp hi
  rw [List.getElem?_append_left hk, hi]

namespace Guard

/-- How deep an instance is; a request from outside has none above it. -/
def depthOf (g : Guard) (parent : Option Nat) : Nat :=
  ((parent.bind (g.arena[·]?)).map (·.depth)).getD 0

/-- Whether a template has an instance. -/
def Knows (g : Guard) (name : String) : Prop := name ∈ g.arena.map (·.name)

instance (g : Guard) (name : String) : Decidable (g.Knows name) :=
  inferInstanceAs (Decidable (name ∈ g.arena.map (·.name)))

/-- The guard with one more instance. -/
def record (g : Guard) (name : String) (parent : Option Nat) : Guard :=
  { g with arena := g.arena ++ [⟨name, g.depthOf parent + 1⟩] }

@[simp] theorem arena_cut (g : Guard) (deepest : String) (location : Location) :
    (g.cut deepest location).arena = g.arena := by
  unfold cut
  split <;> rfl

@[simp] theorem bound_cut (g : Guard) (deepest : String) (location : Location) :
    (g.cut deepest location).bound = g.bound := by
  unfold cut
  split <;> rfl

@[simp] theorem isTripped_cut (g : Guard) (deepest : String) (location : Location) :
    (g.cut deepest location).isTripped = true := by
  unfold cut
  split
  · next h => simp [isTripped, h]
  · rfl

theorem depthOf_extend (h : g.arena <+: g'.arena) (hp : p < g.arena.length) :
    g'.depthOf (some p) = g.depthOf (some p) := by
  have hi := List.getElem?_eq_getElem hp
  simp [depthOf, hi, getElem?_extend h hi]

/-- What can become of a request: the template is known, the chain is cut, or there is a new
instance. -/
theorem instantiate_cases (g : Guard) (name : String) (parent : Option Nat) (location : Location) :
    (g.Knows name ∧ ∃ id, g.instantiate name parent location = (.known id, g)) ∨
    (g.bound ≤ g.depthOf parent ∧
      ∃ deepest, g.instantiate name parent location = (.stopped, g.cut deepest location)) ∨
    (¬g.Knows name ∧ g.depthOf parent < g.bound ∧
      g.instantiate name parent location = (.proceed g.arena.length, g.record name parent)) := by
  unfold instantiate
  cases hfind : g.arena.findIdx? (·.name == name) with
  | some id =>
    have hknown : g.Knows name := by
      have hsome : (g.arena.findIdx? (·.name == name)).isSome = true := by rw [hfind]; rfl
      obtain ⟨i, hi, hname⟩ := List.any_eq_true.mp (List.findIdx?_isSome ▸ hsome)
      exact List.mem_map.mpr ⟨i, hi, by simpa using hname⟩
    exact .inl ⟨hknown, id, rfl⟩
  | none =>
    have hnew : ¬g.Knows name := by
      intro hknown
      obtain ⟨i, hi, hname⟩ := List.mem_map.mp hknown
      have hne := List.findIdx?_eq_none_iff.mp hfind i hi
      simp [hname] at hne
    dsimp only
    split
    · next hdeep => exact .inr (.inl ⟨Nat.le_of_lt_succ hdeep, _, rfl⟩)
    · next hroom =>
      exact .inr (.inr ⟨hnew, Nat.lt_of_succ_le (Nat.le_of_not_lt hroom), rfl⟩)

end Guard

/-- What one step does to an expansion. -/
theorem next?_cases (h : s.next? children = some t) : ∃ r rest, s.waiting = r :: rest ∧
    ((s.guard.Knows r.name ∧ t = ⟨s.guard, rest, s.granted⟩) ∨
    (s.guard.bound ≤ s.guard.depthOf r.parent ∧
      ∃ deepest, t = ⟨s.guard.cut deepest r.location, rest, s.granted⟩) ∨
    (¬s.guard.Knows r.name ∧ s.guard.depthOf r.parent < s.guard.bound ∧
      t = ⟨s.guard.record r.name r.parent, requests children s.guard.arena.length r.name ++ rest,
        s.granted ++ [r]⟩)) := by
  obtain ⟨g, waiting, granted⟩ := s
  cases waiting with
  | nil => cases h
  | cons r rest =>
    refine ⟨r, rest, rfl, ?_⟩
    rcases g.instantiate_cases r.name r.parent r.location with
      ⟨hknown, id, heq⟩ | ⟨hdeep, deepest, heq⟩ | ⟨hnew, hroom, heq⟩
    all_goals simp only [Expansion.next?, heq, Option.some.injEq] at h
    · exact .inl ⟨hknown, h.symm⟩
    · exact .inr (.inl ⟨hdeep, deepest, h.symm⟩)
    · exact .inr (.inr ⟨hnew, hroom, h.symm⟩)

section Termination

theorem grows_of_next? (h : s.next? children = some t) :
    s.guard.arena <+: t.guard.arena ∧ t.guard.bound = s.guard.bound := by
  obtain ⟨r, rest, -, ⟨-, rfl⟩ | ⟨-, deepest, rfl⟩ | ⟨-, -, rfl⟩⟩ := next?_cases h
  · exact ⟨List.prefix_refl _, rfl⟩
  · simp
  · exact ⟨List.prefix_append _ _, rfl⟩

/-- Instances stay as they are. -/
theorem grows_of_runs (h : Runs children s t) :
    s.guard.arena <+: t.guard.arena ∧ t.guard.bound = s.guard.bound := by
  induction h with
  | refl => exact ⟨List.prefix_refl _, rfl⟩
  | tail _ hnext ih =>
    obtain ⟨harena, hbound⟩ := grows_of_next? hnext
    exact ⟨ih.1.trans harena, hbound.trans ih.2⟩

/-- A request that is not granted is done with. -/
theorem next?_of_not_granted {o : Outcome}
    (h : g.instantiate r.name r.parent r.location = (o, g')) (ho : ∀ id, o ≠ .proceed id) :
    Expansion.next? children ⟨g, r :: rest, granted⟩ =
      some ⟨g.visit children room r.parent (r.name, r.location), rest, granted⟩ := by
  rw [Guard.visit.eq_def]
  cases o with
  | proceed id => exact absurd rfl (ho id)
  | known | stopped => simp [Expansion.next?, h]

/-- Requests of one instance are carried out one after the other, if each of them is carried out
below it. -/
theorem runs_foldl_visit
    (hvisit : ∀ g (r : Request) rest granted, g.bound ≤ room + g.depthOf r.parent →
      ∃ more, Runs children ⟨g, r :: rest, granted⟩
        ⟨g.visit children room r.parent (r.name, r.location), rest, granted ++ more⟩)
    (cs : List (String × Location)) (rest granted : List Request) (hp : p < g.arena.length)
    (hroom : g.bound ≤ room + g.depthOf (some p)) :
    ∃ more, Runs children ⟨g, cs.map (fun c => ⟨c.1, some p, c.2⟩) ++ rest, granted⟩
      ⟨cs.foldl (Guard.visit children room (some p)) g, rest, granted ++ more⟩ := by
  induction cs generalizing g granted with
  | nil => exact ⟨[], by rw [List.append_nil]; exact .refl⟩
  | cons c cs ih =>
    obtain ⟨more, hfirst⟩ := hvisit g ⟨c.1, some p, c.2⟩
      (cs.map (fun c => ⟨c.1, some p, c.2⟩) ++ rest) granted hroom
    obtain ⟨harena, hbound⟩ := grows_of_runs hfirst
    dsimp only at harena hbound
    have hp' := Nat.lt_of_lt_of_le hp harena.length_le
    rw [← hbound, ← Guard.depthOf_extend harena hp] at hroom
    obtain ⟨others, hrest⟩ := ih (granted ++ more) hp' hroom
    exact ⟨more ++ others, by rw [← List.append_assoc]; exact hfirst.trans hrest⟩

/-- A request is carried out before those that wait behind it. The room below it is enough, since
the guard cuts chains at the bound. -/
theorem runs_visit (children : String → List (String × Location)) (room : Nat) (g : Guard)
    (r : Request) (rest granted : List Request) (hroom : g.bound ≤ room + g.depthOf r.parent) :
    ∃ more, Runs children ⟨g, r :: rest, granted⟩
      ⟨g.visit children room r.parent (r.name, r.location), rest, granted ++ more⟩ := by
  induction room generalizing g r rest granted with
  | zero =>
    refine ⟨[], .single ?_⟩
    rw [List.append_nil]
    rcases g.instantiate_cases r.name r.parent r.location with
      ⟨-, id, heq⟩ | ⟨-, deepest, heq⟩ | ⟨-, hlt, -⟩
    · exact next?_of_not_granted heq (by simp)
    · exact next?_of_not_granted heq (by simp)
    · omega
  | succ room ih =>
    rcases g.instantiate_cases r.name r.parent r.location with
      ⟨-, id, heq⟩ | ⟨-, deepest, heq⟩ | ⟨-, hlt, heq⟩
    · exact ⟨[], .single (by rw [List.append_nil]; exact next?_of_not_granted heq (by simp))⟩
    · exact ⟨[], .single (by rw [List.append_nil]; exact next?_of_not_granted heq (by simp))⟩
    · have hp : g.arena.length < (g.record r.name r.parent).arena.length := by
        simp [Guard.record]
      have hdepth : (g.record r.name r.parent).depthOf (some g.arena.length) =
          g.depthOf r.parent + 1 := by simp [Guard.depthOf, Guard.record]
      have hbelow : (g.record r.name r.parent).bound ≤
          room + (g.record r.name r.parent).depthOf (some g.arena.length) := by
        rw [hdepth]
        change g.bound ≤ _
        omega
      obtain ⟨more, hrest⟩ :=
        runs_foldl_visit ih (children r.name) rest (granted ++ [r]) hp hbelow
      have hnext : Expansion.next? children ⟨g, r :: rest, granted⟩ =
          some ⟨g.record r.name r.parent,
            requests children g.arena.length r.name ++ rest, granted ++ [r]⟩ := by
        simp only [Expansion.next?, heq]
      rw [List.append_assoc, List.singleton_append] at hrest
      rw [Guard.visit.eq_def]
      simp only [heq]
      exact ⟨r :: more, .head hnext hrest⟩

/-- An expansion that comes to an end does so however it goes on: there is one next step. -/
theorem acc_of_runs (h : Runs children s t) (hend : t.next? children = none) :
    Acc (fun t s => s.next? children = some t) s := by
  induction h using Relation.ReflTransGen.head_induction_on with
  | refl => exact ⟨t, fun u hu => by rw [hend] at hu; cases hu⟩
  | head hnext _ ih =>
    refine ⟨_, fun u hu => ?_⟩
    rw [hnext] at hu
    obtain rfl := Option.some.inj hu
    exact ih

theorem runs_expand (children : String → List (String × Location)) (bound : Nat)
    (root : String × Location) :
    ∃ granted, Runs children (.start bound root)
      ⟨Guard.expand { bound } root.1 root.2 children, [], granted⟩ := by
  exact runs_visit children bound { bound } ⟨root.1, none, root.2⟩ [] [] (Nat.le_add_right _ _)

end Termination

section Invariant

/-- The `k`-th request to be granted, and the instance that it gives: that of the root if it comes
from outside, else one that an earlier instance asks for, one deeper than that. -/
inductive Grants (children : String → List (String × Location)) (root : String × Location)
    (arena : List Instantiation) (k : Nat) : Request → Instantiation → Prop
  | outside : Grants children root arena k ⟨root.1, none, root.2⟩ ⟨root.1, 1⟩
  | inside {p : Nat} {j : Instantiation} {c : String × Location} (hp : p < k)
      (hj : arena[p]? = some j) (hc : c ∈ children j.name) :
      Grants children root arena k ⟨c.1, some p, c.2⟩ ⟨c.1, j.depth + 1⟩

theorem Grants.eq (h : Grants children root g.arena k r i) :
    i = ⟨r.name, g.depthOf r.parent + 1⟩ := by
  cases h with
  | outside => rfl
  | inside hp hj hc => simp [Guard.depthOf, hj]

theorem Grants.mono {arena arena' : List Instantiation} {k' : Nat}
    (h : Grants children root arena k r i) (harena : arena <+: arena') (hk : k ≤ k') :
    Grants children root arena' k' r i := by
  cases h with
  | outside => exact .outside
  | inside hp hj hc => exact .inside (Nat.lt_of_lt_of_le hp hk) (getElem?_extend harena hj) hc

/-- Whether a request could be granted next. -/
def Expansion.Asks (children : String → List (String × Location)) (root : String × Location)
    (s : Expansion) (r : Request) : Prop :=
  ∃ i, Grants children root s.guard.arena s.guard.arena.length r i

/-- Whether a request is answered, waits or was cut. -/
def Expansion.Settles (s : Expansion) (r : Request) : Prop :=
  s.guard.Knows r.name ∨ r ∈ s.waiting ∨
    s.guard.bound ≤ s.guard.depthOf r.parent ∧ s.guard.isTripped = true

/-- What holds of every expansion that starts with a request for the root. -/
structure Sound (children : String → List (String × Location)) (bound : Nat)
    (root : String × Location) (s : Expansion) : Prop where
  bound_eq : s.guard.bound = bound
  names_eq : s.guard.arena.map (·.name) = s.granted.map (·.name)
  nodup : (s.granted.map (·.name)).Nodup
  records : ∀ k i, s.guard.arena[k]? = some i → i.depth ≤ bound ∧
    ∃ r, s.granted[k]? = some r ∧ Grants children root s.guard.arena k r i
  waits : ∀ r ∈ s.waiting, s.Asks children root r
  settles : ∀ r, s.Asks children root r → s.Settles r

theorem sound_start (children : String → List (String × Location)) (bound : Nat)
    (root : String × Location) : Sound children bound root (.start bound root) where
  bound_eq := rfl
  names_eq := rfl
  nodup := List.nodup_nil
  records k i h := by cases h
  waits r hr := by
    obtain rfl := List.mem_singleton.mp hr
    exact ⟨_, .outside⟩
  settles r hr := by
    obtain ⟨i, hr⟩ := hr
    cases hr with
    | outside => exact .inr (.inl List.mem_cons_self)
    | inside hp => cases hp

/-- A request that waits stays, until its template is known or the chain is cut. -/
theorem Expansion.Settles.step (h : s.Settles w) (hasks : s.Asks children root w)
    (hnext : s.next? children = some t) : t.Settles w := by
  obtain ⟨harena, hbound⟩ := grows_of_next? hnext
  have hdepth : t.guard.depthOf w.parent = s.guard.depthOf w.parent := by
    obtain ⟨i, hi⟩ := hasks
    have heq := hi.eq.symm.trans (hi.mono harena (Nat.le_refl _)).eq
    exact (Nat.succ.inj (Instantiation.mk.inj heq).2).symm
  obtain ⟨r, rest, hwaiting, hcases⟩ := next?_cases hnext
  rcases h with hknown | hwaits | ⟨hdeep, htripped⟩
  · exact .inl ((harena.map (·.name)).subset hknown)
  · rw [hwaiting] at hwaits
    rcases hcases with ⟨hknown, rfl⟩ | ⟨hdeep, deepest, rfl⟩ | ⟨-, -, rfl⟩
    · rcases List.mem_cons.mp hwaits with rfl | hwaits
      · exact .inl hknown
      · exact .inr (.inl hwaits)
    · rcases List.mem_cons.mp hwaits with rfl | hwaits
      · exact .inr (.inr ⟨by rw [hbound, hdepth]; exact hdeep, Guard.isTripped_cut ..⟩)
      · exact .inr (.inl hwaits)
    · rcases List.mem_cons.mp hwaits with rfl | hwaits
      · exact .inl (by simp [Guard.Knows, Guard.record])
      · exact .inr (.inl (List.mem_append_right _ hwaits))
  · refine .inr (.inr ⟨by rw [hbound, hdepth]; exact hdeep, ?_⟩)
    rcases hcases with ⟨-, rfl⟩ | ⟨-, deepest, rfl⟩ | ⟨-, -, rfl⟩
    · exact htripped
    · exact Guard.isTripped_cut ..
    · exact htripped

/-- An instance is an old one or the new one. -/
theorem Guard.getElem?_record {parent : Option Nat}
    (h : (g.record name parent).arena[k]? = some i) :
    g.arena[k]? = some i ∨ k = g.arena.length ∧ i = ⟨name, g.depthOf parent + 1⟩ := by
  rw [record, List.getElem?_append] at h
  split at h
  · exact .inl h
  · next hk =>
    obtain ⟨hlt, heq⟩ := List.getElem?_eq_some_iff.mp h
    rw [List.length_singleton] at hlt
    refine .inr ⟨by omega, ?_⟩
    simpa using heq.symm

namespace Sound

variable (h : Sound children bound root s)

include h

/-- A request that is granted gives an instance one deeper than the one that asks. -/
theorem grant (hwaiting : s.waiting = r :: rest) (hnew : ¬s.guard.Knows r.name)
    (hroom : s.guard.depthOf r.parent < s.guard.bound)
    (hnext : s.next? children = some ⟨s.guard.record r.name r.parent,
      requests children s.guard.arena.length r.name ++ rest, s.granted ++ [r]⟩) :
    Sound children bound root ⟨s.guard.record r.name r.parent,
      requests children s.guard.arena.length r.name ++ rest, s.granted ++ [r]⟩ := by
  have hlength : s.guard.arena.length = s.granted.length := by
    simpa using congrArg List.length h.names_eq
  obtain ⟨harena, hbound⟩ := grows_of_next? hnext
  dsimp only at harena hbound
  have hlast : (s.guard.record r.name r.parent).arena[s.guard.arena.length]? =
      some ⟨r.name, s.guard.depthOf r.parent + 1⟩ := List.getElem?_concat_length
  obtain ⟨i, hgrants⟩ := h.waits r (hwaiting ▸ List.mem_cons_self)
  obtain rfl := hgrants.eq
  exact {
    bound_eq := hbound.trans h.bound_eq
    names_eq := by simp [Guard.record, h.names_eq]
    nodup := by
      rw [List.map_append, List.map_singleton, List.nodup_append_comm, List.singleton_append,
        List.nodup_cons, ← h.names_eq]
      exact ⟨hnew, h.names_eq ▸ h.nodup⟩
    records := by
      intro k i hi
      rcases Guard.getElem?_record hi with hold | ⟨rfl, rfl⟩
      · obtain ⟨hdepth, r', hr', hgrants'⟩ := h.records k i hold
        obtain ⟨hk, -⟩ := List.getElem?_eq_some_iff.mp hr'
        exact ⟨hdepth, r', by rw [List.getElem?_append_left hk, hr'],
          hgrants'.mono harena (Nat.le_refl k)⟩
      · exact ⟨h.bound_eq ▸ hroom, r, by simp [hlength], hgrants.mono harena (Nat.le_refl _)⟩
    waits := by
      intro r' hr'
      rcases List.mem_append.mp hr' with hr' | hr'
      · obtain ⟨c, hc, rfl⟩ := List.mem_map.mp hr'
        exact ⟨_, .inside (by simp [Guard.record]) hlast hc⟩
      · obtain ⟨i, hi⟩ := h.waits r' (hwaiting ▸ List.mem_cons_of_mem r hr')
        exact ⟨i, hi.mono harena harena.length_le⟩
    settles := by
      rintro r' ⟨i, hi⟩
      -- What the new instance asks for waits, and all else was settled before.
      cases hi with
      | outside => exact (h.settles _ ⟨_, .outside⟩).step ⟨_, .outside⟩ hnext
      | @inside p j c hp hj hc =>
        rcases Guard.getElem?_record hj with hold | ⟨rfl, rfl⟩
        · obtain ⟨hlt, -⟩ := List.getElem?_eq_some_iff.mp hold
          have hasks : s.Asks children root ⟨c.1, some p, c.2⟩ := ⟨_, .inside hlt hold hc⟩
          exact (h.settles _ hasks).step hasks hnext
        · exact .inr (.inl (List.mem_append_left _ (List.mem_map.mpr ⟨c, hc, rfl⟩))) }

/-- A request that is not granted leaves the instances as they are. -/
theorem skip (hwaiting : s.waiting = r :: rest) (hnext : s.next? children = some t)
    (harena : t.guard.arena = s.guard.arena) (hrest : t.waiting = rest)
    (hgranted : t.granted = s.granted) : Sound children bound root t := by
  have hasks : t.Asks children root = s.Asks children root := by
    funext r
    rw [Expansion.Asks, Expansion.Asks, harena]
  refine ⟨(grows_of_next? hnext).2.trans h.bound_eq, ?_, ?_, ?_, ?_, ?_⟩
  · rw [harena, hgranted]
    exact h.names_eq
  · rw [hgranted]
    exact h.nodup
  · rw [harena, hgranted]
    exact h.records
  · rw [hrest, hasks]
    intro r' hr'
    exact h.waits r' (hwaiting ▸ List.mem_cons_of_mem r hr')
  · rw [hasks]
    intro r' hr'
    exact (h.settles r' hr').step hr' hnext

theorem step (hnext : s.next? children = some t) : Sound children bound root t := by
  obtain ⟨r, rest, hwaiting, ⟨-, rfl⟩ | ⟨-, deepest, rfl⟩ | ⟨hnew, hroom, rfl⟩⟩ :=
    next?_cases hnext
  · exact h.skip hwaiting hnext rfl rfl rfl
  · exact h.skip hwaiting hnext (Guard.arena_cut ..) rfl rfl
  · exact h.grant hwaiting hnew hroom hnext

theorem run (hrun : Runs children s t) : Sound children bound root t := by
  induction hrun with
  | refl => exact h
  | tail _ hnext ih => exact ih.step hnext

end Sound

end Invariant

section Chains

/-- Chains of requests that start with the root, by their last template and the number of their
templates. -/
inductive Reaches (children : String → List (String × Location)) (root : String) :
    String → Nat → Prop
  | root : Reaches children root root 1
  | request {name : String} {n : Nat} {c : String × Location} (h : Reaches children root name n)
      (hc : c ∈ children name) : Reaches children root c.1 (n + 1)

namespace Sound

variable (h : Sound children bound root ⟨g, [], granted⟩)

include h

/-- An instance is as deep as the chain of requests that led to it is long. -/
theorem reaches {k : Nat} {i : Instantiation} (hi : g.arena[k]? = some i) :
    Reaches children root.1 i.name i.depth := by
  induction k using Nat.strongRecOn generalizing i with
  | ind k ih =>
    obtain ⟨-, r, -, hgrants⟩ := h.records k i hi
    cases hgrants with
    | outside => exact .root
    | inside hp hj hc => exact .request (ih _ hp hj) hc

theorem reaches_of_knows (hname : g.Knows name) : ∃ n, Reaches children root.1 name n := by
  obtain ⟨i, hi, rfl⟩ := List.mem_map.mp hname
  obtain ⟨k, hk⟩ := List.mem_iff_getElem?.mp hi
  exact ⟨i.depth, h.reaches hk⟩

theorem knows_root : g.Knows root.1 ∨ bound = 0 ∧ g.isTripped = true := by
  rcases h.settles _ ⟨_, .outside⟩ with hroot | hroot | ⟨hbound, htripped⟩
  · exact .inl hroot
  · cases hroot
  · exact .inr ⟨h.bound_eq ▸ Nat.le_zero.mp hbound, htripped⟩

/-- What an instance asks for is known, unless it is at the bound and the chain was cut. -/
theorem knows_child (hi : i ∈ g.arena) {c : String × Location} (hc : c ∈ children i.name) :
    g.Knows c.1 ∨ i.depth = bound ∧ g.isTripped = true := by
  obtain ⟨k, hk⟩ := List.mem_iff_getElem?.mp hi
  obtain ⟨hlt, -⟩ := List.getElem?_eq_some_iff.mp hk
  rcases h.settles ⟨c.1, some k, c.2⟩ ⟨_, .inside hlt hk hc⟩ with
    hchild | hchild | ⟨hbound, htripped⟩
  · exact .inl hchild
  · cases hchild
  · have hle := (h.records k i hk).1
    have hdepth : g.depthOf (some k) = i.depth := by simp [Guard.depthOf, hk]
    rw [h.bound_eq, hdepth] at hbound
    exact .inr ⟨Nat.le_antisymm hle hbound, htripped⟩

/-- Without a cut, all that can be reached is known. -/
theorem knows_of_reaches (htripped : g.isTripped = false) {n : Nat}
    (hname : Reaches children root.1 name n) : g.Knows name := by
  induction hname with
  | root => exact h.knows_root.resolve_right fun hcut => by simp [htripped] at hcut
  | request _ hc ih =>
    obtain ⟨i, hi, rfl⟩ := List.mem_map.mp ih
    exact (h.knows_child hi hc).resolve_right fun hcut => by simp [htripped] at hcut

end Sound

theorem exists_sound (children : String → List (String × Location)) (bound : Nat)
    (root : String × Location) : ∃ granted,
      Runs children (.start bound root)
        ⟨Guard.expand { bound } root.1 root.2 children, [], granted⟩ ∧
      Sound children bound root ⟨Guard.expand { bound } root.1 root.2 children, [], granted⟩ := by
  obtain ⟨granted, hrun⟩ := runs_expand children bound root
  exact ⟨granted, hrun, (sound_start children bound root).run hrun⟩

/-- A fresh guard expands a root in finitely many steps, whatever templates ask for. No template is
asked twice for what it needs. Every instance is at most as deep as the bound, and one deeper than
the one that asked for it. At most one finding is left; and if no chain was cut, the templates that
were expanded are all that can be reached from the root. -/
theorem expansion_of_fresh_guard (children : String → List (String × Location)) (bound : Nat)
    (root : String × Location) :
    let g := Guard.expand { bound } root.1 root.2 children
    Acc (fun t s : Expansion => s.next? children = some t) (.start bound root) ∧
    ∃ granted : List Request,
      Runs children (.start bound root) ⟨g, [], granted⟩ ∧
      (granted.map (·.name)).Nodup ∧
      g.arena.length = granted.length ∧
      (∀ k i, g.arena[k]? = some i → 1 ≤ i.depth ∧ i.depth ≤ bound ∧
        ∃ r, granted[k]? = some r ∧ Grants children root g.arena k r i) ∧
      g.takeFindings.1.length ≤ 1 ∧
      (g.isTripped = false →
        ∀ name, name ∈ granted.map (·.name) ↔ ∃ n, Reaches children root.1 name n) := by
  intro g
  obtain ⟨granted, hrun, hsound⟩ := exists_sound children bound root
  refine ⟨acc_of_runs hrun rfl, granted, hrun, hsound.nodup, ?_, ?_, ?_, ?_⟩
  · simpa using congrArg List.length hsound.names_eq
  · intro k i hi
    obtain ⟨hle, r, hr, hgrants⟩ := hsound.records k i hi
    have hpos : 1 ≤ i.depth := by
      obtain rfl := hgrants.eq
      exact Nat.le_add_left _ _
    exact ⟨hpos, hle, r, hr, hgrants⟩
  · exact Option.length_toList_le
  · intro htripped name
    rw [← hsound.names_eq]
    constructor
    · exact hsound.reaches_of_knows
    · rintro ⟨n, hn⟩
      exact hsound.knows_of_reaches htripped hn

/-- All templates within the bound are expanded if and only if none that was first reached at the
bound, but is also at the end of a shorter chain, asks for one that is not expanded. -/
theorem expands_within_bound_iff (children : String → List (String × Location)) (bound : Nat)
    (root : String × Location) :
    let g := Guard.expand { bound } root.1 root.2 children
    (∀ name n, Reaches children root.1 name n → n ≤ bound → g.Knows name) ↔
      ∀ i ∈ g.arena, i.depth = bound → (∃ n < bound, Reaches children root.1 i.name n) →
        ∀ c ∈ children i.name, g.Knows c.1 := by
  intro g
  obtain ⟨granted, -, hsound⟩ := exists_sound children bound root
  constructor
  · rintro hall i - - ⟨n, hn, hreaches⟩ c hc
    exact hall c.1 (n + 1) (.request hreaches hc) hn
  · intro hlast name n hreaches hn
    induction hreaches with
    | root =>
      refine hsound.knows_root.resolve_right fun hcut => ?_
      omega
    | @request name n c hreaches hc ih =>
      obtain ⟨i, hi, rfl⟩ := List.mem_map.mp (ih (by omega))
      rcases hsound.knows_child hi hc with hchild | ⟨hdepth, -⟩
      · exact hchild
      · exact hlast i hi hdepth ⟨n, by omega, hreaches⟩ c hc

/-- `B` is asked for by `A` first, and only then by the root itself. -/
def detour : String → List (String × Location)
  | "R" => [("A", ⟨⟨"t.cpp"⟩, 2, 1⟩), ("B", ⟨⟨"t.cpp"⟩, 3, 1⟩)]
  | "A" => [("B", ⟨⟨"t.cpp"⟩, 4, 1⟩)]
  | "B" => [("C", ⟨⟨"t.cpp"⟩, 5, 1⟩)]
  | _ => []

/-- Three templates lead to `C`, but with a bound of three it is not expanded. -/
theorem not_expands_behind_detour :
    Reaches detour "R" "C" 3 ∧
      ¬(Guard.expand { bound := 3 } "R" ⟨⟨"t.cpp"⟩, 1, 1⟩ detour).Knows "C" := by
  refine ⟨?_, by decide +kernel⟩
  have hb : Reaches detour "R" "B" 2 := .request (c := ("B", _)) .root (.tail _ (.head _))
  exact .request (c := ("C", _)) hb (.head _)

end Chains

end MacroSweep.Template
