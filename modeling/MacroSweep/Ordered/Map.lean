/-! Finite maps kept as entry lists with strictly increasing keys. Two maps that hold the same
entries are equal, so a map is also its own canonical form. -/
namespace MacroSweep

/-- Entries of a map: each key is below the keys after it. -/
def Increasing {α β : Type} [Ord α] (entries : List (α × β)) : Prop :=
  entries.Pairwise fun a b => compare a.1 b.1 = .lt

/-- A finite map from ordered keys. -/
structure SortedMap (α β : Type) [Ord α] where
  toList : List (α × β)
  increasing : Increasing toList

namespace SortedMap

variable {α β : Type} [Ord α]

/-- Puts an entry in its place; a key already present keeps its spelling and takes the value. -/
def put (k : α) (v : β) : List (α × β) → List (α × β)
  | [] => [(k, v)]
  | e :: rest =>
    match compare k e.1 with
    | .lt => (k, v) :: e :: rest
    | .eq => (e.1, v) :: rest
    | .gt => e :: put k v rest

theorem mem_put {k : α} {v : β} {l : List (α × β)} {e : α × β} (h : e ∈ put k v l) :
    e.1 = k ∨ ∃ d ∈ l, e.1 = d.1 := by
  induction l with
  | nil => simp_all [put]
  | cons d rest ih =>
    unfold put at h
    split at h
    · rcases List.mem_cons.mp h with rfl | h
      · exact .inl rfl
      · exact .inr ⟨e, h, rfl⟩
    · rcases List.mem_cons.mp h with rfl | h
      · exact .inr ⟨d, by simp, rfl⟩
      · exact .inr ⟨e, by simp [h], rfl⟩
    · rcases List.mem_cons.mp h with rfl | h
      · exact .inr ⟨e, by simp, rfl⟩
      · rcases ih h with h | ⟨c, hc, h⟩
        · exact .inl h
        · exact .inr ⟨c, by simp [hc], h⟩

theorem increasing_put [Std.TransOrd α] (k : α) (v : β) {l : List (α × β)}
    (h : Increasing l) : Increasing (put k v l) := by
  induction l with
  | nil => simp [put, Increasing]
  | cons d rest ih =>
    have hd : ∀ e ∈ rest, compare d.1 e.1 = .lt := fun e he => List.rel_of_pairwise_cons h he
    have hr : Increasing rest := List.Pairwise.of_cons h
    unfold put
    split
    · next hk =>
      refine List.pairwise_cons.mpr ⟨fun e he => ?_, h⟩
      rcases List.mem_cons.mp he with rfl | he
      · exact hk
      · exact Std.TransCmp.lt_trans hk (hd e he)
    · exact List.pairwise_cons.mpr ⟨hd, hr⟩
    · next hk =>
      refine List.pairwise_cons.mpr ⟨fun e he => ?_, ih hr⟩
      rcases mem_put he with he | ⟨c, hc, he⟩
      · rw [he, Std.OrientedOrd.eq_swap, hk]; rfl
      · rw [he]; exact hd c hc

/-- The map with no entry. -/
def empty : SortedMap α β := ⟨[], List.Pairwise.nil⟩

instance : Inhabited (SortedMap α β) := ⟨empty⟩

instance : EmptyCollection (SortedMap α β) := ⟨empty⟩

instance [DecidableEq α] [DecidableEq β] : DecidableEq (SortedMap α β) := fun a b =>
  decidable_of_iff (a.toList = b.toList)
    ⟨fun h => by cases a; cases b; cases h; rfl, fun h => h ▸ rfl⟩

def insert [Std.TransOrd α] (m : SortedMap α β) (k : α) (v : β) : SortedMap α β :=
  ⟨put k v m.toList, increasing_put k v m.increasing⟩

/-- The map without the entry of a key. -/
def erase (m : SortedMap α β) (k : α) : SortedMap α β :=
  ⟨m.toList.filter fun e => compare k e.1 != .eq, m.increasing.filter _⟩

def find? (m : SortedMap α β) (k : α) : Option β :=
  (m.toList.find? fun e => compare k e.1 == .eq).map (·.2)

def contains (m : SortedMap α β) (k : α) : Bool :=
  m.toList.any fun e => compare k e.1 == .eq

theorem contains_insert [Std.TransOrd α] (m : SortedMap α β) (k k' : α) (v : β) :
    (m.insert k v).contains k' = (compare k' k == .eq || m.contains k') := by
  have hput : ∀ l : List (α × β), ((put k v l).any fun e => compare k' e.1 == .eq) =
      (compare k' k == .eq || l.any fun e => compare k' e.1 == .eq) := by
    intro l
    induction l with
    | nil => rfl
    | cons d rest ih =>
      unfold put
      split
      · rfl
      · next heq =>
        rw [List.any_cons, List.any_cons, ← Std.TransCmp.congr_right heq, ← Bool.or_assoc,
          Bool.or_self]
      · rw [List.any_cons, List.any_cons, ih, Bool.or_left_comm]
  exact hput m.toList

def keys (m : SortedMap α β) : List α := m.toList.map (·.1)

def isEmpty (m : SortedMap α β) : Bool := m.toList.isEmpty

/-- Inserts entries one after another, so the last value of a key stays. -/
def ofList [Std.TransOrd α] (entries : List (α × β)) : SortedMap α β :=
  entries.foldl (fun m e => m.insert e.1 e.2) empty

theorem value_of_mem_put {k : α} {v : β} {l : List (α × β)} {e : α × β} (h : e ∈ put k v l) :
    e.2 = v ∨ ∃ d ∈ l, e.2 = d.2 := by
  induction l with
  | nil => simp_all [put]
  | cons d rest ih =>
    unfold put at h
    split at h <;> rcases List.mem_cons.mp h with rfl | h
    · exact .inl rfl
    · exact .inr ⟨e, h, rfl⟩
    · exact .inl rfl
    · exact .inr ⟨e, by simp [h], rfl⟩
    · exact .inr ⟨e, by simp, rfl⟩
    · rcases ih h with h | ⟨c, hc, h⟩
      · exact .inl h
      · exact .inr ⟨c, by simp [hc], h⟩

/-- Every value of a map was put there. -/
theorem exists_of_mem_ofList [Std.TransOrd α] {entries : List (α × β)} {e : α × β}
    (h : e ∈ (ofList entries).toList) : ∃ d ∈ entries, e.2 = d.2 := by
  have general : ∀ (m : SortedMap α β), e ∈ (entries.foldl (fun m e => m.insert e.1 e.2) m).toList →
      (∃ d ∈ entries, e.2 = d.2) ∨ ∃ d ∈ m.toList, e.2 = d.2 := by
    clear h
    induction entries with
    | nil => exact fun m h => .inr ⟨e, h, rfl⟩
    | cons d rest ih =>
      intro m h
      rcases ih (m.insert d.1 d.2) h with ⟨c, hc, h⟩ | ⟨c, hc, h⟩
      · exact .inl ⟨c, by simp [hc], h⟩
      · rcases value_of_mem_put hc with hv | ⟨b, hb, hv⟩
        · exact .inl ⟨d, by simp, h.trans hv⟩
        · exact .inr ⟨b, hb, h.trans hv⟩
  rcases general empty h with h | ⟨d, hd, _⟩
  · exact h
  · simp [empty] at hd

theorem increasing_map {γ : Type} (f : α × β → γ) {l : List (α × β)} (h : Increasing l) :
    Increasing (l.map fun e => (e.1, f e)) := by
  simpa [Increasing, List.pairwise_map] using h

/-- Rewrites every value, leaving the keys. -/
def mapWithKey {γ : Type} (f : α → β → γ) (m : SortedMap α β) : SortedMap α γ :=
  ⟨m.toList.map fun e => (e.1, f e.1 e.2), increasing_map (fun e => f e.1 e.2) m.increasing⟩

end SortedMap

end MacroSweep
