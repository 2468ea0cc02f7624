import Mathlib.Data.List.Induction
import Mathlib.Data.List.Infix
import Mathlib.Data.List.Nodup

/-! Begin and end markers as brackets. Each identifier has brackets of its own, and a begin belongs
to an end if what stands between them is balanced. Read from left to right, an end belongs to the
last begin that is still open. -/
namespace MacroSweep.Suppression

/-- A begin or end marker for one identifier. -/
structure BlockMark where
  line : Nat
  id : String
  opens : Bool
  symbol : Option String
  deriving DecidableEq, Repr

/-- As many ends (`false`) as begins (`true`), and never more ends than begins from the left. -/
def Balanced (w : List Bool) : Prop :=
  w.count true = w.count false ∧ ∀ v ∈ w.inits, v.count false ≤ v.count true

instance : DecidablePred Balanced := fun _ => inferInstanceAs (Decidable (_ ∧ _))

/-- The begins and ends of an identifier strictly between two positions. -/
def between (id : String) (marks : List BlockMark) (i j : Nat) : List Bool :=
  (((marks.take j).drop (i + 1)).filter (·.id == id)).map (·.opens)

/-- A begin and an end, each with its position, belong together: they are of one identifier, and
what stands between them of it is balanced. -/
def Pairs (marks : List BlockMark) (b e : BlockMark × Nat) : Prop :=
  b.1.opens = true ∧ e.1.opens = false ∧ b.1.id = e.1.id ∧ b.2 < e.2 ∧
    Balanced (between b.1.id marks b.2 e.2)

instance (marks : List BlockMark) (b e : BlockMark × Nat) : Decidable (Pairs marks b e) :=
  inferInstanceAs (Decidable (_ ∧ _ ∧ _ ∧ _ ∧ _))

/-- All pairs that belong together, in the order of their ends. -/
def pairs (marks : List BlockMark) : List ((BlockMark × Nat) × (BlockMark × Nat)) :=
  marks.zipIdx.flatMap fun e => (marks.zipIdx.filter (Pairs marks · e)).map (·, e)

/-- The begins without an end. -/
def loneBegins (marks : List BlockMark) : List (BlockMark × Nat) :=
  marks.zipIdx.filter fun b => b.1.opens && decide (∀ e ∈ marks.zipIdx, ¬Pairs marks b e)

/-- The ends without a begin. -/
def loneEnds (marks : List BlockMark) : List (BlockMark × Nat) :=
  marks.zipIdx.filter fun e => !e.1.opens && decide (∀ b ∈ marks.zipIdx, ¬Pairs marks b e)

variable {u v w : List Bool} {id : String} {marks : List BlockMark} {m : BlockMark}
  {b e : BlockMark × Nat} {i j k : Nat}

theorem Balanced.nil : Balanced [] := by decide

theorem Balanced.count_le_of_prefix (h : Balanced w) (hv : v <+: w) :
    v.count false ≤ v.count true := h.2 v ((List.mem_inits ..).mpr hv)

theorem Balanced.append (hu : Balanced u) (hv : Balanced v) : Balanced (u ++ v) := by
  have hcount := hu.1
  refine ⟨by simp [hu.1, hv.1], fun x hx => ?_⟩
  rw [List.inits_append] at hx
  rcases List.mem_append.mp hx with hx | hx
  · exact hu.2 x hx
  · obtain ⟨y, hy, rfl⟩ := List.mem_map.mp hx
    have hle := hv.2 y (List.mem_of_mem_tail hy)
    simp only [List.count_append]
    omega

/-- A balanced word can be put in brackets. -/
theorem Balanced.bracket (hv : Balanced v) : Balanced (true :: (v ++ [false])) := by
  have hcount := hv.1
  refine ⟨by simp [hv.1], fun x hx => ?_⟩
  rw [List.inits_cons, List.inits_append] at hx
  rcases List.mem_cons.mp hx with rfl | hx
  · simp
  · obtain ⟨y, hy, rfl⟩ := List.mem_map.mp hx
    rcases List.mem_append.mp hy with hy | hy
    · have hle := hv.2 y hy
      simp
      omega
    · obtain rfl : y = v ++ [false] := by simpa using hy
      simp
      omega

/-- A balanced word does not go on with an end once it is balanced. -/
theorem not_balanced_append_false (hu : Balanced u) : ¬Balanced (u ++ false :: v) := by
  intro h
  have hle := h.count_le_of_prefix (v := u ++ [false]) ⟨v, by simp⟩
  have hcount := hu.1
  simp at hle
  omega

/-- Nor does it stop before a begin that is followed by a balanced word. -/
theorem not_balanced_append_true (hv : Balanced v) : ¬Balanced (u ++ true :: v) := by
  intro h
  have hle := h.count_le_of_prefix (v := u) ⟨true :: v, rfl⟩
  have heq := h.1
  have heq' := hv.1
  simp at heq
  omega

section Snoc

variable {marks : List BlockMark}

theorem lt_of_mem_zipIdx (h : e ∈ marks.zipIdx) : e.2 < marks.length := by
  simpa using List.snd_lt_of_mem_zipIdx h

theorem zipIdx_snoc (marks : List BlockMark) (m : BlockMark) :
    (marks ++ [m]).zipIdx = marks.zipIdx ++ [(m, marks.length)] := by
  simp [List.zipIdx_append]

theorem nodup_zipIdx (marks : List BlockMark) : marks.zipIdx.Nodup := by
  refine List.Nodup.of_map Prod.snd ?_
  rw [List.zipIdx_map_snd]
  exact List.nodup_range'

/-- A mark of the identifier parts what stands before it from what stands after it. -/
theorem between_split (hm : (m, k) ∈ marks.zipIdx) (hid : m.id = id) (hik : i < k) (hkj : k < j) :
    between id marks i j = between id marks i k ++ m.opens :: between id marks k j := by
  have hk : k < marks.length := lt_of_mem_zipIdx hm
  have hlen : k < (marks.take j).length := by rw [List.length_take]; omega
  have hget : (marks.take j)[k] = m := by
    have hat := List.mk_mem_zipIdx_iff_getElem?.mp hm
    rw [List.getElem?_eq_getElem hk, Option.some.injEq] at hat
    rw [List.getElem_take, hat]
  have htake : marks.take j = marks.take k ++ m :: (marks.take j).drop (k + 1) := by
    have hcut := List.take_append_drop k (marks.take j)
    rw [List.drop_eq_getElem_cons hlen, hget, List.take_take, Nat.min_eq_left (by omega)] at hcut
    exact hcut.symm
  have hdrop : (marks.take j).drop (i + 1) =
      (marks.take k).drop (i + 1) ++ m :: (marks.take j).drop (k + 1) := by
    have hle : i + 1 ≤ (marks.take k).length := by rw [List.length_take]; omega
    rw [← List.drop_append_of_le_length hle, ← htake]
  simp [between, hdrop, hid]

theorem between_snoc_of_le (hj : j ≤ marks.length) :
    between id (marks ++ [m]) i j = between id marks i j := by
  rw [between, List.take_append_of_le_length hj, between]

theorem between_snoc (hi : i < marks.length) :
    between id (marks ++ [m]) i (marks.length + 1) =
      between id marks i marks.length ++ if m.id = id then [m.opens] else [] := by
  have hall : (marks ++ [m]).take (marks.length + 1) = marks ++ [m] := by simp
  rw [between, between, hall, List.take_length, List.drop_append_of_le_length hi,
    List.filter_append, List.map_append]
  by_cases hid : m.id = id <;> simp [hid]

theorem between_self (id : String) (marks : List BlockMark) (i : Nat) :
    between id marks i (i + 1) = [] := by
  simp [between]

/-- Whether a begin and an end belong together is settled once the end is read. -/
theorem pairs_snoc_iff (he : e.2 ≤ marks.length) : Pairs (marks ++ [m]) b e ↔ Pairs marks b e := by
  simp only [Pairs, between_snoc_of_le he]

/-- The begins that a further mark belongs to. -/
def partners (marks : List BlockMark) (m : BlockMark) : List (BlockMark × Nat) :=
  marks.zipIdx.filter (Pairs marks · (m, marks.length))

theorem partners_of_opens (hm : m.opens = true) : partners marks m = [] := by
  rw [partners, List.filter_eq_nil_iff]
  simp [Pairs, hm]

/-- A begin comes before its end. -/
theorem not_pairs_of_le (h : e.2 ≤ b.2) : ¬Pairs marks b e := fun hp => absurd hp.2.2.2.1 (by omega)

theorem pairs_snoc (marks : List BlockMark) (m : BlockMark) : pairs (marks ++ [m]) =
    pairs marks ++ (partners marks m).map (·, (m, marks.length)) := by
  have hfilter : ∀ e : BlockMark × Nat, e.2 ≤ marks.length →
      (marks ++ [m]).zipIdx.filter (Pairs (marks ++ [m]) · e) =
        marks.zipIdx.filter (Pairs marks · e) := by
    intro e he
    have hnew : ¬Pairs marks (m, marks.length) e := not_pairs_of_le he
    simp [zipIdx_snoc, pairs_snoc_iff he, hnew]
  rw [pairs, zipIdx_snoc, List.flatMap_append, List.flatMap_singleton, ← zipIdx_snoc,
    hfilter _ (Nat.le_refl _), partners, pairs]
  congr 1
  refine List.flatMap_congr fun e he => ?_
  rw [hfilter e (Nat.le_of_lt (lt_of_mem_zipIdx he))]

/-- A begin stays without an end if it had none and the further mark is not its end. -/
theorem forall_not_pairs_snoc :
    (∀ e ∈ (marks ++ [m]).zipIdx, ¬Pairs (marks ++ [m]) b e) ↔
      (∀ e ∈ marks.zipIdx, ¬Pairs marks b e) ∧ ¬Pairs marks b (m, marks.length) := by
  rw [zipIdx_snoc, List.forall_mem_append, List.forall_mem_singleton,
    pairs_snoc_iff (Nat.le_refl _)]
  refine and_congr_left fun _ => forall₂_congr fun e he => ?_
  rw [pairs_snoc_iff (Nat.le_of_lt (lt_of_mem_zipIdx he))]

theorem loneBegins_snoc (marks : List BlockMark) (m : BlockMark) : loneBegins (marks ++ [m]) =
    (loneBegins marks).filter (fun b => decide (¬Pairs marks b (m, marks.length))) ++
      if m.opens then [(m, marks.length)] else [] := by
  have hnew : ∀ e ∈ (marks ++ [m]).zipIdx, ¬Pairs (marks ++ [m]) (m, marks.length) e := by
    intro e he
    have hlt := lt_of_mem_zipIdx he
    rw [List.length_append, List.length_singleton] at hlt
    exact not_pairs_of_le (Nat.le_of_lt_succ hlt)
  rw [loneBegins, zipIdx_snoc, List.filter_append, ← zipIdx_snoc, loneBegins, List.filter_filter]
  congr 1
  · refine List.filter_congr fun b _ => ?_
    rw [Bool.eq_iff_iff]
    simp only [Bool.and_eq_true, decide_eq_true_eq, forall_not_pairs_snoc]
    tauto
  · rw [List.filter_singleton, decide_eq_true hnew, Bool.and_true, Bool.cond_eq_ite]

theorem loneEnds_snoc (marks : List BlockMark) (m : BlockMark) : loneEnds (marks ++ [m]) =
    loneEnds marks ++
      if !m.opens && (partners marks m).isEmpty then [(m, marks.length)] else [] := by
  have hold : ∀ e : BlockMark × Nat, e.2 ≤ marks.length →
      ((∀ b ∈ (marks ++ [m]).zipIdx, ¬Pairs (marks ++ [m]) b e) ↔
        ∀ b ∈ marks.zipIdx, ¬Pairs marks b e) := by
    intro e he
    have hnew : ¬Pairs marks (m, marks.length) e := not_pairs_of_le he
    simp only [zipIdx_snoc, List.forall_mem_append, List.forall_mem_singleton, pairs_snoc_iff he,
      hnew, not_false_eq_true, and_true]
  rw [loneEnds, zipIdx_snoc, List.filter_append, ← zipIdx_snoc, loneEnds]
  congr 1
  · refine List.filter_congr fun e he => ?_
    rw [decide_eq_decide.mpr (hold e (Nat.le_of_lt (lt_of_mem_zipIdx he)))]
  · have hnone : decide (∀ b ∈ marks.zipIdx, ¬Pairs marks b (m, marks.length)) =
        (partners marks m).isEmpty := by
      rw [Bool.eq_iff_iff, decide_eq_true_eq, List.isEmpty_iff, partners, List.filter_eq_nil_iff]
      simp only [decide_eq_true_eq]
    rw [List.filter_singleton, decide_eq_decide.mpr (hold _ (Nat.le_refl _)), hnone,
      Bool.cond_eq_ite]

end Snoc

/-- The begins of an identifier that are still open, the last one first. -/
def openBegins (id : String) (marks : List BlockMark) : List (BlockMark × Nat) :=
  ((loneBegins marks).filter (·.1.id == id)).reverse

theorem mem_openBegins : b ∈ openBegins id marks ↔
    b ∈ marks.zipIdx ∧ b.1.opens = true ∧ b.1.id = id ∧ ∀ e ∈ marks.zipIdx, ¬Pairs marks b e := by
  simp only [openBegins, loneBegins, List.mem_reverse, List.mem_filter, Bool.and_eq_true,
    decide_eq_true_eq, beq_iff_eq]
  tauto

/-- Open begins down from a position: what stands of the identifier between each and the one above
it, or the position, is balanced. -/
def Stacked (id : String) (marks : List BlockMark) : Nat → List (BlockMark × Nat) → Prop
  | _, [] => True
  | j, b :: rest => b.2 < j ∧ Balanced (between id marks b.2 j) ∧ Stacked id marks b.2 rest

theorem Stacked.lt {stack : List (BlockMark × Nat)} (h : Stacked id marks j stack)
    (hb : b ∈ stack) : b.2 < j := by
  induction stack generalizing j with
  | nil => cases hb
  | cons c rest ih =>
    rcases List.mem_cons.mp hb with rfl | hb
    · exact h.1
    · exact Nat.lt_trans (ih h.2.2 hb) h.1

/-- A further mark changes nothing below it. -/
theorem Stacked.snoc {stack : List (BlockMark × Nat)} (h : Stacked id marks j stack)
    (hj : j ≤ marks.length) : Stacked id (marks ++ [m]) j stack := by
  induction stack generalizing j with
  | nil => trivial
  | cons b rest ih =>
    refine ⟨h.1, ?_, ih h.2.2 (Nat.le_of_lt (Nat.lt_of_lt_of_le h.1 hj))⟩
    rw [between_snoc_of_le hj]
    exact h.2.1

/-- An end belongs to the last begin of its identifier that is open. -/
theorem pairs_iff_head? (h : Stacked m.id marks marks.length (openBegins m.id marks))
    (hm : m.opens = false) (hb : b ∈ marks.zipIdx) :
    Pairs marks b (m, marks.length) ↔ (openBegins m.id marks).head? = some b := by
  have hlt := lt_of_mem_zipIdx hb
  constructor
  · rintro ⟨hopens, -, hid, -, hbalanced⟩
    dsimp only at hid hbalanced
    -- A begin that has an end already is followed by more ends than begins.
    have hopen : b ∈ openBegins m.id marks := by
      refine mem_openBegins.mpr ⟨hb, hopens, hid, fun e he hpair => ?_⟩
      obtain ⟨-, hcloses, heid, hbe, hinner⟩ := hpair
      rw [between_split he heid.symm hbe (lt_of_mem_zipIdx he), hcloses] at hbalanced
      exact not_balanced_append_false hinner hbalanced
    -- And one below the last open begin by more begins than ends.
    cases hstack : openBegins m.id marks with
    | nil => rw [hstack] at hopen; cases hopen
    | cons c rest =>
      rw [hstack] at h hopen
      rcases List.mem_cons.mp hopen with rfl | hrest
      · rfl
      · have hc : c ∈ openBegins m.id marks := hstack ▸ List.mem_cons_self
        obtain ⟨hcmem, hcopens, hcid, -⟩ := mem_openBegins.mp hc
        rw [hid, between_split hcmem hcid (h.2.2.lt hrest) h.1, hcopens] at hbalanced
        exact absurd hbalanced (not_balanced_append_true h.2.1)
  · intro hhead
    obtain ⟨rest, hstack⟩ := List.head?_eq_some_iff.mp hhead
    have hc : b ∈ openBegins m.id marks := hstack ▸ List.mem_cons_self
    obtain ⟨-, hopens, hid, -⟩ := mem_openBegins.mp hc
    rw [hstack] at h
    exact ⟨hopens, hm, hid, hlt, hid ▸ h.2.1⟩

/-- A further mark opens a begin of its own, or is the end of an open one. -/
theorem openBegins_snoc (id : String) (marks : List BlockMark) (m : BlockMark) :
    openBegins id (marks ++ [m]) = (if m.opens ∧ m.id = id then [(m, marks.length)] else []) ++
      (openBegins id marks).filter fun b => decide (¬Pairs marks b (m, marks.length)) := by
  rw [openBegins, loneBegins_snoc, List.filter_append, List.reverse_append, List.filter_comm,
    openBegins, List.filter_reverse]
  congr 1
  by_cases hid : m.id = id <;> cases m.opens <;> simp [hid]

theorem openBegins_snoc_of_ne (h : m.id ≠ id) :
    openBegins id (marks ++ [m]) = openBegins id marks := by
  rw [openBegins_snoc, if_neg fun hm => h hm.2, List.nil_append, List.filter_eq_self]
  intro b hb
  obtain ⟨-, -, hid, -⟩ := mem_openBegins.mp hb
  exact decide_eq_true fun hpair => h (hpair.2.2.1.symm.trans hid)

theorem openBegins_snoc_of_opens (hm : m.opens = true) :
    openBegins m.id (marks ++ [m]) = (m, marks.length) :: openBegins m.id marks := by
  rw [openBegins_snoc, if_pos ⟨hm, rfl⟩, List.singleton_append, List.filter_eq_self.mpr]
  intro b _
  exact decide_eq_true fun hpair => by simp [hm, Pairs] at hpair

theorem openBegins_snoc_of_closes (h : Stacked m.id marks marks.length (openBegins m.id marks))
    (hm : m.opens = false) :
    openBegins m.id (marks ++ [m]) = (openBegins m.id marks).tail := by
  have hfilter : openBegins m.id (marks ++ [m]) = (openBegins m.id marks).filter fun b =>
      decide ((openBegins m.id marks).head? ≠ some b) := by
    rw [openBegins_snoc, if_neg (by simp [hm]), List.nil_append]
    refine List.filter_congr fun b hb => ?_
    rw [decide_eq_decide, pairs_iff_head? h hm (mem_openBegins.mp hb).1]
  rw [hfilter]
  cases hstack : openBegins m.id marks with
  | nil => rfl
  | cons c rest =>
    rw [hstack] at h
    rw [List.tail_cons, List.filter_cons_of_neg (by simp), List.filter_eq_self]
    intro b hb
    have hlt := h.2.2.lt hb
    have hne : c ≠ b := by
      rintro rfl
      exact Nat.lt_irrefl _ hlt
    simpa using hne

/-- The begins that are open at the end are stacked. -/
theorem stacked_openBegins (id : String) (marks : List BlockMark) :
    Stacked id marks marks.length (openBegins id marks) := by
  induction marks using List.reverseRecOn with
  | nil => trivial
  | append_singleton marks m ih =>
    rw [List.length_append, List.length_singleton]
    by_cases hid : m.id = id
    · subst hid
      cases hm : m.opens with
      | true =>
        rw [openBegins_snoc_of_opens hm]
        refine ⟨Nat.lt_succ_self _, ?_, ih.snoc (Nat.le_refl _)⟩
        rw [between_self]
        exact .nil
      | false =>
        rw [openBegins_snoc_of_closes ih hm]
        cases hstack : openBegins m.id marks with
        | nil => trivial
        | cons c rest =>
          have hc : c ∈ openBegins m.id marks := hstack ▸ List.mem_cons_self
          obtain ⟨hcmem, hcopens, hcid, -⟩ := mem_openBegins.mp hc
          rw [hstack] at ih
          obtain ⟨hlt, hbalanced, hrest⟩ := ih
          cases rest with
          | nil => trivial
          | cons d rest =>
            -- The pair that the end closes is a bracket on top of what stood below it.
            obtain ⟨hdlt, hdbalanced, hrest⟩ := hrest
            have hdlen := Nat.lt_trans hdlt hlt
            refine ⟨Nat.lt_succ_of_lt hdlen, ?_, hrest.snoc (Nat.le_of_lt hdlen)⟩
            rw [between_snoc hdlen, between_split hcmem hcid hdlt hlt, hcopens, hm, if_pos rfl,
              List.append_assoc, List.cons_append]
            exact hdbalanced.append hbalanced.bracket
    · rw [openBegins_snoc_of_ne hid]
      cases hstack : openBegins id marks with
      | nil => trivial
      | cons c rest =>
        rw [hstack] at ih
        refine ⟨Nat.lt_succ_of_lt ih.1, ?_, ih.2.2.snoc (Nat.le_of_lt ih.1)⟩
        rw [between_snoc ih.1, if_neg hid, List.append_nil]
        exact ih.2.1

/-- An end has one partner at most: the last begin of its identifier that is open. -/
theorem partners_of_closes (hm : m.opens = false) :
    partners marks m = (openBegins m.id marks).head?.toList := by
  have hpairs : ∀ b ∈ marks.zipIdx, decide (Pairs marks b (m, marks.length)) =
      decide ((openBegins m.id marks).head? = some b) := fun b hb =>
    decide_eq_decide.mpr (pairs_iff_head? (stacked_openBegins m.id marks) hm hb)
  rw [partners, List.filter_congr hpairs]
  cases hstack : openBegins m.id marks with
  | nil => simp
  | cons c rest =>
    have hc : c ∈ marks.zipIdx := (mem_openBegins.mp (hstack ▸ List.mem_cons_self)).1
    have hbeq : ∀ b : BlockMark × Nat, decide ((c :: rest).head? = some b) = (b == c) := by
      intro b
      rw [Bool.eq_iff_iff, decide_eq_true_eq, beq_iff_eq, List.head?_cons, Option.some.injEq,
        eq_comm]
    simp only [hbeq, List.filter_beq, List.count_eq_one_of_mem (nodup_zipIdx marks) hc]
    rfl

/-- The blocks of two identifiers may cross. -/
example : (pairs [⟨1, "a", true, none⟩, ⟨2, "b", true, none⟩, ⟨3, "a", false, none⟩,
    ⟨4, "b", false, none⟩]).map (fun p => (p.1.2, p.2.2)) = [(0, 2), (1, 3)] := by decide

theorem mem_pairs : (b, e) ∈ pairs marks ↔
    b ∈ marks.zipIdx ∧ e ∈ marks.zipIdx ∧ Pairs marks b e := by
  simp only [pairs, List.mem_flatMap, List.mem_map, List.mem_filter, decide_eq_true_eq,
    Prod.mk.injEq]
  constructor
  · rintro ⟨e, he, b, ⟨hb, hpair⟩, rfl, rfl⟩
    exact ⟨hb, he, hpair⟩
  · rintro ⟨hb, he, hpair⟩
    exact ⟨e, he, b, ⟨hb, hpair⟩, rfl, rfl⟩

/-- A begin has one end at most, and an end one begin. -/
theorem nodup_pairs (marks : List BlockMark) :
    ((pairs marks).map (·.1)).Nodup ∧ ((pairs marks).map (·.2)).Nodup := by
  induction marks using List.reverseRecOn with
  | nil => exact ⟨.nil, .nil⟩
  | append_singleton marks m ih =>
    rw [pairs_snoc]
    cases hm : m.opens with
    | true => simpa [partners_of_opens hm] using ih
    | false =>
      rw [partners_of_closes hm]
      cases hstack : openBegins m.id marks with
      | nil => simpa using ih
      | cons c rest =>
        obtain ⟨-, -, -, hlone⟩ := mem_openBegins.mp (hstack ▸ List.mem_cons_self)
        have hbegin : c ∉ (pairs marks).map (·.1) := by
          intro hmem
          obtain ⟨⟨b, e⟩, hpair, rfl⟩ := List.mem_map.mp hmem
          obtain ⟨-, he, hpair⟩ := mem_pairs.mp hpair
          exact hlone e he hpair
        have hend : (m, marks.length) ∉ (pairs marks).map (·.2) := by
          intro hmem
          obtain ⟨⟨b, e⟩, hpair, rfl⟩ := List.mem_map.mp hmem
          exact Nat.lt_irrefl _ (lt_of_mem_zipIdx (mem_pairs.mp hpair).2.1)
        simp only [List.head?_cons, Option.toList_some, List.map_append, List.map_singleton]
        rw [← List.concat_eq_append, ← List.concat_eq_append]
        exact ⟨ih.1.concat hbegin, ih.2.concat hend⟩

end MacroSweep.Suppression
