import Mathlib.Algebra.Group.Int.Defs
import Mathlib.Algebra.Group.Nat.Defs
import MacroSweep.Proofs.Grammar

/-! What expressions denote: the results of integer operations, wrapped to words of 64 bits. An
operand that is left out is not evaluated, and only a division by zero has no value. -/
namespace MacroSweep.Condition

/-- The word of a statement: one if it holds. -/
def oneIf (p : Prop) [Decidable p] : Int64 := if p then 1 else 0

def UnaryOp.meaning (op : UnaryOp) (a : Int64) : Int64 :=
  match op with
  | not => oneIf (a = 0)
  | complement => .ofInt (-a.toInt - 1)
  | negate => .ofInt (-a.toInt)
  | plus => a

/-- How far a shift goes: its count, clamped to 0..63. -/
def shiftWidth (b : Int64) : Nat := (max 0 (min b.toInt 63)).toNat

/-- What an operation makes of two values. Quotients are rounded towards zero. -/
def BinaryOp.meaning? (op : BinaryOp) (a b : Int64) : Option Int64 :=
  match op with
  | or => some (oneIf (a ≠ 0 ∨ b ≠ 0))
  | and => some (oneIf (a ≠ 0 ∧ b ≠ 0))
  | bitOr => some (a ||| b)
  | bitXor => some (a ^^^ b)
  | bitAnd => some (a &&& b)
  | eq => some (oneIf (a.toInt = b.toInt))
  | ne => some (oneIf (a.toInt ≠ b.toInt))
  | lt => some (oneIf (a.toInt < b.toInt))
  | gt => some (oneIf (a.toInt > b.toInt))
  | le => some (oneIf (a.toInt ≤ b.toInt))
  | ge => some (oneIf (a.toInt ≥ b.toInt))
  | shl => some (.ofInt (a.toInt * 2 ^ shiftWidth b))
  | shr => some (.ofInt (a.toInt / 2 ^ shiftWidth b))
  | add => some (.ofInt (a.toInt + b.toInt))
  | sub => some (.ofInt (a.toInt - b.toInt))
  | mul => some (.ofInt (a.toInt * b.toInt))
  | div => if b = 0 then none else some (.ofInt (a.toInt.tdiv b.toInt))
  | rem => if b = 0 then none else some (.ofInt (a.toInt.tmod b.toInt))

/-- The value that the left operand of an operation alone decides. -/
def BinaryOp.shortcut? (op : BinaryOp) (a : Int64) : Option Int64 :=
  match op with
  | or => if a ≠ 0 then some 1 else none
  | and => if a = 0 then some 0 else none
  | _ => none

/-- What a tree denotes; nothing if it divides by zero. -/
def Expr.value : Expr → Option Int64
  | num n => some n
  | unary op e => op.meaning <$> e.value
  | binary op l r => do
    let a ← l.value
    match op.shortcut? a with
    | some v => some v
    | none => do op.meaning? a (← r.value)
  | conditional c a b => do
    if (← c.value) ≠ 0 then a.value else b.value

/-- Whether evaluating a tree evaluates the given part of it. -/
inductive Evaluated : Expr → Expr → Prop where
  | self (e : Expr) : Evaluated e e
  | unary {op e d} (h : Evaluated e d) : Evaluated (.unary op e) d
  | left {op l r d} (h : Evaluated l d) : Evaluated (.binary op l r) d
  | right {op l r d a} (hl : l.value = some a) (hop : BinaryOp.shortcut? op a = none)
      (h : Evaluated r d) : Evaluated (.binary op l r) d
  | condition {c a b d} (h : Evaluated c d) : Evaluated (.conditional c a b) d
  | first {c a b d k} (hc : c.value = some k) (hk : k ≠ 0) (h : Evaluated a d) :
    Evaluated (.conditional c a b) d
  | second {c a b d} (hc : c.value = some 0) (h : Evaluated b d) : Evaluated (.conditional c a b) d

/-- Whether evaluating a tree evaluates a quotient or a remainder whose divisor is zero. -/
def Expr.DividesByZero (e : Expr) : Prop :=
  ∃ op l r, (op = .div ∨ op = .rem) ∧ Evaluated e (.binary op l r) ∧ r.value = some 0

variable {op : BinaryOp} {a b : Int64} {c d e l r : Expr}

theorem BinaryOp.meaning?_eq_none_iff :
    op.meaning? a b = none ↔ (op = .div ∨ op = .rem) ∧ b = 0 := by
  cases op <;> simp [meaning?]

theorem Evaluated.value_eq_none (h : Evaluated e d) (hd : d.value = none) : e.value = none := by
  induction h with
  | self => exact hd
  | unary _ ih => simp [Expr.value, ih hd]
  | left _ ih => simp [Expr.value, ih hd]
  | right hl hop _ ih => simp [Expr.value, hl, hop, ih hd]
  | condition _ ih => simp [Expr.value, ih hd]
  | first hc hk _ ih => simp [Expr.value, hc, hk, ih hd]
  | second hc _ ih => simp [Expr.value, hc, ih hd]

theorem Expr.DividesByZero.value_eq_none (h : e.DividesByZero) : e.value = none := by
  obtain ⟨op, l, r, hop, hpart, hr⟩ := h
  apply hpart.value_eq_none
  cases hl : l.value with
  | none => simp [Expr.value, hl]
  | some a =>
    have hzero : op.meaning? a 0 = none := BinaryOp.meaning?_eq_none_iff.mpr ⟨hop, rfl⟩
    have hstrict : op.shortcut? a = none := by rcases hop with rfl | rfl <;> rfl
    simp [Expr.value, hl, hr, hstrict, hzero]

theorem Expr.DividesByZero.of_part (h : d.DividesByZero)
    (hpart : ∀ q, Evaluated d q → Evaluated e q) : e.DividesByZero := by
  obtain ⟨op, l, r, hop, hevaluated, hr⟩ := h
  exact ⟨op, l, r, hop, hpart _ hevaluated, hr⟩

/-- A tree has no value only if its evaluation divides by zero. -/
theorem Expr.value_eq_none_iff : e.value = none ↔ e.DividesByZero := by
  refine ⟨fun h => ?_, DividesByZero.value_eq_none⟩
  induction e with
  | num n => cases h
  | unary op e ih =>
    have hpart : e.DividesByZero := ih (by simpa [value] using h)
    exact hpart.of_part fun _ => .unary
  | binary op l r ihl ihr =>
    cases hl : l.value with
    | none => exact (ihl hl).of_part fun _ => .left
    | some a =>
      cases hs : op.shortcut? a with
      | some v => simp [value, hl, hs] at h
      | none =>
        cases hr : r.value with
        | none => exact (ihr hr).of_part fun _ => .right hl hs
        | some b =>
          have hnone : op.meaning? a b = none := by simpa [value, hl, hs, hr] using h
          obtain ⟨hop, rfl⟩ := BinaryOp.meaning?_eq_none_iff.mp hnone
          exact ⟨op, l, r, hop, .self _, hr⟩
  | conditional c a b ihc iha ihb =>
    cases hc : c.value with
    | none => exact (ihc hc).of_part fun _ => .condition
    | some k =>
      by_cases hk : k = 0
      · subst hk
        have hpart : b.DividesByZero := ihb (by simpa [value, hc] using h)
        exact hpart.of_part fun _ => .second hc
      · have hpart : a.DividesByZero := iha (by simpa [value, hc, hk] using h)
        exact hpart.of_part fun _ => .first hc hk

theorem eq_ofInt_of_toInt {n : Int} (h : a.toInt = n.bmod Int64.size) : a = .ofInt n := by
  apply Int64.toInt_inj.mp
  rw [h, Int64.toInt_ofInt]

theorem truth_eq_oneIf {p : Prop} [Decidable p] {t : Bool} (h : t = true ↔ p) :
    truth t = oneIf p := by
  cases t <;> simp_all [truth, oneIf]

/-- A count within the width of a word is the number of places. -/
theorem toNat_smod_width : ∀ n < 64, ((Int64.ofNat n).toBitVec.smod 64).toNat = n := by decide

theorem shiftWidth_lt (b : Int64) : shiftWidth b < 64 := by
  unfold shiftWidth; omega

theorem shiftCount_eq (b : Int64) : shiftCount b = Int64.ofNat (shiftWidth b) := by
  have hneg : b < 0 ↔ b.toInt < 0 := Int64.lt_iff_toInt_lt
  have hlarge : 63 < b ↔ 63 < b.toInt := Int64.lt_iff_toInt_lt
  unfold shiftCount
  simp only [hneg, hlarge]
  split
  · next h =>
    have hw : shiftWidth b = 0 := by unfold shiftWidth; omega
    rw [hw]
    rfl
  · split
    · next h =>
      have hw : shiftWidth b = 63 := by unfold shiftWidth; omega
      rw [hw]
      rfl
    · next h1 h2 =>
      have hw : (shiftWidth b : Int) = b.toInt := by unfold shiftWidth; omega
      rw [← Int64.ofInt_eq_ofNat, hw, Int64.ofInt_toInt]

theorem toNat_shiftCount (b : Int64) : ((shiftCount b).toBitVec.smod 64).toNat = shiftWidth b := by
  rw [shiftCount_eq, toNat_smod_width _ (shiftWidth_lt b)]

theorem shiftLeft_shiftCount (a b : Int64) :
    a <<< shiftCount b = .ofInt (a.toInt * 2 ^ shiftWidth b) := by
  have hpow : BitVec.ofInt 64 (2 ^ shiftWidth b) = BitVec.twoPow 64 (shiftWidth b) := by
    apply BitVec.eq_of_toNat_eq
    have hcast : ((2 : Int) ^ shiftWidth b) = ((2 ^ shiftWidth b : Nat) : Int) := by simp
    rw [hcast, BitVec.ofInt_natCast, BitVec.toNat_ofNat, BitVec.toNat_twoPow]
  apply Int64.toBitVec_inj.mp
  rw [Int64.toBitVec_shiftLeft, BitVec.shiftLeft_eq', toNat_shiftCount,
    BitVec.shiftLeft_eq_mul_twoPow, Int64.toBitVec_ofInt, BitVec.ofInt_mul, hpow,
    ← Int64.toInt_toBitVec, BitVec.ofInt_toInt]

theorem shiftRight_shiftCount (a b : Int64) :
    a >>> shiftCount b = .ofInt (a.toInt / 2 ^ shiftWidth b) := by
  have hshift : (a >>> shiftCount b).toInt = a.toInt / 2 ^ shiftWidth b := by
    rw [← Int64.toInt_toBitVec, Int64.toBitVec_shiftRight, BitVec.sshiftRight', toNat_shiftCount,
      BitVec.toInt_sshiftRight, Int64.toInt_toBitVec, Int.shiftRight_eq_div_pow]
    simp
  rw [← hshift, Int64.ofInt_toInt]

/-- The operations on words are the integer operations, wrapped. -/
theorem BinaryOp.value?_eq_meaning? (op : BinaryOp) (a b : Int64) :
    op.value? a b = op.meaning? a b := by
  cases op with
  | or => exact congrArg some (truth_eq_oneIf (by simp))
  | and => exact congrArg some (truth_eq_oneIf (by simp))
  | bitOr | bitXor | bitAnd => rfl
  | eq => exact congrArg some (truth_eq_oneIf (by simp [Int64.toInt_inj]))
  | ne => exact congrArg some (truth_eq_oneIf (by simp [Int64.toInt_inj]))
  | lt => exact congrArg some (truth_eq_oneIf (by simp [Int64.lt_iff_toInt_lt]))
  | gt => exact congrArg some (truth_eq_oneIf (by simp [Int64.lt_iff_toInt_lt]))
  | le => exact congrArg some (truth_eq_oneIf (by simp [Int64.le_iff_toInt_le]))
  | ge => exact congrArg some (truth_eq_oneIf (by simp [Int64.le_iff_toInt_le]))
  | shl => exact congrArg some (shiftLeft_shiftCount a b)
  | shr => exact congrArg some (shiftRight_shiftCount a b)
  | add => simp [value?, meaning?, Int64.ofInt_add, Int64.ofInt_toInt]
  | sub => simp [value?, meaning?, Int64.ofInt_sub, Int64.ofInt_toInt]
  | mul => simp [value?, meaning?, Int64.ofInt_mul, Int64.ofInt_toInt]
  | div => rw [value?, meaning?, ← eq_ofInt_of_toInt (Int64.toInt_div a b)]
  | rem => rw [value?, meaning?, ← Int64.toInt_mod, Int64.ofInt_toInt]

/-- The function of a sign in front of an operand is what its operator means. -/
theorem Sign.unary?_eq (s : Sign) : s.unary? = s.unaryOp?.map UnaryOp.meaning := by
  unfold unary? unaryOp?
  split <;> simp only [Option.map_some, Option.map_none, Option.some.injEq]
  · exact funext fun v => truth_eq_oneIf (by simp)
  · exact funext fun v => eq_ofInt_of_toInt (Int64.toInt_not v)
  · exact funext fun v => by simp [UnaryOp.meaning, Int64.ofInt_neg, Int64.ofInt_toInt]
  · rfl

end MacroSweep.Condition
