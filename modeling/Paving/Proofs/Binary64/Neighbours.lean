import Mathlib.Data.EReal.Operations
import Paving.Proofs.Binary64.Nearest

/-!
# Words and their neighbours

A word is its sign and its index (`index_ofIndex`, `negative_ofIndex`), negation
flips the sign, and the class of a word can be read off its rank. The neighbours of
a word are those of its rank: `nextUp` adds one to the rank and `nextDown` takes one
away, across zero, the ends of binades and the largest finite numbers alike
(`rank_nextUp`, `rank_nextDown`).
-/

set_option autoImplicit false

namespace Paving

namespace Binary64

/-! ## Sign and index -/

theorem index_lt_signWeight (x : Binary64) : x.index < signWeight :=
  Nat.mod_lt _ (by decide)

theorem toNat_bits (x : Binary64) :
    x.bits.toNat = (if x.negative then signWeight else 0) + x.index := by
  -- The sign bit is set exactly when the word is at least its weight.
  have hlt := x.bits.toNat_lt
  by_cases h : signWeight ≤ x.bits.toNat
  · have hneg : x.negative = true := decide_eq_true h
    rw [hneg, if_pos rfl]
    simp only [index, signWeight] at *
    omega
  · have hneg : x.negative = false := decide_eq_false h
    rw [hneg]
    simp only [index, signWeight] at *
    rw [if_neg Bool.false_ne_true]
    omega

theorem eq_of_negative_eq_of_index_eq {x y : Binary64} (hneg : x.negative = y.negative)
    (hindex : x.index = y.index) : x = y := by
  have hbits : x.bits = y.bits := by
    rw [← UInt64.toNat_inj, toNat_bits, toNat_bits y, hneg, hindex]
  exact congrArg Binary64.mk hbits

/-- A word is made of its sign and its index. -/
theorem toNat_ofIndex (neg : Bool) {i : Nat} (hi : i < signWeight) :
    (ofIndex neg i).bits.toNat = (if neg then signWeight else 0) + i := by
  show (UInt64.ofNat (if neg then signWeight + i else i)).toNat = _
  rw [UInt64.toNat_ofNat']
  simp only [signWeight] at *
  cases neg with
  | false =>
    simp
    omega
  | true =>
    simp
    omega

theorem index_ofIndex (neg : Bool) {i : Nat} (hi : i < signWeight) :
    (ofIndex neg i).index = i := by
  rw [index, toNat_ofIndex neg hi]
  cases neg with
  | false => simpa using Nat.mod_eq_of_lt hi
  | true => simpa using Nat.mod_eq_of_lt hi

theorem negative_ofIndex (neg : Bool) {i : Nat} (hi : i < signWeight) :
    (ofIndex neg i).negative = neg := by
  rw [negative, toNat_ofIndex neg hi]
  cases neg with
  | false => simpa using hi
  | true => simp

theorem index_neg (x : Binary64) : (-x).index = x.index :=
  index_ofIndex _ x.index_lt_signWeight

theorem negative_neg (x : Binary64) : (-x).negative = !x.negative :=
  negative_ofIndex _ x.index_lt_signWeight

theorem rank_neg (x : Binary64) : (-x).rank = -x.rank := by
  simp only [rank]
  rw [negative_neg, index_neg]
  cases x.negative <;> simp

theorem units_neg (x : Binary64) : (-x).units = -x.units := by
  simp only [units]
  rw [negative_neg, index_neg]
  cases x.negative <;> simp

theorem toReal_neg (x : Binary64) : (-x).toReal = -x.toReal := by
  rw [toReal, units_neg, Int.cast_neg, neg_div, toReal]

theorem isNaN_neg (x : Binary64) : (-x).isNaN = x.isNaN := by
  rw [isNaN, index_neg, isNaN]

theorem isFinite_neg (x : Binary64) : (-x).isFinite = x.isFinite := by
  rw [isFinite, index_neg, isFinite]

theorem isInfinite_neg (x : Binary64) : (-x).isInfinite = x.isInfinite := by
  rw [isInfinite, index_neg, isInfinite]

theorem value_neg {x : Binary64} (h : x.isNaN = false) : (-x).value = -x.value := by
  rcases finite_or_infinite h with hf | hi
  · rw [value_of_finite hf, value_of_finite ((isFinite_neg x).trans hf), toReal_neg]
    exact EReal.coe_neg _
  · simp only [value]
    rw [isInfinite_neg, hi, negative_neg]
    cases x.negative <;> simp

/-! ## The class of a word by its rank -/

theorem index_eq_natAbs_rank (x : Binary64) : x.index = x.rank.natAbs := by
  rw [rank]
  split <;> omega

theorem isNaN_eq_false_iff_rank {x : Binary64} :
    x.isNaN = false ↔ x.rank.natAbs ≤ infinityIndex := by
  rw [isNaN, index_eq_natAbs_rank, decide_eq_false_iff_not, Nat.not_lt]

theorem isFinite_iff_rank {x : Binary64} : x.isFinite = true ↔ x.rank.natAbs < infinityIndex := by
  rw [isFinite_iff, index_eq_natAbs_rank]

theorem isInfinite_iff_rank {x : Binary64} :
    x.isInfinite = true ↔ x.rank.natAbs = infinityIndex := by
  rw [isInfinite_iff, index_eq_natAbs_rank]

theorem negative_eq_decide_rank {x : Binary64} (h : x.rank ≠ 0) :
    x.negative = decide (x.rank < 0) := by
  unfold rank at h ⊢
  cases hneg : x.negative with
  | true =>
    rw [hneg, if_pos rfl] at h
    rw [if_pos rfl]
    exact (decide_eq_true (by omega)).symm
  | false =>
    rw [if_neg Bool.false_ne_true]
    exact (decide_eq_false (by omega)).symm

/-- Only the zeros share a rank. -/
theorem eq_of_rank_eq {x y : Binary64} (h : x.rank = y.rank) (h0 : x.rank ≠ 0) : x = y := by
  apply eq_of_negative_eq_of_index_eq
  · rw [negative_eq_decide_rank h0, negative_eq_decide_rank (h ▸ h0), h]
  · rw [index_eq_natAbs_rank, index_eq_natAbs_rank, h]

theorem beq_eq_false_of_rank_ne {x y : Binary64} (h : x.rank ≠ y.rank) : (x == y) = false := by
  rw [← Bool.not_eq_true, Binary64.beq_iff]
  exact fun heq => h heq.2.2

theorem rank_ofIndex (neg : Bool) {i : Nat} (hi : i < signWeight) :
    (ofIndex neg i).rank = if neg then -(i : Int) else (i : Int) := by
  rw [rank, negative_ofIndex neg hi, index_ofIndex neg hi]

/-! ## Neighbours -/

theorem rank_of_toNat_lt {x : Binary64} (h : x.bits.toNat < signWeight) :
    x.index = x.bits.toNat ∧ x.rank = (x.bits.toNat : Int) := by
  have hneg : x.negative = false := decide_eq_false (Nat.not_le.2 h)
  have hindex : x.index = x.bits.toNat := Nat.mod_eq_of_lt h
  refine ⟨hindex, ?_⟩
  rw [rank, hneg, hindex, if_neg Bool.false_ne_true]

theorem rank_of_le_toNat {x : Binary64} (h : signWeight ≤ x.bits.toNat) :
    x.index = x.bits.toNat - signWeight ∧ x.rank = -((x.bits.toNat - signWeight : Nat) : Int) := by
  have hneg : x.negative = true := decide_eq_true h
  have hlt := x.bits.toNat_lt
  have hindex : x.index = x.bits.toNat - signWeight := by
    simp only [index, signWeight] at *
    omega
  refine ⟨hindex, ?_⟩
  rw [rank, hneg, hindex, if_pos rfl]

/-- The word after a non-negative one, which the addition reaches without a carry into the sign. -/
theorem toNat_succ_word {x : Binary64} (hneg : x.negative = false) (hi : x.index < infinityIndex) :
    (x.bits + 1).toNat = x.index + 1 := by
  have hbits := toNat_bits x
  have hone : (1 : UInt64).toNat = 1 := rfl
  rw [hneg, if_neg Bool.false_ne_true, Nat.zero_add] at hbits
  rw [UInt64.toNat_add, hbits, hone]
  refine Nat.mod_eq_of_lt ?_
  simp only [infinityIndex] at hi
  omega

/-- The word before a negative one other than the zero, which the subtraction reaches without a
borrow from the sign. -/
theorem toNat_pred_word {x : Binary64} (hneg : x.negative = true) (h0 : x.index ≠ 0) :
    (x.bits - 1).toNat = signWeight + (x.index - 1) := by
  have hbits := toNat_bits x
  have hone : (1 : UInt64).toNat = 1 := rfl
  rw [hneg, if_pos rfl] at hbits
  have hle : (1 : UInt64) ≤ x.bits := by
    rw [UInt64.le_iff_toNat_le, hbits, hone]
    omega
  rw [UInt64.toNat_sub_of_le _ _ hle, hbits, hone]
  omega

/-- Above zero the word grows with the index. -/
theorem rank_succ_word {x : Binary64} (hneg : x.negative = false) (hi : x.index < infinityIndex) :
    (⟨x.bits + 1⟩ : Binary64).isNaN = false ∧ (⟨x.bits + 1⟩ : Binary64).rank = x.rank + 1 := by
  have hrank : x.rank = (x.index : Int) := by
    rw [rank, hneg, if_neg Bool.false_ne_true]
  have hnext := toNat_succ_word hneg hi
  have hsmall : (x.bits + 1).toNat < signWeight := by
    simp only [infinityIndex, signWeight] at *
    omega
  obtain ⟨hindex, hnextRank⟩ := rank_of_toNat_lt (x := ⟨x.bits + 1⟩) hsmall
  refine ⟨?_, ?_⟩
  · rw [isNaN, hindex, hnext]
    exact decide_eq_false (by omega)
  · rw [hnextRank, hnext, hrank, Int.natCast_succ]

/-- Below zero the word shrinks toward the negative zero. -/
theorem rank_pred_word {x : Binary64} (hneg : x.negative = true) (h0 : x.index ≠ 0)
    (hi : x.index ≤ infinityIndex) :
    (⟨x.bits - 1⟩ : Binary64).isNaN = false ∧ (⟨x.bits - 1⟩ : Binary64).rank = x.rank + 1 := by
  have hrank : x.rank = -(x.index : Int) := by
    rw [rank, hneg, if_pos rfl]
  have hnext := toNat_pred_word hneg h0
  have hlarge : signWeight ≤ (x.bits - 1).toNat := by
    rw [hnext]
    exact Nat.le_add_right _ _
  obtain ⟨hindex, hnextRank⟩ := rank_of_le_toNat (x := ⟨x.bits - 1⟩) hlarge
  have hpred : signWeight + (x.index - 1) - signWeight = x.index - 1 := Nat.add_sub_cancel_left _ _
  refine ⟨?_, ?_⟩
  · rw [isNaN, hindex, hnext, hpred]
    exact decide_eq_false (by omega)
  · rw [hnextRank, hnext, hpred, hrank]
    omega

theorem rank_zero : zero.rank = 0 := by
  decide

theorem units_zero : zero.units = 0 := by
  decide

theorem units_pos_iff {x : Binary64} : 0 < x.units ↔ 0 < x.rank := by
  have h := units_lt_units_iff (a := zero) (b := x)
  rwa [units_zero, rank_zero] at h

/-- Both zeros are followed by the least positive number. -/
theorem nextUp_of_rank_eq_zero {x : Binary64} (h : x.rank = 0) : x.nextUp = ⟨1⟩ := by
  have hx : x.isNaN = false := by
    rw [isNaN_eq_false_iff_rank, h]
    exact Nat.zero_le _
  have hne : (x == posInf) = false := beq_eq_false_of_rank_ne (by rw [h]; decide)
  have hzero : (x == zero) = true := Binary64.beq_iff.2 ⟨hx, by decide, h.trans rank_zero.symm⟩
  rw [nextUp, hx, hne, Bool.false_or, if_neg Bool.false_ne_true, if_pos hzero]

theorem nextUp_of_pos {x : Binary64} (hpos : 0 < x.rank) (hlt : x.rank < posInf.rank) :
    x.nextUp = ⟨x.bits + 1⟩ := by
  have hx : x.isNaN = false := by
    rw [rank_posInf] at hlt
    rw [isNaN_eq_false_iff_rank]
    omega
  have hne : (x == posInf) = false := beq_eq_false_of_rank_ne hlt.ne
  have hzero : (x == zero) = false := beq_eq_false_of_rank_ne (by rw [rank_zero]; exact hpos.ne')
  have habove : zero < x := ⟨by decide, hx, by rwa [rank_zero]⟩
  rw [nextUp, hx, hne, hzero, Bool.false_or, if_neg Bool.false_ne_true, if_neg Bool.false_ne_true,
    if_pos habove]

theorem nextUp_of_neg {x : Binary64} (hx : x.isNaN = false) (hneg : x.rank < 0) :
    x.nextUp = ⟨x.bits - 1⟩ := by
  have hpos : 0 < posInf.rank := by decide
  have hne : (x == posInf) = false := beq_eq_false_of_rank_ne (hneg.trans hpos).ne
  have hzero : (x == zero) = false := beq_eq_false_of_rank_ne (by rw [rank_zero]; exact hneg.ne)
  have hbelow : ¬ zero < x := by
    rw [Binary64.lt_iff, rank_zero]
    exact fun hlt => absurd hlt.2.2 hneg.not_gt
  rw [nextUp, hx, hne, hzero, Bool.false_or, if_neg Bool.false_ne_true, if_neg Bool.false_ne_true,
    if_neg hbelow]

/-- The number above has the next rank. -/
theorem rank_nextUp {x : Binary64} (hx : x.isNaN = false) (hlt : x.rank < posInf.rank) :
    x.nextUp.isNaN = false ∧ x.nextUp.rank = x.rank + 1 := by
  have hindex := index_eq_natAbs_rank x
  rcases lt_trichotomy x.rank 0 with hr | hr | hr
  · have hneg : x.negative = true := (negative_eq_decide_rank hr.ne).trans (decide_eq_true hr)
    rw [nextUp_of_neg hx hr]
    exact rank_pred_word hneg (by omega) (index_le_of_not_nan hx)
  · rw [nextUp_of_rank_eq_zero hr, hr]
    decide
  · have hneg : x.negative = false :=
      (negative_eq_decide_rank hr.ne').trans (decide_eq_false hr.not_gt)
    rw [nextUp_of_pos hr hlt]
    rw [rank_posInf] at hlt
    exact rank_succ_word hneg (by omega)

/-- The number below has the rank before. -/
theorem rank_nextDown {x : Binary64} (hx : x.isNaN = false) (hlt : negInf.rank < x.rank) :
    x.nextDown.isNaN = false ∧ x.nextDown.rank = x.rank - 1 := by
  -- The number below is the reflection of the number above the reflection.
  have hlt' : (-x).rank < posInf.rank := by
    rw [rank_neg, rank_posInf]
    rw [rank_negInf] at hlt
    omega
  obtain ⟨hn, hr⟩ := rank_nextUp ((isNaN_neg x).trans hx) hlt'
  rw [nextDown]
  refine ⟨(isNaN_neg _).trans hn, ?_⟩
  rw [rank_neg, hr, rank_neg]
  omega

/-! ## Adjacent numbers -/

/-- The first number is below the second, and no number lies strictly between them. -/
def Adjacent (a b : Binary64) : Prop :=
  a < b ∧ ∀ v : Binary64, ¬ (a < v ∧ v < b)

theorem adjacent_of_rank_eq_succ {a b : Binary64} (ha : a.isNaN = false) (hb : b.isNaN = false)
    (h : b.rank = a.rank + 1) : Adjacent a b := by
  refine ⟨⟨ha, hb, by omega⟩, ?_⟩
  rintro v ⟨hav, hvb⟩
  have hlow := hav.2.2
  have hhigh := hvb.2.2
  omega

end Binary64

end Paving
