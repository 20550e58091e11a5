import Paving.Proofs.Binary64.Isotony

/-!
# The order of numbers step by step

The neighbours of a number are found on its word. Above zero the number above has the next word
and below zero it has the word before, because the index counts magnitudes from zero outward.
Nothing is said there about values, yet the steps are those of the values: across the two zeros,
from the subnormal to the normal numbers, from binade to binade and out to the infinities, no
number is skipped and none is met twice.

* `Neighbouring` says that nothing lies between two numbers, whether they are compared as the
  operations compare them or by their exact values. Each number is `Neighbouring` to the numbers
  that `nextUp` and `nextDown` give (`neighbouring_nextUp`, `neighbouring_nextDown`). That the
  steps keep the order follows from this alone (`value_nextUp_lt`).
* `Consecutive` says that two words of one sign differ by one as whole numbers. A step away from
  zero and a step toward it are `Consecutive`, so no addition or subtraction on a word wraps or
  touches the sign (`consecutive_nextUp_of_pos`, `consecutive_nextUp_of_neg`).

The step down is the reflection of the step up, and each of its laws is obtained by reflection
where that is shorter.
-/

set_option autoImplicit false

namespace Paving

namespace Binary64

variable {x y : Binary64}

/-! ## Where a step is defined -/

theorem rank_lt_posInf (hx : x.isNaN = false) (hne : x ≠ posInf) : x.rank < posInf.rank := by
  refine lt_of_le_of_ne (rank_bounds hx).2 ?_
  -- Only the rank of zero belongs to two words.
  intro hrank
  exact hne (eq_of_rank_eq hrank (by rw [hrank]; decide))

theorem negInf_lt_rank (hx : x.isNaN = false) (hne : x ≠ negInf) : negInf.rank < x.rank := by
  refine lt_of_le_of_ne (rank_bounds hx).1 ?_
  intro hrank
  exact hne.symm (eq_of_rank_eq hrank (by decide))

/-- A step up gives a NaN only for a NaN. -/
theorem isNaN_nextUp (x : Binary64) : x.nextUp.isNaN = x.isNaN := by
  cases hx : x.isNaN with
  | true => rw [nextUp, hx, Bool.true_or, if_pos rfl, hx]
  | false =>
    by_cases hne : x = posInf
    · rw [hne]
      decide
    · exact (rank_nextUp hx (rank_lt_posInf hx hne)).1

theorem isNaN_nextDown (x : Binary64) : x.nextDown.isNaN = x.isNaN := by
  rw [nextDown, isNaN_neg, isNaN_nextUp, isNaN_neg]

/-! ## Neighbours by value -/

/-- The second number is the next one after the first. It is greater, both as numbers are compared
and as an exact value, and no number lies strictly between them in either sense. -/
structure Neighbouring (a b : Binary64) : Prop where
  adjacent : Adjacent a b
  value_lt : a.value < b.value
  value_gap : ∀ v : Binary64, v.isNaN = false → v.value ≤ a.value ∨ b.value ≤ v.value

theorem neighbouring_of_rank_eq_succ (hx : x.isNaN = false) (hy : y.isNaN = false)
    (h : y.rank = x.rank + 1) : Neighbouring x y := by
  refine ⟨adjacent_of_rank_eq_succ hx hy h, ?_, ?_⟩
  · rw [value_lt_value_iff hx hy]
    omega
  · intro v hv
    rw [value_le_value_iff hv hx, value_le_value_iff hy hv]
    omega

theorem neighbouring_nextUp (hx : x.isNaN = false) (hne : x ≠ posInf) :
    Neighbouring x x.nextUp := by
  obtain ⟨hnan, hrank⟩ := rank_nextUp hx (rank_lt_posInf hx hne)
  exact neighbouring_of_rank_eq_succ hx hnan hrank

theorem neighbouring_nextDown (hx : x.isNaN = false) (hne : x ≠ negInf) :
    Neighbouring x.nextDown x := by
  obtain ⟨hnan, hrank⟩ := rank_nextDown hx (negInf_lt_rank hx hne)
  exact neighbouring_of_rank_eq_succ hnan hx (by omega)

theorem nextDown_nextUp_beq (hx : x.isNaN = false) (hne : x ≠ posInf) :
    (x.nextUp.nextDown == x) = true := by
  have hlow := (rank_bounds hx).1
  obtain ⟨hup, hnext⟩ := rank_nextUp hx (rank_lt_posInf hx hne)
  obtain ⟨hback, hprev⟩ := rank_nextDown hup (by omega)
  exact Binary64.beq_iff.2 ⟨hback, hx, by omega⟩

theorem nextUp_nextDown_beq (hx : x.isNaN = false) (hne : x ≠ negInf) :
    (x.nextDown.nextUp == x) = true := by
  have hhigh := (rank_bounds hx).2
  obtain ⟨hdown, hprev⟩ := rank_nextDown hx (negInf_lt_rank hx hne)
  obtain ⟨hback, hnext⟩ := rank_nextUp hdown (by omega)
  exact Binary64.beq_iff.2 ⟨hback, hx, by omega⟩

/-- A step up depends on the value alone: it does not tell the two zeros apart. -/
theorem nextUp_eq_of_value_eq (hx : x.isNaN = false) (hy : y.isNaN = false)
    (h : x.value = y.value) : x.nextUp = y.nextUp := by
  rw [value_eq_value_iff hx hy] at h
  -- The zeros are two words, and any other value has one.
  by_cases hzero : x.rank = 0
  · rw [nextUp_of_rank_eq_zero hzero, nextUp_of_rank_eq_zero (h ▸ hzero)]
  · rw [eq_of_rank_eq h hzero]

/-- A step up keeps the order, since it stops at the next number and another step goes beyond
it. -/
theorem value_nextUp_lt (hx : x.isNaN = false) (hy : y.isNaN = false) (hne : y ≠ posInf)
    (h : x.value < y.value) : x.nextUp.value < y.nextUp.value := by
  have hbelow : x ≠ posInf := by
    rintro rfl
    have hlt := (value_lt_value_iff hx hy).1 h
    have hhigh := (rank_bounds hy).2
    omega
  -- The greater value is none between the smaller one and its successor.
  rcases (neighbouring_nextUp hx hbelow).value_gap y hy with hback | hreached
  · exact absurd h (not_lt.2 hback)
  · exact hreached.trans_lt (neighbouring_nextUp hy hne).value_lt

/-! ## Neighbours by word -/

/-- Two words of one sign, of which the second is greater by one as a whole number. -/
structure Consecutive (u w : Binary64) : Prop where
  negative_eq : w.negative = u.negative
  toNat_bits_eq : w.bits.toNat = u.bits.toNat + 1

theorem consecutive_iff_index :
    Consecutive x y ↔ y.negative = x.negative ∧ y.index = x.index + 1 := by
  have hx := toNat_bits x
  have hy := toNat_bits y
  constructor
  · rintro ⟨hneg, hbits⟩
    rw [hneg] at hy
    exact ⟨hneg, by omega⟩
  · rintro ⟨hneg, hindex⟩
    rw [hneg] at hy
    exact ⟨hneg, by omega⟩

theorem Consecutive.of_neg_left (h : Consecutive (-x) y) : Consecutive x (-y) := by
  rw [consecutive_iff_index, negative_neg, index_neg] at h
  rw [consecutive_iff_index, negative_neg, index_neg]
  refine ⟨?_, h.2⟩
  rw [h.1, Bool.not_not]

theorem Consecutive.of_neg_right (h : Consecutive x (-y)) : Consecutive (-x) y := by
  rw [consecutive_iff_index, negative_neg, index_neg] at h
  rw [consecutive_iff_index, negative_neg, index_neg]
  refine ⟨?_, h.2⟩
  rw [← h.1, Bool.not_not]

/-- Above zero a step up adds one to the word. -/
theorem consecutive_nextUp_of_pos (hpos : 0 < x.rank) (hlt : x.rank < posInf.rank) :
    Consecutive x x.nextUp := by
  have hneg : x.negative = false :=
    (negative_eq_decide_rank hpos.ne').trans (decide_eq_false hpos.not_gt)
  have hindex : x.index < infinityIndex := by
    rw [rank_posInf] at hlt
    rw [index_eq_natAbs_rank]
    omega
  have hword := toNat_bits x
  rw [hneg, if_neg Bool.false_ne_true, Nat.zero_add] at hword
  have hnext := toNat_succ_word hneg hindex
  rw [nextUp_of_pos hpos hlt]
  refine ⟨?_, hnext.trans (by rw [hword])⟩
  -- The infinity is the last word of a number that the addition reaches, far from the sign bit.
  rw [hneg, negative, hnext]
  simp only [infinityIndex, signWeight] at *
  exact decide_eq_false (by omega)

/-- Below zero a step up takes one from the word, down to the negative zero. -/
theorem consecutive_nextUp_of_neg (hx : x.isNaN = false) (hneg : x.rank < 0) :
    Consecutive x.nextUp x := by
  have hsign : x.negative = true := (negative_eq_decide_rank hneg.ne).trans (decide_eq_true hneg)
  have hindex : x.index ≠ 0 := by
    rw [index_eq_natAbs_rank]
    omega
  have hword := toNat_bits x
  rw [hsign, if_pos rfl] at hword
  have hprev := toNat_pred_word hsign hindex
  rw [nextUp_of_neg hx hneg]
  refine ⟨?_, ?_⟩
  · rw [hsign, negative, hprev]
    exact (decide_eq_true (Nat.le_add_right _ _)).symm
  · rw [hword, hprev]
    omega

theorem consecutive_nextDown_of_pos (hx : x.isNaN = false) (hpos : 0 < x.rank) :
    Consecutive x.nextDown x := by
  have hneg : (-x).rank < 0 := by
    rw [rank_neg]
    omega
  exact (consecutive_nextUp_of_neg ((isNaN_neg x).trans hx) hneg).of_neg_right

theorem consecutive_nextDown_of_neg (hneg : x.rank < 0) (hlt : negInf.rank < x.rank) :
    Consecutive x x.nextDown := by
  have hrank := rank_neg x
  rw [rank_negInf] at hlt
  exact (consecutive_nextUp_of_pos (by omega) (by rw [rank_posInf]; omega)).of_neg_left

/-! ## All steps -/

/-- The steps on words are the steps of the order. Below positive infinity `nextUp` gives the next
greater number, with none in between, and above negative infinity `nextDown` gives the next smaller
one; each undoes the other. A step up takes equal values, such as those of the two zeros, to one
word and keeps the order of different ones. On the words it is one addition away from zero, or one
subtraction toward it, that neither wraps nor changes the sign, and a step never makes a NaN. -/
theorem word_steps_reach_neighbours (x y : Binary64) :
    (x.isNaN = false → x ≠ posInf →
        Neighbouring x x.nextUp ∧ (x.nextUp.nextDown == x) = true) ∧
      (x.isNaN = false → x ≠ negInf →
        Neighbouring x.nextDown x ∧ (x.nextDown.nextUp == x) = true) ∧
      (x.isNaN = false → y.isNaN = false →
        (x.value = y.value → x.nextUp = y.nextUp) ∧
          (x.value < y.value → y ≠ posInf →
            x.nextUp < y.nextUp ∧ x.nextUp.value < y.nextUp.value)) ∧
      ((zero < x → x ≠ posInf → Consecutive x x.nextUp) ∧
        (x < zero → Consecutive x.nextUp x) ∧
        (zero < x → Consecutive x.nextDown x) ∧
        (x < zero → x ≠ negInf → Consecutive x x.nextDown)) ∧
      x.nextUp.isNaN = x.isNaN ∧ x.nextDown.isNaN = x.isNaN := by
  refine ⟨?_, ?_, ?_, ⟨?_, ?_, ?_, ?_⟩, isNaN_nextUp x, isNaN_nextDown x⟩
  · exact fun hx hne => ⟨neighbouring_nextUp hx hne, nextDown_nextUp_beq hx hne⟩
  · exact fun hx hne => ⟨neighbouring_nextDown hx hne, nextUp_nextDown_beq hx hne⟩
  · intro hx hy
    refine ⟨nextUp_eq_of_value_eq hx hy, ?_⟩
    intro hlt hne
    have hvalue := value_nextUp_lt hx hy hne hlt
    have hnx := (isNaN_nextUp x).trans hx
    have hny := (isNaN_nextUp y).trans hy
    exact ⟨⟨hnx, hny, (value_lt_value_iff hnx hny).1 hvalue⟩, hvalue⟩
  · intro hpos hne
    exact consecutive_nextUp_of_pos ((zero_lt_iff hpos.2.1).1 hpos) (rank_lt_posInf hpos.2.1 hne)
  · intro hneg
    exact consecutive_nextUp_of_neg hneg.1 ((lt_zero_iff hneg.1).1 hneg)
  · intro hpos
    exact consecutive_nextDown_of_pos hpos.2.1 ((zero_lt_iff hpos.2.1).1 hpos)
  · intro hneg hne
    exact consecutive_nextDown_of_neg ((lt_zero_iff hneg.1).1 hneg) (negInf_lt_rank hneg.1 hne)

/-- The largest number below the normal ones. -/
def maxSubnormal : Binary64 :=
  ⟨0x000fffffffffffff⟩

/-- A step leads from the subnormal to the normal numbers, from the largest finite number to the
infinity, from the negative infinity to the least finite number, and from both zeros to the same
word. -/
theorem boundaries_stepped_across :
    (Neighbouring maxSubnormal minNormal ∧ (minNormal.nextDown == maxSubnormal) = true ∧
        Consecutive maxSubnormal minNormal) ∧
      (Neighbouring maxFinite posInf ∧ Consecutive maxFinite posInf) ∧
      (Neighbouring negInf (-maxFinite) ∧ Consecutive (-maxFinite) negInf) ∧
      (-zero).nextUp = zero.nextUp ∧ (-zero).nextUp < maxFinite.nextUp := by
  obtain ⟨hup, -, -, ⟨hword, -⟩, -⟩ := word_steps_reach_neighbours maxSubnormal maxSubnormal
  obtain ⟨htop, -, -, ⟨htopWord, -⟩, -⟩ := word_steps_reach_neighbours maxFinite maxFinite
  obtain ⟨hbottom, -, -, ⟨-, hbottomWord, -⟩, -⟩ := word_steps_reach_neighbours negInf negInf
  obtain ⟨-, -, hzeros, -⟩ := word_steps_reach_neighbours (-zero) zero
  obtain ⟨-, -, horder, -⟩ := word_steps_reach_neighbours (-zero) maxFinite
  have hnormal : maxSubnormal.nextUp = minNormal := by decide
  have hinfinity : maxFinite.nextUp = posInf := by decide
  have hleast : negInf.nextUp = -maxFinite := by decide
  rw [hnormal] at hup hword
  rw [hinfinity] at htop htopWord
  rw [hleast] at hbottom hbottomWord
  obtain ⟨hnext, hback⟩ := hup (by decide) (by decide)
  refine ⟨⟨hnext, hback, hword (by decide) (by decide)⟩, ⟨?_, htopWord (by decide) (by decide)⟩,
    ⟨?_, hbottomWord (by decide)⟩, ?_, ?_⟩
  · exact (htop (by decide) (by decide)).1
  · exact (hbottom (by decide) (by decide)).1
  · exact (hzeros (by decide) (by decide)).1
      ((value_eq_value_iff (by decide) (by decide)).2 (by decide))
  · exact ((horder (by decide) (by decide)).2
      ((value_lt_value_iff (by decide) (by decide)).2 (by decide)) (by decide)).1

end Binary64

end Paving
