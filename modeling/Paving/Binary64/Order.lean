import Paving.Binary64.Basic

/-!
# The order of binary64 numbers

Laws of the comparison that the interval operations rest on. On numbers that are
not NaNs, comparison is comparison of ranks, so each law is one about integers.
-/

set_option autoImplicit false

namespace Paving

namespace Binary64

protected theorem lt_iff {a b : Binary64} :
    a < b ↔ a.isNaN = false ∧ b.isNaN = false ∧ a.rank < b.rank :=
  Iff.rfl

protected theorem le_iff {a b : Binary64} :
    a ≤ b ↔ a.isNaN = false ∧ b.isNaN = false ∧ a.rank ≤ b.rank :=
  Iff.rfl

protected theorem beq_iff {a b : Binary64} :
    (a == b) = true ↔ a.isNaN = false ∧ b.isNaN = false ∧ a.rank = b.rank := by
  show (!a.isNaN && !b.isNaN && decide (a.rank = b.rank)) = true ↔ _
  simp [and_assoc]

protected theorem le_of_lt {a b : Binary64} (h : a < b) : a ≤ b :=
  ⟨h.1, h.2.1, Int.le_of_lt h.2.2⟩

protected theorem le_trans {a b c : Binary64} (hab : a ≤ b) (hbc : b ≤ c) : a ≤ c :=
  ⟨hab.1, hbc.2.1, Int.le_trans hab.2.2 hbc.2.2⟩

protected theorem lt_of_lt_of_le {a b c : Binary64} (hab : a < b) (hbc : b ≤ c) : a < c :=
  ⟨hab.1, hbc.2.1, Int.lt_of_lt_of_le hab.2.2 hbc.2.2⟩

protected theorem lt_of_le_of_lt {a b c : Binary64} (hab : a ≤ b) (hbc : b < c) : a < c :=
  ⟨hab.1, hbc.2.1, Int.lt_of_le_of_lt hab.2.2 hbc.2.2⟩

protected theorem lt_irrefl (a : Binary64) : ¬ a < a :=
  fun h => Int.lt_irrefl _ h.2.2

/-- Numbers that are not NaNs are comparable. -/
protected theorem le_of_not_lt {a b : Binary64} (ha : a.isNaN = false) (hb : b.isNaN = false)
    (h : ¬ a < b) : b ≤ a :=
  ⟨hb, ha, Int.not_lt.1 fun hr => h ⟨ha, hb, hr⟩⟩

theorem rank_negInf : negInf.rank = -(infinityIndex : Int) := by decide

theorem rank_posInf : posInf.rank = (infinityIndex : Int) := by decide

/-- The rank of a number that is not a NaN lies between those of the infinities. -/
theorem rank_bounds {x : Binary64} (h : x.isNaN = false) :
    negInf.rank ≤ x.rank ∧ x.rank ≤ posInf.rank := by
  have hi : x.index ≤ infinityIndex := by
    simpa [isNaN] using h
  rw [rank_negInf, rank_posInf]
  unfold rank
  split <;> omega

theorem negInf_le {x : Binary64} (h : x.isNaN = false) : negInf ≤ x :=
  ⟨by decide, h, (rank_bounds h).1⟩

theorem le_posInf {x : Binary64} (h : x.isNaN = false) : x ≤ posInf :=
  ⟨h, by decide, (rank_bounds h).2⟩

/-- The larger of two numbers is an upper bound of both. -/
theorem le_larger {a b : Binary64} (ha : a.isNaN = false) (hb : b.isNaN = false) :
    a ≤ larger a b ∧ b ≤ larger a b := by
  unfold larger
  split
  case isTrue h => exact ⟨Binary64.le_of_lt h, hb, hb, Int.le_refl _⟩
  case isFalse h => exact ⟨⟨ha, ha, Int.le_refl _⟩, Binary64.le_of_not_lt ha hb h⟩

/-- The smaller of two numbers is a lower bound of both. -/
theorem smaller_le {a b : Binary64} (ha : a.isNaN = false) (hb : b.isNaN = false) :
    smaller a b ≤ a ∧ smaller a b ≤ b := by
  unfold smaller
  split
  case isTrue h => exact ⟨Binary64.le_of_lt h, hb, hb, Int.le_refl _⟩
  case isFalse h => exact ⟨⟨ha, ha, Int.le_refl _⟩, Binary64.le_of_not_lt hb ha h⟩

end Binary64

end Paving
