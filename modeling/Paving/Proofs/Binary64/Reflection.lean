import Paving.Proofs.Binary64.Isotony

/-!
# Reflected operands

If all operands of an operation change their sign, its result should do so too, and a bound that
was rounded down should be rounded up. Lower and upper bounds are computed by different steps, so
this is a property of every one of them: rounding to nearest, the error terms, the neighbours and
the cases in which an error term is not trusted.

`Reflects flip x y` says that `y` is `x`, or its reflection if `flip` is set, up to the sign of a
zero and to which NaN it is. Every operation keeps this relation, a product with the sign of both
factors (`Reflects.add`, `Reflects.mul`, `Reflects.fusedMulAdd`), and so does every step of the
directed ones, if the direction is turned along (`Reflects.directedAdd`, `Reflects.directedMul`).
-/

set_option autoImplicit false

namespace Paving

namespace Binary64

/-! ## Signs -/

/-- The number, or its negation. -/
def turned (flip : Bool) (r : Int) : Int :=
  if flip then -r else r

@[simp] theorem turned_false (r : Int) : turned false r = r := rfl

@[simp] theorem turned_true (r : Int) : turned true r = -r := rfl

@[simp] theorem natAbs_turned (flip : Bool) (r : Int) : (turned flip r).natAbs = r.natAbs := by
  cases flip <;> simp

theorem turned_add (flip : Bool) (m n : Int) :
    turned flip (m + n) = turned flip m + turned flip n := by
  cases flip with
  | false => rfl
  | true => exact Int.neg_add

theorem turned_mul (f g : Bool) (m n : Int) :
    turned (f ^^ g) (m * n) = turned f m * turned g n := by
  cases f <;> cases g <;> simp

theorem turned_mul_right (flip : Bool) (m n : Int) : turned flip (m * n) = turned flip m * n := by
  cases flip with
  | false => rfl
  | true => exact (Int.neg_mul m n).symm

theorem nearestRank_turned (flip : Bool) (num : Int) (den : Nat) :
    nearestRank (turned flip num) den = turned flip (nearestRank num den) := by
  cases flip with
  | false => rfl
  | true => exact nearestRank_neg num den

theorem not_infinite_of_nan {x : Binary64} (h : x.isNaN = true) : x.isInfinite = false := by
  rw [← Bool.not_eq_true]
  intro hinfinite
  rw [not_nan_of_infinite hinfinite] at h
  cases h

theorem not_finite_of_nan {x : Binary64} (h : x.isNaN = true) : x.isFinite = false := by
  rw [← Bool.not_eq_true]
  intro hfinite
  rw [not_nan_of_finite hfinite] at h
  cases h

/-- Both numbers are NaNs, or the rank of the second is that of the first with a sign. -/
structure Reflects (flip : Bool) (x y : Binary64) : Prop where
  isNaN_eq : y.isNaN = x.isNaN
  rank_eq : x.isNaN = false → y.rank = turned flip x.rank

theorem reflects_of_rank {flip : Bool} {x y : Binary64} (h : y.rank = turned flip x.rank) :
    Reflects flip x y := by
  refine ⟨?_, fun _ => h⟩
  have hiff : y.isNaN = false ↔ x.isNaN = false := by
    rw [isNaN_eq_false_iff_rank, isNaN_eq_false_iff_rank, h, natAbs_turned]
  cases hx : x.isNaN with
  | false => exact hiff.2 hx
  | true => simpa [hx] using hiff

theorem reflects_of_nan {flip : Bool} {x y : Binary64} (hx : x.isNaN = true)
    (hy : y.isNaN = true) : Reflects flip x y :=
  ⟨hy.trans hx.symm, fun h => by rw [hx] at h; cases h⟩

/-- Numbers at one distance from zero are equal or reflections of each other. -/
theorem exists_reflects_of_natAbs {x y : Binary64} (h : y.rank.natAbs = x.rank.natAbs) :
    ∃ flip, Reflects flip x y := by
  rcases Int.natAbs_eq_natAbs_iff.1 h with heq | hneg
  · exact ⟨false, reflects_of_rank heq⟩
  · exact ⟨true, reflects_of_rank hneg⟩

theorem reflects_self (x : Binary64) : Reflects false x x :=
  ⟨rfl, fun _ => rfl⟩

theorem reflects_neg (x : Binary64) : Reflects true x (-x) :=
  ⟨isNaN_neg x, fun _ => rank_neg x⟩

namespace Reflects

section Words

variable {f g : Bool} {x y a a' b b' c c' : Binary64}

theorem neg_left (h : Reflects f x y) : Reflects (!f) (-x) y := by
  refine ⟨h.isNaN_eq.trans (isNaN_neg x).symm, ?_⟩
  intro hx
  rw [isNaN_neg] at hx
  rw [rank_neg, h.rank_eq hx]
  cases f <;> simp

theorem neg_right (h : Reflects f x y) : Reflects (!f) x (-y) := by
  refine ⟨(isNaN_neg y).trans h.isNaN_eq, ?_⟩
  intro hx
  rw [rank_neg, h.rank_eq hx]
  cases f <;> simp

theorem neg (h : Reflects f x y) : Reflects f (-x) (-y) := by
  simpa using h.neg_left.neg_right

theorem natAbs_rank_eq (h : Reflects f x y) (hx : x.isNaN = false) :
    y.rank.natAbs = x.rank.natAbs := by
  rw [h.rank_eq hx, natAbs_turned]

theorem isInfinite_eq (h : Reflects f x y) : y.isInfinite = x.isInfinite := by
  cases hx : x.isNaN with
  | true => rw [not_infinite_of_nan hx, not_infinite_of_nan (h.isNaN_eq.trans hx)]
  | false => rw [Bool.eq_iff_iff, isInfinite_iff_rank, isInfinite_iff_rank, h.natAbs_rank_eq hx]

theorem isFinite_eq (h : Reflects f x y) : y.isFinite = x.isFinite := by
  cases hx : x.isNaN with
  | true => rw [not_finite_of_nan hx, not_finite_of_nan (h.isNaN_eq.trans hx)]
  | false => rw [Bool.eq_iff_iff, isFinite_iff_rank, isFinite_iff_rank, h.natAbs_rank_eq hx]

theorem units_eq (h : Reflects f x y) (hx : x.isNaN = false) : y.units = turned f x.units := by
  rw [units_eq_unitsOfRank, units_eq_unitsOfRank, h.rank_eq hx]
  cases f with
  | false => rfl
  | true => exact unitsOfRank_neg x.rank

/-- The signs of numbers that are not zeros are turned along. -/
theorem negative_eq (h : Reflects f x y) (hx : x.isNaN = false) (hzero : x.rank ≠ 0) :
    y.negative = (x.negative ^^ f) := by
  have hrank := h.rank_eq hx
  have hy : y.rank ≠ 0 := by
    rw [← Int.natAbs_ne_zero, h.natAbs_rank_eq hx, Int.natAbs_ne_zero]
    exact hzero
  rw [negative_eq_decide_rank hzero, negative_eq_decide_rank hy, hrank]
  cases f with
  | false => rw [turned_false, Bool.xor_false]
  | true =>
    rw [turned_true, Bool.xor_true, ← decide_not, decide_eq_decide]
    omega

/-- Equality survives a reflection of both sides. -/
theorem beq_eq (hx : Reflects f x y) (ha : Reflects f a a') : (y == a') = (x == a) := by
  rw [Bool.eq_iff_iff, Binary64.beq_iff, Binary64.beq_iff, hx.isNaN_eq, ha.isNaN_eq]
  refine and_congr_right fun hnx => and_congr_right fun hna => ?_
  rw [hx.rank_eq hnx, ha.rank_eq hna]
  cases f with
  | false => rfl
  | true => exact Int.neg_inj

theorem le_iff (hx : Reflects false x y) (ha : Reflects false a a') : y ≤ a' ↔ x ≤ a := by
  rw [Binary64.le_iff, Binary64.le_iff, hx.isNaN_eq, ha.isNaN_eq]
  refine and_congr_right fun hnx => and_congr_right fun hna => ?_
  rw [hx.rank_eq hnx, ha.rank_eq hna, turned_false, turned_false]

theorem lt_iff (hx : Reflects false x y) (ha : Reflects false a a') : y < a' ↔ x < a := by
  rw [Binary64.lt_iff, Binary64.lt_iff, hx.isNaN_eq, ha.isNaN_eq]
  refine and_congr_right fun hnx => and_congr_right fun hna => ?_
  rw [hx.rank_eq hnx, ha.rank_eq hna, turned_false, turned_false]

theorem beq_zero_eq (h : Reflects f x y) : (y == zero) = (x == zero) :=
  h.beq_eq (reflects_of_rank (by rw [rank_zero]; cases f <;> rfl))

theorem abs_lt_minNormal_eq (h : Reflects f x y) :
    decide (y.abs < minNormal) = decide (x.abs < minNormal) := by
  cases hx : x.isNaN with
  | true => simp [Binary64.lt_iff, isNaN_abs, hx, h.isNaN_eq]
  | false =>
    rw [decide_eq_decide, abs_lt_minNormal_iff hx, abs_lt_minNormal_iff (h.isNaN_eq.trans hx),
      h.natAbs_rank_eq hx]

/-! ## Operations rounded to nearest -/

theorem add (ha : Reflects f a a') (hb : Reflects f b b') : Reflects f (a + b) (a' + b') := by
  show Reflects f (Binary64.add a b) (Binary64.add a' b')
  rw [Binary64.add, Binary64.add, ha.isNaN_eq, hb.isNaN_eq, ha.isInfinite_eq, hb.isInfinite_eq]
  split
  case isTrue => exact reflects_of_nan rfl rfl
  case isFalse hnan =>
    rw [Bool.not_eq_true, Bool.or_eq_false_iff] at hnan
    obtain ⟨hna, hnb⟩ := hnan
    split
    case isTrue hia =>
      -- Infinities of opposite signs stay so.
      have hsigns : (b.isInfinite && (a'.negative != b'.negative)) =
          (b.isInfinite && (a.negative != b.negative)) := by
        cases hib : b.isInfinite with
        | false => rfl
        | true =>
          rw [ha.negative_eq hna (rank_ne_zero_of_infinite hia),
            hb.negative_eq hnb (rank_ne_zero_of_infinite hib)]
          cases f <;> simp
      rw [hsigns]
      split
      · exact reflects_of_nan rfl rfl
      · exact ha
    case isFalse =>
      split
      case isTrue => exact hb
      case isFalse =>
        refine reflects_of_rank ?_
        rw [rank_ofSignedUnits _ Nat.one_pos, rank_ofSignedUnits _ Nat.one_pos, ha.units_eq hna,
          hb.units_eq hnb, ← turned_add, nearestRank_turned]

theorem sub (ha : Reflects f a a') (hb : Reflects f b b') : Reflects f (a - b) (a' - b') :=
  ha.add hb.neg

theorem mul (ha : Reflects f a a') (hb : Reflects g b b') :
    Reflects (f ^^ g) (a * b) (a' * b') := by
  by_cases hfinite : a.isFinite = true ∧ b.isFinite = true
  · obtain ⟨hfa, hfb⟩ := hfinite
    refine reflects_of_rank ?_
    rw [rank_mul hfa hfb, rank_mul (ha.isFinite_eq.trans hfa) (hb.isFinite_eq.trans hfb),
      ha.units_eq (not_nan_of_finite hfa), hb.units_eq (not_nan_of_finite hfb), ← turned_mul,
      nearestRank_turned]
  · show Reflects (f ^^ g) (Binary64.mul a b) (Binary64.mul a' b')
    simp only [Binary64.mul]
    rw [ha.isNaN_eq, hb.isNaN_eq, ha.isInfinite_eq, hb.isInfinite_eq]
    split
    case isTrue => exact reflects_of_nan rfl rfl
    case isFalse hnan =>
      rw [Bool.not_eq_true, Bool.or_eq_false_iff] at hnan
      obtain ⟨hna, hnb⟩ := hnan
      split
      case isTrue =>
        rw [index_eq_natAbs_rank, index_eq_natAbs_rank, index_eq_natAbs_rank,
          index_eq_natAbs_rank, ha.natAbs_rank_eq hna, hb.natAbs_rank_eq hnb]
        split
        case isTrue => exact reflects_of_nan rfl rfl
        case isFalse hzero =>
          simp only [Bool.or_eq_true, decide_eq_true_eq, Int.natAbs_eq_zero, not_or] at hzero
          refine reflects_of_rank ?_
          rw [rank_ofIndex _ infinityIndex_lt_signWeight,
            rank_ofIndex _ infinityIndex_lt_signWeight, ha.negative_eq hna hzero.1,
            hb.negative_eq hnb hzero.2]
          cases f <;> cases g <;> cases a.negative <;> cases b.negative <;> rfl
      case isFalse hinfinite =>
        rw [Bool.or_eq_true] at hinfinite
        exact absurd (infinite_of_not_finite hna hnb hfinite) hinfinite

theorem fusedMulAdd (ha : Reflects f a a') (hb : Reflects g b b') (hc : Reflects (f ^^ g) c c') :
    Reflects (f ^^ g) (Binary64.fusedMulAdd a b c) (Binary64.fusedMulAdd a' b' c') := by
  rw [Binary64.fusedMulAdd, Binary64.fusedMulAdd, ha.isNaN_eq, hb.isNaN_eq, hc.isNaN_eq,
    ha.isInfinite_eq, hb.isInfinite_eq, hc.isInfinite_eq]
  split
  case isTrue => exact reflects_of_nan rfl rfl
  case isFalse hnan =>
    rw [Bool.not_eq_true, Bool.or_eq_false_iff, Bool.or_eq_false_iff] at hnan
    obtain ⟨⟨hna, hnb⟩, hnc⟩ := hnan
    split
    case isTrue => exact (ha.mul hb).add hc
    case isFalse =>
      split
      case isTrue => exact hc
      case isFalse =>
        refine reflects_of_rank ?_
        rw [rank_ofSignedUnits _ unitsPerOne_pos_nat, rank_ofSignedUnits _ unitsPerOne_pos_nat,
          ha.units_eq hna, hb.units_eq hnb, hc.units_eq hnc, ← turned_mul, ← turned_mul_right,
          ← turned_add, nearestRank_turned]

end Words

end Reflects

end Binary64

namespace Direction

open Binary64

/-! ## Directed operations -/

/-- The direction, or the other one. -/
def turned (flip : Bool) (d : Direction) : Direction :=
  if flip then d.opposite else d

end Direction

namespace Binary64

namespace Reflects

section Directed

variable {f g : Bool} {d : Direction} {x y a a' b b' s s' e e' : Binary64}

theorem twoSumError (ha : Reflects f a a') (hb : Reflects f b b') (hs : Reflects f s s') :
    Reflects f (Binary64.twoSumError a b s) (Binary64.twoSumError a' b' s') :=
  (ha.sub (hs.sub (hs.sub ha))).add (hb.sub (hs.sub ha))

theorem wrongSide_eq (h : Reflects f e e') : (d.turned f).wrongSide e' = d.wrongSide e := by
  cases he : e.isNaN with
  | true => rw [Direction.wrongSide_nan he, Direction.wrongSide_nan (h.isNaN_eq.trans he)]
  | false =>
    have hrank := h.rank_eq he
    have he' := h.isNaN_eq.trans he
    cases f <;> cases d <;>
      simp only [Direction.turned, Direction.opposite, Direction.wrongSide, if_true,
        Bool.false_eq_true, if_false, decide_eq_decide, lt_zero_iff he, lt_zero_iff he',
        zero_lt_iff he, zero_lt_iff he', hrank, turned_false, turned_true] <;>
      omega

theorem nextUp (h : Reflects false x y) : Reflects false x.nextUp y.nextUp := by
  cases hstays : x.isNaN || x == posInf with
  | true =>
    rw [Binary64.nextUp, Binary64.nextUp, h.isNaN_eq, h.beq_eq (reflects_self posInf), hstays]
    exact h
  | false =>
    obtain ⟨hx, hinf⟩ := Bool.or_eq_false_iff.1 hstays
    have hrank : y.rank = x.rank := h.rank_eq hx
    have hne : x.rank ≠ posInf.rank := by
      intro heq
      rw [Binary64.beq_iff.2 ⟨hx, by decide, heq⟩] at hinf
      cases hinf
    have hlt : x.rank < posInf.rank := lt_of_le_of_ne (rank_bounds hx).2 hne
    refine reflects_of_rank ?_
    rw [(rank_nextUp hx hlt).2, (rank_nextUp (h.isNaN_eq.trans hx) (hrank ▸ hlt)).2, hrank]
    rfl

/-- The number below is by definition the reflection of the number above the reflection. -/
theorem step (h : Reflects f x y) : Reflects f (d.step x) ((d.turned f).step y) := by
  cases d with
  | up =>
    cases f with
    | false => exact h.nextUp
    | true => exact h.neg_right.nextUp.neg_right
  | down =>
    cases f with
    | false => exact h.neg.nextUp.neg
    | true => exact h.neg_left.nextUp.neg_left

theorem correct (hx : Reflects f x y) (he : Reflects f e e') :
    Reflects f (d.correct x e) ((d.turned f).correct y e') := by
  rw [Direction.correct, Direction.correct, he.wrongSide_eq]
  split
  · exact hx.step
  · exact hx

/-- An infinity against the direction, and the finite number that it is cut back to. -/
theorem saturate_of_beq (hx : Reflects f x y) {limit limit' bound bound' : Binary64}
    (hlimit : Reflects f limit limit') (hbound : Reflects f bound bound') :
    Reflects f (if x == limit then bound else x) (if y == limit' then bound' else y) := by
  rw [hx.beq_eq hlimit]
  split
  · exact hbound
  · exact hx

theorem saturate (h : Reflects f x y) : Reflects f (d.saturate x) ((d.turned f).saturate y) := by
  cases f with
  | false =>
    cases d with
    | down => exact h.saturate_of_beq (reflects_self _) (reflects_self _)
    | up => exact h.saturate_of_beq (reflects_self _) (reflects_self _)
  | true =>
    cases d with
    | down => exact h.saturate_of_beq (reflects_of_rank (by decide)) (reflects_neg _)
    | up => exact h.saturate_of_beq (reflects_of_rank (by decide)) (reflects_self _).neg_left

/-- Directed sums of reflected summands are reflections of each other. -/
theorem directedAdd (ha : Reflects f a a') (hb : Reflects f b b') :
    Reflects f (d.add a b) ((d.turned f).add a' b') := by
  have hs := ha.add hb
  simp only [Direction.add]
  rw [hs.isInfinite_eq, ha.isFinite_eq, hb.isFinite_eq]
  split
  · split
    · exact hs.saturate
    · exact hs
  · exact hs.correct (ha.twoSumError hb hs)

/-- Directed products with reflected factors are reflections of each other. -/
theorem directedMul (ha : Reflects f a a') (hb : Reflects g b b') :
    Reflects (f ^^ g) (d.mul a b) ((d.turned (f ^^ g)).mul a' b') := by
  have hp := ha.mul hb
  -- Every condition looks at magnitudes only, so both products take the same branch.
  simp only [Direction.mul, Direction.settle?]
  rw [hp.isNaN_eq, hp.isInfinite_eq, ha.isFinite_eq, hb.isFinite_eq, ha.beq_zero_eq,
    hb.beq_zero_eq, hp.abs_lt_minNormal_eq]
  split_ifs
  · exact hp
  · exact hp.saturate
  · exact hp
  · exact hp.step
  · exact hp.correct (ha.fusedMulAdd hb hp.neg)

/-- The square does not see a reflection. -/
theorem directedSquare (h : Reflects f a a') : Reflects false (d.mul a a) (d.mul a' a') := by
  have hsquare := h.directedMul (d := d) h
  rw [Bool.xor_self] at hsquare
  exact hsquare

end Directed

end Reflects

end Binary64

end Paving
