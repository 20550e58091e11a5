import Paving.Proofs.Binary64.Reflection
import Paving.Proofs.Box.Diameters
import Paving.Proofs.Interval.Lattice

/-!
# Reflected intervals

The reflection of an interval exchanges its bounds and their signs, and the operators follow: a
lower bound of the reflected operands is the reflection of the upper bound of the original ones.
For sums, products and squares this is what `Binary64.Reflects` says of directed operations, once
for each bound (`neg_ofBounds_beq`). The set operations are determined by points and by inclusion,
and a diameter by the exact width, so no bound has to be looked at there.
-/

set_option autoImplicit false

namespace Paving

namespace Direction

open Binary64

theorem along_opposite (d : Direction) (a : Binary64) :
    d.opposite.along a = (d.along a).opposite := by
  rw [along, along]
  split
  · rfl
  · rfl

/-- A factor that is not zero turns the direction if its reflection does not. -/
theorem along_opposite_neg {a : Binary64} (ha : a.isFinite = true) (hzero : (a == zero) = false)
    (d : Direction) : d.opposite.along (-a) = d.along a := by
  have hnan := not_nan_of_finite ha
  have hrank : a.rank ≠ 0 := by
    intro h
    rw [Binary64.beq_iff.2 ⟨hnan, by decide, h.trans rank_zero.symm⟩] at hzero
    cases hzero
  rw [along, along]
  simp only [zero_lt_iff hnan, zero_lt_iff ((isNaN_neg a).trans hnan), rank_neg]
  by_cases hpos : 0 < a.rank
  · rw [if_pos hpos, if_neg (by omega)]
    cases d <;> rfl
  · rw [if_neg hpos, if_pos (by omega)]

end Direction

namespace Interval

open Binary64 Direction

variable {x y z : Interval} {a : Binary64}

/-! ## Set operations -/

section Sets

theorem beq_iff_forall_mem : (x == y) = true ↔ ∀ t : ℝ, t ∈ x ↔ t ∈ y := by
  rw [beq_iff_subset, subset_iff_forall_mem, subset_iff_forall_mem]
  exact ⟨fun h t => ⟨h.1 t, h.2 t⟩, fun h => ⟨fun t => (h t).1, fun t => (h t).2⟩⟩

/-- Intervals that lie in the same intervals are equal. -/
theorem beq_of_subset_iff (h : ∀ z : Interval, x ⊆ z ↔ y ⊆ z) : (x == y) = true :=
  beq_iff_subset.2 ⟨(h y).2 (subset_refl y), (h x).1 (subset_refl x)⟩

theorem beq_self (x : Interval) : (x == x) = true :=
  beq_iff_forall_mem.2 fun _ => Iff.rfl

theorem beq_symm (h : (x == y) = true) : (y == x) = true :=
  beq_iff_subset.2 (beq_iff_subset.1 h).symm

theorem neg_neg_beq (x : Interval) : (- -x == x) = true := by
  rw [beq_iff_forall_mem]
  intro t
  rw [mem_neg_iff, mem_neg_iff, neg_neg]

theorem neg_inter_beq (x y : Interval) : (-(x.inter y) == (-x).inter (-y)) = true := by
  rw [beq_iff_forall_mem]
  intro t
  rw [mem_neg_iff, mem_inter_iff, mem_inter_iff, mem_neg_iff, mem_neg_iff]

theorem neg_subset_iff : -x ⊆ z ↔ x ⊆ -z := by
  rw [subset_iff_forall_mem, subset_iff_forall_mem]
  constructor
  · intro h t ht
    rw [mem_neg_iff]
    exact h (-t) (mem_neg ht)
  · intro h t ht
    rw [mem_neg_iff] at ht
    have hz := mem_neg_iff.1 (h (-t) ht)
    rwa [neg_neg] at hz

theorem neg_hull_beq (x y : Interval) : (-(x.hull y) == (-x).hull (-y)) = true := by
  apply beq_of_subset_iff
  intro z
  rw [neg_subset_iff, hull_subset_iff, hull_subset_iff, neg_subset_iff, neg_subset_iff]

/-- The two branches of the root change places. -/
theorem sqrBackward_neg_beq (y x : Interval) :
    (sqrBackward y (-x) == -(sqrBackward y x)) = true := by
  apply beq_of_subset_iff
  intro z
  have hbranch : ∀ r : Interval, (-x).inter r ⊆ z ↔ x.inter (-r) ⊆ -z := by
    intro r
    rw [← neg_subset_iff, subset_iff_forall_mem, subset_iff_forall_mem]
    simp only [mem_neg_iff, mem_inter_iff, neg_neg]
  have hback : x.inter (- -y.sqrt) ⊆ -z ↔ x.inter y.sqrt ⊆ -z := by
    rw [subset_iff_forall_mem, subset_iff_forall_mem]
    simp only [mem_inter_iff, mem_neg_iff, neg_neg]
  rw [sqrBackward, sqrBackward, hull_subset_iff, neg_subset_iff, hull_subset_iff, hbranch,
    hbranch, hback, and_comm]

end Sets

/-! ## Arithmetic -/

section Arithmetic

variable {lb ub lb' ub' : Binary64}

/-- Bounds that differ in the signs of zeros give equal intervals. -/
theorem ofBounds_beq (hl : Reflects false lb lb') (hu : Reflects false ub ub') :
    (ofBounds lb ub == ofBounds lb' ub') = true := by
  have hiff : AdmissibleBounds lb' ub' ↔ AdmissibleBounds lb ub :=
    and_congr (hl.le_iff hu)
      (and_congr (hl.lt_iff (reflects_self posInf)) ((reflects_self negInf).lt_iff hu))
  by_cases h : AdmissibleBounds lb ub
  · rw [ofBounds, ofBounds, dif_pos h, dif_pos (hiff.2 h), beq_iff_rank]
    exact ⟨(hl.rank_eq h.1.1).symm, (hu.rank_eq h.1.2.1).symm⟩
  · rw [ofBounds, ofBounds, dif_neg h, dif_neg (mt hiff.1 h)]
    exact beq_self empty

theorem admissible_neg_iff : AdmissibleBounds (-ub) (-lb) ↔ AdmissibleBounds lb ub := by
  have hlimits := And.intro rank_negInf rank_posInf
  simp only [AdmissibleBounds, Binary64.le_iff, Binary64.lt_iff, isNaN_neg, rank_neg]
  constructor
  · rintro ⟨⟨hu, hl, hle⟩, ⟨-, hp, hlow⟩, hn, -, hhigh⟩
    exact ⟨⟨hl, hu, by omega⟩, ⟨hl, hp, by omega⟩, hn, hu, by omega⟩
  · rintro ⟨⟨hl, hu, hle⟩, ⟨-, hp, hlow⟩, hn, -, hhigh⟩
    exact ⟨⟨hu, hl, by omega⟩, ⟨hu, hp, by omega⟩, hn, hl, by omega⟩

/-- The reflection of an interval has the reflected bounds, whether or not they are admissible. -/
theorem neg_ofBounds (lb ub : Binary64) : -ofBounds lb ub = ofBounds (-ub) (-lb) := by
  show neg (ofBounds lb ub) = _
  rw [neg]
  split
  case isTrue h =>
    rw [isEmpty_ofBounds_iff, ← admissible_neg_iff] at h
    rw [ofBounds, dif_neg h]
  case isFalse h =>
    rw [Bool.not_eq_true] at h
    rw [(bounds_ofBounds h).1, (bounds_ofBounds h).2]

theorem neg_ofBounds_beq (hl : Reflects true ub lb') (hu : Reflects true lb ub') :
    (-ofBounds lb ub == ofBounds lb' ub') = true := by
  rw [neg_ofBounds]
  exact ofBounds_beq hl.neg_left hu.neg_left

/-- The bounds of a reflection. -/
theorem reflects_endpoint (hx : x.isEmpty = false) (d : Direction) :
    Reflects true (x.endpoint d) ((-x).endpoint d.opposite) := by
  rw [neg_of_not_isEmpty hx]
  cases d with
  | down => exact reflects_neg x.lb
  | up => exact reflects_neg x.ub

theorem neg_add_beq (x y : Interval) : (-(x + y) == -x + -y) = true := by
  show (-(add x y) == add (-x) (-y)) = true
  rw [add, add, isEmpty_neg, isEmpty_neg]
  split
  case isTrue => exact beq_iff_rank.2 (by decide)
  case isFalse h =>
    rw [Bool.not_eq_true, Bool.or_eq_false_iff] at h
    obtain ⟨hx, hy⟩ := h
    exact neg_ofBounds_beq ((reflects_endpoint hx up).directedAdd (reflects_endpoint hy up))
      ((reflects_endpoint hx down).directedAdd (reflects_endpoint hy down))

theorem reflects_closest (hx : x.isEmpty = false) : Reflects true x.closest (-x).closest := by
  have hle := x.lb_le_ub.2.2
  refine reflects_of_rank ?_
  rw [rank_closest, rank_closest, neg_of_not_isEmpty hx, rank_neg, rank_neg, turned_true]
  omega

theorem exists_reflects_farthest (hx : x.isEmpty = false) :
    ∃ flip, Reflects flip x.farthest (-x).farthest := by
  apply exists_reflects_of_natAbs
  rw [natAbs_rank_farthest, natAbs_rank_farthest, neg_of_not_isEmpty hx, rank_neg, rank_neg,
    Int.natAbs_neg, Int.natAbs_neg, max_comm]

theorem sqr_neg_beq (x : Interval) : ((-x).sqr == x.sqr) = true := by
  cases hx : x.isEmpty with
  | true =>
    rw [sqr, sqr, isEmpty_neg, hx]
    exact beq_self empty
  | false =>
    obtain ⟨flip, hfarthest⟩ := exists_reflects_farthest hx
    rw [sqr_of_not_isEmpty hx, sqr_of_not_isEmpty ((isEmpty_neg x).trans hx)]
    exact beq_symm (ofBounds_beq (reflects_closest hx).directedSquare hfarthest.directedSquare)

/-- A scaled interval is reflected if one of the operands is. -/
theorem neg_scale_beq {x' : Interval} {a' : Binary64} {f : Bool} (ha : Reflects f a a')
    (hempty : x'.isEmpty = x.isEmpty)
    (hend : x.isEmpty = false → a.isFinite = true → (a == Binary64.zero) = false →
      ∀ d : Direction, Reflects (!f) (x.endpoint (d.along a)) (x'.endpoint (d.opposite.along a'))) :
    (-(x.scale a) == x'.scale a') = true := by
  have hzero := ha.beq_zero_eq
  cases hundefined : x.isEmpty || !a.isFinite with
  | true =>
    rw [scale, scale, hempty, ha.isFinite_eq, hundefined, if_pos rfl, if_pos rfl]
    exact beq_iff_rank.2 (by decide)
  | false =>
    rw [Bool.or_eq_false_iff, Bool.not_eq_false'] at hundefined
    obtain ⟨hx, hfinite⟩ := hundefined
    cases hza : a == Binary64.zero with
    | true =>
      rw [scale, scale, hempty, hx, ha.isFinite_eq, hfinite, hzero, hza]
      show (-zero == zero) = true
      exact beq_iff_rank.2 (by decide)
    | false =>
      rw [scale_of_ne_zero hx hfinite hza, scale_of_ne_zero (hempty.trans hx)
        (ha.isFinite_eq.trans hfinite) (hzero.trans hza)]
      have hup := ha.directedMul (d := up) (hend hx hfinite hza up)
      have hdown := ha.directedMul (d := down) (hend hx hfinite hza down)
      rw [Bool.xor_not_self] at hup hdown
      exact neg_ofBounds_beq hup hdown

theorem neg_scale_beq_scale_neg (x : Interval) (a : Binary64) :
    (-(x.scale a) == x.scale (-a)) = true := by
  refine neg_scale_beq (reflects_neg a) rfl fun _ ha hzero d => ?_
  rw [along_opposite_neg ha hzero]
  exact reflects_self _

theorem neg_scale_beq_neg_scale (x : Interval) (a : Binary64) :
    (-(x.scale a) == (-x).scale a) = true := by
  refine neg_scale_beq (reflects_self a) (isEmpty_neg x) fun hx _ _ d => ?_
  rw [along_opposite]
  exact reflects_endpoint hx (d.along a)

end Arithmetic

/-! ## Measures -/

section Measures

variable {ε β : Type} {R : β → β → Prop}

/-- Both attempts succeed, with related results, or both fail. -/
structure SucceedAlike (R : β → β → Prop) (first second : Except ε β) : Prop where
  ok_iff : (∃ v, first = .ok v) ↔ ∃ v, second = .ok v
  related : ∀ v w, first = .ok v → second = .ok w → R v w

theorem succeedAlike_ok {v w : β} (h : R v w) :
    SucceedAlike R (Except.ok v : Except ε β) (.ok w) := by
  refine ⟨⟨fun _ => ⟨w, rfl⟩, fun _ => ⟨v, rfl⟩⟩, ?_⟩
  intro v' w' hv hw
  cases hv
  cases hw
  exact h

theorem succeedAlike_error (e e' : ε) : SucceedAlike R (.error e) (.error e') := by
  constructor
  · simp
  · intro v w hv
    cases hv

theorem isBounded_neg (x : Interval) : (-x).isBounded = x.isBounded := by
  rw [isBounded, isBounded, isEmpty_neg]
  cases hx : x.isEmpty with
  | true => rfl
  | false =>
    rw [neg_of_not_isEmpty hx, isFinite_neg, isFinite_neg, Bool.and_right_comm]

theorem width_neg (x : Interval) : (-x).width = x.width := by
  cases hx : x.isEmpty with
  | true =>
    have hself : -x = x := by
      show neg x = x
      rw [neg, if_pos hx, eq_empty_iff.2 hx]
    rw [hself]
  | false =>
    rw [width, width, neg_of_not_isEmpty hx, toReal_neg, toReal_neg]
    ring

/-- The diameter is determined by the width, which is the same. -/
theorem diam_succeedAlike (x : Interval) :
    SucceedAlike (fun v w => (w == v) = true) x.diam (-x).diam := by
  constructor
  · constructor
    · rintro ⟨v, hv⟩
      exact ⟨_, diam_of_isBounded ((isBounded_neg x).trans (diam_eq_ok hv).1)⟩
    · rintro ⟨w, hw⟩
      exact ⟨_, diam_of_isBounded ((isBounded_neg x).symm.trans (diam_eq_ok hw).1)⟩
  · intro v w hv hw
    -- The subtraction exchanges its operands, but both results are least above one width.
    have hleast := isLeast_diam hw
    rw [width_neg] at hleast
    have hvw := (isLeast_diam hv).2 hleast.1
    have hwv := hleast.2 (isLeast_diam hv).1
    exact Binary64.beq_iff.2 ⟨hwv.1, hvw.1, le_antisymm hwv.2.2 hvw.2.2⟩

theorem midpoint_neg_beq {lb ub : Binary64} (hlb : lb.isFinite = true)
    (hub : ub.isFinite = true) :
    (midpoint (-ub) (-lb) == -midpoint lb ub) = true := by
  have hmid := rank_midpoint hlb hub
  have hneg := rank_midpoint ((isFinite_neg ub).trans hub) ((isFinite_neg lb).trans hlb)
  have hnan := not_nan_of_nearest Nat.two_pos hmid
  refine Binary64.beq_iff.2
    ⟨not_nan_of_nearest Nat.two_pos hneg, (isNaN_neg _).trans hnan, ?_⟩
  rw [hneg, rank_neg, hmid, units_neg, units_neg, ← Int.neg_add, Int.add_comm ub.units,
    nearestRank_neg]

/-- The midpoint of a reflection, by the bounds of the interval. -/
theorem mid_neg (hx : x.isEmpty = false) : (-x).mid =
    match x.lb == negInf, x.ub == posInf with
    | true, true => .ok Binary64.zero
    | true, false =>
      if x.ub == -maxFinite then .error (.undefinedMidpoint (-x.ub) (-x.lb)) else .ok maxFinite
    | false, true =>
      if x.lb == maxFinite then .error (.undefinedMidpoint (-x.ub) (-x.lb))
      else .ok (-maxFinite)
    | false, false => .ok (midpoint (-x.ub) (-x.lb)) := by
  have hlow : (-x.ub == negInf) = (x.ub == posInf) :=
    (reflects_neg x.ub).beq_eq (reflects_of_rank (by decide))
  have hhigh : (-x.lb == posInf) = (x.lb == negInf) :=
    (reflects_neg x.lb).beq_eq (reflects_of_rank (by decide))
  have hleast : (-x.lb == -maxFinite) = (x.lb == maxFinite) :=
    (reflects_neg x.lb).beq_eq (reflects_neg maxFinite)
  have hgreatest : (-x.ub == maxFinite) = (x.ub == -maxFinite) :=
    (reflects_neg x.ub).beq_eq (reflects_self maxFinite).neg_left
  rw [mid, isEmpty_neg, hx, if_neg Bool.false_ne_true, neg_of_not_isEmpty hx]
  simp only [hlow, hhigh, hleast, hgreatest]
  cases x.lb == negInf <;> cases x.ub == posInf <;> rfl

theorem mid_succeedAlike (x : Interval) :
    SucceedAlike (fun v w => (w == -v) = true) x.mid (-x).mid := by
  cases hx : x.isEmpty with
  | true =>
    rw [mid, mid, isEmpty_neg, hx]
    exact succeedAlike_error _ _
  | false =>
    rw [mid_neg hx, mid, hx, if_neg Bool.false_ne_true]
    obtain ⟨hlb, hub⟩ := x.bounds_not_nan
    obtain ⟨-, hlow, hhigh⟩ := admissible_of_not_isEmpty hx
    cases hl : x.lb == negInf with
    | true =>
      cases hu : x.ub == posInf with
      | true => exact succeedAlike_ok (by decide)
      | false =>
        -- A half-line next to its infinity has no midpoint, and neither has its reflection.
        cases x.ub == -maxFinite with
        | true => exact succeedAlike_error _ _
        | false => exact succeedAlike_ok (by decide)
    | false =>
      cases hu : x.ub == posInf with
      | true =>
        cases x.lb == maxFinite with
        | true => exact succeedAlike_error _ _
        | false => exact succeedAlike_ok (by decide)
      | false =>
        have hlower : x.lb.rank ≠ negInf.rank := fun heq =>
          Bool.eq_false_iff.1 hl (Binary64.beq_iff.2 ⟨hlb, by decide, heq⟩)
        have hupper : x.ub.rank ≠ posInf.rank := fun heq =>
          Bool.eq_false_iff.1 hu (Binary64.beq_iff.2 ⟨hub, by decide, heq⟩)
        have hfl := isFinite_of_rank_ne hlb hlower hlow.2.2.ne
        have hfu := isFinite_of_rank_ne hub hhigh.2.2.ne' hupper
        exact succeedAlike_ok (midpoint_neg_beq hfl hfu)

end Measures

/-- The operators are symmetric under reflection. A reflected operand gives the reflected result,
equal in the sense of `==`, in which zeros of either sign are equal; where a measure fails, it
fails for the reflection too. -/
theorem operators_commute_with_reflection (x y : Interval) (a : Binary64) :
    (- -x == x) = true ∧ (x - y == x + -y) = true ∧ (-(x + y) == -x + -y) = true ∧
      ((x.scale (-a) == -(x.scale a)) = true ∧ (-(x.scale a) == (-x).scale a) = true) ∧
      ((-x).sqr == x.sqr) = true ∧
      (-(x.inter y) == (-x).inter (-y)) = true ∧ (-(x.hull y) == (-x).hull (-y)) = true ∧
      SucceedAlike (fun v w => (w == v) = true) x.diam (-x).diam ∧
      SucceedAlike (fun v w => (w == -v) = true) x.mid (-x).mid ∧
      (sqrBackward y (-x) == -(sqrBackward y x)) = true := by
  have hsub : (x - y == x + -y) = true := by
    rw [sub_eq_add_neg]
    exact beq_self _
  exact ⟨neg_neg_beq x, hsub, neg_add_beq x y,
    ⟨beq_symm (neg_scale_beq_scale_neg x a), neg_scale_beq_neg_scale x a⟩, sqr_neg_beq x,
    neg_inter_beq x y, neg_hull_beq x y, diam_succeedAlike x, mid_succeedAlike x,
    sqrBackward_neg_beq y x⟩

end Interval

end Paving
