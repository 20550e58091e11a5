import Mathlib.Data.Set.Card
import Paving.Proofs.Box.Components

/-!
# Where bisection succeeds

An interval can be bisected if and only if a number lies strictly between its bounds
(`exists_bisect_iff`). In ranks, the bounds are at least two steps apart. A midpoint never
leaves its interval (`rank_mid`): between finite bounds it is the number nearest to the exact
midpoint, an interval without bounds has zero, and a half-line has the finite number farthest
out. Given room it is not one of the bounds either.

`Halved` collects what the halves are then. They share the midpoint and nothing else, make up
the whole interval, and each of them lacks one of its bounds, so it has fewer numbers. A box is
bisected on an axis by bisecting the component there, and no other component is touched
(`components_bisectAxis`).
-/

set_option autoImplicit false

namespace Paving

namespace Binary64

instance : Finite Binary64 := by
  refine Finite.of_injective
    (fun x : Binary64 => (⟨x.bits.toNat, x.bits.toNat_lt⟩ : Fin (2 ^ 64))) ?_
  intro a b h
  have hbits : a.bits = b.bits := UInt64.toNat_inj.1 (Fin.mk.inj h)
  cases a
  cases b
  exact congrArg Binary64.mk hbits

theorem value_ne_of_lt {a b : Binary64} (h : a < b) : a.value ≠ b.value :=
  ((value_lt_value_iff h.1 h.2.1).2 h.2.2).ne

end Binary64

namespace Interval

open Binary64

/-! ## Midpoints -/

section Midpoints

variable {x : Interval} {m : Binary64}

/-- The midpoint of equal bounds is that number. -/
theorem rank_midpoint_self {lb ub : Binary64} (hlb : lb.isFinite = true) (hub : ub.isFinite = true)
    (h : lb.rank = ub.rank) : (midpoint lb ub).rank = lb.rank := by
  have hunits : lb.units + ub.units = (2 : Nat) * lb.units := by
    rw [units_eq_unitsOfRank ub, ← h, ← units_eq_unitsOfRank]
    omega
  have hscaled := nearestRank_mul_left Nat.two_pos lb.units 1
  rw [rank_midpoint hlb hub, hunits, ← nearestRank_units hlb]
  exact hscaled

/-- A non-empty interval is bounded, the whole line, or a half-line, and its kind decides about
the midpoint. -/
theorem mid_cases (hx : x.isEmpty = false) :
    (x.lb.isFinite = true ∧ x.ub.isFinite = true ∧ x.mid = .ok (midpoint x.lb x.ub)) ∨
      (x.lb.rank = negInf.rank ∧ x.ub.rank = posInf.rank ∧ x.mid = .ok Binary64.zero) ∨
      (x.lb.rank = negInf.rank ∧ x.ub.isFinite = true ∧
        x.mid = if x.ub == -maxFinite then .error (.undefinedMidpoint x.lb x.ub)
          else .ok (-maxFinite)) ∨
      (x.lb.isFinite = true ∧ x.ub.rank = posInf.rank ∧
        x.mid = if x.lb == maxFinite then .error (.undefinedMidpoint x.lb x.ub)
          else .ok maxFinite) := by
  obtain ⟨hle, hlow, hhigh⟩ := admissible_of_not_isEmpty hx
  have hlb : (x.lb == negInf) = true ↔ x.lb.rank = negInf.rank :=
    Binary64.beq_iff.trans ⟨fun h => h.2.2, fun h => ⟨hle.1, by decide, h⟩⟩
  have hub : (x.ub == posInf) = true ↔ x.ub.rank = posInf.rank :=
    Binary64.beq_iff.trans ⟨fun h => h.2.2, fun h => ⟨hle.2.1, by decide, h⟩⟩
  have hfinite : x.lb.rank ≠ negInf.rank → x.lb.isFinite = true := fun h =>
    isFinite_of_rank_ne hle.1 h hlow.2.2.ne
  have hfinite' : x.ub.rank ≠ posInf.rank → x.ub.isFinite = true :=
    isFinite_of_rank_ne hle.2.1 hhigh.2.2.ne'
  rw [mid, hx, if_neg Bool.false_ne_true]
  cases hl : x.lb == negInf with
  | true =>
    cases hu : x.ub == posInf with
    | true => exact .inr (.inl ⟨hlb.1 hl, hub.1 hu, rfl⟩)
    | false =>
      refine .inr (.inr (.inl ⟨hlb.1 hl, hfinite' fun h => ?_, rfl⟩))
      rw [hub.2 h] at hu
      cases hu
  | false =>
    have hfl := hfinite fun h => Bool.false_ne_true (hl.symm.trans (hlb.2 h))
    cases hu : x.ub == posInf with
    | true => exact .inr (.inr (.inr ⟨hfl, hub.1 hu, rfl⟩))
    | false =>
      exact .inl ⟨hfl, hfinite' fun h => Bool.false_ne_true (hu.symm.trans (hub.2 h)), rfl⟩

theorem not_isEmpty_of_mid (h : x.mid = .ok m) : x.isEmpty = false := by
  cases hx : x.isEmpty with
  | false => rfl
  | true =>
    rw [mid, if_pos hx] at h
    cases h

/-- A midpoint is a finite number between the bounds, and strictly between them if any number
is. -/
theorem rank_mid (h : x.mid = .ok m) :
    m.isFinite = true ∧ x.lb.rank ≤ m.rank ∧ m.rank ≤ x.ub.rank ∧
      (x.lb.rank + 1 < x.ub.rank → x.lb.rank < m.rank ∧ m.rank < x.ub.rank) := by
  have hlimits := And.intro rank_negInf rank_posInf
  have hmax : maxFinite.rank = (infinityIndex : Int) - 1 := by decide
  have hmin : (-maxFinite).rank = -((infinityIndex : Int) - 1) := by decide
  have hzero := rank_zero
  have hinf : (1 : Int) < infinityIndex := by decide
  have hx := not_isEmpty_of_mid h
  obtain ⟨hle, hlow, hhigh⟩ := admissible_of_not_isEmpty hx
  have hle' := hle.2.2
  rcases mid_cases hx with ⟨hlb, hub, hm⟩ | ⟨hlb, hub, hm⟩ | ⟨hlb, hub, hm⟩ | ⟨hlb, hub, hm⟩
  · cases hm.symm.trans h
    refine ⟨isFinite_midpoint hlb hub, ?_⟩
    rcases hle'.lt_or_eq with hlt | heq
    · obtain ⟨hge, hle⟩ := rank_midpoint_between hlb hub hlt
      exact ⟨hge, hle, rank_midpoint_strict hlb hub⟩
    · rw [rank_midpoint_self hlb hub heq]
      omega
  · cases hm.symm.trans h
    refine ⟨by decide, ?_⟩
    omega
  · -- The upper bound is finite and not the least finite number, so it lies above it.
    have hrank := isFinite_iff_rank.1 hub
    rw [hm] at h
    split at h
    case isTrue => cases h
    case isFalse hne =>
      cases h
      have hne' : x.ub.rank ≠ (-maxFinite).rank := fun heq =>
        hne (Binary64.beq_iff.2 ⟨hle.2.1, by decide, heq⟩)
      refine ⟨by decide, ?_⟩
      omega
  · have hrank := isFinite_iff_rank.1 hlb
    rw [hm] at h
    split at h
    case isTrue => cases h
    case isFalse hne =>
      cases h
      have hne' : x.lb.rank ≠ maxFinite.rank := fun heq =>
        hne (Binary64.beq_iff.2 ⟨hle.1, by decide, heq⟩)
      refine ⟨by decide, ?_⟩
      omega

theorem contains_mid (h : x.mid = .ok m) : x.contains m = true := by
  obtain ⟨hfinite, hlow, hhigh, -⟩ := rank_mid h
  obtain ⟨hlb, hub⟩ := x.bounds_not_nan
  have hnan := not_nan_of_finite hfinite
  have hbelow : x.lb ≤ m := ⟨hlb, hnan, hlow⟩
  have habove : m ≤ x.ub := ⟨hnan, hub, hhigh⟩
  simp [contains, not_isEmpty_of_mid h, hbelow, habove]

/-- An interval with a number strictly between its bounds has a midpoint. -/
theorem exists_mid (hroom : x.lb.rank + 1 < x.ub.rank) : ∃ m, x.mid = .ok m := by
  have hlimits := And.intro rank_negInf rank_posInf
  have hmax : maxFinite.rank = (infinityIndex : Int) - 1 := by decide
  have hmin : (-maxFinite).rank = -((infinityIndex : Int) - 1) := by decide
  have hx : x.isEmpty = false := by
    rw [← Bool.not_eq_true, isEmpty_iff]
    omega
  rcases mid_cases hx with ⟨-, -, hm⟩ | ⟨-, -, hm⟩ | ⟨hlb, -, hm⟩ | ⟨-, hub, hm⟩
  · exact ⟨_, hm⟩
  · exact ⟨_, hm⟩
  · -- The midpoint of a half-line is undefined only next to its infinite bound.
    have hne : ¬ (x.ub == -maxFinite) = true := by
      rw [Binary64.beq_iff]
      omega
    exact ⟨_, hm.trans (if_neg hne)⟩
  · have hne : ¬ (x.lb == maxFinite) = true := by
      rw [Binary64.beq_iff]
      omega
    exact ⟨_, hm.trans (if_neg hne)⟩

end Midpoints

/-! ## Halves -/

section Halves

variable {x lower upper : Interval} {m : Binary64}

/-- Some number lies strictly between the bounds. -/
def HasRoom (x : Interval) : Prop :=
  ∃ v : Binary64, x.lb < v ∧ v < x.ub

theorem hasRoom_iff_rank : x.HasRoom ↔ x.lb.rank + 1 < x.ub.rank := by
  obtain ⟨hlb, hub⟩ := x.bounds_not_nan
  constructor
  · rintro ⟨v, hlow, hhigh⟩
    have hlow' := hlow.2.2
    have hhigh' := hhigh.2.2
    omega
  · intro h
    have hrange := (rank_bounds hub).2
    obtain ⟨hnext, hrank⟩ := rank_nextUp hlb (by omega)
    exact ⟨x.lb.nextUp, ⟨hlb, hnext, by omega⟩, hnext, hub, by omega⟩

theorem bisect_eq_ok_iff :
    x.bisect = .ok (lower, upper) ↔ ∃ m, x.mid = .ok m ∧ x.bisectAt m = .ok (lower, upper) := by
  constructor
  · exact bind_eq_ok
  · rintro ⟨m, hm, hparts⟩
    rw [bisect, hm]
    exact hparts

/-- A number strictly inside splits the interval. -/
theorem bisectAt_of_inside (hx : x.isEmpty = false) (h : x.lb < m ∧ m < x.ub) :
    x.bisectAt m = .ok (⟨x.lb, m, .inr (admissible_lower h)⟩,
      ⟨m, x.ub, .inr (admissible_upper h)⟩) := by
  have hlow := h.1.2.2
  have hhigh := h.2.2.2
  have hwide : ¬ (x.lb == x.ub) = true := by
    rw [Binary64.beq_iff]
    omega
  rw [bisectAt, hx, if_neg Bool.false_ne_true, if_neg hwide, dif_pos h]

theorem exists_bisect_iff (x : Interval) :
    (∃ halves, x.bisect = .ok halves) ↔ x.isEmpty = false ∧ x.HasRoom := by
  constructor
  · rintro ⟨⟨lower, upper⟩, h⟩
    obtain ⟨m, -, hparts⟩ := bisect_eq_ok_iff.1 h
    obtain ⟨hx, hinside, -⟩ := bisectAt_eq_ok hparts
    exact ⟨hx, m, hinside⟩
  · rintro ⟨hx, hroom⟩
    obtain ⟨hlb, hub⟩ := x.bounds_not_nan
    rw [hasRoom_iff_rank] at hroom
    obtain ⟨m, hm⟩ := exists_mid hroom
    obtain ⟨hfinite, -, -, hstrict⟩ := rank_mid hm
    obtain ⟨hlow, hhigh⟩ := hstrict hroom
    have hnan := not_nan_of_finite hfinite
    have hinside : x.lb < m ∧ m < x.ub := ⟨⟨hlb, hnan, hlow⟩, hnan, hub, hhigh⟩
    exact ⟨_, bisect_eq_ok_iff.2 ⟨m, hm, bisectAt_of_inside hx hinside⟩⟩

/-- The numbers that an interval contains. -/
def numbers (x : Interval) : Set Binary64 :=
  {v | x.contains v = true}

theorem mem_numbers_iff {v : Binary64} (hx : x.isEmpty = false) :
    v ∈ x.numbers ↔ x.lb ≤ v ∧ v ≤ x.ub := by
  simp [numbers, contains, hx]

/-- What bisecting an interval at its midpoint gives. -/
structure Halved (x : Interval) (m : Binary64) (lower upper : Interval) : Prop where
  mid_eq : x.mid = .ok m
  finite : m.isFinite = true
  inside : x.lb < m ∧ m < x.ub
  lower_bounds : lower.lb = x.lb ∧ lower.ub = m
  upper_bounds : upper.lb = m ∧ upper.ub = x.ub
  hull_eq : lower.hull upper = x
  inter_eq : Interval.point m = .ok (lower.inter upper)
  points : ∀ t : ℝ, t ∈ x ↔ t ∈ lower ∨ t ∈ upper
  fewer : ∀ half ∈ [lower, upper], half.numbers.ncard < x.numbers.ncard ∧
    (value '' half.numbers).ncard < (value '' x.numbers).ncard

/-- A part that lacks a number of the whole has fewer numbers, also if equal ones are counted
once. -/
theorem ncard_numbers_lt {half : Interval} {v : Binary64} (hsub : half.numbers ⊆ x.numbers)
    (hv : v ∈ x.numbers) (hlacks : ∀ w ∈ half.numbers, w.value ≠ v.value) :
    half.numbers.ncard < x.numbers.ncard ∧
      (value '' half.numbers).ncard < (value '' x.numbers).ncard := by
  constructor
  · refine Set.ncard_lt_ncard ⟨hsub, fun hsup => ?_⟩ (Set.toFinite _)
    exact hlacks v (hsup hv) rfl
  · refine Set.ncard_lt_ncard ⟨Set.image_mono hsub, fun hsup => ?_⟩ (Set.toFinite _)
    obtain ⟨w, hw, heq⟩ := hsup (Set.mem_image_of_mem value hv)
    exact hlacks w hw heq

theorem ofBounds_bounds (hx : x.isEmpty = false) : ofBounds x.lb x.ub = x := by
  rw [ofBounds, dif_pos (admissible_of_not_isEmpty hx)]

theorem halved_of_bisect (h : x.bisect = .ok (lower, upper)) : ∃ m, x.Halved m lower upper := by
  obtain ⟨m, hm, hparts⟩ := bisect_eq_ok_iff.1 h
  obtain ⟨hx, hinside, hlower, hupper⟩ := bisectAt_eq_ok hparts
  obtain ⟨hne, hne'⟩ := bisectAt_not_isEmpty hparts
  obtain ⟨hsub, hsub'⟩ := bisectAt_subset hparts
  have hfinite := (rank_mid hm).1
  have hnan := not_nan_of_finite hfinite
  have hle := Binary64.le_of_lt hinside.1
  have hle' := Binary64.le_of_lt hinside.2
  have hbelow : ¬ m < x.lb := fun hlt => Binary64.lt_irrefl m (Binary64.lt_of_lt_of_le hlt hle)
  have habove : ¬ x.ub < m := fun hlt => Binary64.lt_irrefl m (Binary64.lt_of_le_of_lt hle' hlt)
  refine ⟨m, ⟨hm, hfinite, hinside, hlower, hupper, ?_, ?_, ?_, ?_⟩⟩
  · rw [hull, hne, hne', hlower.1, hlower.2, hupper.1, hupper.2, smaller, larger, if_neg hbelow,
      if_pos hinside.2]
    exact ofBounds_bounds hx
  · rw [inter, hne, hne', hlower.1, hlower.2, hupper.1, hupper.2, smaller, larger, if_neg habove,
      if_pos hinside.1]
    exact (point_of_isFinite hfinite).1
  · intro t
    exact ⟨mem_halves_of_bisectAt hparts,
      fun ht => ht.elim (mem_of_subset hsub) (mem_of_subset hsub')⟩
  · -- The lower half lacks the upper bound, and the upper half the lower one.
    rw [List.forall_mem_cons, List.forall_mem_singleton]
    obtain ⟨hlb, hub⟩ := x.bounds_not_nan
    have hends := x.lb_le_ub
    constructor
    · refine ncard_numbers_lt ?_ ((mem_numbers_iff hx).2 ⟨hends, hub, hub, Int.le_refl _⟩) ?_
      · intro w hw
        rw [mem_numbers_iff hne, hlower.1, hlower.2] at hw
        exact (mem_numbers_iff hx).2 ⟨hw.1, Binary64.le_trans hw.2 hle'⟩
      · intro w hw
        rw [mem_numbers_iff hne, hlower.2] at hw
        exact value_ne_of_lt (Binary64.lt_of_le_of_lt hw.2 hinside.2)
    · refine ncard_numbers_lt ?_ ((mem_numbers_iff hx).2 ⟨⟨hlb, hlb, Int.le_refl _⟩, hends⟩) ?_
      · intro w hw
        rw [mem_numbers_iff hne', hupper.1, hupper.2] at hw
        exact (mem_numbers_iff hx).2 ⟨Binary64.le_trans hle hw.1, hw.2⟩
      · intro w hw
        rw [mem_numbers_iff hne', hupper.1] at hw
        exact (value_ne_of_lt (Binary64.lt_of_lt_of_le hinside.1 hw.1)).symm

end Halves

end Interval

namespace Box

/-! ## Halves of a box -/

section Axis

variable {b lower upper : Box} {axis : Nat} {x : Interval}

theorem exists_bisectAxis_iff (hx : b.components[axis]? = some x) :
    (∃ halves, b.bisectAxis axis = .ok halves) ↔ x.isEmpty = false ∧ x.HasRoom := by
  rw [bisectAxis_eq_map hx, ← Interval.exists_bisect_iff]
  cases x.bisect with
  | error e => simp [BoxError.lift, Except.map]
  | ok halves => simp [BoxError.lift, Except.map]

/-- The halves of a box have the halves of one component in its place. -/
theorem components_bisectAxis (hx : b.components[axis]? = some x)
    (h : b.bisectAxis axis = .ok (lower, upper)) :
    ∃ xl xu, x.bisect = .ok (xl, xu) ∧ lower.components = b.components.set axis xl ∧
      upper.components = b.components.set axis xu := by
  obtain ⟨y, hy, h⟩ := bind_eq_ok h
  obtain ⟨point, hpoint, h⟩ := bind_eq_ok h
  obtain ⟨z, xl, xu, hz, hparts, hlower, hupper⟩ := components_bisectAt h
  have hyx : y = x := Option.some.inj ((get_eq_ok hy).symm.trans hx)
  have hzx : z = x := Option.some.inj (hz.symm.trans hx)
  subst hyx hzx
  exact ⟨xl, xu, Interval.bisect_eq_ok_iff.2 ⟨point, BoxError.lift_eq_ok hpoint, hparts⟩, hlower,
    hupper⟩

end Axis

/-- Bisection succeeds exactly if it can. An interval is bisected if and only if it is not empty
and a number lies strictly between its bounds, and then at a finite midpoint strictly inside.
The halves end and begin there, their hull is the interval and their intersection the midpoint,
they have the points of the interval between them, and each has fewer numbers. A midpoint that
is defined is a finite number of its interval. A box is bisected on an axis under the same
condition on the component there, and then its halves have the halves of that component and
otherwise the components of the box. -/
theorem bisection_succeeds_given_room (x : Interval) :
    ((∃ halves, x.bisect = .ok halves) ↔
        x.isEmpty = false ∧ ∃ v : Binary64, x.lb < v ∧ v < x.ub) ∧
      (∀ lower upper : Interval, x.bisect = .ok (lower, upper) →
        ∃ m, x.Halved m lower upper) ∧
      (∀ m : Binary64, x.mid = .ok m → m.isFinite = true ∧ x.contains m = true) ∧
      ∀ (b : Box) (axis : Nat), b.components[axis]? = some x →
        ((∃ halves, b.bisectAxis axis = .ok halves) ↔
          x.isEmpty = false ∧ ∃ v : Binary64, x.lb < v ∧ v < x.ub) ∧
        ∀ lower upper : Box, b.bisectAxis axis = .ok (lower, upper) →
          ∃ xl xu, x.bisect = .ok (xl, xu) ∧ lower.components = b.components.set axis xl ∧
            upper.components = b.components.set axis xu := by
  refine ⟨x.exists_bisect_iff, fun _ _ => Interval.halved_of_bisect, ?_, ?_⟩
  · intro m hm
    exact ⟨(Interval.rank_mid hm).1, Interval.contains_mid hm⟩
  · intro b axis hx
    exact ⟨exists_bisectAxis_iff hx, fun _ _ => components_bisectAxis hx⟩

end Box

end Paving
