import Mathlib.Data.Set.Finite.List
import Mathlib.Data.Set.Finite.Lattice
import Mathlib.Order.Bounds.Basic
import Paving.Proofs.Box.Components

/-!
# Measuring a box

The four measures of a box are read off one search through the diameters of its components, so
they fail alike: on the empty box, and on a box with an unbounded component, where the first
such component is named (`failsAs_extremeDiam`). Otherwise the search answers with a diameter
that no other one betters and with the first axis that has it (`extremeDiam_of_isBounded`).

A diameter is the least number that is not below the exact width (`isLeast_diam`). Rounding up
keeps the order of widths, so the largest diameter belongs to the largest width and the smallest
one to the smallest width, even where several widths have the same diameter
(`exists_greatest_width`, `exists_least_width`).
-/

set_option autoImplicit false

namespace Paving

open Binary64

theorem Direction.Bounds.of_rank_le {v w : Binary64} {t : ℝ} (h : Direction.up.Bounds v t)
    (hw : w.isNaN = false) (hvw : v.rank ≤ w.rank) : Direction.up.Bounds w t :=
  ⟨hw, h.2.trans ((value_le_value_iff h.1 hw).2 hvw)⟩

namespace Interval

/-! ## The width of an interval -/

/-- The exact distance of the bounds. -/
noncomputable def width (x : Interval) : ℝ :=
  x.ub.toReal - x.lb.toReal

/-- The diameter of the interval is defined and equal to the number. -/
def hasDiam (x : Interval) (w : Binary64) : Bool :=
  match x.diam with
  | .ok d => d == w
  | .error _ => false

theorem hasDiam_iff {x : Interval} {d w : Binary64} (h : x.diam = .ok d) :
    x.hasDiam w = true ↔ d.isNaN = false ∧ w.isNaN = false ∧ d.rank = w.rank := by
  rw [hasDiam, h]
  exact Binary64.beq_iff

/-- A diameter is the least number that is not below the width. -/
theorem isLeast_diam {x : Interval} {w : Binary64} (h : x.diam = .ok w) :
    IsLeast {v : Binary64 | Direction.up.Bounds v x.width} w := by
  refine ⟨width_le_diam h, ?_⟩
  intro v (hv : Direction.up.Bounds v x.width)
  rcases hv.finite_or_limit with hfinite | ⟨-, hlimit⟩
  · exact diam_le_of_width_le h hfinite ((Direction.bounds_iff_side hfinite).1 hv)
  · -- Positive infinity is above every diameter, one that overflowed included.
    have hnan := (width_le_diam h).1
    refine ⟨hnan, hv.not_nan, ?_⟩
    rw [hlimit]
    exact (rank_bounds hnan).2

end Interval

namespace Box

/-! ## How measures fail -/

section Failure

variable {b : Box}

/-- The component with the lowest index that is not bounded. -/
def firstUnbounded (b : Box) : Option Interval :=
  b.components.find? fun x => !x.isBounded

theorem firstUnbounded_eq_none_iff :
    b.firstUnbounded = none ↔ ∀ x ∈ b.components, x.isBounded = true := by
  simp [firstUnbounded]

/-- Non-empty intervals are measured one by one until one is unbounded. -/
theorem mapM_diam {xs : List Interval} (hne : ∀ x ∈ xs, x.isEmpty = false) :
    xs.mapM Interval.diam =
      match xs.find? fun x => !x.isBounded with
      | some x => .error (.unboundedDiameter x.lb x.ub)
      | none => .ok (xs.map fun x => Direction.up.sub x.ub x.lb) := by
  induction xs with
  | nil => rfl
  | cons x xs ih =>
    rw [List.forall_mem_cons] at hne
    rw [List.mapM_cons, ih hne.2, List.find?_cons]
    cases hx : x.isBounded with
    | false => simp [Interval.diam, hne.1, hx, bind, Except.bind]
    | true =>
      rw [Interval.diam_of_isBounded hx]
      cases hrest : xs.find? fun y => !y.isBounded with
      | some y => simp [bind, Except.bind]
      | none => simp [bind, Except.bind, pure, Except.pure]

theorem diameters_eq (b : Box) : b.diameters =
    if b.isEmpty then .error .empty
    else match b.firstUnbounded with
      | some x => .error (.interval (.unboundedDiameter x.lb x.ub))
      | none => .ok (b.components.map fun x => Direction.up.sub x.ub x.lb) := by
  rw [diameters]
  split
  case isTrue => rfl
  case isFalse hb =>
    have hne : ∀ x ∈ b.components, x.isEmpty = false := fun x hx =>
      (isEmpty_of_mem_components hx).trans (Bool.eq_false_iff.2 hb)
    rw [mapM_diam hne, ← firstUnbounded]
    cases b.firstUnbounded with
    | some x => rfl
    | none => rfl

/-- A measure fails on the empty box and on boxes with an unbounded component, and it says which
of the two it is, and which component is the first unbounded one. -/
structure FailsAs {α : Type} (b : Box) (measure : Except BoxError α) : Prop where
  empty_iff : measure = .error .empty ↔ b.isEmpty = true
  unbounded_iff : ∀ lb ub : Binary64,
    measure = .error (.interval (.unboundedDiameter lb ub)) ↔
      b.isEmpty = false ∧ ∃ x, b.firstUnbounded = some x ∧ x.lb = lb ∧ x.ub = ub
  ok_iff : (∃ r, measure = .ok r) ↔
    b.isEmpty = false ∧ ∀ x ∈ b.components, x.isBounded = true

/-- A measure that is read off the best diameter fails as the diameters do. -/
theorem failsAs_extremeDiam {α : Type} (better : Binary64 → Binary64 → Bool)
    (f : Nat × Binary64 → α) (b : Box) : b.FailsAs ((b.extremeDiam better).map f) := by
  have hdiameters := b.diameters_eq
  cases hb : b.isEmpty with
  | true =>
    have hmeasure : (b.extremeDiam better).map f = .error .empty := by
      rw [extremeDiam, hdiameters, hb]
      rfl
    rw [hmeasure]
    constructor <;> simp [hb]
  | false =>
    rw [hb, if_neg Bool.false_ne_true] at hdiameters
    cases hu : b.firstUnbounded with
    | some x =>
      have hsome : ¬ ∀ y ∈ b.components, y.isBounded = true := by
        rw [← firstUnbounded_eq_none_iff, hu]
        exact Option.some_ne_none x
      have hmeasure : (b.extremeDiam better).map f =
          .error (.interval (.unboundedDiameter x.lb x.ub)) := by
        rw [extremeDiam, hdiameters, hu]
        rfl
      rw [hmeasure]
      constructor <;> simp [hb, hu, hsome]
    | none =>
      have hmeasure : ∃ r, (b.extremeDiam better).map f = .ok r := by
        rw [extremeDiam, hdiameters, hu]
        cases hcomponents : b.components with
        | nil => exact absurd hcomponents b.nonempty
        | cons x xs => exact ⟨_, rfl⟩
      obtain ⟨r, hr⟩ := hmeasure
      rw [hr]
      constructor
      · simp [hb]
      · simp [hu]
      · simpa [hb] using firstUnbounded_eq_none_iff.1 hu

end Failure

/-! ## The first of the best diameters -/

section Best

/-- A comparison goes by a key of the ranks. -/
def ComparesBy (key : Int → Int) (better : Binary64 → Binary64 → Bool) : Prop :=
  ∀ a b : Binary64, a.isNaN = false → b.isNaN = false →
    (better a b = true ↔ key b.rank < key a.rank)

variable {key : Int → Int} {better : Binary64 → Binary64 → Bool}

theorem ComparesBy.eq_false_iff (h : ComparesBy key better) {a b : Binary64}
    (ha : a.isNaN = false) (hb : b.isNaN = false) :
    better a b = false ↔ key a.rank ≤ key b.rank := by
  rw [← Bool.not_eq_true, h a b ha hb, Int.not_lt]

/-- No entry is better than the one that is found. -/
theorem ComparesBy.not_better_bestFrom (h : ComparesBy key better) (best : Nat × Binary64)
    (i : Nat) {ds : List Binary64} (hds : ∀ d ∈ best.2 :: ds, d.isNaN = false) :
    ∀ d ∈ best.2 :: ds, better d (bestFrom better best i ds).2 = false := by
  obtain ⟨hbest, hrest⟩ := List.forall_mem_cons.1 hds
  refine (Box.not_better_bestFrom better (fun d => d.isNaN = false) ?_ ?_ best i hbest hrest).2
  · intro a b ha hb hab
    rw [h a b ha hb] at hab
    rw [h.eq_false_iff hb ha]
    omega
  · intro a b c ha hb hc hab hbc
    rw [h.eq_false_iff ha hb] at hab
    rw [h.eq_false_iff hb hc] at hbc
    rw [h.eq_false_iff ha hc]
    omega

/-- The entry that is found is better than every entry before it. The search keeps two facts
about the entries it has seen: none is better than the best one so far, and that one is better
than all before it. -/
theorem ComparesBy.better_bestFrom (h : ComparesBy key better) {entries ds : List Binary64}
    (hentries : ∀ d ∈ entries, d.isNaN = false) (best : Nat × Binary64) (i : Nat)
    (hds : entries.drop i = ds) (hbest : best.2.isNaN = false)
    (hseen : ∀ j d, j < i → entries[j]? = some d → better d best.2 = false)
    (hfirst : ∀ j d, j < best.1 → entries[j]? = some d → better best.2 d = true) :
    ∀ j d, j < (bestFrom better best i ds).1 → entries[j]? = some d →
      better (bestFrom better best i ds).2 d = true := by
  induction ds generalizing best i with
  | nil => exact hfirst
  | cons e ds ih =>
    have hentry : entries[i]? = some e := by
      rw [← List.head?_drop, hds, List.head?_cons]
    have hrest : entries.drop (i + 1) = ds := by
      rw [← List.tail_drop, hds, List.tail_cons]
    have he := hentries e (List.mem_of_getElem? hentry)
    rw [bestFrom]
    cases hbetter : better e best.2 with
    | true =>
      rw [h e best.2 he hbest] at hbetter
      refine ih (i, e) (i + 1) hrest he ?_ ?_
      · intro j d hj hd
        have hdn := hentries d (List.mem_of_getElem? hd)
        rw [h.eq_false_iff hdn he]
        rcases Nat.lt_succ_iff_lt_or_eq.1 hj with hlt | rfl
        · have hworse := (h.eq_false_iff hdn hbest).1 (hseen j d hlt hd)
          omega
        · cases hd.symm.trans hentry
          exact Int.le_refl _
      · intro j d hj hd
        have hdn := hentries d (List.mem_of_getElem? hd)
        have hworse := (h.eq_false_iff hdn hbest).1 (hseen j d hj hd)
        exact (h e d he hdn).2 (Int.lt_of_le_of_lt hworse hbetter)
    | false =>
      refine ih best (i + 1) hrest hbest ?_ hfirst
      intro j d hj hd
      rcases Nat.lt_succ_iff_lt_or_eq.1 hj with hlt | rfl
      · exact hseen j d hlt hd
      · cases hd.symm.trans hentry
        exact hbetter

/-- The search through a list answers with the first place of the greatest key. -/
theorem ComparesBy.bestFrom_cons (h : ComparesBy key better) {e : Binary64} {es : List Binary64}
    (hentries : ∀ d ∈ e :: es, d.isNaN = false) :
    (e :: es)[(bestFrom better (0, e) 1 es).1]? = some (bestFrom better (0, e) 1 es).2 ∧
      (∀ d ∈ e :: es, key d.rank ≤ key (bestFrom better (0, e) 1 es).2.rank) ∧
      ∀ j d, j < (bestFrom better (0, e) 1 es).1 → (e :: es)[j]? = some d →
        key d.rank < key (bestFrom better (0, e) 1 es).2.rank := by
  have he := hentries e List.mem_cons_self
  have hplace : (e :: es)[(bestFrom better (0, e) 1 es).1]? =
      some (bestFrom better (0, e) 1 es).2 :=
    getElem?_bestFrom better (0, e) 1 rfl rfl
  have hnumber := hentries _ (List.mem_of_getElem? hplace)
  refine ⟨hplace, ?_, ?_⟩
  · intro d hd
    have hbest := h.not_better_bestFrom (0, e) 1 hentries d hd
    exact (h.eq_false_iff (hentries d hd) hnumber).1 hbest
  · intro j d hj hd
    rw [← h _ d hnumber (hentries d (List.mem_of_getElem? hd))]
    refine h.better_bestFrom hentries (0, e) 1 rfl he ?_ ?_ j d hj hd
    · intro k c hk hc
      obtain rfl : k = 0 := by omega
      cases hc
      exact (h.eq_false_iff he he).2 (Int.le_refl _)
    · intro k c hk
      exact absurd hk (Nat.not_lt_zero k)

variable {b : Box}

/-- A bounded box has a diameter that no other one betters, and its axis is the first one with
that diameter. -/
theorem extremeDiam_of_isBounded (h : ComparesBy key better) (hb : b.isEmpty = false)
    (hbounded : ∀ x ∈ b.components, x.isBounded = true) :
    ∃ i w, b.extremeDiam better = .ok (i, w) ∧ (∃ x ∈ b.components, x.diam = .ok w) ∧
      (∀ x ∈ b.components, ∃ d, x.diam = .ok d ∧ key d.rank ≤ key w.rank) ∧
      b.components.findIdx? (fun x => x.hasDiam w) = some i := by
  have hdiam : ∀ x ∈ b.components, x.diam = .ok (Direction.up.sub x.ub x.lb) := fun x hx =>
    Interval.diam_of_isBounded (hbounded x hx)
  have hdiameters := b.diameters_eq
  rw [hb, if_neg Bool.false_ne_true, firstUnbounded_eq_none_iff.2 hbounded] at hdiameters
  -- The search begins with the diameter of the first component.
  obtain ⟨e, es, hentries⟩ : ∃ e es,
      (b.components.map fun x => Direction.up.sub x.ub x.lb) = e :: es := by
    cases hcomponents : b.components with
    | nil => exact absurd hcomponents b.nonempty
    | cons x xs => exact ⟨_, _, rfl⟩
  have hnumber : ∀ d ∈ e :: es, d.isNaN = false := by
    rw [← hentries]
    intro d hd
    obtain ⟨x, hx, rfl⟩ := List.mem_map.1 hd
    exact (Interval.width_le_diam (hdiam x hx)).1
  obtain ⟨hplace, hbest, hfirst⟩ := h.bestFrom_cons hnumber
  have hsearch : b.extremeDiam better = .ok (bestFrom better (0, e) 1 es) := by
    rw [extremeDiam, hdiameters, hentries]
    rfl
  generalize bestFrom better (0, e) 1 es = found at hplace hbest hfirst hsearch
  obtain ⟨i, w⟩ := found
  have hw := hnumber w (List.mem_of_getElem? hplace)
  rw [← hentries] at hplace hbest hfirst
  rw [List.getElem?_map, Option.map_eq_some_iff] at hplace
  obtain ⟨x, hx, hxw⟩ := hplace
  have hmem := List.mem_of_getElem? hx
  have hdiamx : x.diam = .ok w := by
    rw [hdiam x hmem, hxw]
  obtain ⟨hlt, hget⟩ := List.getElem?_eq_some_iff.1 hx
  refine ⟨i, w, hsearch, ⟨x, hmem, hdiamx⟩, ?_, ?_⟩
  · intro y hy
    exact ⟨_, hdiam y hy, hbest _ (List.mem_map_of_mem hy)⟩
  · refine List.findIdx?_eq_some_iff_getElem.2 ⟨hlt, ?_, ?_⟩
    · rw [hget]
      exact (Interval.hasDiam_iff hdiamx).2 ⟨hw, hw, rfl⟩
    · intro j hj hfound
      have hjlt := Nat.lt_trans hj hlt
      have hdiamj := hdiam _ (List.getElem_mem hjlt)
      have hless := hfirst j _ hj (by rw [List.getElem?_map, List.getElem?_eq_getElem hjlt]; rfl)
      rw [((Interval.hasDiam_iff hdiamj).1 hfound).2.2] at hless
      exact Int.lt_irrefl _ hless

theorem comparesBy_widest :
    ComparesBy id fun candidate best => decide (best < candidate) := by
  intro a b ha hb
  simp [Binary64.lt_iff, ha, hb]

theorem comparesBy_narrowest :
    ComparesBy (fun r => -r) fun candidate best => decide (candidate < best) := by
  intro a b ha hb
  simp [Binary64.lt_iff, ha, hb]

end Best

/-! ## Diameters and widths -/

section Widths

variable {b : Box} {w : Binary64}

/-- The exact widths of the components. -/
def widths (b : Box) : Set ℝ :=
  {s | ∃ x ∈ b.components, x.width = s}

theorem exists_mem_components (b : Box) : {x | x ∈ b.components}.Nonempty :=
  List.exists_mem_of_ne_nil b.components b.nonempty

/-- The largest diameter is the least number that is not below the largest width. -/
theorem exists_greatest_width (hw : ∃ x ∈ b.components, x.diam = .ok w)
    (hbest : ∀ x ∈ b.components, ∃ d, x.diam = .ok d ∧ d.rank ≤ w.rank) :
    ∃ s, IsGreatest b.widths s ∧ IsLeast {v | Direction.up.Bounds v s} w := by
  obtain ⟨widest, hwidest, hmax⟩ := Set.exists_max_image {x | x ∈ b.components} Interval.width
    (List.finite_toSet b.components) b.exists_mem_components
  obtain ⟨x, hx, hxw⟩ := hw
  obtain ⟨d, hd, hdw⟩ := hbest widest hwidest
  refine ⟨widest.width, ⟨⟨widest, hwidest, rfl⟩, ?_⟩, ?_, ?_⟩
  · rintro s ⟨y, hy, rfl⟩
    exact hmax y hy
  · -- The component that was found need not have the largest width, only its diameter.
    exact (Interval.width_le_diam hd).of_rank_le (Interval.width_le_diam hxw).1 hdw
  · intro v (hv : Direction.up.Bounds v widest.width)
    exact (Interval.isLeast_diam hxw).2 (hv.trans (hmax x hx))

/-- The smallest diameter is the least number that is not below the smallest width. -/
theorem exists_least_width (hw : ∃ x ∈ b.components, x.diam = .ok w)
    (hbest : ∀ x ∈ b.components, ∃ d, x.diam = .ok d ∧ w.rank ≤ d.rank) :
    ∃ s, IsLeast b.widths s ∧ IsLeast {v | Direction.up.Bounds v s} w := by
  obtain ⟨narrowest, hnarrowest, hmin⟩ := Set.exists_min_image {x | x ∈ b.components}
    Interval.width (List.finite_toSet b.components) b.exists_mem_components
  obtain ⟨x, hx, hxw⟩ := hw
  obtain ⟨d, hd, hdw⟩ := hbest narrowest hnarrowest
  have hbound := Interval.width_le_diam hxw
  refine ⟨narrowest.width, ⟨⟨narrowest, hnarrowest, rfl⟩, ?_⟩, hbound.trans (hmin x hx), ?_⟩
  · rintro s ⟨y, hy, rfl⟩
    exact hmin y hy
  · intro v hv
    have hvd := (Interval.isLeast_diam hd).2 hv
    exact ⟨hbound.not_nan, hvd.2.1, hdw.trans hvd.2.2⟩

/-- The measures of a box. All four fail exactly on the empty box and on boxes with an unbounded
component, and name the first such component. On the other boxes the largest and the smallest
diameter are the least numbers that are not below the largest and the smallest exact width, and
the widest and the narrowest axis are the first ones with these diameters. -/
theorem measures_round_extreme_widths (b : Box) :
    (b.FailsAs b.widest ∧ b.FailsAs b.narrowest ∧ b.FailsAs b.maxDiam ∧ b.FailsAs b.minDiam) ∧
      (b.isEmpty = false → (∀ x ∈ b.components, x.isBounded = true) →
        (∃ i w s, b.widest = .ok i ∧ b.maxDiam = .ok w ∧
          IsGreatest b.widths s ∧ IsLeast {v | Direction.up.Bounds v s} w ∧
          b.components.findIdx? (fun x => x.hasDiam w) = some i) ∧
        ∃ i w s, b.narrowest = .ok i ∧ b.minDiam = .ok w ∧
          IsLeast b.widths s ∧ IsLeast {v | Direction.up.Bounds v s} w ∧
          b.components.findIdx? (fun x => x.hasDiam w) = some i) := by
  refine ⟨⟨failsAs_extremeDiam _ _ b, failsAs_extremeDiam _ _ b, failsAs_extremeDiam _ _ b,
    failsAs_extremeDiam _ _ b⟩, ?_⟩
  intro hb hbounded
  constructor
  · obtain ⟨i, w, hsearch, hw, hbest, hfirst⟩ :=
      extremeDiam_of_isBounded comparesBy_widest hb hbounded
    obtain ⟨s, hgreatest, hleast⟩ := exists_greatest_width hw hbest
    refine ⟨i, w, s, ?_, ?_, hgreatest, hleast, hfirst⟩
    · rw [widest, widestDiam, hsearch]
      rfl
    · rw [maxDiam, widestDiam, hsearch]
      rfl
  · obtain ⟨i, w, hsearch, hw, hbest, hfirst⟩ :=
      extremeDiam_of_isBounded comparesBy_narrowest hb hbounded
    obtain ⟨s, hsmallest, hleast⟩ := exists_least_width hw fun x hx => by
      obtain ⟨d, hd, hle⟩ := hbest x hx
      exact ⟨d, hd, Int.neg_le_neg_iff.1 hle⟩
    refine ⟨i, w, s, ?_, ?_, hsmallest, hleast, hfirst⟩
    · rw [narrowest, narrowestDiam, hsearch]
      rfl
    · rw [minDiam, narrowestDiam, hsearch]
      rfl

end Widths

end Box

end Paving
