import Mathlib.Data.List.Forall2
import Paving.Proofs.Box.InPlace
import Paving.Proofs.Interval.Lattice

/-!
# The lattice of boxes of one dimension

Inclusion, equality, points and the test for a point all hold of a box when they hold on every
axis, so each of them is a `List.Forall₂` over the components (`subset_iff_forall₂`,
`beq_iff_forall₂`, `mem_iff_forall₂`, `containsPoint_iff_forall₂`). Intersection and hull combine
the components axis by axis (`combine`), and restoring the invariant of a box changes neither its
points nor the numbers in it (`forall₂_ofComponents`). Carried out in place, the intersection
stops at the first axis that empties the box, and leaves the same box (`InPlace.on_inter`). What intersection and hull are for
intervals they therefore are for boxes: the greatest box inside both and the least one around
both (`OfDim.subset_meet_iff`, `OfDim.join_subset_iff`).
-/

set_option autoImplicit false

namespace Paving

namespace Box

/-! ## Axis by axis -/

section Axes

variable {β : Type} {R : Interval → β → Prop} {xs ys : List Interval} {ps : List β}

theorem forall₂_iff_getElem? : List.Forall₂ R xs ps ↔ xs.length = ps.length ∧
    ∀ (i : Nat) (x : Interval) (t : β), xs[i]? = some x → ps[i]? = some t → R x t := by
  rw [List.forall₂_iff_get, and_congr_right_iff]
  intro hlength
  constructor
  · intro h i x t hx ht
    obtain ⟨hi, rfl⟩ := List.getElem?_eq_some_iff.1 hx
    obtain ⟨hi', rfl⟩ := List.getElem?_eq_some_iff.1 ht
    exact h i hi hi'
  · intro h i hi hi'
    exact h i _ _ (List.getElem?_eq_getElem hi) (List.getElem?_eq_getElem hi')

/-- Components that are combined stand in a relation if both operands do, provided that each
combined component does so. -/
theorem forall₂_zipWith {op : Interval → Interval → Interval}
    (hop : ∀ x y t, R (op x y) t ↔ R x t ∧ R y t) (hlength : xs.length = ys.length) :
    List.Forall₂ R (List.zipWith op xs ys) ps ↔ List.Forall₂ R xs ps ∧ List.Forall₂ R ys ps := by
  induction xs generalizing ys ps with
  | nil =>
    obtain rfl := List.length_eq_zero_iff.1 hlength.symm
    simp
  | cons x xs ih =>
    cases ys with
    | nil => cases hlength
    | cons y ys =>
      cases ps with
      | nil => simp
      | cons t ps =>
        rw [List.zipWith_cons_cons, List.forall₂_cons, List.forall₂_cons, List.forall₂_cons,
          hop, ih (Nat.succ.inj hlength)]
        exact and_and_and_comm

theorem not_isEmpty_of_forall₂ (hR : ∀ x t, R x t → x.isEmpty = false)
    (h : List.Forall₂ R xs ps) : ∀ x ∈ xs, x.isEmpty = false :=
  ((List.forall₂_and_left _ _).1 (h.imp fun x t hxt => ⟨hR x t hxt, hxt⟩)).1

/-- A relation that excludes the empty interval does not see the invariant restored. -/
theorem forall₂_ofComponents (hR : ∀ x t, R x t → x.isEmpty = false) (hne : xs ≠ []) :
    List.Forall₂ R (ofComponents xs hne).components ps ↔ List.Forall₂ R xs ps := by
  rw [ofComponents]
  split
  case isFalse => exact Iff.rfl
  case isTrue hany =>
    -- One component is empty, and it stands in no relation, before or after.
    obtain ⟨x, hx, hempty⟩ := List.any_eq_true.1 hany
    constructor
    · intro h
      have hfalse := not_isEmpty_of_forall₂ hR h Interval.empty (List.mem_map.2 ⟨x, hx, rfl⟩)
      cases Interval.isEmpty_empty.symm.trans hfalse
    · intro h
      cases hempty.symm.trans (not_isEmpty_of_forall₂ hR h x hx)

end Axes

section Boxes

variable {a b c : Box} {p : List ℝ} {point : List Binary64}

theorem mem_iff_forall₂ : p ∈ b ↔ List.Forall₂ (fun x t => t ∈ x) b.components p := by
  rw [forall₂_iff_getElem?]
  exact and_congr_left' eq_comm

theorem subset_iff_forall₂ :
    a ⊆ b ↔ List.Forall₂ (fun x y : Interval => x ⊆ y) a.components b.components := by
  rw [forall₂_iff_getElem?]
  exact Iff.rfl

theorem beq_iff_forall₂ :
    (a == b) = true ↔ List.Forall₂ (fun x y => (x == y) = true) a.components b.components := by
  show (a.components == b.components) = true ↔ _
  generalize a.components = xs
  generalize b.components = ys
  induction xs generalizing ys with
  | nil => cases ys <;> simp
  | cons x xs ih =>
    cases ys with
    | nil => simp
    | cons y ys => rw [List.cons_beq_cons, Bool.and_eq_true, ih, List.forall₂_cons]

theorem containsPoint_iff_forall₂ : b.containsPoint point = .ok true ↔
    List.Forall₂ (fun x v => x.contains v = true) b.components point := by
  rw [containsPoint, checkDim]
  split
  case isFalse hdim =>
    constructor
    · intro h
      cases h
    · intro h
      exact absurd h.length_eq.symm hdim
  case isTrue hdim =>
    show Except.ok (!b.isEmpty && _) = Except.ok true ↔ _
    rw [Except.ok.injEq, Bool.and_eq_true, List.all_eq_true, Prod.forall]
    constructor
    · rintro ⟨-, h⟩
      exact List.forall₂_iff_zip.2 ⟨hdim.symm, fun {x v} hmem => h x v hmem⟩
    · intro h
      have hfirst := not_isEmpty_of_forall₂ (fun x v hv => (Interval.contains_iff.1 hv).1) h _
        (List.head_mem b.nonempty)
      refine ⟨?_, fun x v hmem => (List.forall₂_iff_zip.1 h).2 hmem⟩
      rw [isEmpty, hfirst]
      rfl

/-! ## Inclusion and equality -/

theorem exists_forall₂_mem {xs : List Interval} (hne : ∀ x ∈ xs, x.isEmpty = false) :
    ∃ p : List ℝ, List.Forall₂ (fun x t => t ∈ x) xs p := by
  induction xs with
  | nil => exact ⟨[], .nil⟩
  | cons x xs ih =>
    rw [List.forall_mem_cons] at hne
    obtain ⟨v, -, hv⟩ := Interval.exists_number hne.1
    obtain ⟨p, hp⟩ := ih hne.2
    exact ⟨v.toReal :: p, .cons hv hp⟩

/-- A box is empty if it has no point. -/
theorem isEmpty_eq_false_iff : b.isEmpty = false ↔ ∃ p, p ∈ b := by
  constructor
  · intro hb
    obtain ⟨p, hp⟩ := exists_forall₂_mem fun x hx => (isEmpty_of_mem_components hx).trans hb
    exact ⟨p, mem_iff_forall₂.2 hp⟩
  · rintro ⟨p, hp⟩
    exact not_isEmpty_of_mem hp

/-- Intervals with points hold each other if the lists of their points do. -/
theorem forall₂_subset_of_points {xs ys : List Interval} (hne : ∀ x ∈ xs, x.isEmpty = false)
    (hlength : xs.length = ys.length)
    (h : ∀ p : List ℝ, List.Forall₂ (fun x t => t ∈ x) xs p →
      List.Forall₂ (fun x t => t ∈ x) ys p) :
    List.Forall₂ (fun x y : Interval => x ⊆ y) xs ys := by
  induction xs generalizing ys with
  | nil =>
    obtain rfl := List.length_eq_zero_iff.1 hlength.symm
    exact .nil
  | cons x xs ih =>
    cases ys with
    | nil => cases hlength
    | cons y ys =>
      rw [List.forall_mem_cons] at hne
      obtain ⟨v, -, hv⟩ := Interval.exists_number hne.1
      obtain ⟨q, hq⟩ := exists_forall₂_mem hne.2
      -- A point of one axis is completed by some point of the others, and conversely.
      refine .cons (Interval.subset_iff_forall_mem.2 ?_) (ih hne.2 (Nat.succ.inj hlength) ?_)
      · intro t ht
        exact (List.forall₂_cons.1 (h (t :: q) (.cons ht hq))).1
      · intro p hp
        exact (List.forall₂_cons.1 (h (v.toReal :: p) (.cons hv hp))).2

/-- A box lies in another one of its dimension if all its points do. -/
theorem subset_iff_forall_mem : a ⊆ b ↔ a.dim = b.dim ∧ ∀ p, p ∈ a → p ∈ b := by
  refine ⟨fun h => ⟨h.1, fun p hp => mem_of_subset h hp⟩, ?_⟩
  rintro ⟨hdim, h⟩
  cases ha : a.isEmpty with
  | true =>
    refine ⟨hdim, fun i x y hx _ => Interval.subset_iff.2 (.inl ?_)⟩
    exact (isEmpty_of_mem_components (List.mem_of_getElem? hx)).trans ha
  | false =>
    have hne : ∀ x ∈ a.components, x.isEmpty = false := fun x hx =>
      (isEmpty_of_mem_components hx).trans ha
    simp only [mem_iff_forall₂] at h
    exact subset_iff_forall₂.2 (forall₂_subset_of_points hne hdim h)

/-- Boxes that include each other are equal as numbers. -/
theorem beq_iff_subset : (a == b) = true ↔ a ⊆ b ∧ b ⊆ a := by
  rw [beq_iff_forall₂, subset_iff_forall₂, subset_iff_forall₂]
  generalize a.components = xs
  generalize b.components = ys
  induction xs generalizing ys with
  | nil => cases ys <;> simp
  | cons x xs ih =>
    cases ys with
    | nil => simp
    | cons y ys =>
      rw [List.forall₂_cons, List.forall₂_cons, List.forall₂_cons, ih, Interval.beq_iff_subset]
      exact and_and_and_comm

/-! ## Combining boxes -/

/-- The points of the combined box are the common points. -/
theorem mem_combine_inter (h : a.dim = b.dim) :
    p ∈ combine Interval.inter a b ↔ p ∈ a ∧ p ∈ b := by
  rw [mem_iff_forall₂, mem_iff_forall₂, mem_iff_forall₂, combine,
    forall₂_ofComponents fun _ _ => Interval.not_isEmpty_of_mem,
    forall₂_zipWith (fun _ _ _ => Interval.mem_inter_iff) h]

theorem containsPoint_combine_inter (h : a.dim = b.dim) :
    (combine Interval.inter a b).containsPoint point = .ok true ↔
      a.containsPoint point = .ok true ∧ b.containsPoint point = .ok true := by
  rw [containsPoint_iff_forall₂, containsPoint_iff_forall₂, containsPoint_iff_forall₂, combine,
    forall₂_ofComponents fun _ _ hv => (Interval.contains_iff.1 hv).1, forall₂_zipWith ?_ h]
  intro x y v
  rw [Interval.contains_inter, Bool.and_eq_true]

/-- Components that are all empty or all not are kept. -/
theorem components_ofComponents_of_uniform {xs : List Interval} (hne : xs ≠ []) {e : Bool}
    (h : ∀ x ∈ xs, x.isEmpty = e) : (ofComponents xs hne).components = xs := by
  cases e with
  | false => exact components_ofComponents hne h
  | true =>
    rw [ofComponents]
    split
    case isFalse => rfl
    case isTrue =>
      show xs.map (fun _ => Interval.empty) = xs
      calc xs.map (fun _ => Interval.empty) = xs.map fun x => x :=
            List.map_congr_left fun x hx => (Interval.eq_empty_iff.2 (h x hx)).symm
        _ = xs := List.map_id' xs

/-- A hull is empty if both operands are, on all axes alike. -/
theorem components_combine_hull (a b : Box) :
    (combine Interval.hull a b).components =
      List.zipWith Interval.hull a.components b.components := by
  refine components_ofComponents_of_uniform _ (e := a.isEmpty && b.isEmpty) ?_
  intro z hz
  obtain ⟨i, hi⟩ := List.mem_iff_getElem?.1 hz
  obtain ⟨x, y, hx, hy, rfl⟩ := List.getElem?_zipWith_eq_some.1 hi
  rw [Interval.isEmpty_hull, isEmpty_of_mem_components (List.mem_of_getElem? hx),
    isEmpty_of_mem_components (List.mem_of_getElem? hy)]

theorem combine_hull_subset_iff (h : a.dim = b.dim) :
    combine Interval.hull a b ⊆ c ↔ a ⊆ c ∧ b ⊆ c := by
  rw [subset_iff_forall₂, subset_iff_forall₂, subset_iff_forall₂, components_combine_hull,
    forall₂_zipWith (fun _ _ _ => Interval.hull_subset_iff) h]

/-- An empty operand leaves the other one on every axis, so that the hull need not look at the
operands as a whole. -/
theorem hull_of_dim_eq (h : a.dim = b.dim) : a.hull b = .ok (combine Interval.hull a b) := by
  have hlength : a.components.length = b.components.length := h
  rw [hull, checkDim, if_pos h.symm]
  cases ha : a.isEmpty with
  | true =>
    refine congrArg Except.ok (ext_components ?_)
    rw [components_combine_hull]
    refine List.ext_getElem (by simp [hlength]) fun i hi hi' => ?_
    have hx := (isEmpty_of_mem_components (List.getElem_mem (hlength ▸ hi))).trans ha
    rw [List.getElem_zipWith, Interval.hull, if_pos hx]
  | false =>
    cases hb : b.isEmpty with
    | true =>
      refine congrArg Except.ok (ext_components ?_)
      rw [components_combine_hull]
      refine List.ext_getElem (by simp [hlength]) fun i hi hi' => ?_
      have hx := (isEmpty_of_mem_components (List.getElem_mem hi)).trans ha
      have hy := (isEmpty_of_mem_components (List.getElem_mem (hlength ▸ hi))).trans hb
      rw [List.getElem_zipWith, Interval.hull, hx, if_neg Bool.false_ne_true, if_pos hy]
    | false =>
      rw [ofIntervals, dif_neg (zipWith_components_ne_nil Interval.hull a b)]
      rfl

theorem containsPoint_of_subset (hab : a ⊆ b) (h : a.containsPoint point = .ok true) :
    b.containsPoint point = .ok true := by
  rw [containsPoint_iff_forall₂, forall₂_iff_getElem?] at h ⊢
  have hlength : a.components.length = b.components.length := hab.1
  refine ⟨hlength.symm.trans h.1, ?_⟩
  intro i y v hy hv
  have hi : i < a.components.length := by
    rw [hlength]
    exact (List.getElem?_eq_some_iff.1 hy).1
  have hx : a.components[i]? = some a.components[i] := List.getElem?_eq_getElem hi
  exact Interval.contains_of_subset (hab.2 i _ y hx hy) (h.2 i _ v hx hv)

end Boxes

/-! ## Dimensions that differ -/

section Dimensions

variable {α : Type} {a b : Box} {found : Nat}

/-- The operation fails if and only if its operand has another dimension than the box. -/
def RefusesDim (a : Box) (found : Nat) (result : Except BoxError α) : Prop :=
  ∀ e, result = .error e ↔ found ≠ a.dim ∧ e = .dimensionMismatch a.dim found

theorem refusesDim_of_eq {result : Except BoxError α}
    (hne : found ≠ a.dim → result = .error (.dimensionMismatch a.dim found))
    (heq : found = a.dim → ∃ r, result = .ok r) : RefusesDim a found result := by
  intro e
  by_cases hfound : found = a.dim
  · obtain ⟨r, hr⟩ := heq hfound
    simp [hr, hfound]
  · simp [hne hfound, hfound, eq_comm]

theorem refusesDim_inter (a b : Box) : RefusesDim a b.dim (a.inter b) :=
  fun _ => inter_eq_error_iff

theorem refusesDim_hull (a b : Box) : RefusesDim a b.dim (a.hull b) := by
  refine refusesDim_of_eq (fun hne => ?_) (fun heq => ⟨_, hull_of_dim_eq heq.symm⟩)
  rw [hull, checkDim, if_neg hne]
  rfl

theorem refusesDim_containsPoint (a : Box) (point : List Binary64) :
    RefusesDim a point.length (a.containsPoint point) := by
  rw [containsPoint, checkDim]
  refine refusesDim_of_eq (fun hne => ?_) (fun heq => ?_)
  · rw [if_neg hne]
    rfl
  · rw [if_pos heq]
    exact ⟨_, rfl⟩

/-- A refused intersection leaves the box as it was. -/
theorem on_inter_of_dim_ne (h : b.dim ≠ a.dim) :
    (InPlace.inter b).on a = (.error (.dimensionMismatch a.dim b.dim), a) := by
  rw [InPlace.on_inter, (refusesDim_inter a b _).2 ⟨h, rfl⟩]
  rfl

end Dimensions

/-! ## The lattice of boxes of one dimension -/

/-- The boxes with a given number of axes. -/
def OfDim (n : Nat) : Type :=
  {b : Box // b.dim = n}

namespace OfDim

variable {n : Nat}

theorem dim_eq (a b : OfDim n) : a.1.dim = b.1.dim :=
  a.2.trans b.2.symm

theorem subset_iff (a b : OfDim n) : a.1 ⊆ b.1 ↔ ∀ p, p ∈ a.1 → p ∈ b.1 :=
  subset_iff_forall_mem.trans (and_iff_right (dim_eq a b))

/-- The intersection. -/
def meet (a b : OfDim n) : OfDim n :=
  ⟨combine Interval.inter a.1 b.1, (dim_combine Interval.inter (dim_eq a b)).trans a.2⟩

/-- The hull. -/
def join (a b : OfDim n) : OfDim n :=
  ⟨combine Interval.hull a.1 b.1, (dim_combine Interval.hull (dim_eq a b)).trans a.2⟩

/-- The intersection is the greatest box inside both. -/
theorem subset_meet_iff (a b c : OfDim n) : c.1 ⊆ (meet a b).1 ↔ c.1 ⊆ a.1 ∧ c.1 ⊆ b.1 := by
  rw [subset_iff, subset_iff, subset_iff]
  simp only [meet, mem_combine_inter (dim_eq a b)]
  exact forall₂_and

/-- The hull is the least box around both. -/
theorem join_subset_iff (a b c : OfDim n) : (join a b).1 ⊆ c.1 ↔ a.1 ⊆ c.1 ∧ b.1 ⊆ c.1 :=
  combine_hull_subset_iff (dim_eq a b)

/-- All boxes lie in the unbounded one, and the empty one in all boxes. -/
theorem latticeLaws {top bottom : OfDim n} (htop : Box.all n = .ok top.1)
    (hbottom : Box.filled n Interval.empty = .ok bottom.1) :
    LatticeLaws (fun a b : OfDim n => a.1 ⊆ b.1) (fun a b => a.1 == b.1) meet join top bottom := by
  refine latticeLaws_of_le_iff (fun a => Box.subset_refl a.1) (fun a b c => Box.subset_trans)
    (fun a b => beq_iff_subset) subset_meet_iff join_subset_iff ?_ ?_
  · intro a
    refine ⟨dim_eq a top, fun i x y _ hy => ?_⟩
    rw [components_filled htop] at hy
    rw [List.eq_of_mem_replicate (List.mem_of_getElem? hy)]
    exact Interval.subset_all x
  · intro a
    refine ⟨dim_eq bottom a, fun i x y hx _ => ?_⟩
    rw [components_filled hbottom] at hx
    rw [List.eq_of_mem_replicate (List.mem_of_getElem? hx)]
    exact Interval.empty_subset y

theorem exists_filled (hn : 0 < n) (x : Interval) : ∃ b : OfDim n, Box.filled n x = .ok b.1 := by
  have hne : List.replicate n x ≠ [] := by
    rw [ne_eq, List.replicate_eq_nil_iff]
    exact hn.ne'
  refine ⟨⟨ofComponents _ hne, ?_⟩, ?_⟩
  · exact (length_ofComponents _ hne).trans List.length_replicate
  · rw [filled, ofIntervals, dif_neg hne]

end OfDim

/-- What intersecting a box in place with another one of its dimension answers and leaves. -/
structure IsMeet (a b met : Box) : Prop where
  inter_eq : a.inter b = .ok (met, !met.isEmpty)
  on_eq : (InPlace.inter b).on a = (.ok (!met.isEmpty), met)
  mem_iff : ∀ p : List ℝ, p ∈ met ↔ p ∈ a ∧ p ∈ b
  flag_iff : a.inter b = .ok (met, true) ↔ ∃ p : List ℝ, p ∈ a ∧ p ∈ b
  containsPoint_iff : ∀ point : List Binary64, met.containsPoint point = .ok true ↔
    a.containsPoint point = .ok true ∧ b.containsPoint point = .ok true

/-- What the hull of two boxes of one dimension answers. -/
structure IsJoin (a b around : Box) : Prop where
  hull_eq : a.hull b = .ok around
  containsPoint_of_or : ∀ point : List Binary64,
    a.containsPoint point = .ok true ∨ b.containsPoint point = .ok true →
      around.containsPoint point = .ok true

theorem OfDim.isMeet {n : Nat} (a b : OfDim n) : IsMeet a.1 b.1 (a.meet b).1 := by
  have hinter := inter_of_dim_eq (dim_eq a b)
  constructor
  case inter_eq => exact hinter
  case on_eq =>
    rw [InPlace.on_inter, hinter]
    rfl
  case mem_iff => exact fun p => mem_combine_inter (dim_eq a b)
  case flag_iff =>
    simp only [← mem_combine_inter (dim_eq a b), ← isEmpty_eq_false_iff, hinter, meet]
    simp
  case containsPoint_iff => exact fun point => containsPoint_combine_inter (dim_eq a b)

theorem OfDim.isJoin {n : Nat} (a b : OfDim n) : IsJoin a.1 b.1 (a.join b).1 := by
  obtain ⟨ha, hb⟩ := (join_subset_iff a b (a.join b)).1 (Box.subset_refl _)
  constructor
  case hull_eq => exact hull_of_dim_eq (dim_eq a b)
  case containsPoint_of_or =>
    rintro point (h | h)
    · exact containsPoint_of_subset ha h
    · exact containsPoint_of_subset hb h

/-- Intervals form a bounded lattice under inclusion, and so do the boxes of each dimension,
up to the signs of zero bounds. Meets are intersections, of points as well as of the numbers
that the tests find, and joins are hulls. Operands of another dimension are refused, and nothing
changes then. -/
theorem lattices_under_inclusion :
    (LatticeLaws (fun x y : Interval => x ⊆ y) (fun x y => x == y) Interval.inter Interval.hull
        Interval.all Interval.empty ∧
      ∀ x y : Interval, (x ⊆ y ↔ ∀ t : ℝ, t ∈ x → t ∈ y) ∧
        (∀ t : ℝ, t ∈ x.inter y ↔ t ∈ x ∧ t ∈ y) ∧
        ∀ v : Binary64, (x.inter y).contains v = (x.contains v && y.contains v)) ∧
    (∀ n : Nat, 0 < n → ∃ top bottom : OfDim n,
      Box.all n = .ok top.1 ∧ Box.filled n Interval.empty = .ok bottom.1 ∧
        LatticeLaws (fun a b : OfDim n => a.1 ⊆ b.1) (fun a b => a.1 == b.1) OfDim.meet
          OfDim.join top bottom) ∧
    (∀ (n : Nat) (a b : OfDim n), (a.1 ⊆ b.1 ↔ ∀ p : List ℝ, p ∈ a.1 → p ∈ b.1) ∧
      IsMeet a.1 b.1 (a.meet b).1 ∧ IsJoin a.1 b.1 (a.join b).1) ∧
    ∀ (a b : Box) (point : List Binary64),
      RefusesDim a b.dim (a.inter b) ∧ RefusesDim a b.dim (a.hull b) ∧
        RefusesDim a point.length (a.containsPoint point) ∧
        (b.dim ≠ a.dim →
          (InPlace.inter b).on a = (.error (.dimensionMismatch a.dim b.dim), a)) := by
  refine ⟨⟨Interval.latticeLaws, ?_⟩, ?_, ?_, ?_⟩
  · intro x y
    exact ⟨Interval.subset_iff_forall_mem, fun t => Interval.mem_inter_iff,
      Interval.contains_inter x y⟩
  · intro n hn
    obtain ⟨top, htop⟩ := OfDim.exists_filled hn Interval.all
    obtain ⟨bottom, hbottom⟩ := OfDim.exists_filled hn Interval.empty
    exact ⟨top, bottom, htop, hbottom, OfDim.latticeLaws htop hbottom⟩
  · intro n a b
    exact ⟨OfDim.subset_iff a b, OfDim.isMeet a b, OfDim.isJoin a b⟩
  · intro a b point
    exact ⟨refusesDim_inter a b, refusesDim_hull a b, refusesDim_containsPoint a point,
      on_inter_of_dim_ne⟩

end Box

end Paving
