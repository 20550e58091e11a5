import Mathlib.Data.Set.Subsingleton
import Paving.Proofs.Box.Measure

/-!
# Packings and tilings of a box

Two boxes are almost disjoint if on some axis their components have at most one point in
common; the halves of a bisected box are, and so are all boxes inside them. Boxes pack a box
if they lie in it and are almost disjoint from each other, and tile it if they also have all
its points between them. A packing or a tiling is refined one box at a time: any member can
be replaced by boxes that pack it (`Packs.replace`), or tile it (`Tiles.replace`).
-/

set_option autoImplicit false

namespace Paving

namespace Interval

/-- Two intervals have at most one point in common. -/
def AlmostDisjoint (x y : Interval) : Prop :=
  {t : ℝ | t ∈ x ∧ t ∈ y}.Subsingleton

theorem AlmostDisjoint.symm {x y : Interval} (h : x.AlmostDisjoint y) : y.AlmostDisjoint x :=
  fun _ hs _ ht => h hs.symm ht.symm

theorem AlmostDisjoint.mono {x x' y y' : Interval} (h : x.AlmostDisjoint y) (hx : x' ⊆ x)
    (hy : y' ⊆ y) : x'.AlmostDisjoint y' := by
  apply Set.Subsingleton.anti h
  rintro t ⟨htx, hty⟩
  exact ⟨mem_of_subset hx htx, mem_of_subset hy hty⟩

/-- The halves of an interval share the point of bisection only. -/
theorem almostDisjoint_of_bisectAt {x lower upper : Interval} {point : Binary64}
    (h : x.bisectAt point = .ok (lower, upper)) : lower.AlmostDisjoint upper := by
  obtain ⟨-, -, ⟨-, hub⟩, hlb, -⟩ := bisectAt_eq_ok h
  have hpoint : ∀ t : ℝ, t ∈ lower → t ∈ upper → (t : EReal) = point.value := by
    intro t hlower hupper
    rw [mem_iff, hub] at hlower
    rw [mem_iff, hlb] at hupper
    exact le_antisymm hlower.2 hupper.1
  rintro s ⟨hsl, hsu⟩ t ⟨htl, htu⟩
  rw [← EReal.coe_eq_coe_iff, hpoint s hsl hsu, hpoint t htl htu]

end Interval

namespace Box

/-! ## Almost disjoint boxes -/

/-- On some axis the components have at most one point in common. -/
def AlmostDisjoint (a b : Box) : Prop :=
  ∃ (axis : Nat) (x y : Interval),
    a.components[axis]? = some x ∧ b.components[axis]? = some y ∧ x.AlmostDisjoint y

section AlmostDisjoint

variable {a a' b b' : Box}

theorem AlmostDisjoint.symm (h : a.AlmostDisjoint b) : b.AlmostDisjoint a := by
  obtain ⟨axis, x, y, hx, hy, hxy⟩ := h
  exact ⟨axis, y, x, hy, hx, hxy.symm⟩

/-- A sub-box has a component on every axis, inside that of the box. -/
theorem exists_inner_component (h : a ⊆ b) {axis : Nat} {y : Interval}
    (hy : b.components[axis]? = some y) : ∃ x, a.components[axis]? = some x ∧ x ⊆ y := by
  have hlt : axis < a.components.length := by
    have hdim : a.components.length = b.components.length := h.1
    rw [hdim]
    exact (List.getElem?_eq_some_iff.1 hy).1
  have hx : a.components[axis]? = some a.components[axis] := List.getElem?_eq_getElem hlt
  exact ⟨a.components[axis], hx, h.2 axis _ y hx hy⟩

theorem AlmostDisjoint.mono (h : a.AlmostDisjoint b) (ha : a' ⊆ a) (hb : b' ⊆ b) :
    a'.AlmostDisjoint b' := by
  obtain ⟨axis, x, y, hx, hy, hxy⟩ := h
  obtain ⟨x', hx', hxx⟩ := exists_inner_component ha hx
  obtain ⟨y', hy', hyy⟩ := exists_inner_component hb hy
  exact ⟨axis, x', y', hx', hy', hxy.mono hxx hyy⟩

theorem exists_component_replace {axis : Nat} {y : Interval} (x : Interval)
    (hy : b.components[axis]? = some y) :
    ∃ x', (b.replace axis x).components[axis]? = some x' ∧ x' ⊆ x := by
  have hlt : axis < b.components.length := (List.getElem?_eq_some_iff.1 hy).1
  have hset : (b.components.set axis x)[axis]? = some x := List.getElem?_set_self hlt
  have hlength : axis < (b.replace axis x).components.length := by
    rw [replace, length_ofComponents, List.length_set]
    exact hlt
  have hx' := List.getElem?_eq_getElem hlength
  exact ⟨_, hx', ofComponents_subset _ hx' hset⟩

/-- The halves of a box are almost disjoint, on the axis of bisection. -/
theorem almostDisjoint_of_bisectAxis {lower upper : Box} {axis : Nat}
    (h : b.bisectAxis axis = .ok (lower, upper)) : lower.AlmostDisjoint upper := by
  obtain ⟨x, point, xl, xu, hx, hparts, rfl, rfl⟩ := bisectAxis_eq_ok h
  obtain ⟨yl, hyl, hlower⟩ := exists_component_replace xl hx
  obtain ⟨yu, hyu, hupper⟩ := exists_component_replace xu hx
  have hdisjoint := Interval.almostDisjoint_of_bisectAt hparts
  exact ⟨axis, yl, yu, hyl, hyu, hdisjoint.mono hlower hupper⟩

end AlmostDisjoint

/-! ## Packings -/

/-- The boxes lie in `b` and are almost disjoint from each other. -/
structure Packs (parts : List Box) (b : Box) : Prop where
  within : ∀ a ∈ parts, a ⊆ b
  apart : parts.Pairwise AlmostDisjoint

section Packs

variable {a b lower upper : Box} {parts before after : List Box} {axis : Nat}

theorem packs_nil (b : Box) : Packs [] b :=
  ⟨List.forall_mem_nil _, .nil⟩

theorem packs_singleton (h : a ⊆ b) : Packs [a] b :=
  ⟨List.forall_mem_singleton.2 h, List.pairwise_singleton _ _⟩

theorem packs_bisectAxis (h : b.bisectAxis axis = .ok (lower, upper)) :
    Packs [lower, upper] b := by
  obtain ⟨hlower, hupper⟩ := bisectAxis_subset h
  refine ⟨?_, List.pairwise_pair.2 (almostDisjoint_of_bisectAxis h)⟩
  exact List.forall_mem_cons.2 ⟨hlower, List.forall_mem_singleton.2 hupper⟩

theorem Packs.mono (h : Packs parts a) (hab : a ⊆ b) : Packs parts b :=
  ⟨fun d hd => subset_trans (h.within d hd) hab, h.apart⟩

/-- The order of the boxes does not matter. -/
theorem Packs.perm {parts' : List Box} (h : Packs parts b) (hperm : parts.Perm parts') :
    Packs parts' b :=
  ⟨fun d hd => h.within d (hperm.mem_iff.2 hd), (hperm.pairwise_iff .symm).1 h.apart⟩

/-- One of the boxes can be replaced by boxes that pack it. -/
theorem Packs.replace (h : Packs (before ++ a :: after) b) (ha : Packs parts a) :
    Packs (before ++ (parts ++ after)) b := by
  obtain ⟨hwithin, hapart⟩ := h
  rw [List.pairwise_append, List.pairwise_cons] at hapart
  obtain ⟨hbefore, ⟨hfrom, hafter⟩, hacross⟩ := hapart
  constructor
  · intro d hd
    rcases List.mem_append.1 hd with hd | hd
    · exact hwithin d (List.mem_append_left _ hd)
    · rcases List.mem_append.1 hd with hd | hd
      · exact subset_trans (ha.within d hd) (hwithin a (by simp))
      · exact hwithin d (by simp [hd])
  · rw [List.pairwise_append, List.pairwise_append]
    refine ⟨hbefore, ⟨ha.apart, hafter, ?_⟩, ?_⟩
    · -- What lies in the replaced box is almost disjoint from what that box was.
      intro d hd e he
      exact (hfrom e he).mono (ha.within d hd) (subset_refl e)
    · intro d hd e he
      rcases List.mem_append.1 he with he | he
      · exact (hacross d hd a List.mem_cons_self).mono (subset_refl d) (ha.within e he)
      · exact hacross d hd e (List.mem_cons_of_mem a he)

end Packs

/-! ## Tilings -/

/-- The boxes pack `b` and have all its points between them. -/
structure Tiles (parts : List Box) (b : Box) : Prop extends Packs parts b where
  covers : ∀ p ∈ b, ∃ a ∈ parts, p ∈ a

section Tiles

variable {a b lower upper : Box} {parts before after : List Box} {axis : Nat}

theorem tiles_singleton (b : Box) : Tiles [b] b :=
  ⟨packs_singleton b.subset_refl, fun _ hp => ⟨b, List.mem_cons_self, hp⟩⟩

theorem tiles_bisectAxis (h : b.bisectAxis axis = .ok (lower, upper)) :
    Tiles [lower, upper] b := by
  refine ⟨packs_bisectAxis h, ?_⟩
  intro p hp
  rcases mem_halves_of_bisectAxis h hp with hlower | hupper
  · exact ⟨lower, by simp, hlower⟩
  · exact ⟨upper, by simp, hupper⟩

theorem Tiles.perm {parts' : List Box} (h : Tiles parts b) (hperm : parts.Perm parts') :
    Tiles parts' b := by
  refine ⟨h.toPacks.perm hperm, ?_⟩
  intro p hp
  obtain ⟨d, hd, hpd⟩ := h.covers p hp
  exact ⟨d, hperm.mem_iff.1 hd, hpd⟩

/-- One of the boxes can be replaced by boxes that tile it. -/
theorem Tiles.replace (h : Tiles (before ++ a :: after) b) (ha : Tiles parts a) :
    Tiles (before ++ (parts ++ after)) b := by
  refine ⟨h.toPacks.replace ha.toPacks, ?_⟩
  intro p hp
  obtain ⟨d, hd, hpd⟩ := h.covers p hp
  rcases List.mem_append.1 hd with hd | hd
  · exact ⟨d, List.mem_append_left _ hd, hpd⟩
  · rcases List.mem_cons.1 hd with rfl | hd
    · obtain ⟨e, he, hpe⟩ := ha.covers p hpd
      exact ⟨e, by simp [he], hpe⟩
    · exact ⟨d, by simp [hd], hpd⟩

end Tiles

end Box

end Paving
