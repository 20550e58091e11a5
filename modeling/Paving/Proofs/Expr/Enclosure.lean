import Paving.Expr.Projection
import Paving.Proofs.Box.Points
import Paving.Proofs.Interval.Enclosure

/-!
# Exact values of expressions

`Denotes p e v` says that the expression `e` can have the real value `v` at the
point `p`: operators are the exact ones, a constant stands for any of its points,
and a variable without a coordinate for any real number. A factor that is not finite
has no value, nor has the root of a negative number.

Evaluation over a box encloses all values at its points (`mem_eval`), and projection
onto a target keeps the points with a value in the target (`keeps_project`), provided
that no rounding on the way is misled. A projection is followed node by node:
`reached` lists the nodes it comes to, and each node has its own roundings. The
roundings are also listed as a whole, by recursion on the expression
(`rangeRoundings`, `projectRoundings`).
-/

set_option autoImplicit false

namespace Paving

namespace Expr

/-- The expression can have the value at the point. -/
inductive Denotes (p : List ℝ) : Expr → ℝ → Prop
  | coordinate {axis : Nat} {v : ℝ} (h : p[axis]? = some v) : Denotes p (var axis) v
  | free {axis : Nat} (v : ℝ) (h : p[axis]? = none) : Denotes p (var axis) v
  | const {c : Interval} {v : ℝ} (h : v ∈ c) : Denotes p (const c) v
  | neg {e : Expr} {v : ℝ} (h : Denotes p e v) : Denotes p (neg e) (-v)
  | add {e₁ e₂ : Expr} {v₁ v₂ : ℝ} (h₁ : Denotes p e₁ v₁) (h₂ : Denotes p e₂ v₂) :
      Denotes p (add e₁ e₂) (v₁ + v₂)
  | sub {e₁ e₂ : Expr} {v₁ v₂ : ℝ} (h₁ : Denotes p e₁ v₁) (h₂ : Denotes p e₂ v₂) :
      Denotes p (sub e₁ e₂) (v₁ - v₂)
  | scale {a : Binary64} {e : Expr} {v : ℝ} (ha : a.isFinite = true) (h : Denotes p e v) :
      Denotes p (scale a e) (a.toReal * v)
  | sqr {e : Expr} {v : ℝ} (h : Denotes p e v) : Denotes p (sqr e) (v * v)
  | sqrt {e : Expr} {v : ℝ} (h : Denotes p e v) (h0 : 0 ≤ v) : Denotes p (sqrt e) (Real.sqrt v)

theorem denotes_value (p : List ℝ) {v : Binary64} (hv : v.isFinite = true) :
    Denotes p (value v) v.toReal :=
  .const (Interval.toReal_mem_ofBounds hv)

/-! ## Evaluation -/

/-- The roundings of an evaluation over a list of components. -/
def rangeRoundings (xs : List Interval) : Expr → List Rounding
  | var _ => []
  | const _ => []
  | neg e => e.rangeRoundings xs
  | add e₁ e₂ => e₁.rangeRoundings xs ++ e₂.rangeRoundings xs ++
      Interval.addRoundings (e₁.range xs) (e₂.range xs)
  | sub e₁ e₂ => e₁.rangeRoundings xs ++ e₂.rangeRoundings xs ++
      Interval.subRoundings (e₁.range xs) (e₂.range xs)
  | scale a e => e.rangeRoundings xs ++ Interval.scaleRoundings (e.range xs) a
  | sqr e => e.rangeRoundings xs ++ Interval.sqrRoundings (e.range xs)
  | sqrt e => e.rangeRoundings xs ++ Interval.sqrtRoundings (e.range xs)

/-- The roundings of an evaluation over a box. -/
def evalRoundings (e : Expr) (b : Box) : List Rounding :=
  e.rangeRoundings b.components

section Evaluation

variable {e : Expr} {b : Box} {p : List ℝ} {v : ℝ}

/-- A value at a point of the box is a point of the range. -/
theorem mem_range (hp : p ∈ b) (hv : Denotes p e v)
    (h : Reliable (e.rangeRoundings b.components)) : v ∈ e.range b.components := by
  induction hv with
  | @coordinate axis v hcoordinate =>
    -- A point has as many coordinates as the box has components.
    have haxis : axis < b.components.length := by
      rw [← hp.1]
      exact (List.getElem?_eq_some_iff.1 hcoordinate).1
    have hcomponent := List.getElem?_eq_getElem haxis
    rw [range, hcomponent]
    exact hp.2 axis _ v hcomponent hcoordinate
  | @free axis v hfree =>
    have haxis : b.components[axis]? = none := by
      rw [List.getElem?_eq_none_iff] at hfree ⊢
      rw [← hp.1]
      exact hfree
    rw [range, haxis]
    exact Interval.mem_all v
  | const hc => exact hc
  | neg _ ih => exact Interval.mem_neg (ih h)
  | add _ _ ih₁ ih₂ =>
    rw [rangeRoundings, reliable_append, reliable_append] at h
    exact Interval.mem_add (ih₁ h.1.1) (ih₂ h.1.2) h.2
  | sub _ _ ih₁ ih₂ =>
    rw [rangeRoundings, reliable_append, reliable_append] at h
    exact Interval.mem_sub (ih₁ h.1.1) (ih₂ h.1.2) h.2
  | scale ha _ ih =>
    rw [rangeRoundings, reliable_append] at h
    exact Interval.mem_scale ha (ih h.1) h.2
  | sqr _ ih =>
    rw [rangeRoundings, reliable_append] at h
    exact Interval.mem_sqr (ih h.1) h.2
  | sqrt _ h0 ih =>
    rw [rangeRoundings, reliable_append] at h
    exact Interval.mem_sqrt (ih h.1) h0 h.2

/-- A value at a point of the box is a point of the enclosure. -/
theorem mem_eval (hp : p ∈ b) (hv : Denotes p e v) (h : Reliable (e.evalRoundings b)) :
    v ∈ e.eval b := by
  rw [eval, Box.not_isEmpty_of_mem hp]
  exact mem_range hp hv h

end Evaluation

/-! ## Nodes of a projection -/

/-- A node that a projection reaches, with the box and the target it is given. -/
structure Node where
  expr : Expr
  box : Box
  target : Interval

namespace Node

/-- What the target and the value of the node have in common. -/
def met (n : Node) : Interval :=
  n.target.inter (n.expr.eval n.box)

/-- The roundings of the backward operator at a node. -/
def backwardRoundings (n : Node) : List Rounding :=
  match n.expr with
  | var _ => []
  | const _ => []
  | neg _ => []
  | add e₁ e₂ => Interval.addBackwardRoundings n.met (e₁.eval n.box) (e₂.eval n.box)
  | sub e₁ e₂ => Interval.subBackwardRoundings n.met (e₁.eval n.box) (e₂.eval n.box)
  | scale a _ => Interval.unscaleRoundings n.met a
  | sqr _ => Interval.sqrtRoundings n.met
  | sqrt _ => Interval.sqrRoundings n.met

/-- The roundings at a node: those of its value, then those of the backward operator. -/
def roundings (n : Node) : List Rounding :=
  n.expr.evalRoundings n.box ++ n.backwardRoundings

end Node

/-- What is reached below a node: nothing if the box is empty or the target misses the
value of the node. -/
def handOn (b : Box) (met : Interval) (below : List Node) : List Node :=
  if b.isEmpty || met.isEmpty then [] else below

/-- The nodes that a projection reaches, each with the box and the target it is given.
The second of two arguments is given the box that the first one left, and is reached
only if that is not empty. -/
def reached : Expr → Box → Interval → List Node
  | var axis, b, y => [⟨var axis, b, y⟩]
  | const c, b, y => [⟨const c, b, y⟩]
  | neg e, b, y =>
    let met := y.inter (e.neg.eval b)
    ⟨e.neg, b, y⟩ :: handOn b met (e.reached b (Interval.negBackward met (e.eval b)))
  | add e₁ e₂, b, y =>
    let met := y.inter ((e₁.add e₂).eval b)
    let narrowed := Interval.addBackward met (e₁.eval b) (e₂.eval b)
    let first := e₁.project b narrowed.1
    ⟨e₁.add e₂, b, y⟩ :: handOn b met
      (e₁.reached b narrowed.1 ++ if first.2 then e₂.reached first.1 narrowed.2 else [])
  | sub e₁ e₂, b, y =>
    let met := y.inter ((e₁.sub e₂).eval b)
    let narrowed := Interval.subBackward met (e₁.eval b) (e₂.eval b)
    let first := e₁.project b narrowed.1
    ⟨e₁.sub e₂, b, y⟩ :: handOn b met
      (e₁.reached b narrowed.1 ++ if first.2 then e₂.reached first.1 narrowed.2 else [])
  | scale a e, b, y =>
    let met := y.inter ((e.scale a).eval b)
    ⟨e.scale a, b, y⟩ :: handOn b met (e.reached b (Interval.scaleBackward a met (e.eval b)))
  | sqr e, b, y =>
    let met := y.inter (e.sqr.eval b)
    ⟨e.sqr, b, y⟩ :: handOn b met (e.reached b (Interval.sqrBackward met (e.eval b)))
  | sqrt e, b, y =>
    let met := y.inter (e.sqrt.eval b)
    ⟨e.sqrt, b, y⟩ :: handOn b met (e.reached b (Interval.sqrtBackward met (e.eval b)))

/-! ## Projection -/

section Projection

variable {e : Expr} {b : Box} {y own : Interval} {p : List ℝ} {v : ℝ}

/-- A node whose value lies in the target hands on what target and value have in
common. -/
theorem keeps_meetTarget {descend : Interval → Box × Bool} (hp : p ∈ b) (hy : v ∈ y)
    (hown : v ∈ own) (h : Box.Keeps (descend (y.inter own)) p) :
    Box.Keeps (meetTarget b y own descend) p := by
  rw [meetTarget, Box.not_isEmpty_of_mem hp,
    Interval.not_isEmpty_of_mem (Interval.mem_inter hy hown)]
  exact h

theorem keeps_inTurn {first : Box × Bool} {second : Box → Box × Bool} (hfirst : Box.Keeps first p)
    (hsecond : Box.Keeps (second first.1) p) : Box.Keeps (inTurn first second) p := by
  rw [inTurn, hfirst.2]
  exact hsecond

theorem keeps_projectVar {axis : Nat} {target : Interval} (hp : p ∈ b)
    (h : ∀ t, p[axis]? = some t → t ∈ target) : Box.Keeps (projectVar axis b target) p := by
  rw [projectVar]
  split
  case isTrue =>
    have hmem := Box.mem_narrow hp h
    refine ⟨hmem, ?_⟩
    show (!(b.narrow axis target).isEmpty) = true
    rw [Box.not_isEmpty_of_mem hmem]
    rfl
  case isFalse => exact ⟨hp, rfl⟩

/-- Below a node whose value lies in the target everything is reached. -/
theorem handOn_eq (hp : p ∈ b) (hy : v ∈ y) (hown : v ∈ own) (below : List Node) :
    handOn b (y.inter own) below = below := by
  rw [handOn, Box.not_isEmpty_of_mem hp,
    Interval.not_isEmpty_of_mem (Interval.mem_inter hy hown)]
  rfl

/-- Projection keeps the points at which the expression has a value in the target, if
no rounding is misled at a node that it reaches with the point in its box. -/
theorem keeps_project (hv : Denotes p e v) (hp : p ∈ b) (hy : v ∈ y)
    (h : ∀ n ∈ e.reached b y, p ∈ n.box → Reliable n.roundings) :
    Box.Keeps (e.project b y) p := by
  induction hv generalizing b y with
  | @coordinate axis v hcoordinate =>
    have hown : v ∈ (var axis).eval b :=
      mem_eval hp (.coordinate hcoordinate) (List.forall_mem_nil _)
    refine keeps_meetTarget hp hy hown (keeps_projectVar hp ?_)
    intro t ht
    rw [hcoordinate] at ht
    cases ht
    exact Interval.mem_inter hy hown
  | @free axis v hfree =>
    have hown : v ∈ (var axis).eval b := mem_eval hp (.free v hfree) (List.forall_mem_nil _)
    refine keeps_meetTarget hp hy hown (keeps_projectVar hp ?_)
    intro t ht
    rw [hfree] at ht
    cases ht
  | const hc =>
    have hown := mem_eval hp (.const hc) (List.forall_mem_nil _)
    exact keeps_meetTarget hp hy hown ⟨hp, rfl⟩
  | neg hv ih =>
    rw [reached, List.forall_mem_cons] at h
    have hnode := (reliable_append.1 (h.1 hp)).1
    have hown := mem_eval hp (.neg hv) hnode
    rw [handOn_eq hp hy hown] at h
    refine keeps_meetTarget hp hy hown (ih hp ?_ h.2)
    exact Interval.mem_negBackward (mem_eval hp hv hnode) (Interval.mem_inter hy hown)
  | add hv₁ hv₂ ih₁ ih₂ =>
    rw [reached, List.forall_mem_cons] at h
    obtain ⟨hnode, hback⟩ := reliable_append.1 (h.1 hp)
    have hown := mem_eval hp (.add hv₁ hv₂) hnode
    rw [evalRoundings, rangeRoundings, reliable_append, reliable_append] at hnode
    have hargs := Interval.mem_addBackward (mem_eval hp hv₁ hnode.1.1) (mem_eval hp hv₂ hnode.1.2)
      (Interval.mem_inter hy hown) hback
    rw [handOn_eq hp hy hown, List.forall_mem_append] at h
    -- The second argument starts from the box that the first one left, which still has the point.
    have hkept := ih₁ hp hargs.1 h.2.1
    rw [hkept.2] at h
    exact keeps_meetTarget hp hy hown (keeps_inTurn hkept (ih₂ hkept.1 hargs.2 h.2.2))
  | sub hv₁ hv₂ ih₁ ih₂ =>
    rw [reached, List.forall_mem_cons] at h
    obtain ⟨hnode, hback⟩ := reliable_append.1 (h.1 hp)
    have hown := mem_eval hp (.sub hv₁ hv₂) hnode
    rw [evalRoundings, rangeRoundings, reliable_append, reliable_append] at hnode
    have hargs := Interval.mem_subBackward (mem_eval hp hv₁ hnode.1.1) (mem_eval hp hv₂ hnode.1.2)
      (Interval.mem_inter hy hown) hback
    rw [handOn_eq hp hy hown, List.forall_mem_append] at h
    have hkept := ih₁ hp hargs.1 h.2.1
    rw [hkept.2] at h
    exact keeps_meetTarget hp hy hown (keeps_inTurn hkept (ih₂ hkept.1 hargs.2 h.2.2))
  | scale ha hv ih =>
    rw [reached, List.forall_mem_cons] at h
    obtain ⟨hnode, hback⟩ := reliable_append.1 (h.1 hp)
    have hown := mem_eval hp (.scale ha hv) hnode
    rw [evalRoundings, rangeRoundings, reliable_append] at hnode
    rw [handOn_eq hp hy hown] at h
    refine keeps_meetTarget hp hy hown (ih hp ?_ h.2)
    exact Interval.mem_scaleBackward ha (mem_eval hp hv hnode.1) (Interval.mem_inter hy hown) hback
  | sqr hv ih =>
    rw [reached, List.forall_mem_cons] at h
    obtain ⟨hnode, hback⟩ := reliable_append.1 (h.1 hp)
    have hown := mem_eval hp (.sqr hv) hnode
    rw [evalRoundings, rangeRoundings, reliable_append] at hnode
    rw [handOn_eq hp hy hown] at h
    refine keeps_meetTarget hp hy hown (ih hp ?_ h.2)
    exact Interval.mem_sqrBackward (mem_eval hp hv hnode.1) (Interval.mem_inter hy hown) hback
  | sqrt hv h0 ih =>
    rw [reached, List.forall_mem_cons] at h
    obtain ⟨hnode, hback⟩ := reliable_append.1 (h.1 hp)
    have hown := mem_eval hp (.sqrt hv h0) hnode
    rw [evalRoundings, rangeRoundings, reliable_append] at hnode
    rw [handOn_eq hp hy hown] at h
    refine keeps_meetTarget hp hy hown (ih hp ?_ h.2)
    exact Interval.mem_sqrtBackward (mem_eval hp hv hnode.1) h0 (Interval.mem_inter hy hown) hback

end Projection

/-! ## All roundings of a projection -/

/-- The roundings of a projection onto a target: those of the node's own value, those
of the backward operator, and those of the projections of the arguments. -/
def projectRoundings : Expr → Box → Interval → List Rounding
  | var _, _, _ => []
  | const _, _, _ => []
  | neg e, b, y =>
    let target := y.inter (e.neg.eval b)
    e.evalRoundings b ++ e.projectRoundings b (Interval.negBackward target (e.eval b))
  | add e₁ e₂, b, y =>
    let target := y.inter ((e₁.add e₂).eval b)
    let narrowed := Interval.addBackward target (e₁.eval b) (e₂.eval b)
    (e₁.add e₂).evalRoundings b ++ Interval.addBackwardRoundings target (e₁.eval b) (e₂.eval b) ++
      (e₁.projectRoundings b narrowed.1 ++
        e₂.projectRoundings (e₁.project b narrowed.1).1 narrowed.2)
  | sub e₁ e₂, b, y =>
    let target := y.inter ((e₁.sub e₂).eval b)
    let narrowed := Interval.subBackward target (e₁.eval b) (e₂.eval b)
    (e₁.sub e₂).evalRoundings b ++ Interval.subBackwardRoundings target (e₁.eval b) (e₂.eval b) ++
      (e₁.projectRoundings b narrowed.1 ++
        e₂.projectRoundings (e₁.project b narrowed.1).1 narrowed.2)
  | scale a e, b, y =>
    let target := y.inter ((e.scale a).eval b)
    (e.scale a).evalRoundings b ++ Interval.unscaleRoundings target a ++
      e.projectRoundings b (Interval.scaleBackward a target (e.eval b))
  | sqr e, b, y =>
    let target := y.inter (e.sqr.eval b)
    e.sqr.evalRoundings b ++ Interval.sqrtRoundings target ++
      e.projectRoundings b (Interval.sqrBackward target (e.eval b))
  | sqrt e, b, y =>
    let target := y.inter (e.sqrt.eval b)
    e.sqrt.evalRoundings b ++ Interval.sqrRoundings target ++
      e.projectRoundings b (Interval.sqrtBackward target (e.eval b))

section Roundings

variable {e : Expr} {b : Box} {y : Interval} {n : Node} {p : List ℝ} {v : ℝ}

theorem mem_of_mem_handOn {met : Interval} {below : List Node} (h : n ∈ handOn b met below) :
    n ∈ below := by
  rw [handOn] at h
  split at h
  · cases h
  · exact h

/-- The roundings at a node that a projection reaches are roundings of the
projection. -/
theorem roundings_subset_projectRoundings (h : n ∈ e.reached b y) :
    n.roundings ⊆ e.projectRoundings b y := by
  induction e generalizing b y with
  | var _ | const _ =>
    rw [List.mem_singleton.1 h]
    exact List.Subset.refl _
  | neg e ih =>
    rcases List.mem_cons.1 h with rfl | hbelow
    · rw [Node.roundings, Node.backwardRoundings, List.append_nil]
      exact List.subset_append_left _ _
    · exact List.subset_append_of_subset_right _ (ih (mem_of_mem_handOn hbelow))
  | scale a e ih =>
    rcases List.mem_cons.1 h with rfl | hbelow
    · exact List.subset_append_left _ _
    · exact List.subset_append_of_subset_right _ (ih (mem_of_mem_handOn hbelow))
  | sqr e ih | sqrt e ih =>
    rcases List.mem_cons.1 h with rfl | hbelow
    · exact List.subset_append_left _ _
    · exact List.subset_append_of_subset_right _ (ih (mem_of_mem_handOn hbelow))
  | add e₁ e₂ ih₁ ih₂ | sub e₁ e₂ ih₁ ih₂ =>
    rcases List.mem_cons.1 h with rfl | hbelow
    · exact List.subset_append_left _ _
    · refine List.subset_append_of_subset_right _ ?_
      rcases List.mem_append.1 (mem_of_mem_handOn hbelow) with hfirst | hsecond
      · exact List.subset_append_of_subset_left _ (ih₁ hfirst)
      · split at hsecond
        · exact List.subset_append_of_subset_right _ (ih₂ hsecond)
        · cases hsecond

/-- Projection keeps the points at which the expression has a value in the
target. -/
theorem mem_project (hv : Denotes p e v) (hp : p ∈ b) (hy : v ∈ y)
    (h : Reliable (e.projectRoundings b y)) : Box.Keeps (e.project b y) p :=
  keeps_project hv hp hy fun _ hn _ r hr => h r (roundings_subset_projectRoundings hn hr)

end Roundings

end Expr

end Paving
