import Paving.Proofs.Box.InPlace
import Paving.Proofs.Constraint

/-!
# Histories of boxes

A box is built (`Built`), changed in place (`Update`) and taken apart or combined into new boxes
(`Derivation`), in any order. `Descends` collects what these calls lead to. Every call keeps the
dimension (`dim_leaves`, `dim_of_results`), so all descendants of a box have its dimension. A
call in place can fail in two ways: it reports an operand of another dimension (`Refused`), or it
asks for a component that is not there, which is no answer but the end of the calling program
(`OffAxis`). Both are found out before anything is changed, so the box is left as it was.

That either all components of a box are empty or none is holds of every box there is
(`consistent`), whether or not a call has to empty components for it. `Direct` says that the
calls do not have to, or need to look at the changed component only.
-/

set_option autoImplicit false

namespace Paving

namespace Box

/-! ## Calls -/

/-- The ways to build a box, with the number of components that are asked for. -/
inductive Built : Nat → Box → Prop
  | all {n : Nat} {b : Box} (h : Box.all n = .ok b) : Built n b
  | filled {n : Nat} {x : Interval} {b : Box} (h : Box.filled n x = .ok b) : Built n b
  | ofIntervals {xs : List Interval} {b : Box} (h : Box.ofIntervals xs = .ok b) :
      Built xs.length b
  | ofBounds {bounds : List (Binary64 × Binary64)} {b : Box} (h : Box.ofBounds bounds = .ok b) :
      Built bounds.length b

/-- A call that changes a box in place. -/
inductive Update where
  | set (axis : Nat) (x : Interval)
  | interAxis (axis : Nat) (x : Interval)
  | inter (other : Box)
  | toEmpty
  | project (e : Expr) (y : Interval)
  | contract (k : Constraint) (hk : k.Provided)

namespace Update

/-- The call on a box in its place, without what it says of the box. -/
def call : Update → InPlace Unit
  | set axis x => InPlace.set axis x
  | interAxis axis x => discard (InPlace.interAxis axis x)
  | inter other => discard (InPlace.inter other)
  | toEmpty => InPlace.toEmpty
  | project e y => discard (InPlace.apply fun b => e.project b y)
  | contract k _ => discard (InPlace.apply k.contract)

/-- Whether a call on a box succeeds, or why it fails. -/
def answer (u : Update) (b : Box) : Except BoxError Unit :=
  (u.call.on b).1

/-- What stands in the place of a box after a call. -/
def leaves (u : Update) (b : Box) : Box :=
  (u.call.on b).2

/-- The call answers that its operand has another dimension than the box. -/
def Refused (b : Box) : Update → BoxError → Prop
  | inter other, e => other.dim ≠ b.dim ∧ e = .dimensionMismatch b.dim other.dim
  | _, _ => False

/-- The call asks for a component that the box does not have, and the calling program stops. An
empty box has nothing to change, and the component is not looked for. -/
def OffAxis (b : Box) : Update → BoxError → Prop
  | set axis _, e => (b.isEmpty = false ∧ b.dim ≤ axis) ∧ e = .noSuchAxis axis b.dim
  | interAxis axis _, e => (b.isEmpty = false ∧ b.dim ≤ axis) ∧ e = .noSuchAxis axis b.dim
  | _, _ => False

/-- The box that a call makes of a box, or why it fails. -/
def result (u : Update) (b : Box) : Except BoxError Box :=
  match u with
  | set axis x => b.set axis x
  | interAxis axis x => (b.interAxis axis x).map Prod.fst
  | inter other => (b.inter other).map Prod.fst
  | toEmpty => .ok b.toEmpty
  | project e y => .ok (e.project b y).1
  | contract k _ => .ok (k.contract b).1

end Update

/-- A call that makes new boxes of a box. -/
inductive Derivation where
  | hull (other : Box)
  | hullOf (other : Box)
  | mid
  | bisect
  | bisectAxis (axis : Nat)
  | bisectAt (axis : Nat) (point : Binary64)

/-- The boxes that a call makes of a box, or why it fails. -/
def Derivation.results (call : Derivation) (b : Box) : Except BoxError (List Box) :=
  match call with
  | hull other => (b.hull other).map fun r => [r]
  | hullOf other => (other.hull b).map fun r => [r]
  | mid => b.mid.map fun r => [r]
  | bisect => b.bisect.map fun halves => [halves.1, halves.2]
  | bisectAxis axis => (b.bisectAxis axis).map fun halves => [halves.1, halves.2]
  | bisectAt axis point => (b.bisectAt axis point).map fun halves => [halves.1, halves.2]

/-- The boxes that calls lead to from a box. -/
inductive Descends (origin : Box) : Box → Prop
  | start : Descends origin origin
  | update {b : Box} (h : Descends origin b) (u : Update) : Descends origin (u.leaves b)
  | derive {b r : Box} {rs : List Box} (h : Descends origin b) (call : Derivation)
      (hresults : call.results b = .ok rs) (hr : r ∈ rs) : Descends origin r

/-! ## What one call keeps -/

section Calls

variable {b r : Box}

/-- A call in place does what the operation on the box as a value does, and leaves the box as it
was where that fails. -/
theorem Update.on_call (u : Update) (b : Box) :
    u.call.on b = InPlace.outcome b ((u.result b).map fun r => (r, ())) := by
  cases u with
  | set axis x => exact InPlace.on_set axis x b
  | interAxis axis x =>
    rw [call, InPlace.on_discard, InPlace.on_interAxis, result]
    cases b.interAxis axis x <;> rfl
  | inter other =>
    rw [call, InPlace.on_discard, InPlace.on_inter, result]
    cases b.inter other <;> rfl
  | toEmpty => rfl
  | project e y => rfl
  | contract k hk => rfl

theorem Update.leaves_of_ok {u : Update} (h : u.result b = .ok r) : u.leaves b = r := by
  rw [leaves, on_call, h]
  rfl

theorem Update.leaves_of_error {u : Update} {e : BoxError} (h : u.result b = .error e) :
    u.leaves b = b := by
  rw [leaves, on_call, h]
  rfl

theorem Update.answer_eq_error {u : Update} {e : BoxError} :
    u.answer b = .error e ↔ u.result b = .error e := by
  rw [answer, on_call]
  cases u.result b with
  | error cause => simp [InPlace.outcome, Except.map]
  | ok r => simp [InPlace.outcome, Except.map]

/-- A replaced component can be any; every other call in place only removes points. -/
theorem Update.replaced_or_subset (u : Update) (b : Box) :
    (b.isEmpty = false ∧ ∃ axis x, u.leaves b = b.replace axis x) ∨ u.leaves b ⊆ b := by
  cases hr : u.result b with
  | error e =>
    rw [leaves_of_error hr]
    exact .inr b.subset_refl
  | ok r =>
    rw [leaves_of_ok hr]
    cases u with
    | set axis x =>
      rcases set_eq_ok hr with ⟨-, rfl⟩ | ⟨hb, -, rfl⟩
      · exact .inr r.subset_refl
      · exact .inl ⟨hb, axis, x, rfl⟩
    | interAxis axis x =>
      right
      obtain ⟨met, hmet, rfl⟩ := map_eq_ok hr
      rcases interAxis_eq_ok hmet with ⟨-, heq⟩ | ⟨-, -, heq⟩
      · rw [heq]
        exact b.subset_refl
      · rw [heq]
        exact b.narrow_subset axis x
    | inter other =>
      right
      obtain ⟨met, hmet, rfl⟩ := map_eq_ok hr
      exact inter_subset hmet
    | toEmpty =>
      cases hr
      exact .inr b.toEmpty_subset
    | project e y =>
      cases hr
      exact .inr (e.project_subset b y)
    | contract k hk =>
      cases hr
      exact .inr (hk.narrows b)

theorem dim_leaves (u : Update) (b : Box) : (u.leaves b).dim = b.dim := by
  rcases u.replaced_or_subset b with ⟨-, axis, x, heq⟩ | hsubset
  · rw [heq, dim_replace]
  · exact hsubset.1

/-- An empty box stays empty. -/
theorem isEmpty_leaves (u : Update) (hb : b.isEmpty = true) : (u.leaves b).isEmpty = true := by
  rcases u.replaced_or_subset b with ⟨hne, -⟩ | hsubset
  · rw [hb] at hne
    cases hne
  · exact isEmpty_of_subset hsubset hb

/-- Changing one component fails only where the box has no such component. -/
theorem onAxis_eq_error_iff {α : Type} {axis : Nat} {kept changed : α} {e : BoxError} :
    (if b.isEmpty = true then .ok kept else if axis < b.dim then .ok changed
      else .error (.noSuchAxis axis b.dim) : Except BoxError α) = .error e ↔
      (b.isEmpty = false ∧ b.dim ≤ axis) ∧ e = .noSuchAxis axis b.dim := by
  cases hb : b.isEmpty with
  | true => simp
  | false =>
    by_cases haxis : axis < b.dim
    · simp [haxis]
    · simp [haxis, Nat.not_lt.1 haxis, eq_comm]

/-- A call in place fails if it is refused or asks for a component that is not there. -/
theorem answer_eq_error_iff (u : Update) (b : Box) (e : BoxError) :
    u.answer b = .error e ↔ u.Refused b e ∨ u.OffAxis b e := by
  rw [Update.answer_eq_error]
  cases u with
  | set axis x =>
    rw [Update.result, Box.set]
    exact onAxis_eq_error_iff.trans (iff_of_eq (false_or _)).symm
  | interAxis axis x =>
    rw [Update.result, map_eq_error_iff, Box.interAxis]
    exact onAxis_eq_error_iff.trans (iff_of_eq (false_or _)).symm
  | inter other =>
    rw [Update.result, map_eq_error_iff]
    exact inter_eq_error_iff.trans (iff_of_eq (or_false _)).symm
  | toEmpty => simp [Update.result, Update.Refused, Update.OffAxis]
  | project e y => simp [Update.result, Update.Refused, Update.OffAxis]
  | contract k hk => simp [Update.result, Update.Refused, Update.OffAxis]

theorem dim_of_hull {a : Box} (h : a.hull b = .ok r) : r.dim = a.dim ∧ r.dim = b.dim := by
  obtain ⟨hdim, hr⟩ := components_hull h
  suffices hra : r.dim = a.dim from ⟨hra, hra.trans hdim.symm⟩
  rcases hr with ⟨-, rfl⟩ | ⟨-, rfl⟩ | hr
  · exact hdim
  · rfl
  · have hlength : b.components.length = a.components.length := hdim
    rw [dim, hr, List.length_zipWith, hlength, Nat.min_self]
    rfl

theorem dim_of_mid (h : b.mid = .ok r) : r.dim = b.dim := by
  obtain ⟨ms, hms, hr⟩ := components_mid h
  have hlength := congrArg List.length hms
  rw [List.length_map, List.length_map] at hlength
  rw [dim, hr, List.length_map, ← hlength]
  rfl

theorem dim_of_bisectAt {axis : Nat} {point : Binary64} {halves : Box × Box}
    (h : b.bisectAt axis point = .ok halves) :
    ∀ half ∈ [halves.1, halves.2], half.dim = b.dim := by
  obtain ⟨x, xl, xu, -, -, hlower, hupper⟩ := components_bisectAt h
  rw [List.forall_mem_cons, List.forall_mem_singleton]
  constructor
  · rw [dim, hlower, List.length_set]
    rfl
  · rw [dim, hupper, List.length_set]
    rfl

theorem dim_of_results {call : Derivation} {rs : List Box} (h : call.results b = .ok rs) :
    ∀ r ∈ rs, r.dim = b.dim := by
  cases call with
  | hull other =>
    obtain ⟨r, hr, rfl⟩ := map_eq_ok h
    exact List.forall_mem_singleton.2 (dim_of_hull hr).1
  | hullOf other =>
    obtain ⟨r, hr, rfl⟩ := map_eq_ok h
    exact List.forall_mem_singleton.2 (dim_of_hull hr).2
  | mid =>
    obtain ⟨r, hr, rfl⟩ := map_eq_ok h
    exact List.forall_mem_singleton.2 (dim_of_mid hr)
  | bisect =>
    obtain ⟨halves, hhalves, rfl⟩ := map_eq_ok h
    obtain ⟨axis, point, hat⟩ := bisectAt_of_bisect hhalves
    exact dim_of_bisectAt hat
  | bisectAxis axis =>
    obtain ⟨halves, hhalves, rfl⟩ := map_eq_ok h
    obtain ⟨point, hat⟩ := bisectAt_of_bisectAxis hhalves
    exact dim_of_bisectAt hat
  | bisectAt axis point =>
    obtain ⟨halves, hhalves, rfl⟩ := map_eq_ok h
    exact dim_of_bisectAt hhalves

end Calls

/-! ## What a history keeps -/

theorem dim_of_built {n : Nat} {b : Box} (h : Built n b) : b.dim = n := by
  cases h with
  | all h => rw [dim, components_filled h, List.length_replicate]
  | filled h => rw [dim, components_filled h, List.length_replicate]
  | ofIntervals h => exact dim_of_ofIntervals h
  | ofBounds h =>
    obtain ⟨xs, hxs, h⟩ := bind_eq_ok h
    have hlength := congrArg List.length (mapM_eq_ok_iff.1 (BoxError.lift_eq_ok hxs))
    rw [List.length_map, List.length_map] at hlength
    rw [hlength]
    exact dim_of_ofIntervals h

theorem dim_of_descends {origin b : Box} (h : Descends origin b) : b.dim = origin.dim := by
  induction h with
  | start => rfl
  | update _ u ih => rw [dim_leaves, ih]
  | derive _ call hresults hr ih => rw [dim_of_results hresults _ hr, ih]

/-- A box has a component, its components are intervals, all of them are empty or none is, and
the first one tells which. -/
structure Consistent (b : Box) : Prop where
  dim_pos : 1 ≤ b.dim
  valid : ∀ x ∈ b.components, (x.lb = Binary64.negInf ∧ x.ub = Binary64.negInf) ∨
    (x.lb.isNaN = false ∧ x.ub.isNaN = false ∧ AdmissibleBounds x.lb x.ub)
  uniform : (∀ x ∈ b.components, x.isEmpty = true) ∨ ∀ x ∈ b.components, x.isEmpty = false
  isEmpty_iff : b.isEmpty = true ↔ ∃ x ∈ b.components, x.isEmpty = true

theorem consistent (b : Box) : b.Consistent where
  dim_pos := b.one_le_dim
  valid := by
    intro x hx
    rcases x.valid with hempty | hadm
    · exact .inl hempty
    · exact .inr ⟨hadm.1.1, hadm.1.2.1, hadm⟩
  uniform := by
    cases hb : b.isEmpty with
    | true => exact .inl fun x hx => (isEmpty_of_mem_components hx).trans hb
    | false => exact .inr fun x hx => (isEmpty_of_mem_components hx).trans hb
  isEmpty_iff := by
    constructor
    · intro hb
      exact ⟨_, List.head_mem b.nonempty, hb⟩
    · rintro ⟨x, hx, hempty⟩
      rwa [isEmpty_of_mem_components hx] at hempty

/-- What calls on a box compute is what their results are made of. A call that changes one
component looks whether that one is empty, and at no other; a call that makes new boxes looks
at none. -/
structure Direct (b : Box) : Prop where
  set : ∀ (axis : Nat) (x : Interval) (r : Box), b.isEmpty = false → b.set axis x = .ok r →
    r.components = if x.isEmpty then b.components.map fun _ => Interval.empty
      else b.components.set axis x
  interAxis : ∀ (axis : Nat) (x : Interval) (met : Box × Bool), b.isEmpty = false →
    b.interAxis axis x = .ok met → ∃ own, b.components[axis]? = some own ∧
      met.1.components = if (own.inter x).isEmpty then b.components.map fun _ => Interval.empty
        else b.components.set axis (own.inter x)
  hull : ∀ other r : Box, b.hull other = .ok r →
    b.isEmpty = true ∧ r = other ∨ other.isEmpty = true ∧ r = b ∨
      r.components = List.zipWith Interval.hull b.components other.components
  mid : ∀ r : Box, b.mid = .ok r → ∃ ms : List Binary64,
    b.components.map Interval.mid = ms.map .ok ∧
      r.components = ms.map fun m => Interval.ofBounds m m
  bisectAt : ∀ (axis : Nat) (point : Binary64) (lower upper : Box),
    b.bisectAt axis point = .ok (lower, upper) →
      ∃ x xl xu, b.components[axis]? = some x ∧ x.bisectAt point = .ok (xl, xu) ∧
        lower.components = b.components.set axis xl ∧
        upper.components = b.components.set axis xu

theorem direct (b : Box) : b.Direct where
  set := by
    intro axis x r hb h
    rcases set_eq_ok h with ⟨he, -⟩ | ⟨-, haxis, rfl⟩
    · rw [hb] at he
      cases he
    · exact components_replace hb haxis
  interAxis := by
    intro axis x met hb h
    rcases interAxis_eq_ok h with ⟨he, -⟩ | ⟨-, haxis, heq⟩
    · rw [hb] at he
      cases he
    · have hown := List.getElem?_eq_getElem haxis
      refine ⟨_, hown, ?_⟩
      rw [heq, narrow_eq_replace x hown, components_replace hb haxis]
  hull := fun _ _ h => (components_hull h).2
  mid := fun _ h => components_mid h
  bisectAt := fun _ _ _ _ h => components_bisectAt h

/-- Whatever is done with a box that was built with `n` components, and with the boxes that are
made of it, each of them has `n` components, is consistent and is made of what the calls
compute. A call in place keeps an empty box empty. It answers with an error exactly where the
operand has another dimension, it is broken off exactly where the box has no such component, and
either way it leaves the box as it was. -/
theorem histories_keep_boxes {n : Nat} {origin b : Box} (hbuilt : Built n origin)
    (h : Descends origin b) :
    (1 ≤ b.dim ∧ b.dim = origin.dim ∧ origin.dim = n) ∧ b.Consistent ∧ b.Direct ∧
      ∀ u : Update,
        (b.isEmpty = true → (u.leaves b).isEmpty = true) ∧
        ∀ e : BoxError, (u.answer b = .error e ↔ u.Refused b e ∨ u.OffAxis b e) ∧
          (u.answer b = .error e → u.leaves b = b) := by
  refine ⟨⟨b.one_le_dim, dim_of_descends h, dim_of_built hbuilt⟩, b.consistent, b.direct, ?_⟩
  intro u
  refine ⟨isEmpty_leaves u, fun e => ⟨answer_eq_error_iff u b e, ?_⟩⟩
  intro he
  exact Update.leaves_of_error (Update.answer_eq_error.1 he)

/-- The box `[-1, 1] × [-1, 1]`. -/
def unitSquare : Box :=
  ofComponents (List.replicate 2 (Interval.ofBounds ⟨0xbff0000000000000⟩ ⟨0x3ff0000000000000⟩))
    (List.cons_ne_nil _ _)

/-- Emptying the second component of the square empties the box, which a new first component
does not change, and the hull with the square makes a square of it again. The square has no third
component, and asking for it changes nothing. -/
theorem unitSquare_emptied :
    (((Update.set 1 Interval.empty).leaves unitSquare).isEmpty = true ∧
      ((Update.set 0 Interval.zero).leaves
        ((Update.set 1 Interval.empty).leaves unitSquare)).isEmpty = true ∧
      ((Update.set 1 Interval.empty).leaves unitSquare).dim = 2 ∧ unitSquare.Consistent) ∧
    (Update.set 2 Interval.zero).answer unitSquare = .error (.noSuchAxis 2 2) ∧
      (Update.set 2 Interval.zero).leaves unitSquare = unitSquare := by
  have hbuilt : Built 2 unitSquare := .filled rfl
  have hemptied : Descends unitSquare ((Update.set 1 Interval.empty).leaves unitSquare) :=
    .update .start _
  have hhull : (Derivation.hull unitSquare).results
      ((Update.set 1 Interval.empty).leaves unitSquare) = .ok [unitSquare] := rfl
  have hagain : Descends unitSquare unitSquare :=
    .derive hemptied _ hhull (List.mem_singleton.2 rfl)
  have hempty : ((Update.set 1 Interval.empty).leaves unitSquare).isEmpty = true := by
    decide +kernel
  obtain ⟨⟨-, hdim, hn⟩, -, -, hupdates⟩ := histories_keep_boxes hbuilt hemptied
  obtain ⟨-, hconsistent, -, hcalls⟩ := histories_keep_boxes hbuilt hagain
  have hfails := (hcalls (.set 2 Interval.zero)).2 (.noSuchAxis 2 2)
  have hanswer := hfails.1.2 (.inr ⟨⟨by decide +kernel, by decide⟩, rfl⟩)
  exact ⟨⟨hempty, (hupdates _).1 hempty, hdim.trans hn, hconsistent⟩, hanswer, hfails.2 hanswer⟩

end Box

end Paving
