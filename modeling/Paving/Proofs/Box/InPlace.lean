import Paving.Box.InPlace
import Paving.Proofs.Box.Components

/-!
# What calls in place leave

A call in place looks for what can go wrong first, and changes the box only then. What it answers
and leaves is therefore what the operation on the box as a value gives (`on_set`, `on_interAxis`,
`on_inter`), and where that fails the box is left as it was (`outcome`).

The intersection of two boxes goes from axis to axis and stops early. It keeps the components
that have been intersected so far in front of those that have not (`on_interFrom`), and the box
is not empty until it stops, so that stopping leaves what all the axes together would have left.
-/

set_option autoImplicit false

namespace Paving

namespace InPlace

/-! ## Running a call -/

section Runs

variable {α β : Type}

@[simp] theorem on_pure (a : α) (b : Box) : (pure a : InPlace α).on b = (.ok a, b) :=
  rfl

@[simp] theorem on_throw (e : BoxError) (b : Box) :
    (throw e : InPlace α).on b = (.error e, b) :=
  rfl

@[simp] theorem on_get (b : Box) : (get : InPlace Box).on b = (.ok b, b) :=
  rfl

@[simp] theorem on_modify (f : Box → Box) (b : Box) :
    (modify f : InPlace Unit).on b = (.ok (), f b) :=
  rfl

@[simp] theorem on_liftM (r : Except BoxError α) (b : Box) :
    (liftM r : InPlace α).on b = (r, b) :=
  rfl

/-- A call that fails ends there, and leaves what it has changed. -/
theorem on_bind (call : InPlace α) (f : α → InPlace β) (b : Box) :
    (call >>= f).on b = match call.on b with
      | (.ok a, left) => (f a).on left
      | (.error e, left) => (.error e, left) := by
  unfold on
  rw [ExceptT.run_bind, StateT.run_bind]
  rcases call.run.run b with ⟨answer, left⟩
  cases answer with
  | error e => rfl
  | ok a => rfl

theorem on_discard (call : InPlace α) (b : Box) :
    (discard call).on b = ((call.on b).1.map fun _ => (), (call.on b).2) := by
  show (call >>= fun _ => pure ()).on b = _
  rw [on_bind]
  rcases call.on b with ⟨answer, left⟩
  cases answer with
  | error e => rfl
  | ok a => rfl

/-- What stands in the place of `b` and is answered when an operation on boxes is carried out
there: a failure leaves `b`. -/
def outcome (b : Box) : Except BoxError (Box × α) → Except BoxError α × Box
  | .ok (r, a) => (.ok a, r)
  | .error e => (.error e, b)

theorem on_onAxis (axis : Nat) (kept : α) (change : InPlace α) (b : Box) :
    (onAxis axis kept change).on b =
      if b.isEmpty then (.ok kept, b)
      else if axis < b.dim then change.on b else (.error (.noSuchAxis axis b.dim), b) := by
  simp only [onAxis, on_bind, on_get]
  split
  case isTrue => exact on_pure kept b
  case isFalse =>
    split
    case isTrue haxis => rw [if_neg (Nat.not_lt.2 haxis), on_bind, on_throw]
    case isFalse haxis => rw [if_pos (Nat.not_le.1 haxis)]

theorem on_set (axis : Nat) (x : Interval) (b : Box) :
    (set axis x).on b = outcome b ((b.set axis x).map fun r => (r, ())) := by
  rw [set, on_onAxis, on_modify, Box.set]
  split
  case isTrue => rfl
  case isFalse => split <;> rfl

theorem on_interAxis (axis : Nat) (x : Interval) (b : Box) :
    (interAxis axis x).on b = outcome b (b.interAxis axis x) := by
  have hchange : (do modify (·.narrow axis x); return !(← get).isEmpty : InPlace Bool).on b =
      (.ok (!(b.narrow axis x).isEmpty), b.narrow axis x) := by
    simp only [on_bind, on_modify, on_get, on_pure]
  rw [interAxis, on_onAxis, hchange, Box.interAxis]
  split
  case isTrue => rfl
  case isFalse => split <;> rfl

end Runs

/-! ## Axis by axis -/

/-- The component on an axis decides about the whole box. -/
theorem on_interAxis_of_getElem? {axis : Nat} {own : Interval} {b : Box} (x : Interval)
    (hb : b.isEmpty = false) (hown : b.components[axis]? = some own) :
    (interAxis axis x).on b =
      (.ok (!(own.inter x).isEmpty), b.replace axis (own.inter x)) := by
  have haxis : axis < b.dim := (List.getElem?_eq_some_iff.1 hown).1
  rw [on_interAxis, Box.interAxis, hb, if_neg Bool.false_ne_true, if_pos haxis,
    Box.narrow_eq_replace x hown]
  show (Except.ok (!(b.replace axis (own.inter x)).isEmpty), _) = _
  rw [Box.isEmpty_replace _ hb haxis]

/-- The axes in front have been intersected, and those behind have not. As long as the loop goes
on no component is empty, and as soon as one is, the box is the one that all the axes give. -/
theorem on_interFrom (done todo xs : List Interval) {b : Box} (hb : b.isEmpty = false)
    (hcomponents : b.components = done ++ todo) (hlength : todo.length = xs.length)
    (hne : done ++ List.zipWith Interval.inter todo xs ≠ []) :
    (interFrom done.length xs).on b =
      (.ok (!(Box.ofComponents _ hne).isEmpty), Box.ofComponents _ hne) := by
  induction xs generalizing done todo b with
  | nil =>
    obtain rfl := List.length_eq_zero_iff.1 hlength
    -- All axes are in front, and none of them was emptied.
    have hall : Box.ofComponents _ hne = b := by
      refine Box.ext_components ?_
      rw [hcomponents]
      refine Box.components_ofComponents hne fun x hx => ?_
      rw [Box.isEmpty_of_mem_components (hcomponents ▸ hx), hb]
    rw [hall, hb]
    rfl
  | cons x xs ih =>
    obtain ⟨own, todo, rfl⟩ := List.exists_cons_of_length_eq_add_one hlength
    have hown : b.components[done.length]? = some own := by
      rw [hcomponents, List.getElem?_append_right (Nat.le_refl _), Nat.sub_self]
      rfl
    have haxis : done.length < b.dim := (List.getElem?_eq_some_iff.1 hown).1
    rw [interFrom, on_bind, on_interAxis_of_getElem? x hb hown]
    cases hmet : (own.inter x).isEmpty with
    | true =>
      -- Both boxes are empty, whatever the axes that are passed over hold.
      have hall : (Box.ofComponents _ hne).isEmpty = true := by
        rw [Box.isEmpty_ofComponents]
        simp [hmet]
      have hstop : b.replace done.length (own.inter x) = Box.ofComponents _ hne := by
        refine Box.eq_of_isEmpty ?_ ((Box.isEmpty_replace _ hb haxis).trans hmet) hall
        rw [Box.dim_replace, Box.dim, hcomponents, Box.dim, Box.length_ofComponents]
        simpa using Nat.le_of_eq (Nat.succ.inj hlength)
      rw [hstop, hall]
      rfl
    | false =>
      -- The axis joins those in front.
      have hnext : (b.replace done.length (own.inter x)).components =
          done ++ [own.inter x] ++ todo := by
        rw [Box.components_replace hb haxis, hmet, if_neg Bool.false_ne_true, hcomponents]
        simp
      have hgo := ih (done ++ [own.inter x]) todo ((Box.isEmpty_replace _ hb haxis).trans hmet)
        hnext (Nat.succ.inj hlength) (by simp)
      simpa using hgo

/-- Going from axis to axis and stopping at the first one that empties the box gives the box and
the flag that the intersection of all components gives. -/
theorem on_inter (a b : Box) : (inter b).on a = outcome a (a.inter b) := by
  by_cases hdim : b.dim = a.dim
  · rw [Box.inter_of_dim_eq hdim.symm]
    have hdims := Box.dim_combine Interval.inter hdim.symm
    simp only [inter, on_bind, on_get, on_liftM, Box.checkDim, if_pos hdim]
    cases hb : b.isEmpty with
    | true =>
      have hmet := Box.isEmpty_combine_inter (.inr hb : a.isEmpty = true ∨ b.isEmpty = true)
      have hleft : a.toEmpty = Box.combine Interval.inter a b :=
        Box.eq_of_isEmpty (a.toEmpty_subset.1.trans hdims.symm) a.isEmpty_toEmpty hmet
      rw [hmet, ← hleft]
      rfl
    | false =>
      rw [if_neg Bool.false_ne_true]
      cases ha : a.isEmpty with
      | true =>
        have hmet := Box.isEmpty_combine_inter (.inl ha : a.isEmpty = true ∨ b.isEmpty = true)
        obtain ⟨y, ys, hys⟩ := List.exists_cons_of_ne_nil b.nonempty
        rw [← Box.eq_of_isEmpty hdims.symm ha hmet, hys, interFrom, on_bind, on_interAxis,
          Box.interAxis, if_pos ha, ha]
        rfl
      | false => exact on_interFrom [] _ _ ha rfl hdim.symm _
  · simp only [inter, on_bind, on_get, on_liftM, Box.inter, Box.checkDim, if_neg hdim]
    rfl

end InPlace

end Paving
