import Paving.Proofs.Interval.Reflection

/-!
# Moving one bound

`setLower` and `setUpper` take one bound from the caller and the other one from the interval, and
form the new interval from the two. On a non-empty interval they are mirror images of each other
(`setUpper_eq_neg_setLower`). The empty interval has two stored bounds as well, both at negative
infinity, and these are not each other's reflection. A new lower bound meets the stored upper
bound and the interval stays empty (`setLower_empty`); a new upper bound meets the stored lower
bound as if it were the end of a half-line, and the interval is no longer empty
(`setUpper_empty`).

`Setting` is a call of either kind and `Setting.run` a sequence of them. An empty interval stays
empty throughout a sequence exactly if no call of it revives the empty interval
(`run_empty_iff`).
-/

set_option autoImplicit false

namespace Paving

namespace Binary64

/-- Two changes of the sign give back the word, NaNs and zeros included. -/
protected theorem neg_neg (x : Binary64) : - -x = x := by
  apply eq_of_negative_eq_of_index_eq
  · rw [negative_neg, negative_neg, Bool.not_not]
  · rw [index_neg, index_neg]

end Binary64

namespace Interval

open Binary64

/-! ## One call -/

/-- A call that replaces one bound. -/
inductive Setting where
  | lower (v : Binary64)
  | upper (v : Binary64)
deriving DecidableEq

namespace Setting

/-- What the call makes of an interval. -/
def apply : Setting → Interval → Interval
  | lower v, x => x.setLower v
  | upper v, x => x.setUpper v

/-- The call makes the empty interval a half-line. -/
def Revives : Setting → Prop
  | lower _ => False
  | upper v => negInf < v

instance (s : Setting) : Decidable s.Revives :=
  match s with
  | lower _ => inferInstanceAs (Decidable False)
  | upper v => inferInstanceAs (Decidable (negInf < v))

/-- The interval after a sequence of calls. -/
def run (calls : List Setting) (x : Interval) : Interval :=
  calls.foldl (fun x s => s.apply x) x

end Setting

section OneCall

variable {x : Interval} {v : Binary64}

/-- The upper bound is set as the lower bound of the reflection is. -/
theorem setUpper_eq_neg_setLower (hx : x.isEmpty = false) (v : Binary64) :
    x.setUpper v = -((-x).setLower (-v)) := by
  rw [setUpper, setLower, neg_ofBounds, Binary64.neg_neg, neg_of_not_isEmpty hx]
  simp only [Binary64.neg_neg]

theorem setLower_empty (v : Binary64) : empty.setLower v = empty := by
  have hcrossed : ¬ AdmissibleBounds v negInf := by
    rintro ⟨-, -, habove⟩
    exact Binary64.lt_irrefl _ habove
  exact dif_neg hcrossed

theorem admissible_negInf_iff : AdmissibleBounds negInf v ↔ negInf < v := by
  constructor
  · exact fun h => h.2.2
  · exact fun h => ⟨Binary64.le_of_lt h, by decide, h⟩

/-- An upper bound that is a number above negative infinity leaves a half-line of the empty
interval. -/
theorem setUpper_empty (h : negInf < v) :
    empty.setUpper v = ⟨negInf, v, .inr (admissible_negInf_iff.2 h)⟩ :=
  dif_pos (admissible_negInf_iff.2 h)

theorem setUpper_empty_of_not_lt (h : ¬ negInf < v) : empty.setUpper v = empty :=
  dif_neg (mt admissible_negInf_iff.1 h)

theorem setUpper_empty_eq_empty_iff : empty.setUpper v = empty ↔ ¬ negInf < v := by
  constructor
  · intro hempty h
    have hub : v = negInf := by
      rw [setUpper_empty h] at hempty
      exact congrArg Interval.ub hempty
    rw [hub] at h
    exact Binary64.lt_irrefl _ h
  · exact setUpper_empty_of_not_lt

/-- The setters are mirror images except where the upper one revives the empty interval. -/
theorem setUpper_eq_neg_setLower_iff (x : Interval) (v : Binary64) :
    x.setUpper v = -((-x).setLower (-v)) ↔ ¬ (x = empty ∧ negInf < v) := by
  cases hx : x.isEmpty with
  | false =>
    refine iff_of_true (setUpper_eq_neg_setLower hx v) ?_
    rintro ⟨hempty, -⟩
    rw [eq_empty_iff, hx] at hempty
    cases hempty
  | true =>
    have hempty : x = empty := eq_empty_iff.2 hx
    have hneg : -empty = empty := by decide
    -- Both reflections and the call between them leave the empty interval as it is.
    simp only [hempty, hneg, setLower_empty, setUpper_empty_eq_empty_iff, true_and]

end OneCall

/-! ## Sequences of calls -/

namespace Setting

theorem run_cons (s : Setting) (calls : List Setting) (x : Interval) :
    run (s :: calls) x = run calls (s.apply x) :=
  rfl

theorem run_append (before after : List Setting) (x : Interval) :
    run (before ++ after) x = run after (run before x) :=
  List.foldl_append

/-- One call keeps the empty interval empty or revives it. -/
theorem apply_empty_iff (s : Setting) : s.apply empty = empty ↔ ¬ s.Revives := by
  cases s with
  | lower v => simp [apply, Revives, setLower_empty]
  | upper v => exact setUpper_empty_eq_empty_iff

/-- The empty interval stays empty throughout a sequence of calls exactly if none of them revives
it. -/
theorem run_empty_iff (calls : List Setting) :
    (∀ done, done <+: calls → run done empty = empty) ↔ ∀ s ∈ calls, ¬ s.Revives := by
  induction calls with
  | nil => simp [run]
  | cons s calls ih =>
    rw [List.forall_mem_cons, ← ih, ← apply_empty_iff]
    constructor
    · intro h
      have hs : s.apply empty = empty := h [s] (by simp)
      refine ⟨hs, ?_⟩
      intro done hdone
      have hlonger := h (s :: done) (List.cons_prefix_cons.2 ⟨rfl, hdone⟩)
      rwa [run_cons, hs] at hlonger
    · rintro ⟨hs, hrest⟩ done hdone
      cases done with
      | nil => rfl
      | cons c done =>
        obtain ⟨rfl, hshorter⟩ := List.cons_prefix_cons.1 hdone
        rw [run_cons, hs]
        exact hrest done hshorter

end Setting

open Setting

/-- The setters are mirror images, and keep an empty interval empty, up to the upper bounds that
revive it. For every interval and number, setting the upper bound is setting the lower bound of
the reflection, unless the interval is empty and the number lies above negative infinity; what is
set is then the upper bound of a half-line. For every sequence of calls that has emptied an
interval, the interval stays empty through all calls that follow exactly if none of them sets an
upper bound above negative infinity. -/
theorem setters_mirror_unless_reviving (x : Interval) (v : Binary64) (before after : List Setting) :
    (x.setUpper v = -((-x).setLower (-v)) ↔ ¬ (x = empty ∧ negInf < v)) ∧
      (negInf < v → (empty.setUpper v).lb = negInf ∧ (empty.setUpper v).ub = v) ∧
      (run before x = empty →
        ((∀ done, done <+: after → run (before ++ done) x = empty) ↔
          ∀ s ∈ after, ¬ s.Revives)) := by
  refine ⟨setUpper_eq_neg_setLower_iff x v, ?_, ?_⟩
  · intro h
    rw [setUpper_empty h]
    exact ⟨rfl, rfl⟩
  · intro hemptied
    rw [← run_empty_iff]
    simp only [run_append, hemptied]

/-- The interval from zero to one. -/
def zeroToOne : Interval :=
  ofBounds Binary64.zero ⟨0x3ff0000000000000⟩

/-- Emptied by a lower bound of two, the interval from zero to one stays empty when its lower bound
is set back to zero and its upper bound to a NaN. An upper bound of three makes it a half-line. -/
theorem zeroToOne_stays_empty :
    (empty.setUpper ⟨0x4008000000000000⟩).ub = ⟨0x4008000000000000⟩ ∧
      run [.lower ⟨0x4000000000000000⟩] zeroToOne = empty ∧
      ∀ done, done <+: [.lower Binary64.zero, .upper nan] →
        run ([.lower ⟨0x4000000000000000⟩] ++ done) zeroToOne = empty := by
  have hemptied : run [.lower ⟨0x4000000000000000⟩] zeroToOne = empty := by decide
  obtain ⟨-, hrevived, hstays⟩ := setters_mirror_unless_reviving zeroToOne ⟨0x4008000000000000⟩
    [.lower ⟨0x4000000000000000⟩] [.lower Binary64.zero, .upper nan]
  exact ⟨(hrevived (by decide)).2, hemptied, (hstays hemptied).2 (by decide)⟩

/-- An upper bound of three revives the interval that a lower bound of two has emptied, and on the
empty interval it is not the mirror image of a lower bound of minus three. -/
theorem emptied_interval_revived :
    run [.lower ⟨0x4000000000000000⟩] zeroToOne = empty ∧
      run [.lower ⟨0x4000000000000000⟩, .upper ⟨0x4008000000000000⟩] zeroToOne ≠ empty ∧
      empty.setUpper ⟨0x4008000000000000⟩ ≠ -((-empty).setLower (-⟨0x4008000000000000⟩)) := by
  decide

end Interval

end Paving
