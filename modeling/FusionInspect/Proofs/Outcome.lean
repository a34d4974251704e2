import Mathlib.Data.List.Forall2

/-!
# Outcomes that agree

Two runs are compared by their outcomes. They AGREE when they end with the same error, or when both
succeed and their results are related. A success never agrees with a failure, so from agreement on
results that cannot be had it follows that both runs fail, and fail alike.
-/

namespace FusionInspect

variable {ε α β γ δ : Type}

/-- A run that ends well went well in its first step. -/
theorem exists_of_bind_eq_ok {x : Except ε α} {f : α → Except ε β} {b : β} (h : x >>= f = .ok b) :
    ∃ a, x = .ok a ∧ f a = .ok b := by
  cases x with
  | error e => cases h
  | ok a => exact ⟨a, rfl, h⟩

/-- The same error on both sides, or results that are related. -/
inductive Agree (related : α → β → Prop) : Except ε α → Except ε β → Prop where
  | error (e : ε) : Agree related (.error e) (.error e)
  | ok {a : α} {b : β} (h : related a b) : Agree related (.ok a) (.ok b)

namespace Agree

variable {related : α → β → Prop} {x : Except ε α} {y : Except ε β}

/-- Outcomes that agree by a relation agree by each that follows from it. -/
theorem imp {weaker : α → β → Prop} (h : Agree related x y) (himp : ∀ a b, related a b → weaker a b) :
    Agree weaker x y := by
  cases h with
  | error e => exact .error e
  | ok hab => exact .ok (himp _ _ hab)

/-- Runs that agree go on in agreement if they do so from related results. -/
theorem bind {next : γ → δ → Prop} {f : α → Except ε γ} {g : β → Except ε δ} (h : Agree related x y)
    (hnext : ∀ a b, related a b → Agree next (f a) (g b)) : Agree next (x >>= f) (y >>= g) := by
  cases h with
  | error e => exact .error e
  | ok hab => exact hnext _ _ hab

/-- Agreement is kept by steps that cannot fail and carry related values to related ones. -/
theorem map {next : γ → δ → Prop} {f : α → γ} {g : β → δ} (h : Agree related x y)
    (hnext : ∀ a b, related a b → next (f a) (g b)) : Agree next (x.map f) (y.map g) := by
  cases h with
  | error e => exact .error e
  | ok hab => exact .ok (hnext _ _ hab)

/-- Runs over one list that agree at each element agree as a whole. -/
theorem mapM {ι : Type} {f : ι → Except ε α} {g : ι → Except ε β} : ∀ {is : List ι},
    (∀ i ∈ is, Agree related (f i) (g i)) →
      Agree (List.Forall₂ related) (is.mapM f) (is.mapM g)
  | [], _ => .ok .nil
  | i :: is, h => by
    rw [List.forall_mem_cons] at h
    rw [List.mapM_cons, List.mapM_cons]
    refine h.1.bind fun a b hab => ?_
    refine (mapM h.2).bind fun as bs hall => ?_
    exact .ok (.cons hab hall)

/-- Outcomes that agree by equality are the same. -/
theorem eq {x y : Except ε α} (h : Agree Eq x y) : x = y := by
  cases h with
  | error e => rfl
  | ok hab => rw [hab]

end Agree

end FusionInspect
