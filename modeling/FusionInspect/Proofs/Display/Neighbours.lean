import FusionInspect.Proofs.Display.Listing
import Mathlib.Logic.Relation

/-!
# Entries beside their references

A listing has each of its entries between the listing of those before it and the listing of those after
it (`Listed.split`). So an entry that is led to an anchored one stands before or after its reference as
it asks to, and all that stands between the two is led to that reference as well (`adjoins_before`,
`adjoins_after`).
-/

namespace FusionInspect.Placement

/-- The references of the first entry lead to the second, in one step or more. -/
def Follows (es : List (String × Node)) : String × Node → String × Node → Prop :=
  Relation.TransGen fun e d => d ∈ es ∧ beside? es e = some d.1

/-- The first entry comes before the second, and all that stands between them follows a third. -/
def Adjoins (es l : List (String × Node)) (r d e : String × Node) : Prop :=
  ∃ front between back, l = front ++ d :: (between ++ e :: back) ∧ ∀ c ∈ between, Follows es c r

section

variable {es xs l : List (String × Node)} {r d e : String × Node}

/-! ## Neighbours in a listing -/

/-- Each entry of a listing stands between the listings of those before it and those after it. -/
theorem Listed.split (h : Listed es xs l) : ∀ d ∈ l, ∃ u front back v,
    l = u ++ front ++ d :: (back ++ v) ∧ Listed es (group (beforeRank d.1) es) front ∧
      Listed es (group (afterRank d.1) es) back := by
  induction h with
  | nil => exact fun _ h => (List.not_mem_nil h).elim
  | @cons e rest before after others hbefore hafter _ ihbefore ihafter ihothers =>
    intro d hd
    rcases List.mem_append.mp hd with hd | hd
    · obtain ⟨u, front, back, v, rfl, hfront, hback⟩ := ihbefore d hd
      exact ⟨u, front, back, v ++ e :: (after ++ others), by simp, hfront, hback⟩
    rcases List.mem_cons.mp hd with rfl | hd
    · exact ⟨[], before, after, others, rfl, hbefore, hafter⟩
    rcases List.mem_append.mp hd with hd | hd
    · obtain ⟨u, front, back, v, rfl, hfront, hback⟩ := ihafter d hd
      exact ⟨before ++ e :: u, front, back, v ++ others, by simp, hfront, hback⟩
    · obtain ⟨u, front, back, v, rfl, hfront, hback⟩ := ihothers d hd
      exact ⟨before ++ e :: (after ++ u), front, back, v, by simp, hfront, hback⟩

/-- All in the listing of entries beside a key follow the entry at the key. -/
theorem Listed.follows (h : Listed es xs l) (hd : d ∈ es)
    (hxs : ∀ e ∈ xs, e ∈ es ∧ beside? es e = some d.1) : ∀ e ∈ l, Follows es e d := by
  have hall : ∀ e ∈ l, e ∈ es ∧ Follows es e d := by
    refine h.forall_mem (fun c e hc he href => ⟨he, ?_⟩) fun e he => ⟨(hxs e he).1, ?_⟩
    · exact .head ⟨hc.1, href⟩ hc.2
    · exact .single ⟨hd, (hxs e he).2⟩
  exact fun e he => (hall e he).2

/-! ## Neighbours in their places -/

/-- The reference of a rooted entry is rooted, with fewer steps. -/
theorem Rooted.of_beside (hnd : (es.map Prod.fst).Nodup) {n : Nat} (h : Rooted es n e) (hd : d ∈ es)
    (href : beside? es e = some d.1) : ∃ k, k < n ∧ Rooted es k d := by
  cases h with
  | anchor hnone => rw [hnone] at href; cases href
  | @beside k c _ hc href' hrooted =>
    obtain rfl := eq_of_key_eq hnd hc hd (Option.some.inj (href'.symm.trans href))
    exact ⟨k, k.lt_succ_self, hrooted⟩

/-- A rooted reference stands between the listings of those before it and of those after it. -/
theorem exists_arrange_split (hnd : (es.map Prod.fst).Nodup) {n : Nat} (h : Rooted es n d)
    (hd : d ∈ es) : ∃ u front back v, arrange es = u ++ front ++ d :: (back ++ v) ∧
      Listed es (group (beforeRank d.1) es) front ∧ Listed es (group (afterRank d.1) es) back := by
  obtain ⟨l, rest, harrange, hl⟩ := exists_listed_arrange hnd
  obtain ⟨u, front, back, v, rfl, hfront, hback⟩ := hl.split d (hl.mem_of_rooted hnd h hd)
  exact ⟨u, front, back, v ++ rest, by rw [harrange]; simp, hfront, hback⟩

section

variable (hnd : (es.map Prod.fst).Nodup) {n : Nat} (h : Rooted es n e) (he : e ∈ es) (hd : d ∈ es)

include hnd h he hd

/-- An entry that is to stand before another does, with only entries between them that follow it. -/
theorem adjoins_before {p : Int} (hposition : position es e = .before d.1 p) :
    Adjoins es (arrange es) d e d := by
  have href : beside? es e = some d.1 := by rw [beside?, hposition]; rfl
  obtain ⟨k, _, hk⟩ := h.of_beside hnd hd href
  obtain ⟨u, front, back, v, harrange, hfront, _⟩ := exists_arrange_split hnd hk hd
  have hgroup : e ∈ group (beforeRank d.1) es :=
    mem_group.mpr ⟨he, by rw [hposition]; simp [beforeRank]⟩
  obtain ⟨s, t, rfl⟩ := List.append_of_mem (hfront.sublist.subset hgroup)
  refine ⟨u ++ s, t, back ++ v, by rw [harrange]; simp, fun c hc => ?_⟩
  exact hfront.follows hd (fun c hc => mem_besides.mp (.inl hc)) c (by simp [hc])

/-- An entry that is to stand after another does, with only entries between them that follow it. -/
theorem adjoins_after {p : Int} (hposition : position es e = .after d.1 p) :
    Adjoins es (arrange es) d d e := by
  have href : beside? es e = some d.1 := by rw [beside?, hposition]; rfl
  obtain ⟨k, _, hk⟩ := h.of_beside hnd hd href
  obtain ⟨u, front, back, v, harrange, _, hback⟩ := exists_arrange_split hnd hk hd
  have hgroup : e ∈ group (afterRank d.1) es :=
    mem_group.mpr ⟨he, by rw [hposition]; simp [afterRank]⟩
  obtain ⟨s, t, rfl⟩ := List.append_of_mem (hback.sublist.subset hgroup)
  refine ⟨u ++ front, s, t ++ v, by rw [harrange]; simp, fun c hc => ?_⟩
  exact hback.follows hd (fun c hc => mem_besides.mp (.inr hc)) c (by simp [hc])

end

/-! ## Other entries left out or put in front -/

/-- Entries adjoin also when others are left out. -/
theorem Adjoins.filter {keep : String × Node → Bool} (h : Adjoins es l r d e) (hd : keep d = true)
    (he : keep e = true) : Adjoins es (l.filter keep) r d e := by
  obtain ⟨front, between, back, rfl, hbetween⟩ := h
  refine ⟨front.filter keep, between.filter keep, back.filter keep, ?_, fun c hc => ?_⟩
  · simp [List.filter_append, hd, he]
  · exact hbetween c (List.mem_filter.mp hc).1

theorem Adjoins.append_left (h : Adjoins es l r d e) (m : List (String × Node)) :
    Adjoins es (m ++ l) r d e := by
  obtain ⟨front, between, back, rfl, hbetween⟩ := h
  exact ⟨m ++ front, between, back, by simp, hbetween⟩

end

end FusionInspect.Placement
