import FusionInspect.Proofs.Display.FloatOrder
import FusionInspect.Proofs.Display.Neighbours
import FusionInspect.Proofs.Order.Precedes
import Mathlib.Data.Set.Card
import Mathlib.Data.Set.Finite.List

/-!
# The law of places

Where entries with distinct keys stand is said without the walk that places them (`Lawful`). The anchored
ones stand by their positions: the start by descending priority, the middle by ascending number, the end
by ascending priority, ties in the given order. An entry whose references lead to an anchored one stands
beside its reference, and only entries that follow the reference come between them. An entry whose
references lead around a cycle comes after all that have none (`arrange_lawful`).

References of an entry lead to an anchored one or around a cycle, and not to both
(`settled_iff_not_circular`). In each group of entries, and so in their places, entries stand by rank
(`precedes_group`).
-/

namespace FusionInspect.Placement

/-- The position of an entry refers to no other entry. -/
def Anchored (es : List (String × Node)) (e : String × Node) : Prop :=
  ∀ r, reference? (Position.ofEntry e.1 e.2) = some r → r = e.1 ∨ r ∉ es.map Prod.fst

/-- The references of an entry lead to an anchored one. -/
def Settled (es : List (String × Node)) (e : String × Node) : Prop :=
  ∃ a, Anchored es a ∧ (a = e ∨ Follows es e a)

/-- The references of an entry lead around a cycle. -/
def Circular (es : List (String × Node)) (e : String × Node) : Prop :=
  ∃ c, Follows es e c ∧ Follows es c c

/-- A position comes before another. The start is before the middle and the middle before the end. At the
start and beside the same key a higher priority is first, in the middle a lesser number, at the end a
lower priority. -/
def Ahead : Position → Position → Prop
  | .start p, .start q => q < p
  | .start _, .middle _ => True
  | .start _, .finish _ => True
  | .middle x, .middle y => NumberLT x y
  | .middle _, .finish _ => True
  | .finish p, .finish q => p < q
  | .before r p, .before k q => r = k ∧ q < p
  | .after r p, .after k q => r = k ∧ q < p
  | _, _ => False

/-- Two entries stand by their positions, and in the given order if these are the same. -/
def InTurn (es l : List (String × Node)) (d e : String × Node) : Prop :=
  Order.Precedes l d e ↔ Ahead (position es d) (position es e) ∨
    (position es d = position es e ∧ Order.Precedes es d e)

/-- The law of places for some entries. Anchored entries stand by their positions. An entry whose
references lead to an anchored one stands beside its reference as it asks to, with only entries between
the two that follow that reference, and in turn with the others that ask for the same. All whose
references lead around a cycle come last. -/
structure Lawful (es l : List (String × Node)) : Prop where
  perm : l.Perm es
  anchored : ∀ d ∈ es, ∀ e ∈ es, Anchored es d → Anchored es e → InTurn es l d e
  before : ∀ d ∈ es, ∀ e ∈ es, ∀ p, Settled es e → position es e = .before d.1 p →
    Adjoins es l d e d ∧ ∀ c ∈ es, ∀ q, position es c = .before d.1 q → InTurn es l c e
  after : ∀ d ∈ es, ∀ e ∈ es, ∀ p, Settled es e → position es e = .after d.1 p →
    Adjoins es l d d e ∧ ∀ c ∈ es, ∀ q, position es c = .after d.1 q → InTurn es l c e
  circular : ∀ d ∈ es, ∀ e ∈ es, ¬ Circular es d → Circular es e → Order.Precedes l d e

section

variable {es : List (String × Node)} {d e : String × Node}

/-- Anchored entries are those that are placed beside none. -/
theorem anchored_iff : Anchored es e ↔ beside? es e = none := by
  rw [Option.eq_none_iff_forall_ne_some]
  refine forall_congr' fun r => ?_
  rw [ne_eq, beside?_eq_some]
  tauto

/-! ## Where references lead -/

/-- What a rooted entry follows is rooted, with fewer steps. -/
theorem Rooted.of_follows {n : Nat} (hnd : (es.map Prod.fst).Nodup) (h : Rooted es n e)
    (hfollows : Follows es e d) : ∃ k, k < n ∧ Rooted es k d := by
  induction hfollows with
  | single hstep => exact h.of_beside hnd hstep.1 hstep.2
  | tail _ hstep ih =>
    obtain ⟨k, hk, hrooted⟩ := ih
    obtain ⟨j, hj, hrooted'⟩ := hrooted.of_beside hnd hstep.1 hstep.2
    exact ⟨j, hj.trans hk, hrooted'⟩

/-- A rooted entry is settled. -/
theorem Rooted.settled {n : Nat} (h : Rooted es n e) : Settled es e := by
  induction h with
  | anchor hnone => exact ⟨_, anchored_iff.mpr hnone, .inl rfl⟩
  | beside hd href _ ih =>
    obtain ⟨a, ha, rfl | hfollows⟩ := ih
    · exact ⟨a, ha, .inr (.single ⟨hd, href⟩)⟩
    · exact ⟨a, ha, .inr (.head ⟨hd, href⟩ hfollows)⟩

/-- A settled entry is rooted, in some number of steps. -/
theorem Settled.exists_rooted (h : Settled es e) : ∃ n, Rooted es n e := by
  obtain ⟨a, ha, rfl | hfollows⟩ := h
  · exact ⟨0, .anchor (anchored_iff.mp ha)⟩
  induction hfollows using Relation.TransGen.head_induction_on with
  | single hstep => exact ⟨1, .beside hstep.1 hstep.2 (.anchor (anchored_iff.mp ha))⟩
  | head hstep _ ih =>
    obtain ⟨n, hn⟩ := ih
    exact ⟨n + 1, .beside hstep.1 hstep.2 hn⟩

/-- A rooted entry is on no way around a cycle: the steps would grow fewer without end. -/
theorem Rooted.not_circular (hnd : (es.map Prod.fst).Nodup) {n : Nat} (h : Rooted es n e) :
    ¬ Circular es e := by
  rintro ⟨c, hc, hcycle⟩
  obtain ⟨k, _, hk⟩ := h.of_follows hnd hc
  obtain ⟨j, hj, hj'⟩ := hk.of_follows hnd hcycle
  exact hj.ne (hj'.depth_unique hnd hk)

/-- Only entries are followed, so finitely many. -/
theorem finite_follows (es : List (String × Node)) (e : String × Node) :
    {c | Follows es e c}.Finite := by
  refine es.finite_toSet.subset fun c hc => ?_
  cases hc with
  | single hstep => exact hstep.1
  | tail _ hstep => exact hstep.1

/-- References that lead around no cycle lead to an anchored entry, since each step leaves fewer entries
to be led to. -/
theorem exists_rooted_of_not_circular (h : ¬ Circular es e) : ∃ n, Rooted es n e := by
  induction hcount : {c | Follows es e c}.ncard using Nat.strong_induction_on generalizing e with
  | h count ih =>
    cases href : beside? es e with
    | none => exact ⟨0, .anchor href⟩
    | some r =>
      obtain ⟨d, hd, rfl⟩ := List.mem_map.mp (beside?_eq_some.mp href).2.2
      have hstep : Follows es e d := .single ⟨hd, href⟩
      have hfewer : {c | Follows es d c} ⊂ {c | Follows es e c} :=
        ⟨fun c hc => hstep.trans hc, fun hsub => h ⟨d, hstep, hsub hstep⟩⟩
      obtain ⟨n, hn⟩ := ih _ (hcount ▸ Set.ncard_lt_ncard hfewer (finite_follows es e))
        (fun ⟨c, hc, hcycle⟩ => h ⟨c, hstep.trans hc, hcycle⟩) rfl
      exact ⟨n + 1, .beside hd href hn⟩

/-- References lead to an anchored entry or around a cycle, and not to both. -/
theorem settled_iff_not_circular (hnd : (es.map Prod.fst).Nodup) : Settled es e ↔ ¬ Circular es e := by
  refine ⟨fun h => ?_, fun h => ?_⟩
  · obtain ⟨n, hn⟩ := h.exists_rooted
    exact hn.not_circular hnd
  · obtain ⟨n, hn⟩ := exists_rooted_of_not_circular h
    exact hn.settled

/-! ## The order of groups -/

/-- A group has its entries by rank, and those of one rank in the given order. -/
theorem precedes_group (hnd : (es.map Prod.fst).Nodup) {rank : Position → Option Int} (hd : d ∈ es)
    (he : e ∈ es) : Order.Precedes (group rank es) d e ↔
      ∃ a ∈ rank (position es d), ∃ b ∈ rank (position es e),
        a < b ∨ (a = b ∧ Order.Precedes es d e) := by
  have hmem : Order.Precedes (group rank es) d e →
      (rank (position es d)).isSome ∧ (rank (position es e)).isSome :=
    fun h => ⟨(mem_group.mp h.mem.1).2, (mem_group.mp h.mem.2).2⟩
  cases ha : rank (position es d) with
  | none => simpa [ha] using hmem
  | some a =>
    cases hb : rank (position es e) with
    | none => simpa [hb] using hmem
    | some b =>
      have hkept : (es.filter fun e => (rank (position es e)).isSome).Nodup := hnd.of_map.filter _
      rw [group, Order.precedes_sort rankLE_trans rankLE_total hkept
        (List.mem_filter.mpr ⟨hd, by simp [ha]⟩) (List.mem_filter.mpr ⟨he, by simp [hb]⟩),
        Order.precedes_filter]
      simp only [rankLE, ha, hb, decide_eq_true_eq, Option.getD_some, Option.mem_def,
        Option.some.injEq, exists_eq_left', Option.isSome_some, true_and]
      grind

/-- The anchored entries are listed in turn: the three groups one after the other, each by its rank. -/
theorem inTurn_roots (hnd : (es.map Prod.fst).Nodup) (hd : d ∈ es) (he : e ∈ es)
    (hd' : beside? es d = none) (he' : beside? es e = none) : InTurn es (roots es) d e := by
  rw [InTurn, roots, Order.precedes_append, Order.precedes_append, precedes_group hnd hd he,
    precedes_group hnd hd he, precedes_group hnd hd he]
  simp only [List.mem_append, mem_group, hd, he, true_and]
  rw [beside?] at hd' he'
  cases hp : position es d with
  | before r p => simp [hp, reference?] at hd'
  | after r p => simp [hp, reference?] at hd'
  | _ =>
    cases hq : position es e with
    | before r q => simp [hq, reference?] at he'
    | after r q => simp [hq, reference?] at he'
    | _ =>
      simp [startRank, middleRank, finishRank, Ahead, floatOrder_lt_iff, floatOrder_injective.eq_iff]

/-! ## The law -/

/-- A reference to no other entry counts for nothing, and its entry stands in the middle. -/
theorem position_of_stray (h : Anchored es e)
    (href : reference? (Position.ofEntry e.1 e.2) ≠ none) : position es e = .middle 0 := by
  rw [Anchored] at h
  rw [position]
  cases hp : Position.ofEntry e.1 e.2 with
  | before r p =>
    rw [anchored, if_neg]
    simpa [hp, reference?, or_iff_not_imp_left] using h
  | after r p =>
    rw [anchored, if_neg]
    simpa [hp, reference?, or_iff_not_imp_left] using h
  | _ => simp [hp, reference?] at href

/-- All other positions are as they are asked for. -/
theorem position_eq_ofEntry (h : Anchored es e → reference? (Position.ofEntry e.1 e.2) = none) :
    position es e = Position.ofEntry e.1 e.2 := by
  rw [Anchored] at h
  rw [position]
  cases hp : Position.ofEntry e.1 e.2 with
  | before r p =>
    rw [anchored, if_pos]
    simpa [hp, reference?, or_iff_not_imp_left] using h
  | after r p =>
    rw [anchored, if_pos]
    simpa [hp, reference?, or_iff_not_imp_left] using h
  | _ => rfl

/-- The reference of a settled entry is settled. -/
theorem Settled.of_beside (hnd : (es.map Prod.fst).Nodup) (h : Settled es e) (hd : d ∈ es)
    (href : beside? es e = some d.1) : Settled es d := by
  obtain ⟨n, hn⟩ := h.exists_rooted
  obtain ⟨k, _, hk⟩ := hn.of_beside hnd hd href
  exact hk.settled

section

variable (hnd : (es.map Prod.fst).Nodup)

include hnd

theorem nodup_arrange : (arrange es).Nodup :=
  (arrange_perm es).nodup_iff.mpr hnd.of_map

/-- Anchored entries stand by their positions. -/
theorem inTurn_anchored (hd : d ∈ es) (he : e ∈ es) (hd' : Anchored es d) (he' : Anchored es e) :
    InTurn es (arrange es) d e := by
  rw [anchored_iff] at hd' he'
  obtain ⟨l, rest, harrange, hl⟩ := exists_listed_arrange hnd
  have hsub : (roots es).Sublist (arrange es) := by
    rw [harrange]
    exact hl.sublist.trans (List.sublist_append_left _ _)
  have hroots := Order.precedes_iff_of_sublist (nodup_arrange hnd) hsub (mem_roots.mpr ⟨hd, hd'⟩)
    (mem_roots.mpr ⟨he, he'⟩)
  exact hroots.trans (inTurn_roots hnd hd he hd' he')

/-- Those that stand beside a settled entry are placed in the order of their group. -/
theorem besides_sublist_arrange (h : Settled es d) (hd : d ∈ es) :
    (group (beforeRank d.1) es).Sublist (arrange es) ∧
      (group (afterRank d.1) es).Sublist (arrange es) := by
  obtain ⟨l, rest, harrange, hl⟩ := exists_listed_arrange hnd
  obtain ⟨n, hn⟩ := h.exists_rooted
  rw [harrange]
  exact (hl.besides_sublist d (hl.mem_of_rooted hnd hn hd)).imp
    (·.trans (List.sublist_append_left _ _)) (·.trans (List.sublist_append_left _ _))

/-- Entries that stand in their places as in their group do so by rank. -/
theorem precedes_arrange_of_group {rank : Position → Option Int} {a b : Int}
    (hsub : (group rank es).Sublist (arrange es)) (hd : d ∈ es) (he : e ∈ es)
    (ha : rank (position es d) = some a) (hb : rank (position es e) = some b) :
    Order.Precedes (arrange es) d e ↔ a < b ∨ (a = b ∧ Order.Precedes es d e) := by
  rw [Order.precedes_iff_of_sublist (nodup_arrange hnd) hsub (mem_group.mpr ⟨hd, by simp [ha]⟩)
    (mem_group.mpr ⟨he, by simp [hb]⟩), precedes_group hnd hd he]
  simp [ha, hb]

/-- Entries on a way around a cycle come after all others. -/
theorem precedes_circular (hd : d ∈ es) (he : e ∈ es) (hd' : ¬ Circular es d) (he' : Circular es e) :
    Order.Precedes (arrange es) d e := by
  obtain ⟨l, rest, harrange, hl⟩ := exists_listed_arrange hnd
  obtain ⟨n, hn⟩ := exists_rooted_of_not_circular hd'
  have hmem : e ∈ l ++ rest := harrange ▸ (arrange_perm es).mem_iff.mpr he
  have hnot : e ∉ l := by
    intro h
    obtain ⟨_, k, hk⟩ := hl.rooted_of_roots e h
    exact hk.not_circular hnd he'
  rw [harrange, Order.precedes_append]
  exact .inr (.inl ⟨hl.mem_of_rooted hnd hn hd, (List.mem_append.mp hmem).resolve_left hnot⟩)

end

/-- Entries with distinct keys are placed by the law, where a reference to the entry itself or to no
entry counts as the middle, and references lead to an anchored entry if not around a cycle. -/
theorem arrange_lawful (hnd : (es.map Prod.fst).Nodup) :
    (∀ e, Anchored es e → reference? (Position.ofEntry e.1 e.2) ≠ none → position es e = .middle 0) ∧
    (∀ e, (Anchored es e → reference? (Position.ofEntry e.1 e.2) = none) →
      position es e = Position.ofEntry e.1 e.2) ∧
    (∀ e, Settled es e ↔ ¬ Circular es e) ∧ Lawful es (arrange es) := by
  refine ⟨fun _ => position_of_stray, fun _ => position_eq_ofEntry,
    fun _ => settled_iff_not_circular hnd, ?_⟩
  refine ⟨arrange_perm es, ?anchored, ?before, ?after, ?circular⟩
  case anchored => exact fun d hd e he => inTurn_anchored hnd hd he
  case before =>
    intro d hd e he p h hp
    have hsettled := h.of_beside hnd hd (by rw [beside?, hp]; rfl)
    obtain ⟨n, hn⟩ := h.exists_rooted
    refine ⟨adjoins_before hnd hn he hd hp, fun c hc q hq => ?_⟩
    rw [InTurn, hq, hp, precedes_arrange_of_group hnd (besides_sublist_arrange hnd hsettled hd).1 hc he
      (a := -q) (b := -p) (by simp [hq, beforeRank]) (by simp [hp, beforeRank])]
    simp [Ahead]
  case after =>
    intro d hd e he p h hp
    have hsettled := h.of_beside hnd hd (by rw [beside?, hp]; rfl)
    obtain ⟨n, hn⟩ := h.exists_rooted
    refine ⟨adjoins_after hnd hn he hd hp, fun c hc q hq => ?_⟩
    rw [InTurn, hq, hp, precedes_arrange_of_group hnd (besides_sublist_arrange hnd hsettled hd).2 hc he
      (a := -q) (b := -p) (by simp [hq, afterRank]) (by simp [hp, afterRank])]
    simp [Ahead]
  case circular => exact fun d hd e he => precedes_circular hnd hd he

end

/-- Entries that ask for places of every kind, one of them for a place beside itself, one for a place
beside no entry, and two for places beside each other. -/
def askingEntries : List (String × Node) :=
  [hinted "yin" "before yang", hinted "foot" "end 3", hinted "note" "2.5",
    hinted "menu" "after head 1", hinted "head" "start", hinted "logo" "after head 4",
    hinted "yang" "after yin", hinted "stray" "before nothing", hinted "self" "after self",
    hinted "top" "start 7", hinted "lead" "-1", hinted "hint" "before menu", hinted "close" "end"]

/-- Entries that ask for places of every kind, in their places. -/
theorem arrange_lawful_askingEntries :
    (askingEntries.map Prod.fst).Nodup ∧ Circular askingEntries (hinted "yin" "before yang") ∧
    Settled askingEntries (hinted "hint" "before menu") ∧
    Lawful askingEntries [hinted "top" "start 7", hinted "head" "start", hinted "logo" "after head 4",
      hinted "hint" "before menu", hinted "menu" "after head 1", hinted "lead" "-1",
      hinted "stray" "before nothing", hinted "self" "after self", hinted "note" "2.5",
      hinted "close" "end", hinted "foot" "end 3", hinted "yin" "before yang",
      hinted "yang" "after yin"] := by
  have hnd : (askingEntries.map Prod.fst).Nodup := by decide
  have hyin : Follows askingEntries (hinted "yin" "before yang") (hinted "yin" "before yang") :=
    .head (b := hinted "yang" "after yin") ⟨by simp [askingEntries], rfl⟩
      (.single ⟨by simp [askingEntries], rfl⟩)
  obtain ⟨_, _, _, hlawful⟩ := arrange_lawful hnd
  refine ⟨hnd, ⟨_, hyin, hyin⟩, ?_, hlawful⟩
  refine ⟨hinted "head" "start", anchored_iff.mpr rfl, .inr ?_⟩
  exact .head (b := hinted "menu" "after head 1") ⟨by simp [askingEntries], rfl⟩
    (.single ⟨by simp [askingEntries], rfl⟩)

end FusionInspect.Placement
