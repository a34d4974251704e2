import FusionInspect.Proofs.Display.Placement
import Mathlib.Data.Finset.Card
import Mathlib.Data.Finset.SDiff

/-!
# The walk without a bound

Placing follows references, and references may lead around in a cycle. What ends the walk is that an
entry is marked before those beside it are placed. The walk is told here step by step, with no bound on
how deep it goes (`Walks`). It comes to an end from every state, in one way only, and never looks for an
entry that is not there; and the number of entries bounds its depth, since every step down marks a
further one (`walks_foldl_place`).

Keys may be given twice. All entries of a key have the same ones beside them; the first of them to be
placed takes these along.
-/

namespace FusionInspect.Placement

/-- The walk over some indices, from one state to another. An index that is marked is passed over. Any
other is marked; then those before it are placed, then it is placed itself, then those after it. -/
inductive Walks (is : List Item) : Placed → List Nat → Placed → Prop
  | nil {s : Placed} : Walks is s [] s
  | skip {s t : Placed} {i : Nat} {rest : List Nat} :
      i ∈ s.marked → Walks is s rest t → Walks is s (i :: rest) t
  | place {s t u v : Placed} {i : Nat} {rest : List Nat} {item : Item} :
      i ∉ s.marked → is[i]? = some item →
      Walks is { s with marked := i :: s.marked } (ranked (beforeRank item.key) is) t →
      Walks is { t with order := t.order ++ [i] } (ranked (afterRank item.key) is) u →
      Walks is u rest v → Walks is s (i :: rest) v

/-- The indices in the order of their turns: the anchored ones, and then all of them. -/
def turns (is : List Item) : List Nat :=
  ranked startRank is ++ ranked middleRank is ++ ranked finishRank is ++ List.range is.length

/-- The number of indices below a bound that are not marked. -/
def unmarked (bound : Nat) (s : Placed) : Nat :=
  (Finset.range bound \ s.marked.toFinset).card

section

variable {is : List Item} {es : List (String × Node)} {s t u : Placed} {xs : List Nat} {bound fuel i : Nat}

/-! ## One end only -/

/-- A walk has one end at most. -/
theorem Walks.unique (h : Walks is s xs t) (h' : Walks is s xs u) : t = u := by
  induction h generalizing u with
  | nil => cases h'; rfl
  | skip hmarked _ ih =>
    cases h' with
    | skip _ hrest => exact ih hrest
    | place hfresh _ _ _ _ => exact absurd hmarked hfresh
  | place hfresh hitem _ _ _ ihfront ihback ihrest =>
    cases h' with
    | skip hmarked _ => exact absurd hmarked hfresh
    | place _ hitem' hfront hback hrest =>
      obtain rfl := Option.some.inj (hitem.symm.trans hitem')
      obtain rfl := ihfront hfront
      obtain rfl := ihback hback
      exact ihrest hrest

/-! ## The bound -/

/-- Marking a further index leaves fewer to mark. -/
theorem unmarked_lt (hi : i < bound) (hfresh : i ∉ s.marked) (h : ∀ j ∈ i :: s.marked, j ∈ t.marked) :
    unmarked bound t < unmarked bound s := by
  apply Finset.card_lt_card
  rw [Finset.ssubset_iff_of_subset]
  · refine ⟨i, by simp [hi, hfresh], ?_⟩
    simp [h i List.mem_cons_self]
  · apply Finset.sdiff_subset_sdiff (Finset.Subset.refl _)
    intro j hj
    exact List.mem_toFinset.mpr (h j (List.mem_cons_of_mem _ (List.mem_toFinset.mp hj)))

/-- What is marked stays marked. -/
theorem mem_marked_foldl_place (is : List Item) (fuel : Nat) (s : Placed) (xs : List Nat)
    (h : i ∈ s.marked) : i ∈ (xs.foldl (place is fuel) s).marked := by
  obtain ⟨_, hext⟩ := extends_foldl
    (fun s i => (extends_place is fuel s i).imp fun _ h => h.1) s xs
  exact hext.mem_marked.mpr (.inr h)

/-- Only indices of entries are ranked. -/
theorem lt_of_mem_ranked {rank : Position → Option Int} (h : i ∈ ranked rank (items es)) :
    i < es.length := by
  have hpoints := points_group rank es
  generalize ranked rank (items es) = js at h hpoints
  generalize group rank es = ds at hpoints
  induction hpoints with
  | nil => cases h
  | cons hhead _ ih =>
    rcases List.mem_cons.mp h with rfl | h
    · exact (List.getElem?_eq_some_iff.mp hhead).1
    · exact ih h

/-- With fuel for every index that is not marked, placing walks to the end. -/
theorem walks_foldl_place (hxs : ∀ i ∈ xs, i < es.length) (hfuel : unmarked es.length s ≤ fuel) :
    Walks (items es) s xs (xs.foldl (place (items es) fuel) s) := by
  induction fuel generalizing s xs with
  | zero =>
    -- all indices are marked
    induction xs with
    | nil => exact .nil
    | cons i rest ih =>
      obtain ⟨hi, hrest⟩ := List.forall_mem_cons.mp hxs
      have hmarked : i ∈ s.marked := by
        by_contra hfresh
        have hlt := unmarked_lt (t := { s with marked := i :: s.marked }) hi hfresh fun _ hj => hj
        omega
      exact .skip hmarked (ih hrest)
  | succ fuel ih =>
    induction xs generalizing s with
    | nil => exact .nil
    | cons i rest ihrest =>
      obtain ⟨hi, hrest⟩ := List.forall_mem_cons.mp hxs
      rw [List.foldl_cons]
      by_cases hmarked : i ∈ s.marked
      · rw [place_marked hmarked]
        exact .skip hmarked (ihrest hrest hfuel)
      · obtain ⟨e, he⟩ : ∃ e, es[i]? = some e := ⟨es[i], List.getElem?_eq_getElem hi⟩
        have hitem := getElem?_items he
        have hbelow : ∀ rank, ∀ j ∈ ranked rank (items es), j < es.length :=
          fun _ _ => lt_of_mem_ranked
        rw [place_unmarked hmarked hitem]
        -- the index is marked first, so there is one less to mark in all that follows
        have hless : ∀ {t : Placed}, (∀ j ∈ i :: s.marked, j ∈ t.marked) →
            unmarked es.length t ≤ fuel := fun h => by
          have := unmarked_lt hi hmarked h
          omega
        have hfront := ih (s := { s with marked := i :: s.marked }) (hbelow (beforeRank e.1))
          (hless fun _ hj => hj)
        have hmarks : ∀ j ∈ i :: s.marked, j ∈ ((ranked (beforeRank e.1) (items es)).foldl
            (place (items es) fuel) { s with marked := i :: s.marked }).marked :=
          fun j hj => mem_marked_foldl_place _ _ _ _ hj
        generalize (ranked (beforeRank e.1) (items es)).foldl (place (items es) fuel)
          { s with marked := i :: s.marked } = t at hfront hmarks ⊢
        have hback := ih (s := { t with order := t.order ++ [i] }) (hbelow (afterRank e.1))
          (hless hmarks)
        refine .place hmarked hitem hfront hback (ihrest hrest ?_)
        refine Nat.le_succ_of_le (hless fun j hj => ?_)
        exact mem_marked_foldl_place _ _ _ _ (hmarks j hj)

/-- There is always a walk: fuel for every entry is enough. -/
theorem exists_walks (s : Placed) (hxs : ∀ i ∈ xs, i < es.length) : ∃ t, Walks (items es) s xs t :=
  ⟨_, walks_foldl_place hxs (Nat.le_refl _)⟩

theorem lt_of_mem_turns (h : i ∈ turns (items es)) : i < es.length := by
  simp only [turns, List.mem_append, List.mem_range, length_items] at h
  rcases h with ((h | h) | h) | h
  · exact lt_of_mem_ranked h
  · exact lt_of_mem_ranked h
  · exact lt_of_mem_ranked h
  · exact h

/-- The entries in their places are what the walk over all turns has placed. -/
theorem Walks.arrange_eq (h : Walks (items es) ⟨[], []⟩ (turns (items es)) t) :
    arrange es = t.order.filterMap fun i => es[i]? := by
  have hfuel : unmarked es.length ⟨[], []⟩ ≤ (items es).length := by
    rw [length_items, unmarked]
    simp
  have hwalk := walks_foldl_place (fun _ => lt_of_mem_turns) hfuel
  rw [h.unique hwalk]
  rfl

end

/-- **Placing ends, and neither loses nor repeats nor changes an entry**, whatever keys there are and
wherever references lead. From every state the walk comes to one end, and what it has placed when all
had their turns is a permutation of the given entries. -/
theorem placing_loses_nothing (es : List (String × Node)) :
    (∀ s i, i < es.length → ∃! t, Walks (items es) s [i] t) ∧
    (∃! t, Walks (items es) ⟨[], []⟩ (turns (items es)) t) ∧
    (∀ t, Walks (items es) ⟨[], []⟩ (turns (items es)) t →
      arrange es = t.order.filterMap fun i => es[i]?) ∧
    (arrange es).Perm es := by
  refine ⟨fun s i hi => ?_, ?_, fun t h => h.arrange_eq, arrange_perm es⟩
  · obtain ⟨t, ht⟩ : ∃ t, Walks (items es) s [i] t := exists_walks s (by simpa using hi)
    exact ⟨t, ht, fun u hu => hu.unique ht⟩
  · obtain ⟨t, ht⟩ : ∃ t, Walks (items es) ⟨[], []⟩ (turns (items es)) t :=
      exists_walks _ fun _ => lt_of_mem_turns
    exact ⟨t, ht, fun u hu => hu.unique ht⟩

/-- Three entries of which two have the same key and refer to the third, which refers to them; one that
refers to itself; and one that refers to none. -/
def tangledEntries : List (String × Node) :=
  [hinted "a" "after b", hinted "b" "before a", hinted "a" "before b 5", hinted "c" "after c",
    hinted "d" "before e"]

/-- Each of the tangled entries has its place, the one with a repeated key included. -/
theorem placing_loses_nothing_tangledEntries :
    1 < tangledEntries.length ∧ (∃! t, Walks (items tangledEntries) ⟨[], []⟩ [1] t) ∧
    (arrange tangledEntries).Perm tangledEntries ∧
    arrange tangledEntries = [hinted "c" "after c", hinted "d" "before e", hinted "a" "before b 5",
      hinted "b" "before a", hinted "a" "after b"] := by
  obtain ⟨hends, _, _, hperm⟩ := placing_loses_nothing tangledEntries
  exact ⟨by decide, hends _ 1 (by decide), hperm, rfl⟩

end FusionInspect.Placement
