import FusionInspect.Display.Placement
import Mathlib.Data.List.Perm.Subperm
import Mathlib.Data.List.Forall2
import Mathlib.Data.List.Nodup

/-!
# What placing does to entries

Placing marks and places further indices, each once, and the sweep at its end leaves none out. So the
entries in their places are a permutation of the given ones (`arrange_perm`), whatever their positions
refer to.

Where they stand is told by groups of entries: the anchored ones (`roots`), and those before and after
a key. The indices that a walk follows point to these groups (`points_group`), and an entry is in one
group only (`count_roots`, `count_besides`).
-/

namespace FusionInspect.Placement

/-! ## The walk -/

/-- The second state has further indices placed, all of them below a bound and marked, none twice. -/
structure Extends (bound : Nat) (s t : Placed) (new : List Nat) : Prop where
  order : t.order = s.order ++ new
  marked : t.marked.Perm (new ++ s.marked)
  nodup : s.marked.Nodup → t.marked.Nodup
  below : ∀ i ∈ new, i < bound

theorem Extends.refl (bound : Nat) (s : Placed) : Extends bound s s [] :=
  ⟨(List.append_nil _).symm, .refl _, id, fun _ h => (List.not_mem_nil h).elim⟩

/-- What two steps place, one after the other, both of them place. -/
theorem Extends.trans {bound : Nat} {s t u : Placed} {l m : List Nat} (h : Extends bound s t l)
    (h' : Extends bound t u m) : Extends bound s u (l ++ m) := by
  refine ⟨?_, ?_, h'.nodup ∘ h.nodup, fun i hi => ?_⟩
  · rw [h'.order, h.order, List.append_assoc]
  · calc u.marked.Perm (m ++ t.marked) := h'.marked
      _ |>.Perm (m ++ (l ++ s.marked)) := h.marked.append_left m
      _ |>.Perm (l ++ m ++ s.marked) := by
        rw [← List.append_assoc]
        exact List.perm_append_comm.append_right _
  · exact (List.mem_append.mp hi).elim (h.below i) (h'.below i)

theorem Extends.mem_marked {bound : Nat} {s t : Placed} {new : List Nat} {i : Nat}
    (h : Extends bound s t new) : i ∈ t.marked ↔ i ∈ new ∨ i ∈ s.marked := by
  rw [h.marked.mem_iff, List.mem_append]

/-- An index that was marked first is placed behind those that were placed since. -/
theorem Extends.placed {bound : Nat} {s t : Placed} {front : List Nat} {i : Nat}
    (h : Extends bound { s with marked := i :: s.marked } t front) (hi : i ∉ s.marked)
    (hbound : i < bound) : Extends bound s { t with order := t.order ++ [i] } (front ++ [i]) := by
  refine ⟨?_, ?_, fun hs => h.nodup (List.nodup_cons.mpr ⟨hi, hs⟩), fun j hj => ?_⟩
  · simp only [h.order, List.append_assoc]
  · rw [List.append_assoc]
    exact h.marked
  · rcases List.mem_append.mp hj with hj | hj
    · exact h.below j hj
    · rwa [List.mem_singleton.mp hj]

/-- What each step of a walk extends, the whole walk extends. -/
theorem extends_foldl {bound : Nat} {f : Placed → Nat → Placed}
    (hf : ∀ s i, ∃ new, Extends bound s (f s i) new) (s : Placed) (xs : List Nat) :
    ∃ new, Extends bound s (xs.foldl f s) new := by
  induction xs generalizing s with
  | nil => exact ⟨[], .refl bound s⟩
  | cons i rest ih =>
    obtain ⟨l, hl⟩ := hf s i
    obtain ⟨m, hm⟩ := ih (f s i)
    exact ⟨l ++ m, hl.trans hm⟩

/-- A marked index is passed over. -/
theorem place_marked {is : List Item} {fuel : Nat} {s : Placed} {i : Nat} (h : i ∈ s.marked) :
    place is fuel s i = s := by
  cases fuel with
  | zero => rfl
  | succ fuel => rw [place, if_pos (List.contains_iff_mem.mpr h)]

/-- Any other is marked, and placed between those before it and those after it. -/
theorem place_unmarked {is : List Item} {fuel : Nat} {s : Placed} {i : Nat} {item : Item}
    (h : i ∉ s.marked) (hi : is[i]? = some item) :
    place is (fuel + 1) s i =
      (ranked (afterRank item.key) is).foldl (place is fuel)
        { (ranked (beforeRank item.key) is).foldl (place is fuel) { s with marked := i :: s.marked } with
          order := ((ranked (beforeRank item.key) is).foldl (place is fuel)
            { s with marked := i :: s.marked }).order ++ [i] } := by
  rw [place, if_neg (by simpa using h), hi]

/-- A step of the walk: an index that is not marked yet is placed between those beside it. -/
theorem extends_place (is : List Item) (fuel : Nat) (s : Placed) (i : Nat) :
    ∃ new, Extends is.length s (place is fuel s i) new ∧
      (0 < fuel → i < is.length → i ∈ (place is fuel s i).marked) := by
  induction fuel generalizing s i with
  | zero => exact ⟨[], .refl _ s, fun h => absurd h (Nat.lt_irrefl 0)⟩
  | succ fuel ih =>
    by_cases hmarked : i ∈ s.marked
    · rw [place_marked hmarked]
      exact ⟨[], .refl _ s, fun _ _ => hmarked⟩
    cases hi : is[i]? with
    | none =>
      have hlen : is.length ≤ i := List.getElem?_eq_none_iff.mp hi
      rw [place, if_neg (by simpa using hmarked), hi]
      exact ⟨[], .refl _ s, fun _ h => absurd h (Nat.not_lt.mpr hlen)⟩
    | some item =>
      have hstep : ∀ s i, ∃ new, Extends is.length s (place is fuel s i) new :=
        fun s i => (ih s i).imp fun _ h => h.1
      rw [place_unmarked hmarked hi]
      obtain ⟨front, hfront⟩ :=
        extends_foldl hstep { s with marked := i :: s.marked } (ranked (beforeRank item.key) is)
      have hself := hfront.placed hmarked (List.getElem?_eq_some_iff.mp hi).1
      obtain ⟨back, hback⟩ := extends_foldl hstep _ (ranked (afterRank item.key) is)
      exact ⟨_, hself.trans hback, fun _ _ =>
        (hself.trans hback).mem_marked.mpr (.inl (by simp))⟩

/-- A walk over some indices marks all of them. -/
theorem mem_marked_foldl {is : List Item} {fuel : Nat} (hfuel : 0 < fuel) {xs : List Nat}
    (hxs : ∀ i ∈ xs, i < is.length) (s : Placed) :
    ∀ i ∈ xs, i ∈ (xs.foldl (place is fuel) s).marked := by
  induction xs generalizing s with
  | nil => exact fun _ h => (List.not_mem_nil h).elim
  | cons j rest ih =>
    intro i hi
    obtain ⟨hj, hrest⟩ := List.forall_mem_cons.mp hxs
    rcases List.mem_cons.mp hi with rfl | hi
    · obtain ⟨_, _, hmarks⟩ := extends_place is fuel s i
      obtain ⟨_, hext⟩ := extends_foldl
        (fun s i => (extends_place is fuel s i).imp fun _ h => h.1) (place is fuel s i) rest
      exact hext.mem_marked.mpr (.inr (hmarks hfuel hj))
    · exact ih hrest _ i hi

/-- Every index is placed once: the anchored ones in their turns, and what is left at last. -/
theorem order_perm (is : List Item) : (order is).Perm (List.range is.length) := by
  have hstep : ∀ s i, ∃ new, Extends is.length s (place is is.length s i) new :=
    fun s i => (extends_place is is.length s i).imp fun _ h => h.1
  obtain ⟨new, hnew⟩ := extends_foldl hstep ⟨[], []⟩
    (ranked startRank is ++ ranked middleRank is ++ ranked finishRank is ++ List.range is.length)
  have horder : order is = new := hnew.order
  have hmarked := hnew.marked
  rw [List.append_nil] at hmarked
  have hnodup : new.Nodup := hmarked.nodup (hnew.nodup .nil)
  rw [horder, List.perm_ext_iff_of_nodup hnodup List.nodup_range]
  intro i
  rw [List.mem_range]
  refine ⟨hnew.below i, fun hi => hmarked.mem_iff.mp ?_⟩
  -- whatever the groups left out, the sweep over all indices marks
  rw [List.foldl_append]
  exact mem_marked_foldl (Nat.zero_lt_of_lt hi) (fun j hj => List.mem_range.mp hj) _ i
    (List.mem_range.mpr hi)

/-- There is an item for each entry. -/
theorem length_itemsFrom (keys : List String) (i : Nat) (es : List (String × Node)) :
    (itemsFrom keys i es).length = es.length := by
  induction es generalizing i with
  | nil => rfl
  | cons e rest ih => rw [itemsFrom, List.length_cons, ih, List.length_cons]

theorem length_items (es : List (String × Node)) : (items es).length = es.length :=
  length_itemsFrom _ 0 es

theorem filterMap_getElem?_range {α : Type} (l : List α) :
    (List.range l.length).filterMap (fun i => l[i]?) = l := by
  induction l with
  | nil => rfl
  | cons a rest ih =>
    rw [List.length_cons, List.range_succ_eq_map, List.filterMap_cons, List.filterMap_map]
    simpa using ih

/-- Placing neither loses nor repeats nor changes an entry. -/
theorem arrange_perm (es : List (String × Node)) : (arrange es).Perm es := by
  have h := (order_perm (items es)).filterMap fun i => es[i]?
  rw [length_items, filterMap_getElem?_range] at h
  exact h

/-! ## Groups of entries -/

/-- The position of an entry among some entries. -/
def position (es : List (String × Node)) (e : String × Node) : Position :=
  anchored (es.map Prod.fst) e.1 (Position.ofEntry e.1 e.2)

/-- The key that a position refers to. -/
def reference? : Position → Option String
  | .before r _ => some r
  | .after r _ => some r
  | _ => none

/-- The sibling that an entry stands beside; an anchored entry has none. -/
def beside? (es : List (String × Node)) (e : String × Node) : Option String :=
  reference? (position es e)

/-- Whether an entry may stand before another in a group that is ranked so. -/
def rankLE (rank : Position → Option Int) (es : List (String × Node)) (d e : String × Node) : Bool :=
  decide ((rank (position es d)).getD 0 ≤ (rank (position es e)).getD 0)

/-- The entries that have a rank, by ascending rank, ties in the given order. -/
def group (rank : Position → Option Int) (es : List (String × Node)) : List (String × Node) :=
  Order.sort (rankLE rank es) (es.filter fun e => (rank (position es e)).isSome)

/-- The anchored entries: those at the start, those in the middle, those at the end. -/
def roots (es : List (String × Node)) : List (String × Node) :=
  group startRank es ++ group middleRank es ++ group finishRank es

section

variable {rank : Position → Option Int} {es : List (String × Node)} {e : String × Node}

/-- A group has the entries that have a rank. -/
theorem group_perm (rank : Position → Option Int) (es : List (String × Node)) :
    (group rank es).Perm (es.filter fun e => (rank (position es e)).isSome) :=
  Order.sort_perm _ _

theorem mem_group : e ∈ group rank es ↔ e ∈ es ∧ (rank (position es e)).isSome := by
  rw [(group_perm rank es).mem_iff, List.mem_filter]

theorem rankLE_trans (a b c : String × Node) (hab : rankLE rank es a b = true)
    (hbc : rankLE rank es b c = true) : rankLE rank es a c = true := by
  rw [rankLE, decide_eq_true_eq] at *
  exact Int.le_trans hab hbc

theorem rankLE_total (a b : String × Node) : rankLE rank es a b = true ∨ rankLE rank es b a = true := by
  simp only [rankLE, decide_eq_true_eq]
  exact Int.le_total _ _

theorem pairwise_group : (group rank es).Pairwise fun a b => rankLE rank es a b = true :=
  Order.pairwise_sort rankLE_trans rankLE_total _

end

/-! Items carry indices; the groups of items point to the groups of entries. -/

/-- Indices that point to entries, one by one. -/
abbrev Points (es : List (String × Node)) : List Nat → List (String × Node) → Prop :=
  List.Forall₂ fun i e => es[i]? = some e

/-- Each item has its number, its key and its position. -/
theorem itemsFrom_eq (keys : List String) (i : Nat) (es : List (String × Node)) :
    itemsFrom keys i es =
      (es.zipIdx i).map fun p => ⟨p.2, p.1.1, anchored keys p.1.1 (Position.ofEntry p.1.1 p.1.2)⟩ := by
  induction es generalizing i with
  | nil => rfl
  | cons e rest ih => rw [itemsFrom, ih, List.zipIdx_cons, List.map_cons]

/-- The item at an index is that of the entry there. -/
theorem getElem?_items {es : List (String × Node)} {i : Nat} {e : String × Node}
    (h : es[i]? = some e) : (items es)[i]? = some ⟨i, e.1, position es e⟩ := by
  rw [items, itemsFrom_eq, List.getElem?_map, List.getElem?_zipIdx, h]
  simp [position]

/-- The indices of a group of items point to the group of entries with the same ranks. -/
theorem points_group (rank : Position → Option Int) (es : List (String × Node)) :
    Points es (ranked rank (items es)) (group rank es) := by
  -- both are read off the entries paired with their indices, filtered and sorted by rank
  let le : ((String × Node) × Nat) → ((String × Node) × Nat) → Bool :=
    fun p q => rankLE rank es p.1 q.1
  let kept := es.zipIdx.filter fun p => (rank (position es p.1)).isSome
  have hkept : (es.filter fun e => (rank (position es e)).isSome) = kept.map Prod.fst := by
    have h : ((es.zipIdx.map Prod.fst).filter fun e => (rank (position es e)).isSome) =
        kept.map Prod.fst := List.filter_map
    rwa [List.zipIdx_map_fst] at h
  have hentries : group rank es = (Order.sort le kept).map Prod.fst := by
    rw [group, hkept, Order.sort_map]
  have hranks : ((items es).filterMap fun i => (rank i.position).map (·, i.index)) =
      kept.map fun p => ((rank (position es p.1)).getD 0, p.2) := by
    rw [items, itemsFrom_eq, List.filterMap_map]
    simp only [kept]
    generalize es.zipIdx = ps
    induction ps with
    | nil => rfl
    | cons p rest ih =>
      cases hp : rank (position es p.1) with
      | none => simp_all [position]
      | some r => simp_all [position]
  rw [ranked, hranks, hentries, Order.sort_map, List.map_map, Points, List.forall₂_map_left_iff,
    List.forall₂_map_right_iff]
  refine List.forall₂_same.mpr fun p hp => ?_
  have hmem : p ∈ es.zipIdx := (List.mem_filter.mp (Order.mem_sort.mp hp)).1
  exact List.mem_zipIdx_iff_getElem?.mp hmem

/-! ## References -/

section

variable {es fs : List (String × Node)} {d e : String × Node} {k : String}

theorem mem_keys (h : e ∈ es) : e.1 ∈ es.map Prod.fst :=
  List.mem_map.mpr ⟨e, h, rfl⟩

/-- If no key comes twice, an entry is known by its key. -/
theorem eq_of_key_eq (hnd : (es.map Prod.fst).Nodup) (hd : d ∈ es) (he : e ∈ es) (h : d.1 = e.1) :
    d = e :=
  List.inj_on_of_nodup_map hnd hd he h

/-- An entry stands beside what its position refers to, if that is the key of another. -/
theorem beside?_eq_some : beside? es e = some k ↔
    reference? (Position.ofEntry e.1 e.2) = some k ∧ k ≠ e.1 ∧ k ∈ es.map Prod.fst := by
  rw [beside?, position]
  cases Position.ofEntry e.1 e.2 with
  | before r p =>
    rw [anchored]
    split <;> grind [reference?]
  | after r p =>
    rw [anchored]
    split <;> grind [reference?]
  | start p => simp [anchored, reference?]
  | middle x => simp [anchored, reference?]
  | finish p => simp [anchored, reference?]

/-- Adding entries takes no reference away. -/
theorem beside?_of_subset (hsub : ∀ e ∈ fs, e ∈ es) {r : String} (h : beside? fs e = some r) :
    beside? es e = some r := by
  obtain ⟨href, hne, hmem⟩ := beside?_eq_some.mp h
  obtain ⟨d, hd, rfl⟩ := List.mem_map.mp hmem
  exact beside?_eq_some.mpr ⟨href, hne, mem_keys (hsub d hd)⟩

/-- The position of an entry depends on the other entries only by which keys there are. -/
theorem position_congr (h : ∀ r, reference? (Position.ofEntry e.1 e.2) = some r → r ≠ e.1 →
    (r ∈ es.map Prod.fst ↔ r ∈ fs.map Prod.fst)) : position es e = position fs e := by
  have hcontains : ∀ r, reference? (Position.ofEntry e.1 e.2) = some r →
      (r != e.1 && (es.map Prod.fst).contains r) = (r != e.1 && (fs.map Prod.fst).contains r) := by
    intro r hr
    by_cases hkey : r = e.1
    · simp [hkey]
    · rw [Bool.eq_iff_iff]
      simp only [bne_iff_ne, ne_eq, Bool.and_eq_true, List.contains_iff_mem, h r hr hkey]
  rw [position, position]
  cases hp : Position.ofEntry e.1 e.2 with
  | before r p => rw [anchored, anchored, hcontains r (by rw [hp]; rfl)]
  | after r p => rw [anchored, anchored, hcontains r (by rw [hp]; rfl)]
  | _ => rfl

/-- The order of the entries does not matter to their positions. -/
theorem position_of_perm (h : fs.Perm es) (e : String × Node) : position fs e = position es e :=
  position_congr fun _ _ _ => (h.map Prod.fst).mem_iff

/-- A position ranks before or after the key that it refers to, and beside no other. -/
theorem besideRanks (p : Position) (k : String) :
    (if (beforeRank k p).isSome then 1 else 0) + (if (afterRank k p).isSome then 1 else 0) =
      if reference? p = some k then 1 else 0 := by
  cases p with
  | before r p => by_cases h : r = k <;> simp [beforeRank, afterRank, reference?, h]
  | after r p => by_cases h : r = k <;> simp [beforeRank, afterRank, reference?, h]
  | _ => simp [beforeRank, afterRank, reference?]

/-- A position that refers to no key has one rank among the anchored. -/
theorem anchorRanks (p : Position) :
    (if (startRank p).isSome then 1 else 0) + (if (middleRank p).isSome then 1 else 0) +
      (if (finishRank p).isSome then 1 else 0) = if reference? p = none then 1 else 0 := by
  cases p <;> simp [startRank, middleRank, finishRank, reference?]

/-- The entries before a key and those after it are the ones that stand beside it. -/
theorem mem_besides : e ∈ group (beforeRank k) es ∨ e ∈ group (afterRank k) es ↔
    e ∈ es ∧ beside? es e = some k := by
  have h := besideRanks (position es e) k
  rw [mem_group, mem_group, beside?]
  grind

/-- The roots are the entries that stand beside none. -/
theorem mem_roots : e ∈ roots es ↔ e ∈ es ∧ beside? es e = none := by
  have h := anchorRanks (position es e)
  rw [roots, List.mem_append, List.mem_append, mem_group, mem_group, mem_group, beside?]
  grind

/-- A group has an entry once or not at all. -/
theorem count_group (hnd : (es.map Prod.fst).Nodup) (he : e ∈ es) (rank : Position → Option Int) :
    ((group rank es).map Prod.fst).count e.1 =
      if (rank (position es e)).isSome then 1 else 0 := by
  have hperm := (group_perm rank es).map Prod.fst
  have hsub : ((group rank es).map Prod.fst).Nodup :=
    hperm.nodup_iff.mpr (hnd.sublist (List.filter_sublist.map Prod.fst))
  have hmem : e.1 ∈ (group rank es).map Prod.fst ↔ (rank (position es e)).isSome := by
    refine ⟨fun h => ?_, fun h => mem_keys (mem_group.mpr ⟨he, h⟩)⟩
    obtain ⟨d, hd, hkey⟩ := List.mem_map.mp h
    obtain ⟨hmem, hrank⟩ := mem_group.mp hd
    rwa [eq_of_key_eq hnd hmem he hkey] at hrank
  rw [hsub.count]
  exact if_congr hmem rfl rfl

/-- An entry stands in one of the two groups beside its reference, once, and in no other. -/
theorem count_besides (hnd : (es.map Prod.fst).Nodup) (he : e ∈ es) (k : String) :
    ((group (beforeRank k) es).map Prod.fst).count e.1 +
      ((group (afterRank k) es).map Prod.fst).count e.1 =
    if beside? es e = some k then 1 else 0 := by
  rw [count_group hnd he, count_group hnd he, besideRanks, beside?]

/-- The roots have an entry once or not at all. -/
theorem count_roots (hnd : (es.map Prod.fst).Nodup) (he : e ∈ es) :
    ((roots es).map Prod.fst).count e.1 = if beside? es e = none then 1 else 0 := by
  rw [roots, List.map_append, List.map_append, List.count_append, List.count_append,
    count_group hnd he, count_group hnd he, count_group hnd he, anchorRanks, beside?]

end

/-- An entry that asks for a place. -/
def hinted (key hint : String) : String × Node :=
  (key, .branch [(Position.hintKey, .scalar (.text hint))])

end FusionInspect.Placement
