import FusionInspect.Display.Flatten
import FusionInspect.Proofs.Display.Listing

/-!
# One level of a display

A level holds the last contribution at each key, placed by position, with meta keys moved to the front
in the order of their lower case. So a level is a permutation of the entries it collects.

Meta keys leave their places after the others were placed, and bookkeeping leaves the root altogether.
Placing a level again can therefore move an entry whose reference is gone from where it was. A level is
UNTANGLED when that cannot happen: then it stays as it is when it is placed again
(`Untangled.laid_filter_laid`).
-/

namespace FusionInspect.Display

open Placement

/-- Whether the lower case of a key may come before that of another. -/
def lowerLE (d e : String × Node) : Bool :=
  decide (Text.lower d.1 ≤ Text.lower e.1)

theorem lowerLE_trans (a b c : String × Node) (hab : lowerLE a b = true) (hbc : lowerLE b c = true) :
    lowerLE a c = true := by
  rw [lowerLE, decide_eq_true_eq] at *
  exact String.le_trans hab hbc

theorem lowerLE_total (a b : String × Node) : lowerLE a b = true ∨ lowerLE b a = true := by
  simp only [lowerLE, decide_eq_true_eq]
  exact String.le_total _ _

/-- Meta keys come first, sorted by their lower case, and the others stay in their order. -/
theorem hoistMeta_eq (es : List (String × Node)) :
    hoistMeta es = Order.sort lowerLE (es.filter fun e => isMetaKey e.1) ++
      es.filter fun e => !isMetaKey e.1 := by
  rw [hoistMeta, List.partition_eq_filter_filter]
  rfl

theorem hoistMeta_perm (es : List (String × Node)) : (hoistMeta es).Perm es := by
  rw [hoistMeta_eq]
  exact ((Order.sort_perm _ _).append_right _).trans (List.filter_append_perm _ es)

/-- Entries in their places, meta keys first. -/
def laid (es : List (String × Node)) : List (String × Node) :=
  hoistMeta (arrange es)

theorem laid_perm (es : List (String × Node)) : (laid es).Perm es :=
  (hoistMeta_perm _).trans (arrange_perm es)

theorem nodup_keys_laid {es : List (String × Node)} (h : (es.map Prod.fst).Nodup) :
    ((laid es).map Prod.fst).Nodup :=
  ((laid_perm es).map Prod.fst).nodup_iff.mpr h

/-- A level is its contributions, collected and laid. -/
theorem level_eq (cs : List (String × Node)) : level cs = laid (Branch.ofEntries cs) :=
  Entries.collect_of_nodup (nodup_keys_laid (Entries.nodup_collect cs))

/-- Contributions with distinct keys need no collecting. -/
theorem level_of_nodup {cs : List (String × Node)} (h : (cs.map Prod.fst).Nodup) :
    level cs = laid cs := by
  rw [level_eq, Branch.ofEntries, Entries.collect_of_nodup h]

/-- Every entry of a level was contributed. -/
theorem mem_of_mem_level {cs : List (String × Node)} {e : String × Node} (h : e ∈ level cs) :
    e ∈ cs := by
  rw [level_eq, (laid_perm _).mem_iff] at h
  exact Entries.mem_of_mem_collect h

theorem nodup_keys_level (cs : List (String × Node)) : ((level cs).map Prod.fst).Nodup := by
  rw [level_eq]
  exact nodup_keys_laid (Entries.nodup_collect cs)

/-! ## Levels that stay as they are -/

/-- Every entry is rooted, nothing that stays refers to a meta key or to a hidden one, and no two meta
keys have the same lower case. -/
structure Untangled (hidden : String → Bool) (es : List (String × Node)) : Prop where
  rooted : ∀ e ∈ es, ∃ n, Rooted es n e
  keeps : ∀ d ∈ es, ∀ e ∈ es, beside? es e = some d.1 →
    isMetaKey d.1 || hidden d.1 → isMetaKey e.1 || hidden e.1
  distinct : ∀ d ∈ es, ∀ e ∈ es, isMetaKey d.1 → isMetaKey e.1 →
    Text.lower d.1 = Text.lower e.1 → d.1 = e.1

section

variable {hidden : String → Bool} {es fs : List (String × Node)} {d e : String × Node}

/-- A level without references is untangled, if its meta keys differ in lower case. -/
theorem untangled_of_anchored (h : ∀ e ∈ es, beside? es e = none)
    (hdistinct : ∀ d ∈ es, ∀ e ∈ es, isMetaKey d.1 → isMetaKey e.1 →
      Text.lower d.1 = Text.lower e.1 → d.1 = e.1) : Untangled hidden es where
  rooted e he := ⟨0, .anchor (h e he)⟩
  keeps d _ e he hbeside := by
    rw [h e he] at hbeside
    cases hbeside
  distinct := hdistinct

/-- Leaving out entries tangles nothing. -/
theorem Untangled.of_subset (hnd : (es.map Prod.fst).Nodup) (h : Untangled hidden es)
    (hsub : ∀ e ∈ fs, e ∈ es) : Untangled hidden fs where
  rooted e he := by
    obtain ⟨n, hn⟩ := h.rooted e (hsub e he)
    exact hn.of_subset hnd hsub
  keeps d hd e he hbeside := h.keeps d (hsub d hd) e (hsub e he) (beside?_of_subset hsub hbeside)
  distinct d hd e he := h.distinct d (hsub d hd) e (hsub e he)

/-- The meta keys of an untangled level come in one order only. -/
theorem Untangled.sort_meta_eq (hnd : (es.map Prod.fst).Nodup) (h : Untangled hidden es)
    {l m : List (String × Node)} (hl : ∀ e ∈ l, e ∈ es ∧ isMetaKey e.1 = true) (hperm : l.Perm m) :
    Order.sort lowerLE l = Order.sort lowerLE m := by
  refine List.Perm.eq_of_pairwise ?_ (Order.pairwise_sort lowerLE_trans lowerLE_total l)
    (Order.pairwise_sort lowerLE_trans lowerLE_total m)
    ((Order.sort_perm _ l).trans (hperm.trans (Order.sort_perm _ m).symm))
  intro d e hd he hde hed
  obtain ⟨hdmem, hdmeta⟩ := hl d (Order.mem_sort.mp hd)
  obtain ⟨hemem, hemeta⟩ := hl e (hperm.mem_iff.mpr (Order.mem_sort.mp he))
  rw [lowerLE, decide_eq_true_eq] at hde hed
  exact eq_of_key_eq hnd hdmem hemem
    (h.distinct d hdmem e hemem hdmeta hemeta (String.le_antisymm hde hed))

/-- Whether an entry has neither a meta key nor a hidden one. -/
def stays (hidden : String → Bool) (e : String × Node) : Bool :=
  !(isMetaKey e.1 || hidden e.1)

/-- What is left when hidden keys go: the meta keys in their order, and the rest in its places. -/
theorem filter_laid (hhidden : ∀ key, hidden key = true → isMetaKey key = false)
    (es : List (String × Node)) : ((laid es).filter fun e => !hidden e.1) =
      Order.sort lowerLE ((arrange es).filter fun e => isMetaKey e.1) ++
        (arrange es).filter (stays hidden) := by
  rw [laid, hoistMeta_eq, List.filter_append, List.filter_filter]
  congr 1
  · refine List.filter_eq_self.mpr fun e he => ?_
    have hmeta : isMetaKey e.1 = true := (List.mem_filter.mp (Order.mem_sort.mp he)).2
    cases hhid : hidden e.1 with
    | false => rfl
    | true => rw [hhidden _ hhid] at hmeta; cases hmeta
  · refine List.filter_congr fun e _ => ?_
    rw [stays, Bool.not_or, Bool.and_comm]

/-- In an untangled level, what stays can be placed without what goes. -/
theorem Untangled.filter_arrange (hnd : (es.map Prod.fst).Nodup) (h : Untangled hidden es) :
    (arrange es).filter (stays hidden) = arrange (es.filter (stays hidden)) := by
  refine Placement.filter_arrange (fun d hd e he hbeside hstays => ?_) hnd h.rooted
  have hkeeps := h.keeps d hd e he hbeside
  simp only [stays, Bool.not_eq_true', Bool.eq_false_iff] at hstays ⊢
  exact fun hgone => hstays (hkeeps hgone)

/-- What is left of an untangled level when hidden keys go stays as it is when it is laid again. -/
theorem Untangled.laid_filter_laid (hnd : (es.map Prod.fst).Nodup) (h : Untangled hidden es)
    (hhidden : ∀ key, hidden key = true → isMetaKey key = false) :
    laid ((laid es).filter fun e => !hidden e.1) = (laid es).filter fun e => !hidden e.1 := by
  have hsplit := filter_laid hhidden es
  generalize hb : (laid es).filter (fun e => !hidden e.1) = b at hsplit ⊢
  have hsub : ∀ e ∈ b, e ∈ es := by
    intro e he
    rw [← hb] at he
    exact (laid_perm es).mem_iff.mp (List.mem_filter.mp he).1
  have hshown : ∀ e ∈ b, hidden e.1 = false := by
    intro e he
    rw [← hb] at he
    exact (Bool.not_eq_true' _).mp (List.mem_filter.mp he).2
  have hbnd : (b.map Prod.fst).Nodup := by
    rw [← hb]
    exact (nodup_keys_laid hnd).sublist (List.filter_sublist.map Prod.fst)
  have hstay : b.filter (stays hidden) = (arrange es).filter (stays hidden) := by
    have hgone : (Order.sort lowerLE ((arrange es).filter fun e => isMetaKey e.1)).filter
        (stays hidden) = [] := by
      refine List.filter_eq_nil_iff.mpr fun e he => ?_
      rw [Order.mem_sort, List.mem_filter] at he
      simp [stays, he.2]
    rw [hsplit, List.filter_append, hgone, List.nil_append, List.filter_filter]
    simp only [Bool.and_self]
  -- the entries that stay are placed as they were, whatever went from among them
  have hplaced : (arrange b).filter (fun e => !isMetaKey e.1) = (arrange es).filter (stays hidden) :=
    calc (arrange b).filter (fun e => !isMetaKey e.1)
      _ = (arrange b).filter (stays hidden) := by
        refine List.filter_congr fun e he => ?_
        rw [stays, hshown e ((arrange_perm b).mem_iff.mp he), Bool.or_false]
      _ = arrange ((arrange es).filter (stays hidden)) := by
        rw [(h.of_subset hnd hsub).filter_arrange hbnd, hstay]
      _ = arrange (es.filter (stays hidden)) := by
        have hkept : ∀ e ∈ es.filter (stays hidden), e ∈ es := fun e he => (List.mem_filter.mp he).1
        rw [h.filter_arrange hnd]
        exact arrange_arrange (hnd.sublist (List.filter_sublist.map Prod.fst))
          (h.of_subset hnd hkept).rooted
      _ = (arrange es).filter (stays hidden) := (h.filter_arrange hnd).symm
  have hmetas : ((arrange b).filter fun e => isMetaKey e.1).Perm
      ((arrange es).filter fun e => isMetaKey e.1) := by
    have hfilter : (b.filter fun e => isMetaKey e.1) = (laid es).filter fun e => isMetaKey e.1 := by
      rw [← hb, List.filter_filter]
      refine List.filter_congr fun e _ => ?_
      cases hhid : hidden e.1 with
      | false => simp
      | true => simp [hhidden _ hhid]
    refine ((arrange_perm b).filter _).trans ?_
    rw [hfilter]
    exact (hoistMeta_perm _).filter _
  have hsorted := h.sort_meta_eq hnd (fun e he => by
    obtain ⟨hmem, hmeta⟩ := List.mem_filter.mp he
    exact ⟨hsub e ((arrange_perm b).mem_iff.mp hmem), hmeta⟩) hmetas
  rw [laid, hoistMeta_eq, hplaced, hsorted, ← hsplit]

end

end FusionInspect.Display
