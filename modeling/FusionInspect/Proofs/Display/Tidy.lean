import FusionInspect.Proofs.Display.Lookup

/-!
# The order of a display

Every level of a display is TIDY: its keys are distinct, and the meta keys stand in front of the others,
in the order of their lower case. A level is made tidy once, when it is laid out. From then on its node
is only moved: its entry is renamed, or its entries become siblings one level up, and they are laid out
again there.

Nothing is asked of the definition here. Its branches may have a key twice, and its wrappers may stand
anywhere (compare `contribution_contributes`, which says more about definitions without wrappers).
-/

namespace FusionInspect.Display

/-- Distinct keys, and in front of the others the meta keys in the order of their lower case. -/
structure Tidy (b : Branch) : Prop where
  nodup : b.keys.Nodup
  hoisted : ∃ metas others, b.keys = metas ++ others ∧
    (∀ key ∈ metas, isMetaKey key = true) ∧ (∀ key ∈ others, isMetaKey key = false) ∧
    metas.Pairwise fun k l => Text.lower k ≤ Text.lower l

/-- A tidy level that shows something, as each one below the root does. -/
structure TidyBelow (b : Branch) : Prop extends Tidy b where
  nonempty : b ≠ []

/-! ## Levels -/

/-- Every level is tidy, whatever was contributed to it. -/
theorem tidy_level (cs : List (String × Node)) : Tidy (level cs) where
  nodup := nodup_keys_level cs
  hoisted := by
    rw [level_eq, laid, hoistMeta_eq, Branch.keys, List.map_append]
    refine ⟨_, _, rfl, fun key hkey => ?_, fun key hkey => ?_, ?_⟩
    · obtain ⟨e, he, rfl⟩ := List.mem_map.mp hkey
      exact (List.mem_filter.mp (Order.mem_sort.mp he)).2
    · obtain ⟨e, he, rfl⟩ := List.mem_map.mp hkey
      exact (Bool.not_eq_true' _).mp (List.mem_filter.mp he).2
    · refine List.pairwise_map.mpr ?_
      exact (Order.pairwise_sort lowerLE_trans lowerLE_total _).imp of_decide_eq_true

/-- A tidy level stays tidy when some of its keys go. -/
theorem Tidy.filter {b : Branch} (h : Tidy b) (p : String → Bool) :
    Tidy (b.filter fun e => p e.1) := by
  have hkeys : Branch.keys (b.filter fun e => p e.1) = b.keys.filter p := List.filter_map.symm
  obtain ⟨metas, others, hsplit, hmetas, hothers, hsorted⟩ := h.hoisted
  refine ⟨hkeys ▸ h.nodup.filter p, metas.filter p, others.filter p, ?_, ?_, ?_, hsorted.filter p⟩
  · rw [hkeys, hsplit, List.filter_append]
  · exact fun key hkey => hmetas key (List.mem_filter.mp hkey).1
  · exact fun key hkey => hothers key (List.mem_filter.mp hkey).1

/-- What a level holds is tidy if all contributions to it are. -/
theorem eachBelow_level {cs : List (String × Node)} (h : ∀ e ∈ cs, e.2.EachLevel TidyBelow) :
    (level cs).EachBelow TidyBelow :=
  fun e he => h e (mem_of_mem_level he)

/-- What a branch shows is tidy at each level, if what is contributed to it is. -/
theorem eachLevel_of_mem_shown {key : String} {cs : List (String × Node)}
    (h : ∀ e ∈ cs, e.2.EachLevel TidyBelow) {e : String × Node} (he : e ∈ shown key (level cs)) :
    e.2.EachLevel TidyBelow := by
  obtain ⟨rfl, hne⟩ := mem_shown he
  exact .branch ⟨tidy_level cs, hne⟩ (eachBelow_level h)

/-! ## Contributions -/

mutual

/-- Whatever an entry contributes is free of wrappers, and tidy at each level. -/
theorem contribution_tidy (known : String → Bool) (key : String) : ∀ n : Node,
    ∀ e ∈ contribution known key n, e.2.EachLevel TidyBelow
  | .scalar s, e, he => by
    rw [contribution, List.mem_singleton] at he
    rw [he]
    exact .scalar s
  | .wrapper w, e, he => by
    rw [contribution] at he
    split at he
    · next s _ =>
      rw [List.mem_singleton.mp he]
      exact .scalar s
    · refine eachLevel_of_mem_shown (fun d hd => ?_) he
      obtain ⟨s, rfl⟩ := Wrapper.mem_toBranch hd
      exact .scalar _
  | .branch b, e, he => by
    rw [contribution] at he
    split at he
    · -- meta properties leave their level, which was laid out before
      obtain ⟨d, hd, rfl⟩ := List.mem_map.mp he
      exact eachBelow_level (contributions_tidy known false b) d hd
    · split at he
      · exact eachLevel_of_mem_shown (contributions_tidy known true b) he
      · exact eachLevel_of_mem_shown (contributions_tidy known false b) he

/-- All contributions are tidy at each level, by induction on the branch. -/
theorem contributions_tidy (known : String → Bool) (typed : Bool) : ∀ b : Branch,
    ∀ e ∈ contributions known typed b, e.2.EachLevel TidyBelow
  | [], e, he => by
    rw [contributions] at he
    exact (List.not_mem_nil he).elim
  | (key, n) :: rest, e, he => by
    rw [contributions, List.mem_append] at he
    rcases he with he | he
    · split at he
      · exact (List.not_mem_nil he).elim
      · exact contribution_tidy known key n e he
    · exact contributions_tidy known typed rest e he

end

/-- **The form of a display.** There is no wrapper in it and below its root no empty branch, every level is
tidy, and the bookkeeping is gone from the root. -/
theorem flatten_tidy (table definition : Branch) :
    Tidy (flatten table definition) ∧
    (flatten table definition).EachBelow TidyBelow ∧
    (flatten table definition).has Key.prototypeObjectName = false ∧
    (flatten table definition).has Key.stopInheritanceChain = false := by
  have hgone : ∀ key, isBookkeeping key = true → (flatten table definition).has key = false := by
    intro key hkey
    rw [Branch.has, get?_flatten_eq, if_pos hkey]
    rfl
  refine ⟨?_, ?_, hgone _ rfl, hgone _ rfl⟩
  · rw [flatten_eq]
    exact (tidy_level _).filter fun key => !isBookkeeping key
  · rw [flatten_eq]
    intro e he
    exact eachBelow_level (contributions_tidy table.has false definition) e (List.mem_filter.mp he).1

end FusionInspect.Display
