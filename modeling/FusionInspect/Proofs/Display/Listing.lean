import FusionInspect.Proofs.Display.Placement

/-!
# Entries listed by their references

A listing takes entries one by one, each with the listing of those before it in front and the listing
of those after it behind. If the references of every entry lead to an anchored one (`Rooted`), then the
entries in their places are the listing of the anchored ones (`listed_arrange`), and a listing is
determined by what it lists (`Listed.unique`).

So placing twice is placing once (`arrange_arrange`), and entries that no other kept entry refers to
may be left out before or after placing (`filter_arrange`).
-/

namespace FusionInspect.Placement

/-- The listing of some entries, each between those before it and those after it. -/
inductive Listed (es : List (String × Node)) : List (String × Node) → List (String × Node) → Prop
  | nil : Listed es [] []
  | cons {e : String × Node} {rest front back others : List (String × Node)} :
      Listed es (group (beforeRank e.1) es) front → Listed es (group (afterRank e.1) es) back →
      Listed es rest others → Listed es (e :: rest) (front ++ e :: (back ++ others))

/-- The number of references that lead from an entry to an anchored one. -/
inductive Rooted (es : List (String × Node)) : Nat → String × Node → Prop
  | anchor {e : String × Node} : beside? es e = none → Rooted es 0 e
  | beside {n : Nat} {d e : String × Node} :
      d ∈ es → beside? es e = some d.1 → Rooted es n d → Rooted es (n + 1) e

section

variable {es fs xs l m : List (String × Node)} {d e : String × Node}

/-! ## Listings -/

/-- There is one listing at most. -/
theorem Listed.unique (h : Listed es xs l) (h' : Listed es xs m) : l = m := by
  induction h generalizing m with
  | nil => cases h'; rfl
  | cons _ _ _ ihfront ihback ihothers =>
    cases h' with
    | cons hfront hback hothers => rw [ihfront hfront, ihback hback, ihothers hothers]

/-- What passes from an entry to those beside it passes through a listing. -/
theorem Listed.forall_mem {C : String × Node → Prop}
    (hC : ∀ d e, C d → e ∈ es → beside? es e = some d.1 → C e) (h : Listed es xs l)
    (hxs : ∀ e ∈ xs, C e) : ∀ e ∈ l, C e := by
  induction h with
  | nil => exact hxs
  | @cons e rest front back others _ _ _ ihfront ihback ihothers =>
    obtain ⟨he, hrest⟩ := List.forall_mem_cons.mp hxs
    have hbesides : ∀ d, d ∈ group (beforeRank e.1) es ∨ d ∈ group (afterRank e.1) es → C d := by
      intro d hd
      obtain ⟨hmem, href⟩ := mem_besides.mp hd
      exact hC e d he hmem href
    intro d hd
    rcases List.mem_append.mp hd with hd | hd
    · exact ihfront (fun c hc => hbesides c (.inl hc)) d hd
    rcases List.mem_cons.mp hd with rfl | hd
    · exact he
    rcases List.mem_append.mp hd with hd | hd
    · exact ihback (fun c hc => hbesides c (.inr hc)) d hd
    · exact ihothers hrest d hd

/-- A listing has the entries that it is of, in their order. -/
theorem Listed.sublist (h : Listed es xs l) : xs.Sublist l := by
  induction h with
  | nil => exact .slnil
  | cons _ _ _ _ _ ih =>
    exact ((ih.trans (List.sublist_append_right _ _)).cons_cons _).trans
      (List.sublist_append_right _ _)

/-- A listing has the groups beside each of its entries in order. -/
theorem Listed.besides_sublist (h : Listed es xs l) : ∀ e ∈ l,
    (group (beforeRank e.1) es).Sublist l ∧ (group (afterRank e.1) es).Sublist l := by
  induction h with
  | nil => exact fun _ h => (List.not_mem_nil h).elim
  | @cons e rest front back others hfront hback _ ihfront ihback ihothers =>
    have hfront_le : front.Sublist (front ++ e :: (back ++ others)) := List.sublist_append_left _ _
    have hback_le : back.Sublist (front ++ e :: (back ++ others)) :=
      ((List.sublist_append_left _ _).cons e).trans (List.sublist_append_right _ _)
    have hothers_le : others.Sublist (front ++ e :: (back ++ others)) :=
      ((List.sublist_append_right _ _).cons e).trans (List.sublist_append_right _ _)
    intro d hd
    rcases List.mem_append.mp hd with hd | hd
    · exact (ihfront d hd).imp (·.trans hfront_le) (·.trans hfront_le)
    rcases List.mem_cons.mp hd with rfl | hd
    · exact ⟨hfront.sublist.trans hfront_le, hback.sublist.trans hback_le⟩
    rcases List.mem_append.mp hd with hd | hd
    · exact (ihback d hd).imp (·.trans hback_le) (·.trans hback_le)
    · exact (ihothers d hd).imp (·.trans hothers_le) (·.trans hothers_le)

/-- An entry is listed once for each time it is to be listed, and once beside each time its reference
is listed. -/
theorem Listed.count_eq (hnd : (es.map Prod.fst).Nodup) (he : e ∈ es) (h : Listed es xs l) :
    (l.map Prod.fst).count e.1 =
      (xs.map Prod.fst).count e.1 + l.countP fun d => beside? es e = some d.1 := by
  induction h with
  | nil => rfl
  | @cons d rest front back others _ _ _ ihfront ihback ihothers =>
    have hbesides := count_besides hnd he d.1
    simp only [List.map_append, List.map_cons, List.count_append, List.count_cons,
      List.countP_append, List.countP_cons, decide_eq_true_eq]
    omega

/-! ## Rooted entries -/

/-- The references of an entry lead to one place only, so in one number of steps. -/
theorem Rooted.depth_unique (hnd : (es.map Prod.fst).Nodup) {n k : Nat} (h : Rooted es n e)
    (h' : Rooted es k e) : n = k := by
  induction h generalizing k with
  | anchor hnone =>
    cases h' with
    | anchor => rfl
    | beside _ hsome _ => rw [hnone] at hsome; cases hsome
  | @beside n d e hd hsome _ ih =>
    cases h' with
    | anchor hnone => rw [hnone] at hsome; cases hsome
    | @beside k d' _ hd' hsome' hrooted' =>
      have hkey : d.1 = d'.1 := Option.some.inj (hsome.symm.trans hsome')
      obtain rfl := eq_of_key_eq hnd hd hd' hkey
      rw [ih hrooted']

/-- Leaving out entries leaves the others rooted. -/
theorem Rooted.of_subset (hnd : (es.map Prod.fst).Nodup) (hsub : ∀ e ∈ fs, e ∈ es) {n : Nat}
    (h : Rooted es n e) : ∃ k, Rooted fs k e := by
  induction h with
  | @anchor e hnone =>
    cases hfs : beside? fs e with
    | none => exact ⟨0, .anchor hfs⟩
    | some r =>
      rw [beside?_of_subset hsub hfs] at hnone
      cases hnone
  | @beside n d e hd hsome _ ih =>
    cases hfs : beside? fs e with
    | none => exact ⟨0, .anchor hfs⟩
    | some r =>
      -- the reference is still there, and it is the entry that the others had at its key
      have hr : d.1 = r := Option.some.inj (hsome.symm.trans (beside?_of_subset hsub hfs))
      obtain ⟨c, hc, hkey⟩ := List.mem_map.mp (beside?_eq_some.mp hfs).2.2
      obtain rfl := eq_of_key_eq hnd (hsub c hc) hd (hkey.trans hr.symm)
      obtain ⟨k, hk⟩ := ih
      exact ⟨k + 1, .beside hc (hr ▸ hfs) hk⟩

/-- Finitely many entries are rooted within some number of steps. -/
theorem exists_depth_bound (hnd : (es.map Prod.fst).Nodup) (ds : List (String × Node)) :
    ∃ bound, ∀ e ∈ ds, ∀ n, Rooted es n e → n ≤ bound := by
  induction ds with
  | nil => exact ⟨0, fun _ h => (List.not_mem_nil h).elim⟩
  | cons d rest ih =>
    obtain ⟨bound, hbound⟩ := ih
    by_cases hd : ∃ n, Rooted es n d
    · obtain ⟨n, hn⟩ := hd
      refine ⟨max n bound, List.forall_mem_cons.mpr ⟨fun k hk => ?_, fun e he k hk => ?_⟩⟩
      · rw [hk.depth_unique hnd hn]
        exact Nat.le_max_left _ _
      · exact Nat.le_trans (hbound e he k hk) (Nat.le_max_right _ _)
    · exact ⟨bound, List.forall_mem_cons.mpr ⟨fun n hn => absurd ⟨n, hn⟩ hd, hbound⟩⟩

/-- Entries that are all rooted have a listing: one that stands beside another is deeper than it, and
the depth is bounded. -/
theorem exists_listed {bound : Nat} (hbound : ∀ e ∈ es, ∀ n, Rooted es n e → n ≤ bound) (k : Nat)
    (xs : List (String × Node))
    (hxs : ∀ e ∈ xs, e ∈ es ∧ ∃ n, Rooted es n e ∧ bound < n + k) : ∃ l, Listed es xs l := by
  induction k generalizing xs with
  | zero =>
    cases xs with
    | nil => exact ⟨[], .nil⟩
    | cons e rest =>
      obtain ⟨he, n, hn, hlt⟩ := hxs e List.mem_cons_self
      exact absurd (hbound e he n hn) (Nat.not_le.mpr hlt)
  | succ k ih =>
    induction xs with
    | nil => exact ⟨[], .nil⟩
    | cons e rest ihrest =>
      obtain ⟨⟨he, n, hn, hlt⟩, hrest⟩ := List.forall_mem_cons.mp hxs
      have hbesides : ∀ d, d ∈ group (beforeRank e.1) es ∨ d ∈ group (afterRank e.1) es →
          d ∈ es ∧ ∃ n, Rooted es n d ∧ bound < n + k := by
        intro d hd
        obtain ⟨hmem, href⟩ := mem_besides.mp hd
        exact ⟨hmem, n + 1, .beside he href hn, by omega⟩
      obtain ⟨front, hfront⟩ := ih _ fun d hd => hbesides d (.inl hd)
      obtain ⟨back, hback⟩ := ih _ fun d hd => hbesides d (.inr hd)
      obtain ⟨others, hothers⟩ := ihrest hrest
      exact ⟨_, .cons hfront hback hothers⟩

/-! ## The walk places a listing -/

/-- What an index points to is among what all indices point to. -/
theorem Points.mem {is : List Nat} {i : Nat} (h : Points es is l) (hi : i ∈ is)
    (he : es[i]? = some e) : e ∈ l := by
  induction h with
  | nil => cases hi
  | cons hhead _ ih =>
    rcases List.mem_cons.mp hi with rfl | hi
    · rw [Option.some.inj (he.symm.trans hhead)]
      exact List.mem_cons_self
    · exact List.mem_cons_of_mem _ (ih hi)

/-- Looking up the indices gives what they point to. -/
theorem Points.filterMap_eq {is : List Nat} (h : Points es is l) :
    is.filterMap (fun i => es[i]?) = l := by
  induction h with
  | nil => rfl
  | cons hhead _ ih => rw [List.filterMap_cons, hhead, ih]

/-- A walk over indices that point to some entries places their listing, if nothing of it is marked
and there is fuel for all of it. -/
theorem Listed.extends_foldl_place (h : Listed es xs l) {is : List Nat} {fuel : Nat} {s : Placed}
    (his : Points es is xs) (hfuel : l.length ≤ fuel) (hnd : l.Nodup)
    (hfresh : ∀ i ∈ s.marked, ∀ e ∈ l, es[i]? ≠ some e) :
    ∃ js, Points es js l ∧
      Extends es.length s (is.foldl (place (items es) fuel) s) js := by
  induction h generalizing is fuel s with
  | nil =>
    cases his
    exact ⟨[], .nil, .refl _ s⟩
  | @cons e rest front back others _ _ _ ihfront ihback ihothers =>
    obtain ⟨i, more, hi, hpoints, rfl⟩ :
        ∃ i more, es[i]? = some e ∧ Points es more rest ∧ is = i :: more := by
      cases his with
      | cons hi hpoints => exact ⟨_, _, hi, hpoints, rfl⟩
    obtain ⟨fuel, rfl⟩ : ∃ f, fuel = f + 1 :=
      Nat.exists_eq_succ_of_ne_zero (by rw [List.length_append, List.length_cons] at hfuel; omega)
    simp only [List.length_append, List.length_cons] at hfuel
    have hfuel₁ : front.length ≤ fuel := by omega
    have hfuel₂ : back.length ≤ fuel := by omega
    have hfuel₃ : others.length ≤ fuel + 1 := by omega
    obtain ⟨hfront, hrest, hapart⟩ := List.nodup_append.mp hnd
    obtain ⟨he, hmore⟩ := List.nodup_cons.mp hrest
    obtain ⟨hback, hothers, hapart'⟩ := List.nodup_append.mp hmore
    have hlt : i < es.length := (List.getElem?_eq_some_iff.mp hi).1
    have hunmarked : i ∉ s.marked := fun hmem => hfresh i hmem e (by simp) hi
    -- first those before the entry; it is marked, and does not come among them
    obtain ⟨js₁, hjs₁, hext₁⟩ := ihfront (s := { s with marked := i :: s.marked })
      (points_group (beforeRank e.1) es) hfuel₁ hfront (by
        intro j hj c hc hget
        rcases List.mem_cons.mp hj with rfl | hj
        · exact hapart c hc e (by simp) (Option.some.inj (hget.symm.trans hi))
        · exact hfresh j hj c (by simp [hc]) hget)
    have hself := hext₁.placed hunmarked hlt
    have hplaced : ∀ j ∈ js₁ ++ [i], ∀ c, es[j]? = some c → c ∈ front ∨ c = e := by
      intro j hj c hget
      rcases List.mem_append.mp hj with hj | hj
      · exact .inl (hjs₁.mem hj hget)
      · rw [List.mem_singleton.mp hj, hi] at hget
        exact .inr (Option.some.inj hget).symm
    obtain ⟨js₂, hjs₂, hext₂⟩ := ihback (points_group (afterRank e.1) es) hfuel₂ hback (by
        intro j hj c hc hget
        rcases hself.mem_marked.mp hj with hj | hj
        · rcases hplaced j hj c hget with hc' | rfl
          · exact hapart c hc' c (by simp [hc]) rfl
          · exact he (by simp [hc])
        · exact hfresh j hj c (by simp [hc]) hget)
    have hboth := hself.trans hext₂
    have hplaced' : ∀ j ∈ js₁ ++ [i] ++ js₂, ∀ c ∈ others, es[j]? ≠ some c := by
      intro j hj c hc hget
      rcases List.mem_append.mp hj with hj | hj
      · rcases hplaced j hj c hget with hc' | rfl
        · exact hapart c hc' c (by simp [hc]) rfl
        · exact he (by simp [hc])
      · exact hapart' c (hjs₂.mem hj hget) c hc rfl
    rw [List.foldl_cons, place_unmarked hunmarked (getElem?_items hi)]
    obtain ⟨js₃, hjs₃, hext₃⟩ := ihothers hpoints hfuel₃ hothers (by
        intro j hj c hc hget
        rcases hboth.mem_marked.mp hj with hj | hj
        · exact hplaced' j hj c hc hget
        · exact hfresh j hj c (by simp [hc]) hget)
    refine ⟨js₁ ++ i :: (js₂ ++ js₃), ?_, ?_⟩
    · exact List.rel_append hjs₁ (.cons hi (List.rel_append hjs₂ hjs₃))
    · simpa using hboth.trans hext₃

/-! ## Entries in their places -/

/-- All entries in the listing of the roots are rooted. -/
theorem Listed.rooted_of_roots (h : Listed es (roots es) l) : ∀ e ∈ l, e ∈ es ∧ ∃ n, Rooted es n e := by
  refine h.forall_mem (fun d e hd he href => ?_) fun e he => ?_
  · obtain ⟨hmem, n, hn⟩ := hd
    exact ⟨he, n + 1, .beside hmem href hn⟩
  · obtain ⟨hmem, hnone⟩ := mem_roots.mp he
    exact ⟨hmem, 0, .anchor hnone⟩

/-- A listing of the anchored entries has every rooted entry once. -/
theorem Listed.count_of_rooted (hnd : (es.map Prod.fst).Nodup) (h : Listed es (roots es) l) {n : Nat}
    (hn : Rooted es n e) : e ∈ es → (l.map Prod.fst).count e.1 = 1 := by
  induction hn with
  | anchor hnone =>
    intro he
    rw [h.count_eq hnd he, count_roots hnd he, if_pos hnone, hnone]
    simp
  | @beside n d e hd hsome _ ih =>
    intro he
    rw [h.count_eq hnd he, count_roots hnd he, if_neg (by rw [hsome]; simp), hsome, Nat.zero_add,
      ← ih hd, List.count, List.countP_map]
    refine List.countP_congr fun c _ => ?_
    simp only [Option.some.injEq, decide_eq_true_eq, Function.comp_apply, beq_iff_eq]
    exact eq_comm

/-- In the listing of the roots no key comes twice: an entry is listed beside its reference only. -/
theorem Listed.nodup_of_roots (hnd : (es.map Prod.fst).Nodup) (h : Listed es (roots es) l) :
    (l.map Prod.fst).Nodup := by
  refine List.nodup_iff_count_le_one.mpr fun k => ?_
  by_cases hk : k ∈ l.map Prod.fst
  · obtain ⟨e, he, rfl⟩ := List.mem_map.mp hk
    obtain ⟨hmem, n, hn⟩ := h.rooted_of_roots e he
    exact Nat.le_of_eq (h.count_of_rooted hnd hn hmem)
  · rw [List.count_eq_zero_of_not_mem hk]
    exact Nat.zero_le 1

/-- The listing of the roots has every rooted entry, by induction on the number of its references. -/
theorem Listed.mem_of_rooted (hnd : (es.map Prod.fst).Nodup) (h : Listed es (roots es) l) {n : Nat}
    (hn : Rooted es n e) (he : e ∈ es) : e ∈ l := by
  have hmem : e.1 ∈ l.map Prod.fst :=
    List.count_pos_iff.mp (by rw [h.count_of_rooted hnd hn he]; exact Nat.one_pos)
  obtain ⟨d, hd, hkey⟩ := List.mem_map.mp hmem
  rwa [← eq_of_key_eq hnd (h.rooted_of_roots d hd).1 he hkey]

/-- The entries in their places are the listing of the anchored ones, and behind it those that no
anchored entry is led to. -/
theorem exists_listed_arrange (hnd : (es.map Prod.fst).Nodup) :
    ∃ l rest, arrange es = l ++ rest ∧ Listed es (roots es) l := by
  obtain ⟨bound, hbound⟩ := exists_depth_bound hnd es
  obtain ⟨l, hl⟩ := exists_listed hbound (bound + 1) (roots es) fun e he =>
    have hmem := mem_roots.mp he
    ⟨hmem.1, 0, .anchor hmem.2, by omega⟩
  have hnodup : l.Nodup := .of_map _ (hl.nodup_of_roots hnd)
  have hlen : l.length ≤ (items es).length := by
    rw [length_items]
    exact (List.subperm_of_subset hnodup fun e he => (hl.rooted_of_roots e he).1).length_le
  have hpoints : Points es (ranked startRank (items es) ++ ranked middleRank (items es) ++
      ranked finishRank (items es)) (roots es) :=
    List.rel_append (List.rel_append (points_group _ es) (points_group _ es)) (points_group _ es)
  obtain ⟨js, hjs, hext⟩ := hl.extends_foldl_place (s := ⟨[], []⟩) hpoints hlen hnodup
    fun _ h => (List.not_mem_nil h).elim
  -- the sweep over all indices can only add to what is placed
  obtain ⟨new, hnew⟩ := extends_foldl
    (fun s i => (extends_place (items es) (items es).length s i).imp fun _ h => h.1)
    ((ranked startRank (items es) ++ ranked middleRank (items es) ++
      ranked finishRank (items es)).foldl (place (items es) (items es).length) ⟨[], []⟩)
    (List.range (items es).length)
  have horder : order (items es) = js ++ new := by
    rw [order, List.foldl_append, hnew.order, hext.order, List.nil_append]
  refine ⟨l, new.filterMap fun i => es[i]?, ?_, hl⟩
  rw [arrange, horder, List.filterMap_append, hjs.filterMap_eq]

/-- If every entry is rooted, the entries in their places are the listing of the anchored ones. -/
theorem listed_arrange (hnd : (es.map Prod.fst).Nodup) (hrooted : ∀ e ∈ es, ∃ n, Rooted es n e) :
    Listed es (roots es) (arrange es) := by
  obtain ⟨l, rest, harrange, hl⟩ := exists_listed_arrange hnd
  have hperm : l.Perm es := by
    rw [List.perm_ext_iff_of_nodup (.of_map _ (hl.nodup_of_roots hnd)) (.of_map _ hnd)]
    refine fun e => ⟨fun he => (hl.rooted_of_roots e he).1, fun he => ?_⟩
    obtain ⟨n, hn⟩ := hrooted e he
    exact hl.mem_of_rooted hnd hn he
  have hlen := (arrange_perm es).length_eq
  rw [harrange, List.length_append, hperm.length_eq] at hlen
  rw [harrange, List.eq_nil_of_length_eq_zero (by omega : rest.length = 0), List.append_nil]
  exact hl

/-! ## Placing twice -/

/-- A group that stands in order among the entries is the same group of them. -/
theorem group_of_sublist {rank : Position → Option Int} (hperm : fs.Perm es)
    (h : (group rank es).Sublist fs) : group rank fs = group rank es := by
  have hposition : ∀ e, position fs e = position es e := position_of_perm hperm
  have hle : rankLE rank fs = rankLE rank es := by
    funext d e
    rw [rankLE, rankLE, hposition d, hposition e]
  have hfilter : (fs.filter fun e => (rank (position fs e)).isSome) = group rank es := by
    simp only [hposition]
    have hsub : (group rank es).Sublist (fs.filter fun e => (rank (position es e)).isSome) := by
      have hkept := h.filter fun e => (rank (position es e)).isSome
      rwa [List.filter_eq_self.mpr fun e he => (mem_group.mp he).2] at hkept
    refine (hsub.eq_of_length ?_).symm
    rw [(group_perm rank es).length_eq, (hperm.filter _).length_eq]
  rw [group, hfilter, hle, Order.sort_eq_self pairwise_group]

/-- A listing depends on which entries stand beside each key, and on nothing else. -/
theorem Listed.congr_groups (hfront : ∀ k, group (beforeRank k) fs = group (beforeRank k) es)
    (hback : ∀ k, group (afterRank k) fs = group (afterRank k) es) (h : Listed es xs l) :
    Listed fs xs l := by
  induction h with
  | nil => exact .nil
  | cons _ _ _ ihfront ihback ihothers =>
    exact .cons (by rwa [hfront]) (by rwa [hback]) ihothers

/-- Entries that are rooted stay in their places when they are placed again. -/
theorem arrange_arrange (hnd : (es.map Prod.fst).Nodup) (hrooted : ∀ e ∈ es, ∃ n, Rooted es n e) :
    arrange (arrange es) = arrange es := by
  have hperm : (arrange es).Perm es := arrange_perm es
  have hlisted : Listed es (roots es) (arrange es) := listed_arrange hnd hrooted
  -- every group of the entries stands in order in their places, so it stays the same
  have hbesides : ∀ k, (group (beforeRank k) es).Sublist (arrange es) ∧
      (group (afterRank k) es).Sublist (arrange es) := by
    intro k
    by_cases hk : k ∈ es.map Prod.fst
    · obtain ⟨e, he, rfl⟩ := List.mem_map.mp hk
      exact hlisted.besides_sublist e (hperm.mem_iff.mpr he)
    · have hnone : ∀ e, ¬(e ∈ group (beforeRank k) es ∨ e ∈ group (afterRank k) es) :=
        fun e he => hk (beside?_eq_some.mp (mem_besides.mp he).2).2.2
      rw [List.eq_nil_iff_forall_not_mem.mpr fun e he => hnone e (.inl he),
        List.eq_nil_iff_forall_not_mem.mpr fun e he => hnone e (.inr he)]
      exact ⟨List.nil_sublist _, List.nil_sublist _⟩
  have hroots : roots (arrange es) = roots es := by
    have hsub : (group startRank es ++ group middleRank es ++ group finishRank es).Sublist
        (arrange es) := hlisted.sublist
    have hleft := (List.sublist_append_left _ _).trans hsub
    rw [roots, roots,
      group_of_sublist hperm ((List.sublist_append_left _ _).trans hleft),
      group_of_sublist hperm ((List.sublist_append_right _ _).trans hleft),
      group_of_sublist hperm ((List.sublist_append_right _ _).trans hsub)]
  have hagain : Listed (arrange es) (roots (arrange es)) (arrange es) := by
    rw [hroots]
    exact hlisted.congr_groups (fun k => group_of_sublist hperm (hbesides k).1)
      (fun k => group_of_sublist hperm (hbesides k).2)
  have hrooted' : ∀ e ∈ arrange es, ∃ n, Rooted (arrange es) n e := by
    intro e he
    obtain ⟨n, hn⟩ := hrooted e (hperm.mem_iff.mp he)
    exact hn.of_subset hnd fun d hd => hperm.mem_iff.mp hd
  exact (listed_arrange ((hperm.map Prod.fst).nodup_iff.mpr hnd) hrooted').unique hagain

/-! ## Leaving entries out -/

section

variable {keep : String × Node → Bool}
  (hkeep : ∀ d ∈ es, ∀ e ∈ es, beside? es e = some d.1 → keep e = true → keep d = true)

include hkeep

theorem position_filter (he : e ∈ es) (hk : keep e = true) :
    position (es.filter keep) e = position es e := by
  refine position_congr fun r href hne => ⟨fun hr => ?_, fun hr => ?_⟩
  · exact (List.filter_sublist.map Prod.fst).subset hr
  · obtain ⟨d, hd, rfl⟩ := List.mem_map.mp hr
    have hbeside : beside? es e = some d.1 := beside?_eq_some.mpr ⟨href, hne, hr⟩
    exact mem_keys (List.mem_filter.mpr ⟨hd, hkeep d hd e he hbeside hk⟩)

/-- Leaving out entries leaves them out of each group. -/
theorem group_filter (rank : Position → Option Int) :
    group rank (es.filter keep) = (group rank es).filter keep := by
  have hkept : ∀ e ∈ es.filter keep, position (es.filter keep) e = position es e :=
    fun e he => position_filter hkeep (List.mem_filter.mp he).1 (List.mem_filter.mp he).2
  have hranked : ((es.filter keep).filter fun e => (rank (position (es.filter keep) e)).isSome) =
      (es.filter fun e => (rank (position es e)).isSome).filter keep :=
    calc _ = (es.filter keep).filter fun e => (rank (position es e)).isSome :=
          List.filter_congr fun e he => by rw [hkept e he]
      _ = _ := by rw [List.filter_filter, List.filter_filter]; simp only [Bool.and_comm]
  rw [group, group, Order.filter_sort rankLE_trans rankLE_total, ← hranked]
  refine Order.sort_congr fun d hd e he => ?_
  rw [rankLE, rankLE, hkept d (List.mem_filter.mp hd).1, hkept e (List.mem_filter.mp he).1]

/-- Leaving out entries leaves them out of the listing, if none that stays stands beside one that goes. -/
theorem Listed.filter (h : Listed es xs l) (hxs : ∀ e ∈ xs, e ∈ es) :
    Listed (es.filter keep) (xs.filter keep) (l.filter keep) := by
  induction h with
  | nil => exact .nil
  | @cons e rest front back others hfront hback _ ihfront ihback ihothers =>
    obtain ⟨he, hrest⟩ := List.forall_mem_cons.mp hxs
    have hbefore : ∀ d ∈ group (beforeRank e.1) es, d ∈ es ∧ beside? es d = some e.1 :=
      fun d hd => mem_besides.mp (.inl hd)
    have hafter : ∀ d ∈ group (afterRank e.1) es, d ∈ es ∧ beside? es d = some e.1 :=
      fun d hd => mem_besides.mp (.inr hd)
    simp only [List.filter_append, List.filter_cons]
    cases hk : keep e with
    | true =>
      refine .cons ?_ ?_ (ihothers hrest)
      · rw [group_filter hkeep]
        exact ihfront fun d hd => (hbefore d hd).1
      · rw [group_filter hkeep]
        exact ihback fun d hd => (hafter d hd).1
    | false =>
      -- with the entry go all that stand beside it, at whatever distance
      have hgone : ∀ {ys m}, Listed es ys m → (∀ d ∈ ys, d ∈ es ∧ beside? es d = some e.1) →
          m.filter keep = [] := by
        intro ys m hm hys
        have hall : ∀ d ∈ m, d ∈ es ∧ keep d = false := by
          refine hm.forall_mem (fun c d hc hd href => ⟨hd, ?_⟩) fun d hd => ⟨(hys d hd).1, ?_⟩
          · exact Bool.eq_false_iff.mpr fun h =>
              Bool.false_ne_true (hc.2.symm.trans (hkeep c hc.1 d hd href h))
          · exact Bool.eq_false_iff.mpr fun h =>
              Bool.false_ne_true (hk.symm.trans (hkeep e he d (hys d hd).1 (hys d hd).2 h))
        exact List.filter_eq_nil_iff.mpr fun d hd => by simp [(hall d hd).2]
      rw [hgone hfront hbefore, hgone hback hafter]
      exact ihothers hrest

/-- Entries may be left out before or after placing, if no entry that is kept refers to one of them. -/
theorem filter_arrange (hnd : (es.map Prod.fst).Nodup) (hrooted : ∀ e ∈ es, ∃ n, Rooted es n e) :
    (arrange es).filter keep = arrange (es.filter keep) := by
  have hlisted : Listed (es.filter keep) (roots (es.filter keep)) ((arrange es).filter keep) := by
    have hfilter := (listed_arrange hnd hrooted).filter hkeep fun e he => (mem_roots.mp he).1
    rw [roots, List.filter_append, List.filter_append] at hfilter
    rwa [roots, group_filter hkeep, group_filter hkeep, group_filter hkeep]
  refine hlisted.unique (listed_arrange (hnd.sublist (List.filter_sublist.map Prod.fst)) ?_)
  intro e he
  obtain ⟨n, hn⟩ := hrooted e (List.mem_filter.mp he).1
  exact hn.of_subset hnd fun d hd => (List.mem_filter.mp hd).1

end

end

end FusionInspect.Placement
