import FusionInspect.Proofs.Display.Idempotence
import FusionInspect.Proofs.Display.Neighbours

/-!
# Source keys and the keys entries are shown at

An entry is shown at its source key, except that a typed branch has its type in the key it is shown at.
Positions are read where entries are shown. So a hint that names a typed sibling by its source key finds
nothing, and a typed branch does not count by a numeric key.

Nothing else stands between the two orders. A key that carries a type has a blank in it, and no hint
names such a key. So where no hint names the source key of a typed branch, and no typed branch without a
hint has a number for a key (`KeepsHints`), a level is in the order of its source keys.
-/

namespace FusionInspect

namespace Placement

/-! ## Placing what is seen as entries -/

section

variable {α : Type} {v w : α → String × Node} {l : List α}

/-- Things in the places of the entries that they are seen as. -/
def arrangeBy (view : α → String × Node) (l : List α) : List α :=
  (order (items (l.map view))).filterMap fun i => l[i]?

/-- Things are arranged as the entries are that they are seen as. -/
theorem map_arrangeBy (view : α → String × Node) (l : List α) :
    (arrangeBy view l).map view = arrange (l.map view) := by
  rw [arrangeBy, arrange, List.map_filterMap]
  simp only [List.getElem?_map]

/-- The items of things that are seen as entries. -/
theorem items_map (view : α → String × Node) (l : List α) : items (l.map view) =
    l.zipIdx.map fun p => ⟨p.2, (view p.1).1, position (l.map view) (view p.1)⟩ := by
  rw [items, itemsFrom_eq, List.zipIdx_map, List.map_map]
  rfl

/-- Items that get the same ranks are ranked alike. -/
theorem ranked_items_congr {rank rank' : Position → Option Int}
    (h : ∀ x ∈ l, rank (position (l.map v) (v x)) = rank' (position (l.map w) (w x))) :
    ranked rank (items (l.map v)) = ranked rank' (items (l.map w)) := by
  rw [ranked, ranked, items_map, items_map, List.filterMap_map, List.filterMap_map]
  congr 2
  refine List.filterMap_congr fun p hp => ?_
  simp only [Function.comp_apply, h p.1 (List.fst_mem_of_mem_zipIdx hp)]

/-- Two views of things that give them the same positions, and the same keys as far as a position refers
to them. -/
structure SamePlaces (v w : α → String × Node) (l : List α) : Prop where
  position_eq : ∀ x ∈ l, position (l.map v) (v x) = position (l.map w) (w x)
  key_iff : ∀ x ∈ l, ∀ y ∈ l, ∀ r, beside? (l.map v) (v x) = some r → ((v y).1 = r ↔ (w y).1 = r)

/-- The rank before a key depends on the key only if the position refers to it. -/
theorem beforeRank_congr {j k : String} {p : Position}
    (h : ∀ r, reference? p = some r → (j = r ↔ k = r)) : beforeRank j p = beforeRank k p := by
  cases p with
  | before r n => simp only [beforeRank, beq_iff_eq, eq_comm (a := r), h r rfl]
  | _ => rfl

/-- So does the rank after a key. -/
theorem afterRank_congr {j k : String} {p : Position}
    (h : ∀ r, reference? p = some r → (j = r ↔ k = r)) : afterRank j p = afterRank k p := by
  cases p with
  | after r n => simp only [afterRank, beq_iff_eq, eq_comm (a := r), h r rfl]
  | _ => rfl

/-- Keys matter to a position only if it refers to one of them. -/
theorem anchored_congr {js ks : List String} {j k : String} {p : Position}
    (h : ∀ r, reference? p = some r → ((r ≠ j ∧ r ∈ js) ↔ (r ≠ k ∧ r ∈ ks))) :
    anchored js j p = anchored ks k p := by
  cases p with
  | before r n => simp only [anchored, bne_iff_ne, Bool.and_eq_true, List.contains_iff_mem, h r rfl]
  | after r n => simp only [anchored, bne_iff_ne, Bool.and_eq_true, List.contains_iff_mem, h r rfl]
  | _ => rfl

/-- A position whose reference is another of the keys stays as it is. -/
theorem anchored_of_mem {keys : List String} {key : String} {p : Position}
    (h : ∀ r, reference? p = some r → r ≠ key ∧ r ∈ keys) : anchored keys key p = p := by
  cases p with
  | before r n => rw [anchored, if_pos (by simpa using h r rfl)]
  | after r n => rw [anchored, if_pos (by simpa using h r rfl)]
  | _ => rfl

/-- Two views that give the same places are walked alike, by induction on the fuel. -/
theorem SamePlaces.place_eq (h : SamePlaces v w l) (fuel : Nat) (s : Placed) (i : Nat) :
    place (items (l.map v)) fuel s i = place (items (l.map w)) fuel s i := by
  induction fuel generalizing s i with
  | zero => rfl
  | succ fuel ih =>
    have hplace : place (items (l.map v)) fuel = place (items (l.map w)) fuel :=
      funext fun s => funext fun i => ih s i
    by_cases hmarked : i ∈ s.marked
    · rw [place_marked hmarked, place_marked hmarked]
    cases hi : l[i]? with
    | none =>
      have hnone : ∀ view : α → String × Node, (items (l.map view))[i]? = none := fun view => by
        rw [items_map, List.getElem?_map, List.getElem?_zipIdx, hi]
        rfl
      rw [place, place, hnone, hnone]
    | some x =>
      have hx : x ∈ l := List.mem_of_getElem? hi
      have hitem : ∀ view : α → String × Node, (l.map view)[i]? = some (view x) := fun view => by
        rw [List.getElem?_map, hi]
        rfl
      have hbefore : ranked (beforeRank (v x).1) (items (l.map v)) =
          ranked (beforeRank (w x).1) (items (l.map w)) := ranked_items_congr fun y hy => by
        rw [← h.position_eq y hy]
        exact beforeRank_congr fun r hr => h.key_iff y hy x hx r hr
      have hafter : ranked (afterRank (v x).1) (items (l.map v)) =
          ranked (afterRank (w x).1) (items (l.map w)) := ranked_items_congr fun y hy => by
        rw [← h.position_eq y hy]
        exact afterRank_congr fun r hr => h.key_iff y hy x hx r hr
      rw [place_unmarked hmarked (getElem?_items (hitem v)),
        place_unmarked hmarked (getElem?_items (hitem w)), hbefore, hafter, hplace]

/-- So things are arranged alike by both. -/
theorem SamePlaces.arrangeBy_eq (h : SamePlaces v w l) : arrangeBy v l = arrangeBy w l := by
  have hlen : (items (l.map v)).length = (items (l.map w)).length := by
    rw [length_items, length_items, List.length_map, List.length_map]
  have hplace : place (items (l.map v)) = place (items (l.map w)) :=
    funext fun fuel => funext fun s => funext fun i => h.place_eq fuel s i
  have hranked : ∀ rank, ranked rank (items (l.map v)) = ranked rank (items (l.map w)) :=
    fun rank => ranked_items_congr fun x hx => by rw [h.position_eq x hx]
  rw [arrangeBy, arrangeBy, order, order, hranked, hranked, hranked, hlen, hplace]

end

end Placement

/-! ## Words and numbers in keys -/

/-- Neither the word that is begun nor one behind it has a blank in it. -/
theorem Text.not_blank_of_mem_wordsFrom (cs : List Char) :
    (∀ c ∈ (wordsFrom cs).1, isBlank c = false) ∧
      ∀ w ∈ (wordsFrom cs).2, ∀ c ∈ w, isBlank c = false := by
  induction cs with
  | nil => simp [wordsFrom]
  | cons c cs ih =>
    obtain ⟨hword, hlater⟩ := ih
    by_cases hc : isBlank c = true
    · refine ⟨by simp [wordsFrom, hc], ?_⟩
      simp only [wordsFrom, hc, if_true]
      split
      · exact hlater
      · exact List.forall_mem_cons.mpr ⟨hword, hlater⟩
    · simp only [wordsFrom, hc]
      exact ⟨List.forall_mem_cons.mpr ⟨Bool.eq_false_iff.mpr hc, hword⟩, hlater⟩

/-- No word of a text has a blank in it. -/
theorem Text.not_blank_of_mem_words {text word : String} (h : word ∈ words text) :
    ∀ c ∈ word.toList, isBlank c = false := by
  obtain ⟨hword, hlater⟩ := not_blank_of_mem_wordsFrom text.toList
  rw [words] at h
  obtain ⟨w, hw, rfl⟩ := List.mem_map.mp h
  rw [String.toList_ofList]
  split at hw
  · exact hlater w hw
  · rcases List.mem_cons.mp hw with rfl | hw
    · exact hword
    · exact hlater w hw

/-- A text with a character that is no digit and no sign is no integer. -/
theorem Text.integer?_eq_none {text : String} {c : Char} (hc : c ∈ text.toList)
    (hdigit : c.isDigit = false) (hminus : c ≠ '-') (hplus : c ≠ '+') : integer? text = none := by
  have hdigits : ∀ cs : List Char, c ∈ cs → digits? cs = none := by
    intro cs hcs
    rw [digits?, if_neg]
    intro hall
    rw [Bool.and_eq_true, List.all_eq_true] at hall
    rw [hall.2 c hcs] at hdigit
    cases hdigit
  unfold integer?
  split
  · next cs htext =>
    rw [htext] at hc
    rw [hdigits cs ((List.mem_cons.mp hc).resolve_left hminus)]
    rfl
  · next cs htext =>
    rw [htext] at hc
    rw [hdigits cs ((List.mem_cons.mp hc).resolve_left hplus)]
    rfl
  · rw [hdigits _ hc]
    rfl

namespace Position

open Placement

/-- The key that a hint refers to is one of its words. -/
theorem mem_of_reference_ofWords {ws : List String} {r : String}
    (h : reference? (ofWords ws) = some r) : r ∈ ws := by
  unfold ofWords at h
  split at h
  · cases h
  · split at h
    · cases h
    split at h
    · cases h
    split at h
    · cases h
    · split at h
      · simp_all [reference?]
      split at h
      · simp_all [reference?]
      · cases h

/-- A key that a position refers to has no blank in it. -/
theorem not_blank_of_reference {key r : String} {n : Node}
    (h : reference? (ofEntry key n) = some r) : ∀ c ∈ r.toList, Text.isBlank c = false := by
  rw [ofEntry] at h
  split at h
  · rw [ofHint] at h
    split at h
    · cases h
    · exact Text.not_blank_of_mem_words (mem_of_reference_ofWords h)
  · cases h

/-- The number that a key counts as, zero unless it is an integer. -/
def keyNumber (key : String) : Float :=
  (Number.integer ((Text.integer? key).getD 0)).toFloat

/-- Without a hint an entry stands in the middle, by the number of its key. -/
theorem ofEntry_of_unhinted {n : Node} (h : hint? n = none) (key : String) :
    ofEntry key n = .middle (keyNumber key) := by
  rw [ofEntry, h, keyNumber]
  cases Text.integer? key <;> rfl

/-- With a hint its key does not matter. -/
theorem ofEntry_of_hinted {n : Node} {hint : Scalar} (h : hint? n = some hint) (key : String) :
    ofEntry key n = ofHint hint := by
  rw [ofEntry, h]

/-- Only a hint refers to a key, so it does not matter which key the entry has itself. -/
theorem ofEntry_of_reference {n : Node} {j r : String} (h : reference? (ofEntry j n) = some r)
    (k : String) : ofEntry k n = ofEntry j n := by
  cases hhint : hint? n with
  | none => rw [ofEntry_of_unhinted hhint] at h; cases h
  | some hint => rw [ofEntry_of_hinted hhint, ofEntry_of_hinted hhint]

end Position

namespace Display

open Placement

/-! ## Where the entries of a level come from -/

/-- An entry of a level: the key it is shown at, and the entry that it is at its source key. -/
abbrev Traced : Type := String × (String × Node)

/-- A traced entry as it is shown. -/
def asShown (e : Traced) : String × Node :=
  (e.1, e.2.2)

/-- The source key of what an entry contributes at a key. Meta properties are not shown at a key of
their own level, and keep the one they are shown at. -/
def sourceKey (key : String) (node : Node) (shownAt : String) : String :=
  match node with
  | .branch _ => if key == Key.metaProperties then shownAt else key
  | _ => key

/-- What the entries of a branch contribute, in order, with the source keys. -/
def traced (known : String → Bool) (typed : Bool) (b : Branch) : List Traced :=
  (b.filter fun e => !(typed && isSlotKey e.1)).flatMap fun e =>
    (contribution known e.1 e.2).map fun d => (d.1, sourceKey e.1 e.2 d.1, d.2)

/-- The last contribution at each key, with its source key. -/
def survivors (known : String → Bool) (typed : Bool) (b : Branch) : List Traced :=
  Entries.collect (traced known typed b)

section

variable {known : String → Bool} {typed : Bool} {b : Branch}

/-- Traced contributions, as they are shown, are the contributions. -/
theorem map_asShown_traced : (traced known typed b).map asShown = contributions known typed b := by
  have hself : ∀ cs : List (String × Node), ∀ key node, (cs.map fun d =>
      ((d.1, sourceKey key node d.1, d.2) : Traced)).map asShown = cs := fun cs key node => by
    rw [List.map_map]
    exact List.map_id cs
  rw [traced, List.map_flatMap, contributions_eq_flatMap]
  simp only [hself]

/-- The survivors, as they are shown, are the collected contributions. -/
theorem map_asShown_survivors :
    (survivors known typed b).map asShown = Branch.ofEntries (contributions known typed b) := by
  rw [← map_asShown_traced]
  exact (Entries.collect_map Prod.snd (traced known typed b)).symm

theorem nodup_survivors : (((survivors known typed b).map asShown).map Prod.fst).Nodup := by
  rw [map_asShown_survivors]
  exact Entries.nodup_collect _

theorem mem_marked {label t : String} {c : Char} (h : c ∈ label.toList) :
    c ∈ (marked known label t).toList := by
  rw [marked]
  split
  · exact h
  · rw [String.toList_append]
    exact List.mem_append_left _ h

/-- An entry is shown at its source key, or it is a branch with its type in the key. -/
theorem shownAt_cases {key : String} {n : Node} {d : String × Node}
    (h : d ∈ contribution known key n) :
    d.1 = sourceKey key n d.1 ∨ ∃ t, d.1 = marked known (key ++ " [" ++ t ++ "]") t := by
  cases n with
  | scalar s =>
    rw [contribution, List.mem_singleton] at h
    exact .inl (h ▸ rfl)
  | wrapper w =>
    rw [contribution] at h
    split at h
    · rw [List.mem_singleton] at h
      exact .inl (h ▸ rfl)
    · exact .inl ((mem_shown h).1 ▸ rfl)
  | branch b =>
    rw [contribution] at h
    split at h
    · next hmeta => exact .inl (by rw [sourceKey, if_pos hmeta])
    · next hmeta =>
      rw [sourceKey, if_neg hmeta]
      split at h
      · next t _ => exact .inr ⟨t, (mem_shown h).1 ▸ rfl⟩
      · exact .inl ((mem_shown h).1 ▸ rfl)

/-- A key that is not the source key has a blank and a bracket in it. -/
theorem mem_of_renamed {e : Traced} (he : e ∈ survivors known typed b) (hne : e.1 ≠ e.2.1) :
    ' ' ∈ e.1.toList ∧ '[' ∈ e.1.toList := by
  obtain ⟨c, _, hmem⟩ := List.mem_flatMap.mp (Entries.mem_of_mem_collect he)
  obtain ⟨d, hd, rfl⟩ := List.mem_map.mp hmem
  obtain ⟨t, ht⟩ := (shownAt_cases hd).resolve_left hne
  change ' ' ∈ d.1.toList ∧ '[' ∈ d.1.toList
  rw [ht]
  exact ⟨mem_marked (by simp), mem_marked (mem_typed_label c.1 t)⟩

/-- A position can refer to an entry by the key it is shown at only if that is the source key. -/
theorem eq_source_of_reference {e : Traced} (he : e ∈ survivors known typed b) {key : String} {n : Node}
    (h : reference? (Position.ofEntry key n) = some e.1) : e.1 = e.2.1 := by
  by_contra hne
  have hblank := Position.not_blank_of_reference h ' ' (mem_of_renamed he hne).1
  exact absurd hblank (by decide)

/-- A key that an entry is renamed to counts as zero, since it has a bracket in it. -/
theorem keyNumber_of_renamed {e : Traced} (he : e ∈ survivors known typed b) (hne : e.1 ≠ e.2.1) :
    Position.keyNumber e.1 = 0 := by
  rw [Position.keyNumber, Text.integer?_eq_none (mem_of_renamed he hne).2 rfl (by decide) (by decide)]
  rfl

/-! ## Places by source keys -/

/-- No position refers to the source key of an entry that is shown at another key, and no such entry
without a hint has a source key that counts as a number other than zero. -/
structure KeepsHints (l : List Traced) : Prop where
  named : ∀ d ∈ l, ∀ e ∈ l, d.1 ≠ d.2.1 → reference? (Position.ofEntry e.2.1 e.2.2) ≠ some d.2.1
  counted : ∀ e ∈ l, e.1 ≠ e.2.1 → Position.hint? e.2.2 = none → (Text.integer? e.2.1).getD 0 = 0

/-- Where hints are kept, a reference names an entry by the key it is shown at exactly if it names it by
its source key. -/
theorem KeepsHints.key_iff (h : KeepsHints (survivors known typed b)) {d e : Traced}
    (hd : d ∈ survivors known typed b) (he : e ∈ survivors known typed b) {r : String}
    (href : reference? (Position.ofEntry e.2.1 e.2.2) = some r) : d.1 = r ↔ d.2.1 = r := by
  by_cases hkey : d.1 = d.2.1
  · rw [hkey]
  · refine iff_of_false (fun hr => hkey ?_) fun hr => h.named d hd e he hkey (hr ▸ href)
    exact eq_source_of_reference hd (hr ▸ href)

/-- Where hints are kept, entries have the same positions at the keys they are shown at as at their
source keys. -/
theorem KeepsHints.samePlaces (h : KeepsHints (survivors known typed b)) :
    SamePlaces asShown Prod.snd (survivors known typed b) := by
  refine ⟨fun e he => ?_, fun e he d hd r hr => ?_⟩
  · have hposition : Position.ofEntry e.1 e.2.2 = Position.ofEntry e.2.1 e.2.2 := by
      cases hhint : Position.hint? e.2.2 with
      | some hint => rw [Position.ofEntry_of_hinted hhint, Position.ofEntry_of_hinted hhint]
      | none =>
        rw [Position.ofEntry_of_unhinted hhint, Position.ofEntry_of_unhinted hhint]
        by_cases hkey : e.1 = e.2.1
        · rw [hkey]
        · rw [keyNumber_of_renamed he hkey, Position.keyNumber, h.counted e he hkey hhint]
          rfl
    rw [position, position, asShown, hposition]
    refine anchored_congr fun r hr => and_congr ?_ ?_
    · exact not_congr (by rw [eq_comm, h.key_iff he he hr, eq_comm])
    · simp only [List.map_map, List.mem_map, Function.comp_apply]
      exact exists_congr fun d => and_congr_right fun hd => h.key_iff hd he hr
  · have href : reference? (Position.ofEntry e.1 e.2.2) = some r := (beside?_eq_some.mp hr).1
    exact h.key_iff hd he (by rw [Position.ofEntry_of_reference href e.2.1, href])

/-- The entries other than meta properties. -/
def others (es : List (String × Node)) : List (String × Node) :=
  es.filter fun e => !isMetaKey e.1

/-- Moving meta keys to the front leaves the others in their places. -/
theorem others_level (cs : List (String × Node)) :
    others (level cs) = others (arrange (Branch.ofEntries cs)) := by
  have hgone : others (Order.sort lowerLE ((arrange (Branch.ofEntries cs)).filter fun e =>
      isMetaKey e.1)) = [] := by
    refine List.filter_eq_nil_iff.mpr fun e he => ?_
    simp [(List.mem_filter.mp (Order.mem_sort.mp he)).2]
  rw [level_eq, laid, hoistMeta_eq, others, List.filter_append, ← others, hgone, List.nil_append,
    List.filter_filter, others]
  simp only [Bool.and_self]

/-- What adjoins in its place still does in the level, unless it is a meta property. -/
theorem adjoins_level {r d e : String × Node}
    (h : Adjoins ((survivors known typed b).map asShown)
      (arrange ((survivors known typed b).map asShown)) r d e)
    (hd : isMetaKey d.1 = false) (he : isMetaKey e.1 = false) :
    Adjoins ((survivors known typed b).map asShown) (level (contributions known typed b)) r d e := by
  rw [level_eq, ← map_asShown_survivors, laid, hoistMeta_eq]
  exact (h.filter (by rw [hd]; rfl) (by rw [he]; rfl)).append_left _

/-- An entry has the position of its hint if the hint names an entry that is shown at its source key. -/
theorem position_of_named {d e : Traced} (hd : d ∈ survivors known typed b) (hkey : d.1 = d.2.1)
    (hne : e.1 ≠ d.1) (href : reference? (Position.ofEntry e.2.1 e.2.2) = some d.2.1) :
    position ((survivors known typed b).map asShown) (asShown e) = Position.ofEntry e.2.1 e.2.2 := by
  have hmem : d.1 ∈ ((survivors known typed b).map asShown).map Prod.fst :=
    mem_keys (List.mem_map_of_mem hd)
  rw [position, asShown, Position.ofEntry_of_reference href e.1]
  refine anchored_of_mem fun r hr => ?_
  obtain rfl : d.1 = r := hkey.trans (Option.some.inj (href.symm.trans hr))
  exact ⟨hne.symm, hmem⟩

/-- Without a hint an entry counts as the number of its source key if it is shown at that key, and as
zero otherwise. -/
theorem position_of_unhinted {e : Traced} (he : e ∈ survivors known typed b)
    (hhint : Position.hint? e.2.2 = none) (es : List (String × Node)) :
    position es (asShown e) = .middle (if e.1 = e.2.1 then Position.keyNumber e.2.1 else 0) := by
  rw [position, asShown, Position.ofEntry_of_unhinted hhint]
  change Position.middle (Position.keyNumber e.1) = _
  split
  · next hkey => rw [hkey]
  · next hkey => rw [keyNumber_of_renamed he hkey]

end

/-- **Order by source keys.** A level holds its survivors, placed by the keys they are shown at. Where
hints are kept, that is their order by source keys. In any case an entry that is led to an anchored one
stands beside the entry that its hint names, if that one is shown at its source key; and an entry
without a hint counts by its source key exactly if it is shown at it. -/
theorem order_by_source_keys (known : String → Bool) (typed : Bool) (b : Branch) :
    let l := survivors known typed b
    let es := l.map asShown
    let display := level (contributions known typed b)
    display.Perm es ∧ others display = others (arrange es) ∧
    (KeepsHints l → others display = others ((arrangeBy Prod.snd l).map asShown)) ∧
    (∀ d ∈ l, ∀ e ∈ l, d.1 = d.2.1 → e.1 ≠ d.1 → isMetaKey d.1 = false → isMetaKey e.1 = false →
      (∃ n, Rooted es n (asShown e)) → ∀ p,
        (Position.ofEntry e.2.1 e.2.2 = .before d.2.1 p →
          Adjoins es display (asShown d) (asShown e) (asShown d)) ∧
        (Position.ofEntry e.2.1 e.2.2 = .after d.2.1 p →
          Adjoins es display (asShown d) (asShown d) (asShown e))) ∧
    ∀ e ∈ l, Position.hint? e.2.2 = none →
      position es (asShown e) = .middle (if e.1 = e.2.1 then Position.keyNumber e.2.1 else 0) := by
  intro l es display
  have hperm : display.Perm es := by
    rw [show es = _ from map_asShown_survivors, show display = _ from level_eq _]
    exact laid_perm _
  have hothers : others display = others (arrange es) := by
    rw [show es = _ from map_asShown_survivors]
    exact others_level _
  refine ⟨hperm, hothers, fun hkeeps => ?_, ?_, fun e he hhint => position_of_unhinted he hhint es⟩
  · rw [hothers, ← map_arrangeBy, hkeeps.samePlaces.arrangeBy_eq]
  · intro d hd e he hkey hne hdmeta hemeta ⟨n, hn⟩ p
    have hdmem : asShown d ∈ es := List.mem_map_of_mem hd
    have hemem : asShown e ∈ es := List.mem_map_of_mem he
    refine ⟨fun hbefore => ?_, fun hafter => ?_⟩
    · have hposition := position_of_named hd hkey hne (by rw [hbefore]; rfl)
      rw [hbefore, ← hkey] at hposition
      exact adjoins_level (adjoins_before nodup_survivors hn hemem hdmem hposition) hemeta hdmeta
    · have hposition := position_of_named hd hkey hne (by rw [hafter]; rfl)
      rw [hafter, ← hkey] at hposition
      exact adjoins_level (adjoins_after nodup_survivors hn hemem hdmem hposition) hdmeta hemeta

/-- The page keeps its hints, and its entries stand by their source keys. -/
theorem order_by_source_keys_linkPage :
    KeepsHints (survivors (Branch.has []) false linkPage) ∧
    others (flattenBranch (Branch.has []) linkPage) =
      others ((arrangeBy Prod.snd (survivors (Branch.has []) false linkPage)).map asShown) ∧
    (others (flattenBranch (Branch.has []) linkPage)).map Prod.fst =
      ["lead", "link [Link] (?)", "title"] := by
  have hkeeps : KeepsHints (survivors (Branch.has []) false linkPage) :=
    ⟨by decide +kernel, by decide +kernel⟩
  exact ⟨hkeeps, (order_by_source_keys (Branch.has []) false linkPage).2.2.1 hkeeps,
    by decide +kernel⟩

/-- A page whose lead is to stand before a typed entry. -/
def cardPage : Branch :=
  [("title", .scalar (.text "x")),
    ("card", .branch [(Key.objectType, .scalar (.text "Card")), ("y", .scalar (.number (.integer 1)))]),
    ("lead", .branch [("@position", .scalar (.text "before card")), ("tag", .scalar (.text "p"))])]

/-- The card is shown at a key that the lead does not name, so the lead stays behind it. -/
theorem order_by_source_keys_cardPage_ne :
    (others (flattenBranch (Branch.has []) cardPage)).map Prod.fst =
      ["title", "card [Card] (?)", "lead"] ∧
    (others ((arrangeBy Prod.snd (survivors (Branch.has []) false cardPage)).map asShown)).map Prod.fst =
      ["title", "lead", "card [Card] (?)"] ∧
    others (flattenBranch (Branch.has []) cardPage) ≠
      others ((arrangeBy Prod.snd (survivors (Branch.has []) false cardPage)).map asShown) := by
  have hshown : (others (flattenBranch (Branch.has []) cardPage)).map Prod.fst =
      ["title", "card [Card] (?)", "lead"] := by decide +kernel
  have hsource : (others ((arrangeBy Prod.snd (survivors (Branch.has []) false cardPage)).map
      asShown)).map Prod.fst = ["title", "lead", "card [Card] (?)"] := by decide +kernel
  refine ⟨hshown, hsource, fun h => ?_⟩
  rw [h, hsource] at hshown
  exact absurd hshown (by decide)

end Display

end FusionInspect
