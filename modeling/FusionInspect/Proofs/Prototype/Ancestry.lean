import Mathlib.Data.List.Induction
import FusionInspect.Proofs.Prototype.KeyOrder
import FusionInspect.Proofs.Prototype.MergeLaws
import FusionInspect.Proofs.Tree.OfJson

/-!
# Chains that list a whole ancestry

A LINEAGE is a line of prototypes, each an ancestor of those behind it. Its chains can be written in two
ways: each prototype lists all its ancestors, root first, or its immediate parent alone. Both complete
the last prototype to the same definition, for they stack the same own declarations
(`Lineage.resolve_eq`).

With whole chains every ancestor is completed on its own and merged onto what already holds all the
ancestors before it. Nothing of that shows, because a base laid under its own result changes nothing
(`Branch.merge_merge_left`): each ancestor is its parent's completion extended by one definition. A chain
that skips an ancestor has no such law, since merging is not associative.
-/

namespace FusionInspect.Prototype

/-! ## Definitions that match -/

namespace Matches

variable {b c d e : Branch}

theorem refl (d : Branch) : Matches d d := fun _ _ _ => Node.Alike.rel_refl _

theorem trans (h : Matches c d) (h' : Matches d e) : Matches c e := by
  intro key hchain hstop
  have hkey := h key hchain hstop
  have hkey' := h' key hchain hstop
  generalize c.get? key = o at hkey ⊢
  generalize d.get? key = p at hkey hkey'
  generalize e.get? key = q at hkey' ⊢
  cases hkey with
  | none => exact hkey'
  | some hlm =>
    cases hkey' with
    | some hmn => exact .some (hlm.trans hmn)

/-- Merging keeps definitions alike but for their bookkeeping. -/
theorem merge (hb : b.WellFormed) (hc : c.WellFormed) (hd : d.WellFormed) (he : e.WellFormed)
    (hbc : Matches b c) (hde : Matches d e) : Matches (b.merge d) (c.merge e) :=
  fun key hchain hstop => Branch.merge_isOverlay.rel_get? Branch.WellFormed.merge Overrides.alike
    hb hc hd he (hbc key hchain hstop) (hde key hchain hstop)

end Matches

/-- Settling changes nothing but the bookkeeping and the order of keys. -/
theorem matches_settle {d : Branch} (hd : d.WellFormed) : Matches (settle d) d := by
  intro key hchain hstop
  have hget : (settle d).get? key = (d.get? key).map Node.sortKeys := by
    unfold settle
    rw [Branch.get?_sortKeys ((hd.erase _).erase _).1, get?_unbooked hd, if_neg (by simp [hchain, hstop])]
  rw [hget]
  cases hk : d.get? key with
  | none => exact .none
  | some n => exact .some (Node.alike_sortKeys (hd.get? hk))

/-- A further layer is merged onto the stack of those before it. -/
theorem stacked_append {front : List Branch} (hfront : front ≠ []) (d : Branch) :
    stacked (front ++ [d]) = (stacked front).merge d := by
  obtain ⟨base, more, rfl⟩ := List.exists_cons_of_ne_nil hfront
  simp [stacked, List.foldl_append]

/-- Stacks of layers that are alike but for their bookkeeping are so too. -/
theorem matches_stacked {α : Type} {f g : α → Branch} : ∀ {names : List α},
    (∀ a ∈ names, (f a).WellFormed) → (∀ a ∈ names, (g a).WellFormed) →
    (∀ a ∈ names, Matches (f a) (g a)) → Matches (stacked (names.map f)) (stacked (names.map g)) := by
  intro names
  induction names using List.reverseRecOn with
  | nil => exact fun _ _ _ => .refl _
  | append_singleton names a ih =>
    intro hf hg hfg
    by_cases hnames : names = []
    · subst hnames
      exact hfg a (by simp)
    · have hsub : ∀ b ∈ names, b ∈ names ++ [a] := fun b hb => List.mem_append_left _ hb
      have hstack : ∀ {h : α → Branch}, (∀ b ∈ names ++ [a], (h b).WellFormed) →
          (stacked (names.map h)).WellFormed := by
        intro h hwf
        refine wellFormed_stacked fun l hl => ?_
        obtain ⟨b, hb, rfl⟩ := List.mem_map.mp hl
        exact hwf b (hsub b hb)
      rw [List.map_append, List.map_append, List.map_singleton, List.map_singleton,
        stacked_append (by simpa using hnames), stacked_append (by simpa using hnames)]
      exact Matches.merge (hstack hf) (hstack hg) (hf a (by simp)) (hg a (by simp))
        (ih (fun b hb => hf b (hsub b hb)) (fun b hb => hg b (hsub b hb)) fun b hb => hfg b (hsub b hb))
        (hfg a (by simp))

/-! ## Lineages -/

/-- Each prototype of a line is in the table, and its chain is what is picked from those before it. The
first has nothing before it, so its chain is absent or empty. -/
def Lineage (pick : List String → List String) (table : Branch) (line : List String) : Prop :=
  ∀ front name back, line = front ++ name :: back →
    ∃ own, bare table name = .ok own ∧ own.chain?.getD [] = pick front

/-- The immediate parent alone. -/
def parent (front : List String) : List String :=
  front.getLast?.toList

/-- The own declarations of a prototype, empty for one that is not in the table. -/
def ownIn (table : Branch) (name : String) : Branch :=
  ((table.get? name).map Node.toBranch).getD []

/-- The completed definition of a prototype, empty for one that cannot be completed. -/
def completed (table : Branch) (name : String) : Branch :=
  (resolve table name).toOption.getD []

/-- The own declarations of a prototype are those that the search looks at. -/
theorem ownIn_eq {table own : Branch} {name : String} (h : bare table name = .ok own) :
    ownIn table name = own := by
  obtain ⟨node, hnode, rfl⟩ := bare_eq_ok_iff.mp h
  simp [ownIn, hnode]

theorem completed_eq {table definition : Branch} {name : String}
    (h : resolve table name = .ok definition) : completed table name = definition := by
  simp [completed, h, Except.toOption]

/-- The own declarations in a well-formed table are well-formed. -/
theorem wellFormed_ownIn {table : Branch} (htable : table.WellFormed) (name : String) :
    (ownIn table name).WellFormed := by
  unfold ownIn
  cases hnode : table.get? name with
  | none => exact Branch.wellFormed_nil
  | some node => exact (htable.get? hnode).toBranch

/-- So is each definition that is completed from it. -/
theorem wellFormed_completed {table : Branch} (htable : table.WellFormed) (name : String) :
    (completed table name).WellFormed := by
  unfold completed
  cases h : resolve table name with
  | error e => exact Branch.wellFormed_nil
  | ok definition => exact wellFormed_resolve htable h

/-- A stack of well-formed definitions is well-formed. -/
theorem wellFormed_stacked_map {f : String → Branch} (hf : ∀ name, (f name).WellFormed)
    (names : List String) : (stacked (names.map f)).WellFormed := by
  refine wellFormed_stacked fun l hl => ?_
  obtain ⟨name, _, rfl⟩ := List.mem_map.mp hl
  exact hf name

/-- Distinct names do not come again. -/
theorem not_mem_front {line front back : List String} {name : String} (hnd : line.Nodup)
    (hline : line = front ++ name :: back) : name ∉ front := by
  rw [hline, List.nodup_append] at hnd
  exact fun hmem => hnd.2.2 name hmem name List.mem_cons_self rfl

/-- A way to pick from the prototypes before one that leaves nothing out: what is picked is among them,
and its completions stack up to the own declarations of all of them, as soon as each completion is the
stack of the own declarations up to it. -/
structure Stacks (pick : List String → List String) (table : Branch) : Prop where
  subset : ∀ front, pick front ⊆ front
  nonempty : ∀ {front}, front ≠ [] → pick front ≠ []
  sum : ∀ {front}, front ≠ [] →
    (∀ before name back, front = before ++ name :: back →
      Matches (completed table name) (stacked ((before ++ [name]).map (ownIn table)))) →
    Matches (stacked ((pick front).map (completed table))) (stacked (front.map (ownIn table)))

namespace Lineage

variable {pick : List String → List String} {table : Branch} {line : List String}

/-- Each prototype of a lineage is in the table. -/
theorem known (h : Lineage pick table line) {name : String} (hname : name ∈ line) :
    table.has name = true := by
  obtain ⟨front, back, hline⟩ := List.append_of_mem hname
  obtain ⟨own, hown, _⟩ := h front name back hline
  obtain ⟨node, hnode, _⟩ := bare_eq_ok_iff.mp hown
  simp [Branch.has, hnode]

/-- A prototype leads on to what is picked for it; it is never its own ancestor. -/
theorem successors_eq (h : Lineage pick table line) (hpick : Stacks pick table) (hnd : line.Nodup)
    {front back : List String} {name : String} (hline : line = front ++ name :: back) :
    successors table name = pick front := by
  obtain ⟨own, hown, hchain⟩ := h front name back hline
  cases hc : own.chain? with
  | none =>
    rw [hc] at hchain
    obtain ⟨node, hnode, rfl⟩ := bare_eq_ok_iff.mp hown
    simpa [successors, hnode, hc] using hchain
  | some chain =>
    rw [hc] at hchain
    change chain = pick front at hchain
    subst hchain
    rw [Prototype.successors_eq hown hc]
    cases hp : pick front with
    | nil => rfl
    | cons first rest =>
      have hfirst : first ≠ name := by
        rintro rfl
        exact not_mem_front hnd hline (hpick.subset front (by rw [hp]; exact List.mem_cons_self))
      simp [Prototype.ancestors, hfirst]

/-- Steps along chains go towards the front of the lineage. -/
theorem idxOf_lt (h : Lineage pick table line) (hpick : Stacks pick table) (hnd : line.Nodup)
    {name next : String} (hname : name ∈ line) (hnext : Leads table name next) :
    next ∈ line ∧ line.idxOf next < line.idxOf name := by
  obtain ⟨front, back, hline⟩ := List.append_of_mem hname
  unfold Leads at hnext
  rw [h.successors_eq hpick hnd hline] at hnext
  have hmem : next ∈ front := hpick.subset front hnext
  have hnot : name ∉ front := not_mem_front hnd hline
  refine ⟨by simp [hline, hmem], ?_⟩
  rw [hline, List.idxOf_append_of_mem hmem, List.idxOf_append_of_notMem hnot]
  have := List.idxOf_lt_length_of_mem hmem
  omega

/-- Every prototype of a lineage can be completed: the search only goes towards the front. -/
theorem exists_resolve (h : Lineage pick table line) (hpick : Stacks pick table) (hnd : line.Nodup)
    {name : String} (hname : name ∈ line) :
    ∃ definition, resolve table name = .ok definition := by
  have hreach : ∀ {m}, Reaches table name m → m ∈ line := by
    intro m hm
    induction hm with
    | refl => exact hname
    | tail _ hnext ih => exact (h.idxOf_lt hpick hnd ih hnext).1
  have hdown : ∀ {m}, m ∈ line → ∀ {l}, Relation.TransGen (Leads table) m l →
      l ∈ line ∧ line.idxOf l < line.idxOf m := by
    intro m hm l hml
    induction hml with
    | single hnext => exact h.idxOf_lt hpick hnd hm hnext
    | tail _ hnext ih =>
      obtain ⟨hmem, hlt⟩ := h.idxOf_lt hpick hnd ih.1 hnext
      exact ⟨hmem, Nat.lt_trans hlt ih.2⟩
  cases hr : resolve table name with
  | ok definition => exact ⟨definition, rfl⟩
  | error e =>
    rcases resolveIn_error (.start table name) (by simp) hr with ⟨m, _, hm, hnone⟩ | ⟨m, _, hm, hcycle⟩
    · rw [h.known (hreach hm)] at hnone
      cases hnone
    · exact absurd (hdown (hreach hm) hcycle).2 (Nat.lt_irrefl _)

/-- What stands behind others is their completions stacked, with its own declarations on top. -/
theorem completed_eq_settle (h : Lineage pick table line) (hpick : Stacks pick table) (hnd : line.Nodup)
    {front back : List String} {name : String} (hline : line = front ++ name :: back)
    (hfront : front ≠ []) :
    completed table name =
      settle ((stacked ((pick front).map (completed table))).merge (ownIn table name)) := by
  obtain ⟨own, hown, hchain⟩ := h front name back hline
  obtain ⟨definition, hdef⟩ := h.exists_resolve hpick hnd (by simp [hline] : name ∈ line)
  obtain ⟨first, rest, hpicked⟩ := List.exists_cons_of_ne_nil (hpick.nonempty hfront)
  have hchain : own.chain? = some (first :: rest) := by
    cases hc : own.chain? with
    | none => simp [hc, hpicked] at hchain
    | some chain => simpa [hc, hpicked] using hchain
  have hsuccessors := h.successors_eq hpick hnd hline
  obtain ⟨_, inherited, hall, rfl⟩ := resolveIn_eq_ok hown hchain hdef
  rw [hsuccessors] at hall
  have hinherited : (pick front).map (completed table) = inherited := by
    rw [← List.forall₂_eq_eq_eq, List.forall₂_map_left_iff]
    exact hall.imp fun _ _ hd => completed_eq (resolve_of_resolveIn hd)
  have hhead : (first :: rest).head? ≠ some name := by
    intro hhead
    cases hhead
    exact not_mem_front hnd hline (hpick.subset front (by rw [hpicked]; exact List.mem_cons_self))
  rw [completed_eq hdef, layers, if_neg hhead, ← hinherited, stacked_append (by simp [hpicked]),
    ownIn_eq hown]

/-- Each completion is the stack of the own declarations up to it. -/
theorem completed_matches (h : Lineage pick table line) (htable : table.WellFormed)
    (hpick : Stacks pick table) (hnd : line.Nodup) :
    ∀ {front back : List String} {name : String}, line = front ++ name :: back →
      Matches (completed table name) (stacked ((front ++ [name]).map (ownIn table))) := by
  intro front
  induction hlen : front.length using Nat.strongRecOn generalizing front with
  | ind len ih =>
    intro back name hline
    subst hlen
    by_cases hfront : front = []
    · -- nothing is picked for the first one, so it stays as it was declared
      subst hfront
      obtain ⟨own, hown, hchain⟩ := h [] name back hline
      have hpicked : pick [] = [] := List.subset_nil.mp (hpick.subset [])
      have hchain : own.chain? = none ∨ own.chain? = some [] := by
        cases hc : own.chain? with
        | none => exact .inl rfl
        | some chain =>
          rw [hc, hpicked] at hchain
          exact .inr (congrArg some hchain)
      rw [completed_eq (resolveIn_unchained _ [] hown hchain)]
      simpa [stacked, ownIn_eq hown] using Matches.refl own
    · rw [h.completed_eq_settle hpick hnd hline hfront, List.map_append, List.map_singleton,
        stacked_append (by simpa using hfront)]
      have hpicked := wellFormed_stacked_map (wellFormed_completed htable) (pick front)
      have hstacked := wellFormed_stacked_map (wellFormed_ownIn htable) front
      have hown := wellFormed_ownIn htable name
      refine (matches_settle (hpicked.merge hown)).trans (Matches.merge hpicked hstacked hown hown ?_ (.refl _))
      refine hpick.sum hfront fun before ancestor between hbefore => ?_
      refine ih before.length ?_ rfl (?_ : line = before ++ ancestor :: (between ++ name :: back))
      · rw [hbefore, List.length_append, List.length_cons]
        omega
      · rw [hline, hbefore]
        simp

/-- **The last prototype of a lineage is the stack of all own declarations**, settled. -/
theorem resolve_eq (h : Lineage pick table line) (htable : table.WellFormed)
    (hpick : Stacks pick table) (hnd : line.Nodup) {front : List String} {name : String}
    (hline : line = front ++ [name]) (hfront : front ≠ []) :
    resolve table name = .ok (settle (stacked (line.map (ownIn table)))) := by
  obtain ⟨definition, hdef⟩ := h.exists_resolve hpick hnd (by simp [hline] : name ∈ line)
  rw [hdef, ← completed_eq hdef, h.completed_eq_settle hpick hnd hline hfront, hline,
    List.map_append, List.map_singleton, stacked_append (by simpa using hfront)]
  have hpicked := wellFormed_stacked_map (wellFormed_completed htable) (pick front)
  have hstacked := wellFormed_stacked_map (wellFormed_ownIn htable) front
  have hown := wellFormed_ownIn htable name
  refine congrArg _ (Matches.settle_eq (hpicked.merge hown) (hstacked.merge hown) ?_)
  refine Matches.merge hpicked hstacked hown hown (hpick.sum hfront ?_) (.refl _)
  intro before ancestor between hbefore
  refine h.completed_matches htable hpick hnd (?_ : line = before ++ ancestor :: (between ++ [name]))
  rw [hline, hbefore]
  simp

end Lineage

/-! ## Whole chains and immediate parents -/

/-- A whole ancestry leaves nothing out: each completion is laid over the one before it, which is its
own base. -/
theorem stacks_whole {table : Branch} (htable : table.WellFormed) : Stacks id table where
  subset _ := List.Subset.refl _
  nonempty hne := hne
  sum := by
    intro front
    induction front using List.reverseRecOn with
    | nil => exact fun hne => absurd rfl hne
    | append_singleton front name ih =>
      intro _ hcompleted
      have hlast := hcompleted front name [] rfl
      by_cases hfront : front = []
      · subst hfront
        exact hlast
      · have hbefore := ih hfront fun before ancestor between hline =>
          hcompleted before ancestor (between ++ [name]) (by simp [hline])
        have hstacked := wellFormed_stacked_map (wellFormed_ownIn htable) front
        have hown := wellFormed_ownIn htable name
        rw [List.map_append, List.map_singleton, stacked_append (by simpa using hfront)] at hlast ⊢
        change Matches (stacked ((front ++ [name]).map (completed table))) _
        rw [List.map_append, List.map_singleton, stacked_append (by simpa using hfront),
          ← Branch.merge_merge_left hstacked hown]
        exact Matches.merge (wellFormed_stacked_map (wellFormed_completed htable) front) hstacked
          (wellFormed_completed htable name) (hstacked.merge hown) hbefore hlast

/-- The immediate parent leaves nothing out: its completion has all before it. -/
theorem stacks_parent (table : Branch) : Stacks parent table where
  subset := by
    intro front m hm
    simp only [parent, Option.mem_toList] at hm
    exact List.mem_of_getLast? hm
  nonempty := by
    intro front hne
    simp [parent, hne]
  sum := by
    intro front hfront hcompleted
    have hsplit : front = front.dropLast ++ [front.getLast hfront] :=
      (List.dropLast_concat_getLast hfront).symm
    have hlast := hcompleted front.dropLast (front.getLast hfront) [] hsplit
    rw [← hsplit] at hlast
    simpa [parent, List.getLast?_eq_some_getLast hfront, stacked] using hlast

/-- **Listing the whole ancestry is redundant.** Let a line of distinct prototypes have chains that list
all ancestors, root first, and let a second table differ in the chains of the line alone: there each
lists its immediate parent. Then the last prototype is completed in both tables, and to the same
definition, key order included. -/
theorem resolve_whole_chains {table shortened : Branch} (htable : table.WellFormed)
    (hshortened : shortened.WellFormed) {front : List String} {name : String} (hfront : front ≠ [])
    (hnd : (front ++ [name]).Nodup) (hwhole : Lineage id table (front ++ [name]))
    (hparents : Lineage parent shortened (front ++ [name]))
    (hsame : ∀ m ∈ front ++ [name], ∀ own own', bare table m = .ok own → bare shortened m = .ok own' →
      own.erase Key.prototypeChain = own'.erase Key.prototypeChain) :
    ∃ definition, resolve table name = .ok definition ∧ resolve shortened name = .ok definition := by
  refine ⟨_, hwhole.resolve_eq htable (stacks_whole htable) hnd rfl hfront, ?_⟩
  rw [hparents.resolve_eq hshortened (stacks_parent shortened) hnd rfl hfront]
  refine congrArg _ (Matches.settle_eq (wellFormed_stacked_map (wellFormed_ownIn hshortened) _)
    (wellFormed_stacked_map (wellFormed_ownIn htable) _) ?_)
  refine matches_stacked (fun m _ => wellFormed_ownIn hshortened m) (fun m _ => wellFormed_ownIn htable m) ?_
  intro m hm key hchain _
  obtain ⟨before, back, hline⟩ := List.append_of_mem hm
  obtain ⟨own, hown, _⟩ := hwhole before m back hline
  obtain ⟨own', hown', _⟩ := hparents before m back hline
  have hget : ∀ d : Branch, (d.erase Key.prototypeChain).get? key = d.get? key :=
    fun d => Entries.find?_erase_of_ne d hchain
  rw [ownIn_eq hown, ownIn_eq hown', ← hget own', ← hsame m hm own own' hown hown', hget own]
  exact Node.Alike.rel_refl _

/-- Three generations, with the chains given. The middle one replaces the icon by a text, so that of
the base's icon nothing must come back. -/
def iconTable (mid link : List String) : Branch :=
  let chain names := Node.branch (Branch.ofItems 0 (names.map Json.string))
  [("Base", .branch [("icon", .branch [("tone", .scalar (.text "dark"))]),
      (Key.stopInheritanceChain, .scalar (.bool true))]),
   ("Mid", .branch [(Key.prototypeChain, chain mid), ("icon", .scalar (.text "none"))]),
   ("Link", .branch [(Key.prototypeChain, chain link),
      ("icon", .branch [("name", .scalar (.text "arrow"))])])]

/-- The three generations are a lineage, whichever of its ancestors each of them lists. -/
theorem lineage_iconTable {pick : List String → List String} (hpick : pick [] = []) :
    Lineage pick (iconTable (pick ["Base"]) (pick ["Base", "Mid"])) ["Base", "Mid", "Link"] := by
  intro front name back hline
  match front, hline with
  | [], hline =>
    cases hline
    exact ⟨_, rfl, hpick.symm⟩
  | [_], hline =>
    cases hline
    exact ⟨_, rfl, Branch.filterMap_text?_ofItems _ 0⟩
  | [_, _], hline =>
    cases hline
    exact ⟨_, rfl, Branch.filterMap_text?_ofItems _ 0⟩
  | _ :: _ :: _ :: _, hline => simp at hline

/-- Whichever way the chains are written, the link has the icon that it names itself, and the tone of the
base does not come back. -/
theorem resolve_whole_chains_iconTable :
    ∃ definition, resolve (iconTable ["Base"] ["Base", "Mid"]) "Link" = .ok definition ∧
      resolve (iconTable ["Base"] ["Mid"]) "Link" = .ok definition ∧
      definition.nodeAt? ["icon", "name"] = some (.scalar (.text "arrow")) ∧
      definition.nodeAt? ["icon", "tone"] = none := by
  have hsame : ∀ m ∈ ["Base", "Mid", "Link"], ∀ own own',
      bare (iconTable ["Base"] ["Base", "Mid"]) m = .ok own →
      bare (iconTable ["Base"] ["Mid"]) m = .ok own' →
      own.erase Key.prototypeChain = own'.erase Key.prototypeChain := by
    intro m hm own own' hown hown'
    simp only [List.mem_cons, List.not_mem_nil, or_false] at hm
    rcases hm with rfl | rfl | rfl
    · cases hown; cases hown'; rfl
    · cases hown; cases hown'; rfl
    · cases hown; cases hown'; rfl
  obtain ⟨definition, hwhole, hparents⟩ := resolve_whole_chains (by decide) (by decide)
    (by simp : ["Base", "Mid"] ≠ []) (by decide) (lineage_iconTable rfl) (lineage_iconTable rfl) hsame
  refine ⟨definition, hwhole, hparents, ?_⟩
  cases hwhole
  exact ⟨rfl, rfl⟩

end FusionInspect.Prototype
