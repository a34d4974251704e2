import FusionInspect.Proofs.Prototype.Search
import FusionInspect.Proofs.Tree.Alike

/-!
# The layers of a prototype

Merging is an overlay in which a scalar covers, and a mapping that declares a type. The definition of a
prototype with a chain is its layers merged, so the LAST LAYER that touches a path decides which scalar
stands there. Three rules are cases of this law: the own declarations of a prototype win, the nearest
ancestor wins, and an object of a new type takes nothing over from the one that it replaces.

Settling a definition takes its bookkeeping away and sorts its keys. Neither moves what stands at a path
that starts elsewhere.
-/

namespace FusionInspect

/-- What replaces an inherited property whole: a scalar, or a mapping that declares a type. -/
def Prototype.Overrides (_key : String) (n : Node) : Prop :=
  (∃ s, n = .scalar s) ∨ n.declaresType = true

open Prototype (Overrides)

/-! ## Merging is an overlay -/

/-- Merging combines two definitions key by key. -/
theorem Branch.merge_eq_combine : ∀ (extender base : Branch),
    base.merge extender = base.combine (fun _ => Node.merged) extender
  | [], _ => by rw [Branch.merge]; rfl
  | (key, node) :: rest, base => by
    rw [Branch.merge, Branch.merge_eq_combine rest]
    rfl

/-- A node that overrides stands as it is, and so does one over nothing or over a scalar. -/
theorem Node.merged_stands {key : String} {old : Option Node} {n : Node}
    (h : Overrides key n ∨ ∀ o, old = some o → o.isMapping = false) : Node.merged old n = n := by
  cases n with
  | scalar s => rw [Node.merged]
  | wrapper w => rw [Node.merged]
  | branch extender =>
    rcases h with (⟨s, hs⟩ | htyped) | hold
    · cases hs
    · have htyped : Branch.has extender Key.objectType = true := htyped
      simp [Node.merged, htyped]
    · cases old with
      | none => simp [Node.merged]
      | some o =>
        cases o with
        | scalar _ => simp [Node.merged]
        | wrapper v => cases hold _ rfl
        | branch b => cases hold _ rfl

/-- Any other node is laid over the mapping that it meets. -/
theorem Node.merged_laid {key : String} {old n : Node} (hn : ¬ Overrides key n)
    (hold : old.isMapping = true) :
    Node.merged (some old) n = .ofBranch (old.toBranch.merge n.toBranch) := by
  obtain ⟨hscalar, htyped⟩ := not_or.mp hn
  cases n with
  | scalar s => exact absurd ⟨s, rfl⟩ hscalar
  | wrapper w => exact absurd rfl htyped
  | branch extender =>
    have htyped : Branch.has extender Key.objectType = false := Bool.eq_false_iff.mpr htyped
    cases old with
    | scalar s => cases hold
    | wrapper v => simp only [Node.merged, htyped, Node.toBranch]
    | branch b => simp only [Node.merged, htyped, Node.toBranch]

/-- So merging is an overlay, and what replaces an inherited property whole is what covers. -/
theorem Branch.merge_isOverlay : IsOverlay Overrides Branch.merge :=
  .of_combine (fun b e => Branch.merge_eq_combine e b) (fun _ s => .inl ⟨s, rfl⟩)
    (fun _ _ _ h => Node.merged_stands h) (fun _ _ _ hn hold => Node.merged_laid hn hold)

/-- Merging keeps definitions well-formed. -/
theorem Branch.WellFormed.merge {base extender : Branch} (hbase : base.WellFormed)
    (hextender : extender.WellFormed) : (base.merge extender).WellFormed := by
  refine Branch.merge_isOverlay.wellFormed (fun hnd => ?_) hbase hextender
  rw [Branch.merge_eq_combine]
  exact Branch.nodup_combine _ _ hnd

/-! ## Settling keeps what stands at a path -/

theorem Node.sortKeys_eq_scalar {n : Node} {s : Scalar} : n.sortKeys = .scalar s ↔ n = .scalar s := by
  cases n <;> simp [Node.sortKeys]

/-- The children of a sorted mapping are its children sorted. A wrapper has scalars for children, and
its slots only change places. -/
theorem Node.get?_toBranch_sortKeys {n : Node} (hn : n.WellFormed) (key : String) :
    n.sortKeys.toBranch.get? key = (n.toBranch.get? key).map Node.sortKeys := by
  cases n with
  | scalar s => rw [Node.sortKeys]; rfl
  | branch b =>
    rw [Node.sortKeys]
    exact Branch.get?_sortKeys (b := b) hn.1 key
  | wrapper w =>
    have hperm : w.toBranch.Perm w.sortKeys.toBranch := ((Order.sort_perm _ w.order).map _).symm
    have hsame : w.sortKeys.toBranch.get? key = w.toBranch.get? key :=
      (Entries.find?_eq_of_perm hperm (Wrapper.nodup_keys_toBranch hn) key).symm
    rw [Node.sortKeys]
    refine hsame.trans ?_
    cases hk : w.toBranch.get? key with
    | none => simp [Node.toBranch, hk]
    | some m =>
      obtain ⟨s, hs⟩ := Wrapper.mem_toBranch (Entries.mem_of_find? hk)
      cases hs
      simp [Node.toBranch, hk, Node.sortKeys]

/-- A path leads after sorting to the sorted form of what it led to before. -/
theorem Node.nodeAt?_sortKeys : ∀ (path : List String) {n : Node}, n.WellFormed →
    n.sortKeys.nodeAt? path = (n.nodeAt? path).map Node.sortKeys
  | [], _, _ => rfl
  | key :: path, n, hn => by
    unfold Node.nodeAt?
    rw [Node.get?_toBranch_sortKeys hn]
    cases hk : n.toBranch.get? key with
    | none => rfl
    | some m => exact Node.nodeAt?_sortKeys path (hn.toBranch.get? hk)

namespace Prototype

theorem wellFormed_settle {d : Branch} (hd : d.WellFormed) : (settle d).WellFormed :=
  ((hd.erase _).erase _).sortKeys

/-- A scalar stays at its path, unless the path starts with a key of the bookkeeping. -/
theorem scalarAt_settle {d : Branch} (hd : d.WellFormed) {path : List String} {s : Scalar}
    (hchain : path.head? ≠ some Key.prototypeChain)
    (hstop : path.head? ≠ some Key.stopInheritanceChain) :
    (settle d).nodeAt? path = some (.scalar s) ↔ d.nodeAt? path = some (.scalar s) := by
  cases path with
  | nil => exact iff_of_false (fun h => by cases h) (fun h => by cases h)
  | cons key path =>
    have hchain : key ≠ Key.prototypeChain := fun h => hchain (congrArg some h)
    have hstop : key ≠ Key.stopInheritanceChain := fun h => hstop (congrArg some h)
    have hget : ((d.erase Key.prototypeChain).erase Key.stopInheritanceChain).get? key = d.get? key :=
      (Entries.find?_erase_of_ne _ hstop).trans (Entries.find?_erase_of_ne _ hchain)
    have hsorted : (settle d).nodeAt? (key :: path) =
        (d.nodeAt? (key :: path)).map Node.sortKeys := by
      have hat := Node.nodeAt?_sortKeys (key :: path)
        (n := .branch ((d.erase Key.prototypeChain).erase Key.stopInheritanceChain))
        ((hd.erase _).erase _)
      rw [Node.sortKeys] at hat
      refine hat.trans (congrArg _ ?_)
      show Branch.nodeAt? _ _ = _
      rw [Branch.nodeAt?_cons, Branch.nodeAt?_cons, hget]
    rw [hsorted, Option.map_eq_some_iff]
    constructor
    · rintro ⟨n, hn, hs⟩
      rw [hn, Node.sortKeys_eq_scalar.mp hs]
    · intro h
      exact ⟨_, h, Node.sortKeys_eq_scalar.mpr rfl⟩

/-- No bookkeeping is left at the top of a settled definition. -/
theorem has_settle {d : Branch} (hd : d.WellFormed) :
    (settle d).has Key.prototypeChain = false ∧ (settle d).has Key.stopInheritanceChain = false := by
  have habsent : ∀ key, ((d.erase Key.prototypeChain).erase Key.stopInheritanceChain).get? key = none →
      (settle d).has key = false := by
    intro key hkey
    unfold Branch.has settle
    rw [Branch.get?_sortKeys ((hd.erase _).erase _).1, hkey]
    rfl
  constructor
  · refine habsent _ ((Entries.find?_erase_of_ne _ (by decide)).trans ?_)
    exact Entries.find?_erase_self hd.1 _
  · exact habsent _ (Entries.find?_erase_self (hd.erase _).1 _)

/-! ## What completing keeps

A completed definition is made of own declarations by merging and settling. So it has every property
that those have and that these two keep. -/

/-- Each layer of a prototype is its own or an inherited one. -/
theorem mem_layers {name : String} {chain : List String} {own : Branch} {inherited : List Branch}
    {l : Branch} (hl : l ∈ layers name chain own inherited) : l = own ∨ l ∈ inherited := by
  unfold layers at hl
  split at hl
  · exact List.mem_cons.mp hl
  · rcases List.mem_append.mp hl with hl | hl
    · exact .inr hl
    · exact .inl (List.mem_singleton.mp hl)

/-- Each of the found definitions was found for some name. -/
theorem exists_of_forall₂ {α β : Type} {r : α → β → Prop} : ∀ {xs : List α} {ys : List β},
    List.Forall₂ r xs ys → ∀ y ∈ ys, ∃ x ∈ xs, r x y
  | _, _, .nil, _, hy => absurd hy List.not_mem_nil
  | _, _, .cons hxy hrest, y, hy => by
    rcases List.mem_cons.mp hy with rfl | hy
    · exact ⟨_, List.mem_cons_self, hxy⟩
    · obtain ⟨x, hx, hr⟩ := exists_of_forall₂ hrest y hy
      exact ⟨x, List.mem_cons_of_mem _ hx, hr⟩

/-- A property of definitions that merging and settling keep. -/
structure Kept (p : Branch → Prop) : Prop where
  nil : p []
  merge : ∀ {b e}, p b → p e → p (b.merge e)
  settle : ∀ {d}, p d → p (settle d)

namespace Kept

variable {p : Branch → Prop} {table : Branch}

/-- What merging keeps, a stack of layers has. -/
theorem stacked (h : Kept p) : ∀ {ls : List Branch}, (∀ l ∈ ls, p l) → p (stacked ls)
  | [], _ => h.nil
  | base :: more, hls => by
    have fold : ∀ (more : List Branch) (b : Branch), p b → (∀ l ∈ more, p l) →
        p (more.foldl Branch.merge b) := by
      intro more
      induction more with
      | nil => intro b hb _; exact hb
      | cons l more ih =>
        intro b hb hmore
        exact ih (b.merge l) (h.merge hb (hmore l List.mem_cons_self))
          fun m hm => hmore m (List.mem_cons_of_mem _ hm)
    exact fold more base (hls base List.mem_cons_self) fun l hl => hls l (List.mem_cons_of_mem _ hl)

/-- What merging and settling keep, and all own declarations have, each definition has that the search
completes. -/
theorem resolveIn (h : Kept p) (hbare : ∀ {name own}, bare table name = .ok own → p own) :
    ∀ {fuel : Nat} {following : List String} {name : String} {definition : Branch},
      resolveIn table fuel following name = .ok definition → p definition
  | 0, _, _, _, hr => by cases hr
  | fuel + 1, following, name, definition, hr => by
    obtain ⟨own, hown⟩ := Succeeds.known ⟨following, definition, hr⟩
    rcases hchain : own.chain? with _ | _ | ⟨first, rest⟩
    · rw [resolveIn_unchained fuel following hown (.inl hchain)] at hr
      cases hr
      exact hbare hown
    · rw [resolveIn_unchained fuel following hown (.inr hchain)] at hr
      cases hr
      exact hbare hown
    · obtain ⟨_, inherited, hall, rfl⟩ := resolveIn_eq_ok hown hchain hr
      refine h.settle (h.stacked fun l hl => ?_)
      rcases mem_layers hl with rfl | hl
      · exact hbare hown
      · obtain ⟨next, _, hnext⟩ := exists_of_forall₂ hall l hl
        exact h.resolveIn hbare hnext

end Kept

theorem kept_wellFormed : Kept Branch.WellFormed :=
  ⟨Branch.wellFormed_nil, Branch.WellFormed.merge, wellFormed_settle⟩

/-- The own declarations in a well-formed table are well-formed. -/
theorem wellFormed_bare {table : Branch} (htable : table.WellFormed) {name : String} {own : Branch}
    (hown : bare table name = .ok own) : own.WellFormed := by
  obtain ⟨node, hnode, rfl⟩ := bare_eq_ok_iff.mp hown
  exact (htable.get? hnode).toBranch

theorem wellFormed_stacked {ls : List Branch} (hls : ∀ l ∈ ls, l.WellFormed) : (stacked ls).WellFormed :=
  kept_wellFormed.stacked hls

/-- The layers of a prototype are well-formed if its own and its inherited definitions are. -/
theorem wellFormed_layers {name : String} {chain : List String} {own : Branch}
    {inherited : List Branch} (hown : own.WellFormed) (hall : ∀ d ∈ inherited, d.WellFormed) :
    ∀ l ∈ layers name chain own inherited, l.WellFormed := by
  intro l hl
  rcases mem_layers hl with rfl | hl
  · exact hown
  · exact hall l hl

/-- Whatever the search completes from a well-formed table is well-formed, with any fuel. -/
theorem wellFormed_resolveIn {table : Branch} (htable : table.WellFormed) {fuel : Nat}
    {following : List String} {name : String} {definition : Branch}
    (h : resolveIn table fuel following name = .ok definition) : definition.WellFormed :=
  kept_wellFormed.resolveIn (wellFormed_bare htable) h

theorem wellFormed_resolve {table : Branch} (htable : table.WellFormed) {name : String}
    {definition : Branch} (h : resolve table name = .ok definition) : definition.WellFormed :=
  wellFormed_resolveIn htable h

/-! ## The law of the last layer -/

/-- A stack has the scalar at a path that the last layer to touch the path has there. -/
theorem scalarAt_stacked {ls : List Branch} (hls : ∀ l ∈ ls, l.WellFormed) {path : List String}
    {s : Scalar} :
    (stacked ls).nodeAt? path = some (.scalar s) ↔ LastAt Overrides ls path (.scalar s) := by
  cases ls with
  | nil => exact Branch.merge_isOverlay.nodeAt?_foldl_nil (.inl ⟨s, rfl⟩) hls
  | cons base more =>
    rw [stacked, lastAt_cons]
    exact Branch.merge_isOverlay.nodeAt?_foldl (.inl ⟨s, rfl⟩)
      fun l hl => hls l (List.mem_cons_of_mem _ hl)

/-- A search within the search for another name finds what a search of its own finds. -/
theorem resolve_of_resolveIn {table : Branch} {following : List String} {name : String}
    {definition : Branch} (h : resolveIn table table.length following name = .ok definition) :
    resolve table name = .ok definition :=
  resolveIn_weaken (Nat.le_succ _) (List.nil_subset _) h

/-- **The definition of a prototype by its layers.** Let a prototype with names in its chain be
completed. Then so are its ancestors, and a scalar stands at a path exactly if some layer touches the
path and the last one that does has the scalar there. The layers are the completed ancestors in the
order of the chain, with the prototype's own declarations behind them, or in front if it heads its own
chain. Paths of the bookkeeping are left out; of it nothing remains at the top. -/
theorem resolve_layered {table : Branch} (htable : table.WellFormed) {name first : String}
    {rest : List String} {own definition : Branch} (hown : bare table name = .ok own)
    (hchain : own.chain? = some (first :: rest)) (h : resolve table name = .ok definition) :
    ∃ inherited,
      List.Forall₂ (fun ancestor d => resolve table ancestor = .ok d)
        (ancestors name (first :: rest)) inherited ∧
      (∀ path s, path.head? ≠ some Key.prototypeChain →
        path.head? ≠ some Key.stopInheritanceChain →
        (definition.nodeAt? path = some (.scalar s) ↔
          LastAt Overrides (layers name (first :: rest) own inherited) path (.scalar s))) ∧
      definition.has Key.prototypeChain = false ∧
      definition.has Key.stopInheritanceChain = false := by
  obtain ⟨_, inherited, hall, rfl⟩ := resolveIn_eq_ok hown hchain h
  have hresolved : List.Forall₂ (fun ancestor d => resolve table ancestor = .ok d)
      (successors table name) inherited := hall.imp fun _ _ => resolve_of_resolveIn
  have hlayers : ∀ l ∈ layers name (first :: rest) own inherited, l.WellFormed := by
    refine wellFormed_layers (wellFormed_bare htable hown) fun d hd => ?_
    obtain ⟨ancestor, _, hd⟩ := exists_of_forall₂ hresolved d hd
    exact wellFormed_resolve htable hd
  refine ⟨inherited, successors_eq hown hchain ▸ hresolved, ?_, has_settle (wellFormed_stacked hlayers)⟩
  intro path s hpath hpath'
  rw [scalarAt_settle (wellFormed_stacked hlayers) hpath hpath', scalarAt_stacked hlayers]

/-- A chain of two ancestors. The nearer one gives the icon a new type and name, and the link itself
changes the icon's tone. -/
def linkTable : Branch :=
  [("Base", .branch [("size", .scalar (.text "s")),
      ("icon", .branch [("name", .scalar (.text "arrow")), ("tone", .scalar (.text "dark"))])]),
   ("Mid", .branch [(Key.prototypeChain, .branch [("0", .scalar (.text "Base"))]),
      ("icon", .branch [(Key.objectType, .scalar (.text "Vendor:Icon")),
        ("name", .scalar (.text "dot"))])]),
   ("Link", .branch [(Key.prototypeChain,
        .branch [("0", .scalar (.text "Base")), ("1", .scalar (.text "Mid"))]),
      ("icon", .branch [("tone", .scalar (.text "light"))])])]

/-- The link has its icon's name from the nearer ancestor, for its own declarations do not touch it. -/
theorem resolve_layered_linkTable :
    linkTable.WellFormed ∧ ∃ own definition, bare linkTable "Link" = .ok own ∧
      own.chain? = some ["Base", "Mid"] ∧ resolve linkTable "Link" = .ok definition ∧
      definition.nodeAt? ["icon", "name"] = some (.scalar (.text "dot")) := by
  refine ⟨by decide, _, _, rfl, rfl, rfl, ?_⟩
  have hown : bare linkTable "Link" = .ok _ := rfl
  obtain ⟨inherited, hall, law, _⟩ := resolve_layered (by decide) hown rfl rfl
  refine (law _ _ (by decide) (by decide)).mpr ?_
  rcases hall with _ | ⟨hbase, _ | ⟨hmid, ⟨⟩⟩⟩
  cases hmid
  refine ⟨[_], _, [_], rfl, Branch.touches_of_nodeAt? rfl, rfl, fun l hl htouch => ?_⟩
  obtain rfl := List.mem_singleton.mp hl
  obtain ⟨n, hn, hreach⟩ := Branch.touches_cons.mp htouch
  cases hn
  rcases hreach with (⟨s, hs⟩ | htyped) | hrest
  · cases hs
  · exact absurd htyped (by decide)
  · obtain ⟨m, hm, _⟩ := Branch.touches_cons.mp hrest
    cases hm

end Prototype

end FusionInspect
