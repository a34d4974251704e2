import FusionInspect.Proofs.Outcome
import FusionInspect.Proofs.Prototype.Layers
import FusionInspect.Proofs.Tree.Alike

/-!
# Key order does not matter to a completed prototype

Definitions are written by hand and their keys come in any order. Completing a prototype that has a
chain is blind to it: two tables whose definitions differ only in the order of keys give the same
outcome, the same error or the same tree, and in the tree the keys of every mapping increase strictly.
Two runs of the search are compared step by step; both look at the same names, and what they find is
alike until it is settled, where it becomes equal.

The order of a chain is content, so the names of each chain have to come in the same order. A prototype
without a chain stays as it was written and is not covered.
-/

namespace FusionInspect

open Prototype (Overrides)

/-! ## Merging and settling up to key order -/

/-- Sorting changes nothing but the order of keys. -/
theorem Node.alike_sortKeys {n : Node} (hn : n.WellFormed) : n.sortKeys.Alike n := by
  intro path
  rw [Node.nodeAt?_sortKeys path hn, Option.map_map]
  refine congrArg (fun f => Option.map f _) (funext fun m => ?_)
  cases m <;> simp [Node.sortKeys, Node.kind]

/-- Whether a property replaces an inherited one whole does not depend on the order of keys. -/
theorem Prototype.Overrides.alike {key : String} {m n : Node} (h : m.Alike n) (hm : Overrides key m) :
    Overrides key n := by
  rcases hm with ⟨s, rfl⟩ | htyped
  · exact .inl ⟨s, h.eq_scalar⟩
  · refine .inr ?_
    have hkind := h.kind_eq
    cases m with
    | scalar s => cases htyped
    | wrapper v =>
      cases n with
      | scalar s => cases hkind
      | wrapper w => rfl
      | branch c => cases hkind
    | branch b =>
      cases n with
      | scalar s => cases hkind
      | wrapper w => rfl
      | branch c =>
        have hhas : Branch.has b Key.objectType = Branch.has c Key.objectType :=
          Branch.Alike.has_eq h Key.objectType
        exact hhas.symm.trans htyped

/-- Merging does not depend on the order of keys. -/
theorem Branch.Alike.merge {b c e f : Branch} (hb : b.WellFormed) (hc : c.WellFormed)
    (he : e.WellFormed) (hf : f.WellFormed) (hbc : b.Alike c) (hef : e.Alike f) :
    (b.merge e).Alike (c.merge f) :=
  Branch.merge_isOverlay.alike Branch.WellFormed.merge Overrides.alike hb hc he hf hbc hef

namespace Prototype

/-- Definitions that are alike but for their bookkeeping. -/
def Matches (d e : Branch) : Prop :=
  ∀ key, key ≠ Key.prototypeChain → key ≠ Key.stopInheritanceChain →
    Option.Rel Node.Alike (d.get? key) (e.get? key)

/-- Without its bookkeeping a definition has all else that it has. -/
theorem get?_unbooked {d : Branch} (hd : d.WellFormed) (key : String) :
    ((d.erase Key.prototypeChain).erase Key.stopInheritanceChain).get? key =
      if key = Key.prototypeChain ∨ key = Key.stopInheritanceChain then none else d.get? key := by
  by_cases hstop : key = Key.stopInheritanceChain
  · subst hstop
    rw [if_pos (.inr rfl)]
    exact Entries.find?_erase_self (hd.erase _).1 _
  · refine (Entries.find?_erase_of_ne _ hstop).trans ?_
    by_cases hchain : key = Key.prototypeChain
    · subst hchain
      rw [if_pos (.inl rfl)]
      exact Entries.find?_erase_self hd.1 _
    · rw [if_neg (by simp [hstop, hchain])]
      exact Entries.find?_erase_of_ne _ hchain

/-- Definitions that match are settled into one. -/
theorem Matches.settle_eq {d e : Branch} (hd : d.WellFormed) (he : e.WellFormed) (h : Matches d e) :
    settle d = settle e := by
  refine Branch.Alike.sortKeys_eq ((hd.erase _).erase _) ((he.erase _).erase _) ?_
  refine Branch.alike_iff.mpr fun key => ?_
  rw [get?_unbooked hd, get?_unbooked he]
  split
  · exact .none
  · next hkey =>
    obtain ⟨hchain, hstop⟩ := not_or.mp hkey
    exact h key hchain hstop

theorem matches_of_alike {d e : Branch} (h : d.Alike e) : Matches d e :=
  fun key _ _ => Branch.alike_iff.mp h key

/-! ## Layers up to key order -/

/-- Well-formed definitions that are alike. -/
def Twins (d e : Branch) : Prop :=
  d.WellFormed ∧ e.WellFormed ∧ d.Alike e

theorem Twins.refl {d : Branch} (hd : d.WellFormed) : Twins d d :=
  ⟨hd, hd, .refl _⟩

theorem Twins.merge {b c d e : Branch} (hbc : Twins b c) (hde : Twins d e) :
    Twins (b.merge d) (c.merge e) :=
  ⟨hbc.1.merge hde.1, hbc.2.1.merge hde.2.1, hbc.2.2.merge hbc.1 hbc.2.1 hde.1 hde.2.1 hde.2.2⟩

/-- Twins settle into one definition, key order included. -/
theorem Twins.settle_eq {d e : Branch} (h : Twins d e) : settle d = settle e :=
  (matches_of_alike h.2.2).settle_eq h.1 h.2.1

/-- Merging layers one after the other onto twins gives twins, if the layers are twins one by one. -/
theorem twins_foldl {ls ms : List Branch} (h : List.Forall₂ Twins ls ms) :
    ∀ {b c : Branch}, Twins b c → Twins (ls.foldl Branch.merge b) (ms.foldl Branch.merge c) := by
  induction h with
  | nil => exact id
  | cons hlm _ ih => exact fun hbc => ih (hbc.merge hlm)

/-- So stacks of twins are twins. -/
theorem twins_stacked {ls ms : List Branch} (h : List.Forall₂ Twins ls ms) :
    Twins (stacked ls) (stacked ms) := by
  cases h with
  | nil => exact .refl Branch.wellFormed_nil
  | cons hbc hrest => exact twins_foldl hrest hbc

/-- The layers of a prototype are twins if its own and its inherited definitions are. -/
theorem twins_layers {name : String} {chain : List String} {own own' : Branch}
    {inherited inherited' : List Branch} (hown : Twins own own')
    (hall : List.Forall₂ Twins inherited inherited') :
    List.Forall₂ Twins (layers name chain own inherited) (layers name chain own' inherited') := by
  unfold layers
  split
  · exact .cons hown hall
  · exact List.rel_append hall (.cons hown .nil)

/-! ## Two tables -/

/-- Two tables with the same names, whose definitions differ only in the order of keys. The names of
each chain come in the same order. -/
structure SameButKeyOrder (table other : Branch) : Prop where
  names : table.keys.Perm other.keys
  definitions : ∀ {name m n}, table.get? name = some m → other.get? name = some n →
    m.Reordered n ∧ m.toBranch.chain? = n.toBranch.chain?

namespace SameButKeyOrder

variable {table other : Branch}

/-- Two such tables have definitions at the same names, and they differ only in the order of keys. -/
theorem get? (h : SameButKeyOrder table other) (name : String) :
    Option.Rel (fun m n => m.Reordered n ∧ m.toBranch.chain? = n.toBranch.chain?)
      (table.get? name) (other.get? name) := by
  have hmem : name ∈ table.keys ↔ name ∈ other.keys := h.names.mem_iff
  rw [Branch.mem_keys_iff, Branch.mem_keys_iff, Branch.has, Branch.has] at hmem
  cases hm : table.get? name with
  | none =>
    cases hn : other.get? name with
    | none => exact .none
    | some n => simp [hm, hn] at hmem
  | some m =>
    cases hn : other.get? name with
    | none => simp [hm, hn] at hmem
    | some n => exact .some (h.definitions hm hn)

/-- Both tables have the same own declarations of a prototype, up to key order, or neither has any. -/
theorem bare (h : SameButKeyOrder table other) (htable : table.WellFormed) (name : String) :
    Agree (fun own own' => Twins own own' ∧ own.chain? = own'.chain?)
      (Prototype.bare table name) (Prototype.bare other name) := by
  have hget := h.get? name
  unfold Prototype.bare
  cases hm : table.get? name with
  | none =>
    rw [hm] at hget
    rw [rel_none_left hget]
    exact .error _
  | some m =>
    rw [hm] at hget
    obtain ⟨n, hn, hreordered, hchain⟩ := rel_some_left hget
    rw [hn]
    have hwf := htable.get? hm
    obtain ⟨hwf', halike⟩ := hreordered.alike hwf
    exact .ok ⟨⟨hwf.toBranch, hwf'.toBranch, halike.toBranch⟩, hchain⟩

/-- So each prototype leads on to the same names, in the same order. -/
theorem successors_eq (h : SameButKeyOrder table other) (name : String) :
    successors table name = successors other name := by
  have hget := h.get? name
  unfold successors
  cases hm : table.get? name with
  | none =>
    rw [hm] at hget
    rw [rel_none_left hget]
  | some m =>
    rw [hm] at hget
    obtain ⟨n, hn, _, hchain⟩ := rel_some_left hget
    rw [hn, Option.bind_some, Option.bind_some, hchain]

/-- One name with a chain: if the searches for the names it leads on to agree, then the searches for
the name itself end equal. -/
theorem resolveIn_eq (h : SameButKeyOrder table other) {fuel : Nat} {following : List String}
    {name first : String} {rest : List String} {own own' : Branch}
    (hown : Prototype.bare table name = .ok own) (hown' : Prototype.bare other name = .ok own')
    (htwins : Twins own own') (hchain : own.chain? = some (first :: rest))
    (hchain' : own'.chain? = some (first :: rest))
    (hnext : ∀ next, Agree Twins (resolveIn table fuel (name :: following) next)
      (resolveIn other fuel (name :: following) next)) :
    resolveIn table (fuel + 1) following name = resolveIn other (fuel + 1) following name := by
  by_cases hmet : name ∈ following
  · rw [resolveIn_met fuel hown hchain hmet, resolveIn_met fuel hown' hchain' hmet]
  · rw [resolveIn_chained fuel hown hchain hmet, resolveIn_chained fuel hown' hchain' hmet,
      h.successors_eq]
    apply Agree.eq
    refine (Agree.mapM fun next _ => hnext next).map fun inherited inherited' hall => ?_
    exact (twins_stacked (twins_layers htwins hall)).settle_eq

/-- The searches in both tables agree. -/
theorem resolveIn_agree (h : SameButKeyOrder table other) (htable : table.WellFormed) :
    ∀ (fuel : Nat) (following : List String) (name : String),
      Agree Twins (resolveIn table fuel following name) (resolveIn other fuel following name)
  | 0, _, _ => .error _
  | fuel + 1, following, name => by
    have hbare := h.bare htable name
    cases hown : Prototype.bare table name with
    | error e =>
      rw [hown] at hbare
      cases hown' : Prototype.bare other name with
      | ok own' => rw [hown'] at hbare; cases hbare
      | error e' =>
        rw [hown'] at hbare
        cases hbare
        rw [resolveIn_missing fuel following hown, resolveIn_missing fuel following hown']
        exact .error e
    | ok own =>
      rw [hown] at hbare
      cases hown' : Prototype.bare other name with
      | error e' => rw [hown'] at hbare; cases hbare
      | ok own' =>
        rw [hown'] at hbare
        cases hbare with
        | ok hmatch =>
          obtain ⟨htwins, hchain'⟩ := hmatch
          rcases hchain : own.chain? with _ | _ | ⟨first, rest⟩
          · rw [resolveIn_unchained fuel following hown (.inl hchain),
              resolveIn_unchained fuel following hown' (.inl (hchain' ▸ hchain))]
            exact .ok htwins
          · rw [resolveIn_unchained fuel following hown (.inr hchain),
              resolveIn_unchained fuel following hown' (.inr (hchain' ▸ hchain))]
            exact .ok htwins
          · rw [← h.resolveIn_eq hown hown' htwins hchain (hchain' ▸ hchain)
              fun next => h.resolveIn_agree htable fuel (name :: following) next]
            cases hr : resolveIn table (fuel + 1) following name with
            | error e => exact .error e
            | ok d => exact .ok (.refl (wellFormed_resolveIn htable hr))

end SameButKeyOrder

/-! ## The law of key order -/

/-- A settled definition has sorted mappings at all its paths. -/
theorem pairwise_keys_settle {d : Branch} (hd : d.WellFormed) {path : List String} {n : Node}
    (h : (settle d).nodeAt? path = some n) :
    n.toBranch.keys.Pairwise fun a b => Text.naturalOrder a b = .lt := by
  have hwf : (Node.branch ((d.erase Key.prototypeChain).erase Key.stopInheritanceChain)).WellFormed :=
    (hd.erase _).erase _
  have hsorted := Node.nodeAt?_sortKeys path hwf
  rw [Node.sortKeys] at hsorted
  obtain ⟨m, hm, rfl⟩ := Option.map_eq_some_iff.mp (hsorted.symm.trans h)
  exact Node.pairwise_keys_sortKeys (hwf.nodeAt? hm)

/-- **Key order does not matter.** In two tables whose definitions differ only in the order of keys, a
prototype with names in its chain is completed to the same definition, key order included, or fails
with the same error. The keys of every mapping in the definition increase strictly. -/
theorem resolve_reordered {table other : Branch} (htable : table.WellFormed)
    (h : SameButKeyOrder table other) {name first : String} {rest : List String} {own : Branch}
    (hown : bare table name = .ok own) (hchain : own.chain? = some (first :: rest)) :
    resolve table name = resolve other name ∧
      ∀ definition, resolve table name = .ok definition →
        ∀ path n, definition.nodeAt? path = some n →
          n.toBranch.keys.Pairwise fun a b => Text.naturalOrder a b = .lt := by
  constructor
  · have hbare := h.bare htable name
    rw [hown] at hbare
    cases hown' : bare other name with
    | error e => rw [hown'] at hbare; cases hbare
    | ok own' =>
      rw [hown'] at hbare
      cases hbare with
      | ok hmatch =>
        have hlength : other.length = table.length := by
          have := h.names.length_eq
          simpa [Branch.keys] using this.symm
        unfold resolve
        rw [hlength]
        exact h.resolveIn_eq hown hown' hmatch.1 hchain (hmatch.2 ▸ hchain)
          fun next => h.resolveIn_agree htable _ _ next
  · intro definition hdefinition path n hn
    obtain ⟨_, inherited, hall, rfl⟩ := resolveIn_eq_ok hown hchain hdefinition
    have hlayers : ∀ l ∈ layers name (first :: rest) own inherited, l.WellFormed := by
      refine wellFormed_layers (wellFormed_bare htable hown) fun d hd => ?_
      obtain ⟨ancestor, _, hd⟩ := exists_of_forall₂ hall d hd
      exact wellFormed_resolveIn htable hd
    exact pairwise_keys_settle (wellFormed_stacked hlayers) hn

/-- A link and its base, written twice. -/
def writtenTable : Branch :=
  [("Base", .branch [("size", .scalar (.text "s")),
      ("icon", .branch [("tone", .scalar (.text "dark")), ("name", .scalar (.text "arrow"))])]),
   ("Link", .branch [(Key.prototypeChain, .branch [("0", .scalar (.text "Base"))]),
      ("label", .wrapper ⟨none, some "q.label", .null, [.value, .objectType, .expression]⟩)])]

/-- The second time the prototypes, the icon's properties and the label's slots change places. -/
def rewrittenTable : Branch :=
  [("Link", .branch [(Key.prototypeChain, .branch [("0", .scalar (.text "Base"))]),
      ("label", .wrapper ⟨none, some "q.label", .null, [.objectType, .expression, .value]⟩)]),
   ("Base", .branch [("size", .scalar (.text "s")),
      ("icon", .branch [("name", .scalar (.text "arrow")), ("tone", .scalar (.text "dark"))])])]

theorem sameButKeyOrder_rewrittenTable : SameButKeyOrder writtenTable rewrittenTable where
  names := by decide
  definitions := by
    intro name m n hm hn
    have hname : name = "Base" ∨ name = "Link" := by
      have := List.mem_map_of_mem (f := Prod.fst) (Entries.mem_of_find? hm)
      simpa [writtenTable] using this
    rcases hname with rfl | rfl
    · cases hm
      cases hn
      exact ⟨.child [_] [] "icon" (.entries (.swap _ _ _)), rfl⟩
    · cases hm
      cases hn
      exact ⟨.child [_] [] "label" (.slots _ (by decide)), rfl⟩

/-- The link is completed alike from both, and the slots of its label are in natural order. -/
theorem resolve_reordered_writtenTable :
    writtenTable.WellFormed ∧ SameButKeyOrder writtenTable rewrittenTable ∧
      resolve writtenTable "Link" = resolve rewrittenTable "Link" ∧
      ∃ definition label, resolve rewrittenTable "Link" = .ok definition ∧
        definition.nodeAt? ["label"] = some label ∧
        label.toBranch.keys = [Key.expression, Key.objectType, Key.value] ∧
        label.toBranch.keys.Pairwise fun a b => Text.naturalOrder a b = .lt := by
  have hown : bare writtenTable "Link" = .ok _ := rfl
  have hlink : resolve writtenTable "Link" = .ok _ := rfl
  obtain ⟨hsame, hsorted⟩ := resolve_reordered (by decide) sameButKeyOrder_rewrittenTable hown rfl
  exact ⟨by decide, sameButKeyOrder_rewrittenTable, hsame, _, _, hsame.symm.trans hlink, rfl, rfl,
    hsorted _ hlink ["label"] _ rfl⟩

end Prototype

end FusionInspect
