import FusionInspect.Proofs.Session.Reached
import FusionInspect.Proofs.Tree.Canonical

/-!
# Sessions show canonical trees

Sources are read into canonical trees, and everything that a session does with a tree afterwards keeps
it canonical: accumulating sources, completing a prototype and following a path. So no answer holds a
mapping of the three slots that is not a wrapper, except for the answer's own root.
-/

namespace FusionInspect

open Prototype (Kept)

/-! ## Accumulated trees -/

/-- A canonical tree that absorbs canonical declarations stays canonical. -/
theorem ObjectTree.canonical_absorb {t : ObjectTree} {d : Branch} (ht : t.root.Canonical)
    (hd : d.Canonical) : (t.absorb d).root.Canonical :=
  ht.absorb hd

/-- Parsing a source onto a canonical tree gives one: what is read from JSON is classified already. -/
theorem Source.canonical_parse {label source : String} {t u : ObjectTree} (ht : t.root.Canonical)
    (h : Source.parse label source t = .ok u) : u.root.Canonical := by
  unfold Source.parse at h
  cases hd : declarations label source with
  | error e =>
    rw [hd] at h
    cases h
  | ok entries =>
    rw [hd] at h
    cases h
    exact ObjectTree.canonical_absorb ht (Node.canonical_ofJson _).toBranch

/-- So the tree of any sources is canonical. -/
theorem Source.canonical_parseAll {sources : List (String × String)} {t : ObjectTree}
    (h : Source.parseAll .empty sources = .ok t) : t.root.Canonical :=
  Source.parseAll_keeps (p := fun t => t.root.Canonical) Source.canonical_parse Branch.Canonical.nil h

/-! ## Answers -/

/-- The table of prototypes in a canonical tree is canonical. -/
theorem ObjectTree.canonical_prototypes {t : ObjectTree} (ht : t.root.Canonical) :
    t.prototypes.Canonical := by
  unfold ObjectTree.prototypes
  split
  · next b hb => exact (ht.get? hb).toBranch
  · exact .nil

/-- Being canonical is kept by all that goes into a definition. -/
theorem Prototype.kept_canonical : Kept Branch.Canonical where
  nil := .nil
  merge := Branch.Canonical.merge
  settle hd := ((hd.erase _).erase _).sortKeys

/-- A definition that is completed from a canonical table is canonical. -/
theorem Prototype.canonical_resolve {table : Branch} (htable : table.Canonical) {name : String}
    {definition : Branch} (h : resolve table name = .ok definition) : definition.Canonical := by
  refine kept_canonical.resolveIn (fun hown => ?_) h
  obtain ⟨node, hnode, rfl⟩ := bare_eq_ok_iff.mp hown
  exact (htable.get? hnode).toBranch

/-- One step of a path leads from a canonical branch to a canonical node. -/
theorem FusionPath.canonical_step {b : Branch} (hb : b.Canonical) {step : String} {n : Node}
    (h : step? b step = some n) : n.Canonical := by
  unfold step? at h
  split at h
  · obtain ⟨node, hnode, h⟩ := Option.bind_eq_some_iff.mp h
    obtain ⟨table, htable, hn⟩ := Option.bind_eq_some_iff.mp h
    cases node with
    | scalar s => cases htable
    | wrapper w => cases htable
    | branch c =>
      cases htable
      exact (hb.get? hnode).toBranch.get? hn
  · exact hb.get? h

/-- All steps of a path do, one after the other. -/
theorem FusionPath.canonical_follow {b found : Branch} {steps : List String} (hb : b.Canonical)
    (h : follow? b steps = some found) : found.Canonical := by
  fun_induction follow? b steps with
  | case1 => cases h
  | case2 b step c hstep =>
    cases h
    exact (canonical_step hb hstep).toBranch
  | case3 b step node hnode hstep =>
    cases h
    refine ⟨List.pairwise_singleton _ step, fun e he => ?_⟩
    cases List.mem_singleton.mp he
    exact canonical_step hb hstep
  | case4 => cases h
  | case5 b step rest hne c hstep ih => exact ih (canonical_step hb hstep).toBranch h
  | case6 => cases h

/-- The part of a canonical tree at a path is canonical. -/
theorem ObjectTree.canonical_at {t : ObjectTree} (ht : t.root.Canonical) {path : Option String}
    {b : Branch} (h : t.at? path = .ok b) : b.Canonical := by
  unfold ObjectTree.at? at h
  split at h
  · cases h
    exact ht.erase _
  · split at h
    · next found hfound =>
      cases h
      exact FusionPath.canonical_follow ht hfound
    · cases h

namespace Session

/-- **Trees are canonical throughout.** Reading gives canonical nodes, and absorbing, merging and
sorting keep branches canonical. Hence so is the tree of any sources parsed in order, with the
definitions and parts that are asked of it, and so is every tree, definition and part that a session
shows, whatever was done with the session before and whatever became of its files. -/
theorem canonical_throughout :
    (∀ v : Json, (Node.ofJson v).Canonical) ∧
    (∀ (t : ObjectTree) (d : Branch), t.root.Canonical → d.Canonical → (t.absorb d).root.Canonical) ∧
    (∀ b e : Branch, b.Canonical → e.Canonical → (b.merge e).Canonical) ∧
    (∀ b : Branch, b.Canonical → b.sortKeys.Canonical) ∧
    (∀ sources t, Source.parseAll .empty sources = .ok t →
      t.root.Canonical ∧ (∀ name d, prototype name t = .ok d → d.Canonical) ∧
        ∀ path b, part path t = .ok b → b.Canonical) ∧
    ∀ s, Reached s → ∀ disk,
      (∀ t, (s.tree disk).1 = .ok t → t.root.Canonical) ∧
      (∀ name d, (s.ask (prototype name) disk).1 = .ok d → d.Canonical) ∧
        ∀ path b, (s.ask (part path) disk).1 = .ok b → b.Canonical := by
  have hshown : ∀ {s : Session}, Reached s → ∀ {disk t}, (s.tree disk).1 = .ok t → t.root.Canonical := by
    intro s hs disk t ht
    obtain ⟨sources, hsources⟩ := hs.exists_sources ht
    exact Source.canonical_parseAll hsources
  refine ⟨Node.canonical_ofJson, fun _ _ => ObjectTree.canonical_absorb,
    fun _ _ => Branch.Canonical.merge, fun _ => Branch.Canonical.sortKeys, ?_, ?_⟩
  · intro sources t h
    have ht := Source.canonical_parseAll h
    exact ⟨ht, fun name d hd => Prototype.canonical_resolve (ObjectTree.canonical_prototypes ht) hd,
      fun path b hb => ObjectTree.canonical_at ht hb⟩
  · intro s hs disk
    refine ⟨fun t ht => hshown hs ht, fun name d hd => ?_, fun path b hb => ?_⟩
    · obtain ⟨t, ht, hd⟩ := ask_eq_ok hd
      exact Prototype.canonical_resolve (ObjectTree.canonical_prototypes (hshown hs ht)) hd
    · obtain ⟨t, ht, hb⟩ := ask_eq_ok hb
      exact ObjectTree.canonical_at (hshown hs ht) hb

end Session

end FusionInspect
