import FusionInspect.Proofs.Tree.Accumulation
import FusionInspect.Proofs.Tree.Alike

/-!
# Files that do not conflict

Absorbing depends on the order of files: later scalars win, and so do later chains. Files CONFLICT where
both have a node and one of the two cannot be merged into the other. Where they only meet in mappings,
each key of such a mapping is one file's or again a mapping of both, so either order puts the same nodes in
place, and only the order of keys shows which file came first (`Branch.absorb_comm`).

Nothing is asked of the tree that files are absorbed into. It may hold a scalar where two files meet,
which gives way to the mapping of whichever comes first; that is the same as if nothing had been there.
-/

namespace FusionInspect

open ObjectTree (Replaces)

/-! ## Absorbing, key by key -/

theorem Branch.WellFormed.absorb {b e : Branch} (hb : b.WellFormed) (he : e.WellFormed) :
    (b.absorb e).WellFormed :=
  Branch.absorb_isOverlay.wellFormed (Branch.nodup_absorb _) hb he

/-- Whether a declaration replaces an earlier one whole does not depend on the order of keys. -/
theorem ObjectTree.Replaces.alike {key : String} {m n : Node} (h : m.Alike n) (hm : Replaces key m) :
    Replaces key n := by
  rcases hm with ⟨s, rfl⟩ | hkey
  · exact .inl ⟨s, h.eq_scalar⟩
  · exact .inr hkey

/-- Absorbing does not depend on the order of keys. -/
theorem Branch.Alike.absorb {b c e f : Branch} (hb : b.WellFormed) (hc : c.WellFormed)
    (he : e.WellFormed) (hf : f.WellFormed) (hbc : b.Alike c) (hef : e.Alike f) :
    (b.absorb e).Alike (c.absorb f) :=
  Branch.absorb_isOverlay.alike Branch.WellFormed.absorb Replaces.alike hb hc he hf hbc hef

/-- At each key, what is absorbed there meets what is there already. -/
theorem Branch.get?_absorb {e : Branch} (he : e.keys.Nodup) (b : Branch) (key : String) :
    (b.absorb e).get? key =
      match e.get? key with
      | none => b.get? key
      | some n => some (n.absorbed key (b.get? key)) := by
  rw [Branch.absorb_eq_combine]
  exact Branch.get?_combine _ he key

/-- The empty branch takes over what it absorbs. -/
theorem Branch.nil_absorb {e : Branch} (he : e.keys.Nodup) : Branch.absorb [] e = e := by
  have hkeys : (Branch.absorb [] e).keys = e.keys := by
    rw [Branch.absorb_eq_combine, Branch.keys_combine _ he]
    simp [Branch.keys]
  refine Entries.eq_of_find?_eq hkeys (Branch.nodup_absorb e List.nodup_nil) fun key => ?_
  refine (Branch.get?_absorb he [] key).trans ?_
  change _ = e.get? key
  cases e.get? key with
  | none => rfl
  | some n =>
    refine congrArg some (Node.absorbed_stands (.inr fun old hold => ?_))
    cases hold

/-! ## Conflicts -/

namespace Branch

/-- At every path that leads to a node in both branches, both nodes are mappings and the last key is not
that of a prototype chain. -/
def ConflictFree (d e : Branch) : Prop :=
  ∀ path m n, d.nodeAt? path = some m → e.nodeAt? path = some n →
    m.isMapping = true ∧ n.isMapping = true ∧ path.getLast? ≠ some Key.prototypeChain

theorem ConflictFree.symm {d e : Branch} (h : d.ConflictFree e) : e.ConflictFree d := by
  intro path m n hm hn
  obtain ⟨hn, hm, hlast⟩ := h path n m hn hm
  exact ⟨hm, hn, hlast⟩

/-- Branches are free of conflicts if under each key of both they have mappings that are so. -/
theorem conflictFree_iff {d e : Branch} :
    d.ConflictFree e ↔ ∀ key m n, d.get? key = some m → e.get? key = some n →
      m.isMapping = true ∧ n.isMapping = true ∧ key ≠ Key.prototypeChain ∧
        m.toBranch.ConflictFree n.toBranch := by
  constructor
  · intro h key m n hm hn
    have hhere := h [key] m n (by rw [nodeAt?_cons, hm]; rfl) (by rw [nodeAt?_cons, hn]; rfl)
    refine ⟨hhere.1, hhere.2.1, fun hkey => hhere.2.2 (congrArg some hkey), ?_⟩
    intro path m' n' hm' hn'
    cases path with
    | nil =>
      cases hm'
      cases hn'
      exact ⟨rfl, rfl, by simp⟩
    | cons k path =>
      have hbelow := h (key :: k :: path) m' n' (by rw [nodeAt?_cons, hm]; exact hm')
        (by rw [nodeAt?_cons, hn]; exact hn')
      rwa [List.getLast?_cons_cons] at hbelow
  · intro h path m' n' hm' hn'
    cases path with
    | nil =>
      cases hm'
      cases hn'
      exact ⟨rfl, rfl, by simp⟩
    | cons key path =>
      obtain ⟨m, hm, hm'⟩ := Option.bind_eq_some_iff.mp hm'
      obtain ⟨n, hn, hn'⟩ := Option.bind_eq_some_iff.mp hn'
      obtain ⟨hmap, hmap', hkey, hbelow⟩ := h key m n hm hn
      cases path with
      | nil =>
        cases hm'
        cases hn'
        exact ⟨hmap, hmap', by simpa using hkey⟩
      | cons k path =>
        rw [List.getLast?_cons_cons]
        exact hbelow (k :: path) m' n' hm' hn'

/-- Files without a common key are free of conflicts. -/
theorem conflictFree_of_disjoint {d e : Branch} (h : ∀ key ∈ d.keys, key ∉ e.keys) : d.ConflictFree e := by
  refine conflictFree_iff.mpr fun key m n hm hn => ?_
  have hd : key ∈ d.keys := List.mem_map_of_mem (Entries.mem_of_find? hm)
  exact absurd (List.mem_map_of_mem (Entries.mem_of_find? hn)) (h key hd)

/-! ## Two files in either order -/

/-- At a key that one of two files does not have, the other one decides. -/
theorem get?_absorb_comm_of_absent {b d e : Branch} {key : String} (hd : d.keys.Nodup)
    (he : e.keys.Nodup) (h : d.get? key = none) :
    ((b.absorb d).absorb e).get? key = ((b.absorb e).absorb d).get? key := by
  have hfirst : (b.absorb d).get? key = b.get? key := Branch.absorb_isOverlay.get?_absent hd h
  rw [Branch.absorb_isOverlay.get?_absent hd h, get?_absorb he, get?_absorb he, hfirst]

/-- The entries under a key of a branch; there are none unless a mapping is there. -/
def below (b : Branch) (key : String) : Branch :=
  (b.get? key).elim [] Node.toBranch

/-- The entries under a key of a well-formed branch are well-formed. -/
theorem WellFormed.below {b : Branch} (hb : b.WellFormed) (key : String) : (b.below key).WellFormed := by
  unfold Branch.below
  cases hold : b.get? key with
  | none => exact wellFormed_nil
  | some old => exact (hb.get? hold).toBranch

/-- Where two files meet in mappings, both are laid over the entries that the base has there. A scalar of
the base gives way, and so counts as nothing. -/
theorem get?_absorb_absorb {b d e : Branch} {key : String} {m n : Node} (hd : d.WellFormed)
    (he : e.WellFormed) (hm : d.get? key = some m) (hn : e.get? key = some n)
    (hmap : m.isMapping = true) (hmap' : n.isMapping = true) (hkey : key ≠ Key.prototypeChain) :
    ((b.absorb d).absorb e).get? key =
      some (.ofBranch (((b.below key).absorb m.toBranch).absorb n.toBranch)) := by
  have hlaid : ∀ {l : Node}, l.isMapping = true → ¬ Replaces key l := by
    rintro l hl (⟨s, rfl⟩ | hchain)
    · cases hl
    · exact hkey hchain
  have hover := Branch.absorb_isOverlay
  by_cases hbase : ∃ old, b.get? key = some old ∧ old.isMapping = true
  · obtain ⟨old, hold, holdmap⟩ := hbase
    have hfirst : (b.absorb d).get? key = some (.ofBranch (old.toBranch.absorb m.toBranch)) :=
      hover.get?_laid hd.1 hm (hlaid hmap) hold holdmap
    rw [hover.get?_laid he.1 hn (hlaid hmap') hfirst (Node.isMapping_ofBranch _),
      Node.toBranch_ofBranch, below, hold]
    rfl
  · have hscalar : ∀ old, b.get? key = some old → old.isMapping = false := by simpa using hbase
    have hfirst : (b.absorb d).get? key = some m := hover.get?_stands hd.1 hm (.inr hscalar)
    have hnothing : b.below key = [] := by
      unfold below
      cases hold : b.get? key with
      | none => rfl
      | some old =>
        have := hscalar old hold
        cases old with
        | scalar s => rfl
        | wrapper w => cases this
        | branch c => cases this
    rw [hover.get?_laid he.1 hn (hlaid hmap') hfirst hmap, hnothing,
      nil_absorb (hd.get? hm).toBranch.1]

/-- Files that do not conflict may be absorbed in either order. The induction is on the first file, and
the base is another one at each level. -/
theorem absorb_comm {b d e : Branch} (hb : b.WellFormed) (hd : d.WellFormed) (he : e.WellFormed)
    (h : d.ConflictFree e) : ((b.absorb d).absorb e).Alike ((b.absorb e).absorb d) := by
  have nodes : ∀ m : Node, m.WellFormed → ∀ n : Node, n.WellFormed → ∀ b : Branch, b.WellFormed →
      m.toBranch.ConflictFree n.toBranch →
      ((b.absorb m.toBranch).absorb n.toBranch).Alike ((b.absorb n.toBranch).absorb m.toBranch) := by
    intro m
    induction m using Node.inductionOnChildren with
    | step m ih =>
      intro hm n hn b hb h
      have hmb := hm.toBranch
      have hnb := hn.toBranch
      refine Branch.alike_iff.mpr fun key => ?_
      cases hm' : m.toBranch.get? key with
      | none =>
        rw [get?_absorb_comm_of_absent hmb.1 hnb.1 hm']
        exact Node.Alike.rel_refl _
      | some m' =>
        cases hn' : n.toBranch.get? key with
        | none =>
          rw [← get?_absorb_comm_of_absent hnb.1 hmb.1 hn']
          exact Node.Alike.rel_refl _
        | some n' =>
          obtain ⟨hmap, hmap', hkey, hbelow⟩ := conflictFree_iff.mp h key m' n' hm' hn'
          have hwm := hmb.get? hm'
          have hwn := hnb.get? hn'
          have hbase := hb.below key
          rw [get?_absorb_absorb hmb hnb hm' hn' hmap hmap' hkey,
            get?_absorb_absorb hnb hmb hn' hm' hmap' hmap hkey]
          have hlaid := ih (key, m') (Entries.mem_of_find? hm') hwm n' hwn _ hbase hbelow
          exact .some (hlaid.ofBranch ((hbase.absorb hwm.toBranch).absorb hwn.toBranch).1
            ((hbase.absorb hwn.toBranch).absorb hwm.toBranch).1)
  exact nodes (.branch d) hd (.branch e) he b hb h

/-! ## Many files in any order -/

/-- A tree that absorbs well-formed files stays well-formed. -/
theorem wellFormed_foldl_absorb {files : List Branch} (hfiles : ∀ f ∈ files, f.WellFormed) {b : Branch}
    (hb : b.WellFormed) : (files.foldl Branch.absorb b).WellFormed := by
  induction files generalizing b with
  | nil => exact hb
  | cons f files ih =>
    rw [List.forall_mem_cons] at hfiles
    exact ih hfiles.2 (hb.absorb hfiles.1)

/-- Absorbing the same files onto trees that are alike keeps them alike. -/
theorem alike_foldl_absorb {files : List Branch} (hfiles : ∀ f ∈ files, f.WellFormed) {b c : Branch}
    (hb : b.WellFormed) (hc : c.WellFormed) (hbc : b.Alike c) :
    (files.foldl Branch.absorb b).Alike (files.foldl Branch.absorb c) := by
  induction files generalizing b c with
  | nil => exact hbc
  | cons f files ih =>
    rw [List.forall_mem_cons] at hfiles
    exact ih hfiles.2 (hb.absorb hfiles.1) (hc.absorb hfiles.1)
      (hbc.absorb hb hc hfiles.1 hfiles.1 (.refl _))

/-- Files free of conflicts may be absorbed in any order: two neighbours can change places, and the others
do not notice. -/
theorem alike_foldl_absorb_of_perm {files files' : List Branch} (hperm : files.Perm files') :
    (∀ f ∈ files, f.WellFormed) → files.Pairwise ConflictFree → ∀ {b : Branch}, b.WellFormed →
      (files.foldl Branch.absorb b).Alike (files'.foldl Branch.absorb b) := by
  induction hperm with
  | nil =>
    intro _ _ b _
    exact .refl _
  | cons f _ ih =>
    intro hfiles hfree b hb
    rw [List.forall_mem_cons] at hfiles
    exact ih hfiles.2 (List.pairwise_cons.mp hfree).2 (hb.absorb hfiles.1)
  | swap d e files =>
    intro hfiles hfree b hb
    rw [List.forall_mem_cons, List.forall_mem_cons] at hfiles
    obtain ⟨he, hd, hfiles⟩ := hfiles
    have hed : e.ConflictFree d := (List.pairwise_cons.mp hfree).1 d List.mem_cons_self
    exact alike_foldl_absorb hfiles ((hb.absorb he).absorb hd) ((hb.absorb hd).absorb he)
      (absorb_comm hb he hd hed)
  | trans hperm _ ih ih' =>
    intro hfiles hfree b hb
    have hfirst := ih hfiles hfree hb
    have hsecond := ih' (fun f hf => hfiles f (hperm.mem_iff.mpr hf))
      ((hperm.pairwise_iff ConflictFree.symm).mp hfree) hb
    exact Node.Alike.trans hfirst hsecond

end Branch

namespace ObjectTree

/-- **Files that do not conflict may be loaded in any order.** Whatever tree they are absorbed into, two
orders give trees that differ in the order of keys alone, and every node is a wrapper in both, a branch in
both, or the same scalar in both. The files need only be well formed, which canonical ones are. -/
theorem absorb_order_irrelevant (t : ObjectTree) (ht : t.root.WellFormed) {files files' : List Branch}
    (hperm : files.Perm files') (hfiles : ∀ f ∈ files, f.WellFormed)
    (hfree : files.Pairwise Branch.ConflictFree) :
    (Node.branch (files.foldl ObjectTree.absorb t).root).Reordered
        (.branch (files'.foldl ObjectTree.absorb t).root) ∧
      (files.foldl ObjectTree.absorb t).root.Alike (files'.foldl ObjectTree.absorb t).root := by
  have hfiles' : ∀ f ∈ files', f.WellFormed := fun f hf => hfiles f (hperm.mem_iff.mpr hf)
  rw [root_foldl_absorb, root_foldl_absorb]
  have halike := Branch.alike_foldl_absorb_of_perm hperm hfiles hfree ht
  exact ⟨halike.reordered (Branch.wellFormed_foldl_absorb hfiles ht)
    (Branch.wellFormed_foldl_absorb hfiles' ht), halike⟩

/-- Three files that speak of one page: what it is, that there is one, and what is on it. -/
def pageParts : List Branch :=
  [[("page", .wrapper ⟨some "Vendor:Page", none, .null, Slot.all⟩)],
   [("page", .branch [])],
   [("page", .branch [("body", .scalar (.text "hello"))]), ("title", .scalar (.text "Home"))]]

/-- A tree where a text stands in the place of the page. -/
def draftTree : ObjectTree :=
  ⟨[("page", .scalar (.text "draft"))]⟩

/-- The parts of a page may come in the reverse order, though only the first of them says that the page
is no plain mapping, and though the tree has no page that they could extend. -/
theorem absorb_order_irrelevant_pageParts :
    draftTree.root.WellFormed ∧ pageParts.Perm pageParts.reverse ∧ (∀ f ∈ pageParts, f.WellFormed) ∧
      pageParts.Pairwise Branch.ConflictFree ∧
      (Node.branch (pageParts.foldl ObjectTree.absorb draftTree).root).Reordered
        (.branch (pageParts.reverse.foldl ObjectTree.absorb draftTree).root) ∧
      (pageParts.foldl ObjectTree.absorb draftTree).root.Alike
        (pageParts.reverse.foldl ObjectTree.absorb draftTree).root := by
  have hdraft : draftTree.root.WellFormed := by decide
  have hparts : ∀ f ∈ pageParts, f.WellFormed := by decide
  have hperm : pageParts.Perm pageParts.reverse := (List.reverse_perm pageParts).symm
  have parts : ∀ (m n : Node) (rest : Branch), m.isMapping = true → n.isMapping = true →
      (∀ key ∈ m.toBranch.keys, key ∉ n.toBranch.keys) →
      Branch.ConflictFree [("page", m)] (("page", n) :: rest) := by
    intro m n rest hm hn hkeys
    refine Branch.conflictFree_iff.mpr fun key m' n' hm' hn' => ?_
    obtain rfl : "page" = key := (congrArg Prod.fst (List.mem_singleton.mp (Entries.mem_of_find? hm'))).symm
    cases hm'
    cases hn'
    exact ⟨hm, hn, by decide, Branch.conflictFree_of_disjoint hkeys⟩
  have hfree : pageParts.Pairwise Branch.ConflictFree := by
    refine .cons (fun f hf => ?_) (.cons (fun f hf => ?_) (.cons (fun f hf => ?_) .nil))
    · rcases List.mem_cons.mp hf with rfl | hf
      · exact parts _ _ _ rfl rfl (by decide)
      · cases List.mem_singleton.mp hf
        exact parts _ _ _ rfl rfl (by decide)
    · cases List.mem_singleton.mp hf
      exact parts _ _ _ rfl rfl (by decide)
    · cases hf
  exact ⟨hdraft, hperm, hparts, hfree, absorb_order_irrelevant draftTree hdraft hperm hparts hfree⟩

end ObjectTree

end FusionInspect
