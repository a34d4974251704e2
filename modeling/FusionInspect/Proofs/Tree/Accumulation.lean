import FusionInspect.Proofs.Tree.Overlay
import FusionInspect.Tree.Object

/-!
# The accumulated tree

Files are absorbed into the object tree one after the other. Absorbing is an overlay in which a scalar
covers, and whatever stands under the key of a prototype chain. So LATER FILES WIN, leaf by leaf: the
last file that touches a path decides which scalar stands there, and a chain comes from one file whole.

The trees of files are well formed (`Node.wellFormed_ofJson`); nothing else is asked of them.
-/

namespace FusionInspect

namespace ObjectTree

/-- What replaces an earlier declaration whole: a scalar, or anything under the key of a chain. -/
def Replaces (key : String) (n : Node) : Prop :=
  (∃ s, n = .scalar s) ∨ key = Key.prototypeChain

/-- The tree of some declarations, absorbed in order. -/
def accumulated (files : List Branch) : ObjectTree :=
  files.foldl ObjectTree.absorb .empty

end ObjectTree

open ObjectTree (Replaces)

/-! ## Absorbing is an overlay -/

/-- Absorbing combines two branches key by key. -/
theorem Branch.absorb_eq_combine : ∀ (entries base : Branch),
    base.absorb entries = base.combine Node.absorbed entries
  | [], _ => by rw [Branch.absorb]; rfl
  | (key, node) :: rest, base => by
    rw [Branch.absorb, Branch.absorb_eq_combine rest]
    rfl

/-- A wrapper holds scalars only, so absorbing its entries is putting them in place. -/
theorem Branch.absorb_toBranch (base : Branch) (w : Wrapper) :
    base.absorb w.toBranch = base.insertAll w.toBranch := by
  have scalars : ∀ (entries b : Branch), (∀ e ∈ entries, ∃ s, e.2 = .scalar s) →
      b.absorb entries = b.insertAll entries := by
    intro entries
    induction entries with
    | nil => intro b _; rw [Branch.absorb]; rfl
    | cons e rest ih =>
      intro b hes
      obtain ⟨key, node⟩ := e
      obtain ⟨s, hs⟩ := hes (key, node) List.mem_cons_self
      subst hs
      rw [Branch.absorb, Node.absorbed, ih _ fun e he => hes e (List.mem_cons_of_mem _ he)]
      rfl
  refine scalars w.toBranch base fun e he => ?_
  obtain ⟨s, rfl⟩ := Wrapper.mem_toBranch he
  exact ⟨w.slot s, rfl⟩

/-- A node that replaces stands as it is, and so does one over nothing or over a scalar. -/
theorem Node.absorbed_stands {key : String} {old : Option Node} {n : Node}
    (h : Replaces key n ∨ ∀ o, old = some o → o.isMapping = false) : n.absorbed key old = n := by
  rcases h with (⟨s, rfl⟩ | hkey) | hold
  · rw [Node.absorbed]
  · cases n <;> simp [Node.absorbed, hkey]
  · cases old with
    | none => cases n <;> simp [Node.absorbed]
    | some o =>
      cases o with
      | scalar _ => cases n <;> simp [Node.absorbed]
      | wrapper v => cases hold _ rfl
      | branch b => cases hold _ rfl

/-- Any other node is laid over the mapping that it meets. -/
theorem Node.absorbed_laid {key : String} {old n : Node} (hn : ¬ Replaces key n)
    (hold : old.isMapping = true) :
    n.absorbed key (some old) = .ofBranch (old.toBranch.absorb n.toBranch) := by
  obtain ⟨hscalar, hkey⟩ := not_or.mp hn
  have hkey : (key == Key.prototypeChain) = false := beq_eq_false_iff_ne.mpr hkey
  cases n with
  | scalar s => exact absurd ⟨s, rfl⟩ hscalar
  | wrapper w =>
    cases old with
    | scalar s => cases hold
    | wrapper v => simp only [Node.absorbed, hkey, Node.toBranch, Branch.absorb_toBranch]
    | branch b => simp only [Node.absorbed, hkey, Node.toBranch, Branch.absorb_toBranch]
  | branch incoming =>
    cases old with
    | scalar s => cases hold
    | wrapper v => simp only [Node.absorbed, hkey, Node.toBranch]
    | branch b => simp only [Node.absorbed, hkey, Node.toBranch]

/-- So absorbing is an overlay, and what replaces an earlier declaration whole is what covers. -/
theorem Branch.absorb_isOverlay : IsOverlay Replaces Branch.absorb :=
  .of_combine (fun b e => Branch.absorb_eq_combine e b) (fun _ s => .inl ⟨s, rfl⟩)
    (fun _ _ _ h => Node.absorbed_stands h) (fun _ _ _ hn hold => Node.absorbed_laid hn hold)

theorem Branch.nodup_absorb (e : Branch) {b : Branch} (hb : b.keys.Nodup) : (b.absorb e).keys.Nodup := by
  rw [Branch.absorb_eq_combine]
  exact Branch.nodup_combine _ _ hb

/-! ## The law of the last file -/

namespace ObjectTree

/-- The root of a tree that absorbs some files absorbs them one after the other. -/
theorem root_foldl_absorb (files : List Branch) (t : ObjectTree) :
    (files.foldl ObjectTree.absorb t).root = files.foldl Branch.absorb t.root := by
  induction files generalizing t with
  | nil => rfl
  | cons f files ih => exact ih (t.absorb f)

theorem root_accumulated (files : List Branch) :
    (accumulated files).root = files.foldl Branch.absorb [] :=
  root_foldl_absorb files .empty

/-- **Later files win, leaf by leaf.** The accumulated tree has a scalar at a path exactly if some file
touches the path and the last one that does has the scalar there. What stands under the key of a
prototype chain is one file's whole: a chain is never a mixture. -/
theorem later_files_win (files : List Branch) (hfiles : ∀ f ∈ files, f.WellFormed) :
    (∀ path s, (accumulated files).root.nodeAt? path = some (.scalar s) ↔
      LastAt Replaces files path (.scalar s)) ∧
    ∀ front n, (accumulated files).root.nodeAt? (front ++ [Key.prototypeChain]) = some n ↔
      LastAt Replaces files (front ++ [Key.prototypeChain]) n := by
  rw [root_accumulated]
  constructor
  · intro path s
    exact Branch.absorb_isOverlay.nodeAt?_foldl_nil (.inl ⟨s, rfl⟩) hfiles
  · intro front n
    have hfixed : IsOverlay.Fixed Replaces (front ++ [Key.prototypeChain]) n :=
      .inr ⟨front, Key.prototypeChain, rfl, fun _ => .inr rfl⟩
    exact Branch.absorb_isOverlay.nodeAt?_foldl_nil hfixed hfiles

/-- Two files that speak of one page and of one prototype: the second extends the page, which was a
wrapper, and declares a shorter chain. -/
def pageFiles : List Branch :=
  [[("page", .wrapper ⟨some "Vendor:Page", none, .null, Slot.all⟩),
    (Key.prototypes, .branch [("Vendor:Page", .branch [(Key.prototypeChain,
      .branch [("0", .scalar (.text "A")), ("1", .scalar (.text "B"))])])])],
   [("page", .branch [("body", .scalar (.text "hello"))]),
    (Key.prototypes, .branch [("Vendor:Page", .branch [(Key.prototypeChain,
      .branch [("0", .scalar (.text "C"))])])])]]

/-- The type of the page stays that of the first file, and the chain is the second file's alone. -/
theorem later_files_win_pageFiles :
    (∀ f ∈ pageFiles, f.WellFormed) ∧
    (accumulated pageFiles).root.nodeAt? ["page", Key.objectType]
      = some (.scalar (.text "Vendor:Page")) ∧
    (accumulated pageFiles).root.nodeAt? [Key.prototypes, "Vendor:Page", Key.prototypeChain]
      = some (.branch [("0", .scalar (.text "C"))]) := by
  have hfiles : ∀ f ∈ pageFiles, f.WellFormed := by decide
  obtain ⟨leaves, chains⟩ := later_files_win pageFiles hfiles
  refine ⟨hfiles, (leaves _ _).mpr ?_, (chains [Key.prototypes, "Vendor:Page"] _).mpr ?_⟩
  · refine ⟨[], _, _, rfl, Branch.touches_of_nodeAt? rfl, rfl, ?_⟩
    intro l hl htouch
    obtain rfl := List.mem_singleton.mp hl
    -- the second file has a page, but neither its type nor a scalar on the way there
    obtain ⟨n, hn, hreach⟩ := Branch.touches_cons.mp htouch
    cases hn
    rcases hreach with (⟨s, hs⟩ | hkey) | hrest
    · cases hs
    · exact absurd hkey (by decide)
    · obtain ⟨m, hm, _⟩ := Branch.touches_cons.mp hrest
      cases hm
  · exact ⟨[_], _, [], rfl, Branch.touches_of_nodeAt? rfl, rfl, by simp⟩

end ObjectTree

end FusionInspect
