import FusionInspect.Proofs.Text.NaturalOrder
import FusionInspect.Proofs.Tree.Overlay

/-!
# Trees that differ in key order

Two trees are ALIKE when at every path they have the same kind of node: the same scalar, a wrapper in
both, or a branch in both. Nothing is said about the order of keys, so trees that differ only in the
order of keys are alike (`Node.Reordered.alike`), and well-formed trees that are alike have one sorted
form (`Node.Alike.sortKeys_eq`).

An overlay cannot tell alike layers apart (`IsOverlay.alike`). What has to be checked for this is that
mappings are classified by their keys and scalars and not by the order of their keys.
-/

namespace FusionInspect

/-! ## Induction on children

The children of a wrapper are scalars, so that a tree may be taken apart with `Node.toBranch` alone. -/

mutual
/-- Induction from the nodes under a node, those in the slots of a wrapper included, to the node. -/
@[elab_as_elim]
theorem Node.inductionOnChildren {P : Node → Prop} (step : ∀ n, (∀ e ∈ n.toBranch, P e.2) → P n) :
    ∀ n, P n
  | .scalar s => step (.scalar s) fun _ he => absurd he List.not_mem_nil
  | .wrapper w => step (.wrapper w) fun e he => by
    obtain ⟨s, rfl⟩ := Wrapper.mem_toBranch he
    exact step _ fun _ he => absurd he List.not_mem_nil
  | .branch b => step (.branch b) (Branch.inductionOnChildren step b)
/-- The same for each node of a branch. -/
theorem Branch.inductionOnChildren {P : Node → Prop} (step : ∀ n, (∀ e ∈ n.toBranch, P e.2) → P n) :
    ∀ b : Branch, ∀ e ∈ b, P e.2
  | [], _, he => absurd he List.not_mem_nil
  | (_, n) :: rest, e, he => by
    rcases List.mem_cons.mp he with rfl | he
    · exact Node.inductionOnChildren step n
    · exact Branch.inductionOnChildren step rest e he
end

/-! ## What is found on both sides -/

section

variable {α β : Type} {r : α → β → Prop}

/-- What is related to `some a` is `some` of a value that `a` is related to. -/
theorem rel_some_left {a : α} {o : Option β} (h : Option.Rel r (some a) o) :
    ∃ b, o = some b ∧ r a b := by
  cases h with
  | some hab => exact ⟨_, rfl, hab⟩

/-- The same, seen from the other side. -/
theorem rel_some_right {o : Option α} {b : β} (h : Option.Rel r o (some b)) :
    ∃ a, o = some a ∧ r a b := by
  cases h with
  | some hab => exact ⟨_, rfl, hab⟩

theorem rel_none_left {o : Option β} (h : Option.Rel r none o) : o = none := by
  cases h
  rfl

end

/-! ## Kinds of nodes -/

/-- What a node is, its entries left aside. -/
inductive Node.Kind where
  | scalar (value : Scalar)
  | wrapper
  | branch

/-- The kind of a node. -/
def Node.kind : Node → Kind
  | .scalar s => .scalar s
  | .wrapper _ => .wrapper
  | .branch _ => .branch

/-- The same kind of node at every path. -/
def Node.Alike (m n : Node) : Prop :=
  ∀ path, (m.nodeAt? path).map kind = (n.nodeAt? path).map kind

/-- The same kind of node at every path of two branches. -/
def Branch.Alike (b c : Branch) : Prop :=
  (Node.branch b).Alike (.branch c)

namespace Node.Alike

variable {l m n : Node}

theorem refl (n : Node) : n.Alike n := fun _ => rfl

theorem symm (h : m.Alike n) : n.Alike m := fun path => (h path).symm

theorem trans (h : l.Alike m) (h' : m.Alike n) : l.Alike n := fun path => (h path).trans (h' path)

theorem kind_eq (h : m.Alike n) : m.kind = n.kind := Option.some.inj (h [])

/-- The children of alike nodes are alike, key by key. -/
theorem get? (h : m.Alike n) (key : String) :
    Option.Rel Node.Alike (m.toBranch.get? key) (n.toBranch.get? key) := by
  have hkey : ∀ path, ((m.toBranch.get? key).bind fun child => child.nodeAt? path).map kind =
      ((n.toBranch.get? key).bind fun child => child.nodeAt? path).map kind :=
    fun path => h (key :: path)
  cases hm : m.toBranch.get? key with
  | none =>
    cases hn : n.toBranch.get? key with
    | none => exact .none
    | some n' =>
      have := hkey []
      rw [hm, hn] at this
      cases this
  | some m' =>
    cases hn : n.toBranch.get? key with
    | none =>
      have := hkey []
      rw [hm, hn] at this
      cases this
    | some n' =>
      rw [hm, hn] at hkey
      exact .some hkey

end Node.Alike

/-- Nodes are alike if they are of one kind and their children are alike, key by key. -/
theorem Node.alike_iff {m n : Node} : m.Alike n ↔
    m.kind = n.kind ∧ ∀ key, Option.Rel Node.Alike (m.toBranch.get? key) (n.toBranch.get? key) := by
  refine ⟨fun h => ⟨h.kind_eq, h.get?⟩, fun ⟨hkind, hkeys⟩ path => ?_⟩
  cases path with
  | nil => exact congrArg some hkind
  | cons key path =>
    unfold Node.nodeAt?
    have hkey := hkeys key
    cases hm : m.toBranch.get? key with
    | none =>
      rw [hm] at hkey
      rw [rel_none_left hkey]
    | some m' =>
      rw [hm] at hkey
      obtain ⟨n', hn, halike⟩ := rel_some_left hkey
      rw [hn]
      exact halike path

/-- Branches are alike exactly if they are so at each key. -/
theorem Branch.alike_iff {b c : Branch} :
    b.Alike c ↔ ∀ key, Option.Rel Node.Alike (b.get? key) (c.get? key) :=
  Node.alike_iff.trans (and_iff_right rfl)

namespace Node.Alike

variable {m n : Node}

/-- Alike to a scalar is only that scalar. -/
theorem eq_scalar {s : Scalar} (h : (Node.scalar s).Alike n) : n = .scalar s := by
  have hkind := h.kind_eq
  cases n with
  | scalar t => cases hkind; rfl
  | wrapper w => cases hkind
  | branch b => cases hkind

theorem isMapping_eq (h : m.Alike n) : m.isMapping = n.isMapping := by
  have hkind := h.kind_eq
  cases m <;> cases n <;> first | rfl | cases hkind

theorem toBranch (h : m.Alike n) : m.toBranch.Alike n.toBranch :=
  Branch.alike_iff.mpr h.get?

end Node.Alike

/-- Whatever is found at a key is alike to itself. -/
theorem Node.Alike.rel_refl (o : Option Node) : Option.Rel Node.Alike o o := by
  cases o with
  | none => exact .none
  | some n => exact .some (.refl n)

/-- The keys of a branch are those that it has something at. -/
theorem Branch.mem_keys_iff {b : Branch} {key : String} : key ∈ b.keys ↔ b.has key = true := by
  have hnone : b.get? key = none ↔ key ∉ b.keys := Entries.find?_eq_none_iff
  unfold Branch.has
  cases hk : b.get? key with
  | none => simpa using hnone.mp hk
  | some n =>
    rw [hk] at hnone
    simpa using hnone

/-- Branches that are alike have the same keys. -/
theorem Branch.Alike.has_eq {b c : Branch} (h : b.Alike c) (key : String) : b.has key = c.has key := by
  have hkey := Branch.alike_iff.mp h key
  unfold Branch.has
  generalize b.get? key = o at hkey ⊢
  generalize c.get? key = p at hkey ⊢
  cases hkey <;> rfl

/-- If no key comes twice in them, they have the same keys in some order. -/
theorem Branch.Alike.keys_perm {b c : Branch} (hb : b.keys.Nodup) (hc : c.keys.Nodup)
    (h : b.Alike c) : b.keys.Perm c.keys := by
  refine (List.perm_ext_iff_of_nodup hb hc).mpr fun key => ?_
  rw [Branch.mem_keys_iff, Branch.mem_keys_iff, h.has_eq]

/-! ## Keys in another order -/

/-- Trees that differ only in the order of keys: entries of a branch or slots of a wrapper change
places, at any depth. -/
inductive Node.Reordered : Node → Node → Prop where
  | refl (n : Node) : Reordered n n
  | trans {l m n : Node} : Reordered l m → Reordered m n → Reordered l n
  | slots (w : Wrapper) {order : List Slot} : w.order.Perm order →
      Reordered (.wrapper w) (.wrapper { w with order })
  | entries {b c : Branch} : b.Perm c → Reordered (.branch b) (.branch c)
  | child (front back : Branch) (key : String) {m n : Node} : Reordered m n →
      Reordered (.branch (front ++ (key, m) :: back)) (.branch (front ++ (key, n) :: back))

/-- Replacing one node by one that is alike gives a branch that is alike. -/
theorem Branch.alike_of_child (back : Branch) (key : String) {m n : Node} (h : m.Alike n) :
    ∀ front : Branch, Branch.Alike (front ++ (key, m) :: back) (front ++ (key, n) :: back)
  | [] => by
    refine Branch.alike_iff.mpr fun k => ?_
    unfold Branch.get?
    by_cases hk : key = k
    · simpa [Entries.find?, hk] using Option.Rel.some h
    · simpa [Entries.find?, hk] using Node.Alike.rel_refl (Entries.find? k back)
  | (k', l) :: front => by
    refine Branch.alike_iff.mpr fun k => ?_
    have hrest := Branch.alike_iff.mp (Branch.alike_of_child back key h front) k
    unfold Branch.get? at hrest ⊢
    by_cases hk : k' = k
    · simpa [Entries.find?, hk] using Node.Alike.rel_refl (some l)
    · simpa [Entries.find?, hk] using hrest

/-- Key order is all that is lost: reordering keeps a tree well formed and alike. -/
theorem Node.Reordered.alike {m n : Node} (h : m.Reordered n) :
    m.WellFormed → n.WellFormed ∧ m.Alike n := by
  induction h with
  | refl n => exact fun hn => ⟨hn, .refl n⟩
  | trans _ _ ih ih' =>
    intro hl
    obtain ⟨hm, hlm⟩ := ih hl
    obtain ⟨hn, hmn⟩ := ih' hm
    exact ⟨hn, hlm.trans hmn⟩
  | @slots w order hperm =>
    intro hw
    refine ⟨hperm.symm.trans hw, Node.alike_iff.mpr ⟨rfl, fun key => ?_⟩⟩
    have hentries : w.toBranch.Perm (Wrapper.toBranch { w with order }) := hperm.map _
    have hsame := Entries.find?_eq_of_perm hentries (Wrapper.nodup_keys_toBranch hw) key
    change Option.Rel _ (Entries.find? key w.toBranch) (Entries.find? key _)
    rw [hsame]
    exact Node.Alike.rel_refl _
  | @entries b c hperm =>
    intro hb
    refine ⟨Branch.WellFormed.perm hb hperm, Branch.alike_iff.mpr fun key => ?_⟩
    unfold Branch.get?
    rw [Entries.find?_eq_of_perm hperm hb.1 key]
    exact Node.Alike.rel_refl _
  | @child front back key m n _ ih =>
    intro hb
    have hmem : ∀ {e : String × Node}, e ∈ front ++ (key, m) :: back → e.2.WellFormed :=
      Branch.WellFormed.node hb
    obtain ⟨hn, hmn⟩ := ih (hmem (by simp : (key, m) ∈ _))
    refine ⟨⟨?_, Branch.nodesWellFormed_iff.mpr fun e he => ?_⟩, Branch.alike_of_child back key hmn front⟩
    · simpa [Branch.keys] using hb.1
    · simp only [List.mem_append, List.mem_cons] at he
      rcases he with he | rfl | he
      · exact hmem (by simp [he])
      · exact hn
      · exact hmem (by simp [he])

/-! ## The shape of a wrapper -/

/-- What may stand in a slot: a scalar for a value, a text or null elsewhere. -/
def Slot.Admits : Slot → Scalar → Prop
  | .value, _ => True
  | _, s => s = .null ∨ ∃ t, s = .text t

/-- A branch has the shape of a wrapper: exactly the keys of the three slots, each with what may stand
in its slot. -/
def Branch.WrapperShaped (b : Branch) : Prop :=
  b.keys.Perm (Slot.all.map Slot.key) ∧ ∀ s : Slot, ∃ v, b.get? s.key = some (.scalar v) ∧ s.Admits v

theorem Slot.ofKey?_key (s : Slot) : Slot.ofKey? s.key = some s := by
  cases s <;> decide

/-- Keys of slots are read back as slots. -/
theorem Slot.exists_mapM_ofKey? {keys : List String} (h : ∀ key ∈ keys, ∃ s : Slot, s.key = key) :
    ∃ order, keys.mapM Slot.ofKey? = some order := by
  induction keys with
  | nil => exact ⟨[], rfl⟩
  | cons key keys ih =>
    rw [List.forall_mem_cons] at h
    obtain ⟨⟨s, rfl⟩, hrest⟩ := h
    obtain ⟨order, horder⟩ := ih hrest
    exact ⟨s :: order, by simp [List.mapM_cons, Slot.ofKey?_key, horder]⟩

/-- What may stand in the slot of a text can be read as one. -/
theorem Node.exists_slotText? {s : Scalar} (h : s = .null ∨ ∃ t, s = .text t) :
    ∃ o, (Node.scalar s).slotText? = some o := by
  rcases h with rfl | ⟨t, rfl⟩
  · exact ⟨none, rfl⟩
  · exact ⟨some t, rfl⟩

/-- The branches that are classified as wrappers are those of their shape. -/
theorem Branch.wrapperShaped_iff {b : Branch} :
    b.WrapperShaped ↔ ∃ w, Wrapper.ofBranch? b = some w := by
  constructor
  · rintro ⟨hkeys, hslots⟩
    have hlen : b.length = 3 := by
      have := hkeys.length_eq
      simpa [Branch.keys, Slot.all] using this
    obtain ⟨order, horder⟩ := Slot.exists_mapM_ofKey? fun key hkey => by
      obtain ⟨s, _, hs⟩ := List.mem_map.mp (hkeys.mem_iff.mp hkey)
      exact ⟨s, hs⟩
    obtain ⟨ty, hty, htext⟩ := hslots .objectType
    obtain ⟨ex, hex, hexText⟩ := hslots .expression
    obtain ⟨v, hv, _⟩ := hslots .value
    obtain ⟨objectType, hobjectType⟩ := Node.exists_slotText? htext
    obtain ⟨expression, hexpression⟩ := Node.exists_slotText? hexText
    refine ⟨⟨objectType, expression, v, order⟩, ?_⟩
    change b.get? Key.objectType = _ at hty
    change b.get? Key.expression = _ at hex
    change b.get? Key.value = _ at hv
    unfold Wrapper.ofBranch?
    rw [guard, if_pos hlen, hty, hex, hv, horder]
    simp [hobjectType, hexpression, Node.scalar?]
  · rintro ⟨w, hw⟩
    obtain ⟨_, hkeys, hslots⟩ := Wrapper.ofBranch?_eq_some hw
    refine ⟨hkeys ▸ (Wrapper.order_perm_of_ofBranch? hw).map Slot.key, fun s => ⟨_, hslots s, ?_⟩⟩
    have htext : ∀ o : Option String, o.elim Scalar.null .text = .null ∨
        ∃ t, o.elim Scalar.null .text = .text t := by
      intro o
      cases o with
      | none => exact .inl rfl
      | some t => exact .inr ⟨t, rfl⟩
    cases s with
    | objectType => exact htext w.objectType
    | expression => exact htext w.expression
    | value => trivial

/-- Entries in the shape of a wrapper are classified as one. -/
theorem Node.kind_ofBranch_of_shaped {b : Branch} (h : b.WrapperShaped) :
    (Node.ofBranch b).kind = .wrapper := by
  obtain ⟨w, hw⟩ := Branch.wrapperShaped_iff.mp h
  rw [Node.ofBranch, hw]
  rfl

/-- All other entries are left as they are. -/
theorem Node.ofBranch_of_not_shaped {b : Branch} (h : ¬ b.WrapperShaped) :
    Node.ofBranch b = .branch b := by
  have hnone : Wrapper.ofBranch? b = none := by
    rw [Option.eq_none_iff_forall_ne_some]
    exact fun w hw => h (Branch.wrapperShaped_iff.mpr ⟨w, hw⟩)
  rw [Node.ofBranch, hnone]

/-- Having the shape of a wrapper does not depend on the order of keys. -/
theorem Branch.Alike.wrapperShaped {b c : Branch} (hb : b.keys.Nodup) (hc : c.keys.Nodup)
    (h : b.Alike c) (hshape : b.WrapperShaped) : c.WrapperShaped := by
  refine ⟨(h.keys_perm hb hc).symm.trans hshape.1, fun s => ?_⟩
  obtain ⟨v, hv, hadmits⟩ := hshape.2 s
  have hkey := Branch.alike_iff.mp h s.key
  rw [hv] at hkey
  obtain ⟨n, hn, halike⟩ := rel_some_left hkey
  exact ⟨v, by rw [hn, halike.eq_scalar], hadmits⟩

/-- Mappings that are alike are classified alike. -/
theorem Branch.Alike.ofBranch {b c : Branch} (hb : b.keys.Nodup) (hc : c.keys.Nodup)
    (h : b.Alike c) : (Node.ofBranch b).Alike (Node.ofBranch c) := by
  refine Node.alike_iff.mpr ⟨?_, fun key => ?_⟩
  · by_cases hshape : b.WrapperShaped
    · rw [Node.kind_ofBranch_of_shaped hshape,
        Node.kind_ofBranch_of_shaped (h.wrapperShaped hb hc hshape)]
    · have hshape' : ¬ c.WrapperShaped := fun hs =>
        hshape (Branch.Alike.wrapperShaped hc hb (Node.Alike.symm h) hs)
      rw [Node.ofBranch_of_not_shaped hshape, Node.ofBranch_of_not_shaped hshape']
      rfl
  · rw [Node.toBranch_ofBranch, Node.toBranch_ofBranch]
    exact Branch.alike_iff.mp h key

/-! ## What overlays keep -/

section

variable {covers : String → Node → Prop} {op : Branch → Branch → Branch}

/-- What holds of the nodes of both layers holds of the nodes of an overlay, if it is passed on to
children and holds of a mapping that was put together from such nodes. -/
theorem IsOverlay.forall_nodes {p : Node → Prop} (h : IsOverlay covers op)
    (hnd : ∀ {b e : Branch}, b.keys.Nodup → (op b e).keys.Nodup)
    (hbelow : ∀ n : Node, p n → n.toBranch.keys.Nodup ∧ ∀ d ∈ n.toBranch, p d.2)
    (hofBranch : ∀ b : Branch, b.keys.Nodup → (∀ d ∈ b, p d.2) → p (.ofBranch b))
    {b e : Branch} (hb : b.keys.Nodup) (hbase : ∀ d ∈ b, p d.2) (he : e.keys.Nodup)
    (hlayer : ∀ d ∈ e, p d.2) : ∀ d ∈ op b e, p d.2 := by
  have nodes : ∀ n : Node, n.toBranch.keys.Nodup → (∀ d ∈ n.toBranch, p d.2) → ∀ b : Branch,
      b.keys.Nodup → (∀ d ∈ b, p d.2) → ∀ d ∈ op b n.toBranch, p d.2 := by
    intro n
    induction n using Node.inductionOnChildren with
    | step n ih =>
      intro hn hchildren b hb hbase d hd
      have hget : (op b n.toBranch).get? d.1 = some d.2 :=
        (Entries.find?_eq_some_iff_mem (hnd hb)).mpr hd
      cases hm : n.toBranch.get? d.1 with
      | none =>
        rw [h.get?_absent hn hm] at hget
        exact hbase d (Entries.mem_of_find? hget)
      | some m =>
        have hpm : p m := hchildren (d.1, m) (Entries.mem_of_find? hm)
        by_cases hstands : covers d.1 m ∨ ∀ old, b.get? d.1 = some old → old.isMapping = false
        · rw [h.get?_stands hn hm hstands] at hget
          exact Option.some.inj hget ▸ hpm
        · obtain ⟨hnot, hold⟩ := not_or.mp hstands
          obtain ⟨old, hold, hmap⟩ : ∃ old, b.get? d.1 = some old ∧ old.isMapping = true := by
            simpa using hold
          rw [h.get?_laid hn hm hnot hold hmap] at hget
          obtain ⟨holdNodup, holdNodes⟩ := hbelow old (hbase (d.1, old) (Entries.mem_of_find? hold))
          obtain ⟨hmNodup, hmNodes⟩ := hbelow m hpm
          have hlaid := ih (d.1, m) (Entries.mem_of_find? hm) hmNodup hmNodes old.toBranch holdNodup
            holdNodes
          exact Option.some.inj hget ▸ hofBranch _ (hnd holdNodup) hlaid
  exact nodes (.branch e) he hlayer b hb hbase

/-- Overlaying well-formed branches gives a well-formed one, if it makes no key come twice. -/
theorem IsOverlay.wellFormed (h : IsOverlay covers op)
    (hnd : ∀ {b e : Branch}, b.keys.Nodup → (op b e).keys.Nodup) {b e : Branch} (hb : b.WellFormed)
    (he : e.WellFormed) : (op b e).WellFormed :=
  ⟨hnd hb.1, Branch.nodesWellFormed_iff.mpr (h.forall_nodes hnd
    (fun _ hn => ⟨hn.toBranch.1, fun _ => hn.toBranch.node⟩)
    (fun _ hb hnodes => Branch.WellFormed.ofBranch ⟨hb, Branch.nodesWellFormed_iff.mpr hnodes⟩)
    hb.1 (fun _ => hb.node) he.1 (fun _ => he.node))⟩

end

/-! ## Overlays of alike layers -/

section

variable {covers : String → Node → Prop} {op : Branch → Branch → Branch}

/-- One key of an overlay: alike entries laid over alike entries are alike, if that holds of what they
are made of one level below. -/
theorem IsOverlay.rel_of_children (h : IsOverlay covers op)
    (hwf : ∀ {b e : Branch}, b.WellFormed → e.WellFormed → (op b e).WellFormed)
    (hcovers : ∀ {key : String} {m n : Node}, m.Alike n → covers key m → covers key n)
    {b c e f : Branch} {key : String} (hb : b.WellFormed) (hc : c.WellFormed) (he : e.WellFormed)
    (hf : f.WellFormed) (hbase : Option.Rel Node.Alike (b.get? key) (c.get? key))
    (hlayer : Option.Rel Node.Alike (e.get? key) (f.get? key))
    (hchildren : ∀ m n, e.get? key = some m → f.get? key = some n → ∀ b c : Branch, b.WellFormed →
      c.WellFormed → b.Alike c → (op b m.toBranch).Alike (op c n.toBranch)) :
    Option.Rel Node.Alike ((op b e).get? key) ((op c f).get? key) := by
  cases hm : e.get? key with
  | none =>
    rw [hm] at hlayer
    rw [h.get?_absent he.1 hm, h.get?_absent hf.1 (rel_none_left hlayer)]
    exact hbase
  | some m =>
    rw [hm] at hlayer
    obtain ⟨n, hn, hmn⟩ := rel_some_left hlayer
    -- whether an entry stands is the same question on both sides
    by_cases hstands : covers key m ∨ ∀ old, b.get? key = some old → old.isMapping = false
    · have hstands' : covers key n ∨ ∀ old, c.get? key = some old → old.isMapping = false := by
        refine hstands.imp (hcovers hmn) fun hold old' hold' => ?_
        rw [hold'] at hbase
        obtain ⟨old, hb, halike⟩ := rel_some_right hbase
        rw [← halike.isMapping_eq, hold old hb]
      rw [h.get?_stands he.1 hm hstands, h.get?_stands hf.1 hn hstands']
      exact .some hmn
    · obtain ⟨hnot, hold⟩ := not_or.mp hstands
      obtain ⟨old, hold, hmap⟩ : ∃ old, b.get? key = some old ∧ old.isMapping = true := by
        simpa using hold
      rw [hold] at hbase
      obtain ⟨old', hold', halike⟩ := rel_some_left hbase
      have hmap' : old'.isMapping = true := by rw [← halike.isMapping_eq, hmap]
      have hnot' : ¬ covers key n := fun hcov => hnot (hcovers hmn.symm hcov)
      have hob := (hb.get? hold).toBranch
      have hoc := (hc.get? hold').toBranch
      have hlaid := hchildren m n hm hn _ _ hob hoc halike.toBranch
      rw [h.get?_laid he.1 hm hnot hold hmap, h.get?_laid hf.1 hn hnot' hold' hmap']
      exact .some (hlaid.ofBranch (hwf hob (he.get? hm).toBranch).1
        (hwf hoc (hf.get? hn).toBranch).1)

/-- Alike layers over alike branches give alike branches. -/
theorem IsOverlay.alike (h : IsOverlay covers op)
    (hwf : ∀ {b e : Branch}, b.WellFormed → e.WellFormed → (op b e).WellFormed)
    (hcovers : ∀ {key : String} {m n : Node}, m.Alike n → covers key m → covers key n)
    {b c e f : Branch} (hb : b.WellFormed) (hc : c.WellFormed) (he : e.WellFormed) (hf : f.WellFormed)
    (hbc : b.Alike c) (hef : e.Alike f) : (op b e).Alike (op c f) := by
  have nodes : ∀ m n : Node, m.WellFormed → n.WellFormed → m.Alike n → ∀ b c : Branch, b.WellFormed →
      c.WellFormed → b.Alike c → (op b m.toBranch).Alike (op c n.toBranch) := by
    intro m
    induction m using Node.inductionOnChildren with
    | step m ih =>
      intro n hm hn hmn b c hb hc hbc
      refine Branch.alike_iff.mpr fun key => ?_
      refine h.rel_of_children hwf hcovers hb hc hm.toBranch hn.toBranch
        (Branch.alike_iff.mp hbc key) (hmn.get? key) fun m' n' hm' hn' => ?_
      refine ih (key, m') (Entries.mem_of_find? hm') n' (hm.toBranch.get? hm')
        (hn.toBranch.get? hn') ?_
      have hchild := hmn.get? key
      rw [hm', hn'] at hchild
      cases hchild
      assumption
  exact nodes (.branch e) (.branch f) he hf hef b c hb hc hbc

/-- At each key an overlay depends on what its layers have there, up to key order. -/
theorem IsOverlay.rel_get? (h : IsOverlay covers op)
    (hwf : ∀ {b e : Branch}, b.WellFormed → e.WellFormed → (op b e).WellFormed)
    (hcovers : ∀ {key : String} {m n : Node}, m.Alike n → covers key m → covers key n)
    {b c e f : Branch} {key : String} (hb : b.WellFormed) (hc : c.WellFormed) (he : e.WellFormed)
    (hf : f.WellFormed) (hbase : Option.Rel Node.Alike (b.get? key) (c.get? key))
    (hlayer : Option.Rel Node.Alike (e.get? key) (f.get? key)) :
    Option.Rel Node.Alike ((op b e).get? key) ((op c f).get? key) := by
  refine h.rel_of_children hwf hcovers hb hc he hf hbase hlayer fun m n hm hn b c hb hc hbc => ?_
  rw [hm, hn] at hlayer
  cases hlayer with
  | some hmn => exact h.alike hwf hcovers hb hc (he.get? hm).toBranch (hf.get? hn).toBranch hbc hmn.toBranch

end

/-! ## Sorted trees -/

/-- The text of a slot, or that it has none, can be told from what the slot shows. -/
theorem Wrapper.slotText_injective {o p : Option String}
    (h : o.elim Scalar.null .text = p.elim .null .text) : o = p := by
  cases o <;> cases p <;> simp_all

/-- Wrappers with the same slots, in whatever order, are sorted into one. -/
theorem Wrapper.sortKeys_eq {v w : Wrapper} (hv : v.order.Perm Slot.all) (hw : w.order.Perm Slot.all)
    (h : ∀ s, v.slot s = w.slot s) : v.sortKeys = w.sortKeys := by
  have horder : v.sortKeys.order = w.sortKeys.order :=
    Text.sort_natural_eq_of_perm Slot.key (hv.trans hw.symm) fun _ _ _ _ hst => Slot.key_injective hst
  cases v
  cases w
  simp only [Wrapper.sortKeys, Wrapper.mk.injEq] at horder ⊢
  exact ⟨slotText_injective (h .objectType), slotText_injective (h .expression), h .value, horder⟩

/-- A wrapper shows each of its slots at its key. -/
theorem Wrapper.get?_toBranch {w : Wrapper} (hw : w.order.Perm Slot.all) (s : Slot) :
    w.toBranch.get? s.key = some (.scalar (w.slot s)) := by
  refine (Entries.find?_eq_some_iff_mem (Wrapper.nodup_keys_toBranch hw)).mpr ?_
  have hs : s ∈ w.order := hw.mem_iff.mpr (by cases s <;> decide)
  exact List.mem_map_of_mem (f := fun s => (s.key, Node.scalar (w.slot s))) hs

/-- Entries with the same keys, none of them twice, are sorted into one list if the same is found in
them. -/
theorem Branch.sortEntries_eq {b c : Branch} (hb : b.keys.Nodup) (hc : c.keys.Nodup)
    (h : ∀ key, b.get? key = c.get? key) : b.sortEntries = c.sortEntries := by
  have hmem : ∀ {d : Branch}, d.keys.Nodup → ∀ e : String × Node, e ∈ d ↔ d.get? e.1 = some e.2 :=
    fun hd e => (Entries.find?_eq_some_iff_mem hd).symm
  have hnd : ∀ {d : Branch}, d.keys.Nodup → d.Nodup := fun hd =>
    List.Pairwise.of_map Prod.fst (fun _ _ hne heq => hne (congrArg Prod.fst heq)) hd
  have hperm : b.Perm c := by
    refine (List.perm_ext_iff_of_nodup (hnd hb) (hnd hc)).mpr fun e => ?_
    rw [hmem hb, hmem hc, h]
  refine Text.sort_natural_eq_of_perm Prod.fst hperm fun d hd e he hkey => ?_
  have hvalue : some d.2 = some e.2 := by
    rw [← (hmem hb d).mp hd, ← (hmem hb e).mp he, hkey]
  exact Prod.ext hkey (Option.some.inj hvalue)

/-- **Alike trees have one sorted form.** -/
theorem Node.Alike.sortKeys_eq {m n : Node} (hm : m.WellFormed) (hn : n.WellFormed) (h : m.Alike n) :
    m.sortKeys = n.sortKeys := by
  induction m using Node.inductionOnChildren generalizing n with
  | step m ih =>
    have hkind := h.kind_eq
    cases m with
    | scalar s => rw [h.eq_scalar]
    | wrapper v =>
      cases n with
      | scalar s => cases hkind
      | branch c => cases hkind
      | wrapper w =>
        rw [Node.sortKeys, Node.sortKeys]
        refine congrArg _ (Wrapper.sortKeys_eq hm hn fun s => ?_)
        have hkey := h.get? s.key
        simp only [Node.toBranch, Wrapper.get?_toBranch hm, Wrapper.get?_toBranch hn] at hkey
        cases hkey with
        | some halike => exact (Node.scalar.inj halike.eq_scalar).symm
    | branch b =>
      cases n with
      | scalar s => cases hkind
      | wrapper w => cases hkind
      | branch c =>
        rw [Node.sortKeys, Node.sortKeys]
        have hnd : ∀ {d : Branch}, d.keys.Nodup → d.sortChildren.keys.Nodup := fun hd =>
          (Branch.keys_sortChildren _).symm ▸ hd
        refine congrArg _ (Branch.sortEntries_eq (hnd hm.1) (hnd hn.1) fun key => ?_)
        rw [Branch.get?_sortChildren, Branch.get?_sortChildren]
        have hkey := h.get? key
        change Option.Rel _ (Branch.get? b key) (Branch.get? c key) at hkey
        cases hb : Branch.get? b key with
        | none =>
          rw [hb] at hkey
          rw [rel_none_left hkey]
        | some m =>
          rw [hb] at hkey
          obtain ⟨n, hc, halike⟩ := rel_some_left hkey
          have hchild := ih (key, m) (Entries.mem_of_find? hb) (hm.toBranch.get? hb)
            (hn.toBranch.get? hc) halike
          rw [hc]
          exact congrArg some hchild

/-- Well-formed branches that are alike are sorted into one. -/
theorem Branch.Alike.sortKeys_eq {b c : Branch} (hb : b.WellFormed) (hc : c.WellFormed)
    (h : b.Alike c) : b.sortKeys = c.sortKeys := by
  have hsorted := Node.Alike.sortKeys_eq (m := .branch b) (n := .branch c) hb hc h
  rw [Node.sortKeys, Node.sortKeys] at hsorted
  exact Node.branch.inj hsorted

/-- The keys of a sorted mapping, a wrapper's included, increase strictly. -/
theorem Node.pairwise_keys_sortKeys {n : Node} (hn : n.WellFormed) :
    n.sortKeys.toBranch.keys.Pairwise fun a b => Text.naturalOrder a b = .lt := by
  cases n with
  | scalar s =>
    rw [Node.sortKeys]
    exact .nil
  | wrapper w =>
    rw [Node.sortKeys, Node.toBranch, Wrapper.keys_toBranch]
    have hnd : (w.order.map Slot.key).Nodup := w.keys_toBranch ▸ Wrapper.nodup_keys_toBranch hn
    exact Text.pairwise_lt_sort_natural Slot.key hnd
  | branch b =>
    rw [Node.sortKeys]
    have hnd : (Branch.sortChildren b).keys.Nodup := (Branch.keys_sortChildren b).symm ▸ hn.1
    exact Text.pairwise_lt_sort_natural Prod.fst hnd

/-! ## Alike trees differ in key order alone -/

/-- What was reordered can be put back into its order. -/
theorem Node.Reordered.symm {m n : Node} (h : m.Reordered n) : n.Reordered m := by
  induction h with
  | refl n => exact .refl n
  | trans _ _ ih ih' => exact ih'.trans ih
  | @slots w order hperm => exact .slots { w with order } hperm.symm
  | entries hperm => exact .entries hperm.symm
  | child front back key _ ih => exact .child front back key ih

/-- Entries reordered one after the other, each in its place. -/
theorem Branch.reordered_of_nodes {f : Node → Node} : ∀ (front b : Branch),
    (∀ e ∈ b, e.2.Reordered (f e.2)) →
      (Node.branch (front ++ b)).Reordered (.branch (front ++ b.map fun e => (e.1, f e.2)))
  | front, [], _ => by
    rw [List.map_nil]
    exact .refl _
  | front, (key, n) :: rest, h => by
    rw [List.forall_mem_cons] at h
    have hrest := Branch.reordered_of_nodes (front ++ [(key, f n)]) rest h.2
    rw [List.append_assoc, List.append_assoc] at hrest
    exact (Node.Reordered.child front rest key h.1).trans hrest

/-- Sorting reorders and does nothing else. -/
theorem Node.reordered_sortKeys (n : Node) : n.Reordered n.sortKeys := by
  induction n using Node.inductionOnChildren with
  | step n ih =>
    cases n with
    | scalar s =>
      rw [Node.sortKeys]
      exact .refl _
    | wrapper w =>
      rw [Node.sortKeys]
      exact .slots w (Order.sort_perm _ w.order).symm
    | branch b =>
      have hchildren := Branch.reordered_of_nodes [] b ih
      rw [Node.sortKeys, Branch.sortChildren_eq_map]
      exact hchildren.trans (.entries (Branch.sortEntries_perm _).symm)

/-- Alike trees differ in the order of keys and in nothing else: sorted, they are one tree. -/
theorem Node.Alike.reordered {m n : Node} (hm : m.WellFormed) (hn : n.WellFormed) (h : m.Alike n) :
    m.Reordered n := by
  have hsorted := m.reordered_sortKeys
  rw [h.sortKeys_eq hm hn] at hsorted
  exact hsorted.trans n.reordered_sortKeys.symm

end FusionInspect
