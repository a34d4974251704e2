import FusionInspect.Proofs.Tree.WellFormed

/-!
# Laying branches over each other

Two operations build a branch from many: definitions are merged along a prototype chain, and the
declarations of files are absorbed into the object tree. Both lay entries over a branch. An entry that
COVERS replaces what stood at its key; any other mapping is laid over a mapping in turn. They differ
in what covers, so the law is stated once, for whatever covers.

The law reads a tree by paths (`Branch.nodeAt?`), wrappers as the three entries they hold. A branch
TOUCHES a path when it has a node there, or when it has something covering on the way there; then what
lay below is out of reach. So the last layer that touches a path decides what stands there
(`IsOverlay.nodeAt?_foldl`).

An overlay keeps no count of layers: the law for many follows from the law for one by induction on the
layers, and the law for one by induction on the path.
-/

namespace FusionInspect

/-! ## Nodes at paths -/

/-- The node at a path below a node. Wrappers are read as the mappings they are. -/
def Node.nodeAt? (n : Node) : List String → Option Node
  | [] => some n
  | key :: path => (n.toBranch.get? key).bind fun child => child.nodeAt? path

namespace Branch

/-- The node at a path of a branch. The empty path leads to the branch itself. -/
def nodeAt? (b : Branch) (path : List String) : Option Node :=
  (Node.branch b).nodeAt? path

@[simp]
theorem nodeAt?_nil (b : Branch) : b.nodeAt? [] = some (.branch b) := rfl

theorem nodeAt?_cons (b : Branch) (key : String) (path : List String) :
    b.nodeAt? (key :: path) = (b.get? key).bind fun child => child.nodeAt? path := rfl

/-- A path leads to a node exactly if its first key leads to one from which the rest does. -/
theorem nodeAt?_cons_eq_some {b : Branch} {key : String} {path : List String} {n : Node} :
    b.nodeAt? (key :: path) = some n ↔ ∃ m, b.get? key = some m ∧ m.nodeAt? path = some n :=
  Option.bind_eq_some_iff

end Branch

theorem Node.nodeAt?_cons (n : Node) (key : String) (path : List String) :
    n.nodeAt? (key :: path) = n.toBranch.nodeAt? (key :: path) := rfl

theorem Node.nodeAt?_singleton (n : Node) (key : String) : n.nodeAt? [key] = n.toBranch.get? key :=
  Option.bind_fun_some _

/-- Below a node that is no mapping there is nothing. -/
theorem Node.nodeAt?_of_not_isMapping {n : Node} (h : n.isMapping = false) (key : String)
    (path : List String) : n.nodeAt? (key :: path) = none := by
  cases n with
  | scalar s => rfl
  | wrapper w => cases h
  | branch b => cases h

/-- Every path into a well-formed node leads to a well-formed node. -/
theorem Node.WellFormed.nodeAt? : ∀ {path : List String} {n m : Node}, n.WellFormed →
    n.nodeAt? path = some m → m.WellFormed
  | [], _, _, hn, h => by
    cases h
    exact hn
  | _ :: _, _, _, hn, h => by
    obtain ⟨child, hchild, hrest⟩ := Option.bind_eq_some_iff.mp h
    exact (hn.toBranch.get? hchild).nodeAt? hrest

/-! ## What a branch touches -/

/-- A branch touches a path when it has a node there, or a covering node at a proper part of the path
that is not empty. -/
def Branch.Touches (covers : String → Node → Prop) (b : Branch) (path : List String) : Prop :=
  (b.nodeAt? path).isSome ∨
    ∃ front key back n, path = front ++ key :: back ∧ back ≠ [] ∧
      b.nodeAt? (front ++ [key]) = some n ∧ covers key n

section

variable {covers : String → Node → Prop}

theorem Branch.touches_of_nodeAt? {b : Branch} {path : List String} {n : Node}
    (h : b.nodeAt? path = some n) : b.Touches covers path :=
  .inl (by rw [h]; rfl)

theorem Branch.touches_nil (b : Branch) : b.Touches covers [] :=
  Branch.touches_of_nodeAt? b.nodeAt?_nil

/-- One step of a path: what stands at its first key covers, or touches the rest. -/
theorem Branch.touches_cons {b : Branch} {key : String} {path : List String} :
    b.Touches covers (key :: path) ↔
      ∃ n, b.get? key = some n ∧ (covers key n ∨ n.toBranch.Touches covers path) := by
  constructor
  · rintro (hsome | ⟨front, k, back, n, hpath, hback, hn, hcovers⟩)
    · obtain ⟨n, hn⟩ := Option.isSome_iff_exists.mp hsome
      obtain ⟨m, hm, hmn⟩ := Option.bind_eq_some_iff.mp hn
      refine ⟨m, hm, .inr ?_⟩
      cases path with
      | nil => exact m.toBranch.touches_nil
      | cons k rest => exact Branch.touches_of_nodeAt? (b := m.toBranch) (n := n) hmn
    · cases front with
      | nil =>
        obtain ⟨rfl, rfl⟩ := List.cons.inj hpath
        obtain ⟨m, hm, hmn⟩ := Option.bind_eq_some_iff.mp hn
        cases hmn
        exact ⟨n, hm, .inl hcovers⟩
      | cons k' front =>
        obtain ⟨rfl, rfl⟩ := List.cons.inj hpath
        obtain ⟨m, hm, hmn⟩ := Option.bind_eq_some_iff.mp hn
        refine ⟨m, hm, .inr (.inr ⟨front, k, back, n, rfl, hback, ?_, hcovers⟩)⟩
        cases front with
        | nil => exact hmn
        | cons _ _ => exact hmn
  · rintro ⟨m, hm, hcovers | hsome | ⟨front, k, back, n, rfl, hback, hn, hcovers⟩⟩
    · have hat : b.nodeAt? [key] = some m := by rw [Branch.nodeAt?_cons, hm]; rfl
      cases path with
      | nil => exact Branch.touches_of_nodeAt? hat
      | cons k rest => exact .inr ⟨[], key, k :: rest, m, rfl, by simp, hat, hcovers⟩
    · refine .inl ?_
      rw [Branch.nodeAt?_cons, hm]
      cases path with
      | nil => rfl
      | cons k rest => exact hsome
    · refine .inr ⟨key :: front, k, back, n, rfl, hback, ?_, hcovers⟩
      rw [List.cons_append, Branch.nodeAt?_cons, hm]
      cases front with
      | nil => exact hn
      | cons _ _ => exact hn

/-- Some layer touches the path, and the LAST one that does has this node there. -/
def LastAt (covers : String → Node → Prop) (layers : List Branch) (path : List String) (n : Node) :
    Prop :=
  ∃ earlier layer later, layers = earlier ++ layer :: later ∧ layer.Touches covers path ∧
    layer.nodeAt? path = some n ∧ ∀ l ∈ later, ¬ l.Touches covers path

theorem not_lastAt_nil {path : List String} {n : Node} : ¬ LastAt covers [] path n := by
  rintro ⟨earlier, layer, later, h, _⟩
  exact absurd h.symm (by simp)

/-- What a first layer has at a path is last if no later one touches the path. -/
theorem lastAt_cons {layer : Branch} {layers : List Branch} {path : List String} {n : Node} :
    LastAt covers (layer :: layers) path n ↔
      LastAt covers layers path n ∨
        layer.nodeAt? path = some n ∧ ∀ l ∈ layers, ¬ l.Touches covers path := by
  constructor
  · rintro ⟨earlier, l, later, heq, htouch, hn, hlater⟩
    cases earlier with
    | nil =>
      obtain ⟨rfl, rfl⟩ := List.cons.inj heq
      exact .inr ⟨hn, hlater⟩
    | cons _ earlier =>
      obtain ⟨rfl, rfl⟩ := List.cons.inj heq
      exact .inl ⟨earlier, l, later, rfl, htouch, hn, hlater⟩
  · rintro (⟨earlier, l, later, rfl, htouch, hn, hlater⟩ | ⟨hn, hlater⟩)
    · exact ⟨layer :: earlier, l, later, rfl, htouch, hn, hlater⟩
    · exact ⟨[], layer, layers, rfl, Branch.touches_of_nodeAt? hn, hn, hlater⟩

end

/-! ## Overlays -/

/-- An operation that lays the entries of a branch over another one. An entry stands if it covers or
if no mapping is below it; any other is laid over the mapping below. -/
structure IsOverlay (covers : String → Node → Prop) (op : Branch → Branch → Branch) : Prop where
  covers_scalar : ∀ key s, covers key (.scalar s)
  get?_absent : ∀ {b e key}, e.keys.Nodup → e.get? key = none → (op b e).get? key = b.get? key
  get?_stands : ∀ {b e key n}, e.keys.Nodup → e.get? key = some n →
    covers key n ∨ (∀ old, b.get? key = some old → old.isMapping = false) →
    (op b e).get? key = some n
  get?_laid : ∀ {b e key n old}, e.keys.Nodup → e.get? key = some n → ¬ covers key n →
    b.get? key = some old → old.isMapping = true →
    (op b e).get? key = some (.ofBranch (op old.toBranch n.toBranch))

namespace IsOverlay

variable {covers : String → Node → Prop} {op : Branch → Branch → Branch}

/-- A path that is not touched keeps its node. -/
theorem nodeAt?_untouched (h : IsOverlay covers op) : ∀ {path : List String} {b e : Branch},
    e.WellFormed → ¬ e.Touches covers path → (op b e).nodeAt? path = b.nodeAt? path
  | [], _, e, _, htouch => absurd e.touches_nil htouch
  | key :: path, b, e, he, htouch => by
    rw [Branch.touches_cons] at htouch
    rw [Branch.nodeAt?_cons, Branch.nodeAt?_cons]
    cases hk : e.get? key with
    | none => rw [h.get?_absent he.1 hk]
    | some n =>
      have hcovers : ¬ covers key n := fun hc => htouch ⟨n, hk, .inl hc⟩
      have hrest : ¬ n.toBranch.Touches covers path := fun ht => htouch ⟨n, hk, .inr ht⟩
      have hpath : path ≠ [] := fun hp => hrest (hp ▸ n.toBranch.touches_nil)
      obtain ⟨key', path', rfl⟩ := List.exists_cons_of_ne_nil hpath
      -- `n` has nothing at the rest of the path, for otherwise it would touch it
      have hnone : n.nodeAt? (key' :: path') = none := by
        cases hn : n.nodeAt? (key' :: path') with
        | none => rfl
        | some m =>
          rw [Node.nodeAt?_cons] at hn
          exact absurd (Branch.touches_of_nodeAt? hn) hrest
      cases hold : b.get? key with
      | none =>
        rw [h.get?_stands he.1 hk (.inr fun old ho => by rw [hold] at ho; cases ho)]
        simp [hnone]
      | some old =>
        cases hmap : old.isMapping with
        | false =>
          rw [h.get?_stands he.1 hk (.inr fun old' ho => by
            rw [hold] at ho
            cases ho
            exact hmap)]
          simp [hnone, Node.nodeAt?_of_not_isMapping hmap]
        | true =>
          rw [h.get?_laid he.1 hk hcovers hold hmap]
          simp only [Option.bind_some, Node.nodeAt?_cons, Node.toBranch_ofBranch]
          exact h.nodeAt?_untouched (he.get? hk).toBranch hrest

/-- A node is FIXED at a path when no overlay can merge anything into it there: it is a scalar, or
the last key of the path covers whatever stands under it. -/
def Fixed (covers : String → Node → Prop) (path : List String) (n : Node) : Prop :=
  (∃ s, n = .scalar s) ∨ ∃ front key, path = front ++ [key] ∧ ∀ m, covers key m

/-- The empty path leads to a branch, into which things can be merged. -/
theorem Fixed.not_nodeAt?_nil {n : Node} (hn : Fixed covers [] n) (b : Branch) :
    b.nodeAt? [] ≠ some n := by
  rcases hn with ⟨s, rfl⟩ | ⟨front, key, heq, _⟩
  · exact fun h => by cases h
  · exact absurd heq (by simp)

/-- What is fixed at a path is fixed at the rest of it, seen from one level below. -/
theorem Fixed.tail {key : String} {path : List String} {n : Node} (hn : Fixed covers (key :: path) n)
    (hpath : path ≠ []) : Fixed covers path n := by
  rcases hn with hs | ⟨front, last, heq, hlast⟩
  · exact .inl hs
  · cases front with
    | nil =>
      obtain ⟨rfl, rfl⟩ := List.cons.inj heq
      exact absurd rfl hpath
    | cons _ front =>
      obtain ⟨rfl, rfl⟩ := List.cons.inj heq
      exact .inr ⟨front, last, rfl, hlast⟩

/-- A path that is touched has its node from above. -/
theorem nodeAt?_touched (h : IsOverlay covers op) : ∀ {path : List String} {b e : Branch} {n : Node},
    e.WellFormed → e.Touches covers path → Fixed covers path n →
      ((op b e).nodeAt? path = some n ↔ e.nodeAt? path = some n)
  | [], b, e, _, _, _, hn =>
    iff_of_false (hn.not_nodeAt?_nil (op b e)) (hn.not_nodeAt?_nil e)
  | key :: path, b, e, n, he, htouch, hn => by
    obtain ⟨m, hm, hreach⟩ := Branch.touches_cons.mp htouch
    rw [Branch.nodeAt?_cons, Branch.nodeAt?_cons, hm]
    by_cases hstands : covers key m ∨ ∀ old, b.get? key = some old → old.isMapping = false
    · rw [h.get?_stands he.1 hm hstands]
    · obtain ⟨hcovers, hold⟩ := not_or.mp hstands
      obtain ⟨old, hold, hmap⟩ : ∃ old, b.get? key = some old ∧ old.isMapping = true := by
        simpa using hold
      rw [h.get?_laid he.1 hm hcovers hold hmap]
      cases path with
      | nil =>
        -- the path ends here, at a mapping that was merged: no fixed node is one
        rcases hn with ⟨s, rfl⟩ | ⟨front, last, heq, hlast⟩
        · refine ⟨fun hs => ?_, fun hs => ?_⟩
          · have hs : Node.ofBranch _ = Node.scalar s := Option.some.inj hs
            have := Node.isMapping_ofBranch (op old.toBranch m.toBranch)
            rw [hs] at this
            cases this
          · have hs : m = .scalar s := Option.some.inj hs
            exact absurd (hs ▸ h.covers_scalar key s) hcovers
        · have hkey : last = key := by
            cases front with
            | nil => exact (List.cons.inj heq).1.symm
            | cons _ front => exact absurd (List.cons.inj heq).2 (by simp)
          exact absurd (hkey ▸ hlast m) hcovers
      | cons key' path' =>
        have htail : m.toBranch.Touches covers (key' :: path') :=
          hreach.resolve_left hcovers
        simp only [Option.bind_some, Node.nodeAt?_cons, Node.toBranch_ofBranch]
        exact h.nodeAt?_touched (he.get? hm).toBranch htail (hn.tail (by simp))

/-- Where nodes are fixed, and a layer touches the path only if it has one there, that one stands before
the node of the base. -/
theorem nodeAt?_eq_or (h : IsOverlay covers op) {path : List String} (hfixed : ∀ n, Fixed covers path n)
    {e : Branch} (he : e.WellFormed) (hreach : e.Touches covers path → (e.nodeAt? path).isSome)
    (b : Branch) : (op b e).nodeAt? path = (e.nodeAt? path).or (b.nodeAt? path) := by
  cases hn : e.nodeAt? path with
  | none =>
    have huntouched : ¬ e.Touches covers path := fun htouch => by
      have := hreach htouch
      rw [hn] at this
      cases this
    exact h.nodeAt?_untouched he huntouched
  | some n => exact (h.nodeAt?_touched he (Branch.touches_of_nodeAt? hn) (hfixed n)).mpr hn

/-- **The last layer that touches a path decides what stands there**, and where none does the base
keeps its node. -/
theorem nodeAt?_foldl (h : IsOverlay covers op) {path : List String} {n : Node}
    (hn : Fixed covers path n) : ∀ {layers : List Branch} {base : Branch},
    (∀ l ∈ layers, l.WellFormed) →
      ((layers.foldl op base).nodeAt? path = some n ↔
        LastAt covers layers path n ∨
          base.nodeAt? path = some n ∧ ∀ l ∈ layers, ¬ l.Touches covers path)
  | [], base, _ => by simp [not_lastAt_nil]
  | layer :: layers, base, hwf => by
    have hlayer : layer.WellFormed := hwf layer List.mem_cons_self
    have hlayers : ∀ l ∈ layers, l.WellFormed := fun l hl => hwf l (List.mem_cons_of_mem _ hl)
    rw [List.foldl_cons, h.nodeAt?_foldl hn hlayers, lastAt_cons, or_assoc]
    refine or_congr_right ?_
    by_cases htouch : layer.Touches covers path
    · rw [h.nodeAt?_touched hlayer htouch hn]
      refine ⟨.inl, fun hor => hor.resolve_right fun hbase => ?_⟩
      exact hbase.2 layer List.mem_cons_self htouch
    · rw [h.nodeAt?_untouched hlayer htouch]
      constructor
      · rintro ⟨hbase, hlater⟩
        refine .inr ⟨hbase, fun l hl => ?_⟩
        rcases List.mem_cons.mp hl with rfl | hl
        · exact htouch
        · exact hlater l hl
      · rintro (⟨hn', _⟩ | ⟨hbase, hall⟩)
        · exact absurd (Branch.touches_of_nodeAt? hn') htouch
        · exact ⟨hbase, fun l hl => hall l (List.mem_cons_of_mem _ hl)⟩

/-- Layers over nothing: only the last one that touches a path can have put a node there. -/
theorem nodeAt?_foldl_nil (h : IsOverlay covers op) {path : List String} {n : Node}
    (hn : Fixed covers path n) {layers : List Branch} (hwf : ∀ l ∈ layers, l.WellFormed) :
    (layers.foldl op []).nodeAt? path = some n ↔ LastAt covers layers path n := by
  rw [h.nodeAt?_foldl hn hwf]
  refine or_iff_left fun hbase => ?_
  cases path with
  | nil => exact hn.not_nodeAt?_nil [] hbase.1
  | cons key path => cases hbase.1

end IsOverlay

/-! ## Entries combined one after the other

Both operations walk through the entries and put at each key what comes of the old node there and the
new one. With distinct keys no entry sees the work of another. -/

/-- Puts at the key of each entry what `f` makes of the old node there and the node of the entry. -/
def Branch.combine (f : String → Option Node → Node → Node) (base entries : Branch) : Branch :=
  entries.foldl (fun b e => b.insert e.1 (f e.1 (b.get? e.1) e.2)) base

/-- Combining branches decides on each key by itself: by what the base has there and what the entries add.
-/
theorem Branch.get?_combine (f : String → Option Node → Node → Node) :
    ∀ {entries : Branch} {base : Branch}, entries.keys.Nodup → ∀ key,
      (base.combine f entries).get? key =
        match entries.get? key with
        | none => base.get? key
        | some n => some (f key (base.get? key) n)
  | [], _, _, _ => rfl
  | (k, n) :: rest, base, hnd, key => by
    have hnd : k ∉ Branch.keys rest ∧ (Branch.keys rest).Nodup := List.nodup_cons.mp hnd
    refine (get?_combine f hnd.2 key).trans ?_
    by_cases hk : k = key
    · subst hk
      have hrest : Branch.get? rest k = none := Entries.find?_eq_none_iff.mpr hnd.1
      have hput : (base.insert k (f k (base.get? k) n)).get? k = some (f k (base.get? k) n) :=
        Entries.find?_put_self k _ base
      rw [hrest, hput]
      simp [get?, Entries.find?]
    · have hput : (base.insert k (f k (base.get? k) n)).get? key = base.get? key :=
        Entries.find?_put_of_ne _ base (Ne.symm hk)
      rw [hput]
      simp [get?, Entries.find?, hk]

/-- An entry was there before, or comes of one that was put in place. -/
theorem Branch.mem_combine {f : String → Option Node → Node → Node} : ∀ {entries base : Branch}
    {e : String × Node}, e ∈ base.combine f entries →
      e ∈ base ∨ ∃ old n, (e.1, n) ∈ entries ∧ e.2 = f e.1 old n
  | [], _, _, he => .inl he
  | (key, n) :: rest, base, e, he => by
    have he : e ∈ Branch.combine f (base.insert key (f key (base.get? key) n)) rest := he
    rcases Branch.mem_combine he with hput | ⟨old, m, hm, heq⟩
    · rcases Entries.mem_put hput with rfl | hbase
      · exact .inr ⟨base.get? key, n, List.mem_cons_self, rfl⟩
      · exact .inl hbase
    · exact .inr ⟨old, m, List.mem_cons_of_mem _ hm, heq⟩

/-- Putting entries in place repeats no key. -/
theorem Branch.nodup_combine (f : String → Option Node → Node → Node) : ∀ (entries : Branch)
    {base : Branch}, base.keys.Nodup → (base.combine f entries).keys.Nodup
  | [], _, hnd => hnd
  | (key, _) :: rest, _, hnd => Branch.nodup_combine f rest (Entries.nodup_put key _ hnd)

/-- The keys of the base come first, in their places; behind them the new ones. -/
theorem Branch.keys_combine (f : String → Option Node → Node → Node) : ∀ {entries : Branch}
    {base : Branch}, entries.keys.Nodup →
      (base.combine f entries).keys = base.keys ++ entries.keys.filter (· ∉ base.keys)
  | [], base, _ => by simp [Branch.combine, Branch.keys]
  | (key, node) :: rest, base, hnd => by
    have hnd : key ∉ Branch.keys rest ∧ (Branch.keys rest).Nodup := List.nodup_cons.mp hnd
    have hput : (base.insert key (f key (base.get? key) node)).keys =
        if key ∈ base.keys then base.keys else base.keys ++ [key] := Entries.map_fst_put _ _ base
    refine (Branch.keys_combine f hnd.2).trans ?_
    rw [hput]
    change _ = base.keys ++ (key :: Branch.keys rest).filter (· ∉ base.keys)
    by_cases hkey : key ∈ base.keys
    · simp [hkey]
    · -- the new key does not come again, so it takes nothing from the rest
      have hrest : (Branch.keys rest).filter (· ∉ base.keys ++ [key]) =
          (Branch.keys rest).filter (· ∉ base.keys) := by
        refine List.filter_congr fun k hk => ?_
        have hne : k ≠ key := fun h => hnd.1 (h ▸ hk)
        simp [hne]
      simp only [hkey, if_false, hrest]
      simp [hkey]

/-- An operation that combines entries is an overlay if what it makes of two nodes is the new one
where that stands, and the new mapping laid over the old one elsewhere. -/
theorem IsOverlay.of_combine {covers : String → Node → Prop} {op : Branch → Branch → Branch}
    {f : String → Option Node → Node → Node} (hop : ∀ b e, op b e = b.combine f e)
    (hscalar : ∀ key s, covers key (.scalar s))
    (hstands : ∀ key old n, covers key n ∨ (∀ o, old = some o → o.isMapping = false) →
      f key old n = n)
    (hlaid : ∀ key old n, ¬ covers key n → old.isMapping = true →
      f key (some old) n = .ofBranch (op old.toBranch n.toBranch)) :
    IsOverlay covers op where
  covers_scalar := hscalar
  get?_absent := by
    intro b e key hnd hk
    rw [hop, Branch.get?_combine f hnd, hk]
  get?_stands := by
    intro b e key n hnd hk h
    rw [hop, Branch.get?_combine f hnd, hk]
    exact congrArg some (hstands key _ n h)
  get?_laid := by
    intro b e key n old hnd hk hcovers hold hmap
    rw [hop, Branch.get?_combine f hnd, hk, hold]
    exact congrArg some (hlaid key old n hcovers hmap)

end FusionInspect
