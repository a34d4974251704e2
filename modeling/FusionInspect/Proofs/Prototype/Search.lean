import Mathlib.Data.List.Perm.Subperm
import Mathlib.Logic.Relation
import FusionInspect.Prototype.Resolve

/-!
# The search along prototype chains

The chain of a prototype leads on to other prototypes: to all its names but for the prototype itself at
the head. A definition can be completed exactly if every prototype that is reached this way is in the
table and none of them is reached from itself. A failure names a prototype that is to blame.

The names being followed are a walk in the table: each of them leads on to the name that is looked at
(`Trail`). So a name that is met again lies on a cycle, and a name that is met by two different ways
does not. The walk never repeats a name and never leaves the table, hence it cannot be longer than the
table, and the bound on the depth of the search never takes effect (`resolveIn_add`).

What the search does with one name stands in `resolveIn_chained`; no other proof opens it.
-/

namespace FusionInspect.Prototype

/-! ## The successor relation -/

/-- The names that a chain leads on to: all of them, without the prototype itself at the head. -/
def ancestors (name : String) : List String → List String
  | [] => []
  | first :: rest => if first = name then rest else first :: rest

/-- The names that a prototype leads on to. One that is not in the table leads nowhere. -/
def successors (table : Branch) (name : String) : List String :=
  match (table.get? name).bind fun node => node.toBranch.chain? with
  | none => []
  | some chain => ancestors name chain

/-- One step along a chain. -/
def Leads (table : Branch) (name next : String) : Prop :=
  next ∈ successors table name

/-- What is reached from a prototype, the prototype itself included. -/
def Reaches (table : Branch) : String → String → Prop :=
  Relation.ReflTransGen (Leads table)

/-- A prototype on a cycle is reached from itself in one step or more. -/
def OnCycle (table : Branch) (name : String) : Prop :=
  Relation.TransGen (Leads table) name name

/-- The own declarations of a prototype are the entries of its node in the table. -/
theorem bare_eq_ok_iff {table : Branch} {name : String} {own : Branch} :
    bare table name = .ok own ↔ ∃ node, table.get? name = some node ∧ node.toBranch = own := by
  unfold bare
  cases table.get? name with
  | none =>
    refine ⟨fun h => ?_, fun ⟨_, h, _⟩ => ?_⟩
    · cases h
    · cases h
  | some node =>
    refine ⟨fun h => ⟨node, rfl, Except.ok.inj h⟩, fun ⟨n, hn, hown⟩ => ?_⟩
    cases hn
    exact congrArg Except.ok hown

/-- They are missing only for a name that is not in the table, and the error says which. -/
theorem bare_eq_error {table : Branch} {name : String} {e : Error} (h : bare table name = .error e) :
    e = .missingPrototype name ∧ table.has name = false := by
  unfold bare at h
  unfold Branch.has
  cases hn : table.get? name with
  | none =>
    rw [hn] at h
    exact ⟨(Except.error.inj h).symm, rfl⟩
  | some node =>
    rw [hn] at h
    cases h

/-- A prototype that has own declarations is in the table. -/
theorem mem_keys_of_bare {table : Branch} {name : String} {own : Branch}
    (h : bare table name = .ok own) : name ∈ table.keys := by
  obtain ⟨node, hnode, _⟩ := bare_eq_ok_iff.mp h
  exact List.mem_map_of_mem (Entries.mem_of_find? hnode)

/-- A prototype leads on to the names that its chain has, itself at the head left out. -/
theorem successors_eq {table : Branch} {name : String} {own : Branch} {chain : List String}
    (hown : bare table name = .ok own) (hchain : own.chain? = some chain) :
    successors table name = ancestors name chain := by
  obtain ⟨node, hnode, rfl⟩ := bare_eq_ok_iff.mp hown
  simp [successors, hnode, hchain]

/-- Only a prototype of the table with names in its chain leads anywhere. -/
theorem chain_of_leads {table : Branch} {name next : String} (h : Leads table name next) :
    ∃ own first rest, bare table name = .ok own ∧ own.chain? = some (first :: rest) := by
  unfold Leads successors at h
  cases hnode : table.get? name with
  | none =>
    rw [hnode] at h
    cases h
  | some node =>
    have hown : bare table name = .ok node.toBranch := bare_eq_ok_iff.mpr ⟨node, hnode, rfl⟩
    cases hchain : node.toBranch.chain? with
    | none =>
      rw [hnode, Option.bind_some, hchain] at h
      cases h
    | some chain =>
      cases chain with
      | nil =>
        rw [hnode, Option.bind_some, hchain] at h
        cases h
      | cons first rest => exact ⟨_, first, rest, hown, hchain⟩

/-! ## What the search does with one name -/

/-- The definitions that make up that of a prototype, the weakest first: its own declarations come
last, or first if it heads its own chain. -/
def layers (name : String) (chain : List String) (own : Branch) (inherited : List Branch) :
    List Branch :=
  if chain.head? = some name then own :: inherited else inherited ++ [own]

/-- Layers merged onto each other. -/
def stacked : List Branch → Branch
  | [] => []
  | base :: more => more.foldl Branch.merge base

/-- Inheriting resolves all ancestors and then merges them in order. -/
theorem inherit_eq (resolve : String → Except Error Branch) : ∀ (names : List String) (base : Branch),
    inherit resolve base names = (names.mapM resolve).map fun found => found.foldl Branch.merge base
  | [], _ => rfl
  | name :: names, base => by
    rw [inherit, List.mapM_cons]
    cases resolve name with
    | error e => rfl
    | ok found =>
      refine (inherit_eq resolve names (base.merge found)).trans ?_
      show _ = Except.map _ (names.mapM resolve >>= fun rest => pure (found :: rest))
      cases names.mapM resolve with
      | error e => rfl
      | ok rest => rfl

/-- The search fails at once on a name that is not in the table. -/
theorem resolveIn_missing {table : Branch} {name : String} {e : Error} (fuel : Nat)
    (following : List String) (h : bare table name = .error e) :
    resolveIn table (fuel + 1) following name = .error e := by
  rw [resolveIn, h]
  rfl

/-- A prototype without a chain stays as it is. -/
theorem resolveIn_unchained {table : Branch} {name : String} {own : Branch} (fuel : Nat)
    (following : List String) (hown : bare table name = .ok own)
    (hchain : own.chain? = none ∨ own.chain? = some []) :
    resolveIn table (fuel + 1) following name = .ok own := by
  rw [resolveIn, hown]
  rcases hchain with h | h
  · simp only [bind, Except.bind, h]
    rfl
  · simp only [bind, Except.bind, h]
    rfl

/-- It fails on a name that is being followed already, if its chain has names in it. -/
theorem resolveIn_met {table : Branch} {name first : String} {rest following : List String}
    {own : Branch} (fuel : Nat) (hown : bare table name = .ok own)
    (hchain : own.chain? = some (first :: rest)) (hmet : name ∈ following) :
    resolveIn table (fuel + 1) following name = .error (.cyclicPrototype name) := by
  have hmet : following.contains name = true := List.contains_iff_mem.mpr hmet
  rw [resolveIn, hown]
  simp only [bind, Except.bind, hchain, hmet, if_true]
  rfl

/-- The layers of a prototype with a chain are merged, and what comes out is settled. -/
theorem resolveIn_chained {table : Branch} {name first : String} {rest following : List String}
    {own : Branch} (fuel : Nat) (hown : bare table name = .ok own)
    (hchain : own.chain? = some (first :: rest)) (hnew : name ∉ following) :
    resolveIn table (fuel + 1) following name =
      ((successors table name).mapM (resolveIn table fuel (name :: following))).map
        fun inherited => settle (stacked (layers name (first :: rest) own inherited)) := by
  have hnew : following.contains name = false := by simpa using hnew
  rw [resolveIn, hown, successors_eq hown hchain]
  simp only [bind, Except.bind, hchain, hnew, Bool.false_eq_true, if_false, ancestors, layers,
    inherit_eq]
  by_cases hfirst : first = name
  · simp only [hfirst, beq_self_eq_true, if_true, List.head?_cons]
    cases rest.mapM (resolveIn table fuel (name :: following)) with
    | error e => rfl
    | ok found => rfl
  · simp only [beq_iff_eq, hfirst, if_false, List.head?_cons, Option.some.injEq, List.mapM_cons,
      bind, Except.bind]
    cases resolveIn table fuel (name :: following) first with
    | error e => rfl
    | ok base =>
      cases rest.mapM (resolveIn table fuel (name :: following)) with
      | error e => rfl
      | ok found =>
        simp [Except.map, pure, Except.pure, stacked, List.foldl_append]

/-! ## Success and failure of a list of searches -/

section

variable {α β : Type} {f g : α → Except Error β}

/-- If all went well, each result belongs to its argument. -/
theorem mapM_eq_ok : ∀ {xs : List α} {ys : List β}, xs.mapM f = .ok ys →
    List.Forall₂ (fun x y => f x = .ok y) xs ys
  | [], ys, h => by
    cases h
    exact .nil
  | x :: xs, ys, h => by
    rw [List.mapM_cons] at h
    cases hx : f x with
    | error e => rw [hx] at h; cases h
    | ok y =>
      cases hxs : xs.mapM f with
      | error e => rw [hx, hxs] at h; cases h
      | ok rest =>
        rw [hx, hxs] at h
        cases h
        exact .cons hx (mapM_eq_ok hxs)

/-- If all goes well for each argument, it goes well for all. -/
theorem mapM_eq_ok_of_forall₂ : ∀ {xs : List α} {ys : List β},
    List.Forall₂ (fun x y => f x = .ok y) xs ys → xs.mapM f = .ok ys
  | _, _, .nil => rfl
  | _, _, .cons hx hxs => by
    rw [List.mapM_cons, hx, mapM_eq_ok_of_forall₂ hxs]
    rfl

/-- A failure is that of some argument. -/
theorem mapM_eq_error : ∀ {xs : List α} {e : Error}, xs.mapM f = .error e → ∃ x ∈ xs, f x = .error e
  | [], _, h => by cases h
  | x :: xs, e, h => by
    rw [List.mapM_cons] at h
    cases hx : f x with
    | error e' =>
      rw [hx] at h
      cases h
      exact ⟨x, List.mem_cons_self, hx⟩
    | ok y =>
      cases hxs : xs.mapM f with
      | error e' =>
        rw [hx, hxs] at h
        cases h
        obtain ⟨x', hx', he⟩ := mapM_eq_error hxs
        exact ⟨x', List.mem_cons_of_mem _ hx', he⟩
      | ok rest => rw [hx, hxs] at h; cases h

theorem mapM_congr : ∀ {xs : List α}, (∀ x ∈ xs, f x = g x) → xs.mapM f = xs.mapM g
  | [], _ => rfl
  | x :: xs, h => by
    rw [List.mapM_cons, List.mapM_cons, h x List.mem_cons_self,
      mapM_congr fun y hy => h y (List.mem_cons_of_mem _ hy)]

end

/-! ## The names being followed -/

/-- The names being followed when a name is looked at: distinct names of the table, each of which
leads on to the name. -/
structure Trail (table : Branch) (following : List String) (name : String) : Prop where
  nodup : following.Nodup
  known : ∀ m ∈ following, m ∈ table.keys
  leads : ∀ m ∈ following, Relation.TransGen (Leads table) m name

namespace Trail

variable {table : Branch} {following : List String} {name : String}

theorem start (table : Branch) (name : String) : Trail table [] name :=
  ⟨.nil, fun _ h => absurd h List.not_mem_nil, fun _ h => absurd h List.not_mem_nil⟩

/-- One step of the search: the name is followed, and the next one is looked at. -/
theorem step (h : Trail table following name) (hnew : name ∉ following) {next : String}
    (hnext : Leads table name next) : Trail table (name :: following) next where
  nodup := List.nodup_cons.mpr ⟨hnew, h.nodup⟩
  known m hm := by
    rcases List.mem_cons.mp hm with rfl | hm
    · obtain ⟨own, _, _, hown, _⟩ := chain_of_leads hnext
      exact mem_keys_of_bare hown
    · exact h.known m hm
  leads m hm := by
    rcases List.mem_cons.mp hm with rfl | hm
    · exact .single hnext
    · exact (h.leads m hm).tail hnext

/-- A name that is met again lies on a cycle. -/
theorem onCycle (h : Trail table following name) (hmet : name ∈ following) : OnCycle table name :=
  h.leads name hmet

/-- Distinct names of the table are no more than the table has entries. -/
theorem length_le (h : Trail table following name) : following.length ≤ table.length := by
  have hsub : following.Subperm table.keys := List.subperm_of_subset h.nodup h.known
  have hle := hsub.length_le
  rw [show table.keys.length = table.length from List.length_map _] at hle
  exact hle

end Trail

/-! ## Failure names the prototype to blame -/

/-- Why a search fails: a prototype that is reached is not in the table, or lies on a cycle. -/
def Blames (table : Branch) (name : String) (e : Error) : Prop :=
  (∃ m, e = .missingPrototype m ∧ Reaches table name m ∧ table.has m = false) ∨
    ∃ m, e = .cyclicPrototype m ∧ Reaches table name m ∧ OnCycle table m

/-- Who is to blame for the failure of a successor is to blame for that of the prototype. -/
theorem Blames.head {table : Branch} {name next : String} {e : Error} (hnext : Leads table name next)
    (h : Blames table next e) : Blames table name e := by
  rcases h with ⟨m, he, hm, hnone⟩ | ⟨m, he, hm, hcycle⟩
  · exact .inl ⟨m, he, .head hnext hm, hnone⟩
  · exact .inr ⟨m, he, .head hnext hm, hcycle⟩

/-- A search that fails with fuel for the whole table blames rightly. The trail and the fuel together
outnumber the table, so it is never the fuel that ends the search. -/
theorem resolveIn_error {table : Branch} : ∀ {fuel : Nat} {following : List String} {name : String}
    {e : Error}, Trail table following name → table.length < following.length + fuel →
      resolveIn table fuel following name = .error e → Blames table name e
  | 0, following, name, e, htrail, hfuel, _ => by
    have := htrail.length_le
    omega
  | fuel + 1, following, name, e, htrail, hfuel, h => by
    cases hown : bare table name with
    | error e' =>
      rw [resolveIn_missing fuel following hown] at h
      obtain ⟨he, hnone⟩ := bare_eq_error hown
      exact .inl ⟨name, Except.error.inj h ▸ he, .refl, hnone⟩
    | ok own =>
      rcases hchain : own.chain? with _ | _ | ⟨first, rest⟩
      · rw [resolveIn_unchained fuel following hown (.inl hchain)] at h
        cases h
      · rw [resolveIn_unchained fuel following hown (.inr hchain)] at h
        cases h
      · by_cases hmet : name ∈ following
        · rw [resolveIn_met fuel hown hchain hmet] at h
          cases h
          exact .inr ⟨name, rfl, .refl, htrail.onCycle hmet⟩
        · rw [resolveIn_chained fuel hown hchain hmet] at h
          cases hall : (successors table name).mapM (resolveIn table fuel (name :: following)) with
          | ok inherited => rw [hall] at h; cases h
          | error e' =>
            rw [hall] at h
            cases h
            obtain ⟨next, hnext, he⟩ := mapM_eq_error hall
            have hfuel' : table.length < (name :: following).length + fuel := by
              rw [List.length_cons]
              omega
            exact (resolveIn_error (htrail.step hmet hnext) hfuel' he).head hnext

/-- More fuel than the table has entries changes nothing. -/
theorem resolveIn_add {table : Branch} (more : Nat) : ∀ {fuel : Nat} {following : List String}
    {name : String}, Trail table following name → table.length < following.length + fuel →
      resolveIn table (fuel + more) following name = resolveIn table fuel following name
  | 0, following, name, htrail, hfuel => by
    have := htrail.length_le
    omega
  | fuel + 1, following, name, htrail, hfuel => by
    rw [show fuel + 1 + more = fuel + more + 1 from Nat.add_right_comm fuel 1 more]
    cases hown : bare table name with
    | error e => rw [resolveIn_missing _ following hown, resolveIn_missing _ following hown]
    | ok own =>
      rcases hchain : own.chain? with _ | _ | ⟨first, rest⟩
      · rw [resolveIn_unchained _ following hown (.inl hchain),
          resolveIn_unchained _ following hown (.inl hchain)]
      · rw [resolveIn_unchained _ following hown (.inr hchain),
          resolveIn_unchained _ following hown (.inr hchain)]
      · by_cases hmet : name ∈ following
        · rw [resolveIn_met _ hown hchain hmet, resolveIn_met _ hown hchain hmet]
        · rw [resolveIn_chained _ hown hchain hmet, resolveIn_chained _ hown hchain hmet]
          refine congrArg _ (mapM_congr fun next hnext => ?_)
          refine resolveIn_add more (htrail.step hmet hnext) ?_
          rw [List.length_cons]
          omega

/-! ## Success reaches everything

A search that succeeds has succeeded for each successor with less fuel. Along a cycle that would go on
without end. -/

/-- Some search for the name succeeds with this fuel. -/
def Succeeds (table : Branch) (fuel : Nat) (name : String) : Prop :=
  ∃ following definition, resolveIn table fuel following name = .ok definition

/-- A search succeeds only for what is in the table. -/
theorem Succeeds.known {table : Branch} {fuel : Nat} {name : String} (h : Succeeds table fuel name) :
    ∃ own, bare table name = .ok own := by
  obtain ⟨following, definition, h⟩ := h
  cases fuel with
  | zero => cases h
  | succ fuel =>
    cases hown : bare table name with
    | ok own => exact ⟨own, rfl⟩
    | error e =>
      rw [resolveIn_missing fuel following hown] at h
      cases h

/-- What a search that succeeds for a prototype with a chain has found: the definitions of all its
successors, each by a search of its own. -/
theorem resolveIn_eq_ok {table : Branch} {fuel : Nat} {following : List String} {name first : String}
    {rest : List String} {own definition : Branch} (hown : bare table name = .ok own)
    (hchain : own.chain? = some (first :: rest))
    (h : resolveIn table (fuel + 1) following name = .ok definition) :
    name ∉ following ∧ ∃ inherited,
      List.Forall₂ (fun next d => resolveIn table fuel (name :: following) next = .ok d)
        (successors table name) inherited ∧
      definition = settle (stacked (layers name (first :: rest) own inherited)) := by
  by_cases hmet : name ∈ following
  · rw [resolveIn_met fuel hown hchain hmet] at h
    cases h
  · refine ⟨hmet, ?_⟩
    rw [resolveIn_chained fuel hown hchain hmet] at h
    cases hall : (successors table name).mapM (resolveIn table fuel (name :: following)) with
    | error e => rw [hall] at h; cases h
    | ok inherited =>
      rw [hall] at h
      cases h
      exact ⟨inherited, mapM_eq_ok hall, rfl⟩

/-- It has succeeded for each successor, with less fuel. -/
theorem Succeeds.step {table : Branch} {fuel : Nat} {name next : String}
    (h : Succeeds table fuel name) (hnext : Leads table name next) :
    ∃ less, less < fuel ∧ Succeeds table less next := by
  obtain ⟨following, definition, h⟩ := h
  obtain ⟨own, first, rest, hown, hchain⟩ := chain_of_leads hnext
  cases fuel with
  | zero => cases h
  | succ fuel =>
    obtain ⟨_, inherited, hall, _⟩ := resolveIn_eq_ok hown hchain h
    obtain ⟨i, hi, rfl⟩ := List.mem_iff_getElem.mp hnext
    have hlen := hall.length_eq
    exact ⟨fuel, Nat.lt_succ_self fuel, name :: following, inherited[i], hall.get hi (hlen ▸ hi)⟩

/-- It has succeeded for all that is reached in one step or more, with less fuel. -/
theorem Succeeds.transGen {table : Branch} {name target : String}
    (hreach : Relation.TransGen (Leads table) name target) :
    ∀ {fuel : Nat}, Succeeds table fuel name → ∃ less, less < fuel ∧ Succeeds table less target := by
  induction hreach with
  | single hnext => intro fuel h; exact h.step hnext
  | tail _ hnext ih =>
    intro fuel h
    obtain ⟨less, hless, h⟩ := ih h
    obtain ⟨least, hleast, h⟩ := h.step hnext
    exact ⟨least, Nat.lt_trans hleast hless, h⟩

/-- No search for a name on a cycle succeeds: it would have succeeded with less fuel before. -/
theorem not_succeeds_of_onCycle {table : Branch} {name : String} (hcycle : OnCycle table name)
    (fuel : Nat) : ¬ Succeeds table fuel name := by
  induction fuel using Nat.strongRecOn with
  | ind fuel ih =>
    intro h
    obtain ⟨less, hless, h⟩ := Succeeds.transGen hcycle h
    exact ih less hless h

/-- A search that succeeds also succeeds with more fuel and with fewer names being followed. -/
theorem resolveIn_weaken {table : Branch} : ∀ {fuel more : Nat} {following fewer : List String}
    {name : String} {definition : Branch}, fuel ≤ more → fewer ⊆ following →
      resolveIn table fuel following name = .ok definition →
      resolveIn table more fewer name = .ok definition
  | 0, _, _, _, _, _, _, _, h => by cases h
  | fuel + 1, 0, _, _, _, _, hle, _, _ => by omega
  | fuel + 1, more + 1, following, fewer, name, definition, hle, hsub, h => by
    obtain ⟨own, hown⟩ := Succeeds.known ⟨following, definition, h⟩
    rcases hchain : own.chain? with _ | _ | ⟨first, rest⟩
    · rw [resolveIn_unchained fuel following hown (.inl hchain)] at h
      rw [resolveIn_unchained more fewer hown (.inl hchain), h]
    · rw [resolveIn_unchained fuel following hown (.inr hchain)] at h
      rw [resolveIn_unchained more fewer hown (.inr hchain), h]
    · obtain ⟨hnew, inherited, hall, rfl⟩ := resolveIn_eq_ok hown hchain h
      have hnew' : name ∉ fewer := fun hmem => hnew (hsub hmem)
      have hall' : List.Forall₂ (fun next d => resolveIn table more (name :: fewer) next = .ok d)
          (successors table name) inherited :=
        hall.imp fun _ _ => resolveIn_weaken (Nat.le_of_succ_le_succ hle) (List.cons_subset_cons _ hsub)
      rw [resolveIn_chained more hown hchain hnew', mapM_eq_ok_of_forall₂ hall']
      rfl

/-! ## The outcome -/

/-- **When a prototype can be completed.** The search succeeds exactly if every prototype that is
reached is in the table and lies on no cycle. A failure blames one that is reached: it is missing, or
it lies on a cycle. And the search ends by itself: with any more fuel the outcome is the same. -/
theorem resolve_outcome (table : Branch) (name : String) :
    ((∃ definition, resolve table name = .ok definition) ↔
      ∀ m, Reaches table name m → table.has m = true ∧ ¬ OnCycle table m) ∧
    (∀ e, resolve table name = .error e →
      (∃ m, e = .missingPrototype m ∧ Reaches table name m ∧ table.has m = false) ∨
        ∃ m, e = .cyclicPrototype m ∧ Reaches table name m ∧ OnCycle table m) ∧
    ∀ more, resolveIn table (table.length + 1 + more) [] name = resolve table name := by
  have hfuel : table.length < ([] : List String).length + (table.length + 1) := by simp
  have hblames : ∀ e, resolve table name = .error e → Blames table name e :=
    fun e h => resolveIn_error (.start table name) hfuel h
  refine ⟨⟨fun ⟨definition, h⟩ m hm => ?_, fun hall => ?_⟩, fun e h => ?_, fun more => ?_⟩
  · have hm : ∃ fuel, Succeeds table fuel m := by
      rcases Relation.reflTransGen_iff_eq_or_transGen.mp hm with rfl | hm
      · exact ⟨_, [], definition, h⟩
      · obtain ⟨less, _, hless⟩ := Succeeds.transGen hm ⟨[], definition, h⟩
        exact ⟨less, hless⟩
    obtain ⟨fuel, hm⟩ := hm
    obtain ⟨own, hown⟩ := hm.known
    obtain ⟨node, hnode, _⟩ := bare_eq_ok_iff.mp hown
    refine ⟨?_, fun hcycle => not_succeeds_of_onCycle hcycle fuel hm⟩
    rw [Branch.has, hnode]
    rfl
  · cases h : resolve table name with
    | ok definition => exact ⟨definition, rfl⟩
    | error e =>
      rcases hblames e h with ⟨m, _, hm, hnone⟩ | ⟨m, _, hm, hcycle⟩
      · exact absurd (hall m hm).1 (by simp [hnone])
      · exact absurd hcycle (hall m hm).2
  · exact hblames e h
  · exact resolveIn_add more (.start table name) hfuel

end FusionInspect.Prototype
