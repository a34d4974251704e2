import Mathlib.Data.List.Infix
import FusionInspect.Tree.FusionPath

/-!
# Dividing and joining paths

A path is divided at the dots outside of parentheses, and what is empty between two dots is left out.
A closing parenthesis that none was opened for is passed over, and one that is never closed hides all
dots behind it. So a text need not be balanced to be divided, and dividing need not be undone by joining.

What joining undoes are the PIECES of a text, empty ones included (`intercalate_pieces`). Each piece is
UNDIVIDED, and behind each but the last no parenthesis is open. Conversely whatever has these two
properties is divided where it was joined (`Parts.pieces_intercalate`). Leaving out empty pieces keeps
them, so a path that was divided and joined is divided into the same steps again (`split_join_split`).
-/

namespace FusionInspect.FusionPath

/-! ## Open parentheses -/

/-- How many parentheses are open behind a character. -/
def depthBehind (depth : Nat) (c : Char) : Nat :=
  if c == '(' then depth + 1 else if c == ')' then depth - 1 else depth

/-- How many parentheses are open behind a text. -/
def depthAfter (depth : Nat) (cs : List Char) : Nat :=
  cs.foldl depthBehind depth

/-- No dot of the text stands outside of all parentheses. -/
def Undivided : Nat → List Char → Prop
  | _, [] => True
  | depth, c :: cs => ¬ (c = '.' ∧ depth = 0) ∧ Undivided (depthBehind depth c) cs

theorem depthAfter_append (depth : Nat) (s t : List Char) :
    depthAfter depth (s ++ t) = depthAfter (depthAfter depth s) t :=
  List.foldl_append

/-- A text is undivided exactly if its parts are, the second at the depth that the first leaves. -/
theorem undivided_append {s t : List Char} : ∀ {depth : Nat}, Undivided depth (s ++ t) ↔
    Undivided depth s ∧ Undivided (depthAfter depth s) t := by
  induction s with
  | nil => intro depth; exact (iff_of_eq (true_and _)).symm
  | cons c s ih =>
    intro depth
    rw [List.cons_append, Undivided, Undivided, ih, and_assoc]
    rfl

/-- A text without parentheses leaves the depth as it is. -/
theorem depthAfter_of_free {cs : List Char} (hopen : '(' ∉ cs) (hclose : ')' ∉ cs) (depth : Nat) :
    depthAfter depth cs = depth := by
  induction cs with
  | nil => rfl
  | cons c cs ih =>
    rw [List.mem_cons, not_or] at hopen hclose
    have hbehind : depthBehind depth c = depth := by
      simp [depthBehind, Ne.symm hopen.1, Ne.symm hclose.1]
    change depthAfter (depthBehind depth c) cs = depth
    rw [hbehind, ih hopen.2 hclose.2]

/-- A text without dots is undivided at any depth. -/
theorem undivided_of_dotless {cs : List Char} (h : '.' ∉ cs) (depth : Nat) : Undivided depth cs := by
  induction cs generalizing depth with
  | nil => trivial
  | cons c cs ih =>
    rw [List.mem_cons, not_or] at h
    exact ⟨fun hdot => h.1 hdot.1.symm, ih h.2 _⟩

/-! ## Pieces -/

/-- The pieces of a text between the dots that divide it, empty ones included. -/
def pieces (depth : Nat) (cs : List Char) : List (List Char) :=
  (splitFrom depth cs).1 :: (splitFrom depth cs).2

theorem split_eq (path : String) :
    split path = ((pieces 0 path.toList).filter fun s => !s.isEmpty).map String.ofList := rfl

theorem pieces_dot (cs : List Char) : pieces 0 ('.' :: cs) = [] :: pieces 0 cs := rfl

/-- A character that does not divide belongs to the first piece. -/
theorem pieces_cons {depth : Nat} {c : Char} (h : ¬ (c = '.' ∧ depth = 0)) (cs : List Char) :
    pieces depth (c :: cs) = (pieces (depthBehind depth c) cs).modifyHead (c :: ·) := by
  have hdot : (c == '.' && depth == 0) = false := by simpa using h
  unfold pieces
  rw [splitFrom, if_neg (by simp [hdot])]
  rfl

/-- So does a whole text that is not divided. -/
theorem pieces_append {s : List Char} : ∀ {depth : Nat}, Undivided depth s → ∀ t : List Char,
    pieces depth (s ++ t) = (pieces (depthAfter depth s) t).modifyHead (s ++ ·) := by
  induction s with
  | nil => intro depth _ t; rfl
  | cons c s ih =>
    intro depth h t
    rw [List.cons_append, pieces_cons h.1, ih h.2]
    rfl

/-- An undivided text is one piece. -/
theorem pieces_of_undivided {depth : Nat} {s : List Char} (h : Undivided depth s) :
    pieces depth s = [s] := by
  have hpieces := pieces_append h []
  rw [List.append_nil] at hpieces
  rw [hpieces]
  exact congrArg (fun s => [s]) (List.append_nil s)

/-! ## Joining -/

/-- Pieces of one text: none of them is divided, and behind each but the last no parenthesis is open. -/
inductive Parts : Nat → List (List Char) → Prop where
  | last {depth : Nat} {s : List Char} : Undivided depth s → Parts depth [s]
  | cons {depth : Nat} {s : List Char} {rest : List (List Char)} : Undivided depth s →
      depthAfter depth s = 0 → Parts 0 rest → Parts depth (s :: rest)

theorem Parts.ne_nil {depth : Nat} {ps : List (List Char)} (h : Parts depth ps) : ps ≠ [] := by
  cases h <;> exact List.cons_ne_nil _ _

/-- A dot stands between the first piece and the others. -/
theorem intercalate_cons {s : List Char} {rest : List (List Char)} (h : rest ≠ []) :
    ['.'].intercalate (s :: rest) = s ++ '.' :: ['.'].intercalate rest := by
  obtain ⟨t, rest, rfl⟩ := List.exists_cons_of_ne_nil h
  rw [List.intercalate_cons_cons, List.append_assoc]
  rfl

/-- Parts are divided where they were joined. -/
theorem Parts.pieces_intercalate {depth : Nat} {ps : List (List Char)} (h : Parts depth ps) :
    pieces depth (['.'].intercalate ps) = ps := by
  induction h with
  | last hs => rw [List.intercalate_singleton, pieces_of_undivided hs]
  | @cons depth s rest hs hclosed hrest ih =>
    rw [intercalate_cons hrest.ne_nil, pieces_append hs, hclosed, pieces_dot, ih]
    exact congrArg (· :: rest) (List.append_nil s)

/-- A character that does not divide can be put in front of pieces. -/
theorem Parts.cons_char {depth : Nat} {c : Char} (h : ¬ (c = '.' ∧ depth = 0)) {ps : List (List Char)}
    (hps : Parts (depthBehind depth c) ps) : Parts depth (ps.modifyHead (c :: ·)) := by
  cases hps with
  | last hs => exact .last ⟨h, hs⟩
  | cons hs hclosed hrest => exact .cons ⟨h, hs⟩ hclosed hrest

/-- What a text is divided into are pieces. -/
theorem parts_pieces : ∀ (cs : List Char) (depth : Nat), Parts depth (pieces depth cs)
  | [], _ => .last trivial
  | c :: cs, depth => by
    by_cases h : c = '.' ∧ depth = 0
    · obtain ⟨rfl, rfl⟩ := h
      exact .cons trivial rfl (parts_pieces cs 0)
    · rw [pieces_cons h]
      exact (parts_pieces cs _).cons_char h

/-- Nothing of a text is lost in its pieces. -/
theorem intercalate_pieces : ∀ (cs : List Char) (depth : Nat), ['.'].intercalate (pieces depth cs) = cs
  | [], _ => rfl
  | c :: cs, depth => by
    by_cases h : c = '.' ∧ depth = 0
    · obtain ⟨rfl, rfl⟩ := h
      rw [pieces_dot, intercalate_cons (parts_pieces cs 0).ne_nil, intercalate_pieces cs 0]
      rfl
    · have ih := intercalate_pieces cs (depthBehind depth c)
      rw [pieces_cons h]
      obtain ⟨s, rest, hs⟩ := List.exists_cons_of_ne_nil (parts_pieces cs (depthBehind depth c)).ne_nil
      rw [hs] at ih ⊢
      -- the character goes in front of the first piece, and so of the text
      cases rest with
      | nil =>
        rw [List.intercalate_singleton] at ih
        rw [List.modifyHead_cons, List.intercalate_singleton, ih]
      | cons t rest =>
        rw [intercalate_cons (List.cons_ne_nil _ _)] at ih
        rw [List.modifyHead_cons, intercalate_cons (List.cons_ne_nil _ _), List.cons_append, ih]

/-! ## Steps -/

/-- Pieces without the empty ones are pieces again, if any are left. -/
theorem Parts.filter {ps : List (List Char)} {depth : Nat} (h : Parts depth ps) (hdepth : depth = 0) :
    (ps.filter fun s => !s.isEmpty) = [] ∨ Parts 0 (ps.filter fun s => !s.isEmpty) := by
  induction h with
  | @last depth s hs =>
    subst hdepth
    cases s with
    | nil => exact .inl rfl
    | cons c s => exact .inr (.last hs)
  | @cons depth s rest hs hclosed _ ih =>
    subst hdepth
    cases s with
    | nil => exact ih rfl
    | cons c s =>
      change _ ∨ Parts 0 ((c :: s) :: rest.filter _)
      rcases ih rfl with hnil | hparts
      · rw [hnil]
        exact .inr (.last hs)
      · exact .inr (.cons hs hclosed hparts)

/-- The path of some steps, with dots between them. -/
def join (steps : List String) : String :=
  ".".intercalate steps

theorem toList_join (steps : List String) :
    (join steps).toList = ['.'].intercalate (steps.map String.toList) :=
  String.toList_intercalate

theorem map_ofList_toList (steps : List String) : (steps.map String.toList).map String.ofList = steps := by
  rw [List.map_map]
  exact (List.map_congr_left fun s _ => String.ofList_toList).trans (List.map_id steps)

/-- Steps that are parts, and none of them empty, are the steps of their path. -/
theorem split_join {steps : List String} (hparts : Parts 0 (steps.map String.toList))
    (hne : ∀ s ∈ steps, s ≠ "") : split (join steps) = steps := by
  have hfilter : ((steps.map String.toList).filter fun s => !s.isEmpty) = steps.map String.toList := by
    refine List.filter_eq_self.mpr fun cs hcs => ?_
    obtain ⟨s, hs, rfl⟩ := List.mem_map.mp hcs
    simpa using hne s hs
  rw [split_eq, toList_join, hparts.pieces_intercalate, hfilter, map_ofList_toList]

/-- A path that was divided and joined is divided into the same steps again. -/
theorem split_join_split (path : String) : split (join (split path)) = split path := by
  rcases (parts_pieces path.toList 0).filter rfl with hnil | hparts
  · rw [split_eq path, hnil]
    rfl
  · have htoList : (split path).map String.toList =
        (pieces 0 path.toList).filter fun s => !s.isEmpty := by
      rw [split_eq, List.map_map]
      exact (List.map_congr_left fun _ _ => String.toList_ofList).trans (List.map_id _)
    refine split_join (htoList ▸ hparts) fun s hs hempty => ?_
    have hmem : s.toList ∈ (split path).map String.toList := List.mem_map_of_mem hs
    rw [htoList, hempty] at hmem
    exact absurd (List.mem_filter.mp hmem).2 (by decide)

/-! ## Spellings of a step -/

/-- Empty pieces behind a text are dots behind it. -/
theorem intercalate_replicate_nil (n : Nat) (s : List Char) :
    ['.'].intercalate (s :: List.replicate n []) = s ++ List.replicate n '.' := by
  induction n generalizing s with
  | zero => rw [List.replicate_zero, List.intercalate_singleton, List.replicate_zero, List.append_nil]
  | succ n ih =>
    rw [List.replicate_succ, intercalate_cons (List.cons_ne_nil _ _), ih []]
    rfl

/-- Empty pieces in front of others are dots in front of them. -/
theorem intercalate_replicate_append (m : Nat) {ps : List (List Char)} (h : ps ≠ []) :
    ['.'].intercalate (List.replicate m [] ++ ps) = List.replicate m '.' ++ ['.'].intercalate ps := by
  induction m with
  | zero => rfl
  | succ m ih =>
    rw [List.replicate_succ, List.cons_append,
      intercalate_cons (List.append_ne_nil_of_right_ne_nil _ h), ih]
    rfl

/-- Empty pieces can be put in front of any others. -/
theorem Parts.dots (m : Nat) {ps : List (List Char)} (h : Parts 0 ps) :
    Parts 0 (List.replicate m [] ++ ps) := by
  induction m with
  | zero => exact h
  | succ m ih => exact .cons trivial rfl ih

theorem eq_replicate_nil {ps : List (List Char)} (h : ∀ s ∈ ps, ¬ (!s.isEmpty) = true) :
    ps = List.replicate ps.length [] :=
  List.eq_replicate_iff.mpr ⟨rfl, fun s hs => by simpa using h s hs⟩

/-- The paths of a single step are the step itself with dots in front of it and behind it. -/
theorem split_eq_singleton_iff {step : String} (hne : step ≠ "") (hundivided : Undivided 0 step.toList)
    (hclosed : depthAfter 0 step.toList = 0) {path : String} :
    split path = [step] ↔ ∃ m n, path.toList =
      List.replicate m '.' ++ (step.toList ++ List.replicate n '.') := by
  constructor
  · intro h
    have hpieces : ((pieces 0 path.toList).filter fun s => !s.isEmpty) = [step.toList] := by
      obtain ⟨cs, hcs, hstep⟩ := List.map_eq_singleton_iff.mp (split_eq path ▸ h)
      rw [hcs, ← hstep, String.toList_ofList]
    obtain ⟨front, back, hsplit, hfront, -, hback⟩ := List.filter_eq_cons_iff.mp hpieces
    rw [List.filter_eq_nil_iff] at hback
    rw [eq_replicate_nil hfront, eq_replicate_nil hback] at hsplit
    refine ⟨front.length, back.length, ?_⟩
    rw [← intercalate_pieces path.toList 0, hsplit, intercalate_replicate_append _ (List.cons_ne_nil _ _),
      intercalate_replicate_nil]
  · rintro ⟨m, n, hpath⟩
    have hbehind : Parts 0 (step.toList :: List.replicate n []) := by
      cases n with
      | zero => exact .last hundivided
      | succ n =>
        rw [List.replicate_succ']
        exact .cons hundivided hclosed (.dots n (.last trivial))
    rw [split_eq, hpath, ← intercalate_replicate_nil, ← intercalate_replicate_append _ (List.cons_ne_nil _ _),
      (hbehind.dots m).pieces_intercalate]
    have hstep : (!step.toList.isEmpty) = true := by simpa using hne
    simp [hstep]

/-! ## Balanced names -/

/-- Every parenthesis that is closed was opened before, and every one that is opened is closed. -/
def Balanced (cs : List Char) : Prop :=
  (∀ front ∈ cs.inits, front.count ')' ≤ front.count '(') ∧ cs.count '(' = cs.count ')'

instance (cs : List Char) : Decidable (Balanced cs) :=
  inferInstanceAs (Decidable (_ ∧ _))

/-- Within enough parentheses a text is not divided, whatever dots it has. The parentheses in front of it
make up for those that it closes. -/
theorem undivided_of_inits : ∀ (cs : List Char) (spare : Nat),
    (∀ front, front <+: cs → front.count ')' ≤ front.count '(' + spare) →
      Undivided (spare + 1) cs ∧ depthAfter (spare + 1) cs + cs.count ')' = spare + 1 + cs.count '('
  | [], _, _ => ⟨trivial, rfl⟩
  | c :: cs, spare, h => by
    have hrest : ∀ front, front <+: cs → (c :: front).count ')' ≤ (c :: front).count '(' + spare :=
      fun front hfront => h _ (List.cons_prefix_cons.mpr ⟨rfl, hfront⟩)
    have hdot : ¬ (c = '.' ∧ spare + 1 = 0) := fun hdot => Nat.succ_ne_zero spare hdot.2
    change (_ ∧ Undivided (depthBehind (spare + 1) c) cs) ∧
      depthAfter (depthBehind (spare + 1) c) cs + _ = _
    by_cases hopen : c = '('
    · subst hopen
      have hne : '(' ≠ ')' := by decide
      obtain ⟨hu, hd⟩ := undivided_of_inits cs (spare + 1) fun front hfront => by
        have := hrest front hfront
        rw [List.count_cons_self, List.count_cons_of_ne hne] at this
        omega
      rw [List.count_cons_self, List.count_cons_of_ne hne]
      change (_ ∧ Undivided (spare + 1 + 1) cs) ∧ depthAfter (spare + 1 + 1) cs + _ = _
      exact ⟨⟨hdot, hu⟩, by omega⟩
    by_cases hclose : c = ')'
    · subst hclose
      have hne : ')' ≠ '(' := by decide
      -- the first character closes a parenthesis, so one was to spare
      obtain ⟨spare, rfl⟩ : ∃ k, spare = k + 1 := by
        have := hrest [] List.nil_prefix
        rw [List.count_cons_self, List.count_cons_of_ne hne] at this
        exact Nat.exists_eq_add_of_le' (by simpa using this)
      obtain ⟨hu, hd⟩ := undivided_of_inits cs spare fun front hfront => by
        have := hrest front hfront
        rw [List.count_cons_self, List.count_cons_of_ne hne] at this
        omega
      rw [List.count_cons_self, List.count_cons_of_ne hne]
      change (_ ∧ Undivided (spare + 1) cs) ∧ depthAfter (spare + 1) cs + _ = _
      exact ⟨⟨hdot, hu⟩, by omega⟩
    · have hbehind : depthBehind (spare + 1) c = spare + 1 := by simp [depthBehind, hopen, hclose]
      obtain ⟨hu, hd⟩ := undivided_of_inits cs spare fun front hfront => by
        simpa only [List.count_cons_of_ne hopen, List.count_cons_of_ne hclose] using hrest front hfront
      rw [hbehind, List.count_cons_of_ne hopen, List.count_cons_of_ne hclose]
      exact ⟨⟨hdot, hu⟩, hd⟩

/-- Inside a parenthesis a balanced name is not divided, and leaves the parenthesis open. -/
theorem Balanced.undivided {cs : List Char} (h : Balanced cs) : Undivided 1 cs ∧ depthAfter 1 cs = 1 := by
  obtain ⟨hu, hd⟩ := undivided_of_inits cs 0 fun front hfront =>
    h.1 front ((List.mem_inits _ _).mpr hfront)
  have hd : depthAfter 1 cs + cs.count ')' = 1 + cs.count '(' := hd
  have hcount := h.2
  exact ⟨hu, by omega⟩

end FusionInspect.FusionPath
