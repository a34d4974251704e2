import FusionInspect.Display.Drawing
import Mathlib.Data.List.TakeWhile

/-!
# What a tree is labelled with

The labels of a tree are told here by rules, without the functions that draw them. A mapping is labelled by
its key, a scalar by its key and its value, and a wrapper as the branch of its three entries
(`LabelForest`). How the value of a scalar is written is a rule for each kind of scalar (`Formatted`).

Every scalar is written in one way and every branch has one forest of labels. They are the ones that are
drawn (`formatted_iff`, `labelForest_iff`).
-/

namespace FusionInspect.Drawing

/-! ## Values -/

/-- The text is an expression: it begins with a dollar sign and a brace. -/
def IsExpression (text : String) : Prop :=
  ∃ rest, text = "$\x7b" ++ rest

/-- The text is the marker of a prototype: a name in parentheses, and behind it a question mark if the
prototype is not known. A name has word characters, dots, colons and hyphens, at least one of them. -/
def IsMarker (text : String) : Prop :=
  ∃ name : List Char, name ≠ [] ∧ (∀ c ∈ name, Text.isWord c = true ∨ c = '.' ∨ c = ':' ∨ c = '-') ∧
    (text.toList = "prototype(".toList ++ name ++ ")".toList ∨
      text.toList = "prototype(".toList ++ name ++ ") (?)".toList)

/-- The number is zero, of whatever sign. -/
def IsZero : Number → Prop
  | .integer n => n = 0
  | .float x => (x == 0) = true

/-- How the value of a scalar is written in a label. Zero and the texts that stand for nothing have a
placeholder, expressions and markers stand as they are, and all other texts are in quotes. -/
inductive Formatted : Scalar → String → Prop
  | null : Formatted .null "null"
  | yes : Formatted (.bool true) "true"
  | no : Formatted (.bool false) "false"
  | zero {n : Number} : IsZero n → Formatted (.number n) "<empty>"
  | number {n : Number} : ¬ IsZero n → Formatted (.number n) n.text
  | nothing {text : String} : text = "" ∨ text = "0" → Formatted (.text text) "<empty>"
  | bare {text : String} : IsExpression text ∨ IsMarker text → Formatted (.text text) text
  | quoted {text : String} : text ≠ "" → text ≠ "0" → ¬ IsExpression text → ¬ IsMarker text →
      Formatted (.text text) ("\"" ++ text ++ "\"")

/-- The labels of a branch, in the order of its entries and each with the labels below it. -/
inductive LabelForest : Branch → List Labelled → Prop
  | nil : LabelForest [] []
  | scalar {key text : String} {s : Scalar} {rest : Branch} {ts : List Labelled} :
      Formatted s text → LabelForest rest ts →
      LabelForest ((key, .scalar s) :: rest) (.node (key ++ " => " ++ text) [] :: ts)
  | wrapper {key : String} {w : Wrapper} {rest : Branch} {below ts : List Labelled} :
      LabelForest w.toBranch below → LabelForest rest ts →
      LabelForest ((key, .wrapper w) :: rest) (.node key below :: ts)
  | branch {key : String} {b rest : Branch} {below ts : List Labelled} :
      LabelForest b below → LabelForest rest ts →
      LabelForest ((key, .branch b) :: rest) (.node key below :: ts)

/-- The test for an expression finds the texts that are expressions, and no others. -/
theorem isExpression_iff (text : String) : isExpression text = true ↔ IsExpression text := by
  rw [isExpression, List.isPrefixOf_iff_prefix]
  constructor
  · rintro ⟨rest, hrest⟩
    refine ⟨String.ofList rest, String.toList_inj.mp ?_⟩
    rw [String.toList_append, ← hrest, String.toList_ofList (l := rest)]
    rfl
  · rintro ⟨rest, rfl⟩
    rw [String.toList_append]
    exact List.prefix_append _ _

theorem isNamePart_iff (c : Char) :
    Text.isNamePart c = true ↔ Text.isWord c = true ∨ c = '.' ∨ c = ':' ∨ c = '-' := by
  simp [Text.isNamePart, or_assoc]

/-- What follows a name is what is left when the name is taken off, if it begins with a parenthesis. -/
theorem span_name {name : List Char} (hname : ∀ c ∈ name, Text.isNamePart c = true) (rest : List Char) :
    (name ++ ')' :: rest).takeWhile Text.isNamePart = name ∧
      (name ++ ')' :: rest).dropWhile Text.isNamePart = ')' :: rest := by
  have hstop : Text.isNamePart ')' = false := by decide
  rw [List.takeWhile_append_of_pos hname, List.dropWhile_append_of_pos hname]
  simp [hstop]

/-- The test for a marker finds the texts that are markers, and no others. -/
theorem isPrototypeMark_iff (text : String) : isPrototypeMark text = true ↔ IsMarker text := by
  unfold isPrototypeMark
  rw [List.splitAt_eq, ← String.length_toList]
  simp only [Bool.and_eq_true, beq_iff_eq, Bool.or_eq_true, Bool.not_eq_true', List.isEmpty_eq_false_iff]
  constructor
  · rintro ⟨⟨hlead, hne⟩, hrest⟩
    -- the text is put together again from the parts that the test has looked at
    have htext : text.toList = "prototype(".toList ++
        (text.toList.drop "prototype(".toList.length).takeWhile Text.isNamePart ++
        (text.toList.drop "prototype(".toList.length).dropWhile Text.isNamePart := by
      rw [List.append_assoc, List.takeWhile_append_dropWhile]
      calc text.toList
        _ = text.toList.take "prototype(".toList.length ++ text.toList.drop "prototype(".toList.length :=
          (List.take_append_drop _ _).symm
        _ = "prototype(".toList ++ text.toList.drop "prototype(".toList.length := by rw [hlead]
    refine ⟨_, hne, fun c hc => (isNamePart_iff c).mp (List.mem_takeWhile_imp hc), ?_⟩
    rcases hrest with hrest | hrest
    · rw [hrest] at htext
      exact .inl htext
    · rw [hrest] at htext
      exact .inr htext
  · rintro ⟨name, hne, hname, htext⟩
    -- a parenthesis is no part of a name, so the test takes the name off as it is
    have hname : ∀ c ∈ name, Text.isNamePart c = true := fun c hc => (isNamePart_iff c).mpr (hname c hc)
    rcases htext with htext | htext
    · obtain ⟨htake, hdrop⟩ := span_name hname []
      rw [htext, List.append_assoc, List.take_left, List.drop_left]
      exact ⟨⟨rfl, ne_of_eq_of_ne htake hne⟩, .inl hdrop⟩
    · obtain ⟨htake, hdrop⟩ := span_name hname " (?)".toList
      rw [htext, List.append_assoc, List.take_left, List.drop_left]
      exact ⟨⟨rfl, ne_of_eq_of_ne htake hne⟩, .inr hdrop⟩

/-- The numbers that count as empty are the zeros. -/
theorem isEmpty_number_iff (n : Number) : (Scalar.number n).isEmpty = true ↔ IsZero n := by
  cases n with
  | integer n => exact beq_iff_eq
  | float x => rfl

theorem isEmpty_text_iff (text : String) : (Scalar.text text).isEmpty = true ↔ text = "" ∨ text = "0" := by
  simp [Scalar.isEmpty]

theorem standsBare_iff (text : String) :
    (isExpression text || isPrototypeMark text) = true ↔ IsExpression text ∨ IsMarker text := by
  rw [Bool.or_eq_true, isExpression_iff, isPrototypeMark_iff]

/-- Expressions and markers are not among the texts that stand for nothing. -/
theorem isEmpty_of_bare {text : String} (h : IsExpression text ∨ IsMarker text) :
    (Scalar.text text).isEmpty = false := by
  -- the first character tells
  have hhead : text.toList.head? = some '$' ∨ text.toList.head? = some 'p' := by
    rcases h with ⟨rest, rfl⟩ | ⟨name, -, -, htext | htext⟩
    · exact .inl (by rw [String.toList_append]; rfl)
    · exact .inr (by rw [htext]; rfl)
    · exact .inr (by rw [htext]; rfl)
  rw [Bool.eq_false_iff, ne_eq, isEmpty_text_iff]
  rintro (rfl | rfl)
  · simp at hhead
  · simp at hhead

/-- A scalar is written in one way, and that is how it is drawn. -/
theorem formatted_iff {s : Scalar} {text : String} : Formatted s text ↔ text = scalarText s := by
  constructor
  · intro h
    cases h with
    | null => rfl
    | yes => rfl
    | no => rfl
    | zero h => rw [scalarText, if_pos ((isEmpty_number_iff _).mpr h)]; rfl
    | number h => rw [scalarText, if_neg (mt (isEmpty_number_iff _).mp h)]
    | nothing h => rw [scalarText, if_pos ((isEmpty_text_iff _).mpr h)]; rfl
    | bare h =>
      rw [scalarText, isEmpty_of_bare h, if_neg Bool.false_ne_true, if_pos ((standsBare_iff _).mpr h)]
    | quoted hempty hzero hexpression hmarker =>
      have hsome := mt (isEmpty_text_iff _).mp (not_or.mpr ⟨hempty, hzero⟩)
      have hquoted := mt (standsBare_iff _).mp (not_or.mpr ⟨hexpression, hmarker⟩)
      rw [scalarText, if_neg hsome, if_neg hquoted]
  · rintro rfl
    cases s with
    | null => exact .null
    | bool b => cases b with
      | true => exact .yes
      | false => exact .no
    | number n =>
      rw [scalarText]
      split
      · next h => exact .zero ((isEmpty_number_iff n).mp h)
      · next h => exact .number (mt (isEmpty_number_iff n).mpr h)
    | text text =>
      rw [scalarText]
      split
      · next h => exact .nothing ((isEmpty_text_iff text).mp h)
      · next h =>
        obtain ⟨hempty, hzero⟩ := not_or.mp (mt (isEmpty_text_iff text).mpr h)
        split
        · next hbare => exact .bare ((standsBare_iff text).mp hbare)
        · next hbare =>
          obtain ⟨hexpression, hmarker⟩ := not_or.mp (mt (standsBare_iff text).mpr hbare)
          exact .quoted hempty hzero hexpression hmarker

/-! ## Labels -/

/-- A wrapper is labelled as the branch of its slots. -/
theorem labelled_wrapper (key : String) (w : Wrapper) :
    labelled key (.wrapper w) = labelled key (.branch w.toBranch) := by
  rw [labelled, labelled, Wrapper.toBranch]
  congr 1
  induction w.order with
  | nil => rw [List.map_nil, List.map_nil, forest]
  | cons s rest ih => rw [List.map_cons, List.map_cons, forest, labelled, ih]

/-- A branch has no other labels than those that are drawn. -/
theorem LabelForest.eq_forest {b : Branch} {ts : List Labelled} (h : LabelForest b ts) : ts = forest b := by
  induction h with
  | nil => rw [forest]
  | scalar hs _ ih => rw [forest, labelled, scalarLabel, formatted_iff.mp hs, ih]
  | wrapper _ _ ihw ih => rw [forest, labelled_wrapper, labelled, ihw, ih]
  | branch _ _ ihb ih => rw [forest, labelled, ihb, ih]

/-- Entries that are all scalars are labelled one by one. -/
theorem labelForest_scalars {b : Branch} (h : ∀ e ∈ b, ∃ s, e.2 = .scalar s) : LabelForest b (forest b) := by
  induction b with
  | nil =>
    rw [forest]
    exact .nil
  | cons e rest ih =>
    obtain ⟨⟨s, hs⟩, hrest⟩ := List.forall_mem_cons.mp h
    obtain ⟨key, n⟩ := e
    cases hs
    rw [forest, labelled]
    exact .scalar (formatted_iff.mpr rfl) (ih hrest)

mutual

/-- What is drawn of an entry, in front of labels of its siblings. -/
theorem labelForest_cons (key : String) {rest : Branch} {ts : List Labelled} (hrest : LabelForest rest ts) :
    ∀ n : Node, LabelForest ((key, n) :: rest) (labelled key n :: ts)
  | .scalar s => by
    rw [labelled]
    exact .scalar (formatted_iff.mpr rfl) hrest
  | .wrapper w => by
    rw [labelled_wrapper, labelled]
    refine .wrapper (labelForest_scalars fun e he => ?_) hrest
    obtain ⟨s, -, rfl⟩ := List.mem_map.mp he
    exact ⟨_, rfl⟩
  | .branch b => by
    rw [labelled]
    exact .branch (labelForest_forest b) hrest

/-- What is drawn of a branch are its labels. -/
theorem labelForest_forest (b : Branch) : LabelForest b (forest b) := by
  cases b with
  | nil =>
    rw [forest]
    exact .nil
  | cons e rest =>
    obtain ⟨key, n⟩ := e
    rw [forest]
    exact labelForest_cons key (labelForest_forest rest) n

end

/-- Every branch has one forest of labels, and it is the one that is drawn. -/
theorem labelForest_iff {b : Branch} {ts : List Labelled} : LabelForest b ts ↔ ts = forest b :=
  ⟨LabelForest.eq_forest, fun h => h ▸ labelForest_forest b⟩

end FusionInspect.Drawing
