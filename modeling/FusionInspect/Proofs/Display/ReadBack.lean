import FusionInspect.Proofs.Display.Labels

/-!
# Reading a drawing back

A drawing determines the labels it was made from, whatever they are. Each line of a forest starts with a
connector or with a guide, both four characters wide, and no connector starts as a guide does. So the lines
below an entry are those that follow it up to the next connector. Cutting off the four characters in front of
them gives the drawing of the forest below the entry, where the same holds again: what a label looks like is
never asked, so no label can be taken for a guide.
-/

namespace FusionInspect

/-! ## Entries at all depths -/

mutual
/-- The number of entries in the node, at all depths. A wrapper has an entry for each of its slots. -/
def Node.entryCount : Node → Nat
  | .scalar _ => 0
  | .wrapper w => w.toBranch.length
  | .branch b => Branch.entryCount b
/-- The number of entries of the branch, at all depths. -/
def Branch.entryCount : Branch → Nat
  | [] => 0
  | (_, n) :: rest => 1 + n.entryCount + Branch.entryCount rest
end

namespace Drawing

/-- Entries with nothing below them have a line each. -/
theorem length_forestLines_of_leaves : ∀ {ts : List Labelled},
    (∀ t ∈ ts, ∃ label, t = .node label []) → (forestLines ts).length = ts.length
  | [], _ => by rw [forestLines]; rfl
  | t :: rest, h => by
    obtain ⟨⟨label, rfl⟩, hrest⟩ := List.forall_mem_cons.mp h
    rw [forestLines, treeLines, forestLines, List.length_append, length_forestLines_of_leaves hrest]
    exact Nat.add_comm _ _

mutual

/-- An entry has a line of its own and one for each entry below it. -/
theorem length_treeLines (last : Bool) (key : String) : ∀ n : Node,
    (treeLines last (labelled key n)).length = 1 + n.entryCount
  | .scalar s => by
    rw [labelled, treeLines, forestLines, Node.entryCount]
    rfl
  | .wrapper w => by
    rw [labelled, treeLines, Node.entryCount, List.length_cons, List.length_map,
      length_forestLines_of_leaves, List.length_map, Wrapper.toBranch, List.length_map, Nat.add_comm]
    intro t ht
    obtain ⟨s, _, rfl⟩ := List.mem_map.mp ht
    exact ⟨_, rfl⟩
  | .branch b => by
    rw [labelled, treeLines, Node.entryCount, List.length_cons, List.length_map, length_forestLines b,
      Nat.add_comm]

/-- A forest has a line for each entry, at every depth. -/
theorem length_forestLines (b : Branch) : (forestLines (forest b)).length = b.entryCount := by
  cases b with
  | nil =>
    rw [forest, forestLines, Branch.entryCount]
    rfl
  | cons e rest =>
    obtain ⟨key, n⟩ := e
    rw [forest, forestLines, Branch.entryCount, List.length_append, length_treeLines,
      length_forestLines rest]

end

/-! ## Reading -/

/-- Whether a line belongs to an entry above it, as its first character tells. -/
def isBelow (line : String) : Bool :=
  line.toList.head? == some '│' || line.toList.head? == some ' '

/-- A line without the connector or the guide in front of it. -/
def unguided (line : String) : String :=
  String.ofList (line.toList.drop 4)

/-- The labels that some lines were drawn from. -/
def readForest : List String → List Labelled
  | [] => []
  | line :: rest =>
    .node (unguided line) (readForest ((rest.takeWhile isBelow).map unguided)) ::
      readForest (rest.dropWhile isBelow)
termination_by lines => lines.length
decreasing_by
  · rw [List.length_map, List.length_cons]
    exact Nat.lt_succ_of_le (List.takeWhile_sublist _).length_le
  · exact Nat.lt_succ_of_le (List.dropWhile_sublist _).length_le

section

variable (last : Bool) (text : String)

theorem isBelow_guide : isBelow (guide last ++ text) = true := by
  cases last <;> simp [isBelow, guide]

theorem isBelow_connector : isBelow (connector last ++ text) = false := by
  cases last <;> simp [isBelow, connector]

theorem unguided_guide : unguided (guide last ++ text) = text := by
  cases last <;> simp [unguided, guide]

theorem unguided_connector : unguided (connector last ++ text) = text := by
  cases last <;> simp [unguided, connector]

end

/-- The first line of a forest belongs to an entry, and to nothing below one. -/
theorem isBelow_head?_forestLines (ts : List Labelled) : ∀ line ∈ (forestLines ts).head?,
    isBelow line = false := by
  intro line hline
  cases ts with
  | nil =>
    rw [forestLines] at hline
    cases hline
  | cons t rest =>
    obtain ⟨label, children⟩ := t
    rw [forestLines, treeLines, List.cons_append, List.head?_cons, Option.mem_some_iff] at hline
    rw [← hline]
    exact isBelow_connector _ _

/-- The lines below an entry end where the drawing of its next sibling starts. -/
theorem span_isBelow (last : Bool) (lines : List String) (ts : List Labelled) :
    ((lines.map (guide last ++ ·) ++ forestLines ts).takeWhile isBelow = lines.map (guide last ++ ·)) ∧
    (lines.map (guide last ++ ·) ++ forestLines ts).dropWhile isBelow = forestLines ts := by
  have hbelow : ∀ line ∈ lines.map (guide last ++ ·), isBelow line = true := by
    intro line hline
    obtain ⟨text, _, rfl⟩ := List.mem_map.mp hline
    exact isBelow_guide last text
  rw [List.takeWhile_append_of_pos hbelow, List.dropWhile_append_of_pos hbelow]
  cases hts : forestLines ts with
  | nil => simp
  | cons line rest =>
    have hline : isBelow line = false := isBelow_head?_forestLines ts line (by rw [hts]; rfl)
    simp [hline]

/-- **Every forest is read back from its drawing.** -/
theorem readForest_forestLines : ∀ ts : List Labelled, readForest (forestLines ts) = ts
  | [] => by rw [forestLines, readForest]
  | .node label children :: rest => by
    obtain ⟨htake, hdrop⟩ := span_isBelow rest.isEmpty (forestLines children) rest
    have hchildren : ((forestLines children).map (guide rest.isEmpty ++ ·)).map unguided =
        forestLines children := by
      rw [List.map_map]
      exact (List.map_congr_left fun text _ => unguided_guide _ text).trans (List.map_id _)
    rw [forestLines, treeLines, List.cons_append, readForest, htake, hdrop, hchildren, unguided_connector,
      readForest_forestLines children, readForest_forestLines rest]

/-- **Drawings are faithful.** A branch has one forest of labels, and it is read back from the drawing: a
mapping is labelled by its key, a scalar by its key and its formatted value, and a wrapper counts as the
branch of its three entries. Two drawings are the same exactly if their root labels are and the forests of
their branches. A drawing has one line for its root and one for each entry, at whatever depth. -/
theorem lines_faithful (root root' : String) (b b' : Branch) :
    (lines root b = lines root' b' ↔ root = root' ∧ ∃ ts, LabelForest b ts ∧ LabelForest b' ts) ∧
    (∀ ts, LabelForest b ts ↔ readForest (lines root b).tail = ts) ∧
    (lines root b).length = b.entryCount + 1 := by
  have hread : ∀ root b, readForest (lines root b).tail = forest b := fun _ b => readForest_forestLines _
  refine ⟨⟨fun h => ?_, fun ⟨hroot, ts, hts, hts'⟩ => ?_⟩, fun ts => ?_, ?_⟩
  · have hforest : forest b = forest b' := by rw [← hread root b, h, hread]
    exact ⟨(List.cons.inj h).1, forest b, labelForest_forest b, labelForest_iff.mpr hforest⟩
  · rw [lines, lines, hroot, ← hts.eq_forest, ← hts'.eq_forest]
  · rw [hread, labelForest_iff, eq_comm]
  · rw [lines, List.length_cons, length_forestLines]

end Drawing

end FusionInspect
