import FusionInspect.Report.Output

/-!
# What a buffer receives

A buffer that receives events keeps their lines in order, sums up the steps of progress, and remembers
the last total and whether there was an end. Hence all that it holds in the end is a function of the
events, part by part (`Buffer.foldl_receive`).
-/

namespace FusionInspect

namespace Event

/-- The number of steps that an event announces, if it starts a progress. -/
def total? : Event → Option Nat
  | .progressStart total => some total
  | _ => none

/-- The lines of some events at a level. -/
def textsAt (level : Level) (events : List Event) : List String :=
  ((events.filterMap Event.line?).filter fun e => e.1 = level).map Prod.snd

theorem textsAt_nil (level : Level) : textsAt level [] = [] := rfl

theorem textsAt_append (level : Level) (first second : List Event) :
    textsAt level (first ++ second) = textsAt level first ++ textsAt level second := by
  simp [textsAt]

theorem textsAt_cons_line (level other : Level) (text : String) (events : List Event) :
    textsAt level (.line other text :: events) =
      if other = level then text :: textsAt level events else textsAt level events := by
  by_cases h : other = level <;> simp [textsAt, Event.line?, h]

/-- Lines of one level are all of its texts, and none of another. -/
theorem textsAt_lines (level other : Level) (texts : List String) :
    textsAt level (texts.map (Event.line other)) = if other = level then texts else [] := by
  induction texts with
  | nil => split <;> rfl
  | cons text rest ih =>
    rw [List.map_cons, textsAt_cons_line, ih]
    split <;> rfl

/-- Events that are all lines start no progress, make no step of one and end none. -/
theorem progress_of_lines {events : List Event} (h : ∀ e ∈ events, e.line?.isSome) :
    events.filterMap Event.total? = [] ∧ events.count .progressAdvance = 0 ∧
      .progressFinish ∉ events := by
  refine ⟨List.filterMap_eq_nil_iff.mpr fun e he => ?_, List.count_eq_zero.mpr fun hmem => ?_,
    fun hmem => ?_⟩
  · have hline := h e he
    cases e <;> first | rfl | cases hline
  · cases h _ hmem
  · cases h _ hmem

end Event

namespace Buffer

/-- The lines at a level, in order. -/
def linesAt (level : Level) (b : Buffer) : List String :=
  (b.entries.filter fun e => e.1 = level).map Prod.snd

/-- All that becomes of a buffer which receives some events. -/
theorem foldl_receive (events : List Event) (b : Buffer) :
    events.foldl receive b =
      ⟨b.entries ++ events.filterMap Event.line?, (events.filterMap Event.total?).getLast?.or b.total,
        b.steps + events.count .progressAdvance, b.finished || decide (.progressFinish ∈ events)⟩ := by
  induction events generalizing b with
  | nil => simp
  | cons e events ih =>
    rw [List.foldl_cons, ih]
    cases e with
    | line level text => simp [receive, Event.line?, Event.total?]
    | progressStart total =>
      simp only [receive, List.filterMap_cons, Event.line?, Event.total?, List.getLast?_cons]
      cases (events.filterMap Event.total?).getLast? <;> simp
    | progressAdvance =>
      simp [receive, List.filterMap_cons, Event.line?, Event.total?, Nat.add_assoc, Nat.add_comm 1]
    | progressFinish => simp [receive, List.filterMap_cons, Event.line?, Event.total?]

/-- A buffer has the lines of a level that the events have. -/
theorem linesAt_ofEvents (level : Level) (events : List Event) :
    (ofEvents events).linesAt level = Event.textsAt level events := by
  rw [ofEvents, foldl_receive]
  rfl

/-- A buffer receives lines in order, each at its level. -/
theorem entries_ofEvents_lines (lines : List (Level × String)) :
    (ofEvents (lines.map fun l => .line l.1 l.2)).entries = lines := by
  rw [ofEvents, foldl_receive, List.filterMap_map]
  exact List.filterMap_some

end Buffer

end FusionInspect
