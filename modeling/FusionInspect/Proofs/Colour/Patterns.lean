import FusionInspect.Display.Colour
import Mathlib.Data.List.TakeWhile

/-!
# What the colour rules match

One lemma for each part of a pattern and for each rule: what a match at the start of a text looks like.
Later proofs cite these and never open a rule.

Two rules are WIDE: an expression and a quoted text run to the last mark on their line, over whatever stands
between. The others are NARROW. They match text of few kinds of characters, and look no further than a
character that is not among them (`Narrow.stops`).
-/

namespace FusionInspect.Colour

/-! ## Parts of patterns -/

/-- A run of characters that pass a test, at least one. -/
def IsRun (test : Char → Bool) (run : List Char) : Prop :=
  run ≠ [] ∧ ∀ c ∈ run, test c = true

/-- On the line that the text starts on, the mark does not occur. -/
def NoneOnLine (mark : Char) (text : List Char) : Prop :=
  ∀ front back, text = front ++ mark :: back → '\n' ∈ front

section

variable {ms cs rest run text w v : List Char} {test : Char → Bool} {mark s : Char}

/-- What follows a fixed text is what is left without it. -/
theorem after?_eq_some : after? ms cs = some rest ↔ cs = ms ++ rest := by
  induction ms generalizing cs with
  | nil =>
    rw [after?, Option.some.injEq]
    rfl
  | cons m ms ih =>
    cases cs with
    | nil => simp [after?]
    | cons c cs =>
      rw [after?, List.cons_append, List.cons.injEq]
      by_cases hc : c = m
      · rw [if_pos (beq_iff_eq.mpr hc), ih]
        simp [hc]
      · rw [if_neg (by simpa using hc)]
        simp [hc]

/-- A run is as long as it can be. -/
theorem run?_eq_some : run? test cs = some (run, rest) ↔
    cs = run ++ rest ∧ IsRun test run ∧ ∀ c ∈ rest.head?, test c = false := by
  rw [run?, IsRun]
  constructor
  · intro h
    split at h
    · cases h
    · next hrun =>
      obtain ⟨rfl, rfl⟩ := Prod.mk.inj (Option.some.inj h)
      refine ⟨List.takeWhile_append_dropWhile.symm, ⟨by simpa using hrun, ?_⟩, ?_⟩
      · exact fun c hc => List.mem_takeWhile_imp hc
      · intro c hc
        have hnot := List.head?_dropWhile_not test cs
        rw [hc] at hnot
        exact hnot
  · rintro ⟨rfl, ⟨hne, hall⟩, hstop⟩
    have htake : rest.takeWhile test = [] ∧ rest.dropWhile test = rest := by
      cases rest with
      | nil => exact ⟨rfl, rfl⟩
      | cons c cs => simp [hstop c rfl]
    rw [List.takeWhile_append_of_pos hall, List.dropWhile_append_of_pos hall, htake.1, htake.2,
      List.append_nil, if_neg (by simpa using hne)]

/-- A character other than the mark and the line break does not matter. -/
theorem noneOnLine_cons {c : Char} (hc : c ≠ mark) (hline : c ≠ '\n') :
    NoneOnLine mark (c :: cs) ↔ NoneOnLine mark cs := by
  constructor
  · intro h front back hsplit
    have hmem := h (c :: front) back (by rw [hsplit]; rfl)
    exact (List.mem_cons.mp hmem).resolve_left fun heq => hline heq.symm
  · intro h front back hsplit
    cases front with
    | nil => exact absurd (List.cons.inj hsplit).1 hc
    | cons d front =>
      exact List.mem_cons_of_mem _ (h front back (List.cons.inj hsplit).2)

/-- Behind the end of the line nothing matters. -/
theorem noneOnLine_newline (hmark : mark ≠ '\n') : NoneOnLine mark ('\n' :: cs) := by
  intro front back hsplit
  cases front with
  | nil => exact absurd (List.cons.inj hsplit).1.symm hmark
  | cons c front => rw [(List.cons.inj hsplit).1]; exact List.mem_cons_self

theorem not_noneOnLine_mark : ¬NoneOnLine mark (mark :: cs) :=
  fun h => List.not_mem_nil (h [] cs rfl)

/-- There is no last mark exactly if there is none on the line. -/
theorem throughLast_eq_none (hmark : mark ≠ '\n') : throughLast mark cs = none ↔ NoneOnLine mark cs := by
  induction cs with
  | nil => exact iff_of_true rfl fun front back h => by simp at h
  | cons c cs ih =>
    rw [throughLast]
    by_cases hline : c = '\n'
    · subst hline
      exact iff_of_true rfl (noneOnLine_newline hmark)
    · rw [if_neg (by simpa using hline)]
      cases hcs : throughLast mark cs with
      | none =>
        by_cases hc : c = mark
        · subst hc
          simp [not_noneOnLine_mark]
        · simp [hc, noneOnLine_cons hc hline, ← ih, hcs]
      | some found =>
        refine iff_of_false (by simp) fun h => ?_
        by_cases hc : c = mark
        · exact not_noneOnLine_mark (hc ▸ h)
        · rw [noneOnLine_cons hc hline, ← ih, hcs] at h
          cases h

/-- The last mark is found behind any text on its line, as long as no mark follows on it. -/
theorem throughLast_append (hmark : mark ≠ '\n') (hbody : '\n' ∉ text) (hrest : NoneOnLine mark rest) :
    throughLast mark (text ++ mark :: rest) = some (text ++ [mark], rest) := by
  induction text with
  | nil => simp [throughLast, hmark, (throughLast_eq_none hmark).mpr hrest]
  | cons c text ih =>
    obtain ⟨hc, htext⟩ := not_or.mp (mt List.mem_cons.mpr hbody)
    simp [throughLast, Ne.symm hc, ih htext]

/-- What is found up to the last mark ends with it, has no line break in it, and is followed by no mark on
its line. -/
theorem exists_of_throughLast (hmark : mark ≠ '\n') (h : throughLast mark cs = some (text, rest)) :
    ∃ body, text = body ++ [mark] ∧ cs = body ++ mark :: rest ∧ '\n' ∉ body ∧ NoneOnLine mark rest := by
  induction cs generalizing text with
  | nil => cases h
  | cons c cs ih =>
    rw [throughLast] at h
    split at h
    · cases h
    · next hline =>
      split at h
      · next found rest' hcs =>
        obtain ⟨rfl, rfl⟩ := Prod.mk.inj (Option.some.inj h)
        obtain ⟨body, rfl, rfl, hbody, hrest⟩ := ih hcs
        have hc : '\n' ≠ c := fun heq => hline (beq_iff_eq.mpr heq.symm)
        exact ⟨c :: body, rfl, rfl, List.not_mem_cons_of_ne_of_not_mem hc hbody, hrest⟩
      · next hcs =>
        split at h
        · next hc =>
          obtain ⟨rfl, rfl⟩ := Prod.mk.inj (Option.some.inj h)
          have hmark' : c = mark := beq_iff_eq.mp hc
          exact ⟨[], by rw [hmark']; rfl, by rw [hmark']; rfl, List.not_mem_nil,
            (throughLast_eq_none hmark).mp hcs⟩
        · cases h

/-- The same with at least one character in front of the mark. -/
theorem enclosed?_eq_some (hmark : mark ≠ '\n') : enclosed? mark cs = some (text, rest) ↔
    ∃ body, text = body ++ [mark] ∧ cs = body ++ mark :: rest ∧ body ≠ [] ∧ '\n' ∉ body ∧
      NoneOnLine mark rest := by
  constructor
  · intro h
    cases cs with
    | nil => cases h
    | cons c cs =>
      rw [enclosed?] at h
      split at h
      · cases h
      · next hline =>
        obtain ⟨⟨found, rest'⟩, hfound, heq⟩ := Option.map_eq_some_iff.mp h
        obtain ⟨rfl, rfl⟩ := Prod.mk.inj heq
        obtain ⟨body, rfl, rfl, hbody, hrest⟩ := exists_of_throughLast hmark hfound
        have hc : '\n' ≠ c := fun heq => hline (beq_iff_eq.mpr heq.symm)
        exact ⟨c :: body, rfl, rfl, List.cons_ne_nil _ _, List.not_mem_cons_of_ne_of_not_mem hc hbody,
          hrest⟩
  · rintro ⟨body, rfl, rfl, hne, hbody, hrest⟩
    cases body with
    | nil => exact absurd rfl hne
    | cons c body =>
      obtain ⟨hc, hbody⟩ := not_or.mp (mt List.mem_cons.mpr hbody)
      simp [enclosed?, Ne.symm hc, throughLast_append hmark hbody hrest]

end

/-! ## Rules -/

section

variable {cs : List Char} {m : Match}

/-- A meta property is an `@` and a name, painted as a whole. -/
theorem metaRule_eq_some (h : metaRule cs = some m) :
    ∃ name rest, cs = '@' :: name ++ rest ∧ IsRun Text.isNamePart name ∧ m = .of .red [] ('@' :: name) := by
  simp only [metaRule, Option.bind_eq_bind, Option.bind_eq_some_iff, Option.pure_def,
    Option.some.injEq] at h
  obtain ⟨text, hafter, ⟨name, rest⟩, hrun, rfl⟩ := h
  obtain ⟨rfl, hname, -⟩ := run?_eq_some.mp hrun
  rw [after?_eq_some] at hafter
  exact ⟨name, rest, hafter, hname, rfl⟩

/-- The type of an object is painted behind its key, unless it starts like a missing one. -/
theorem objectTypeRule_eq_some (h : objectTypeRule cs = some m) :
    ∃ name rest, cs = objectTypeLead ++ name ++ rest ∧ IsRun isTypePart name ∧
      (m = ⟨objectTypeLead ++ name, none⟩ ∨ m = .of .highlight objectTypeLead name) := by
  simp only [objectTypeRule, Option.bind_eq_bind, Option.bind_eq_some_iff, Option.pure_def] at h
  obtain ⟨text, hafter, ⟨name, rest⟩, hrun, hm⟩ := h
  obtain ⟨rfl, hname, -⟩ := run?_eq_some.mp hrun
  rw [after?_eq_some, ← List.append_assoc] at hafter
  refine ⟨name, rest, hafter, hname, ?_⟩
  split at hm
  · exact .inl (Option.some.inj hm).symm
  · exact .inr (Option.some.inj hm).symm

/-- What joins a key to a bracketed type. -/
def IsJoint (joint : List Char) : Prop :=
  joint = [' '] ∨ joint = [' ', '=', '>', ' ']

/-- A joint is one of the two. -/
theorem isJoint_of_joint? {joint : List Char} (h : joint? cs = some joint) : IsJoint joint := by
  rw [joint?] at h
  split at h
  · exact .inr (Option.some.inj h).symm
  · split at h
    · exact .inl (Option.some.inj h).symm
    · cases h

/-- Behind a key comes a joint and the name of a type in brackets. -/
theorem keyType?_eq_some {joint type : List Char} (h : keyType? cs = some (joint, type)) :
    ∃ name rest, cs = joint ++ '[' :: name ++ ']' :: rest ∧ IsJoint joint ∧ IsRun isTypePart name ∧
      type = '[' :: name ++ [']'] := by
  simp only [keyType?, Option.bind_eq_bind, Option.bind_eq_some_iff, Option.pure_def,
    Option.some.injEq] at h
  obtain ⟨_, hjoint, text, hafter, ⟨name, rest⟩, hrun, rest', (hclose : after? [']'] rest = _), heq⟩ := h
  obtain ⟨rfl, rfl⟩ := Prod.mk.inj heq
  obtain ⟨rfl, hname, -⟩ := run?_eq_some.mp hrun
  rw [after?_eq_some] at hafter hclose
  exact ⟨name, rest', by rw [hafter, hclose]; simp, isJoint_of_joint? hjoint, hname, rfl⟩

/-- A key is taken as a whole, and a type behind it is painted. -/
theorem typedKeyRule_eq_some : typedKeyRule cs = some m ↔
    ∃ key rest, cs = key ++ rest ∧ IsRun isKeyPart key ∧ (∀ c ∈ rest.head?, isKeyPart c = false) ∧
      (keyType? rest = none ∧ m = ⟨key, none⟩ ∨
        ∃ joint type, keyType? rest = some (joint, type) ∧ m = .of .highlight (key ++ joint) type) := by
  simp only [typedKeyRule, Option.bind_eq_bind, Option.bind_eq_some_iff, Option.pure_def, Prod.exists,
    run?_eq_some]
  refine exists₂_congr fun key rest => ?_
  rw [and_assoc, and_assoc]
  refine and_congr_right fun _ => and_congr_right fun _ => and_congr_right fun _ => ?_
  cases keyType? rest with
  | none => simp [eq_comm]
  | some found =>
    constructor
    · exact fun h => .inr ⟨found.1, found.2, rfl, (Option.some.inj h).symm⟩
    · rintro (⟨h, -⟩ | ⟨joint, type, h, rfl⟩)
      · cases h
      · rw [Option.some.inj h]

/-- A name is painted behind the end of a connector, with its mark. -/
theorem nameRule_eq_some {style : Style} {mark : List Char} (h : nameRule style mark cs = some m) :
    ∃ name rest, cs = '─' :: ' ' :: mark ++ name ++ rest ∧ IsRun Text.isNamePart name ∧
      m = .of style ['─', ' '] (mark ++ name) := by
  simp only [nameRule, Option.bind_eq_bind, Option.bind_eq_some_iff, Option.pure_def,
    Option.some.injEq] at h
  obtain ⟨text, hlead, text', hmark, ⟨name, rest⟩, hrun, rfl⟩ := h
  obtain ⟨rfl, hname, -⟩ := run?_eq_some.mp hrun
  rw [after?_eq_some] at hlead hmark
  exact ⟨name, rest, by rw [hlead, hmark]; simp, hname, rfl⟩

/-- The mark of an unknown prototype is all that is left of the line. -/
theorem unknownRule_eq_some (h : unknownRule cs = some m) :
    cs = ['(', '?', ')'] ∧ m = .of .alarm [] ['(', '?', ')'] := by
  rw [unknownRule] at h
  split at h
  · next hcs =>
    rw [beq_iff_eq.mp hcs] at h ⊢
    exact ⟨rfl, (Option.some.inj h).symm⟩
  · cases h

/-- A truth value is a blank and one of two words, and nothing is left behind it. -/
theorem boolRule_eq_some (h : boolRule cs = some m) :
    ∃ word, cs = ' ' :: word ∧ (word = ['t', 'r', 'u', 'e'] ∨ word = ['f', 'a', 'l', 's', 'e']) ∧
      m = .of .green [' '] word := by
  unfold boolRule at h
  split at h
  · next word =>
    split at h
    · next hword =>
      rw [Bool.or_eq_true, beq_iff_eq, beq_iff_eq] at hword
      exact ⟨word, rfl, hword, (Option.some.inj h).symm⟩
    · cases h
  · cases h

end

/-- A match of a rule covers a start of the text, which is not empty. -/
def Covers (rule : Rule) : Prop :=
  ∀ ⦃cs m⦄, rule cs = some m → m.covered ≠ [] ∧ ∃ rest, cs = m.covered ++ rest

/-! ## Wide rules -/

/-- A rule that paints from an opening to the last mark on the line, with something between them. -/
structure Wide (rule : Rule) (style : Style) (opening : List Char) (mark : Char) : Prop where
  eq_some : ∀ {cs m}, rule cs = some m ↔
    ∃ body rest, cs = opening ++ (body ++ mark :: rest) ∧ body ≠ [] ∧ '\n' ∉ body ∧ NoneOnLine mark rest ∧
      m = .of style [] (opening ++ (body ++ [mark]))

/-- An expression runs from its opening to the last closing brace on the line. -/
theorem wide_expressionRule : Wide expressionRule .magenta ['$', '\x7b'] '\x7d' where
  eq_some := by
    intro cs m
    simp only [expressionRule, Option.bind_eq_bind, Option.bind_eq_some_iff, Option.pure_def,
      Option.some.injEq, after?_eq_some, Prod.exists, enclosed?_eq_some (show '\x7d' ≠ '\n' by decide)]
    constructor
    · rintro ⟨_, rfl, _, rest, ⟨body, rfl, rfl, hne, hbody, hrest⟩, rfl⟩
      exact ⟨body, rest, rfl, hne, hbody, hrest, rfl⟩
    · rintro ⟨body, rest, rfl, hne, hbody, hrest, rfl⟩
      exact ⟨_, rfl, _, rest, ⟨body, rfl, rfl, hne, hbody, hrest⟩, rfl⟩

/-- A quoted text runs from a quote to the last one on the line. -/
theorem wide_quotedRule : Wide quotedRule .green ['"'] '"' where
  eq_some := by
    intro cs m
    simp only [quotedRule, Option.bind_eq_bind, Option.bind_eq_some_iff, Option.pure_def,
      Option.some.injEq, after?_eq_some, Prod.exists, enclosed?_eq_some (show '"' ≠ '\n' by decide)]
    constructor
    · rintro ⟨_, rfl, _, rest, ⟨body, rfl, rfl, hne, hbody, hrest⟩, rfl⟩
      exact ⟨body, rest, rfl, hne, hbody, hrest, rfl⟩
    · rintro ⟨body, rest, rfl, hne, hbody, hrest, rfl⟩
      exact ⟨_, rfl, _, rest, ⟨body, rfl, rfl, hne, hbody, hrest⟩, rfl⟩

/-! ## Narrow rules -/

/-- The characters that no narrow rule matches: those that the other matches start and end with, and the start of
an escape. -/
def isStop (c : Char) : Bool :=
  c == '\x1b' || c == '"' || c == '$' || c == '\x7b' || c == '\x7d' || c == '('

/-- A rule that matches few kinds of characters. It never looks behind a stop, and what it paints has no blank
in it. -/
structure Narrow (rule : Rule) : Prop where
  covers : Covers rule
  stops : ∀ {s : Char}, isStop s = true → ∀ w v, rule (w ++ s :: v) = rule w
  free : ∀ {cs m}, rule cs = some m → ∀ c ∈ m.covered, isStop c = false
  solid : ∀ {cs m style part}, rule cs = some m → m.painted = some (style, part) →
    part ≠ [] ∧ ' ' ∉ part

/-- A blank leads whatever the rule paints. -/
def Led (rule : Rule) : Prop :=
  ∀ ⦃cs style lead part⦄, rule cs = some (.of style lead part) → ∃ front, lead = front ++ [' ']

section

variable {s : Char} {ms w v : List Char} {test : Char → Bool}

/-- A fixed text is looked for in front of a character that it does not have. -/
theorem after?_stop (hs : s ∉ ms) : after? ms (w ++ s :: v) = (after? ms w).map (· ++ s :: v) := by
  induction ms generalizing w with
  | nil => rfl
  | cons m ms ih =>
    obtain ⟨hm, hms⟩ := not_or.mp (mt List.mem_cons.mpr hs)
    cases w with
    | nil => simp [after?, hm]
    | cons c w =>
      rw [List.cons_append, after?, after?, ih hms]
      split <;> rfl

/-- A run ends in front of a character that does not pass. -/
theorem run?_stop (hs : test s = false) :
    run? test (w ++ s :: v) = (run? test w).map fun r => (r.1, r.2 ++ s :: v) := by
  have hspan : (w ++ s :: v).takeWhile test = w.takeWhile test ∧
      (w ++ s :: v).dropWhile test = w.dropWhile test ++ s :: v := by
    induction w with
    | nil => simp [hs]
    | cons c w ih =>
      cases hc : test c with
      | true => simp [hc, ih]
      | false => simp [hc]
  rw [run?, run?, hspan.1, hspan.2]
  split <;> rfl

theorem isStop_iff {c : Char} :
    isStop c = true ↔ c = '\x1b' ∨ c = '"' ∨ c = '$' ∨ c = '\x7b' ∨ c = '\x7d' ∨ c = '(' := by
  simp [isStop, or_assoc]

theorem not_mem_of_isStop {text : List Char} (hs : isStop s = true) (h : ∀ c ∈ text, isStop c = false) :
    s ∉ text :=
  fun hmem => Bool.false_ne_true ((h s hmem).symm.trans hs)

theorem free_of_any {text : List Char} (h : text.any isStop = false) : ∀ c ∈ text, isStop c = false :=
  fun c hc => Bool.eq_false_iff.mpr (List.any_eq_false.mp h c hc)

theorem isNamePart_of_isStop (hs : isStop s = true) : Text.isNamePart s = false := by
  rcases isStop_iff.mp hs with rfl | rfl | rfl | rfl | rfl | rfl <;> decide

theorem isTypePart_of_isStop (hs : isStop s = true) : isTypePart s = false := by
  rcases isStop_iff.mp hs with rfl | rfl | rfl | rfl | rfl | rfl <;> decide

theorem isKeyPart_of_isStop (hs : isStop s = true) : isKeyPart s = false := by
  rcases isStop_iff.mp hs with rfl | rfl | rfl | rfl | rfl | rfl <;> decide

theorem IsRun.not_mem {run : List Char} (h : IsRun test run) (hs : test s = false) : s ∉ run :=
  fun hmem => Bool.false_ne_true (hs.symm.trans (h.2 s hmem))

theorem IsRun.free {run : List Char} (h : IsRun test run)
    (hstop : ∀ {s}, isStop s = true → test s = false) : ∀ c ∈ run, isStop c = false :=
  fun _ hc => Bool.eq_false_iff.mpr fun hs => h.not_mem (hstop hs) hc

end

theorem Match.painted_of {style style' : Style} {lead part part' : List Char}
    (h : (Match.of style lead part).painted = some (style', part')) : part' = part :=
  (Prod.mk.inj (Option.some.inj h)).2.symm

theorem IsJoint.free {joint : List Char} (h : IsJoint joint) : ∀ c ∈ joint, isStop c = false := by
  rcases h with rfl | rfl
  · exact free_of_any rfl
  · exact free_of_any rfl

/-- The rule for meta properties is narrow: no name has a stop in it. -/
theorem narrow_metaRule : Narrow metaRule where
  covers _ _ h := by
    obtain ⟨name, rest, rfl, -, rfl⟩ := metaRule_eq_some h
    exact ⟨List.cons_ne_nil _ _, rest, rfl⟩
  stops hs w v := by
    unfold metaRule
    rw [after?_stop (not_mem_of_isStop hs (free_of_any rfl))]
    cases after? ['@'] w with
    | none => rfl
    | some rest =>
      simp only [Option.map_some, Option.bind_eq_bind, Option.bind_some,
        run?_stop (isNamePart_of_isStop hs)]
      cases run? Text.isNamePart rest <;> rfl
  free h := by
    obtain ⟨name, rest, -, hname, rfl⟩ := metaRule_eq_some h
    exact List.forall_mem_cons.mpr ⟨by decide, hname.free isNamePart_of_isStop⟩
  solid h hpart := by
    obtain ⟨name, rest, -, hname, rfl⟩ := metaRule_eq_some h
    rw [Match.painted_of hpart]
    exact ⟨List.cons_ne_nil _ _, List.not_mem_cons_of_ne_of_not_mem (by decide) (hname.not_mem (by decide))⟩

/-- So is the rule for types of objects. -/
theorem narrow_objectTypeRule : Narrow objectTypeRule where
  covers _ _ h := by
    obtain ⟨name, rest, rfl, -, rfl | rfl⟩ := objectTypeRule_eq_some h
    · exact ⟨List.cons_ne_nil _ _, rest, by rw [Match.covered, List.append_nil]⟩
    · exact ⟨List.cons_ne_nil _ _, rest, rfl⟩
  stops hs w v := by
    unfold objectTypeRule
    rw [after?_stop (not_mem_of_isStop hs (free_of_any rfl))]
    cases after? objectTypeLead w with
    | none => rfl
    | some rest =>
      simp only [Option.map_some, Option.bind_eq_bind, Option.bind_some,
        run?_stop (isTypePart_of_isStop hs)]
      cases run? isTypePart rest <;> rfl
  free h := by
    obtain ⟨name, rest, -, hname, hm⟩ := objectTypeRule_eq_some h
    have hfree : ∀ c ∈ objectTypeLead ++ name, isStop c = false :=
      List.forall_mem_append.mpr ⟨free_of_any rfl, hname.free isTypePart_of_isStop⟩
    rcases hm with rfl | rfl
    · rw [Match.covered, List.append_nil]
      exact hfree
    · exact hfree
  solid h hpart := by
    obtain ⟨name, rest, -, hname, rfl | rfl⟩ := objectTypeRule_eq_some h
    · cases hpart
    · rw [Match.painted_of hpart]
      exact ⟨hname.1, hname.not_mem (by decide)⟩

/-- It paints behind the blank of the arrow. -/
theorem led_objectTypeRule : Led objectTypeRule := by
  intro cs style lead part h
  obtain ⟨name, rest, -, -, hof | hof⟩ := objectTypeRule_eq_some h
  · cases congrArg Match.painted hof
  · rw [show lead = objectTypeLead from congrArg Match.lead hof]
    exact ⟨"__objectType =>".toList, rfl⟩

section

variable {s : Char} (hs : isStop s = true) (w v : List Char)

include hs

/-- A joint has no stop in it, so one behind the text does not matter. -/
theorem joint?_stop : joint? (w ++ s :: v) = joint? w := by
  unfold joint?
  rw [after?_stop (not_mem_of_isStop hs (free_of_any rfl)), after?_stop (not_mem_of_isStop hs (free_of_any rfl)),
    Option.isSome_map, Option.isSome_map]

/-- Neither does it to a bracketed type. -/
theorem keyType?_stop : keyType? (w ++ s :: v) = keyType? w := by
  unfold keyType?
  rw [joint?_stop hs]
  cases hjoint : joint? w with
  | none => rfl
  | some joint =>
    have hfree : s ∉ joint ++ ['['] := not_mem_of_isStop hs
      (List.forall_mem_append.mpr ⟨(isJoint_of_joint? hjoint).free, free_of_any rfl⟩)
    simp only [Option.bind_eq_bind, Option.bind_some, after?_stop hfree]
    cases after? (joint ++ ['[']) w with
    | none => rfl
    | some rest =>
      simp only [Option.map_some, Option.bind_some, run?_stop (isTypePart_of_isStop hs)]
      cases run? isTypePart rest with
      | none => rfl
      | some found =>
        have hclose : s ∉ [']'] := not_mem_of_isStop hs (free_of_any rfl)
        simp only [Option.map_some, Option.bind_some, after?_stop hclose]
        cases after? [']'] found.2 <;> rfl

end

/-- The rule for typed keys is narrow. -/
theorem narrow_typedKeyRule : Narrow typedKeyRule where
  covers _ _ h := by
    obtain ⟨key, rest, rfl, hkey, -, ⟨-, rfl⟩ | ⟨joint, type, htype, rfl⟩⟩ := typedKeyRule_eq_some.mp h
    · rw [Match.covered, List.append_nil]
      exact ⟨hkey.1, rest, rfl⟩
    · obtain ⟨name, rest', rfl, -, -, rfl⟩ := keyType?_eq_some htype
      exact ⟨by simp [Match.covered, Match.of], rest', by simp [Match.covered, Match.of]⟩
  stops hs w v := by
    unfold typedKeyRule
    rw [run?_stop (isKeyPart_of_isStop hs)]
    cases run? isKeyPart w with
    | none => rfl
    | some found => simp only [Option.map_some, Option.bind_eq_bind, Option.bind_some, keyType?_stop hs]
  free h := by
    obtain ⟨key, rest, -, hkey, -, ⟨-, rfl⟩ | ⟨joint, type, htype, rfl⟩⟩ := typedKeyRule_eq_some.mp h
    · rw [Match.covered, List.append_nil]
      exact hkey.free isKeyPart_of_isStop
    · obtain ⟨name, rest', -, hjoint, hname, rfl⟩ := keyType?_eq_some htype
      refine List.forall_mem_append.mpr
        ⟨List.forall_mem_append.mpr ⟨hkey.free isKeyPart_of_isStop, hjoint.free⟩, ?_⟩
      exact List.forall_mem_append.mpr
        ⟨List.forall_mem_cons.mpr ⟨rfl, hname.free isTypePart_of_isStop⟩, free_of_any rfl⟩
  solid h hpart := by
    obtain ⟨key, rest, -, -, -, ⟨-, rfl⟩ | ⟨joint, type, htype, rfl⟩⟩ := typedKeyRule_eq_some.mp h
    · cases hpart
    · obtain ⟨name, rest', -, -, hname, rfl⟩ := keyType?_eq_some htype
      rw [Match.painted_of hpart]
      have hblank : ' ' ∉ name := hname.not_mem (by decide)
      simp [hblank]

/-- It paints behind the blank of the joint. -/
theorem led_typedKeyRule : Led typedKeyRule := by
  intro cs style lead part h
  obtain ⟨key, rest, -, -, -, ⟨-, hof⟩ | ⟨joint, type, htype, hof⟩⟩ := typedKeyRule_eq_some.mp h
  · cases congrArg Match.painted hof
  · obtain ⟨name, rest', -, hjoint, -, rfl⟩ := keyType?_eq_some htype
    rw [show lead = key ++ joint from congrArg Match.lead hof]
    rcases hjoint with rfl | rfl
    · exact ⟨key, rfl⟩
    · exact ⟨key ++ [' ', '=', '>'], by simp⟩

theorem IsRun.append_left {test : Char → Bool} {mark run : List Char} (h : IsRun test run)
    (hmark : ∀ c ∈ mark, test c = true) : IsRun test (mark ++ run) :=
  ⟨List.append_ne_nil_of_right_ne_nil _ h.1, List.forall_mem_append.mpr ⟨hmark, h.2⟩⟩

/-- The rule for names is narrow, if its mark could be part of a name. -/
theorem narrow_nameRule {style : Style} {mark : List Char} (hmark : ∀ c ∈ mark, Text.isNamePart c = true) :
    Narrow (nameRule style mark) where
  covers _ _ h := by
    obtain ⟨name, rest, rfl, -, rfl⟩ := nameRule_eq_some h
    exact ⟨List.cons_ne_nil _ _, rest, by simp [Match.covered, Match.of]⟩
  stops hs w v := by
    have hname := isNamePart_of_isStop hs
    have hmem := fun hc => Bool.false_ne_true (hname.symm.trans (hmark _ hc))
    unfold nameRule
    rw [after?_stop (not_mem_of_isStop hs (free_of_any rfl))]
    cases after? ['─', ' '] w with
    | none => rfl
    | some rest =>
      simp only [Option.map_some, Option.bind_eq_bind, Option.bind_some, after?_stop hmem]
      cases after? mark rest with
      | none => rfl
      | some rest =>
        simp only [Option.map_some, Option.bind_some, run?_stop hname]
        cases run? Text.isNamePart rest <;> rfl
  free h := by
    obtain ⟨name, rest, -, hname, rfl⟩ := nameRule_eq_some h
    have hlead : ∀ c ∈ ['─', ' '], isStop c = false := free_of_any rfl
    exact List.forall_mem_append.mpr ⟨hlead, (hname.append_left hmark).free isNamePart_of_isStop⟩
  solid h hpart := by
    obtain ⟨name, rest, -, hname, rfl⟩ := nameRule_eq_some h
    rw [Match.painted_of hpart]
    exact ⟨(hname.append_left hmark).1, (hname.append_left hmark).not_mem (by decide)⟩

/-- It paints behind the blank of the connector. -/
theorem led_nameRule (style : Style) (mark : List Char) : Led (nameRule style mark) := by
  intro cs style' lead part h
  obtain ⟨name, rest, -, -, hof⟩ := nameRule_eq_some h
  exact ⟨['─'], congrArg Match.lead hof⟩

/-- The narrow rules whose matches are led by a blank, in the order they run. -/
def lateRules : List Rule :=
  [objectTypeRule, typedKeyRule, nameRule .red ['_', '_'], nameRule .blue []]

/-- The narrow rules, in the order they run. -/
def narrowRules : List Rule :=
  metaRule :: lateRules

/-- The rules are the narrow ones, with that for expressions behind the first of them and those for quoted
texts and line ends behind all. -/
theorem rules_eq : rules = metaRule :: expressionRule :: (lateRules ++ [quotedRule, unknownRule, boolRule]) := rfl

/-- Each of the narrow rules is narrow. -/
theorem narrow_of_mem {rule : Rule} (h : rule ∈ narrowRules) : Narrow rule := by
  simp only [narrowRules, lateRules, List.mem_cons, List.not_mem_nil, or_false] at h
  rcases h with rfl | rfl | rfl | rfl | rfl
  · exact narrow_metaRule
  · exact narrow_objectTypeRule
  · exact narrow_typedKeyRule
  · exact narrow_nameRule (List.all_eq_true.mp rfl)
  · exact narrow_nameRule (List.all_eq_true.mp rfl)

/-- Each of those that run late paints behind a blank. -/
theorem led_of_mem {rule : Rule} (h : rule ∈ lateRules) : Led rule := by
  simp only [lateRules, List.mem_cons, List.not_mem_nil, or_false] at h
  rcases h with rfl | rfl | rfl | rfl
  · exact led_objectTypeRule
  · exact led_typedKeyRule
  · exact led_nameRule _ _
  · exact led_nameRule _ _

end FusionInspect.Colour
