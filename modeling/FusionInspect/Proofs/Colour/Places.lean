import FusionInspect.Proofs.Colour.Spans

/-!
# Places in a coloured line

The runs of the rules all work on the same line, with more and more codes in it. A place in it is known by what is
seen in front of it. Here is what a calm run does at each place: codes stay where they are, what is painted stays
painted, and whatever is new belongs to a HIT of the run, which is a span with characters only in it.
-/

namespace FusionInspect.Colour

/-! ## Codes -/

/-- There is a code behind so many characters that are seen. -/
def CodeAt (gs : List Glyph) (n : Nat) : Prop :=
  ∃ front body back, gs = front ++ .code body :: back ∧ (visible front).length = n

section

variable {gs hs front back : List Glyph} {g : Glyph} {cs x y : List Char} {c : Char} {n : Nat}

/-- A code stands behind as many characters as there are, at most. -/
theorem CodeAt.le (h : CodeAt gs n) : n ≤ (visible gs).length := by
  obtain ⟨front, body, back, rfl, rfl⟩ := h
  rw [visible_append, List.length_append]
  exact Nat.le_add_right _ _

/-- A code of glyphs that follow others stands behind all that is seen of those. -/
theorem codeAt_append :
    CodeAt (gs ++ hs) n ↔ CodeAt gs n ∨ ∃ m, n = (visible gs).length + m ∧ CodeAt hs m := by
  constructor
  · rintro ⟨front, body, back, hsplit, rfl⟩
    rcases List.append_eq_append_iff.mp hsplit with ⟨more, rfl, hmore⟩ | ⟨more, rfl, hmore⟩
    · exact .inr ⟨(visible more).length, by simp, more, body, back, hmore, rfl⟩
    · cases more with
      | nil => exact .inr ⟨0, by simp, [], body, back, hmore.symm, rfl⟩
      | cons g more =>
        obtain ⟨rfl, rfl⟩ := List.cons.inj hmore
        exact .inl ⟨front, body, more, rfl, rfl⟩
  · rintro (⟨front, body, back, rfl, rfl⟩ | ⟨m, rfl, front, body, back, rfl, rfl⟩)
    · exact ⟨front, body, back ++ hs, by simp, rfl⟩
    · exact ⟨gs ++ front, body, back, by simp, by simp⟩

theorem codeAt_cons : CodeAt (g :: gs) n ↔ CodeAt [g] n ∨ ∃ m, n = g.char?.toList.length + m ∧ CodeAt gs m := by
  have happend : CodeAt ([g] ++ gs) n ↔ _ := codeAt_append
  rwa [visible_cons, visible_nil, List.append_nil] at happend

/-- The codes around a part stand in front of it and behind it. -/
theorem codeAt_wrapped {style : Style} {part out : List Glyph} :
    CodeAt (opening style ++ part ++ closing :: out) n ↔
      n = 0 ∨ CodeAt part n ∨ n = (visible part).length ∨
        ∃ m, n = (visible part).length + m ∧ CodeAt out m := by
  have hopening : CodeAt (opening style) n ↔ n = 0 := by
    refine ⟨fun h => ?_, fun h => ?_⟩
    · simpa [visible_opening] using h.le
    · obtain ⟨body, more, hcons, -⟩ := exists_opening_cons style
      exact ⟨[], body, more, hcons, h.symm⟩
  have hclosing : ∀ m, CodeAt [closing] m ↔ m = 0 := by
    refine fun m => ⟨fun h => ?_, fun h => ⟨[], ['0'], [], rfl, h.symm⟩⟩
    simpa [closing] using h.le
  have hrest : ∀ m, CodeAt (closing :: out) m ↔ m = 0 ∨ CodeAt out m := by
    intro m
    rw [codeAt_cons, hclosing]
    simp [closing, Glyph.char?]
  rw [List.append_assoc, codeAt_append, hopening, visible_opening]
  simp only [List.length_nil, Nat.zero_add, exists_eq_left', codeAt_append, hrest, and_or_left, exists_or,
    exists_eq_right, Nat.add_zero]

/-- Characters have no code among them. -/
theorem not_codeAt_chars (cs : List Char) (n : Nat) : ¬CodeAt (cs.map .char) n := by
  rintro ⟨front, body, back, hsplit, -⟩
  have hmem : Glyph.code body ∈ cs.map .char := by
    rw [hsplit]
    simp
  simp at hmem

/-- Between characters that stand together there is no code. -/
theorem not_codeAt_together (hlt : (visible front).length < n) (hlt' : n < (visible front).length + cs.length) :
    ¬CodeAt (front ++ (cs.map .char ++ back)) n := by
  intro hcode
  rcases codeAt_append.mp hcode with hfront | ⟨m, rfl, hchars⟩
  · exact absurd hlt (Nat.not_lt.mpr hfront.le)
  · rcases codeAt_append.mp hchars with hchars | ⟨k, rfl, -⟩
    · exact not_codeAt_chars cs m hchars
    · rw [visible_map_char] at hlt'
      omega

/-- A character that is seen stands somewhere among the glyphs. -/
theorem exists_char_of_visible (h : visible gs = x ++ c :: y) :
    ∃ front back, gs = front ++ .char c :: back ∧ visible front = x ∧ visible back = y := by
  induction gs generalizing x with
  | nil => simp at h
  | cons g gs ih =>
    cases g with
    | code body =>
      obtain ⟨front, back, rfl, hx, hy⟩ := ih h
      exact ⟨.code body :: front, back, rfl, hx, hy⟩
    | char d =>
      cases x with
      | nil =>
        obtain ⟨rfl, hy⟩ := List.cons.inj h
        exact ⟨[], gs, rfl, rfl, hy⟩
      | cons e x =>
        obtain ⟨rfl, hgs⟩ := List.cons.inj h
        obtain ⟨front, back, rfl, hx, hy⟩ := ih hgs
        exact ⟨.char d :: front, back, rfl, by rw [visible_char, hx], hy⟩

/-- If no code stands in front of any of the first characters that are seen, these stand together at the
start. -/
theorem exists_chars_of_codeAt (h : visible gs = cs ++ y) (hcode : ∀ n, n < cs.length → ¬CodeAt gs n) :
    ∃ back, gs = cs.map .char ++ back ∧ visible back = y := by
  induction cs generalizing gs with
  | nil => exact ⟨gs, rfl, h⟩
  | cons c cs ih =>
    cases gs with
    | nil => cases h
    | cons g gs =>
      cases g with
      | code body => exact absurd ⟨[], body, gs, rfl, rfl⟩ (hcode 0 (Nat.succ_pos _))
      | char d =>
        obtain ⟨rfl, hgs⟩ := List.cons.inj h
        obtain ⟨back, rfl, hy⟩ := ih hgs fun n hn hat =>
          hcode (n + 1) (Nat.succ_lt_succ hn) (codeAt_cons.mpr (.inr ⟨n, Nat.add_comm _ _, hat⟩))
        exact ⟨back, rfl, hy⟩

/-- Characters that are seen stand together if there is no code between them. -/
theorem exists_together (h : visible gs = x ++ (cs ++ y)) (hcs : cs ≠ [])
    (hcode : ∀ n, x.length < n → n < x.length + cs.length → ¬CodeAt gs n) :
    ∃ front back, gs = front ++ (cs.map .char ++ back) ∧ visible front = x ∧ visible back = y := by
  obtain ⟨c, cs, rfl⟩ := List.exists_cons_of_ne_nil hcs
  obtain ⟨front, back, rfl, rfl, hback⟩ := exists_char_of_visible h
  obtain ⟨back', rfl, hy⟩ := exists_chars_of_codeAt hback fun n hn hat => by
    refine hcode ((visible front).length + (n + 1)) (by omega) (by rw [List.length_cons]; omega) ?_
    exact codeAt_append.mpr (.inr ⟨n + 1, rfl, codeAt_cons.mpr (.inr ⟨n, Nat.add_comm _ _, hat⟩)⟩)
  exact ⟨front, back', rfl, rfl, hy⟩

/-- A glyph of a text that starts with characters is one of them, or stands behind them. -/
theorem chars_append_eq {rest : List Glyph} (h : cs.map .char ++ rest = front ++ g :: back) :
    (∃ left d right, cs = left ++ d :: right ∧ g = .char d ∧ front = left.map .char ∧
      back = right.map .char ++ rest) ∨
    ∃ more, front = cs.map .char ++ more ∧ rest = more ++ g :: back := by
  induction cs generalizing front with
  | nil => exact .inr ⟨front, rfl, h⟩
  | cons d cs ih =>
    cases front with
    | nil =>
      obtain ⟨rfl, rfl⟩ := List.cons.inj h
      exact .inl ⟨[], d, cs, rfl, rfl, rfl, rfl⟩
    | cons g' front =>
      obtain ⟨rfl, htail⟩ := List.cons.inj h
      rcases ih htail with ⟨left, e, right, rfl, hg, rfl, hback⟩ | ⟨more, rfl, hrest⟩
      · exact .inl ⟨d :: left, e, right, rfl, hg, rfl, hback⟩
      · exact .inr ⟨more, rfl, hrest⟩

/-- A character within a text whose characters stand together is one of them. -/
theorem exists_of_together {before after : List Glyph}
    (h : before ++ (cs.map .char ++ after) = front ++ .char c :: back)
    (hle : (visible before).length ≤ (visible front).length)
    (hlt : (visible front).length < (visible before).length + cs.length) :
    ∃ left right, cs = left ++ c :: right ∧ front = before ++ left.map .char ∧
      back = right.map .char ++ after := by
  have hbehind : ∃ inner, front = before ++ inner ∧ cs.map .char ++ after = inner ++ .char c :: back := by
    rcases List.append_eq_append_iff.mp h with ⟨inner, rfl, hinner⟩ | ⟨outer, rfl, houter⟩
    · exact ⟨inner, rfl, hinner⟩
    · cases outer with
      | nil => exact ⟨[], by simp, houter.symm⟩
      | cons g outer =>
        rw [← (List.cons.inj houter).1, visible_append, List.length_append, visible_char, List.length_cons] at hle
        omega
  obtain ⟨inner, rfl, hinner⟩ := hbehind
  rcases chars_append_eq hinner with ⟨left, d, right, rfl, hd, rfl, rfl⟩ | ⟨more, rfl, -⟩
  · cases hd
    exact ⟨left, right, rfl, rfl, rfl⟩
  · simp only [visible_append, visible_map_char, List.length_append] at hlt
    omega

end

/-! ## Hits -/

/-- A span that a calm run has left: the characters in it, where they stood before and where they stand now. -/
structure Hit (rule : Rule) (before gs out front : List Glyph) (cs : List Char) (rest : List Glyph) : Prop where
  split : gs = front ++ (cs.map .char ++ rest)
  nonempty : cs ≠ []
  idle : Pen.idle.run? (before ++ front) = some .idle
  paints : ∃ style, PaintsAt rule (spell (before ++ front)) style cs (spell rest)
  span : ∃ style front' back', out = front' ++ (opening style ++ cs.map .char ++ closing :: back') ∧
    visible front' = visible front ∧ ∀ pen, Pen.idle.run? before = some pen → pen.run? front' = some .idle

section

variable {rule : Rule} {before gs out front back rest : List Glyph} {g : Glyph} {cs : List Char} {c : Char}
  {pen : Pen} {n : Nat}

/-- A hit behind a glyph that is kept is a hit. -/
theorem Hit.keep (h : Hit rule (before ++ [g]) gs out front cs rest) :
    Hit rule before (g :: gs) (g :: out) (g :: front) cs rest := by
  obtain ⟨hsplit, hcs, hidle, hpaints, style, front', back', hout, hvisible, hrun⟩ := h
  rw [List.append_assoc] at hidle hpaints
  refine ⟨by rw [hsplit]; rfl, hcs, hidle, hpaints, style, g :: front', back', by rw [hout]; rfl, ?_, ?_⟩
  · rw [visible_cons, visible_cons, hvisible]
  · intro pen hpen
    rw [Pen.run?_append_of hpen, List.singleton_append, Pen.run?_cons, Option.bind_eq_some_iff] at hidle
    obtain ⟨next, hstep, -⟩ := hidle
    rw [Pen.run?_cons, hstep]
    exact hrun next ((Pen.run?_concat hpen).trans hstep)

/-- So is a hit behind a span that is wrapped. -/
theorem Hit.wrap {ds : List Char} {style : Style} (hidle : Pen.idle.run? before = some .idle) (hds : ds ≠ [])
    (h : Hit rule (before ++ ds.map .char) gs out front cs rest) :
    Hit rule before (ds.map .char ++ gs) (opening style ++ ds.map .char ++ closing :: out)
      (ds.map .char ++ front) cs rest := by
  obtain ⟨hsplit, hcs, hidle', hpaints, style', front', back', hout, hvisible, hrun⟩ := h
  rw [List.append_assoc] at hidle' hpaints
  refine ⟨by rw [hsplit, List.append_assoc], hcs, hidle', hpaints, style',
    opening style ++ ds.map .char ++ closing :: front', back', by rw [hout]; simp, ?_, ?_⟩
  · simp [visible_opening, closing, hvisible]
  · intro pen hpen
    obtain rfl : pen = .idle := Option.some.inj (hpen.symm.trans hidle)
    rw [Pen.run?_span style hds]
    exact hrun .idle (by rw [Pen.run?_append_of hpen, Pen.run?_idle_chars])

/-- A span that is wrapped is itself a hit. -/
theorem Hit.here {style : Style} (hidle : Pen.idle.run? before = some .idle)
    (hpaints : PaintsAt rule (spell before) style cs (spell rest)) (hcs : cs ≠ []) :
    Hit rule before (cs.map .char ++ rest) (opening style ++ cs.map .char ++ closing :: out) [] cs rest := by
  rw [← List.append_nil before] at hidle hpaints
  refine ⟨rfl, hcs, hidle, ⟨style, hpaints⟩, style, [], out, rfl, rfl, fun pen hpen => ?_⟩
  rw [List.append_nil, hpen] at hidle
  exact hidle

/-- There is a code now where the hit starts. -/
theorem Hit.codeAt_start (h : Hit rule before gs out front cs rest) : CodeAt out (visible front).length := by
  obtain ⟨style, front', back', rfl, hvisible, -⟩ := h.span
  obtain ⟨body, more, hopening, -⟩ := exists_opening_cons style
  exact ⟨front', body, more ++ cs.map .char ++ closing :: back', by rw [hopening]; simp, by rw [hvisible]⟩

/-! ## What a calm run does -/

/-- What a calm run does not keep it paints. -/
theorem Calm.exists_hit (h : Calm rule before gs out) (hsplit : gs = front ++ .char c :: back)
    (hhit : ¬Misses rule (spell (before ++ front)) (spell (.char c :: back))) :
    ∃ front' left right rest, front = front' ++ left.map .char ∧ back = right.map .char ++ rest ∧
      Hit rule before gs out front' (left ++ c :: right) rest := by
  induction h generalizing front with
  | done => simp at hsplit
  | @keep before gs out g hmiss _ ih =>
    cases front with
    | nil =>
      rw [List.nil_append] at hsplit
      rw [List.append_nil, ← hsplit] at hhit
      exact absurd hmiss hhit
    | cons g' front =>
      obtain ⟨rfl, rfl⟩ := List.cons.inj hsplit
      obtain ⟨front', left, right, rest, rfl, rfl, hit⟩ := ih rfl (by rwa [List.append_assoc])
      exact ⟨g :: front', left, right, rest, rfl, rfl, hit.keep⟩
  | @wrap before rest out cs style hidle hpaints hcs _ ih =>
    rcases chars_append_eq hsplit with ⟨left, d, right, rfl, hd, rfl, rfl⟩ | ⟨more, rfl, rfl⟩
    · cases hd
      exact ⟨[], left, right, rest, rfl, rfl, .here hidle hpaints hcs⟩
    · obtain ⟨front', left, right, rest, rfl, rfl, hit⟩ := ih rfl (by rwa [List.append_assoc])
      exact ⟨cs.map .char ++ front', left, right, rest, by simp, rfl, hit.wrap hidle hcs⟩

/-- Characters that follow while the pen is not idle are kept as they are. -/
theorem Calm.keeps_chars (h : Calm rule before (cs.map .char ++ rest) out)
    (hbefore : Pen.idle.run? before = some pen) (hpen : pen ≠ .idle) : ∃ back, out = cs.map .char ++ back := by
  induction cs generalizing before pen out with
  | nil => exact ⟨out, rfl⟩
  | cons c cs ih =>
    generalize hgs : (c :: cs).map Glyph.char ++ rest = gs at h
    cases h with
    | done => cases hgs
    | keep _ hcalm =>
      obtain ⟨rfl, rfl⟩ := List.cons.inj hgs
      obtain ⟨back, rfl⟩ := ih hcalm ((Pen.run?_concat hbefore).trans (Pen.step?_char hpen c))
        (nofun : Pen.used ≠ .idle)
      exact ⟨back, rfl⟩
    | wrap hidle => exact absurd (Option.some.inj (hbefore.symm.trans hidle)) hpen

/-- What is painted stays so, and stays together. -/
theorem Calm.keeps_painted (h : Calm rule before gs out) (hsplit : gs = front ++ (cs.map .char ++ back))
    (hcs : cs ≠ []) (hfront : Pen.idle.run? (before ++ front) = some pen) (hpen : pen ≠ .idle) :
    ∃ front' back', out = front' ++ (cs.map .char ++ back') ∧ visible front' = visible front ∧
      ∀ start, Pen.idle.run? before = some start → start.run? front' = some pen := by
  induction h generalizing front with
  | done => simp [hcs] at hsplit
  | @keep before gs out g hmiss hcalm ih =>
    cases front with
    | nil =>
      rw [List.append_nil] at hfront
      have hkeep := Calm.keep hmiss hcalm
      rw [hsplit, List.nil_append] at hkeep
      obtain ⟨back', hout⟩ := hkeep.keeps_chars hfront hpen
      exact ⟨[], back', hout, rfl, fun start hstart => hstart.symm.trans hfront⟩
    | cons g' front =>
      obtain ⟨rfl, rfl⟩ := List.cons.inj hsplit
      obtain ⟨front', back', rfl, hvisible, hrun⟩ := ih rfl (by rwa [List.append_assoc])
      refine ⟨g :: front', back', rfl, ?_, fun start hstart => ?_⟩
      · rw [visible_cons, visible_cons, hvisible]
      · rw [Pen.run?_append_of hstart, Pen.run?_cons, Option.bind_eq_some_iff] at hfront
        obtain ⟨next, hstep, -⟩ := hfront
        rw [Pen.run?_cons, hstep]
        exact hrun next ((Pen.run?_concat hstart).trans hstep)
  | @wrap before rest out ds style hidle hpaints hds _ ih =>
    obtain ⟨c, cs, rfl⟩ := List.exists_cons_of_ne_nil hcs
    rcases chars_append_eq hsplit with ⟨left, d, right, rfl, hd, rfl, -⟩ | ⟨more, rfl, hmore⟩
    · rw [Pen.run?_append_of hidle, Pen.run?_idle_chars] at hfront
      exact absurd (Option.some.inj hfront).symm hpen
    · obtain ⟨front', back', rfl, hvisible, hrun⟩ := ih hmore (by rwa [List.append_assoc])
      refine ⟨opening style ++ ds.map .char ++ closing :: front', back', by simp, ?_, fun start hstart => ?_⟩
      · simp [visible_opening, closing, hvisible]
      · obtain rfl : start = .idle := Option.some.inj (hstart.symm.trans hidle)
        rw [Pen.run?_span style hds]
        exact hrun .idle (by rw [Pen.run?_append_of hstart, Pen.run?_idle_chars])

/-- Codes stay where they are. -/
theorem Wraps.codeAt (h : Wraps rule before gs out) (hcode : CodeAt gs n) : CodeAt out n := by
  induction h generalizing n with
  | done => exact hcode
  | keep _ _ ih =>
    rw [codeAt_cons] at hcode ⊢
    exact hcode.imp_right fun ⟨m, hm, hat⟩ => ⟨m, hm, ih hat⟩
  | wrap _ _ _ ih =>
    rw [codeAt_append] at hcode
    rw [codeAt_wrapped]
    exact .inr (hcode.imp_right fun ⟨m, hm, hat⟩ => .inr ⟨m, hm, ih hat⟩)

/-- A new code starts or ends a hit. -/
theorem Calm.codeAt (h : Calm rule before gs out) (hcode : CodeAt out n) :
    CodeAt gs n ∨ ∃ front cs rest, Hit rule before gs out front cs rest ∧
      (n = (visible front).length ∨ n = (visible front).length + cs.length) := by
  induction h generalizing n with
  | done => exact .inl hcode
  | @keep before gs out g _ _ ih =>
    rw [codeAt_cons]
    rcases codeAt_cons.mp hcode with hg | ⟨m, rfl, hout⟩
    · exact .inl (.inl hg)
    · rcases ih hout with hat | ⟨front, cs, rest, hit, hm⟩
      · exact .inl (.inr ⟨m, rfl, hat⟩)
      · refine .inr ⟨g :: front, cs, rest, hit.keep, ?_⟩
        rw [visible_cons, List.length_append]
        omega
  | @wrap before rest out cs style hidle hpaints hcs _ ih =>
    have hhere : Hit rule before _ (opening style ++ cs.map .char ++ closing :: out) [] cs rest :=
      .here hidle hpaints hcs
    rw [codeAt_wrapped, visible_map_char] at hcode
    rcases hcode with rfl | hcode | rfl | ⟨m, rfl, hcode⟩
    · exact .inr ⟨[], cs, rest, hhere, .inl rfl⟩
    · exact absurd hcode (not_codeAt_chars cs n)
    · exact .inr ⟨[], cs, rest, hhere, .inr (Nat.zero_add _).symm⟩
    · rcases ih hcode with hat | ⟨front, ds, rest', hit, hm⟩
      · exact .inl (codeAt_append.mpr (.inr ⟨m, by rw [visible_map_char], hat⟩))
      · refine .inr ⟨cs.map .char ++ front, ds, rest', hit.wrap hidle hcs, ?_⟩
        rw [visible_append, visible_map_char, List.length_append]
        omega

/-- At a character the pen is where it was before, or the character is in a hit. -/
theorem Calm.pen_eq_or_hit (h : Calm rule before gs out) (hbefore : Pen.idle.run? before = some pen)
    (hsplit : out = front ++ .char c :: back) {now : Pen} (hfront : pen.run? front = some now) :
    (∃ front' back', gs = front' ++ .char c :: back' ∧ visible front' = visible front ∧
      pen.run? front' = some now) ∨
    ∃ front' left right rest, Hit rule before gs out front' (left ++ c :: right) rest ∧
      visible front = visible front' ++ left := by
  induction h generalizing pen front with
  | done => simp at hsplit
  | @keep before gs out g _ _ ih =>
    cases front with
    | nil =>
      obtain ⟨rfl, rfl⟩ := List.cons.inj hsplit
      exact .inl ⟨[], gs, rfl, rfl, hfront⟩
    | cons g' front =>
      obtain ⟨rfl, rfl⟩ := List.cons.inj hsplit
      rw [Pen.run?_cons, Option.bind_eq_some_iff] at hfront
      obtain ⟨next, hstep, hfront⟩ := hfront
      rcases ih ((Pen.run?_concat hbefore).trans hstep) rfl hfront with
        ⟨front', back', rfl, hvisible, hrun⟩ | ⟨front', left, right, rest, hit, hvisible⟩
      · refine .inl ⟨g :: front', back', rfl, by rw [visible_cons, visible_cons, hvisible], ?_⟩
        rw [Pen.run?_cons, hstep]
        exact hrun
      · refine .inr ⟨g :: front', left, right, rest, hit.keep, ?_⟩
        rw [visible_cons, visible_cons, hvisible, List.append_assoc]
  | @wrap before rest out cs style hidle hpaints hcs _ ih =>
    obtain rfl : pen = .idle := Option.some.inj (hbefore.symm.trans hidle)
    have hopening : ∃ more, front = opening style ++ more ∧
        cs.map .char ++ closing :: out = more ++ .char c :: back := by
      rw [List.append_assoc] at hsplit
      rcases List.append_eq_append_iff.mp hsplit with ⟨more, rfl, hmore⟩ | ⟨more, hmore, hback⟩
      · exact ⟨more, rfl, hmore⟩
      · cases more with
        | nil => exact ⟨[], by simpa using hmore.symm, hback.symm⟩
        | cons g more =>
          have hseen := visible_opening style
          rw [hmore, ← (List.cons.inj hback).1] at hseen
          simp at hseen
    obtain ⟨more, rfl, hmore⟩ := hopening
    rcases chars_append_eq hmore with ⟨left, d, right, rfl, hd, rfl, -⟩ | ⟨more, rfl, hrest⟩
    · cases hd
      exact .inr ⟨[], left, right, rest, .here hidle hpaints hcs, by simp [visible_opening]⟩
    · cases more with
      | nil => cases hrest
      | cons g more =>
        obtain ⟨rfl, rfl⟩ := List.cons.inj hrest
        rw [← List.append_assoc, Pen.run?_span style hcs] at hfront
        have hseen : visible (opening style ++ (cs.map .char ++ closing :: more)) = cs ++ visible more := by
          simp [visible_opening, closing]
        rw [hseen]
        rcases ih (by rw [Pen.run?_append_of hidle, Pen.run?_idle_chars]) rfl hfront with
          ⟨front', back', rfl, hvisible, hrun⟩ | ⟨front', left, right, rest', hit, hvisible⟩
        · refine .inl ⟨cs.map .char ++ front', back', by simp, by simp [hvisible], ?_⟩
          rw [Pen.run?_append_of (Pen.run?_idle_chars cs)]
          exact hrun
        · exact .inr ⟨cs.map .char ++ front', left, right, rest', hit.wrap hidle hcs, by simp [hvisible]⟩

end

/-! ## What is painted -/

/-- Behind the first text, the second one stands together and is painted. -/
def Painted (gs : List Glyph) (x cs : List Char) : Prop :=
  ∃ front back pen, gs = front ++ (cs.map .char ++ back) ∧ visible front = x ∧
    Pen.idle.run? front = some pen ∧ pen ≠ .idle

section

variable {rule : Rule} {gs out front back rest : List Glyph} {x cs : List Char} {c : Char} {n : Nat}

/-- What is painted stays painted in a calm run. -/
theorem Calm.painted (h : Calm rule [] gs out) (hgs : Painted gs x cs) (hcs : cs ≠ []) : Painted out x cs := by
  obtain ⟨front, back, pen, hsplit, rfl, hrun, hpen⟩ := hgs
  obtain ⟨front', back', hout, hvisible, hrun'⟩ := h.keeps_painted hsplit hcs hrun hpen
  exact ⟨front', back', pen, hout, hvisible, hrun' .idle rfl, hpen⟩

/-- The characters of a hit are painted. -/
theorem Hit.painted (h : Hit rule [] gs out front cs rest) : Painted out (visible front) cs := by
  obtain ⟨style, front', back', rfl, hvisible, hrun⟩ := h.span
  refine ⟨front' ++ opening style, closing :: back', .fresh, by simp, by simp [visible_opening, hvisible], ?_, nofun⟩
  rw [Pen.run?_append_of (hrun .idle rfl), Pen.run?_opening]

/-- Each end of what is painted is painted. -/
theorem Painted.append_right {left : List Char} (h : Painted gs x (left ++ cs)) : Painted gs (x ++ left) cs := by
  obtain ⟨front, back, pen, rfl, rfl, hrun, hpen⟩ := h
  rcases eq_or_ne left [] with rfl | hleft
  · exact ⟨front, back, pen, rfl, by simp, hrun, hpen⟩
  · refine ⟨front ++ left.map .char, back, .used, by simp, by simp, ?_, nofun⟩
    rw [Pen.run?_append_of hrun, Pen.run?_chars hpen hleft]

/-- Within what is painted together there is no code. -/
theorem Painted.not_codeAt (h : Painted gs x cs) (hlt : x.length < n) (hlt' : n < x.length + cs.length) :
    ¬CodeAt gs n := by
  obtain ⟨front, back, pen, rfl, rfl, -⟩ := h
  exact not_codeAt_together hlt hlt'

/-- At a character that is painted the pen is not idle. -/
theorem Painted.ne_idle (h : Painted gs x cs) (hsplit : gs = front ++ .char c :: back)
    (hle : x.length ≤ (visible front).length) (hlt : (visible front).length < x.length + cs.length) :
    Pen.idle.run? front ≠ some .idle := by
  obtain ⟨before, after, pen, rfl, rfl, hrun, hpen⟩ := h
  obtain ⟨left, right, -, rfl, -⟩ := exists_of_together hsplit hle hlt
  rw [Pen.run?_append_of hrun]
  rcases eq_or_ne left [] with rfl | hleft
  · exact fun heq => hpen (Option.some.inj heq)
  · rw [Pen.run?_chars hpen hleft]
    exact nofun

end

end FusionInspect.Colour
