import FusionInspect.Proofs.Colour.Scan

/-!
# Escapes in a coloured line

A coloured line is made of GLYPHS: characters that are seen, and codes that are not. A text is read as glyphs by
taking each escape `ESC [ .. m` with digits and semicolons in it as a code.

The rules run on text and know nothing of codes, so a match may start in the middle of one: the end of a code can be
taken for a key. But what a rule paints starts and ends between glyphs (`edged_of_mem`), because it starts or ends with
a character that no code has, or stands behind one, or has no code in it. So a rule only puts codes between glyphs
(`exists_wraps`), and what is seen stays as it was.
-/

namespace FusionInspect.Colour

/-! ## Glyphs -/

/-- What a coloured line is made of: a character, or a code with what stands in its escape. -/
inductive Glyph where
  | char (c : Char)
  | code (body : List Char)
  deriving Repr, DecidableEq

/-- The characters between the brackets of an escape. -/
def isParameter (c : Char) : Bool :=
  c.isDigit || c == ';'

/-- The text of a glyph. -/
def Glyph.text : Glyph → List Char
  | .char c => [c]
  | .code body => '\x1b' :: '[' :: body ++ ['m']

/-- The character of a glyph that is seen. -/
def Glyph.char? : Glyph → Option Char
  | .char c => some c
  | .code _ => none

/-- The text of some glyphs. -/
def spell (gs : List Glyph) : List Char :=
  gs.flatMap Glyph.text

/-- What is seen of some glyphs. -/
def visible (gs : List Glyph) : List Char :=
  gs.filterMap Glyph.char?

/-- What stands in the escape that a text starts with. -/
def escapeBody? : List Char → Option (List Char)
  | '\x1b' :: '[' :: cs =>
    if (cs.dropWhile isParameter).head? = some 'm' then some (cs.takeWhile isParameter) else none
  | _ => none

/-- Reads a text as glyphs. What an escape covers is counted off. -/
def glyphsFrom : Nat → List Char → List Glyph
  | _, [] => []
  | skip + 1, _ :: cs => glyphsFrom skip cs
  | 0, c :: cs =>
    match escapeBody? (c :: cs) with
    | some body => .code body :: glyphsFrom (body.length + 2) cs
    | none => .char c :: glyphsFrom 0 cs

/-- The glyphs of a text. -/
def glyphs (text : List Char) : List Glyph :=
  glyphsFrom 0 text

/-- A text without its escapes. -/
def withoutEscapes (text : String) : String :=
  String.ofList (visible (glyphs text.toList))

/-- A glyph that is read back from its text: no character that starts an escape, and nothing but parameters in a
code. -/
def Glyph.Sound : Glyph → Prop
  | .char c => c ≠ '\x1b'
  | .code body => ∀ c ∈ body, isParameter c = true

section

variable {gs hs : List Glyph}

@[simp]
theorem spell_nil : spell [] = [] := rfl

@[simp]
theorem spell_cons (g : Glyph) (gs : List Glyph) : spell (g :: gs) = g.text ++ spell gs := rfl

@[simp]
theorem spell_append (gs hs : List Glyph) : spell (gs ++ hs) = spell gs ++ spell hs :=
  List.flatMap_append

/-- Characters are written as they are. -/
@[simp]
theorem spell_map_char (cs : List Char) : spell (cs.map .char) = cs := by
  induction cs with
  | nil => rfl
  | cons c cs ih => rw [List.map_cons, spell_cons, ih]; rfl

@[simp]
theorem visible_append (gs hs : List Glyph) : visible (gs ++ hs) = visible gs ++ visible hs :=
  List.filterMap_append

@[simp]
theorem visible_nil : visible [] = [] := rfl

theorem visible_cons (g : Glyph) (gs : List Glyph) : visible (g :: gs) = g.char?.toList ++ visible gs := by
  cases g <;> rfl

@[simp]
theorem visible_char (c : Char) (gs : List Glyph) : visible (.char c :: gs) = c :: visible gs := rfl

@[simp]
theorem visible_code (body : List Char) (gs : List Glyph) : visible (.code body :: gs) = visible gs := rfl

@[simp]
theorem visible_map_char (cs : List Char) : visible (cs.map .char) = cs := by
  induction cs with
  | nil => rfl
  | cons c cs ih => rw [List.map_cons, visible_char, ih]

/-- Counting off what an escape covers is starting behind it. -/
theorem glyphsFrom_eq_drop (skip : Nat) (cs : List Char) :
    glyphsFrom skip cs = glyphsFrom 0 (cs.drop skip) := by
  induction cs generalizing skip with
  | nil => simp [glyphsFrom]
  | cons c cs ih =>
    cases skip with
    | zero => rfl
    | succ skip => rw [glyphsFrom, ih, List.drop_succ_cons]

/-- Only an escape starts like one. -/
theorem escapeBody?_char {c : Char} (hc : c ≠ '\x1b') (cs : List Char) : escapeBody? (c :: cs) = none := by
  unfold escapeBody?
  split
  · next heq => exact absurd (List.cons.inj heq).1 hc
  · rfl

/-- A code that is written down is found again, with what stands in it. -/
theorem escapeBody?_code {body : List Char} (hbody : ∀ c ∈ body, isParameter c = true) (cs : List Char) :
    escapeBody? ((Glyph.code body).text ++ cs) = some body := by
  have hm : isParameter 'm' = false := by decide
  have htake : (body ++ 'm' :: cs).takeWhile isParameter = body := by
    rw [List.takeWhile_append_of_pos hbody, List.takeWhile_cons_of_neg (by simp [hm]), List.append_nil]
  have hdrop : (body ++ 'm' :: cs).dropWhile isParameter = 'm' :: cs := by
    rw [List.dropWhile_append_of_pos hbody, List.dropWhile_cons_of_neg (by simp [hm])]
  have htext : (Glyph.code body).text ++ cs = '\x1b' :: '[' :: (body ++ 'm' :: cs) := by simp [Glyph.text]
  rw [htext, escapeBody?, hdrop, htake]
  rfl

/-- Glyphs are read back from their text. -/
theorem glyphs_spell (h : ∀ g ∈ gs, g.Sound) : glyphs (spell gs) = gs := by
  rw [glyphs]
  induction gs with
  | nil => rfl
  | cons g gs ih =>
    obtain ⟨hg, hgs⟩ := List.forall_mem_cons.mp h
    cases g with
    | char c =>
      change glyphsFrom 0 (c :: spell gs) = _
      rw [glyphsFrom, escapeBody?_char hg]
      exact congrArg _ (ih hgs)
    | code body =>
      have hdrop : ('[' :: body ++ ['m'] ++ spell gs).drop (body.length + 2) = spell gs := by
        rw [List.drop_append_of_le_length (by simp)]
        simp
      have hbody : escapeBody? ('\x1b' :: ('[' :: body ++ ['m'] ++ spell gs)) = some body :=
        escapeBody?_code hg (spell gs)
      change glyphsFrom 0 ('\x1b' :: ('[' :: body ++ ['m'] ++ spell gs)) = _
      rw [glyphsFrom, hbody]
      change Glyph.code body :: glyphsFrom (body.length + 2) ('[' :: body ++ ['m'] ++ spell gs) = _
      rw [glyphsFrom_eq_drop, hdrop, ih hgs]

end

/-! ## Cuts between glyphs -/

/-- The characters that codes are written with. -/
def isEscapePart (c : Char) : Bool :=
  c == '\x1b' || c == '[' || c == 'm' || isParameter c

/-- A code is written with few kinds of characters. -/
theorem isEscapePart_of_mem {body : List Char} (hbody : ∀ c ∈ body, isParameter c = true) :
    ∀ c ∈ (Glyph.code body).text, isEscapePart c = true := by
  intro c hc
  simp only [Glyph.text, List.cons_append, List.mem_cons, List.mem_append, List.not_mem_nil, or_false] at hc
  rcases hc with rfl | rfl | hc | rfl
  · rfl
  · rfl
  · rw [isEscapePart, hbody c hc, Bool.or_true]
  · rfl

/-- Where a text of glyphs is cut, it is cut between two glyphs or inside a code. -/
theorem spell_eq_append {gs : List Glyph} {x y : List Char} (h : spell gs = x ++ y) :
    (∃ front back, gs = front ++ back ∧ x = spell front ∧ y = spell back) ∨
    ∃ body x' u v y', .code body ∈ gs ∧ (Glyph.code body).text = u ++ v ∧ u ≠ [] ∧ v ≠ [] ∧
      x = x' ++ u ∧ y = v ++ y' := by
  induction gs generalizing x with
  | nil =>
    obtain ⟨rfl, rfl⟩ := List.nil_eq_append_iff.mp h
    exact .inl ⟨[], [], rfl, rfl, rfl⟩
  | cons g gs ih =>
    rw [spell_cons] at h
    rcases List.append_eq_append_iff.mp h with ⟨x', rfl, hx'⟩ | ⟨v, hg, rfl⟩
    · rcases ih hx' with ⟨front, back, rfl, rfl, rfl⟩ | ⟨body, x'', u, v, y', hmem, htext, hu, hv, rfl, rfl⟩
      · exact .inl ⟨g :: front, back, rfl, rfl, rfl⟩
      · exact .inr ⟨body, g.text ++ x'', u, v, y', List.mem_cons_of_mem _ hmem, htext, hu, hv,
          (List.append_assoc _ _ _).symm, rfl⟩
    · rcases eq_or_ne x [] with rfl | hx
      · exact .inl ⟨[], g :: gs, rfl, rfl, by rw [spell_cons, hg]; rfl⟩
      · rcases eq_or_ne v [] with rfl | hv
        · exact .inl ⟨[g], gs, rfl, by rw [spell_cons, hg]; simp, rfl⟩
        · cases g with
          | char c =>
            have hlength := congrArg List.length hg
            have := List.length_pos_iff.mpr hx
            have := List.length_pos_iff.mpr hv
            rw [List.length_append] at hlength
            change 1 = _ at hlength
            omega
          | code body => exact .inr ⟨body, [], x, v, spell gs, List.mem_cons_self, hg, hx, hv, rfl, rfl⟩

/-- A text that ends with a character that no code has ends with a glyph for it. -/
theorem exists_last_char {gs : List Glyph} {x : List Char} {c : Char} (hc : isEscapePart c = false)
    (h : spell gs = x ++ [c]) : ∃ front, gs = front ++ [.char c] ∧ spell front = x := by
  rcases List.eq_nil_or_concat gs with rfl | ⟨front, g, rfl⟩
  · simp at h
  · rw [List.concat_eq_append] at h ⊢
    rw [spell_append] at h
    cases g with
    | char d =>
      obtain ⟨hfront, hd⟩ := List.append_inj' h rfl
      exact ⟨front, by rw [List.singleton_inj.mp hd], hfront⟩
    | code body =>
      have hcode : spell front ++ spell [.code body] = spell front ++ ('\x1b' :: '[' :: body) ++ ['m'] := by
        simp [Glyph.text]
      rw [hcode] at h
      rw [← List.singleton_inj.mp (List.append_inj' h rfl).2] at hc
      cases hc

section

variable {gs : List Glyph} {x y : List Char} (hsound : ∀ g ∈ gs, g.Sound) (h : spell gs = x ++ y)

include hsound h

/-- A cut behind a character that no code has is between two glyphs. -/
theorem exists_cut_of_last {c : Char} (hc : isEscapePart c = false) (hx : ∃ front, x = front ++ [c]) :
    ∃ front back, gs = front ++ back ∧ x = spell front ∧ y = spell back := by
  rcases spell_eq_append h with hcut | ⟨body, x', u, v, y', hmem, htext, hu, -, rfl, -⟩
  · exact hcut
  · obtain ⟨front, hx⟩ := hx
    obtain ⟨u, last, rfl⟩ := List.eq_nil_or_concat u |>.resolve_left hu
    have hlast : last = c := by
      rw [List.concat_eq_append, ← List.append_assoc] at hx
      exact List.singleton_inj.mp (List.append_inj' hx rfl).2
    have hpart := isEscapePart_of_mem (hsound _ hmem) c (by rw [htext, hlast]; simp)
    rw [hc] at hpart
    cases hpart

/-- A text without the start of a code is one of characters only. -/
theorem exists_cut_of_not_mem (hx : '\x1b' ∉ x) : ∃ back, gs = x.map .char ++ back ∧ y = spell back := by
  induction x generalizing gs with
  | nil => exact ⟨gs, rfl, h.symm⟩
  | cons c x ih =>
    obtain ⟨hc, hx⟩ := not_or.mp (mt List.mem_cons.mpr hx)
    cases gs with
    | nil => cases h
    | cons g gs =>
      cases g with
      | code body => exact absurd (List.cons.inj h).1 hc
      | char d =>
        obtain ⟨hd, hrest⟩ := List.cons.inj (h : d :: spell gs = c :: (x ++ y))
        obtain ⟨back, rfl, rfl⟩ := ih (List.forall_mem_cons.mp hsound).2 hrest hx
        exact ⟨back, by rw [hd]; rfl, rfl⟩

end

/-- Glyphs whose text has no start of a code are characters. -/
theorem eq_map_char_of_not_mem {gs : List Glyph} (hsound : ∀ g ∈ gs, g.Sound) (h : '\x1b' ∉ spell gs) :
    gs = (spell gs).map .char := by
  obtain ⟨back, hgs, hback⟩ := exists_cut_of_not_mem hsound (List.append_nil (spell gs)).symm h
  cases back with
  | nil => rwa [List.append_nil] at hgs
  | cons g back => cases g <;> cases hback

/-! ## What is painted lies between glyphs -/

/-- What a rule paints does not start or end inside a code. It starts with a character that no code has, or behind a
blank, and it has no code in it or ends with a character that no code has. -/
structure Edged (lead part : List Char) : Prop where
  starts : (lead = [] ∧ ∃ c tail, part = c :: tail ∧ isEscapePart c = false) ∨
    ((∃ front, lead = front ++ [' ']) ∧ '\x1b' ∉ part)
  ends : '\x1b' ∉ part ∨ ∃ front c, part = front ++ [c] ∧ isEscapePart c = false

section

variable {rule : Rule} {cs lead part : List Char} {style : Style}

/-- No code is in what a narrow rule paints. -/
theorem Narrow.not_mem_part (hrule : Narrow rule) (h : rule cs = some (.of style lead part)) : '\x1b' ∉ part :=
  not_mem_of_isStop (by decide) fun c hc => hrule.free h c (List.mem_append_right _ hc)

/-- What a narrow rule paints behind a blank lies between glyphs. -/
theorem Narrow.edged (hrule : Narrow rule) (hled : Led rule) (h : rule cs = some (.of style lead part)) :
    Edged lead part :=
  ⟨.inr ⟨hled h, hrule.not_mem_part h⟩, .inl (hrule.not_mem_part h)⟩

/-- So does what a wide rule paints, if no code has the characters at its ends. -/
theorem Wide.edged {style' : Style} {first mark : Char} {opening : List Char}
    (hrule : Wide rule style' (first :: opening) mark) (hfirst : isEscapePart first = false)
    (hmark : isEscapePart mark = false) (h : rule cs = some (.of style lead part)) : Edged lead part := by
  obtain ⟨body, rest, -, -, -, -, hof⟩ := hrule.eq_some.mp h
  rw [Match.painted_of (congrArg Match.painted hof.symm)]
  exact ⟨.inl ⟨congrArg Match.lead hof, first, _, rfl, hfirst⟩,
    .inr ⟨first :: opening ++ body, mark, by simp, hmark⟩⟩

/-- What any of the rules paints lies between glyphs. -/
theorem edged_of_mem (hrule : rule ∈ rules) (h : rule cs = some (.of style lead part)) : Edged lead part := by
  rw [rules_eq] at hrule
  simp only [List.mem_cons, List.mem_append, List.not_mem_nil, or_false] at hrule
  rcases hrule with rfl | rfl | hrule | rfl | rfl | rfl
  · obtain ⟨name, rest, -, -, hof⟩ := metaRule_eq_some h
    have hpart := Match.painted_of (congrArg Match.painted hof.symm)
    exact ⟨.inl ⟨congrArg Match.lead hof, '@', name, hpart, rfl⟩, .inl (narrow_metaRule.not_mem_part h)⟩
  · exact wide_expressionRule.edged rfl rfl h
  · exact (narrow_of_mem (List.mem_cons_of_mem _ hrule)).edged (led_of_mem hrule) h
  · exact wide_quotedRule.edged rfl rfl h
  · obtain ⟨-, hof⟩ := unknownRule_eq_some h
    rw [Match.painted_of (congrArg Match.painted hof.symm)]
    exact ⟨.inl ⟨congrArg Match.lead hof, '(', _, rfl, rfl⟩, .inl (by decide)⟩
  · obtain ⟨word, -, hword, hof⟩ := boolRule_eq_some h
    have hfree : '\x1b' ∉ word := by rcases hword with rfl | rfl <;> decide
    rw [Match.painted_of (congrArg Match.painted hof.symm)]
    exact ⟨.inr ⟨⟨[], congrArg Match.lead hof⟩, hfree⟩, .inl hfree⟩

end

/-! ## A run on glyphs -/

/-- The codes that turn a style on. -/
def opening (style : Style) : List Glyph :=
  style.codes.map fun code => .code (Nat.toDigits 10 code)

/-- The code that ends what is painted. -/
def closing : Glyph :=
  .code ['0']

/-- A run of a rule over glyphs behind others: whole glyphs that it puts codes around, and glyphs that it keeps
where it paints nothing. -/
inductive Wraps (rule : Rule) : List Glyph → List Glyph → List Glyph → Prop
  | done {before : List Glyph} : Wraps rule before [] []
  | keep {before gs out : List Glyph} {g : Glyph} : Misses rule (spell before) (spell (g :: gs)) →
      Wraps rule (before ++ [g]) gs out → Wraps rule before (g :: gs) (g :: out)
  | wrap {before part rest out : List Glyph} {style : Style} :
      PaintsAt rule (spell before) style (spell part) (spell rest) → part ≠ [] →
      Wraps rule (before ++ part) rest out →
      Wraps rule before (part ++ rest) (opening style ++ part ++ closing :: out)

theorem spell_opening (style : Style) : spell (opening style) = style.codes.flatMap escape := by
  rw [spell, opening, List.flatMap_map]
  rfl

/-- Codes put around glyphs are written as the painted text. -/
theorem spell_wrapped (style : Style) (part out : List Glyph) :
    spell (opening style ++ part ++ closing :: out) = paint style (spell part) ++ spell out := by
  rw [spell_append, spell_append, spell_cons, spell_opening, paint, List.append_assoc (_ ++ _)]
  rfl

/-- Nothing is seen of the codes that turn a style on. -/
theorem visible_opening (style : Style) : visible (opening style) = [] := by
  cases style <;> rfl

/-- They are read back as they were written. -/
theorem sound_opening (style : Style) : ∀ g ∈ opening style, g.Sound := by
  intro g hg
  obtain ⟨code, -, rfl⟩ := List.mem_map.mp hg
  intro c hc
  rw [isParameter, Nat.isDigit_of_mem_toDigits (by decide) (by decide) hc, Bool.true_or]

section

variable {rule : Rule} (hrule : rule ∈ rules)

include hrule

/-- Inside a code nothing is painted. -/
theorem Scan.keep_inside {before u v rest out : List Char} (hu : u ≠ []) (hpart : ∀ c ∈ u, isEscapePart c = true)
    (hpart' : ∀ c ∈ v, isEscapePart c = true) (h : Scan rule (before ++ u) (v ++ rest) out) :
    ∃ out', out = v ++ out' ∧ Scan rule (before ++ u ++ v) rest out' := by
  induction v generalizing u out with
  | nil => exact ⟨out, rfl, by rwa [List.append_nil]⟩
  | cons c v ih =>
    obtain ⟨hc, hv⟩ := List.forall_mem_cons.mp hpart'
    generalize hbefore : before ++ u = before' at h
    generalize htext : c :: v ++ rest = text at h
    cases h with
    | done => cases htext
    | keep hmiss hscan =>
      obtain ⟨rfl, rfl⟩ := List.cons.inj htext
      have hpart'' : ∀ d ∈ u ++ [c], isEscapePart d = true :=
        List.forall_mem_append.mpr ⟨hpart, List.forall_mem_singleton.mpr hc⟩
      rw [← hbefore, List.append_assoc] at hscan
      obtain ⟨out', rfl, hout'⟩ := ih (List.append_ne_nil_of_left_ne_nil hu _) hpart'' hv hscan
      refine ⟨out', rfl, ?_⟩
      rwa [← List.append_assoc, hbefore, List.append_assoc] at hout'
    | paint hpaints hne hscan =>
      obtain ⟨gap, lead, hgap, hpaints⟩ := hpaints
      exfalso
      rcases (edged_of_mem hrule hpaints).starts with ⟨-, d, tail, rfl, hd⟩ | ⟨⟨front, rfl⟩, -⟩
      · rw [← (List.cons.inj htext).1, hc] at hd
        cases hd
      · obtain ⟨u, last, rfl⟩ := List.eq_nil_or_concat u |>.resolve_left hu
        rw [hgap, List.concat_eq_append, ← List.append_assoc, ← List.append_assoc] at hbefore
        have hlast : last = ' ' := List.singleton_inj.mp (List.append_inj' hbefore rfl).2
        have hblank := hpart last (by simp)
        rw [hlast] at hblank
        cases hblank

/-- **A rule puts codes between glyphs only.** -/
theorem exists_wraps {before gs : List Glyph} {out : List Char} (hsound : ∀ g ∈ gs, g.Sound)
    (h : Scan rule (spell before) (spell gs) out) : ∃ out', out = spell out' ∧ Wraps rule before gs out' := by
  induction hn : gs.length using Nat.strong_induction_on generalizing before gs out with
  | _ n ih =>
    generalize hbefore : spell before = before' at h
    generalize htext : spell gs = text at h
    cases h with
    | done =>
      cases gs with
      | nil => exact ⟨[], rfl, .done⟩
      | cons g gs => cases g <;> cases htext
    | @keep _ cs out c hmiss hscan =>
      cases gs with
      | nil => cases htext
      | cons g gs =>
        obtain ⟨hg, hgs⟩ := List.forall_mem_cons.mp hsound
        obtain ⟨out', hout, hout'⟩ : ∃ out', c :: out = g.text ++ out' ∧
            Scan rule (spell (before ++ [g])) (spell gs) out' := by
          rw [spell_append, hbefore]
          cases g with
          | char d =>
            obtain ⟨rfl, rfl⟩ := List.cons.inj htext
            exact ⟨out, rfl, hscan⟩
          | code body =>
            obtain ⟨rfl, rfl⟩ := List.cons.inj htext
            have hparts := isEscapePart_of_mem hg
            obtain ⟨out', rfl, hout'⟩ := Scan.keep_inside hrule (List.cons_ne_nil _ _)
              (List.forall_mem_singleton.mpr rfl) (List.forall_mem_cons.mp hparts).2 hscan
            have hcode : spell [.code body] = ['\x1b'] ++ ('[' :: body ++ ['m']) := List.append_nil _
            rw [hcode, ← List.append_assoc]
            exact ⟨out', rfl, hout'⟩
        obtain ⟨out'', rfl, hwraps⟩ := ih gs.length (by rw [← hn]; exact Nat.lt_succ_self _) hgs hout' rfl
        refine ⟨g :: out'', hout, .keep ?_ hwraps⟩
        rwa [hbefore, htext]
    | @paint _ part rest out style hpaints hne hscan =>
      obtain ⟨gap, lead, hgap, hpaints'⟩ := id hpaints
      obtain ⟨front, back, rfl, rfl, rfl⟩ : ∃ front back, gs = front ++ back ∧ part = spell front ∧
          rest = spell back := by
        rcases (edged_of_mem hrule hpaints').ends with hfree | ⟨front, c, hpart, hc⟩
        · obtain ⟨back, hgs, hrest⟩ := exists_cut_of_not_mem hsound htext hfree
          exact ⟨part.map .char, back, hgs, (spell_map_char part).symm, hrest⟩
        · exact exists_cut_of_last hsound htext hc ⟨front, hpart⟩
      have hfront : front ≠ [] := fun hnil => hne (by rw [hnil]; rfl)
      rw [← hbefore, ← spell_append] at hscan
      have hlength : back.length < n := by
        have := List.length_pos_iff.mpr hfront
        rw [← hn, List.length_append]
        omega
      obtain ⟨out', rfl, hwraps⟩ := ih back.length hlength (List.forall_mem_append.mp hsound).2 hscan rfl
      refine ⟨opening style ++ front ++ closing :: out', (spell_wrapped style front out').symm, ?_⟩
      exact .wrap (hbefore ▸ hpaints) hfront hwraps

end

section

variable {rule : Rule} {before gs out : List Glyph}

/-- A run does not change what is seen. -/
theorem Wraps.visible_eq (h : Wraps rule before gs out) : visible out = visible gs := by
  induction h with
  | done => rfl
  | keep _ _ ih => rw [visible_cons, visible_cons, ih]
  | wrap _ _ _ ih => simp [visible_opening, closing, ih]

/-- After a run all glyphs are read back as they were written, if they were before. -/
theorem Wraps.sound (h : Wraps rule before gs out) (hsound : ∀ g ∈ gs, g.Sound) : ∀ g ∈ out, g.Sound := by
  induction h with
  | done => exact hsound
  | keep _ _ ih =>
    obtain ⟨hg, hgs⟩ := List.forall_mem_cons.mp hsound
    exact List.forall_mem_cons.mpr ⟨hg, ih hgs⟩
  | wrap _ _ _ ih =>
    obtain ⟨hpart, hrest⟩ := List.forall_mem_append.mp hsound
    refine List.forall_mem_append.mpr ⟨List.forall_mem_append.mpr ⟨sound_opening _, hpart⟩, ?_⟩
    refine List.forall_mem_cons.mpr ⟨?_, ih hrest⟩
    exact List.forall_mem_singleton.mpr rfl

end

/-! ## A coloured line -/

/-- A text of characters only. -/
theorem sound_map_char {cs : List Char} (h : '\x1b' ∉ cs) : ∀ g ∈ cs.map Glyph.char, g.Sound := by
  intro g hg
  obtain ⟨c, hc, rfl⟩ := List.mem_map.mp hg
  exact fun heq => h (heq ▸ hc)

/-- Rules that run one after the other, each with a run of the given kind. -/
inductive Runs (kind : Rule → List Glyph → List Glyph → List Glyph → Prop) : List Rule → List Glyph → List Glyph → Prop
  | nil {gs : List Glyph} : Runs kind [] gs gs
  | cons {rule : Rule} {rs : List Rule} {gs mid out : List Glyph} : kind rule [] gs mid → Runs kind rs mid out →
      Runs kind (rule :: rs) gs out

/-- Rules that run in two parts run one after the other. -/
theorem runs_append {kind : Rule → List Glyph → List Glyph → List Glyph → Prop} {rs rs' : List Rule}
    {gs out : List Glyph} : Runs kind (rs ++ rs') gs out ↔ ∃ mid, Runs kind rs gs mid ∧ Runs kind rs' mid out := by
  induction rs generalizing gs with
  | nil =>
    constructor
    · exact fun h => ⟨gs, .nil, h⟩
    · rintro ⟨mid, ⟨⟩, h⟩
      exact h
  | cons rule rs ih =>
    constructor
    · rintro (_ | ⟨hrule, h⟩)
      obtain ⟨mid, hrs, hrs'⟩ := ih.mp h
      exact ⟨mid, .cons hrule hrs, hrs'⟩
    · rintro ⟨mid, _ | ⟨hrule, hrs⟩, hrs'⟩
      exact .cons hrule (ih.mpr ⟨mid, hrs, hrs'⟩)

/-- Any number of runs do not change what is seen. -/
theorem Runs.visible_eq {rs : List Rule} {gs out : List Glyph} (h : Runs Wraps rs gs out) :
    visible out = visible gs := by
  induction h with
  | nil => rfl
  | cons hwraps _ ih => rw [ih, hwraps.visible_eq]

/-- They keep glyphs that are read back as they were written. -/
theorem Runs.sound {rs : List Rule} {gs out : List Glyph} (h : Runs Wraps rs gs out)
    (hsound : ∀ g ∈ gs, g.Sound) : ∀ g ∈ out, g.Sound := by
  induction h with
  | nil => exact hsound
  | cons hwraps _ ih => exact ih (hwraps.sound hsound)

/-- Each rule, run over a line, puts codes around whole glyphs and does nothing else. -/
theorem wraps_apply {rule : Rule} (hrule : rule ∈ rules) {gs : List Glyph} (hsound : ∀ g ∈ gs, g.Sound) :
    ∃ out, apply (spell gs) rule = spell out ∧ Wraps rule [] gs out :=
  exists_wraps hrule hsound (scan_apply (lawful_of_mem hrule) (spell gs))

/-- Rules that run on a text of sound glyphs wrap some of them. -/
theorem exists_runs {rs : List Rule} (hrs : ∀ rule ∈ rs, rule ∈ rules) {gs : List Glyph}
    (hsound : ∀ g ∈ gs, g.Sound) : ∃ out, rs.foldl apply (spell gs) = spell out ∧ Runs Wraps rs gs out := by
  induction rs generalizing gs with
  | nil => exact ⟨gs, rfl, .nil⟩
  | cons rule rs ih =>
    obtain ⟨hrule, hrs⟩ := List.forall_mem_cons.mp hrs
    obtain ⟨mid, hmid, hwraps⟩ := wraps_apply hrule hsound
    obtain ⟨out, hout, hruns⟩ := ih hrs (hwraps.sound hsound)
    exact ⟨out, by rw [List.foldl_cons, hmid, hout], .cons hwraps hruns⟩

/-- The glyphs of a coloured line. -/
theorem exists_runs_line {text : String} (h : '\x1b' ∉ text.toList) :
    ∃ out, glyphs (line text).toList = out ∧ Runs Wraps rules (text.toList.map .char) out := by
  obtain ⟨out, hout, hruns⟩ := exists_runs (fun _ h => h) (sound_map_char h)
  refine ⟨out, ?_, hruns⟩
  rw [spell_map_char] at hout
  rw [line, String.toList_ofList, hout, glyphs_spell (hruns.sound (sound_map_char h))]

/-- A coloured line without its escapes is the line, if it had none. -/
theorem withoutEscapes_line {text : String} (h : '\x1b' ∉ text.toList) : withoutEscapes (line text) = text := by
  obtain ⟨out, hout, hruns⟩ := exists_runs_line h
  rw [withoutEscapes, hout, hruns.visible_eq, visible_map_char, String.ofList_toList]

/-- The same for a root label. -/
theorem withoutEscapes_root {label : String} (h : '\x1b' ∉ label.toList) : withoutEscapes (root label) = label := by
  have hspell := spell_wrapped .highlight (label.toList.map .char) []
  have hsound : ∀ g ∈ opening .highlight ++ label.toList.map .char ++ [closing], g.Sound :=
    List.forall_mem_append.mpr ⟨List.forall_mem_append.mpr ⟨sound_opening _, sound_map_char h⟩,
      List.forall_mem_singleton.mpr (List.forall_mem_singleton.mpr rfl)⟩
  rw [spell_map_char, spell_nil, List.append_nil] at hspell
  rw [withoutEscapes, root, String.toList_ofList, ← hspell, glyphs_spell hsound]
  simp [visible_opening, closing]

/-- A line stays as it is exactly if no rule paints anything in it. -/
theorem line_eq_self_iff {text : String} : line text = text ↔ ∀ rule ∈ rules, Plain rule text.toList := by
  rw [← foldl_apply_eq_self_iff fun _ => lawful_of_mem, line, ← String.toList_inj, String.toList_ofList]

/-- **Colouring only adds escapes.** For lines without escapes there are as many coloured lines, and without their
escapes they are the lines again. The lines below the root get no escapes only if no rule paints anything in them. -/
theorem withoutEscapes_tree (lines : List String) (h : ∀ text ∈ lines, '\x1b' ∉ text.toList) :
    (tree lines).length = lines.length ∧ (tree lines).map withoutEscapes = lines ∧
    ((tree lines).tail = lines.tail ↔ ∀ text ∈ lines.tail, ∀ rule ∈ rules, Plain rule text.toList) := by
  cases lines with
  | nil => exact ⟨rfl, rfl, by simp [tree]⟩
  | cons label lines =>
    obtain ⟨hlabel, hlines⟩ := List.forall_mem_cons.mp h
    refine ⟨by simp [tree], ?_, ?_⟩
    · rw [tree, List.map_cons, List.map_map, withoutEscapes_root hlabel]
      congr 1
      exact (List.map_congr_left fun text htext => withoutEscapes_line (hlines text htext)).trans (List.map_id _)
    · have hmap : lines.map line = lines.map id ↔ ∀ text ∈ lines, line text = text := List.map_inj_left
      rw [List.map_id] at hmap
      rw [tree, List.tail_cons, List.tail_cons, hmap]
      exact forall₂_congr fun text _ => line_eq_self_iff

/-- The type behind a meta property: when the types run, `0m` stands in front of it, the end of a code, and is
taken for its key. -/
theorem withoutEscapes_tree_link :
    (∀ text ∈ ["Link", "├── @if [Vendor:If]", "└── href => \"/\""], '\x1b' ∉ text.toList) ∧
    (tree ["Link", "├── @if [Vendor:If]", "└── href => \"/\""]).map withoutEscapes =
      ["Link", "├── @if [Vendor:If]", "└── href => \"/\""] := by
  have h : ∀ text ∈ ["Link", "├── @if [Vendor:If]", "└── href => \"/\""], '\x1b' ∉ text.toList := by
    decide +kernel
  exact ⟨h, (withoutEscapes_tree _ h).2.1⟩

end FusionInspect.Colour
