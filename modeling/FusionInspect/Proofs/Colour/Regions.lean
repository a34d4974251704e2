import FusionInspect.Proofs.Colour.Places
import Mathlib.Data.List.Infix

/-!
# Crowded lines

An expression or a quoted text of a line is a REGION of it. A line is CROWDED if a region of it has the start of
something in it that another rule paints: a meta property, a type, a name behind a connector, or a region of the other
kind. Whether a line is crowded is asked of the line alone, without any codes.

A region is found among glyphs as it is on the line, and a narrow rule cannot tell a region with codes around it from
one without. So what runs on the coloured line find in a region, the line alone shows (`crowded_of_narrow`).
-/

namespace FusionInspect.Colour

/-- Whether a rule paints something in a match at the start of a text. -/
def paints (rule : Rule) (text : List Char) : Bool :=
  ((rule text).bind Match.painted).isSome

/-- The rules for regions, each with the rules that may paint something in them. -/
def rivalries : List (Rule × List Rule) :=
  [(expressionRule, quotedRule :: narrowRules), (quotedRule, expressionRule :: narrowRules)]

/-- Whether something that another rule paints has its match start in a region of the line. -/
def crowded (text : List Char) : Bool :=
  text.tails.any fun back => rivalries.any fun (wide, rivals) => (wide back).any fun m =>
    (List.range m.covered.length).any fun k => rivals.any fun rival => paints rival (back.drop k)

/-- What a rule for regions paints on a line, between what stands before and behind it. -/
structure Region (wide : Rule) (text x content y : List Char) : Prop where
  split : text = x ++ (content ++ y)
  paints : ∃ style, wide (content ++ y) = some (.of style [] content)

/-! ## Text and glyphs -/

section

variable {gs : List Glyph} {mark : Char} {u v : List Char}

/-- A character that no code has is written exactly where it is seen. -/
theorem mem_spell {c : Char} (hc : isEscapePart c = false) (hsound : ∀ g ∈ gs, g.Sound) :
    c ∈ spell gs ↔ c ∈ visible gs := by
  induction gs with
  | nil => rfl
  | cons g gs ih =>
    obtain ⟨hg, hgs⟩ := List.forall_mem_cons.mp hsound
    rw [spell_cons, List.mem_append, ih hgs]
    cases g with
    | char d => rw [visible_char, Glyph.text, List.mem_singleton, List.mem_cons]
    | code body =>
      rw [visible_code]
      refine or_iff_right fun hmem => ?_
      rw [isEscapePart_of_mem hg c hmem] at hc
      cases hc

/-- A text without mark and line break in front does not matter. -/
theorem noneOnLine_append (hmark : mark ∉ u) (hline : '\n' ∉ u) :
    NoneOnLine mark (u ++ v) ↔ NoneOnLine mark v := by
  induction u with
  | nil => rfl
  | cons c u ih =>
    obtain ⟨hc, hmark⟩ := not_or.mp (mt List.mem_cons.mpr hmark)
    obtain ⟨hc', hline⟩ := not_or.mp (mt List.mem_cons.mpr hline)
    rw [List.cons_append, noneOnLine_cons (Ne.symm hc) (Ne.symm hc'), ih hmark hline]

/-- Codes do not matter to whether there is a mark on the line. -/
theorem noneOnLine_spell (hmark : isEscapePart mark = false) (hline : mark ≠ '\n') (hsound : ∀ g ∈ gs, g.Sound) :
    NoneOnLine mark (spell gs) ↔ NoneOnLine mark (visible gs) := by
  induction gs with
  | nil => rfl
  | cons g gs ih =>
    obtain ⟨hg, hgs⟩ := List.forall_mem_cons.mp hsound
    cases g with
    | char c =>
      change NoneOnLine mark (c :: spell gs) ↔ NoneOnLine mark (c :: visible gs)
      by_cases hc : c = mark
      · rw [hc]
        exact iff_of_false not_noneOnLine_mark not_noneOnLine_mark
      · by_cases hc' : c = '\n'
        · rw [hc']
          exact iff_of_true (noneOnLine_newline hline) (noneOnLine_newline hline)
        · rw [noneOnLine_cons hc hc', noneOnLine_cons hc hc', ih hgs]
    | code body =>
      have hfree : ∀ d, isEscapePart d = false → d ∉ (Glyph.code body).text := by
        intro d hd hmem
        rw [isEscapePart_of_mem hg d hmem] at hd
        cases hd
      rw [spell_cons, visible_code, noneOnLine_append (hfree mark hmark) (hfree '\n' (by decide)), ih hgs]

end

/-! ## Rules for regions -/

/-- A wide rule whose fence and mark are stops. -/
structure Fenced (rule : Rule) (style : Style) (fence : List Char) (mark : Char) : Prop extends
    Wide rule style fence mark where
  nonempty : fence ≠ []
  stops : ∀ c ∈ fence ++ [mark], isStop c = true ∧ isEscapePart c = false

theorem fenced_expressionRule : Fenced expressionRule .magenta ['$', '\x7b'] '\x7d' :=
  ⟨wide_expressionRule, List.cons_ne_nil _ _, List.forall_mem_cons.mpr ⟨⟨rfl, rfl⟩,
    List.forall_mem_cons.mpr ⟨⟨rfl, rfl⟩, List.forall_mem_singleton.mpr ⟨rfl, rfl⟩⟩⟩⟩

theorem fenced_quotedRule : Fenced quotedRule .green ['"'] '"' :=
  ⟨wide_quotedRule, List.cons_ne_nil _ _,
    List.forall_mem_cons.mpr ⟨⟨rfl, rfl⟩, List.forall_mem_singleton.mpr ⟨rfl, rfl⟩⟩⟩

/-- Both rules for regions have such a fence and mark. -/
theorem fenced_of_mem {pair : Rule × List Rule} (h : pair ∈ rivalries) :
    ∃ style fence mark, Fenced pair.1 style fence mark := by
  simp only [rivalries, List.mem_cons, List.not_mem_nil, or_false] at h
  rcases h with rfl | rfl
  · exact ⟨_, _, _, fenced_expressionRule⟩
  · exact ⟨_, _, _, fenced_quotedRule⟩

section

variable {rule : Rule} {style : Style} {fence : List Char} {mark : Char} (h : Fenced rule style fence mark)

include h

theorem Fenced.mark_stop : isStop mark = true ∧ isEscapePart mark = false :=
  h.stops mark (by simp)

theorem Fenced.mark_ne : mark ≠ '\n' := by
  rintro rfl
  cases h.mark_stop.1

theorem Fenced.exists_first : ∃ first more, fence = first :: more ∧ isStop first = true := by
  obtain ⟨first, more, hfence⟩ := List.exists_cons_of_ne_nil h.nonempty
  exact ⟨first, more, hfence, (h.stops first (by simp [hfence])).1⟩

/-- What a rule for regions matches, it paints. -/
theorem Fenced.exists_content {text : List Char} {m : Match} (hm : rule text = some m) :
    ∃ content y, text = content ++ y ∧ m = .of style [] content := by
  obtain ⟨body, y, rfl, -, -, -, rfl⟩ := h.eq_some.mp hm
  exact ⟨fence ++ (body ++ [mark]), y, by simp, rfl⟩

theorem Fenced.lead_eq_nil {text lead part : List Char} {style' : Style}
    (hpaints : rule text = some (.of style' lead part)) : lead = [] := by
  obtain ⟨content, y, -, hof⟩ := h.exists_content hpaints
  exact congrArg Match.lead hof

/-- A region is a fence, something on the same line, and the last mark on it. -/
theorem Fenced.region_iff {x content y : List Char} : Region rule (x ++ (content ++ y)) x content y ↔
    ∃ body, content = fence ++ (body ++ [mark]) ∧ body ≠ [] ∧ '\n' ∉ body ∧ NoneOnLine mark y := by
  constructor
  · rintro ⟨-, style', hpaints⟩
    obtain ⟨body, rest, hsplit, hne, hbody, hrest, hof⟩ := h.eq_some.mp hpaints
    have hcontent : content = fence ++ (body ++ [mark]) := (Match.painted_of (congrArg Match.painted hof)).symm
    rw [hcontent] at hsplit
    obtain rfl : y = rest := by simpa using hsplit
    exact ⟨body, hcontent, hne, hbody, hrest⟩
  · rintro ⟨body, rfl, hne, hbody, hy⟩
    exact ⟨rfl, style, h.eq_some.mpr ⟨body, y, by simp, hne, hbody, hy, rfl⟩⟩

/-- A region goes from its fence to the last mark of its line. -/
theorem Fenced.exists_body {text x content y : List Char} (hregion : Region rule text x content y) :
    ∃ body, content = fence ++ (body ++ [mark]) ∧ body ≠ [] ∧ '\n' ∉ body ∧ NoneOnLine mark y := by
  have hsplit := hregion.split
  rw [hsplit] at hregion
  exact h.region_iff.mp hregion

theorem Fenced.content_ne_nil {text x content y : List Char} (hregion : Region rule text x content y) :
    content ≠ [] := by
  obtain ⟨body, rfl, -⟩ := h.exists_body hregion
  exact List.append_ne_nil_of_left_ne_nil h.nonempty _

/-- What a rule for regions paints among glyphs: from its fence to its mark, with something between them. -/
theorem Fenced.exists_mid {part rest : List Glyph} (hpart : ∀ g ∈ part, g.Sound) (hrest : ∀ g ∈ rest, g.Sound)
    {style' : Style} (hpaints : rule (spell part ++ spell rest) = some (.of style' [] (spell part))) :
    ∃ mid, part = fence.map .char ++ (mid ++ [.char mark]) ∧ mid ≠ [] ∧ '\n' ∉ visible mid ∧
      NoneOnLine mark (visible rest) := by
  obtain ⟨body, rest', hsplit, hne, hbody, hrest', hof⟩ := h.eq_some.mp hpaints
  have htext : spell part = fence ++ (body ++ [mark]) := (Match.painted_of (congrArg Match.painted hof)).symm
  rw [htext] at hsplit
  obtain rfl : spell rest = rest' := by simpa using hsplit
  have hescape : '\x1b' ∉ fence := fun hmem => by
    cases (h.stops _ (List.mem_append_left _ hmem)).2
  obtain ⟨back, rfl, hback⟩ := exists_cut_of_not_mem hpart htext hescape
  obtain ⟨-, hsound⟩ := List.forall_mem_append.mp hpart
  obtain ⟨mid, rfl, rfl⟩ := exists_last_char h.mark_stop.2 hback.symm
  obtain ⟨hmid, -⟩ := List.forall_mem_append.mp hsound
  refine ⟨mid, rfl, fun hnil => hne (by rw [hnil]; rfl), ?_, ?_⟩
  · rwa [← mem_spell (by decide) hmid]
  · rwa [← noneOnLine_spell h.mark_stop.2 h.mark_ne hrest]

/-- Glyphs between a fence and the last mark are painted, whatever codes are among them. -/
theorem Fenced.paints_of_mid {mid rest : List Glyph} (hmid : ∀ g ∈ mid, g.Sound) (hrest : ∀ g ∈ rest, g.Sound)
    (hne : mid ≠ []) (hline : '\n' ∉ visible mid) (hnone : NoneOnLine mark (visible rest)) :
    rule (spell (fence.map .char ++ (mid ++ [.char mark])) ++ spell rest) =
      some (.of style [] (spell (fence.map .char ++ (mid ++ [.char mark])))) := by
  have htext : spell (fence.map .char ++ (mid ++ [.char mark])) = fence ++ (spell mid ++ [mark]) := by
    simp [Glyph.text]
  rw [htext]
  refine h.eq_some.mpr ⟨spell mid, spell rest, by simp, ?_, ?_, ?_, rfl⟩
  · intro hnil
    obtain ⟨g, mid, rfl⟩ := List.exists_cons_of_ne_nil hne
    cases g <;> cases hnil
  · rwa [mem_spell (by decide) hmid]
  · rwa [noneOnLine_spell h.mark_stop.2 h.mark_ne hrest]

/-- A region of the line is painted among glyphs where its fence stands together. -/
theorem Fenced.exists_part {gs front back : List Glyph} (hsound : ∀ g ∈ gs, g.Sound) {content y : List Char}
    (hregion : Region rule (visible gs) (visible front) content y) (hgs : gs = front ++ (fence.map .char ++ back)) :
    ∃ part rest, gs = front ++ (part ++ rest) ∧ visible part = content ∧ visible rest = y ∧
      rule (spell part ++ spell rest) = some (.of style [] (spell part)) := by
  have hsplit := hregion.split
  obtain ⟨body, rfl, hne, hbody, hy⟩ := h.exists_body hregion
  subst hgs
  obtain ⟨mid, rest, rfl, hmid, hrest⟩ : ∃ mid rest, back = mid ++ .char mark :: rest ∧ visible mid = body ∧
      visible rest = y := by
    refine exists_char_of_visible ?_
    simpa using hsplit
  obtain ⟨-, hback⟩ := List.forall_mem_append.mp (List.forall_mem_append.mp hsound).2
  obtain ⟨hmidSound, hrestSound⟩ := List.forall_mem_append.mp hback
  refine ⟨fence.map .char ++ (mid ++ [.char mark]), rest, by simp, by simp [hmid], hrest, ?_⟩
  refine h.paints_of_mid hmidSound (List.forall_mem_cons.mp hrestSound).2 ?_ (by rwa [hmid]) (by rwa [hrest])
  rintro rfl
  exact hne hmid.symm

/-- What is painted among glyphs is a region of the line, if something is seen between its fence and its mark. -/
theorem Fenced.region {f part rest mid : List Glyph} (hpart : part = fence.map .char ++ (mid ++ [.char mark]))
    (hmid : visible mid ≠ []) (hline : '\n' ∉ visible mid) (hnone : NoneOnLine mark (visible rest)) :
    Region rule (visible (f ++ (part ++ rest))) (visible f) (visible part) (visible rest) := by
  rw [visible_append, visible_append, h.region_iff]
  exact ⟨visible mid, by simp [hpart], hmid, hline, hnone⟩

/-- A text from a region on, up to the mark that ends the region. -/
theorem Fenced.exists_mark {text x content y left right : List Char} (hregion : Region rule text x content y)
    (hsplit : content = left ++ right) (hright : right ≠ []) : ∃ w, right = w ++ [mark] := by
  obtain ⟨body, rfl, -⟩ := h.exists_body hregion
  obtain ⟨w, last, rfl⟩ := List.eq_nil_or_concat right |>.resolve_left hright
  rw [List.concat_eq_append, ← List.append_assoc, ← List.append_assoc] at hsplit
  rw [List.concat_eq_append, List.singleton_inj.mp (List.append_inj' hsplit rfl).2]
  exact ⟨w, rfl⟩

/-- A region starts with a stop. -/
theorem Fenced.exists_stop {text x content y : List Char} (hregion : Region rule text x content y) :
    ∃ first more, content = first :: more ∧ first ∈ fence ∧ isStop first = true := by
  obtain ⟨body, rfl, -⟩ := h.exists_body hregion
  obtain ⟨first, more, rfl, hstop⟩ := h.exists_first
  exact ⟨first, _, rfl, List.mem_cons_self, hstop⟩

end

/-! ## Crowded lines -/

/-- The test for painting finds the texts that the rule paints something of. -/
theorem paints_iff {rule : Rule} {text : List Char} :
    paints rule text = true ↔ ∃ style lead part, rule text = some (.of style lead part) := by
  rw [paints, Option.isSome_iff_exists]
  constructor
  · rintro ⟨⟨style, part⟩, h⟩
    obtain ⟨m, hm, hpainted⟩ := Option.bind_eq_some_iff.mp h
    exact ⟨style, m.lead, part, by rw [hm, Match.of, ← hpainted]⟩
  · rintro ⟨style, lead, part, h⟩
    exact ⟨(style, part), by rw [h]; rfl⟩

/-- A line is crowded exactly if a rival paints something from a place in a region on. -/
theorem crowded_iff {text : List Char} : crowded text = true ↔
    ∃ pair ∈ rivalries, ∃ rival ∈ pair.2, ∃ x content y u v, Region pair.1 text x content y ∧ text = u ++ v ∧
      x.length ≤ u.length ∧ u.length < x.length + content.length ∧ paints rival v = true := by
  simp only [crowded, List.any_eq_true, List.mem_tails, Option.any_eq_true, List.mem_range]
  constructor
  · rintro ⟨back, ⟨x, rfl⟩, pair, hpair, m, hm, k, hk, rival, hrival, hpaints⟩
    obtain ⟨style, fence, mark, hwide⟩ := fenced_of_mem hpair
    obtain ⟨content, y, rfl, rfl⟩ := hwide.exists_content hm
    change k < content.length at hk
    refine ⟨pair, hpair, rival, hrival, x, content, y, x ++ (content ++ y).take k, _, ⟨rfl, style, hm⟩, ?_, ?_, ?_,
      hpaints⟩
    · rw [List.append_assoc, List.take_append_drop]
    · simp
    · rw [List.length_append, List.length_take]
      omega
  · rintro ⟨pair, hpair, rival, hrival, x, content, y, u, v, ⟨rfl, style, hm⟩, hsplit, hle, hlt, hpaints⟩
    refine ⟨content ++ y, List.suffix_append _ _, pair, hpair, _, hm, u.length - x.length, ?_, rival, hrival, ?_⟩
    · change u.length - x.length < content.length
      omega
    · obtain ⟨inner, rfl, hinner⟩ := exists_behind hsplit.symm hle
      rw [← hinner, List.length_append, Nat.add_sub_cancel_left, List.drop_left]
      exact hpaints

section

variable {text : List Char}

/-- What overlaps a region of the other kind crowds the line. -/
theorem crowded_of_overlap {x content y x' content' y' : List Char}
    (h : Region expressionRule text x content y) (h' : Region quotedRule text x' content' y')
    (hlt : x.length < x'.length + content'.length) (hlt' : x'.length < x.length + content.length) :
    crowded text = true := by
  obtain ⟨style, hpaints⟩ := h.paints
  obtain ⟨style', hpaints'⟩ := h'.paints
  rcases Nat.le_total x.length x'.length with hle | hle
  · exact crowded_iff.mpr ⟨_, List.mem_cons_self, quotedRule, List.mem_cons_self, x, content, y, x', content' ++ y', h,
      h'.split, hle, hlt', paints_iff.mpr ⟨_, _, _, hpaints'⟩⟩
  · exact crowded_iff.mpr ⟨_, List.mem_cons_of_mem _ List.mem_cons_self, expressionRule, List.mem_cons_self, x',
      content', y', x, content ++ y, h', h.split, hle, hlt, paints_iff.mpr ⟨_, _, _, hpaints⟩⟩

/-- Each narrow rule is a rival of both rules for regions. -/
theorem mem_rivals {pair : Rule × List Rule} (hpair : pair ∈ rivalries) {rule : Rule} (hrule : rule ∈ narrowRules) :
    rule ∈ pair.2 := by
  simp only [rivalries, List.mem_cons, List.not_mem_nil, or_false] at hpair
  rcases hpair with rfl | rfl
  · exact List.mem_cons_of_mem _ hrule
  · exact List.mem_cons_of_mem _ hrule

/-- Something that a narrow rule paints within a region, whose characters stand together among the glyphs, crowds the
line. -/
theorem crowded_of_narrow {pair : Rule × List Rule} (hpair : pair ∈ rivalries) {rule : Rule}
    (hrule : rule ∈ narrowRules) {x content y : List Char} (hregion : Region pair.1 text x content y)
    {before after front rest : List Glyph} {cs : List Char} {style : Style} (hx : visible before = x)
    (hplace : before ++ (content.map .char ++ after) = front ++ (cs.map .char ++ rest))
    (hle : x.length < (visible front).length) (hlt : (visible front).length < x.length + content.length)
    (hpaints : PaintsAt rule (spell front) style cs (spell rest)) : crowded text = true := by
  have hnarrow := narrow_of_mem hrule
  obtain ⟨style', fence, mark, hwide⟩ := fenced_of_mem hpair
  obtain ⟨gap, lead, hgap, hpaints⟩ := hpaints
  obtain ⟨c, cs, rfl⟩ := List.exists_cons_of_ne_nil (hnarrow.solid hpaints rfl).1
  subst hx
  obtain ⟨left, right, hcontent, rfl, htail⟩ := exists_of_together hplace (Nat.le_of_lt hle) hlt
  -- what leads the match has no stop in it, so it starts behind the first character of the region
  have hlead : ∃ start, left = start ++ lead := by
    rw [spell_append, spell_map_char] at hgap
    rcases List.append_eq_append_iff.mp hgap with ⟨start, -, hstart⟩ | ⟨more, -, rfl⟩
    · exact ⟨start, hstart⟩
    · obtain ⟨first, rest', hfirst, -, hstop⟩ := hwide.exists_stop hregion
      cases left with
      | nil => simp at hle
      | cons d left =>
        rw [hfirst] at hcontent
        have hfree := hnarrow.free hpaints first (by simp [Match.covered, Match.of, (List.cons.inj hcontent).1])
        rw [hstop] at hfree
        cases hfree
  obtain ⟨start, rfl⟩ := hlead
  obtain ⟨w, hw⟩ := hwide.exists_mark hregion hcontent (List.cons_ne_nil _ _)
  have hafter : lead ++ (c :: cs ++ spell rest) = lead ++ w ++ mark :: spell after := by
    have hspell : spell (cs.map .char ++ rest) = spell (right.map .char ++ after) := congrArg spell htail
    rw [spell_append, spell_append, spell_map_char, spell_map_char] at hspell
    rw [List.cons_append, hspell, ← List.cons_append, hw]
    simp
  have hplain : rule (lead ++ w ++ mark :: y) = some (.of style lead (c :: cs)) := by
    rw [hnarrow.stops hwide.mark_stop.1, ← hnarrow.stops hwide.mark_stop.1 (lead ++ w) (spell after), ← hafter,
      hpaints]
  refine crowded_iff.mpr ⟨pair, hpair, rule, mem_rivals hpair hrule, visible before, content, y,
    visible before ++ start, lead ++ w ++ mark :: y, hregion, ?_, ?_, ?_, paints_iff.mpr ⟨_, _, _, hplain⟩⟩
  · rw [hregion.split, hcontent, hw]
    simp
  · simp
  · rw [hcontent]
    simp only [List.length_append, List.length_cons]
    omega

end

end FusionInspect.Colour
