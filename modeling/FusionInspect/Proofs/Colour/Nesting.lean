import FusionInspect.Display.Drawing
import FusionInspect.Proofs.Colour.Uncrowded

/-!
# Spans within spans

The coloured line has a span within another one exactly if the line is crowded (`nested_line_iff`). One half is that
on a line that is not crowded all runs are calm. The other half is here: where all runs are calm, each region is found
by its rule and painted from end to end, so no rule has found anything else in it.

Calm runs leave the codes of the runs before them where they are. So it is enough to look at the line as it stands
when the quoted texts are about to be painted: expressions are painted then, quoted texts are bare, and neither has a
code in it.
-/

namespace FusionInspect.Colour

/-! ## Bare text -/

/-- Behind the first text, the second one stands together and is not painted. -/
def Bare (gs : List Glyph) (x cs : List Char) : Prop :=
  ∃ front back, gs = front ++ (cs.map .char ++ back) ∧ visible front = x ∧ Pen.idle.run? front = some .idle

section

variable {gs out : List Glyph} {rs : List Rule} {x cs x' cs' : List Char} {n : Nat}

/-- Within a text that stands together there is no code. -/
theorem Bare.not_codeAt (h : Bare gs x cs) (hlt : x.length < n) (hlt' : n < x.length + cs.length) :
    ¬CodeAt gs n := by
  obtain ⟨front, back, rfl, rfl, -⟩ := h
  exact not_codeAt_together hlt hlt'

/-- What is painted and what is bare do not overlap. -/
theorem Painted.not_bare (h : Painted gs x cs) (hcs : cs ≠ []) (hcs' : cs' ≠ [])
    (hlt : x.length < x'.length + cs'.length) (hlt' : x'.length < x.length + cs.length) : ¬Bare gs x' cs' := by
  rintro ⟨front', back', hgs', rfl, hidle⟩
  obtain ⟨c', cs', rfl⟩ := List.exists_cons_of_ne_nil hcs'
  rcases Nat.le_total x.length (visible front').length with hle | hle
  · exact h.ne_idle hgs' hle hlt' hidle
  · obtain ⟨front, back, pen, hgs, rfl, hrun, hpen⟩ := h
    obtain ⟨c, cs, rfl⟩ := List.exists_cons_of_ne_nil hcs
    obtain ⟨left, right, -, rfl, -⟩ := exists_of_together (hgs'.symm.trans hgs) hle hlt
    rw [Pen.run?_append_of hidle, Pen.run?_idle_chars] at hrun
    exact hpen (Option.some.inj hrun).symm

/-! ## Runs -/

/-- What is painted stays painted in all runs that follow. -/
theorem Runs.painted (h : Runs Calm rs gs out) (hgs : Painted gs x cs) (hcs : cs ≠ []) : Painted out x cs := by
  induction h with
  | nil => exact hgs
  | cons hcalm _ ih => exact ih (hcalm.painted hgs hcs)

/-- Codes stay where they are in all runs that follow. -/
theorem Runs.codeAt (h : Runs Calm rs gs out) (hcode : CodeAt gs n) : CodeAt out n := by
  induction h with
  | nil => exact hcode
  | cons hcalm _ ih => exact ih (hcalm.wraps.codeAt hcode)

theorem Runs.stage {text : List Char} (h : Runs Calm rs gs out) (hgs : Stage text gs) : Stage text out := by
  induction h with
  | nil => exact hgs
  | cons hcalm _ ih => exact ih (hgs.step hcalm.wraps)

/-- The run of one of the rules, with the runs before it and behind it. -/
theorem Runs.exists_run (h : Runs Calm rs gs out) {rule : Rule} (hrule : rule ∈ rs) :
    ∃ rs₁ rs₂ mid mid', Runs Calm rs₁ gs mid ∧ Calm rule [] mid mid' ∧ Runs Calm rs₂ mid' out := by
  obtain ⟨rs₁, rs₂, rfl⟩ := List.append_of_mem hrule
  obtain ⟨mid, hbefore, _ | ⟨hcalm, hbehind⟩⟩ := runs_append.mp h
  exact ⟨rs₁, rs₂, mid, _, hbefore, hcalm, hbehind⟩

end

/-! ## A region is painted as a whole -/

section

variable {text x content y x' content' y' : List Char} {rule : Rule} {style : Style} {fence : List Char} {mark : Char}
  {gs out : List Glyph}

/-- A region lies on one line. -/
theorem Fenced.not_mem_newline (h : Fenced rule style fence mark) (hregion : Region rule text x content y) :
    '\n' ∉ content := by
  obtain ⟨body, rfl, -, hbody, -⟩ := h.exists_body hregion
  have hfence : '\n' ∉ fence := fun hmem => by
    cases (h.stops _ (List.mem_append_left _ hmem)).1
  have hmark := h.mark_ne
  simp [hfence, hbody, hmark.symm]

/-- A region does not reach beyond the end of another one of its kind. -/
theorem Fenced.end_le (h : Fenced rule style fence mark) (hregion : Region rule text x content y)
    (hregion' : Region rule text x' content' y') (hlt : x.length < x'.length + content'.length) :
    x.length + content.length ≤ x'.length + content'.length := by
  refine Nat.le_of_not_lt fun hend => ?_
  have hsplit : x' ++ content' ++ y' = x ++ (content ++ y) := by
    rw [← hregion.split, hregion'.split, List.append_assoc]
  obtain ⟨inner, hinner, hy'⟩ := exists_behind hsplit (by rw [List.length_append]; omega)
  have hlength : inner.length < content.length := by
    have := congrArg List.length hinner
    simp only [List.length_append] at this
    omega
  obtain ⟨c, back, hcontent, rfl⟩ := exists_inside hy' hlength
  obtain ⟨w, hw⟩ := h.exists_mark hregion hcontent (List.cons_ne_nil _ _)
  obtain ⟨-, -, -, -, hnone⟩ := h.exists_body hregion'
  have hmem : '\n' ∈ w := hnone w y (by rw [hw]; simp)
  refine h.not_mem_newline hregion ?_
  rw [hcontent, hw]
  exact List.mem_append_right _ (List.mem_append_left _ hmem)

/-- A region that starts within another one of its kind is the end of it. -/
theorem Fenced.eq_of_inside (h : Fenced rule style fence mark) {left tail : List Char}
    (hregion : Region rule text (x ++ left) content y) (hregion' : Region rule text x (left ++ tail) y')
    (htail : tail ≠ []) : tail = content := by
  have hpos := List.length_pos_iff.mpr htail
  have hpos' := List.length_pos_iff.mpr (h.content_ne_nil hregion)
  have hle := h.end_le hregion hregion' (by simp only [List.length_append]; omega)
  have hge := h.end_le hregion' hregion (by simp only [List.length_append]; omega)
  simp only [List.length_append] at hle hge
  have hsplit : tail ++ y' = content ++ y := by
    have htext := hregion'.split.symm.trans hregion.split
    simp only [List.append_assoc] at htext
    exact List.append_cancel_left (List.append_cancel_left htext)
  exact (List.append_inj hsplit (by omega)).1

/-- A region of the line is bare before the calm run of its rule and painted behind it, if its fence stands together.
The run may find the start of the region within a longer one, but both have the same end. -/
theorem Fenced.bare_and_painted (h : Fenced rule style fence mark) (hstage : Stage text gs)
    (hcalm : Calm rule [] gs out) (hregion : Region rule text x content y) {front back : List Glyph}
    (hgs : gs = front ++ (fence.map .char ++ back)) (hx : visible front = x) :
    Bare gs x content ∧ Painted out x content := by
  subst hx
  obtain ⟨part, rest, hsplit, hpart, -, hpaints⟩ := h.exists_part hstage.sound (hstage.seen ▸ hregion) hgs
  obtain ⟨first, more, rfl, -⟩ := h.exists_first
  have hplace : gs = front ++ .char first :: (more.map .char ++ back) := hgs
  have hspell : spell (.char first :: (more.map .char ++ back)) = spell part ++ spell rest := by
    rw [← spell_append, List.append_cancel_left (hplace.symm.trans hsplit)]
  obtain ⟨front', left, right, rest', rfl, -, hit⟩ := hcalm.exists_hit hplace fun hmiss =>
    hmiss (spell front) [] style (spell part) (List.append_nil _).symm (by rw [List.nil_append, hspell, hpaints])
  have hseen : visible (front' ++ left.map .char) = visible front' ++ left := by simp
  rw [hseen] at hregion ⊢
  obtain rfl := h.eq_of_inside hregion (hit.region h hstage) (List.cons_ne_nil _ _)
  refine ⟨⟨front' ++ left.map .char, rest', by rw [hit.split]; simp, hseen, ?_⟩, hit.painted.append_right⟩
  have hidle : Pen.idle.run? front' = some .idle := hit.idle
  rw [Pen.run?_append_of hidle, Pen.run?_idle_chars]

/-- Where a rule for regions paints, a region starts. -/
theorem Fenced.exists_region (h : Fenced rule style fence mark) {u v : List Char} (hsplit : text = u ++ v)
    (hpaints : paints rule v = true) : ∃ content y, Region rule text u content y := by
  obtain ⟨style', lead, part, hpaints⟩ := paints_iff.mp hpaints
  obtain ⟨content, y, rfl, hof⟩ := h.exists_content hpaints
  rw [hof] at hpaints
  exact ⟨content, y, hsplit, style, hpaints⟩

/-- Texts that overlap have a character in common. -/
theorem exists_mem_of_overlap {before after front back : List Glyph} {cs ds : List Char}
    (h : before ++ (cs.map .char ++ after) = front ++ (ds.map .char ++ back)) (hcs : cs ≠ []) (hds : ds ≠ [])
    (hlt : (visible before).length < (visible front).length + ds.length)
    (hlt' : (visible front).length < (visible before).length + cs.length) : ∃ c ∈ cs, c ∈ ds := by
  obtain ⟨c, cs, rfl⟩ := List.exists_cons_of_ne_nil hcs
  obtain ⟨d, ds, rfl⟩ := List.exists_cons_of_ne_nil hds
  rcases Nat.le_total (visible before).length (visible front).length with hle | hle
  · obtain ⟨left, right, hsplit, -⟩ := exists_of_together h hle hlt'
    exact ⟨d, by simp [hsplit], List.mem_cons_self⟩
  · obtain ⟨left, right, hsplit, -⟩ := exists_of_together h.symm hle hlt
    exact ⟨c, List.mem_cons_self, by simp [hsplit]⟩

/-- The first run leaves the fence of a region together, since no narrow rule paints a stop. -/
theorem Fenced.exists_fence (h : Fenced rule style fence mark) {narrow : Rule} (hnarrow : Narrow narrow)
    (hcalm : Calm narrow [] (text.map .char) out) (hregion : Region rule text x content y) :
    ∃ front back, out = front ++ (fence.map .char ++ back) ∧ visible front = x := by
  obtain ⟨body, rfl, -⟩ := h.exists_body hregion
  have htext : text = x ++ (fence ++ (body ++ [mark] ++ y)) := by
    rw [hregion.split]
    simp
  have hseen : visible out = x ++ (fence ++ (body ++ [mark] ++ y)) := by
    rw [hcalm.wraps.visible_eq, visible_map_char, htext]
  obtain ⟨front, back, hout, hx, -⟩ := exists_together hseen h.nonempty fun n hlt hlt' hcode => by
    rcases hcalm.codeAt hcode with hcode | ⟨front, cs, rest, hit, hn⟩
    · exact not_codeAt_chars text n hcode
    · have hplace : x.map .char ++ (fence.map .char ++ (body ++ [mark] ++ y).map .char) =
          front ++ (cs.map .char ++ rest) := by
        rw [← hit.split, htext]
        simp
      have hpos := List.length_pos_iff.mpr hit.nonempty
      obtain ⟨c, hc, hc'⟩ := exists_mem_of_overlap hplace h.nonempty hit.nonempty
        (by rw [visible_map_char]; omega) (by rw [visible_map_char]; omega)
      have hfree := (hnarrow.not_stop_of_hit hit hc').2
      rw [(h.stops c (List.mem_append_left _ hc)).1] at hfree
      cases hfree
  exact ⟨front, back, hout, hx⟩

/-! ## Rivals -/

/-- What a narrow rule would paint in a region of the line it does paint, in a calm run on a line where the region
stands together. -/
theorem Narrow.exists_hit {pair : Rule × List Rule} (hpair : pair ∈ rivalries) (hrule : Narrow rule)
    (hcalm : Calm rule [] gs out) (hregion : Region pair.1 text x content y) {front back : List Glyph}
    (hgs : gs = front ++ (content.map .char ++ back)) (hx : visible front = x) {u v : List Char}
    (hsplit : text = u ++ v) (hle : x.length ≤ u.length) (hlt : u.length < x.length + content.length)
    (hpaints : paints rule v = true) :
    ∃ front' cs rest, Hit rule [] gs out front' cs rest ∧ x.length < (visible front').length ∧
      (visible front').length < x.length + content.length := by
  obtain ⟨_, fence, mark, hwide⟩ := fenced_of_mem hpair
  obtain ⟨inner, rfl, hinner⟩ := exists_behind (hsplit.symm.trans hregion.split) hle
  rw [List.length_append] at hlt
  obtain ⟨d, tail, hcontent, rfl⟩ := exists_inside hinner (by omega)
  obtain ⟨w, hw⟩ := hwide.exists_mark hregion hcontent (List.cons_ne_nil _ _)
  rw [hw] at hcontent hpaints
  -- the rule does not look behind the mark, so codes behind the region do not matter
  obtain ⟨style, lead, part, hpaints⟩ := paints_iff.mp hpaints
  rw [List.append_assoc, List.singleton_append, hrule.stops hwide.mark_stop.1] at hpaints
  obtain ⟨c, part, rfl⟩ := List.exists_cons_of_ne_nil (hrule.solid hpaints rfl).1
  obtain ⟨-, behind, rfl⟩ := hrule.covers hpaints
  have hplace : gs = front ++ (inner ++ lead).map .char ++
      .char c :: ((part ++ behind ++ [mark]).map .char ++ back) := by
    rw [hgs, hcontent]
    simp [Match.covered, Match.of]
  have hspell : lead ++ spell (.char c :: ((part ++ behind ++ [mark]).map .char ++ back)) =
      (Match.of style lead (c :: part)).covered ++ behind ++ mark :: spell back := by
    simp [Match.covered, Match.of, Glyph.text]
  obtain ⟨front', left, right, rest, hfront, -, hit⟩ := hcalm.exists_hit hplace fun hmiss => by
    refine hmiss (spell front ++ inner) lead style (c :: part) (by simp) ?_
    rw [hspell, hrule.stops hwide.mark_stop.1, hpaints]
  have hlength := congrArg (List.length ∘ visible) hfront
  simp only [Function.comp_apply, visible_append, visible_map_char, List.length_append, hx] at hlength
  refine ⟨front', _, rest, hit, ?_, ?_⟩
  · refine hit.start_lt hpair hrule hregion hgs hx ?_
    rw [List.length_append, List.length_cons]
    omega
  · rw [hcontent]
    simp only [Match.covered, Match.of, List.length_append, List.length_cons]
    omega

/-- In a region that has no code in it behind some calm runs, none of their narrow rules would paint anything. -/
theorem Runs.paints_eq_false {rs : List Rule} {pair : Rule × List Rule} (hruns : Runs Calm rs gs out)
    (hpair : pair ∈ rivalries) (hrule : Narrow rule) (hmem : rule ∈ rs) (hstage : Stage text gs)
    (hregion : Region pair.1 text x content y)
    (hcode : ∀ n, x.length < n → n < x.length + content.length → ¬CodeAt out n) {u v : List Char}
    (hsplit : text = u ++ v) (hle : x.length ≤ u.length) (hlt : u.length < x.length + content.length) :
    paints rule v = false := by
  refine Bool.eq_false_iff.mpr fun hpaints => ?_
  obtain ⟨rs₁, rs₂, mid, mid', hbefore, hcalm, hbehind⟩ := hruns.exists_run hmem
  have hmid : visible mid = x ++ (content ++ y) := (hbefore.stage hstage).seen.trans hregion.split
  obtain ⟨style, fence, mark, hwide⟩ := fenced_of_mem hpair
  obtain ⟨front, back, hgs, hx, -⟩ := exists_together hmid (hwide.content_ne_nil hregion)
    fun n hn hn' hat => hcode n hn hn' (hbehind.codeAt (hcalm.wraps.codeAt hat))
  obtain ⟨front', cs, rest, hit, hstart, hstart'⟩ :=
    hrule.exists_hit hpair hcalm hregion hgs hx hsplit hle hlt hpaints
  exact hcode _ hstart hstart' (hbehind.codeAt hit.codeAt_start)

end

/-! ## Calm lines are not crowded -/

/-- The line when the quoted texts are about to be painted: they are bare, and expressions are painted. -/
structure Ready (text : List Char) (gs : List Glyph) : Prop where
  painted : ∀ {x content y}, Region expressionRule text x content y → Painted gs x content
  bare : ∀ {x content y}, Region quotedRule text x content y → Bare gs x content

section

variable {text x content y x' content' y' : List Char} {gs out : List Glyph} {n : Nat}

/-- Expressions and quoted texts do not overlap then. -/
theorem Ready.disjoint (h : Ready text gs) (hregion : Region expressionRule text x content y)
    (hregion' : Region quotedRule text x' content' y') (hlt : x.length < x'.length + content'.length) :
    x.length + content.length ≤ x'.length := by
  have hne := fenced_expressionRule.content_ne_nil hregion
  have hne' := fenced_quotedRule.content_ne_nil hregion'
  refine Nat.le_of_not_lt fun hlt' => ?_
  exact (h.painted hregion).not_bare hne hne' hlt hlt' (h.bare hregion')

/-- No region has a code in it then. -/
theorem Ready.not_codeAt (h : Ready text gs) {pair : Rule × List Rule} (hpair : pair ∈ rivalries)
    (hregion : Region pair.1 text x content y) (hlt : x.length < n) (hlt' : n < x.length + content.length) :
    ¬CodeAt gs n := by
  simp only [rivalries, List.mem_cons, List.not_mem_nil, or_false] at hpair
  rcases hpair with rfl | rfl
  · exact (h.painted hregion).not_codeAt hlt hlt'
  · exact (h.bare hregion).not_codeAt hlt hlt'

/-- Calm runs make the line ready, since each of them finds the regions of its rule. -/
theorem Runs.ready (h : '\x1b' ∉ text)
    (hruns : Runs Calm (metaRule :: expressionRule :: lateRules) (text.map .char) gs)
    (hquoted : Calm quotedRule [] gs out) : Ready text gs where
  painted := by
    intro x content y hregion
    obtain _ | ⟨hmeta, _ | ⟨hexpression, hlate⟩⟩ := hruns
    obtain ⟨front, back, hgs, hx⟩ := fenced_expressionRule.exists_fence narrow_metaRule hmeta hregion
    have hstage := (stage_chars h).step hmeta.wraps
    obtain ⟨-, hpainted⟩ := fenced_expressionRule.bare_and_painted hstage hexpression hregion hgs hx
    exact hlate.painted hpainted (fenced_expressionRule.content_ne_nil hregion)
  bare := by
    intro x content y hregion
    have hstage := hruns.stage (stage_chars h)
    obtain ⟨first, more, rfl, hfirst, -⟩ := fenced_quotedRule.exists_stop hregion
    obtain rfl := List.mem_singleton.mp hfirst
    -- the fence of a quoted text is a single character
    obtain ⟨front, back, hgs, hx, -⟩ := exists_char_of_visible (hstage.seen.trans hregion.split)
    exact (fenced_quotedRule.bare_and_painted hstage hquoted hregion hgs hx).1

/-- **A line on which all runs are calm is not crowded.** -/
theorem Runs.not_crowded (h : '\x1b' ∉ text) (hruns : Runs Calm rules (text.map .char) out) :
    ¬crowded text = true := by
  have hrules : rules = (metaRule :: expressionRule :: lateRules) ++ [quotedRule, unknownRule, boolRule] := rules_eq
  rw [hrules] at hruns
  obtain ⟨mid, hruns, _ | ⟨hquoted, -⟩⟩ := runs_append.mp hruns
  have hready := hruns.ready h hquoted
  intro hcrowded
  obtain ⟨pair, hpair, rival, hrival, x, content, y, u, v, hregion, hsplit, hle, hlt, hpaints⟩ :=
    crowded_iff.mp hcrowded
  by_cases hnarrow : rival ∈ narrowRules
  · have hmem : rival ∈ metaRule :: expressionRule :: lateRules := by
      rcases List.mem_cons.mp hnarrow with rfl | hlate
      · exact List.mem_cons_self
      · exact List.mem_cons_of_mem _ (List.mem_cons_of_mem _ hlate)
    have hfalse := hruns.paints_eq_false hpair (narrow_of_mem hnarrow) hmem (stage_chars h) hregion
      (fun n => hready.not_codeAt hpair hregion) hsplit hle hlt
    rw [hpaints] at hfalse
    cases hfalse
  · simp only [rivalries, List.mem_cons, List.not_mem_nil, or_false] at hpair
    rcases hpair with rfl | rfl
    · obtain rfl := (List.mem_cons.mp hrival).resolve_right hnarrow
      obtain ⟨content', y', hregion'⟩ := fenced_quotedRule.exists_region hsplit hpaints
      have hpos := List.length_pos_iff.mpr (fenced_quotedRule.content_ne_nil hregion')
      have := hready.disjoint hregion hregion' (by omega)
      omega
    · obtain rfl := (List.mem_cons.mp hrival).resolve_right hnarrow
      obtain ⟨content', y', hregion'⟩ := fenced_expressionRule.exists_region hsplit hpaints
      have hpos := List.length_pos_iff.mpr (fenced_expressionRule.content_ne_nil hregion')
      have := hready.disjoint hregion' hregion hlt
      omega

end

/-! ## Nested spans -/

/-- **A line without escapes is coloured with a span within another one exactly if it is crowded**: something that
another rule paints has its match start in an expression or a quoted text of the line. -/
theorem nested_line_iff (text : String) (h : '\x1b' ∉ text.toList) :
    Nested (glyphs (line text).toList) ↔ crowded text.toList = true := by
  obtain ⟨out, hout, hruns⟩ := exists_runs_line h
  rw [hout, ← not_iff_not, not_nested_iff_calm hruns]
  exact ⟨fun hcalm => hcalm.not_crowded h, fun hnot => hruns.calm_of_not_crowded h hnot⟩

/-- A name, a quoted text and an expression, one behind the other. -/
theorem not_nested_line_title :
    '\x1b' ∉ "└── title => \"a\" + $\x7bb\x7d".toList ∧
    ¬Nested (glyphs (line "└── title => \"a\" + $\x7bb\x7d").toList) := by
  have h : '\x1b' ∉ "└── title => \"a\" + $\x7bb\x7d".toList := by decide +kernel
  refine ⟨h, fun hnested => ?_⟩
  have hcrowded := (nested_line_iff _ h).mp hnested
  revert hcrowded
  decide +kernel

/-- The line of an entry may be crowded: the end of an address is taken for a meta property, and what ends it ends the
quoted text around it as well. -/
theorem nested_line_mail :
    ∃ text ∈ (Drawing.lines "r" [("mail", .scalar (.text "user@host"))]).tail,
      '\x1b' ∉ text.toList ∧ Nested (glyphs (line text).toList) := by
  refine ⟨"└── mail => \"user@host\"", List.mem_singleton.mpr (by decide +kernel), by decide +kernel,
    "└── ".toList.map .char ++ .code ['3', '4'] :: "mail".toList.map .char ++ closing :: " => ".toList.map .char,
    ['3', '2'], "\"user".toList.map .char, ['3', '1'],
    "@host".toList.map .char ++ closing :: .char '"' :: [closing], ?_⟩
  decide +kernel

end FusionInspect.Colour
