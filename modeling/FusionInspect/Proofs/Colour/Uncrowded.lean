import FusionInspect.Proofs.Colour.Regions
import FusionInspect.Proofs.Colour.Stages

/-!
# Lines that are not crowded

On a line that is not crowded all runs are calm (`Runs.calm_of_not_crowded`). What carries the proof from one run to
the next is said of the line as it stands then (`Clean`). The regions that are not painted yet have no code in them.
Whatever blank or stop is painted lies in a region that was painted as a whole. So a narrow rule that finds something
painted in front of its match has found it in a region, and a line where it does is crowded.
-/

namespace FusionInspect.Colour

/-- The line as it stands after some of the runs. -/
structure Stage (text : List Char) (gs : List Glyph) : Prop where
  seen : visible gs = text
  sound : ∀ g ∈ gs, g.Sound

/-- The line after some calm runs, when the regions of some rules are painted and those of others are not. -/
structure Clean (text : List Char) (ran pending : List Rule) (gs : List Glyph) : Prop extends Stage text gs where
  flat : Pen.idle.run? gs = some .idle
  tinted : ∀ {front c back}, gs = front ++ .char c :: back → Pen.idle.run? front ≠ some .idle →
    c = ' ' ∨ isStop c = true → ∃ wide ∈ ran, ∃ x content y, Region wide text x content y ∧ Painted gs x content ∧
      x.length ≤ (visible front).length ∧ (visible front).length < x.length + content.length
  untouched : ∀ wide ∈ pending, ∀ {x content y n}, Region wide text x content y → x.length < n →
    n < x.length + content.length → ¬CodeAt gs n

section

variable {text : List Char} {ran pending : List Rule} {rule : Rule} {gs out front rest : List Glyph} {cs : List Char}
  {n : Nat}

theorem Stage.step (h : Stage text gs) (hw : Wraps rule [] gs out) : Stage text out :=
  ⟨hw.visible_eq.trans h.seen, hw.sound h.sound⟩

/-- All glyphs of a stage are sound, so those of each part are. -/
theorem Stage.sound_split (h : Stage text gs) {part : List Glyph} (hgs : gs = front ++ (part ++ rest)) :
    (∀ g ∈ part, g.Sound) ∧ ∀ g ∈ rest, g.Sound := by
  have hsound := h.sound
  rw [hgs] at hsound
  exact List.forall_mem_append.mp (List.forall_mem_append.mp hsound).2

theorem stage_chars (h : '\x1b' ∉ text) : Stage text (text.map .char) :=
  ⟨visible_map_char text, sound_map_char h⟩

/-- A line without codes is clean, whatever rules are still to run. -/
theorem clean_chars (h : '\x1b' ∉ text) (pending : List Rule) : Clean text [] pending (text.map .char) where
  toStage := stage_chars h
  flat := Pen.run?_idle_chars text
  tinted hsplit hrun := by
    obtain ⟨x, _, -, rfl, -⟩ := List.map_eq_append_iff.mp hsplit
    exact absurd (Pen.run?_idle_chars x) hrun
  untouched _ _ _ _ _ _ _ _ _ := not_codeAt_chars text _

/-! ## Narrow rules -/

/-- What a narrow rule paints has no stop in it. -/
theorem Narrow.not_stop_of_hit (hrule : Narrow rule) (hit : Hit rule [] gs out front cs rest) {c : Char} (hc : c ∈ cs) :
    c ≠ ' ' ∧ isStop c = false := by
  obtain ⟨style, gap, lead, -, hpaints⟩ := hit.paints
  refine ⟨?_, hrule.free hpaints c (List.mem_append_right _ hc)⟩
  rintro rfl
  exact (hrule.solid hpaints rfl).2 hc

/-- A hit of a narrow rule that starts or ends within a region starts in it. -/
theorem Hit.start_lt {pair : Rule × List Rule} (hpair : pair ∈ rivalries) (hrule : Narrow rule)
    (hit : Hit rule [] gs out front cs rest) {x content y : List Char} (hregion : Region pair.1 text x content y)
    {before after : List Glyph} (hgs : gs = before ++ (content.map .char ++ after)) (hx : visible before = x)
    (hlt : x.length < (visible front).length + cs.length) : x.length < (visible front).length := by
  obtain ⟨style, fence, mark, hwide⟩ := fenced_of_mem hpair
  obtain ⟨first, more, rfl, -, hstop⟩ := hwide.exists_stop hregion
  refine Nat.lt_of_not_le fun hle => ?_
  have hplace : front ++ (cs.map .char ++ rest) = before ++ .char first :: (more.map .char ++ after) := by
    rw [← hit.split, hgs]
    rfl
  subst hx
  obtain ⟨left, right, rfl, -, -⟩ := exists_of_together hplace hle hlt
  have hfree := (hrule.not_stop_of_hit hit (c := first) (by simp)).2
  rw [hstop] at hfree
  cases hfree

/-- A narrow rule leaves a clean line clean, if the line is not crowded. -/
theorem Clean.narrow (h : Clean text ran pending gs) (hnot : ¬crowded text = true) (hrule : rule ∈ narrowRules)
    (hpending : ∀ wide ∈ pending, ∃ rivals, (wide, rivals) ∈ rivalries)
    (hran : ∀ wide ∈ ran, ∃ rivals, (wide, rivals) ∈ rivalries) (hcalm : Calm rule [] gs out) :
    Clean text ran pending out where
  toStage := h.toStage.step hcalm.wraps
  flat := by rw [hcalm.run?_eq rfl, h.flat]
  tinted := by
    intro front c back hsplit hrun hc
    have hflat : Pen.idle.run? out = some .idle := by rw [hcalm.run?_eq rfl, h.flat]
    obtain ⟨pen, hpen, -⟩ := Pen.exists_of_run?_append (hsplit ▸ hflat)
    rcases hcalm.pen_eq_or_hit rfl hsplit hpen with
      ⟨front', back', hgs, hvisible, hrun'⟩ | ⟨front', left, right, rest, hit, -⟩
    · rw [hpen, ← hrun'] at hrun
      obtain ⟨wide, hwide, x, content, y, hregion, hpainted, hle, hlt⟩ := h.tinted hgs hrun hc
      obtain ⟨rivals, hpair⟩ := hran wide hwide
      obtain ⟨style, fence, mark, hfenced⟩ := fenced_of_mem hpair
      rw [hvisible] at hle hlt
      exact ⟨wide, hwide, x, content, y, hregion, hcalm.painted hpainted (hfenced.content_ne_nil hregion), hle, hlt⟩
    · obtain ⟨hblank, hstop⟩ := (narrow_of_mem hrule).not_stop_of_hit hit (c := c) (by simp)
      rcases hc with rfl | hc
      · exact absurd rfl hblank
      · rw [hstop] at hc
        cases hc
  untouched := by
    intro wide hwide x content y n hregion hlt hlt' hcode
    obtain ⟨rivals, hpair⟩ := hpending wide hwide
    obtain ⟨style, fence, mark, hfenced⟩ := fenced_of_mem hpair
    have hseen := h.seen.trans hregion.split
    obtain ⟨before, after, hgs, hx, -⟩ := exists_together hseen (hfenced.content_ne_nil hregion)
      fun m => h.untouched wide hwide hregion
    rcases hcalm.codeAt hcode with hcode | ⟨front, cs, rest, hit, hn⟩
    · exact h.untouched wide hwide hregion hlt hlt' hcode
    · have hpos := List.length_pos_iff.mpr hit.nonempty
      have hstart := hit.start_lt hpair (narrow_of_mem hrule) hregion hgs hx (by omega)
      obtain ⟨style', hpaints⟩ := hit.paints
      exact hnot (crowded_of_narrow hpair hrule hregion hx (hgs.symm.trans hit.split) hstart (by omega) hpaints)

/-- A late rule runs calm on a clean line that is not crowded. -/
theorem Clean.calm_of_late (h : Clean text ran pending gs) (hnot : ¬crowded text = true) (hrule : rule ∈ lateRules)
    (hran : ∀ wide ∈ ran, ∃ rivals, (wide, rivals) ∈ rivalries) (hw : Wraps rule [] gs out) : Calm rule [] gs out := by
  have hmem : rule ∈ narrowRules := List.mem_cons_of_mem _ hrule
  refine hw.calm fun front part rest style hgs hpaints => ?_
  rw [List.nil_append] at hpaints ⊢
  obtain ⟨hpart, -⟩ := h.sound_split hgs
  obtain ⟨gap, lead, hgap, hmatch⟩ := id hpaints
  obtain ⟨cs, rfl⟩ : ∃ cs : List Char, part = cs.map .char :=
    ⟨_, eq_map_char_of_not_mem hpart ((narrow_of_mem hmem).not_mem_part hmatch)⟩
  refine ⟨?_, cs, rfl⟩
  rw [spell_map_char] at hpaints
  by_contra hidle
  -- the blank that leads the match is painted too, so it lies in a painted region
  obtain ⟨lead, rfl⟩ := led_of_mem hrule hmatch
  rw [← List.append_assoc] at hgap
  obtain ⟨front, rfl, -⟩ := exists_last_char (by decide) hgap
  have hrun : Pen.idle.run? front ≠ some .idle := fun hrun => hidle (Pen.run?_concat hrun)
  have hblank : gs = front ++ .char ' ' :: (cs.map .char ++ rest) := by
    rw [hgs]
    simp
  obtain ⟨wide, hwide, x, content, y, hregion, ⟨before, after, pen, hgs', hx, -⟩, hle, hlt⟩ :=
    h.tinted hblank hrun (.inl rfl)
  obtain ⟨rivals, hpair⟩ := hran wide hwide
  obtain ⟨style', fence, mark, hfenced⟩ := fenced_of_mem hpair
  -- and not at its end
  have hlt' : (visible (front ++ [.char ' '])).length < x.length + content.length := by
    subst hx
    obtain ⟨left, right, hcontent, rfl, -⟩ := exists_of_together (hgs'.symm.trans hblank) hle hlt
    obtain ⟨w, hw⟩ := hfenced.exists_mark hregion hcontent (List.cons_ne_nil _ _)
    cases right with
    | nil =>
      have hlast : [] ++ [' '] = w ++ [mark] := hw
      have hstop := hfenced.mark_stop.1
      rw [← List.singleton_inj.mp (List.append_inj' hlast rfl).2] at hstop
      cases hstop
    | cons d right => simp [hcontent]
  have hlt'' : x.length < (visible (front ++ [.char ' '])).length := by
    rw [visible_append, List.length_append]
    exact Nat.lt_succ_of_le hle
  exact hnot (crowded_of_narrow hpair hmem hregion hx (hgs'.symm.trans hgs) hlt'' hlt' hpaints)

/-- The late rules run calm on a clean line that is not crowded, and leave it clean. -/
theorem Clean.late {rs : List Rule} (h : Clean text ran pending gs) (hnot : ¬crowded text = true)
    (hrs : ∀ rule ∈ rs, rule ∈ lateRules) (hpending : ∀ wide ∈ pending, ∃ rivals, (wide, rivals) ∈ rivalries)
    (hran : ∀ wide ∈ ran, ∃ rivals, (wide, rivals) ∈ rivalries) (hruns : Runs Wraps rs gs out) :
    Runs Calm rs gs out ∧ Clean text ran pending out := by
  induction hruns with
  | nil => exact ⟨.nil, h⟩
  | cons hw _ ih =>
    obtain ⟨hrule, hrs⟩ := List.forall_mem_cons.mp hrs
    have hcalm := h.calm_of_late hnot hrule hran hw
    obtain ⟨hruns, hclean⟩ := ih (h.narrow hnot (List.mem_cons_of_mem _ hrule) hpending hran hcalm) hrs
    exact ⟨.cons hcalm hruns, hclean⟩

/-! ## Rules for regions -/

/-- What the rule for regions has painted is a region of the line. -/
theorem Hit.region {style : Style} {fence : List Char} {mark : Char} (hwide : Fenced rule style fence mark)
    (hstage : Stage text gs) (hit : Hit rule [] gs out front cs rest) :
    Region rule text (visible front) cs (visible rest) := by
  obtain ⟨hpart, hrest⟩ := hstage.sound_split hit.split
  obtain ⟨style', gap, lead, -, hpaints⟩ := hit.paints
  obtain rfl := hwide.lead_eq_nil hpaints
  have hpaints' : rule (spell (cs.map .char) ++ spell rest) = some (.of style' [] (spell (cs.map .char))) := by
    rw [spell_map_char]
    exact hpaints
  obtain ⟨mid, hmid, hne, hline, hnone⟩ := hwide.exists_mid hpart hrest hpaints'
  have hseen : visible mid ≠ [] := by
    obtain ⟨-, back, -, -, hback⟩ := List.map_eq_append_iff.mp hmid
    obtain ⟨body, -, -, rfl, -⟩ := List.map_eq_append_iff.mp hback
    rw [visible_map_char]
    simpa using hne
  have hregion : Region rule (visible (front ++ (cs.map .char ++ rest))) (visible front) _ (visible rest) :=
    hwide.region hmid hseen hline hnone
  rwa [← hit.split, hstage.seen, visible_map_char] at hregion

/-- Something is seen between the fence and the mark of what a rule for regions paints where no style is on. Otherwise
the mark would stand right behind a code, and a region that is painted already would start with it. -/
theorem Clean.seen_mid {fence : List Char} {mark : Char} {mid : List Glyph} (h : Clean text ran pending gs)
    (hstop : isStop mark = true)
    (hran : ∀ wide ∈ ran, ∀ {x content y}, Region wide text x content y → ∀ more, content ≠ mark :: more)
    (hgs : gs = front ++ (fence.map .char ++ (mid ++ [.char mark]) ++ rest))
    (hidle : Pen.idle.run? front = some .idle) (hne : mid ≠ []) : visible mid ≠ [] := by
  intro hmid
  have hplace : gs = front ++ fence.map .char ++ mid ++ .char mark :: rest := by
    rw [hgs]
    simp
  obtain ⟨pen, hpen, -⟩ := Pen.exists_of_run?_append (hplace ▸ h.flat)
  have hfence : Pen.idle.run? (front ++ fence.map .char) = some .idle := by
    rw [Pen.run?_append_of hidle, Pen.run?_idle_chars]
  have hrun : Pen.idle.run? mid = some pen := by rw [← hpen, Pen.run?_append_of hfence]
  obtain rfl := Pen.run?_codes hmid hne (nofun : Pen.idle ≠ .used) hrun
  obtain ⟨wide, hwide, x, content, y, hregion, hpainted, hle, hlt⟩ :=
    h.tinted hplace (by rw [hpen]; exact nofun) (.inr hstop)
  have hseen : visible (front ++ fence.map .char ++ mid) = visible (front ++ fence.map .char) := by
    rw [visible_append _ mid, hmid, List.append_nil]
  have hcode : CodeAt gs (visible (front ++ fence.map .char ++ mid)).length := by
    obtain ⟨more, body, rfl, -⟩ := exists_code_of_run? hrun (nofun : Pen.idle ≠ .fresh)
    refine ⟨front ++ fence.map .char ++ more, body, .char mark :: rest, by rw [hplace]; simp, ?_⟩
    simp
  have hstart : ¬x.length < (visible (front ++ fence.map .char ++ mid)).length :=
    fun hlt' => hpainted.not_codeAt hlt' hlt hcode
  obtain ⟨before, after, _, hgs', rfl, -⟩ := hpainted
  obtain ⟨left, right, hcontent, hfront, -⟩ := exists_of_together (hgs'.symm.trans hplace) hle hlt
  rw [hfront, visible_append, visible_map_char, List.length_append] at hstart
  cases left with
  | nil => exact hran wide hwide hregion right hcontent
  | cons d left =>
    rw [List.length_cons] at hstart
    omega

/-- A rule for regions runs calm on a clean line, if no style is on where it paints something. -/
theorem Clean.calm_of_wide {style : Style} {fence : List Char} {mark : Char} (h : Clean text ran pending gs)
    (hwide : Fenced rule style fence mark) (hpending : rule ∈ pending)
    (hran : ∀ wide ∈ ran, ∀ {x content y}, Region wide text x content y → ∀ more, content ≠ mark :: more)
    (hidle : ∀ {front mid rest}, gs = front ++ (fence.map .char ++ (mid ++ [.char mark]) ++ rest) → mid ≠ [] →
      '\n' ∉ visible mid → NoneOnLine mark (visible rest) → Pen.idle.run? front = some .idle)
    (hw : Wraps rule [] gs out) : Calm rule [] gs out := by
  refine hw.calm fun front part rest style' hgs hpaints => ?_
  rw [List.nil_append] at hpaints ⊢
  obtain ⟨gap, lead, -, hpaints⟩ := hpaints
  obtain rfl := hwide.lead_eq_nil hpaints
  obtain ⟨hpart, hrest⟩ := h.sound_split hgs
  obtain ⟨mid, rfl, hne, hline, hnone⟩ := hwide.exists_mid hpart hrest hpaints
  have hfront := hidle hgs hne hline hnone
  refine ⟨hfront, ?_⟩
  have hseen := h.seen_mid hwide.mark_stop.1 hran hgs hfront hne
  have hregion := hwide.region (f := front) rfl hseen hline hnone
  rw [← hgs, h.seen] at hregion
  -- a code within the part would stand within a region that is not painted yet
  rcases chars_or_code (fence.map .char ++ (mid ++ [.char mark])) with hchars | ⟨cs, body, more, hsplit⟩
  · exact hchars
  · exfalso
    obtain ⟨first, tail, hfence, -⟩ := hwide.exists_first
    have hcs : cs ≠ [] := by
      rintro rfl
      rw [hfence] at hsplit
      cases hsplit
    have hmore : visible more ≠ [] := by
      rcases List.eq_nil_or_concat more with rfl | ⟨more, g, rfl⟩
      · rw [← List.append_assoc] at hsplit
        cases List.singleton_inj.mp (List.append_inj' hsplit rfl).2
      · rw [List.concat_eq_append, ← List.append_assoc, ← List.cons_append, ← List.append_assoc] at hsplit
        rw [List.concat_eq_append, ← List.singleton_inj.mp (List.append_inj' hsplit rfl).2]
        simp
    have hcode : CodeAt gs ((visible front).length + cs.length) :=
      ⟨front ++ cs.map .char, body, more ++ rest, by rw [hgs, hsplit]; simp, by simp⟩
    have hpos := List.length_pos_iff.mpr hcs
    have hpos' := List.length_pos_iff.mpr hmore
    refine h.untouched rule hpending hregion (by omega) ?_ hcode
    rw [hsplit]
    simp only [visible_append, visible_map_char, visible_code, List.length_append]
    omega

/-- Where no region is painted, no style is on at a stop. -/
theorem Clean.idle_of_stop {c : Char} {tail : List Glyph} (h : Clean text [] pending gs)
    (hgs : gs = front ++ .char c :: tail) (hstop : isStop c = true) : Pen.idle.run? front = some .idle := by
  by_contra hrun
  obtain ⟨wide, hwide, -⟩ := h.tinted hgs hrun (.inr hstop)
  cases hwide

/-- Behind the run for expressions they are painted, and a line that is not crowded is clean again. -/
theorem Clean.expressions (h : Clean text [] [expressionRule, quotedRule] gs) (hnot : ¬crowded text = true)
    (hcalm : Calm expressionRule [] gs out) : Clean text [expressionRule] [quotedRule] out where
  toStage := h.toStage.step hcalm.wraps
  flat := by rw [hcalm.run?_eq rfl, h.flat]
  tinted := by
    intro front c back hsplit hrun hc
    have hflat : Pen.idle.run? out = some .idle := by rw [hcalm.run?_eq rfl, h.flat]
    obtain ⟨pen, hpen, -⟩ := Pen.exists_of_run?_append (hsplit ▸ hflat)
    rcases hcalm.pen_eq_or_hit rfl hsplit hpen with
      ⟨front', back', hgs, hvisible, hrun'⟩ | ⟨front', left, right, rest, hit, hvisible⟩
    · rw [hpen, ← hrun'] at hrun
      obtain ⟨wide, hwide, -⟩ := h.tinted hgs hrun hc
      cases hwide
    · refine ⟨expressionRule, List.mem_singleton_self _, visible front', _, visible rest,
        hit.region fenced_expressionRule h.toStage, hit.painted, ?_, ?_⟩
      · rw [hvisible, List.length_append]
        omega
      · rw [hvisible, List.length_append, List.length_append, List.length_cons]
        omega
  untouched := by
    intro wide hwide x content y n hregion hlt hlt' hcode
    obtain rfl := List.mem_singleton.mp hwide
    rcases hcalm.codeAt hcode with hcode | ⟨front, cs, rest, hit, hn⟩
    · exact h.untouched quotedRule (by simp) hregion hlt hlt' hcode
    · exact hnot (crowded_of_overlap (hit.region fenced_expressionRule h.toStage) hregion (by omega) (by omega))

/-- On a clean line that is not crowded, no quoted text starts where an expression is painted. -/
theorem Clean.quoted_idle (h : Clean text [expressionRule] pending gs) (hnot : ¬crowded text = true)
    {mid : List Glyph} (hgs : gs = front ++ (['"'].map .char ++ (mid ++ [.char '"']) ++ rest)) (hne : mid ≠ [])
    (hline : '\n' ∉ visible mid) (hnone : NoneOnLine '"' (visible rest)) : Pen.idle.run? front = some .idle := by
  by_contra hrun
  have hplace : gs = front ++ .char '"' :: (mid ++ [.char '"'] ++ rest) := hgs
  obtain ⟨wide, hwide, x, content, y, hregion, ⟨before, after, pen, hgs', rfl, -⟩, hle, hlt⟩ :=
    h.tinted hplace hrun (.inr rfl)
  obtain rfl := List.mem_singleton.mp hwide
  obtain ⟨left, right, hcontent, rfl, htail⟩ := exists_of_together (hgs'.symm.trans hplace) hle hlt
  obtain ⟨w, hw⟩ := fenced_expressionRule.exists_mark hregion hcontent (List.cons_ne_nil _ _)
  have hseen : visible mid ≠ [] := by
    cases right with
    | nil =>
      have hlast : [] ++ ['"'] = w ++ ['\x7d'] := hw
      cases List.singleton_inj.mp (List.append_inj' hlast rfl).2
    | cons d right =>
      obtain ⟨g, mid, rfl⟩ := List.exists_cons_of_ne_nil hne
      obtain rfl : g = .char d := (List.cons.inj htail).1
      exact List.cons_ne_nil _ _
  have hquoted := fenced_quotedRule.region (f := before ++ left.map .char) rfl hseen hline hnone
  rw [← hgs, h.seen] at hquoted
  exact hnot (crowded_of_overlap hregion hquoted (by simp at hle ⊢; omega) hlt)

end

/-! ## The end of a line -/

/-- A rule that paints the end of a line runs calm where no style is on behind the line. -/
theorem calm_of_end {rule : Rule} {gs out : List Glyph}
    (hrule : ∀ {style lead part rest}, rule (lead ++ (part ++ rest)) = some (.of style lead part) →
      rest = [] ∧ part ≠ [] ∧ '\x1b' ∉ part)
    {text : List Char} (hstage : Stage text gs) (hgs : Pen.idle.run? gs = some .idle) (hw : Wraps rule [] gs out) :
    Calm rule [] gs out := by
  refine hw.calm fun front part rest style hsplit hpaints => ?_
  rw [List.nil_append] at hpaints ⊢
  obtain ⟨gap, lead, -, hpaints⟩ := hpaints
  obtain ⟨hrest, hne, hfree⟩ := hrule hpaints
  obtain ⟨hpart, -⟩ := hstage.sound_split hsplit
  obtain ⟨cs, rfl⟩ : ∃ cs : List Char, part = cs.map .char := ⟨_, eq_map_char_of_not_mem hpart hfree⟩
  obtain rfl : rest = [] := by
    cases rest with
    | nil => rfl
    | cons g rest => cases g <;> cases hrest
  refine ⟨?_, cs, rfl⟩
  obtain ⟨pen, hpen, hrun⟩ := Pen.exists_of_run?_append (hsplit ▸ hgs)
  rw [spell_map_char] at hne
  rcases eq_or_ne pen .idle with rfl | hidle
  · exact hpen
  · rw [List.append_nil, Pen.run?_chars hidle hne] at hrun
    cases hrun

/-- The mark of an unknown prototype ends the line, with no code in it. -/
theorem unknownRule_end {style : Style} {lead part rest : List Char}
    (h : unknownRule (lead ++ (part ++ rest)) = some (.of style lead part)) :
    rest = [] ∧ part ≠ [] ∧ '\x1b' ∉ part := by
  obtain ⟨hsplit, hof⟩ := unknownRule_eq_some h
  obtain rfl : lead = [] := congrArg Match.lead hof
  obtain rfl : part = ['(', '?', ')'] := Match.painted_of (congrArg Match.painted hof.symm)
  exact ⟨by simpa using hsplit, by decide, by decide⟩

/-- So does a truth value. -/
theorem boolRule_end {style : Style} {lead part rest : List Char}
    (h : boolRule (lead ++ (part ++ rest)) = some (.of style lead part)) :
    rest = [] ∧ part ≠ [] ∧ '\x1b' ∉ part := by
  obtain ⟨word, hsplit, hword, hof⟩ := boolRule_eq_some h
  obtain rfl : lead = [' '] := congrArg Match.lead hof
  obtain rfl : part = word := Match.painted_of (congrArg Match.painted hof.symm)
  refine ⟨by simpa using hsplit, ?_⟩
  rcases hword with rfl | rfl <;> decide

/-- **On a line that is not crowded all runs are calm.** -/
theorem Runs.calm_of_not_crowded {text : List Char} {out : List Glyph} (h : '\x1b' ∉ text)
    (hnot : ¬crowded text = true) (hruns : Runs Wraps rules (text.map .char) out) :
    Runs Calm rules (text.map .char) out := by
  have hwide : ∀ wide ∈ [expressionRule, quotedRule], ∃ rivals, (wide, rivals) ∈ rivalries := by
    simp [rivalries]
  have hnone : ∀ wide ∈ ([] : List Rule), ∃ rivals, (wide, rivals) ∈ rivalries :=
    fun _ hmem => absurd hmem List.not_mem_nil
  rw [rules_eq] at hruns ⊢
  obtain _ | ⟨hmeta, _ | ⟨hexpression, hruns⟩⟩ := hruns
  obtain ⟨late, hlate, hruns⟩ := runs_append.mp hruns
  obtain _ | ⟨hquoted, _ | ⟨hunknown, _ | ⟨hbool, ⟨⟩⟩⟩⟩ := hruns
  have hmeta := hmeta.calm_of_chars
  have hclean := (clean_chars h [expressionRule, quotedRule]).narrow hnot List.mem_cons_self hwide hnone hmeta
  have hexpression := hclean.calm_of_wide fenced_expressionRule List.mem_cons_self
    (fun _ hmem => absurd hmem List.not_mem_nil)
    (fun hgs _ _ _ => hclean.idle_of_stop hgs rfl) hexpression
  have hclean := hclean.expressions hnot hexpression
  obtain ⟨hlate, hclean⟩ := hclean.late hnot (fun _ hrule => hrule)
    (fun wide hmem => hwide wide (List.mem_cons_of_mem _ hmem))
    (fun _ hmem => List.mem_singleton.mp hmem ▸ hwide _ List.mem_cons_self) hlate
  have hquoted := hclean.calm_of_wide fenced_quotedRule (List.mem_singleton_self _)
    (fun _ hmem _ _ _ hregion => by
      obtain rfl := List.mem_singleton.mp hmem
      obtain ⟨first, more, rfl, hfirst, -⟩ := fenced_expressionRule.exists_stop hregion
      rintro _ ⟨⟩
      simp at hfirst)
    (hclean.quoted_idle hnot) hquoted
  have hstage := hclean.toStage.step hquoted.wraps
  have hflat : Pen.idle.run? _ = some .idle := (hquoted.run?_eq rfl).trans hclean.flat
  have hunknown := calm_of_end unknownRule_end hstage hflat hunknown
  have hbool := calm_of_end boolRule_end (hstage.step hunknown.wraps) ((hunknown.run?_eq rfl).trans hflat) hbool
  exact .cons hmeta (.cons hexpression
    (runs_append.mpr ⟨late, hlate, .cons hquoted (.cons hunknown (.cons hbool .nil))⟩))

end FusionInspect.Colour
