import FusionInspect.Proofs.Colour.Patterns

/-!
# Running a rule over a line

A rule looks for matches from left to right and goes on behind each of them. So where matches overlap, only the
first one counts. Even so nothing is lost (`scan_apply`): wherever the rule would paint something, it does, or that
place lies in something that it paints already. For this it matters how matches of one rule can overlap
(`Settled`). Two expressions or two quoted texts that overlap are one inside the other, and a key that is looked at
from one of its later characters has the same type behind it. Other matches do not overlap at all. So a line stays
as it is only where no rule paints anything (`foldl_apply_eq_self_iff`).
-/

namespace FusionInspect.Colour

/-- The rule paints a part, where it stands between two texts: an end of the text before it leads the match. -/
def PaintsAt (rule : Rule) (before : List Char) (style : Style) (part rest : List Char) : Prop :=
  ∃ gap lead, before = gap ++ lead ∧ rule (lead ++ (part ++ rest)) = some (.of style lead part)

/-- The rule paints nothing that starts between the two texts. -/
def Misses (rule : Rule) (before after : List Char) : Prop :=
  ∀ gap lead style part, before = gap ++ lead → rule (lead ++ after) ≠ some (.of style lead part)

/-- A run of a rule over a text behind another: parts that it paints, and characters that it keeps where it paints
nothing. -/
inductive Scan (rule : Rule) : List Char → List Char → List Char → Prop
  | done {before : List Char} : Scan rule before [] []
  | keep {before cs out : List Char} {c : Char} : Misses rule before (c :: cs) →
      Scan rule (before ++ [c]) cs out → Scan rule before (c :: cs) (c :: out)
  | paint {before part rest out : List Char} {style : Style} : PaintsAt rule before style part rest →
      part ≠ [] → Scan rule (before ++ part) rest out →
      Scan rule before (part ++ rest) (paint style part ++ out)

/-- Where a painted match starts inside another match, its painted part starts in what the other one paints. -/
def Settled (rule : Rule) : Prop :=
  ∀ ⦃x y m style lead part⦄, rule (x ++ y) = some m → x ≠ [] → x.length < m.covered.length →
    rule y = some (.of style lead part) →
    m.painted.isSome ∧ m.lead.length ≤ x.length + lead.length ∧
      x.length + lead.length < m.covered.length

/-- A rule whose matches start the text and settle what overlaps them. -/
structure Lawful (rule : Rule) : Prop where
  covers : Covers rule
  settled : Settled rule
  paints : ∀ {cs style lead part}, rule cs = some (.of style lead part) → part ≠ []

/-! ## One match -/

section

variable {rule : Rule} {before cs rest : List Char} {m : Match}

/-- Counting off what a match covers is going on behind it. -/
theorem applyFrom_eq_drop (rule : Rule) (skip : Nat) (cs : List Char) :
    applyFrom rule skip cs = applyFrom rule 0 (cs.drop skip) := by
  induction cs generalizing skip with
  | nil => simp [applyFrom]
  | cons c cs ih =>
    cases skip with
    | zero => rfl
    | succ skip => rw [applyFrom, ih, List.drop_succ_cons]

/-- A match is written with its part painted, and the run goes on behind it. -/
theorem applyFrom_covered (hne : m.covered ≠ []) (h : rule (m.covered ++ rest) = some m) :
    applyFrom rule 0 (m.covered ++ rest) = m.text ++ applyFrom rule 0 rest := by
  obtain ⟨c, cs, hcs⟩ := List.exists_cons_of_ne_nil hne
  have hdrop : (cs ++ rest).drop (m.covered.length - 1) = rest := by
    rw [hcs, List.length_cons, Nat.add_sub_cancel, List.drop_left]
  rw [hcs, List.cons_append] at h ⊢
  rw [applyFrom, h]
  change m.text ++ applyFrom rule (m.covered.length - 1) (cs ++ rest) = _
  rw [applyFrom_eq_drop, hdrop]

/-- No match that starts in the text before paints anything that starts behind it. -/
def Clear (rule : Rule) (before after : List Char) : Prop :=
  ∀ gap lead more style part, before = gap ++ lead → lead ≠ [] →
    rule (lead ++ after) ≠ some (.of style (lead ++ more) part)

theorem clear_nil (rule : Rule) (after : List Char) : Clear rule [] after :=
  fun _ _ _ _ _ h hne => absurd (List.nil_eq_append_iff.mp h).2 hne

/-- If no earlier match reaches over, and none starts here with its painted part, nothing that starts here
is painted. -/
theorem Clear.misses (h : Clear rule before cs)
    (hcs : ∀ style part, rule cs ≠ some (.of style [] part)) : Misses rule before cs := by
  intro gap lead style part hbefore
  cases lead with
  | nil => exact hcs style part
  | cons c lead =>
    have hmore := h gap (c :: lead) [] style part hbefore (List.cons_ne_nil _ _)
    rwa [List.append_nil] at hmore

/-- A character that no match starts at can be passed. -/
theorem Clear.pass {c : Char} (h : Clear rule before (c :: cs)) (hnone : rule (c :: cs) = none) :
    Clear rule (before ++ [c]) cs := by
  intro gap lead more style part hbefore hne
  obtain ⟨front, last, rfl⟩ := List.eq_nil_or_concat lead |>.resolve_left hne
  rw [List.concat_eq_append, ← List.append_assoc] at hbefore
  obtain ⟨hfront, hlast⟩ := List.append_inj' hbefore rfl
  obtain rfl : c = last := List.singleton_inj.mp hlast
  simp only [List.concat_eq_append, List.append_assoc, List.singleton_append]
  cases front with
  | nil => simp [hnone]
  | cons d front => exact h gap (d :: front) (c :: more) style part hfront (List.cons_ne_nil _ _)

/-- A text is kept if nothing is painted from any place in it on. -/
theorem Scan.keepAll {before kept rest out : List Char}
    (h : ∀ x y, kept = x ++ y → y ≠ [] → Misses rule (before ++ x) (y ++ rest))
    (hscan : Scan rule (before ++ kept) rest out) : Scan rule before (kept ++ rest) (kept ++ out) := by
  induction kept generalizing before with
  | nil => rwa [List.append_nil] at hscan
  | cons c kept ih =>
    have hmiss := h [] (c :: kept) rfl (List.cons_ne_nil _ _)
    rw [List.append_nil] at hmiss
    refine .keep hmiss (ih (fun x y hsplit hy => ?_) (by rwa [List.append_assoc]))
    have hnext := h (c :: x) y (by rw [hsplit]; rfl) hy
    rwa [List.append_assoc]

section

variable (hlawful : Lawful rule) (hclear : Clear rule before (m.covered ++ rest))
  (hm : rule (m.covered ++ rest) = some m)

include hlawful hclear hm

/-- Within a match the rule paints nothing else in front of the part that it paints. -/
theorem misses_inside {x y : List Char} (hsplit : m.covered = x ++ y) (hy : y ≠ [])
    (hx : m.painted.isSome → x.length < m.lead.length) : Misses rule (before ++ x) (y ++ rest) := by
  intro gap lead style part hbefore hpaints
  have hlength : x.length < m.covered.length := by
    rw [hsplit, List.length_append]
    exact Nat.lt_add_of_pos_right (List.length_pos_iff.mpr hy)
  rcases List.append_eq_append_iff.mp hbefore with ⟨inner, rfl, hinner⟩ | ⟨outer, rfl, rfl⟩
  · rcases eq_or_ne inner [] with rfl | hne
    · -- the match itself: its painted part starts further on
      rw [List.nil_append] at hinner
      rw [← hinner, ← List.append_assoc, ← hsplit, hm] at hpaints
      obtain rfl := Option.some.inj hpaints
      exact absurd (hx rfl) (Nat.lt_irrefl _)
    · have hcs : m.covered ++ rest = inner ++ (lead ++ (y ++ rest)) := by
        rw [hsplit, hinner]
        simp
      have hlen : inner.length + lead.length = x.length := by rw [hinner, List.length_append]
      rw [hcs] at hm
      obtain ⟨hsome, hle, -⟩ := hlawful.settled hm hne (by omega) hpaints
      have := hx hsome
      omega
  · rcases eq_or_ne outer [] with rfl | hne
    · rw [List.nil_append, ← List.append_assoc, ← hsplit, hm] at hpaints
      obtain rfl := Option.some.inj hpaints
      exact absurd (hx rfl) (Nat.lt_irrefl _)
    · rw [List.append_assoc, ← List.append_assoc x, ← hsplit] at hpaints
      exact hclear gap outer x style part rfl hne hpaints

/-- Behind a match no earlier one reaches over: what overlaps it starts its painted part within it. -/
theorem clear_behind : Clear rule (before ++ m.covered) rest := by
  intro gap lead more style part hbefore hlead hpaints
  have hpart : 0 < part.length := List.length_pos_iff.mpr (hlawful.paints hpaints)
  have hself : rule (m.covered ++ rest) ≠ some (.of style (m.covered ++ more) part) := by
    intro h
    have hcovered := congrArg (List.length ∘ Match.covered) (Option.some.inj (hm.symm.trans h))
    simp only [Function.comp_apply, Match.covered, Match.of, List.length_append] at hcovered
    omega
  rcases List.append_eq_append_iff.mp hbefore with ⟨inner, rfl, hinner⟩ | ⟨outer, rfl, rfl⟩
  · rcases eq_or_ne inner [] with rfl | hne
    · rw [List.nil_append] at hinner
      exact hself (hinner ▸ hpaints)
    · have hcs : m.covered ++ rest = inner ++ (lead ++ rest) := by rw [hinner, List.append_assoc]
      have hlen : inner.length + lead.length = m.covered.length := by rw [hinner, List.length_append]
      have := List.length_pos_iff.mpr hlead
      rw [hcs] at hm
      obtain ⟨-, -, hlt⟩ := hlawful.settled hm hne (by omega) hpaints
      rw [List.length_append] at hlt
      omega
  · rcases eq_or_ne outer [] with rfl | hne
    · exact hself hpaints
    · rw [List.append_assoc, List.append_assoc] at hpaints
      exact hclear gap outer (m.covered ++ more) style part rfl hne hpaints

/-- A run goes through a match: it keeps what leads it, and paints the painted part. -/
theorem scan_covered {out : List Char} (hrest : Scan rule (before ++ m.covered) rest out) :
    Scan rule before (m.covered ++ rest) (m.text ++ out) := by
  cases hpainted : m.painted with
  | none =>
    have htext : m.text = m.covered := by rw [Match.text, Match.covered, hpainted]
    rw [htext]
    refine .keepAll (fun x y hsplit hy => ?_) hrest
    exact misses_inside hlawful hclear hm hsplit hy (by simp [hpainted])
  | some found =>
    obtain ⟨style, part⟩ := found
    have hof : m = .of style m.lead part := by rw [Match.of, ← hpainted]
    have hcovered : m.covered = m.lead ++ part := by rw [Match.covered, hpainted]
    have htext : m.text = m.lead ++ paint style part := by rw [Match.text, hpainted]
    have hpaints : rule (m.lead ++ (part ++ rest)) = some (.of style m.lead part) := by
      rw [← List.append_assoc, ← hcovered, hm, ← hof]
    rw [hcovered, ← List.append_assoc] at hrest
    rw [hcovered, htext, List.append_assoc, List.append_assoc]
    refine .keepAll (fun x y hsplit hy => ?_) (.paint ⟨before, m.lead, rfl, hpaints⟩
      (hlawful.paints hpaints) hrest)
    have hmiss := misses_inside hlawful hclear hm (x := x) (y := y ++ part)
      (by rw [hcovered, hsplit, List.append_assoc]) (List.append_ne_nil_of_left_ne_nil hy _) ?_
    · rwa [List.append_assoc] at hmiss
    · intro _
      rw [hsplit, List.length_append]
      exact Nat.lt_add_of_pos_right (List.length_pos_iff.mpr hy)

end

/-! ## A whole run -/

/-- The run of a lawful rule is a scan from any clear place on, by induction on the text that is left. -/
theorem scan_applyFrom (hlawful : Lawful rule) (cs : List Char) (hclear : Clear rule before cs) :
    Scan rule before cs (applyFrom rule 0 cs) := by
  induction hn : cs.length using Nat.strong_induction_on generalizing before cs with
  | _ n ih =>
    cases hm : rule cs with
    | none =>
      cases cs with
      | nil => exact .done
      | cons c cs =>
        rw [applyFrom, hm]
        refine .keep (hclear.misses (by simp [hm])) (ih cs.length ?_ cs (hclear.pass hm) rfl)
        rw [← hn]
        exact Nat.lt_succ_self _
    | some m =>
      obtain ⟨hne, rest, rfl⟩ := hlawful.covers hm
      rw [applyFrom_covered hne hm]
      refine scan_covered hlawful hclear hm (ih rest.length ?_ rest (clear_behind hlawful hclear hm) rfl)
      have := List.length_pos_iff.mpr hne
      rw [← hn, List.length_append]
      omega

/-- **A rule paints whatever it can**: what a run keeps is where the rule paints nothing. -/
theorem scan_apply (hlawful : Lawful rule) (cs : List Char) : Scan rule [] cs (apply cs rule) :=
  scan_applyFrom hlawful cs (clear_nil rule cs)

/-- The rule paints nothing in the text. -/
def Plain (rule : Rule) (text : List Char) : Prop :=
  ∀ front back m, text = front ++ back → rule back = some m → m.painted = none

/-- A scan of a text in which nothing is painted keeps it. -/
theorem Scan.eq_of_plain {text out : List Char} (h : Scan rule before text out)
    (hplain : Plain rule (before ++ text)) : out = text := by
  induction h with
  | done => rfl
  | keep _ _ ih => rw [ih (by rwa [List.append_assoc])]
  | paint hpaints _ _ _ =>
    obtain ⟨gap, lead, rfl, hpaints⟩ := hpaints
    rw [List.append_assoc] at hplain
    cases hplain gap _ _ rfl hpaints

/-- Painting makes a text longer. -/
theorem length_lt_paint (style : Style) (part : List Char) : part.length < (paint style part).length := by
  simp only [paint, escape, List.length_append, List.length_cons]
  omega

/-- No scan makes a text shorter. -/
theorem Scan.length_le {text out : List Char} (h : Scan rule before text out) : text.length ≤ out.length := by
  induction h with
  | done => exact Nat.le_refl _
  | keep _ _ ih => exact Nat.succ_le_succ ih
  | @paint _ part _ _ style _ _ _ ih =>
    have := length_lt_paint style part
    rw [List.length_append, List.length_append]
    omega

/-- A run that adds nothing finds nothing to paint. -/
theorem Scan.misses_of_length {text out front back : List Char} (h : Scan rule before text out)
    (hlength : out.length = text.length) (hsplit : text = front ++ back) (hne : back ≠ []) :
    Misses rule (before ++ front) back := by
  induction h generalizing front with
  | done => exact absurd (List.nil_eq_append_iff.mp hsplit).2 hne
  | keep hmiss _ ih =>
    cases front with
    | nil => rwa [List.append_nil, ← List.nil_append back, ← hsplit]
    | cons d front =>
      obtain ⟨rfl, htail⟩ := List.cons.inj hsplit
      have hmiss' := ih (Nat.succ.inj hlength) htail
      rwa [List.append_assoc] at hmiss'
  | @paint _ part _ _ style _ _ hscan _ =>
    have := length_lt_paint style part
    have := hscan.length_le
    rw [List.length_append, List.length_append] at hlength
    omega

/-- A rule that paints nothing in a text leaves it as it is. -/
theorem apply_eq_self_of_plain (hlawful : Lawful rule) (h : Plain rule cs) : apply cs rule = cs :=
  (scan_apply hlawful cs).eq_of_plain h

/-- A rule that leaves the length of a text has painted nothing in it. -/
theorem plain_of_length_apply (hlawful : Lawful rule) (hlength : (apply cs rule).length = cs.length) :
    Plain rule cs := by
  intro front back m hsplit hm
  cases hpainted : m.painted with
  | none => rfl
  | some found =>
    obtain ⟨style, part⟩ := found
    have hof : m = .of style m.lead part := by rw [Match.of, ← hpainted]
    have hcovered : m.covered = m.lead ++ part := by rw [Match.covered, hpainted]
    obtain ⟨-, rest, rfl⟩ := hlawful.covers hm
    rw [hcovered, List.append_assoc] at hsplit hm
    rw [hof] at hm
    have hmiss := (scan_apply hlawful cs).misses_of_length hlength
      (hsplit.trans (List.append_assoc _ _ _).symm)
      (List.append_ne_nil_of_left_ne_nil (hlawful.paints hm) rest)
    exact absurd hm (hmiss front m.lead style part rfl)

/-- Running rules one after the other makes no text shorter. -/
theorem length_le_foldl_apply {rs : List Rule} (hrs : ∀ rule ∈ rs, Lawful rule) (cs : List Char) :
    cs.length ≤ (rs.foldl apply cs).length := by
  induction rs generalizing cs with
  | nil => exact Nat.le_refl _
  | cons rule rs ih =>
    obtain ⟨hrule, hrs⟩ := List.forall_mem_cons.mp hrs
    exact (scan_apply hrule cs).length_le.trans (ih hrs _)

/-- A line stays as it is exactly if none of the rules paints anything in it. -/
theorem foldl_apply_eq_self_iff {rs : List Rule} (hrs : ∀ rule ∈ rs, Lawful rule) :
    rs.foldl apply cs = cs ↔ ∀ rule ∈ rs, Plain rule cs := by
  induction rs with
  | nil => simp
  | cons rule rs ih =>
    obtain ⟨hrule, hrs⟩ := List.forall_mem_cons.mp hrs
    rw [List.foldl_cons, List.forall_mem_cons]
    constructor
    · intro h
      have hle := length_le_foldl_apply hrs (apply cs rule)
      rw [h] at hle
      have hplain := plain_of_length_apply hrule (hle.antisymm (scan_apply hrule cs).length_le)
      rw [apply_eq_self_of_plain hrule hplain, ih hrs] at h
      exact ⟨hplain, h⟩
    · rintro ⟨hplain, h⟩
      rw [apply_eq_self_of_plain hrule hplain]
      exact (ih hrs).mpr h

end

/-! ## The rules are lawful -/

/-- A text that starts inside another one starts with a character of it. -/
theorem exists_inside {x y covered rest : List Char} (h : x ++ y = covered ++ rest)
    (hx : x.length < covered.length) :
    ∃ c back, covered = x ++ c :: back ∧ y = c :: back ++ rest := by
  rcases List.append_eq_append_iff.mp h with ⟨inner, rfl, rfl⟩ | ⟨outer, rfl, -⟩
  · cases inner with
    | nil => simp at hx
    | cons c back => exact ⟨c, back, rfl, rfl⟩
  · rw [List.length_append] at hx
    omega

/-- A text that starts behind another one starts in what follows it. -/
theorem exists_behind {x y front rest : List Char} (h : x ++ y = front ++ rest)
    (hx : front.length ≤ x.length) : ∃ inner, x = front ++ inner ∧ inner ++ y = rest := by
  rcases List.append_eq_append_iff.mp h with ⟨outer, rfl, houter⟩ | ⟨inner, rfl, hinner⟩
  · rw [List.length_append] at hx
    have hnil : outer = [] := List.length_eq_zero_iff.mp (by omega)
    subst hnil
    exact ⟨[], by simp, houter⟩
  · exact ⟨inner, rfl, hinner.symm⟩

/-- Matches do not overlap if all start with a character that none has further on. -/
theorem settled_of_first {rule : Rule} (first : Char) (hcovers : Covers rule)
    (h : ∀ cs m, rule cs = some m → ∃ tail, m.covered = first :: tail ∧ first ∉ tail) : Settled rule := by
  intro x y m style lead part hm hx hlength hy
  obtain ⟨tail, htail, hfirst⟩ := h _ m hm
  obtain ⟨-, rest, hsplit⟩ := hcovers hm
  obtain ⟨c, back, hcovered, rfl⟩ := exists_inside hsplit hlength
  obtain ⟨-, rest', hsplit'⟩ := hcovers hy
  obtain ⟨tail', htail', -⟩ := h _ _ hy
  obtain ⟨d, x, rfl⟩ := List.exists_cons_of_ne_nil hx
  have hc : c = first := by
    rw [htail'] at hsplit'
    exact (List.cons.inj hsplit').1
  refine absurd ?_ hfirst
  rw [(List.cons.inj (htail.symm.trans hcovered)).2, hc]
  simp

/-- Matches without a lead that overlap start in what the first one paints. -/
theorem settled_of_lead_nil {rule : Rule}
    (h : ∀ cs m, rule cs = some m → ∃ style part, m = .of style [] part) : Settled rule := by
  intro x y m style lead part hm _ hlength hy
  obtain ⟨style', part', rfl⟩ := h _ m hm
  obtain ⟨style'', part'', hof⟩ := h _ _ hy
  have hlead : lead = [] := congrArg Match.lead hof
  rw [hlead]
  exact ⟨rfl, Nat.zero_le _, hlength⟩

/-- No meta property starts within another, since a name has no `@` in it. -/
theorem lawful_metaRule : Lawful metaRule where
  covers := narrow_metaRule.covers
  settled := by
    refine settled_of_first '@' narrow_metaRule.covers fun cs m h => ?_
    obtain ⟨name, rest, -, hname, rfl⟩ := metaRule_eq_some h
    exact ⟨name, rfl, hname.not_mem (by decide)⟩
  paints h := (narrow_metaRule.solid h rfl).1

/-- No name behind a connector starts within another, since no name has a connector in it. -/
theorem lawful_nameRule {style : Style} {mark : List Char} (hmark : ∀ c ∈ mark, Text.isNamePart c = true) :
    Lawful (nameRule style mark) where
  covers := (narrow_nameRule hmark).covers
  settled := by
    refine settled_of_first '─' (narrow_nameRule hmark).covers fun cs m h => ?_
    obtain ⟨name, rest, -, hname, rfl⟩ := nameRule_eq_some h
    exact ⟨_, rfl, List.not_mem_cons_of_ne_of_not_mem (by decide)
      ((hname.append_left hmark).not_mem (by decide +kernel))⟩
  paints h := ((narrow_nameRule hmark).solid h rfl).1

/-- What a wide rule paints from a place within a match lies within it, for both end with the last mark on
the line. -/
theorem Wide.lawful {rule : Rule} {style : Style} {opening : List Char} {mark : Char}
    (h : Wide rule style opening mark) : Lawful rule where
  covers _ _ hm := by
    obtain ⟨body, rest, rfl, -, -, -, rfl⟩ := h.eq_some.mp hm
    exact ⟨by simp [Match.covered, Match.of], rest, by simp [Match.covered, Match.of]⟩
  settled := by
    refine settled_of_lead_nil fun cs m hm => ?_
    obtain ⟨body, rest, -, -, -, -, rfl⟩ := h.eq_some.mp hm
    exact ⟨_, _, rfl⟩
  paints hm := by
    obtain ⟨body, rest, -, -, -, -, hof⟩ := h.eq_some.mp hm
    rw [Match.painted_of (congrArg Match.painted hof.symm)]
    simp

/-- At the end of the line there is one mark at most. -/
theorem lawful_unknownRule : Lawful unknownRule where
  covers _ _ h := by
    obtain ⟨rfl, rfl⟩ := unknownRule_eq_some h
    exact ⟨List.cons_ne_nil _ _, [], rfl⟩
  settled := settled_of_lead_nil fun _ _ h => ⟨_, _, (unknownRule_eq_some h).2⟩
  paints h := by
    rw [Match.painted_of (congrArg Match.painted (unknownRule_eq_some h).2.symm)]
    exact List.cons_ne_nil _ _

/-- So is there one truth value at most. -/
theorem lawful_boolRule : Lawful boolRule where
  covers _ _ h := by
    obtain ⟨word, rfl, -, rfl⟩ := boolRule_eq_some h
    exact ⟨List.cons_ne_nil _ _, [], by simp [Match.covered, Match.of]⟩
  settled := by
    refine settled_of_first ' ' ?_ fun cs m h => ?_
    · intro cs m h
      obtain ⟨word, rfl, -, rfl⟩ := boolRule_eq_some h
      exact ⟨List.cons_ne_nil _ _, [], by simp [Match.covered, Match.of]⟩
    · obtain ⟨word, -, hword, rfl⟩ := boolRule_eq_some h
      refine ⟨word, rfl, ?_⟩
      rcases hword with rfl | rfl <;> decide
  paints h := by
    obtain ⟨word, -, hword, hof⟩ := boolRule_eq_some h
    rw [Match.painted_of (congrArg Match.painted hof.symm)]
    rcases hword with rfl | rfl <;> exact List.cons_ne_nil _ _

/-- The key of a type comes only once in a match, at its start. -/
theorem lawful_objectTypeRule : Lawful objectTypeRule where
  covers := narrow_objectTypeRule.covers
  settled := by
    intro x y m style lead part hm hx hlength hy
    obtain ⟨name, rest, hsplit, hname, hof⟩ := objectTypeRule_eq_some hm
    obtain ⟨name', rest', hsplit', -, -⟩ := objectTypeRule_eq_some hy
    have hcovered : m.covered = objectTypeLead ++ name := by
      rcases hof with rfl | rfl
      · exact List.append_nil _
      · rfl
    have hlead : objectTypeLead = '_' :: '_' :: "objectType => ".toList := by decide
    rw [hcovered] at hlength
    obtain ⟨c, back, hinside, rfl⟩ := exists_inside hsplit hlength
    rw [hlead] at hinside hsplit'
    -- the lead starts with two underscores and has none further on
    have htail : '_' ∉ "objectType => ".toList ++ name := by
      rw [List.mem_append, not_or]
      exact ⟨by decide, hname.not_mem (by decide)⟩
    obtain ⟨hc, hback⟩ := List.cons.inj hsplit'
    cases x with
    | nil => exact absurd rfl hx
    | cons d x =>
      cases x with
      | nil =>
        have hback' : back = "objectType => ".toList ++ name :=
          (List.cons.inj (List.cons.inj hinside).2).2.symm
        rw [hback'] at hback
        exact absurd (List.cons.inj hback).1 (by decide)
      | cons e x =>
        refine absurd ?_ htail
        have hinner : "objectType => ".toList ++ name = x ++ c :: back :=
          (List.cons.inj (List.cons.inj hinside).2).2
        rw [hinner, hc]
        simp
  paints h := (narrow_objectTypeRule.solid h rfl).1

/-- No key with a type behind it starts inside such a type. -/
theorem typedKeyRule_ne_of_bracket {text rest : List Char} (htext : ' ' ∉ text) (style : Style)
    (lead part : List Char) : typedKeyRule (text ++ ']' :: rest) ≠ some (.of style lead part) := by
  intro h
  obtain ⟨key, more, hsplit, hkey, -, ⟨-, hof⟩ | ⟨joint, type, htype, -⟩⟩ := typedKeyRule_eq_some.mp h
  · cases congrArg Match.painted hof
  · obtain ⟨name, rest', rfl, hjoint, -, -⟩ := keyType?_eq_some htype
    obtain ⟨blank, hblank⟩ : ∃ tail, joint = ' ' :: tail := by
      rcases hjoint with rfl | rfl <;> exact ⟨_, rfl⟩
    rw [hblank] at hsplit
    rcases List.append_eq_append_iff.mp hsplit with ⟨inner, hinner, hmore⟩ | ⟨outer, houter, hmore⟩
    · -- the bracket would stand in the key
      cases inner with
      | nil => exact absurd (List.cons.inj hmore).1 (by decide)
      | cons c inner =>
        rw [hinner, ← (List.cons.inj hmore).1] at hkey
        exact hkey.not_mem (show isKeyPart ']' = false by decide) (by simp)
    · cases outer with
      | nil => exact absurd (List.cons.inj hmore).1 (by decide)
      | cons c outer =>
        rw [houter, ← (List.cons.inj hmore).1] at htext
        exact htext (by simp)

/-- No key with a type behind it starts in what joins another one to its type, or in that type. -/
theorem typedKeyRule_ne_of_type {joint name rest x y : List Char} (hjoint : IsJoint joint)
    (hname : IsRun isTypePart name) (hsplit : x ++ y = joint ++ ('[' :: name ++ ']' :: rest))
    (hlength : x.length < (joint ++ ('[' :: name ++ [']'])).length) (style : Style) (lead part : List Char) :
    typedKeyRule y ≠ some (.of style lead part) := by
  by_cases hx : x.length < joint.length
  · obtain ⟨c, back, hinside, rfl⟩ := exists_inside hsplit hx
    have hc : isKeyPart c = false := by
      have hmem : c ∈ joint := by
        rw [hinside]
        simp
      rcases hjoint with rfl | rfl
      · rw [List.mem_singleton.mp hmem]
        decide
      · simp only [List.mem_cons, List.not_mem_nil, or_false] at hmem
        rcases hmem with rfl | rfl | rfl | rfl <;> decide
    intro h
    obtain ⟨key, more, hkeysplit, hkey, -⟩ := typedKeyRule_eq_some.mp h
    obtain ⟨d, key, rfl⟩ := List.exists_cons_of_ne_nil hkey.1
    have hd := hkey.2 d List.mem_cons_self
    rw [← (List.cons.inj hkeysplit).1, hc] at hd
    cases hd
  · obtain ⟨inner, rfl, hinner⟩ := exists_behind hsplit (Nat.le_of_not_lt hx)
    have hblank : ' ' ∉ '[' :: name :=
      List.not_mem_cons_of_ne_of_not_mem (by decide) (hname.not_mem (by decide))
    rcases List.append_eq_append_iff.mp hinner with ⟨text, htext, rfl⟩ | ⟨outer, rfl, houter⟩
    · rw [htext] at hblank
      exact typedKeyRule_ne_of_bracket (fun hmem => hblank (List.mem_append_right _ hmem)) style lead part
    · simp only [List.length_append, List.length_cons, List.length_nil] at hlength
      have hnil : outer = [] := List.length_eq_zero_iff.mp (by omega)
      subst hnil
      rw [List.nil_append] at houter
      rw [← houter]
      exact typedKeyRule_ne_of_bracket List.not_mem_nil style lead part

/-- Looked at from a later character of its key, a typed key has the same type. -/
theorem lawful_typedKeyRule : Lawful typedKeyRule where
  covers := narrow_typedKeyRule.covers
  settled := by
    intro x y m style lead part hm hx hlength hy
    obtain ⟨key, rest, hsplit, hkey, hrest, hof⟩ := typedKeyRule_eq_some.mp hm
    by_cases hxkey : x.length < key.length
    · -- a later character of the key: the same type stands behind it
      obtain ⟨c, back, rfl, rfl⟩ := exists_inside hsplit hxkey
      have hrun : IsRun isKeyPart (c :: back) :=
        ⟨List.cons_ne_nil _ _, fun d hd => hkey.2 d (List.mem_append_right _ hd)⟩
      rcases hof with ⟨hnone, rfl⟩ | ⟨joint, type, htype, rfl⟩
      · have hself := typedKeyRule_eq_some.mpr ⟨_, rest, rfl, hrun, hrest, .inl ⟨hnone, rfl⟩⟩
        cases congrArg Match.painted (Option.some.inj (hself.symm.trans hy))
      · have hself := typedKeyRule_eq_some.mpr
          ⟨_, rest, rfl, hrun, hrest, .inr ⟨joint, type, htype, rfl⟩⟩
        have hlead : lead = c :: back ++ joint :=
          congrArg Match.lead (Option.some.inj (hy.symm.trans hself))
        obtain ⟨name, rest', -, -, -, rfl⟩ := keyType?_eq_some htype
        rw [hlead]
        simp only [Match.covered, Match.of, List.length_append, List.length_cons]
        exact ⟨rfl, by omega, by omega⟩
    · obtain ⟨inner, rfl, hinner⟩ := exists_behind hsplit (Nat.le_of_not_lt hxkey)
      rcases hof with ⟨-, rfl⟩ | ⟨joint, type, htype, rfl⟩
      · rw [Match.covered, List.append_nil] at hlength
        exact absurd (hlength : _ < key.length) hxkey
      · obtain ⟨name, rest', rfl, hjoint, hname, rfl⟩ := keyType?_eq_some htype
        rw [List.append_assoc] at hinner
        refine absurd hy (typedKeyRule_ne_of_type hjoint hname hinner ?_ style lead part)
        simp only [Match.covered, Match.of, List.length_append, List.length_cons, List.length_nil] at hlength ⊢
        omega
  paints h := (narrow_typedKeyRule.solid h rfl).1

/-- All rules are lawful. -/
theorem lawful_of_mem {rule : Rule} (h : rule ∈ rules) : Lawful rule := by
  simp only [rules, List.mem_cons, List.not_mem_nil, or_false] at h
  rcases h with rfl | rfl | rfl | rfl | rfl | rfl | rfl | rfl | rfl
  · exact lawful_metaRule
  · exact wide_expressionRule.lawful
  · exact lawful_objectTypeRule
  · exact lawful_typedKeyRule
  · exact lawful_nameRule (List.all_eq_true.mp rfl)
  · exact lawful_nameRule (List.all_eq_true.mp rfl)
  · exact wide_quotedRule.lawful
  · exact lawful_unknownRule
  · exact lawful_boolRule

end FusionInspect.Colour
