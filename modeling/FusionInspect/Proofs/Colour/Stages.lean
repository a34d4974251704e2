import FusionInspect.Proofs.Colour.Spans
import Mathlib.Data.List.Chain

/-!
# All runs on a line

The rules run one after the other on the same line. No rule paints right behind a code that turns a style on: what
it paints starts behind a blank, or with a character that no rule before it starts with (`Distinct`). So at each stage
a run is calm or leaves a span within another one, and a line has none exactly if all runs on it were calm
(`not_nested_iff_calm`).
-/

namespace FusionInspect.Colour

/-! ## Right behind a code -/

/-- If the first glyph turns a style on and the second is a stop, it is one of these. -/
def Follows (heads : List Char) (g h : Glyph) : Prop :=
  ∀ body c, g = .code body → g ≠ closing → h = .char c → isStop c = true → c ∈ heads

/-- The only stops that a painted part starts with are these, and where nothing leads it, it starts with a stop. -/
structure Headed (rule : Rule) (heads : List Char) : Prop where
  mem : ∀ {cs style lead c tail}, rule cs = some (.of style lead (c :: tail)) → isStop c = true → c ∈ heads
  stop : ∀ {cs style c tail}, rule cs = some (.of style [] (c :: tail)) → isStop c = true

/-- No rule paints a part that starts with a stop that a rule before it starts with, or one of these. -/
def Distinct (heads : List Char) : List Rule → Prop
  | [] => True
  | rule :: rs => ∃ new, Headed rule new ∧ (∀ c ∈ new, c ∉ heads) ∧ Distinct (new ++ heads) rs

section

variable {rule : Rule} {heads heads' new : List Char} {before gs out : List Glyph} {g h : Glyph}

theorem Follows.mono (hsub : heads ⊆ heads') (hfollows : Follows heads g h) : Follows heads' g h :=
  fun body c hbody hg hc hstop => hsub (hfollows body c hbody hg hc hstop)

theorem follows_code (heads : List Char) (g : Glyph) (body : List Char) : Follows heads g (.code body) :=
  fun _ _ _ _ hc => nomatch hc

theorem follows_closing (heads : List Char) (h : Glyph) : Follows heads closing h :=
  fun _ _ _ hne => absurd rfl hne

theorem follows_char (heads : List Char) (c : Char) (h : Glyph) : Follows heads (.char c) h :=
  fun _ _ hbody => nomatch hbody

/-- Codes that turn a style on may stand behind any glyph. -/
theorem isChain_opening (heads : List Char) (g : Glyph) (style : Style) :
    (g :: opening style).IsChain (Follows heads) := by
  cases style <;> simp [opening, Style.codes, follows_code]

/-- Anything may stand behind the code that ends a style. -/
theorem isChain_closing_cons (hgs : gs.IsChain (Follows heads)) : (closing :: gs).IsChain (Follows heads) :=
  List.isChain_cons.mpr ⟨fun y _ => follows_closing heads y, hgs⟩

/-- A run puts codes right in front of what its rule paints, and nowhere else. -/
theorem Wraps.isChain_cons (hw : Wraps rule before gs out)
    (hrule : ∀ {cs style lead c tail}, rule cs = some (.of style lead (c :: tail)) → isStop c = true → c ∈ new)
    (hgs : (g :: gs).IsChain (Follows heads)) : (g :: out).IsChain (Follows (new ++ heads)) := by
  have hsub : heads ⊆ new ++ heads := List.subset_append_right _ _
  induction hw generalizing g with
  | done => exact hgs.imp fun _ _ => .mono hsub
  | keep _ _ ih =>
    rw [List.isChain_cons_cons] at hgs ⊢
    exact ⟨hgs.1.mono hsub, ih hgs.2⟩
  | @wrap before part rest out style hpaints _ _ ih =>
    obtain ⟨hpart, hrest, -⟩ := List.isChain_append.mp hgs.tail
    have hhead : ∀ x, ∀ y ∈ part.head?, Follows (new ++ heads) x y := by
      rintro x y hy body c - - rfl hstop
      obtain ⟨tail, rfl⟩ := List.head?_eq_some_iff.mp hy
      obtain ⟨gap, lead, -, hpaints⟩ := hpaints
      exact List.mem_append_left _ (hrule hpaints hstop)
    rw [← List.cons_append, ← List.cons_append, List.isChain_append, List.isChain_append]
    refine ⟨⟨isChain_opening _ g style, hpart.imp fun _ _ => .mono hsub, fun x _ => hhead x⟩,
      ih (isChain_closing_cons hrest), ?_⟩
    intro x _ y hy
    obtain rfl : y = closing := (Option.some.inj hy).symm
    exact follows_code _ x _

/-- After a run, right behind a code stand only stops that the rule paints first or that stood there
before. -/
theorem Wraps.isChain (hw : Wraps rule before gs out)
    (hrule : ∀ {cs style lead c tail}, rule cs = some (.of style lead (c :: tail)) → isStop c = true → c ∈ new)
    (hgs : gs.IsChain (Follows heads)) : out.IsChain (Follows (new ++ heads)) :=
  (hw.isChain_cons hrule (isChain_closing_cons hgs)).tail

/-- No rule paints right behind a code that turns a style on. -/
theorem Headed.not_paintsAt (hhead : Headed rule new) (hrule : rule ∈ rules) (hnew : ∀ c ∈ new, c ∉ heads)
    (hgs : gs.IsChain (Follows heads)) {front part rest : List Glyph} {body : List Char} {style : Style}
    (hsplit : gs = front ++ .code body :: (part ++ rest)) (hbody : .code body ≠ closing) :
    ¬PaintsAt rule (spell (front ++ [.code body])) style (spell part) (spell rest) := by
  rintro ⟨gap, lead, hgap, hpaints⟩
  rcases (edged_of_mem hrule hpaints).starts with ⟨rfl, c, tail, hpart, hc⟩ | ⟨⟨lead, rfl⟩, -⟩
  · obtain ⟨part, rfl⟩ : ∃ more, part = .char c :: more := by
      cases part with
      | nil => cases hpart
      | cons g part =>
        cases g with
        | code body' =>
          rw [← (List.cons.inj (hpart : '\x1b' :: _ = _)).1] at hc
          cases hc
        | char d => exact ⟨part, by rw [(List.cons.inj (hpart : d :: _ = _)).1]⟩
    have hstop := hhead.stop hpaints
    have hfollows : Follows heads (.code body) (.char c) := by
      rw [hsplit] at hgs
      exact (List.isChain_cons_cons.mp (List.isChain_append.mp hgs).2.1).1
    exact hnew c (hhead.mem hpaints hstop) (hfollows body c rfl hbody rfl hstop)
  · -- a blank leads the match, and the code does not end with one
    rw [← List.append_assoc] at hgap
    obtain ⟨front', hfront, -⟩ := exists_last_char (by decide) hgap
    cases List.singleton_inj.mp (List.append_inj' hfront rfl).2

end

/-! ## The rules -/

/-- What a wide rule paints starts with its opening, and no match is led by anything. -/
theorem Wide.headed {rule : Rule} {style : Style} {first mark : Char} {opening : List Char}
    (hrule : Wide rule style (first :: opening) mark) (hfirst : isStop first = true) : Headed rule [first] := by
  have hhead : ∀ {cs style lead c tail}, rule cs = some (.of style lead (c :: tail)) → c = first := by
    intro cs style lead c tail h
    obtain ⟨body, rest, -, -, -, -, hof⟩ := hrule.eq_some.mp h
    exact (List.cons.inj (Match.painted_of (congrArg Match.painted hof.symm))).1
  exact ⟨fun h _ => List.mem_singleton.mpr (hhead h), fun h => hhead h ▸ hfirst⟩

/-- The mark of an unknown prototype starts with a parenthesis. -/
theorem headed_unknownRule : Headed unknownRule ['('] := by
  have hhead : ∀ {cs style lead c tail}, unknownRule cs = some (.of style lead (c :: tail)) → c = '(' := by
    intro cs style lead c tail h
    obtain ⟨-, hof⟩ := unknownRule_eq_some h
    exact (List.cons.inj (Match.painted_of (congrArg Match.painted hof.symm))).1
  exact ⟨fun h _ => List.mem_singleton.mpr (hhead h), fun h => hhead h ▸ rfl⟩

/-- A truth value is led by a blank, and starts with no stop. -/
theorem headed_boolRule : Headed boolRule [] where
  mem h hstop := by
    obtain ⟨word, -, hword, hof⟩ := boolRule_eq_some h
    have hpart := Match.painted_of (congrArg Match.painted hof.symm)
    rcases hword with rfl | rfl
    · rw [(List.cons.inj hpart).1] at hstop
      cases hstop
    · rw [(List.cons.inj hpart).1] at hstop
      cases hstop
  stop h := by
    obtain ⟨word, -, -, hof⟩ := boolRule_eq_some h
    cases congrArg Match.lead hof

/-- No stop starts what a narrow rule paints. -/
theorem Narrow.head_mem {rule : Rule} (hrule : Narrow rule) {cs lead tail : List Char} {style : Style} {c : Char}
    (h : rule cs = some (.of style lead (c :: tail))) (hstop : isStop c = true) : c ∈ ([] : List Char) := by
  have hfree := hrule.free h c (List.mem_append_right _ List.mem_cons_self)
  rw [hstop] at hfree
  cases hfree

/-- So a narrow rule that paints behind a blank adds no stop behind a code. -/
theorem Narrow.headed {rule : Rule} (hrule : Narrow rule) (hled : Led rule) : Headed rule [] where
  mem := hrule.head_mem
  stop h := by
    obtain ⟨front, hlead⟩ := hled h
    cases front <;> cases hlead

/-- Behind the first rule, no rule paints right behind a code that turns a style on. -/
theorem distinct_rules : Distinct [] rules.tail := by
  have hlate : ∀ {rs heads}, (∀ rule ∈ rs, rule ∈ lateRules) → ∀ {more}, Distinct heads more →
      Distinct heads (rs ++ more) := by
    intro rs heads hrs more hmore
    induction rs with
    | nil => exact hmore
    | cons rule rs ih =>
      obtain ⟨hrule, hrs⟩ := List.forall_mem_cons.mp hrs
      have hnarrow := narrow_of_mem (List.mem_cons_of_mem _ hrule)
      exact ⟨[], hnarrow.headed (led_of_mem hrule), nofun, ih hrs⟩
  rw [rules_eq]
  refine ⟨['$'], wide_expressionRule.headed rfl, nofun, hlate (fun _ h => h) ?_⟩
  refine ⟨['"'], wide_quotedRule.headed rfl, List.forall_mem_singleton.mpr (by decide), ?_⟩
  exact ⟨['('], headed_unknownRule, List.forall_mem_singleton.mpr (by decide), [], headed_boolRule, nofun, trivial⟩

/-! ## Calm lines -/

section

variable {rs : List Rule} {gs out : List Glyph} {heads : List Char}

/-- Calm runs leave the pen where it was. -/
theorem Runs.run?_eq (h : Runs Calm rs gs out) : Pen.idle.run? out = Pen.idle.run? gs := by
  induction h with
  | nil => rfl
  | cons hcalm _ ih => rw [ih, hcalm.run?_eq rfl]

/-- Runs that leave no span within another one were calm, and there was none before them. -/
theorem Runs.calm_of_not_clashes (h : Runs Wraps rs gs out) (hrs : Distinct heads rs)
    (hmem : ∀ rule ∈ rs, rule ∈ rules) (hchain : gs.IsChain (Follows heads))
    (hgs : Pen.idle.run? gs = some .idle ∨ Pen.idle.Clashes gs) (hout : ¬Pen.idle.Clashes out) :
    Runs Calm rs gs out ∧ ¬Pen.idle.Clashes gs := by
  induction h generalizing heads with
  | nil => exact ⟨.nil, hout⟩
  | @cons rule rs gs mid out hwraps _ ih =>
    obtain ⟨new, hhead, hnew, hrs⟩ := hrs
    obtain ⟨hrule, hmem⟩ := List.forall_mem_cons.mp hmem
    have hstep : Calm rule [] gs mid ∨ Pen.idle.Clashes mid := by
      refine hwraps.calm_or_clashes hrule rfl hgs fun front body part rest style hsplit hbody => ?_
      exact hhead.not_paintsAt hrule hnew hchain hsplit hbody
    have hmid : Pen.idle.run? mid = some .idle ∨ Pen.idle.Clashes mid := by
      rcases hstep with hcalm | hclash
      · rw [hcalm.run?_eq rfl]
        exact hgs.imp_right (hcalm.clashes rfl)
      · exact .inr hclash
    obtain ⟨hruns, hnone⟩ := ih hrs hmem (hwraps.isChain hhead.mem hchain) hmid hout
    have hcalm := hstep.resolve_right hnone
    exact ⟨.cons hcalm hruns, fun hclash => hnone (hcalm.clashes rfl hclash)⟩

end

/-- The first run on a line without codes is calm. -/
theorem Wraps.calm_of_chars {rule : Rule} {text : List Char} {out : List Glyph}
    (h : Wraps rule [] (text.map .char) out) : Calm rule [] (text.map .char) out := by
  refine h.calm fun front part rest style hsplit _ => ?_
  obtain ⟨x, y, -, rfl, hy⟩ := List.map_eq_append_iff.mp hsplit
  obtain ⟨cs, z, -, rfl, -⟩ := List.map_eq_append_iff.mp hy
  exact ⟨Pen.run?_idle_chars x, cs, rfl⟩

/-- **A line has no span within another one exactly if all runs on it were calm.** -/
theorem not_nested_iff_calm {text : List Char} {out : List Glyph} (h : Runs Wraps rules (text.map .char) out) :
    ¬Nested out ↔ Runs Calm rules (text.map .char) out := by
  constructor
  · intro hnested
    rw [rules_eq] at h
    cases h with
    | @cons _ _ _ mid _ hfirst hrest =>
      have hcalm := hfirst.calm_of_chars
      have hmid : Pen.idle.run? mid = some .idle := by rw [hcalm.run?_eq rfl, Pen.run?_idle_chars]
      have hchain : mid.IsChain (Follows []) := by
        refine hfirst.isChain narrow_metaRule.head_mem (List.Pairwise.isChain ?_)
        exact List.pairwise_map.mpr (List.pairwise_of_forall fun c _ => follows_char [] c _)
      have hmem : ∀ rule ∈ rules.tail, rule ∈ rules := fun _ => List.mem_of_mem_tail
      obtain ⟨hruns, -⟩ := hrest.calm_of_not_clashes distinct_rules hmem hchain (.inl hmid)
        fun hclash => hnested hclash.nested
      exact .cons hcalm hruns
  · intro hcalm
    exact not_nested_of_run? (hcalm.run?_eq.trans (Pen.run?_idle_chars text))

end FusionInspect.Colour
