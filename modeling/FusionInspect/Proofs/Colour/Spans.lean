import FusionInspect.Proofs.Colour.Escapes
import Mathlib.Data.List.Induction

/-!
# Spans in a coloured line

What a rule paints is a SPAN: the codes of a style, what is painted, and the code that ends it. That code ends whatever
style is on, so a span within another one cuts it short. A PEN that follows a line from glyph to glyph notices this: it
refuses to turn a style on behind something that is painted.

A run of a rule is CALM if it paints characters only, and none that are painted already. A calm run leaves the pen
where it was before. Any other run leaves a span within another one, and no later run mends it
(`Wraps.calm_or_clashes`). So a line has no span within another one exactly if all runs on it were calm.
-/

namespace FusionInspect.Colour

/-- Between a code that turns a style on and the next one that ends it, another style is turned on, behind something
that is seen. -/
def Nested (gs : List Glyph) : Prop :=
  ∃ before outer between inner after, gs = before ++ .code outer :: (between ++ .code inner :: after) ∧
    .code outer ≠ closing ∧ .code inner ≠ closing ∧ closing ∉ between ∧ visible between ≠ []

/-! ## The pen -/

/-- No style is on, or one is on and nothing is painted yet, or something is. -/
inductive Pen where
  | idle
  | fresh
  | used
  deriving Repr, DecidableEq

/-- What a glyph does to the pen. A style is not turned on behind something that is painted, and none is ended before
something is. -/
def Pen.step? : Pen → Glyph → Option Pen
  | .idle, .char _ => some .idle
  | .fresh, .char _ => some .used
  | .used, .char _ => some .used
  | pen, .code body =>
    if body = ['0'] then if pen = .used then some .idle else none
    else if pen = .used then none else some .fresh

/-- What some glyphs do to the pen, one after the other. -/
def Pen.run? (pen : Pen) (gs : List Glyph) : Option Pen :=
  gs.foldlM Pen.step? pen

/-- The pen gets to a style that is turned on behind something painted. -/
def Pen.Clashes (pen : Pen) (gs : List Glyph) : Prop :=
  ∃ front body back, gs = front ++ .code body :: back ∧ .code body ≠ closing ∧ pen.run? front = some .used

section

variable {pen next : Pen} {g : Glyph} {gs hs : List Glyph} {body cs : List Char}

theorem Pen.run?_cons (pen : Pen) (g : Glyph) (gs : List Glyph) :
    pen.run? (g :: gs) = (pen.step? g).bind fun next => next.run? gs :=
  List.foldlM_cons

theorem Pen.run?_append (pen : Pen) (gs hs : List Glyph) :
    pen.run? (gs ++ hs) = (pen.run? gs).bind fun next => next.run? hs :=
  List.foldlM_append

/-- A pen that got to the end got to each place before it. -/
theorem Pen.exists_of_run?_append (h : pen.run? (gs ++ hs) = some next) :
    ∃ mid, pen.run? gs = some mid ∧ mid.run? hs = some next := by
  rwa [Pen.run?_append, Option.bind_eq_some_iff] at h

theorem Pen.run?_append_of (h : pen.run? gs = some next) : pen.run? (gs ++ hs) = next.run? hs := by
  rw [Pen.run?_append, h, Option.bind_some]

theorem Pen.run?_concat (h : pen.run? gs = some next) : pen.run? (gs ++ [g]) = next.step? g := by
  rw [Pen.run?_append_of h, Pen.run?_cons]
  exact Option.bind_fun_some _

/-- A character behind a code that turned a style on is painted. -/
theorem Pen.step?_char (hpen : pen ≠ .idle) (c : Char) : pen.step? (.char c) = some .used := by
  cases pen with
  | idle => exact absurd rfl hpen
  | fresh => rfl
  | used => rfl

theorem code_eq_closing : Glyph.code body = closing ↔ body = ['0'] := by
  rw [closing, Glyph.code.injEq]

/-- A style is ended only behind something painted. -/
theorem Pen.step?_closing (pen : Pen) : pen.step? closing = if pen = .used then some .idle else none := by
  cases pen <;> rfl

/-- A style is not turned on behind something painted. -/
theorem Pen.step?_code (hbody : .code body ≠ closing) :
    pen.step? (.code body) = if pen = .used then none else some .fresh := by
  rw [Ne, code_eq_closing] at hbody
  cases pen <;> simp [Pen.step?, hbody]

/-- Characters leave the pen idle if it was. -/
@[simp]
theorem Pen.run?_idle_chars (cs : List Char) : Pen.idle.run? (cs.map .char) = some .idle := by
  induction cs with
  | nil => rfl
  | cons c cs ih =>
    rw [List.map_cons, Pen.run?_cons]
    exact ih

/-- Otherwise they are painted. -/
theorem Pen.run?_chars (hpen : pen ≠ .idle) (hcs : cs ≠ []) : pen.run? (cs.map .char) = some .used := by
  induction cs generalizing pen with
  | nil => exact absurd rfl hcs
  | cons c cs ih =>
    rw [List.map_cons, Pen.run?_cons, Pen.step?_char hpen, Option.bind_some]
    cases cs with
    | nil => rfl
    | cons d cs => exact ih nofun (List.cons_ne_nil _ _)

/-- The codes of a style turn it on. -/
theorem Pen.run?_opening (style : Style) : Pen.idle.run? (opening style) = some .fresh := by
  cases style <;> decide

/-- What follows them is painted. -/
theorem Pen.run?_painted (style : Style) (hcs : cs ≠ []) :
    Pen.idle.run? (opening style ++ cs.map .char) = some .used := by
  rw [Pen.run?_append_of (Pen.run?_opening style), Pen.run?_chars (nofun : Pen.fresh ≠ .idle) hcs]

/-- Behind a span the pen is where it was in front of it. -/
theorem Pen.run?_span (style : Style) (hcs : cs ≠ []) (gs : List Glyph) :
    Pen.idle.run? (opening style ++ cs.map .char ++ closing :: gs) = Pen.idle.run? gs := by
  rw [Pen.run?_append_of (Pen.run?_painted style hcs), Pen.run?_cons]
  rfl

/-- A style that is fresh was turned on by the last glyph. -/
theorem exists_code_of_run? (h : pen.run? gs = some .fresh) (hpen : pen ≠ .fresh) :
    ∃ front body, gs = front ++ [.code body] ∧ .code body ≠ closing := by
  rcases List.eq_nil_or_concat gs with rfl | ⟨front, g, rfl⟩
  · exact absurd (Option.some.inj h) hpen
  · rw [List.concat_eq_append, Pen.run?_append, Option.bind_eq_some_iff] at h
    obtain ⟨before, -, h⟩ := h
    rw [Pen.run?_cons, Option.bind_eq_some_iff] at h
    obtain ⟨after, hstep, hafter⟩ := h
    obtain rfl : after = .fresh := Option.some.inj hafter
    rw [List.concat_eq_append]
    cases g with
    | char c => cases before <;> cases hstep
    | code body =>
      refine ⟨front, body, rfl, fun heq => ?_⟩
      rw [heq, Pen.step?_closing] at hstep
      split at hstep <;> cases hstep

/-- Codes alone turn a style on, where none is painted yet. -/
theorem Pen.run?_codes (hgs : visible gs = []) (hne : gs ≠ []) (hpen : pen ≠ .used) (h : pen.run? gs = some next) :
    next = .fresh := by
  induction gs generalizing pen with
  | nil => exact absurd rfl hne
  | cons g gs ih =>
    cases g with
    | char c => cases hgs
    | code body =>
      rw [Pen.run?_cons] at h
      by_cases hbody : .code body = closing
      · rw [hbody, Pen.step?_closing, if_neg hpen] at h
        cases h
      · rw [Pen.step?_code hbody, if_neg hpen, Option.bind_some] at h
        cases gs with
        | nil => exact (Option.some.inj h).symm
        | cons g gs => exact ih hgs (List.cons_ne_nil _ _) (nofun : Pen.fresh ≠ .used) h

/-! ## Nested spans -/

/-- Where a style is on, the code that turned it on has none behind it that ends it. -/
theorem exists_open_of_run? (h : Pen.idle.run? gs = some pen) (hpen : pen ≠ .idle) :
    ∃ before outer between, gs = before ++ .code outer :: between ∧ .code outer ≠ closing ∧ closing ∉ between ∧
      (pen = .used → visible between ≠ []) := by
  induction gs using List.reverseRecOn generalizing pen with
  | nil => exact absurd (Option.some.inj h).symm hpen
  | append_singleton gs g ih =>
    rw [Pen.run?_append, Option.bind_eq_some_iff] at h
    obtain ⟨last, hlast, h⟩ := h
    rw [Pen.run?_cons, Option.bind_eq_some_iff] at h
    obtain ⟨_, hstep, h⟩ := h
    obtain rfl := Option.some.inj h
    cases g with
    | char c =>
      have hne : last ≠ .idle := by
        rintro rfl
        exact hpen (Option.some.inj hstep).symm
      obtain ⟨before, outer, between, rfl, houter, hnone, -⟩ := ih hlast hne
      refine ⟨before, outer, between ++ [.char c], by simp, houter, ?_, fun _ => by simp⟩
      rw [List.mem_append, not_or]
      exact ⟨hnone, by simp [closing]⟩
    | code body =>
      by_cases hbody : .code body = closing
      · rw [hbody, Pen.step?_closing] at hstep
        split at hstep
        · exact absurd (Option.some.inj hstep).symm hpen
        · cases hstep
      · rw [Pen.step?_code hbody] at hstep
        split at hstep
        · cases hstep
        · obtain rfl := Option.some.inj hstep
          exact ⟨gs, body, [], rfl, hbody, List.not_mem_nil, fun hused => absurd hused (by decide)⟩

/-- Where the pen clashes, one span is within another. -/
theorem Pen.Clashes.nested (h : Pen.idle.Clashes gs) : Nested gs := by
  obtain ⟨front, inner, after, rfl, hinner, hrun⟩ := h
  obtain ⟨before, outer, between, rfl, houter, hnone, hvisible⟩ := exists_open_of_run? hrun (nofun : Pen.used ≠ .idle)
  exact ⟨before, outer, between, inner, after, by simp, houter, hinner, hnone, hvisible rfl⟩

/-- A style stays on up to the next code that ends it. -/
theorem Pen.run?_of_not_mem (hnone : closing ∉ gs) (hpen : pen ≠ .idle) (h : pen.run? gs = some next) :
    next ≠ .idle ∧ (pen = .used ∨ visible gs ≠ [] → next = .used) := by
  induction gs generalizing pen with
  | nil =>
    obtain rfl := Option.some.inj h
    exact ⟨hpen, fun hor => hor.resolve_right fun hne => hne rfl⟩
  | cons g gs ih =>
    obtain ⟨hg, hgs⟩ := not_or.mp (mt List.mem_cons.mpr hnone)
    rw [Pen.run?_cons] at h
    cases g with
    | char c =>
      rw [Pen.step?_char hpen] at h
      obtain ⟨hne, hused⟩ := ih hgs (nofun : Pen.used ≠ .idle) h
      exact ⟨hne, fun _ => hused (.inl rfl)⟩
    | code body =>
      rw [Pen.step?_code (Ne.symm hg)] at h
      split at h
      · cases h
      · next hused' =>
        obtain ⟨hne, hused⟩ := ih hgs (nofun : Pen.fresh ≠ .idle) h
        exact ⟨hne, fun hor => hused (.inr (hor.resolve_left hused'))⟩

/-- A line that the pen can follow has no span within another. -/
theorem not_nested_of_run? (h : Pen.idle.run? gs = some pen) : ¬Nested gs := by
  rintro ⟨before, outer, between, inner, after, rfl, houter, hinner, hnone, hvisible⟩
  rw [Pen.run?_append, Option.bind_eq_some_iff] at h
  obtain ⟨first, -, h⟩ := h
  rw [Pen.run?_cons, Pen.step?_code houter] at h
  split at h
  · cases h
  · rw [Option.bind_some, Pen.run?_append, Option.bind_eq_some_iff] at h
    obtain ⟨last, hlast, h⟩ := h
    obtain rfl := (Pen.run?_of_not_mem hnone (nofun : Pen.fresh ≠ .idle) hlast).2 (.inr hvisible)
    rw [Pen.run?_cons, Pen.step?_code hinner, if_pos rfl] at h
    cases h

/-! ## Clashes -/

/-- The pen clashes behind a glyph that it can follow exactly if it clashes in the rest. -/
theorem Pen.clashes_cons (h : pen.step? g = some next) : pen.Clashes (g :: gs) ↔ next.Clashes gs := by
  constructor
  · rintro ⟨front, body, back, hsplit, hbody, hrun⟩
    cases front with
    | nil =>
      obtain ⟨rfl, rfl⟩ := List.cons.inj hsplit
      obtain rfl := Option.some.inj hrun
      rw [Pen.step?_code hbody, if_pos rfl] at h
      cases h
    | cons g' front =>
      obtain ⟨rfl, rfl⟩ := List.cons.inj hsplit
      rw [Pen.run?_cons, h] at hrun
      exact ⟨front, body, back, rfl, hbody, hrun⟩
  · rintro ⟨front, body, back, rfl, hbody, hrun⟩
    refine ⟨g :: front, body, back, rfl, hbody, ?_⟩
    rwa [Pen.run?_cons, h]

/-- The same behind any number of them. -/
theorem Pen.clashes_append (h : pen.run? gs = some next) : pen.Clashes (gs ++ hs) ↔ next.Clashes hs := by
  induction gs generalizing pen with
  | nil => rw [Option.some.inj h]; rfl
  | cons g gs ih =>
    rw [Pen.run?_cons, Option.bind_eq_some_iff] at h
    obtain ⟨after, hstep, h⟩ := h
    rw [List.cons_append, Pen.clashes_cons hstep, ih h]

/-- Where the pen comes to a clash and refuses the first glyph, that glyph is the clash. -/
theorem Pen.Clashes.congr_of_step? (h : pen.Clashes (g :: gs)) (hstep : pen.step? g = none) (hs : List Glyph) :
    pen.Clashes (g :: hs) := by
  obtain ⟨front, body, back, hsplit, hbody, hrun⟩ := h
  cases front with
  | nil =>
    obtain ⟨rfl, rfl⟩ := List.cons.inj hsplit
    exact ⟨[], body, hs, rfl, hbody, hrun⟩
  | cons g' front =>
    obtain ⟨rfl, rfl⟩ := List.cons.inj hsplit
    rw [Pen.run?_cons, hstep] at hrun
    cases hrun

end

/-! ## Calm runs -/

/-- A run that paints characters only, where no style is on. -/
inductive Calm (rule : Rule) : List Glyph → List Glyph → List Glyph → Prop
  | done {before : List Glyph} : Calm rule before [] []
  | keep {before gs out : List Glyph} {g : Glyph} : Misses rule (spell before) (spell (g :: gs)) →
      Calm rule (before ++ [g]) gs out → Calm rule before (g :: gs) (g :: out)
  | wrap {before rest out : List Glyph} {cs : List Char} {style : Style} : Pen.idle.run? before = some .idle →
      PaintsAt rule (spell before) style cs (spell rest) → cs ≠ [] → Calm rule (before ++ cs.map .char) rest out →
      Calm rule before (cs.map .char ++ rest) (opening style ++ cs.map .char ++ closing :: out)

section

variable {rule : Rule} {before gs out : List Glyph} {pen : Pen}

/-- A calm run is a run. -/
theorem Calm.wraps (h : Calm rule before gs out) : Wraps rule before gs out := by
  induction h with
  | done => exact .done
  | keep hmiss _ ih => exact .keep hmiss ih
  | wrap _ hpaints hcs _ ih => exact .wrap (by rwa [spell_map_char]) (by simpa using hcs) ih

/-- A run is calm if it finds only characters to paint, where no style is on. -/
theorem Wraps.calm (h : Wraps rule before gs out)
    (hcalm : ∀ front part rest style, gs = front ++ (part ++ rest) →
      PaintsAt rule (spell (before ++ front)) style (spell part) (spell rest) →
      Pen.idle.run? (before ++ front) = some .idle ∧ ∃ cs : List Char, part = cs.map .char) :
    Calm rule before gs out := by
  induction h with
  | done => exact .done
  | @keep before gs out g hmiss _ ih =>
    refine .keep hmiss (ih fun front part rest style hsplit hpaints => ?_)
    rw [List.append_assoc] at hpaints ⊢
    exact hcalm (g :: front) part rest style (by rw [hsplit]; rfl) hpaints
  | @wrap before part rest out style hpaints hne _ ih =>
    obtain ⟨hidle, cs, rfl⟩ := hcalm [] part rest style rfl (by rwa [List.append_nil])
    rw [List.append_nil] at hidle
    rw [spell_map_char] at hpaints
    refine .wrap hidle hpaints (by simpa using hne) (ih fun front part' rest' style' hsplit hpaints' => ?_)
    rw [List.append_assoc] at hpaints' ⊢
    exact hcalm (cs.map .char ++ front) part' rest' style' (by rw [hsplit, List.append_assoc]) hpaints'

/-- Behind a calm run the pen is where it was without it. -/
theorem Calm.run?_eq (h : Calm rule before gs out) (hbefore : Pen.idle.run? before = some pen) :
    pen.run? out = pen.run? gs := by
  induction h generalizing pen with
  | done => rfl
  | @keep _ _ _ g _ _ ih =>
    rw [Pen.run?_cons, Pen.run?_cons]
    cases hstep : pen.step? g with
    | none => rfl
    | some next => exact ih ((Pen.run?_concat hbefore).trans hstep)
  | @wrap before rest out cs style hidle _ hcs _ ih =>
    obtain rfl : pen = .idle := Option.some.inj (hbefore.symm.trans hidle)
    rw [Pen.run?_span style hcs, Pen.run?_append_of (Pen.run?_idle_chars cs)]
    exact ih (by rw [Pen.run?_append_of hidle, Pen.run?_idle_chars])

/-- A span by itself makes no clash and mends none. -/
theorem Pen.clashes_span {cs : List Char} (style : Style) (hcs : cs ≠ []) (gs : List Glyph) :
    Pen.idle.Clashes (opening style ++ cs.map .char ++ closing :: gs) ↔ Pen.idle.Clashes gs := by
  rw [Pen.clashes_append (Pen.run?_painted style hcs), Pen.clashes_cons (Pen.step?_closing _)]

/-- A calm run mends no clash. -/
theorem Calm.clashes (h : Calm rule before gs out) (hbefore : Pen.idle.run? before = some pen)
    (hgs : pen.Clashes gs) : pen.Clashes out := by
  induction h generalizing pen with
  | done => exact hgs
  | @keep _ _ out g _ _ ih =>
    cases hstep : pen.step? g with
    | none => exact hgs.congr_of_step? hstep out
    | some next =>
      rw [Pen.clashes_cons hstep] at hgs ⊢
      exact ih ((Pen.run?_concat hbefore).trans hstep) hgs
  | @wrap before rest out cs style hidle _ hcs _ ih =>
    obtain rfl : pen = .idle := Option.some.inj (hbefore.symm.trans hidle)
    rw [Pen.clashes_span style hcs]
    rw [Pen.clashes_append (Pen.run?_idle_chars cs)] at hgs
    exact ih (by rw [Pen.run?_append_of hidle, Pen.run?_idle_chars]) hgs

/-- The glyphs before the first code are characters. -/
theorem chars_or_code (gs : List Glyph) :
    (∃ cs : List Char, gs = cs.map .char) ∨
    ∃ (cs body : List Char) (rest : List Glyph), gs = cs.map .char ++ .code body :: rest := by
  induction gs with
  | nil => exact .inl ⟨[], rfl⟩
  | cons g gs ih =>
    cases g with
    | code body => exact .inr ⟨[], body, gs, rfl⟩
    | char c =>
      rcases ih with ⟨cs, rfl⟩ | ⟨cs, body, rest, rfl⟩
      · exact .inl ⟨c :: cs, rfl⟩
      · exact .inr ⟨c :: cs, body, rest, rfl⟩

/-- A style is turned on by a code, which is not the one that ends it. -/
theorem exists_opening_cons (style : Style) :
    ∃ body rest, opening style = .code body :: rest ∧ .code body ≠ closing := by
  cases style <;> exact ⟨_, _, rfl, by decide⟩

/-- What a rule paints does not start with a code. -/
theorem PaintsAt.ne_code {text rest : List Char} {style : Style} {body : List Char} {part : List Glyph}
    (hrule : rule ∈ rules) (h : PaintsAt rule text style (spell (.code body :: part)) rest) : False := by
  obtain ⟨gap, lead, -, h⟩ := h
  rcases (edged_of_mem hrule h).starts with ⟨-, c, tail, hpart, hc⟩ | ⟨-, hpart⟩
  · rw [← (List.cons.inj (hpart : '\x1b' :: _ = _)).1] at hc
    cases hc
  · exact hpart List.mem_cons_self

/-- **A run is calm, or it paints something within something painted.** No run mends what another one has painted so.
It only must not paint right behind a code that turns a style on. -/
theorem Wraps.calm_or_clashes (hrule : rule ∈ rules) (h : Wraps rule before gs out)
    (hbefore : Pen.idle.run? before = some pen) (hgs : pen.run? gs = some .idle ∨ pen.Clashes gs)
    (hbehind : ∀ front body part rest style, before ++ gs = front ++ .code body :: (part ++ rest) →
      .code body ≠ closing → ¬PaintsAt rule (spell (front ++ [.code body])) style (spell part) (spell rest)) :
    Calm rule before gs out ∨ pen.Clashes out := by
  induction h generalizing pen with
  | done => exact .inl .done
  | @keep before gs out g hmiss _ ih =>
    cases hstep : pen.step? g with
    | none =>
      rcases hgs with hgs | hgs
      · rw [Pen.run?_cons, hstep] at hgs
        cases hgs
      · exact .inr (hgs.congr_of_step? hstep out)
    | some next =>
      rw [Pen.run?_cons, hstep, Pen.clashes_cons hstep] at hgs
      rw [Pen.clashes_cons hstep]
      refine (ih ((Pen.run?_concat hbefore).trans hstep) hgs ?_).imp_left (.keep hmiss)
      rwa [List.append_assoc]
  | @wrap before part rest out style hpaints hne _ ih =>
    cases pen with
    | used =>
      obtain ⟨body, more, hopening, hbody⟩ := exists_opening_cons style
      exact .inr ⟨[], body, more ++ part ++ closing :: out, by rw [hopening]; simp, hbody, rfl⟩
    | fresh =>
      obtain ⟨front, body, rfl, hbody⟩ := exists_code_of_run? hbefore (nofun : Pen.idle ≠ .fresh)
      exact absurd hpaints (hbehind front body part rest style (by simp) hbody)
    | idle =>
      rcases chars_or_code part with ⟨cs, rfl⟩ | ⟨cs, body, more, rfl⟩
      · have hcs : cs ≠ [] := by simpa using hne
        rw [spell_map_char] at hpaints
        rw [Pen.run?_append_of (Pen.run?_idle_chars cs), Pen.clashes_append (Pen.run?_idle_chars cs)] at hgs
        rw [Pen.clashes_span style hcs]
        refine (ih ?_ hgs ?_).imp_left (.wrap hbefore hpaints hcs)
        · rw [Pen.run?_append_of hbefore, Pen.run?_idle_chars]
        · rwa [List.append_assoc]
      · have hcs : cs ≠ [] := by
          rintro rfl
          exact hpaints.ne_code hrule
        -- the first code in the painted part turns a style on, since none is on in front of it
        have hbody : .code body ≠ closing := by
          intro heq
          rw [List.append_assoc, Pen.run?_append_of (Pen.run?_idle_chars cs),
            Pen.clashes_append (Pen.run?_idle_chars cs), List.cons_append, heq] at hgs
          rcases hgs with hgs | hgs
          · cases hgs
          · obtain ⟨front, body', back, hsplit, hbody', hrun⟩ := hgs.congr_of_step? rfl []
            rcases List.append_eq_singleton_iff.mp hsplit.symm with ⟨rfl, hcons⟩ | ⟨-, hnil⟩
            · exact hbody' (List.cons.inj hcons).1
            · cases hnil
        exact .inr ⟨opening style ++ cs.map .char, body, more ++ closing :: out, by simp, hbody,
          Pen.run?_painted style hcs⟩

end

end FusionInspect.Colour
