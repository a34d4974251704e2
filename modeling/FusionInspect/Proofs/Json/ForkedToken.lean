import FusionInspect.Proofs.Json.Fork

/-!
# Tokens of texts that fork

No token goes over a line break, so the reader of a token stays in the part that the texts have in
common. The four digits of an escape are the exception: they are cut out of the text before they are
looked at, and may be cut out of the obstacles. Then there is a line break among them, and the fault is
placed behind four bytes, which the obstacles have.
-/

namespace FusionInspect.Json.Reader

variable {n k : Nat} {c d : Cursor} {ch : Char}

/-! ## Literals -/

/-- A word without line breaks is read alike. -/
theorem inside_literal : ∀ (expected : List Char), '\n' ∉ expected → ∀ {k : Nat},
    Inside k (literal expected) (literal expected)
  | [], _, _ => inside_pure ()
  | e :: more, hbreak, k => by
    rw [List.mem_cons, not_or] at hbreak
    refine Inside.peek_bind fun ch => ?_
    dsimp only
    split
    · next he =>
      rw [eq_of_beq he]
      exact .drop_seq (Ne.symm hbreak.1) (inside_literal more hbreak.2)
    · exact (inside_failHere _).at

/-! ## Strings -/

/-- Four digits stand in one line. -/
theorem not_mem_of_hexValue? {quad : List Char} {v : Nat} (h : hexValue? quad = some v) :
    '\n' ∉ quad := by
  have hbreak : hexDigit? '\n' = none := by decide
  unfold hexValue? at h
  split at h
  · simp only [Option.bind_eq_bind, Option.bind_eq_some_iff] at h
    obtain ⟨w, ha, x, hb, y, hc, z, hd, -⟩ := h
    simp only [List.mem_cons, List.not_mem_nil, or_false]
    rintro (rfl | rfl | rfl | rfl) <;> simp_all
  · cases h

/-- Taking characters ends in the common part, or has gone over a line break on both sides. -/
theorem take_cases (hpos : 0 < n) (h : Forked n c d) : ∀ k,
    (k < n ∧ c.rest.take k = d.rest.take k ∧
      Forked (n - k) ⟨c.rest.drop k, c.place.after (c.rest.take k)⟩
        ⟨d.rest.drop k, d.place.after (d.rest.take k)⟩) ∨
    ('\n' ∈ c.rest.take k ∧ '\n' ∈ d.rest.take k) := by
  intro k
  induction k generalizing n c d with
  | zero => exact .inl ⟨hpos, by simp, by simpa [Place.after] using h⟩
  | succ k ih =>
    cases h with
    | obstacles => exact absurd hpos (Nat.lt_irrefl 0)
    | @common n x y p ch hend h =>
      by_cases hch : ch = '\n'
      · exact .inr (by simp [hch])
      · rcases ih (hend hch) h with ⟨hlt, htake, hfork⟩ | ⟨hc, hd⟩
        · refine .inl ⟨by omega, by simpa using htake, ?_⟩
          rw [Nat.add_sub_add_right]
          exact hfork
        · exact .inr ⟨List.mem_cons_of_mem _ hc, List.mem_cons_of_mem _ hd⟩

/-- A text has at least as many bytes as characters. -/
theorem length_le_utf8ByteSize (text : List Char) : text.length ≤ (String.ofList text).utf8ByteSize := by
  induction text with
  | nil => exact Nat.zero_le _
  | cons c text ih =>
    have hsize := c.utf8Size_pos
    rw [String.ofList_cons, String.utf8ByteSize_append, String.utf8ByteSize_singleton, List.length_cons]
    omega

/-- Four digits of an escape are read alike. They may reach beyond the fork. Then a line break is among
them on both sides, and places within the obstacles are counted alike. -/
theorem inside_hexQuad : Inside k hexQuad hexQuad := by
  intro n c d hpos _ hfork
  -- An obstacle has three bytes at least, so the texts do not end among the four.
  have hsize : ∀ {e : Cursor}, n + 3 ≤ e.rest.length →
      ¬ (String.ofList (e.rest.take 4)).utf8ByteSize < 4 := by
    intro e he
    have := length_le_utf8ByteSize (e.rest.take 4)
    rw [List.length_take] at this
    omega
  unfold hexQuad
  simp only [hsize hfork.add_three_le_length, hsize hfork.symm.add_three_le_length, if_false]
  rcases take_cases hpos hfork 4 with ⟨hlt, htake, hafter⟩ | ⟨hc, hd⟩
  · rw [← htake] at hafter ⊢
    cases hexValue? (c.rest.take 4) with
    | none =>
      rw [hfork.afterBytes_eq 4 (by omega)]
      exact .error _
    | some v => exact .ok ⟨rfl, n - 4, ⟨by omega, by omega⟩, hafter⟩
  · have hnone : ∀ {quad : List Char}, '\n' ∈ quad → hexValue? quad = none := by
      intro quad hmem
      rw [Option.eq_none_iff_forall_ne_some]
      exact fun v hv => not_mem_of_hexValue? hv hmem
    rw [hnone hc, hnone hd, hfork.afterBytes_eq 4 (by omega)]
    exact .error _

/-- The mark in front of the second half of a pair is read alike. -/
theorem inside_pairMark {mark : Char} (hmark : mark ≠ '\n') :
    Inside k (pairMark mark) (pairMark mark) := by
  refine Inside.peek_bind fun ch => ?_
  dsimp only
  split
  · next hch =>
    rw [eq_of_beq hch]
    exact .drop hmark
  · exact (inside_failHere _).at

/-- An escape by number is read alike, single or as a pair. -/
theorem inside_unicodeEscape : Inside k unicodeEscape unicodeEscape := by
  refine inside_hexQuad.bind fun high => ?_
  split
  · exact inside_fail _
  · split
    · refine (inside_pairMark (by decide)).bind fun _ => ?_
      refine (inside_pairMark (by decide)).bind fun _ => ?_
      refine inside_hexQuad.bind fun low => ?_
      split
      · exact inside_pure _
      · exact inside_fail _
    · exact inside_pure _

/-- Every escape is read alike. -/
theorem inside_escape : Inside k escape escape := by
  refine Inside.peek_bind fun ch => ?_
  dsimp only
  split
  · next d hd =>
    refine .drop_seq ?_ (inside_pure d)
    rintro rfl
    cases hd
  · split
    · next hu =>
      rw [eq_of_beq hu]
      exact .drop_seq (by decide) inside_unicodeEscape
    · exact (inside_failHere _).at

/-- The rounds of the two loops are bounded by different numbers, and neither bound is reached. -/
theorem inside_stringRest {fuel fuel' : Nat} (h : k ≤ fuel) (h' : k ≤ fuel') (read : List Char) :
    Inside k (stringRest fuel read) (stringRest fuel' read) := by
  induction fuel generalizing fuel' k read with
  | zero =>
    obtain rfl := Nat.le_zero.mp h
    exact .zero _ _
  | succ fuel ih =>
    cases fuel' with
    | zero =>
      obtain rfl := Nat.le_zero.mp h'
      exact .zero _ _
    | succ fuel' =>
      have hrec : ∀ read, Inside (k - 1) (stringRest fuel read) (stringRest fuel' read) :=
        fun read => ih (by omega) (by omega) read
      refine Inside.peek_bind fun ch => ?_
      dsimp only
      split
      · next hquote =>
        rw [eq_of_beq hquote]
        exact .drop_seq (by decide) (inside_pure _)
      · split
        · next hslash =>
          rw [eq_of_beq hslash]
          exact .drop_bind (by decide) (inside_escape.bind fun d => hrec (d :: read))
        · split
          · exact (inside_failHere _).at
          · next hcontrol =>
            refine .drop_bind ?_ (hrec (ch :: read))
            rintro rfl
            exact hcontrol (by decide)

/-- A text in quotes is read alike. -/
theorem inside_stringBody : Inside k stringBody stringBody := by
  intro n c d hpos _ hfork
  have hlt := hfork.add_three_le_length
  have hlt' := hfork.symm.add_three_le_length
  exact inside_stringRest (k := n) (by omega) (by omega) [] hpos (Nat.le_refl n) hfork

/-! ## Numbers -/

/-- Digits end before the fork, since no obstacle begins with one. -/
theorem inside_digits : Inside k (takeRun Char.isDigit) (takeRun Char.isDigit) := by
  refine inside_takeRun (fun a ha => ?_) rfl
  cases ha <;> rfl

/-- So do digits of which there must be one. -/
theorem inside_someDigits : Inside k someDigits someDigits := by
  refine Inside.peek_bind fun ch => ?_
  dsimp only
  split
  · exact inside_digits.at
  · exact (inside_failHere _).at

/-- The digits in front of a point are read alike. -/
theorem inside_wholeDigits : Inside k wholeDigits wholeDigits := by
  refine Inside.peek_bind fun ch => ?_
  split
  · next hzero =>
    obtain rfl := Option.some.inj hzero
    refine .drop_bind (by decide) ?_
    refine Inside.peek_bind fun next => ?_
    dsimp only
    split
    · exact (inside_failHere _).at
    · exact (inside_pure _).at
  · exact inside_someDigits.at

/-- The exponent of a number is read alike, whatever came before it. -/
theorem inside_exponentPart (negative : Bool) (significand : Nat) (exponent : Int) :
    Inside k (exponentPart negative significand exponent)
      (exponentPart negative significand exponent) := by
  unfold exponentPart
  refine Inside.peek_bind fun ch => ?_
  extract_lets digitsOf
  have hdigits : ∀ {k down}, Inside k (digitsOf down) (digitsOf down) := by
    intro k down
    refine inside_reached.bind fun start => ?_
    refine inside_someDigits.bind fun run => ?_
    split
    · exact inside_inRange _
    · split
      · exact inside_failAt _ _
      · exact inside_pure _
  split
  · next hminus =>
    obtain rfl := Option.some.inj hminus
    exact (InsideAt.drop_seq (by decide) (inside_pure true)).bind fun _ => hdigits
  · next hplus =>
    obtain rfl := Option.some.inj hplus
    exact (InsideAt.drop_seq (by decide) (inside_pure false)).bind fun _ => hdigits
  · exact hdigits.at

theorem ne_break_of_isExponentMark (h : isExponentMark (some ch) = true) : ch ≠ '\n' := by
  rintro rfl
  cases h

/-- So are the digits behind a point. -/
theorem inside_fractionPart (negative : Bool) (significand : Nat) (exponent : Int) :
    Inside k (fractionPart negative significand exponent)
      (fractionPart negative significand exponent) := by
  refine inside_digits.bind fun run => ?_
  split
  · exact Inside.peek_bind fun ch => (inside_failHere _).at
  · refine Inside.peek_bind fun ch => ?_
    split
    · next hmark => exact .drop_seq (ne_break_of_isExponentMark hmark) (inside_exponentPart _ _ _)
    · exact (inside_inRange _).at

/-- A number is read alike, with or without a sign. -/
theorem inside_numberBody (negative : Bool) : Inside k (numberBody negative) (numberBody negative) := by
  refine inside_wholeDigits.bind fun whole => ?_
  refine Inside.peek_bind fun ch => ?_
  split
  · next hpoint =>
    obtain rfl := Option.some.inj (eq_of_beq hpoint)
    refine .drop_bind (by decide) ?_
    exact (inside_fractionPart _ _ _).bind fun x => inside_pure _
  · split
    · next hmark =>
      refine .drop_bind (ne_break_of_isExponentMark hmark) ?_
      exact (inside_exponentPart _ _ _).bind fun x => inside_pure _
    · exact (inside_inRange _).at

end FusionInspect.Json.Reader
