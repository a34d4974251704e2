import FusionInspect.Text.Integer
import FusionInspect.Text.Natural

/-!
# Runs of digits compare as numbers

The order of runs looks at lengths and at single digits only. It is the order of the numbers that the
runs write, whatever their length (`runOrder_eq_compare`), for two reasons. Of two runs of one length the
first different digit decides which number is larger (`compare_digitsValueFrom`). And a run that does
not begin with a zero writes a larger number than every shorter run (`digitsValue_lt_of_length_lt`).

Both are stated of runs that are read on from numbers, so that each is one induction on the digits.
-/

namespace FusionInspect.Text

/-- The digits stand next to each other among the characters. -/
theorem isDigit_iff_toNat (c : Char) : c.isDigit = true ↔ 48 ≤ c.toNat ∧ c.toNat ≤ 57 := by
  simp only [Char.isDigit, Bool.and_eq_true, decide_eq_true_eq, Char.toNat, UInt32.le_iff_toNat_le]
  rfl

/-- A run of digits writes the number that it has in decimal notation. -/
theorem digitsValueFrom_eq_ofDigitChars (n : Nat) (ds : List Char) :
    digitsValueFrom n ds = Nat.ofDigitChars 10 ds n := by
  induction ds generalizing n with
  | nil => rfl
  | cons d ds ih => exact ih _

theorem digitsValueFrom_nil (n : Nat) : digitsValueFrom n [] = n := rfl

/-- A number goes on with one more digit. -/
theorem digitsValueFrom_cons (n : Nat) (d : Char) (ds : List Char) :
    digitsValueFrom n (d :: ds) = digitsValueFrom (10 * n + (d.toNat - '0'.toNat)) ds := by
  rw [digitsValueFrom_eq_ofDigitChars, digitsValueFrom_eq_ofDigitChars, Nat.ofDigitChars_cons]

/-! ## Runs of one length -/

/-- Numbers that go on with one more digit compare as before, and by the digits if they were equal. -/
theorem compare_next_digit {d e : Char} (hd : d.isDigit = true) (he : e.isDigit = true) (n m : Nat) :
    compare (10 * n + (d.toNat - '0'.toNat)) (10 * m + (e.toNat - '0'.toNat)) =
      (compare n m).then (compare d.toNat e.toNat) := by
  have hd := (isDigit_iff_toNat d).mp hd
  have he := (isDigit_iff_toNat e).mp he
  rw [show '0'.toNat = 48 from rfl]
  simp only [Nat.compare_eq_ite_lt]
  grind [Ordering.then]

/-- Of the numbers that runs of one length write, those they are read on from decide first, and then the
first different digit. -/
theorem compare_digitsValueFrom : ∀ {ds es : List Char} (n m : Nat), ds.length = es.length →
    (∀ d ∈ ds, d.isDigit = true) → (∀ e ∈ es, e.isDigit = true) →
    compare (digitsValueFrom n ds) (digitsValueFrom m es) =
      (compare n m).then (List.compareLex (fun d e => compare d.toNat e.toNat) ds es)
  | [], [], n, m, _, _, _ => by
    rw [digitsValueFrom_nil, digitsValueFrom_nil, List.compareLex_nil_nil, Ordering.then_eq]
  | d :: ds, e :: es, n, m, hlen, hds, hes => by
    rw [List.forall_mem_cons] at hds hes
    rw [digitsValueFrom_cons, digitsValueFrom_cons,
      compare_digitsValueFrom _ _ (Nat.succ.inj hlen) hds.2 hes.2, compare_next_digit hds.1 hes.1,
      List.compareLex_cons_cons, Ordering.then_assoc]

/-- Runs of one length that write the same number, read on from numbers, have the same digits and were
read on from the same number. -/
theorem eq_of_digitsValueFrom_eq {ds es : List Char} {n m : Nat} (hlen : ds.length = es.length)
    (hds : ∀ d ∈ ds, d.isDigit = true) (hes : ∀ e ∈ es, e.isDigit = true)
    (h : digitsValueFrom n ds = digitsValueFrom m es) : n = m ∧ ds = es := by
  have hlawful : Std.LawfulEqCmp fun d e : Char => compare d.toNat e.toNat :=
    { compare_self := Nat.compare_eq_eq.mpr rfl
      eq_of_compare := fun h => Char.toNat_inj.mp (Nat.compare_eq_eq.mp h) }
  have hcmp := compare_digitsValueFrom n m hlen hds hes
  rw [Nat.compare_eq_eq.mpr h] at hcmp
  obtain ⟨hnm, hdigits⟩ := Ordering.then_eq_eq.mp hcmp.symm
  exact ⟨Nat.compare_eq_eq.mp hnm, Std.LawfulEqCmp.eq_of_compare hdigits⟩

/-! ## Runs of different lengths -/

/-- A run that is no shorter than another and read on from a larger number writes the larger number. -/
theorem digitsValueFrom_lt {ds es : List Char} {n m : Nat} (hlen : ds.length ≤ es.length)
    (hds : ∀ d ∈ ds, d.isDigit = true) (h : n < m) : digitsValueFrom n ds < digitsValueFrom m es := by
  induction es generalizing ds n m with
  | nil =>
    cases List.length_eq_zero_iff.mp (Nat.le_zero.mp hlen)
    exact h
  | cons e es ih =>
    rcases Nat.le_succ_iff.mp hlen with hlen | hlen
    · -- the longer run goes on alone, which only makes its number larger
      rw [digitsValueFrom_cons]
      exact ih hlen hds (by omega)
    · cases ds with
      | nil => cases hlen
      | cons d ds =>
        rw [List.forall_mem_cons] at hds
        have hd := (isDigit_iff_toNat d).mp hds.1
        have hlen : ds.length = es.length := Nat.succ.inj hlen
        rw [digitsValueFrom_cons, digitsValueFrom_cons, show '0'.toNat = 48 from rfl]
        exact ih (Nat.le_of_eq hlen) hds.2 (by omega)

/-- A run that does not begin with a zero writes a larger number than every shorter run. -/
theorem digitsValue_lt_of_length_lt {ds es : List Char} (hds : ∀ d ∈ ds, d.isDigit = true)
    (hes : ∀ e ∈ es, e.isDigit = true) (hzero : ∀ e ∈ es.head?, e ≠ '0')
    (hlen : ds.length < es.length) : digitsValue ds < digitsValue es := by
  cases es with
  | nil => cases hlen
  | cons e es =>
    have he := (isDigit_iff_toNat e).mp (hes e List.mem_cons_self)
    have hne : e.toNat ≠ '0'.toNat := mt Char.toNat_inj.mp (hzero e rfl)
    rw [show '0'.toNat = 48 from rfl] at hne
    rw [digitsValue, digitsValue, digitsValueFrom_cons, show '0'.toNat = 48 from rfl]
    exact digitsValueFrom_lt (Nat.le_of_lt_succ hlen) hds (by omega)

/-! ## Zeros in front -/

theorem significant_cons (d : Char) (ds : List Char) :
    significant (d :: ds) = if d = '0' then significant ds else d :: ds := by
  simp [significant, List.dropWhile_cons]

/-- Leading zeros do not change the number. -/
theorem digitsValue_significant (ds : List Char) : digitsValue (significant ds) = digitsValue ds := by
  induction ds with
  | nil => rfl
  | cons d ds ih =>
    rw [significant_cons]
    split
    · next hd =>
      subst hd
      exact ih
    · rfl

theorem isDigit_of_mem_significant {ds : List Char} (h : ∀ d ∈ ds, d.isDigit = true) :
    ∀ d ∈ significant ds, d.isDigit = true :=
  fun d hd => h d ((List.dropWhile_sublist _).mem hd)

/-- Without its leading zeros a run does not begin with one. -/
theorem ne_zero_of_head?_significant (ds : List Char) : ∀ d ∈ (significant ds).head?, d ≠ '0' := by
  induction ds with
  | nil => exact fun d hd => nomatch hd
  | cons c ds ih =>
    rw [significant_cons]
    split
    · exact ih
    · next hc =>
      intro d hd
      cases hd
      exact hc

/-- Runs compare by the numbers they write, and then by their lengths. -/
theorem runOrder_eq_compare {ds es : List Char} (hds : ∀ d ∈ ds, d.isDigit = true)
    (hes : ∀ e ∈ es, e.isDigit = true) :
    runOrder ds es = (compare (digitsValue ds) (digitsValue es)).then (compare ds.length es.length) := by
  have hds' := isDigit_of_mem_significant hds
  have hes' := isDigit_of_mem_significant hes
  rw [runOrder, ← digitsValue_significant ds, ← digitsValue_significant es]
  rcases Nat.lt_trichotomy (significant ds).length (significant es).length with hlen | hlen | hlen
  · have hvalue := digitsValue_lt_of_length_lt hds' hes' (ne_zero_of_head?_significant es) hlen
    rw [Nat.compare_eq_lt.mpr hlen, Nat.compare_eq_lt.mpr hvalue]
    rfl
  · have hvalue := compare_digitsValueFrom 0 0 hlen hds' hes'
    rw [Nat.compare_eq_eq.mpr hlen, digitsValue, digitsValue, hvalue]
    rfl
  · have hvalue := digitsValue_lt_of_length_lt hes' hds' (ne_zero_of_head?_significant ds) hlen
    rw [Nat.compare_eq_gt.mpr hlen, Nat.compare_eq_gt.mpr hvalue]
    rfl

end FusionInspect.Text
