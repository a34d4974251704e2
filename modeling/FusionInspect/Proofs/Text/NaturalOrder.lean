import FusionInspect.Proofs.Text.Runs
import Mathlib.Order.Defs.Unbundled

/-!
# Natural order is a linear order

Pieces of different kinds compare by character and two runs of digits by number, so it is not plain
that comparing texts piece by piece is an order at all. It is one because the digits stand next to each
other among the characters: every other character comes before all runs or after all of them. So a
piece has a RANK, a list of numbers, and comparing pieces is comparing ranks. Texts then compare as the
lists of their ranks do, and those are ordered by the first difference.

Different texts have different ranks (`naturalKey_injective`): of two runs of one length, the one with
the same number has the same digits.

Cutting texts beforehand is no different from reading them side by side (`piecesOrder_cons_cons`). So what
two texts share in front is passed over, if no run is divided behind it, and the numbers behind it
decide (`naturalOrder_numbers`).
-/

namespace FusionInspect.Text

/-! ## Pieces of texts -/

/-- What a piece of a text is: a run holds at least one digit and nothing else, and a digit never
stands alone. -/
def Piece.Proper : Piece → Prop
  | .run digits => digits ≠ [] ∧ ∀ d ∈ digits, d.isDigit = true
  | .single c => c.isDigit = false

/-- The characters of a piece. -/
def Piece.chars : Piece → List Char
  | .run digits => digits
  | .single c => [c]

/-- The pieces of a text are proper ones. -/
theorem proper_pieces (cs : List Char) : ∀ p ∈ pieces cs, p.Proper := by
  fun_induction pieces cs with
  | case1 => simp
  | case2 c cs hc digits rest hpieces ih =>
    rw [hpieces] at ih
    intro p hp
    rcases List.mem_cons.mp hp with rfl | hp
    · obtain ⟨_, hdigits⟩ := ih (.run digits) List.mem_cons_self
      exact ⟨by simp, by simpa [hc] using hdigits⟩
    · exact ih p (List.mem_cons_of_mem _ hp)
  | case3 c cs hc _ ih =>
    intro p hp
    rcases List.mem_cons.mp hp with rfl | hp
    · exact ⟨by simp, by simpa using hc⟩
    · exact ih p hp
  | case4 c cs hc ih =>
    intro p hp
    rcases List.mem_cons.mp hp with rfl | hp
    · simpa [Piece.Proper] using hc
    · exact ih p hp

/-- A text is its pieces put together. -/
theorem flatMap_chars_pieces (cs : List Char) : (pieces cs).flatMap Piece.chars = cs := by
  fun_induction pieces cs with
  | case1 => rfl
  | case2 c cs hc digits rest hpieces ih =>
    rw [hpieces] at ih
    simpa [Piece.chars] using ih
  | case3 c cs hc _ ih => simpa [Piece.chars] using ih
  | case4 c cs hc ih => simpa [Piece.chars] using ih

/-! ## Ranks -/

/-- What a piece is compared by: its place among the characters, where all digits stand in the place of
zero; behind it, for a run, its number and its length. -/
def Piece.rank : Piece → List Nat
  | .run digits => ['0'.toNat, digitsValue digits, digits.length]
  | .single c => [c.toNat]

/-- A difference is not looked behind. -/
theorem compare_then_of_ne {a b : Nat} (h : a ≠ b) (o : Ordering) :
    (compare a b).then o = compare a b := by
  rcases Nat.lt_or_gt_of_ne h with h | h
  · rw [Nat.compare_eq_lt.mpr h]
    rfl
  · rw [Nat.compare_eq_gt.mpr h]
    rfl

/-- Proper pieces compare as their ranks do. -/
theorem Piece.order_eq_compare {p q : Piece} (hp : p.Proper) (hq : q.Proper) :
    p.order q = compare p.rank q.rank := by
  -- a run and a single character: the digit in front is on the same side of the character as zero is
  have hside : ∀ {d c : Char}, d.isDigit = true → c.isDigit = false →
      compare d.toNat c.toNat = compare '0'.toNat c.toNat ∧ '0'.toNat ≠ c.toNat := by
    intro d c hd hc
    have hd := (isDigit_iff_toNat d).mp hd
    have hc : ¬ (48 ≤ c.toNat ∧ c.toNat ≤ 57) := by simp [← isDigit_iff_toNat, hc]
    rw [show '0'.toNat = 48 from rfl]
    refine ⟨?_, by omega⟩
    rcases Nat.lt_or_ge c.toNat 48 with h | h
    · rw [Nat.compare_eq_gt.mpr (by omega), Nat.compare_eq_gt.mpr (by omega)]
    · rw [Nat.compare_eq_lt.mpr (by omega), Nat.compare_eq_lt.mpr (by omega)]
  cases p with
  | run ds =>
    cases q with
    | run es =>
      rw [Piece.order, runOrder_eq_compare hp.2 hq.2]
      simp [Piece.rank, List.compare_cons_cons]
    | single c =>
      obtain ⟨hne, hdigits⟩ := hp
      cases ds with
      | nil => exact absurd rfl hne
      | cons d ds =>
        obtain ⟨hcmp, hne⟩ := hside (hdigits d List.mem_cons_self) hq
        rw [Piece.rank, Piece.rank, List.compare_cons_cons, compare_then_of_ne hne]
        exact hcmp
  | single c =>
    cases q with
    | run es =>
      obtain ⟨hne, hdigits⟩ := hq
      cases es with
      | nil => exact absurd rfl hne
      | cons d es =>
        obtain ⟨hcmp, hne⟩ := hside (hdigits d List.mem_cons_self) hp
        rw [Piece.rank, Piece.rank, List.compare_cons_cons, compare_then_of_ne (Ne.symm hne),
          ← Nat.compare_swap '0'.toNat, ← hcmp, Nat.compare_swap]
        rfl
    | single d => simp [Piece.order, Piece.rank, Piece.head, List.compare_cons_cons]

/-- Proper pieces with one rank are the same. -/
theorem Piece.rank_injective {p q : Piece} (hp : p.Proper) (hq : q.Proper) (h : p.rank = q.rank) :
    p = q := by
  cases p with
  | run ds =>
    cases q with
    | run es =>
      simp only [Piece.rank, List.cons.injEq, and_true, true_and] at h
      rw [(eq_of_digitsValueFrom_eq h.2 hp.2 hq.2 h.1).2]
    | single c => simp [Piece.rank] at h
  | single c =>
    cases q with
    | run es => simp [Piece.rank] at h
    | single d =>
      simp only [Piece.rank, List.cons.injEq, and_true] at h
      rw [Char.toNat_inj.mp h]

/-! ## Texts -/

/-- What a text is compared by: the ranks of its pieces. -/
def naturalKey (text : String) : List (List Nat) :=
  (pieces text.toList).map Piece.rank

/-- Lists of proper pieces compare as the lists of their ranks do. -/
theorem piecesOrder_eq_compare : ∀ {ps qs : List Piece}, (∀ p ∈ ps, p.Proper) → (∀ q ∈ qs, q.Proper) →
    piecesOrder ps qs = compare (ps.map Piece.rank) (qs.map Piece.rank)
  | [], [], _, _ => rfl
  | [], _ :: _, _, _ => rfl
  | _ :: _, [], _, _ => rfl
  | p :: ps, q :: qs, hps, hqs => by
    rw [List.forall_mem_cons] at hps hqs
    rw [piecesOrder, Piece.order_eq_compare hps.1 hqs.1, piecesOrder_eq_compare hps.2 hqs.2,
      List.map_cons, List.map_cons, List.compare_cons_cons]

/-- Texts compare as the ranks of their pieces do. -/
theorem naturalOrder_eq_compare (a b : String) :
    naturalOrder a b = compare (naturalKey a) (naturalKey b) :=
  piecesOrder_eq_compare (proper_pieces _) (proper_pieces _)

/-- Different texts have different ranks. -/
theorem naturalKey_injective {a b : String} (h : naturalKey a = naturalKey b) : a = b := by
  have hranks : ∀ {ps qs : List Piece}, (∀ p ∈ ps, p.Proper) → (∀ q ∈ qs, q.Proper) →
      ps.map Piece.rank = qs.map Piece.rank → ps = qs := by
    intro ps
    induction ps with
    | nil =>
      intro qs _ _ h
      exact (List.map_eq_nil_iff.mp h.symm).symm
    | cons p ps ih =>
      intro qs hps hqs h
      cases qs with
      | nil => cases h
      | cons q qs =>
        rw [List.forall_mem_cons] at hps hqs
        obtain ⟨hpq, hrest⟩ := List.cons.inj h
        rw [Piece.rank_injective hps.1 hqs.1 hpq, ih hps.2 hqs.2 hrest]
  have hpieces : pieces a.toList = pieces b.toList := hranks (proper_pieces _) (proper_pieces _) h
  have hchars : a.toList = b.toList := by
    rw [← flatMap_chars_pieces a.toList, hpieces, flatMap_chars_pieces]
  exact String.toList_inj.mp hchars

/-- Only equal texts compare as equal. -/
theorem naturalOrder_eq_iff {a b : String} : naturalOrder a b = .eq ↔ a = b := by
  rw [naturalOrder_eq_compare, Std.LawfulEqCmp.compare_eq_iff_eq]
  exact ⟨naturalKey_injective, congrArg naturalKey⟩

theorem naturalOrder_swap (a b : String) : naturalOrder b a = (naturalOrder a b).swap := by
  rw [naturalOrder_eq_compare, naturalOrder_eq_compare]
  exact Std.OrientedCmp.eq_swap

theorem naturalLE_trans {a b c : String} (hab : naturalLE a b = true) (hbc : naturalLE b c = true) :
    naturalLE a c = true := by
  simp only [naturalLE, naturalOrder_eq_compare] at *
  exact Std.TransCmp.isLE_trans hab hbc

theorem naturalLE_total (a b : String) : naturalLE a b = true ∨ naturalLE b a = true := by
  unfold naturalLE
  rw [naturalOrder_swap a b]
  cases naturalOrder a b <;> simp

theorem naturalLE_antisymm {a b : String} (hab : naturalLE a b = true) (hba : naturalLE b a = true) :
    a = b := by
  unfold naturalLE at hab hba
  rw [naturalOrder_swap a b] at hba
  refine naturalOrder_eq_iff.mp ?_
  cases h : naturalOrder a b <;> simp_all

/-- Of two different texts in order, the first comes before the second. -/
theorem naturalOrder_eq_lt {a b : String} (hle : naturalLE a b = true) (hne : a ≠ b) :
    naturalOrder a b = .lt := by
  unfold naturalLE at hle
  have hne := mt naturalOrder_eq_iff.mp hne
  cases h : naturalOrder a b <;> simp_all

/-- Being before is transitive. -/
theorem naturalOrder_lt_trans {a b c : String} (hab : naturalOrder a b = .lt)
    (hbc : naturalOrder b c = .lt) : naturalOrder a c = .lt := by
  rw [naturalOrder_eq_compare] at *
  exact Std.TransCmp.lt_trans hab hbc

/-- Natural order is a strict total order. -/
theorem isStrictTotalOrder_naturalOrder :
    IsStrictTotalOrder String fun a b => naturalOrder a b = .lt where
  trichotomous a b hab hba := by
    rw [naturalOrder_swap, Ordering.swap_eq_lt] at hba
    refine naturalOrder_eq_iff.mp ?_
    cases h : naturalOrder a b with
    | lt => exact absurd h hab
    | eq => rfl
    | gt => exact absurd h hba
  irrefl a h := by
    rw [naturalOrder_eq_iff.mpr rfl] at h
    cases h
  trans _ _ _ := naturalOrder_lt_trans

/-! ## Texts read side by side -/

/-- A text that starts with a digit starts with the whole run of digits. -/
theorem pieces_of_digit {c : Char} (hc : c.isDigit = true) (cs : List Char) :
    pieces (c :: cs) = .run (c :: cs.takeWhile Char.isDigit) :: pieces (cs.dropWhile Char.isDigit) := by
  induction cs generalizing c with
  | nil => rw [pieces, if_pos hc]; rfl
  | cons d cs ih =>
    by_cases hd : d.isDigit = true
    · rw [pieces, if_pos hc, ih hd, List.takeWhile_cons_of_pos hd, List.dropWhile_cons_of_pos hd]
    · rw [pieces, if_pos hc, List.takeWhile_cons_of_neg hd, List.dropWhile_cons_of_neg hd, pieces,
        if_neg hd]

/-- Any other character is a piece of its own. -/
theorem pieces_of_not_digit {c : Char} (hc : c.isDigit = false) (cs : List Char) :
    pieces (c :: cs) = .single c :: pieces cs := by
  rw [pieces, if_neg (by simp [hc])]

/-- Two texts that begin with digits compare by the whole runs in front and what is behind them. Any other
two compare by their first characters and what is behind these. -/
theorem piecesOrder_cons_cons (c d : Char) (cs ds : List Char) :
    piecesOrder (pieces (c :: cs)) (pieces (d :: ds)) =
      if c.isDigit && d.isDigit then
        (runOrder ((c :: cs).takeWhile Char.isDigit) ((d :: ds).takeWhile Char.isDigit)).then
          (piecesOrder (pieces ((c :: cs).dropWhile Char.isDigit))
            (pieces ((d :: ds).dropWhile Char.isDigit)))
      else (compare c.toNat d.toNat).then (piecesOrder (pieces cs) (pieces ds)) := by
  -- a digit and another character differ, so what is behind them does not matter
  have hne : c.isDigit ≠ d.isDigit → c.toNat ≠ d.toNat := fun h hcd => h (by rw [Char.toNat_inj.mp hcd])
  cases hc : c.isDigit with
  | true =>
    rw [pieces_of_digit hc]
    cases hd : d.isDigit with
    | true =>
      rw [pieces_of_digit hd, List.takeWhile_cons_of_pos hc, List.takeWhile_cons_of_pos hd,
        List.dropWhile_cons_of_pos hc, List.dropWhile_cons_of_pos hd]
      rfl
    | false =>
      have hne := hne (by simp [hc, hd])
      rw [pieces_of_not_digit hd]
      exact (compare_then_of_ne hne _).trans (compare_then_of_ne hne _).symm
  | false =>
    rw [pieces_of_not_digit hc]
    cases hd : d.isDigit with
    | true =>
      have hne := hne (by simp [hc, hd])
      rw [pieces_of_digit hd]
      exact (compare_then_of_ne hne _).trans (compare_then_of_ne hne _).symm
    | false =>
      rw [pieces_of_not_digit hd]
      rfl

/-! ## Numbers behind what texts share in front -/

/-- A text can be cut into pieces in two parts, if no digit stands in front of the cut. -/
theorem pieces_append {front : List Char} (h : ∀ c ∈ front.getLast?, c.isDigit = false)
    (cs : List Char) : pieces (front ++ cs) = pieces front ++ pieces cs := by
  induction front with
  | nil => rfl
  | cons c front ih =>
    cases front with
    | nil =>
      rw [List.singleton_append, pieces_of_not_digit (h c rfl), pieces_of_not_digit (h c rfl)]
      rfl
    | cons d front =>
      have ih := ih h
      rw [List.cons_append]
      cases hc : c.isDigit with
      | true =>
        -- `c` joins the run in front of what follows, and that is not empty
        rw [pieces, if_pos hc, ih]
        conv => rhs; rw [pieces, if_pos hc]
        cases hd : d.isDigit with
        | true => rw [pieces_of_digit hd]; rfl
        | false => rw [pieces_of_not_digit hd]; rfl
      | false =>
        rw [pieces_of_not_digit hc, pieces_of_not_digit hc, ih]
        rfl

/-- Pieces that both have in front do not matter. -/
theorem piecesOrder_append_left {ps : List Piece} (h : ∀ p ∈ ps, p.Proper) (qs rs : List Piece) :
    piecesOrder (ps ++ qs) (ps ++ rs) = piecesOrder qs rs := by
  induction ps with
  | nil => rfl
  | cons p ps ih =>
    rw [List.forall_mem_cons] at h
    have hself : p.order p = .eq := by
      rw [Piece.order_eq_compare h.1 h.1]
      exact Std.ReflCmp.compare_self
    rw [List.cons_append, List.cons_append, piecesOrder, hself, ih h.2]
    rfl

/-- What two texts share in front is passed over, if no run is divided behind it. -/
theorem naturalOrder_append_left {front : String} (h : ∀ c ∈ front.toList.getLast?, c.isDigit = false)
    (a b : String) : naturalOrder (front ++ a) (front ++ b) = naturalOrder a b := by
  rw [naturalOrder, String.toList_append, String.toList_append, pieces_append h, pieces_append h,
    piecesOrder_append_left (proper_pieces _)]
  rfl

/-- A maximal run of digits between two texts: neither the one in front nor the one behind carries it on. -/
structure MaximalRun (front digits rest : String) : Prop where
  digits_ne : digits ≠ ""
  isDigit : ∀ d ∈ digits.toList, d.isDigit = true
  front_last : ∀ c ∈ front.toList.getLast?, c.isDigit = false
  rest_head : ∀ c ∈ rest.toList.head?, c.isDigit = false

namespace MaximalRun

variable {front digits rest : String} (h : MaximalRun front digits rest)

include h

/-- A maximal run is all the digits that stand in front. -/
theorem takeWhile_eq : (digits ++ rest).toList.takeWhile Char.isDigit = digits.toList := by
  rw [String.toList_append, List.takeWhile_append_of_pos h.isDigit]
  cases hrest : rest.toList with
  | nil => exact List.append_nil _
  | cons c cs =>
    have hc : c.isDigit = false := h.rest_head c (by rw [hrest]; rfl)
    rw [List.takeWhile_cons_of_neg (by simp [hc]), List.append_nil]

/-- What follows these digits is the rest. -/
theorem dropWhile_eq : (digits ++ rest).toList.dropWhile Char.isDigit = rest.toList := by
  have hsplit := List.takeWhile_append_dropWhile (p := Char.isDigit) (l := (digits ++ rest).toList)
  rw [h.takeWhile_eq, String.toList_append] at hsplit
  rw [String.toList_append]
  exact List.append_cancel_left hsplit

/-- At least one digit stands in front. -/
theorem exists_digit : ∃ d cs, (digits ++ rest).toList = d :: cs ∧ d.isDigit = true := by
  obtain ⟨d, ds, hds⟩ := List.exists_cons_of_ne_nil (mt String.toList_eq_nil_iff.mp h.digits_ne)
  refine ⟨d, ds ++ rest.toList, by rw [String.toList_append, hds]; rfl, h.isDigit d ?_⟩
  rw [hds]
  exact List.mem_cons_self

end MaximalRun

/-- Texts that start with maximal runs compare by these first. -/
theorem naturalOrder_runs {front front' ds es r s : String} (hds : MaximalRun front ds r)
    (hes : MaximalRun front' es s) :
    naturalOrder (ds ++ r) (es ++ s) = (runOrder ds.toList es.toList).then (naturalOrder r s) := by
  obtain ⟨d, cs, hcs, hd⟩ := hds.exists_digit
  obtain ⟨e, cs', hcs', he⟩ := hes.exists_digit
  rw [naturalOrder, hcs, hcs', piecesOrder_cons_cons, if_pos (by rw [hd, he]; rfl), ← hcs, ← hcs',
    hds.takeWhile_eq, hds.dropWhile_eq, hes.takeWhile_eq, hes.dropWhile_eq]
  rfl

/-- Behind what two texts share in front, maximal runs compare by their numbers and then by their lengths;
what is behind the runs decides last. -/
theorem naturalOrder_numbers {front ds es r s : String} (hds : MaximalRun front ds r)
    (hes : MaximalRun front es s) :
    naturalOrder (front ++ ds ++ r) (front ++ es ++ s) =
      (compare (digitsValue ds.toList) (digitsValue es.toList)).then
        ((compare ds.length es.length).then (naturalOrder r s)) := by
  calc naturalOrder (front ++ ds ++ r) (front ++ es ++ s)
    _ = naturalOrder (ds ++ r) (es ++ s) := by
      rw [String.append_assoc, String.append_assoc, naturalOrder_append_left hds.front_last]
    _ = (runOrder ds.toList es.toList).then (naturalOrder r s) := naturalOrder_runs hds hes
    _ = _ := by
      rw [runOrder_eq_compare hds.isDigit hes.isDigit, Ordering.then_assoc, String.length_toList,
        String.length_toList]

/-- Natural order is a strict total order of all texts, and maximal runs of digits behind what two texts
share in front compare by their numbers, if these are different. -/
theorem naturalOrder_lawful :
    (∀ a b, naturalOrder a b = .eq ↔ a = b) ∧
    (∀ a b, naturalOrder b a = (naturalOrder a b).swap) ∧
    (∀ a b c, naturalOrder a b = .lt → naturalOrder b c = .lt → naturalOrder a c = .lt) ∧
    IsStrictTotalOrder String (fun a b => naturalOrder a b = .lt) ∧
    ∀ front ds es r s, MaximalRun front ds r → MaximalRun front es s →
      Nat.ofDigitChars 10 ds.toList 0 ≠ Nat.ofDigitChars 10 es.toList 0 →
      naturalOrder (front ++ ds ++ r) (front ++ es ++ s) =
        compare (Nat.ofDigitChars 10 ds.toList 0) (Nat.ofDigitChars 10 es.toList 0) := by
  refine ⟨fun _ _ => naturalOrder_eq_iff, naturalOrder_swap, fun _ _ _ => naturalOrder_lt_trans,
    isStrictTotalOrder_naturalOrder, ?_⟩
  intro front ds es r s hds hes hne
  rw [naturalOrder_numbers hds hes, digitsValue, digitsValue, digitsValueFrom_eq_ofDigitChars,
    digitsValueFrom_eq_ofDigitChars, compare_then_of_ne hne]

/-- Numbers that no machine word holds, one of them with zeros in front. -/
theorem naturalOrder_lawful_versions :
    MaximalRun "v" "00018446744073709551617" "-rc" ∧ MaximalRun "v" "18446744073709551616" "" ∧
    naturalOrder ("v" ++ "00018446744073709551617" ++ "-rc") ("v" ++ "18446744073709551616" ++ "") =
      .gt := by
  have hds : MaximalRun "v" "00018446744073709551617" "-rc" :=
    ⟨by decide, List.all_eq_true.mp rfl, fun c hc => by cases hc; rfl, fun c hc => by cases hc; rfl⟩
  have hes : MaximalRun "v" "18446744073709551616" "" :=
    ⟨by decide, List.all_eq_true.mp rfl, fun c hc => by cases hc; rfl, fun c hc => by cases hc⟩
  obtain ⟨-, -, -, -, hnumbers⟩ := naturalOrder_lawful
  exact ⟨hds, hes, (hnumbers _ _ _ _ _ hds hes (by decide)).trans (by decide)⟩

/-! ## Sorting by texts -/

section

variable {α : Type} (text : α → String)

/-- Elements of different texts are sorted into one list, whatever order they come in. -/
theorem sort_natural_eq_of_perm {l m : List α} (h : l.Perm m)
    (hinj : ∀ a ∈ l, ∀ b ∈ l, text a = text b → a = b) :
    Order.sort (fun a b => naturalLE (text a) (text b)) l =
      Order.sort (fun a b => naturalLE (text a) (text b)) m := by
  apply Order.sort_eq_of_perm
  · intro a b c hab hbc
    exact naturalLE_trans hab hbc
  · intro a b
    exact naturalLE_total (text a) (text b)
  · exact h
  · intro a ha b hb hab hba
    exact hinj a ha b hb (naturalLE_antisymm hab hba)

/-- Sorted elements of different texts have strictly increasing texts. -/
theorem pairwise_lt_sort_natural {l : List α} (hnd : (l.map text).Nodup) :
    ((Order.sort (fun a b => naturalLE (text a) (text b)) l).map text).Pairwise
      fun a b => naturalOrder a b = .lt := by
  have hsorted : ((Order.sort (fun a b => naturalLE (text a) (text b)) l).map text).Pairwise
      fun a b => naturalLE a b = true := by
    rw [List.pairwise_map]
    apply Order.pairwise_sort
    · intro a b c hab hbc
      exact naturalLE_trans hab hbc
    · intro a b
      exact naturalLE_total (text a) (text b)
  have hnd' := ((Order.sort_perm (fun a b => naturalLE (text a) (text b)) l).map text).nodup_iff.mpr hnd
  refine (hsorted.and hnd').imp fun hab => ?_
  exact naturalOrder_eq_lt hab.1 hab.2

end

end FusionInspect.Text
