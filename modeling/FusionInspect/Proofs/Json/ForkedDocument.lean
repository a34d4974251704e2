import FusionInspect.Json.Document
import FusionInspect.Proofs.Json.ForkedToken

/-!
# Documents of texts that fork

Between tokens blanks are passed over, line breaks among them, so here the readers do come upon the
obstacles. An obstacle is no value, no key and no punctuation: each reader refuses it, with a fault of
its own, or leaves it to the reader of the next value. A document therefore never ends well, and the
main result is that texts that fork are refused with the same fault.

The loops for items and entries are bounded by the length of the text that is left, which differs
between the texts. Each round takes a character of the common part, so neither bound is reached.
-/

namespace FusionInspect.Json

namespace Reader

variable {α : Type} {n k : Nat} {c d : Cursor} {ch : Char}

/-! ## Lists and objects -/

/-- An item that is not the first has a comma before it. -/
theorem tracks_moreItems (first : Bool) (h : Forked n c d) :
    Tracks (fun more m => m ≤ n ∧ (more = false → 0 < m) ∧ (more = true → m + (!first).toNat ≤ n))
      (moreItems first c) (moreItems first d) := by
  cases first with
  | true =>
    refine peekToken_bind (pure true) h ?_ (by rintro _ (_ | _ | _) <;> rfl) ?_
    · intro ch m x y p hm hfork
      dsimp only
      split
      · exact tracks_pure ⟨hm, by simp, by simp⟩ hfork
      · exact tracks_pure ⟨hm, by simp, fun _ => hm⟩ hfork
    · intro c' d' hstuck
      exact tracks_pure ⟨Nat.zero_le n, by simp, by simp⟩ hstuck
  | false =>
    refine peekToken_bind_failHere .expectedListComma h ?_ (by rintro _ (_ | _ | _) <;> rfl)
    intro ch m x y p hm hfork
    dsimp only
    split
    · exact tracks_pure ⟨hm, by simp, by simp⟩ hfork
    · simp only [Bool.false_eq_true, if_false]
      split
      · refine (tracks_drop hfork).bind fun _ l c' d' hl hnext => ?_
        obtain rfl := hl
        refine peekToken_bind (pure true) hnext ?_ (by rintro _ (_ | _ | _) <;> rfl) ?_
        · intro ch' i x' y' p' hi hfork'
          dsimp only
          split
          · exact tracks_failHere hfork' _
          · exact tracks_pure ⟨by omega, by simp, fun _ => Nat.le_trans (Nat.succ_le_succ hi) hm⟩ hfork'
        · intro c' d' hstuck
          exact tracks_pure ⟨Nat.zero_le n, by simp, fun _ => Nat.lt_of_le_of_lt (Nat.zero_le l) hm⟩
            hstuck
      · exact tracks_failHere hfork _

/-- A line goes on behind a mark. -/
theorem one_lt_of_mark {mark : Char} {x y : List Char} {p : Place} (hmark : mark ≠ '\n')
    (heq : (ch == mark) = true) (h : Forked (n + 1) ⟨ch :: x, p⟩ ⟨ch :: y, p⟩) : 1 < n + 1 := by
  rw [eq_of_beq heq] at h
  exact Nat.succ_lt_succ (h.tail.2 hmark)

/-- A key starts with a quote, so the line goes on behind it. -/
theorem tracks_moreKeys (first : Bool) (h : Forked n c d) :
    Tracks (fun _ m => 1 < m ∧ m ≤ n) (moreKeys first c) (moreKeys first d) := by
  cases first with
  | true =>
    refine peekToken_bind_failHere .keyNotString h ?_ (by rintro _ (_ | _ | _) <;> rfl)
    intro ch m x y p hm hfork
    dsimp only
    split
    · next hclose => exact tracks_pure ⟨one_lt_of_mark (by decide) hclose hfork, hm⟩ hfork
    · simp only [if_true]
      split
      · next hquote => exact tracks_pure ⟨one_lt_of_mark (by decide) hquote hfork, hm⟩ hfork
      · exact tracks_failHere hfork _
  | false =>
    refine peekToken_bind_failHere .expectedObjectComma h ?_ (by rintro _ (_ | _ | _) <;> rfl)
    intro ch m x y p hm hfork
    dsimp only
    split
    · next hclose => exact tracks_pure ⟨one_lt_of_mark (by decide) hclose hfork, hm⟩ hfork
    · simp only [Bool.false_eq_true, if_false]
      split
      · refine (tracks_drop hfork).bind fun _ l c' d' hl hnext => ?_
        obtain rfl := hl
        refine peekToken_bind_failHere .keyNotString hnext ?_ (by rintro _ (_ | _ | _) <;> rfl)
        intro ch' i x' y' p' hi hfork'
        dsimp only
        split
        · next hquote =>
          exact tracks_pure ⟨one_lt_of_mark (by decide) hquote hfork', by omega⟩ hfork'
        · split
          · exact tracks_failHere hfork' _
          · exact tracks_failHere hfork' _
      · exact tracks_failHere hfork _

/-- The colon behind a key is found on both sides, or neither has one. -/
theorem between_colon : Between colon := by
  intro n c d h
  refine peekToken_bind_failHere .expectedColon h ?_ (by rintro _ (_ | _ | _) <;> rfl)
  intro ch m x y p hm hfork
  dsimp only
  split
  · exact (tracks_drop hfork).mono fun _ l hl => by omega
  · exact tracks_failHere hfork _

/-- Each item but the first is paid for by its comma. -/
theorem tracks_itemsLoop {item : Reader α} (hitem : Between item) {fuel fuel' : Nat} {first : Bool}
    (read : List α) (hfuel : n + first.toNat < fuel) (hfuel' : n + first.toNat < fuel')
    (h : Forked n c d) :
    Tracks (fun _ m => m ≤ n) (itemsLoop item fuel first read c)
      (itemsLoop item fuel' first read d) := by
  induction fuel generalizing fuel' first read n c d with
  | zero => omega
  | succ fuel ih =>
    obtain ⟨fuel', rfl⟩ : ∃ l, fuel' = l + 1 := ⟨fuel' - 1, by omega⟩
    refine (tracks_moreItems first h).bind fun more m c' d' hm hfork => ?_
    obtain ⟨hle, hclose, hmore⟩ := hm
    cases more with
    | false =>
      obtain ⟨m, rfl⟩ := Nat.exists_eq_succ_of_ne_zero (Nat.pos_iff_ne_zero.mp (hclose rfl))
      refine (tracks_drop hfork).bind fun _ l c' d' hl hlast => ?_
      exact tracks_pure (by omega) hlast
    | true =>
      have hpaid : m + 1 ≤ n + first.toNat := by
        cases first <;> simpa using hmore rfl
      refine (hitem hfork).bind fun a l c' d' hl hnext => ?_
      refine Tracks.mono (ih (a :: read) ?_ ?_ hnext) fun _ last hlast => by omega
      · show l + 0 < fuel
        omega
      · show l + 0 < fuel'
        omega

/-- The items of a list are read alike, if each item is. -/
theorem between_items {item : Reader α} (hitem : Between item) : Between (items item) := by
  intro n c d h
  have hlength := h.add_three_le_length
  have hlength' := h.symm.add_three_le_length
  refine tracks_itemsLoop hitem [] ?_ ?_ h
  · show n + 1 < c.rest.length + 1
    omega
  · show n + 1 < d.rest.length + 1
    omega

/-- Each entry is paid for by the quote of its key. -/
theorem tracks_entriesLoop {value : Reader α} (hvalue : Between value) {fuel fuel' : Nat}
    (first : Bool) (read : List (String × α)) (hfuel : n < fuel) (hfuel' : n < fuel')
    (h : Forked n c d) :
    Tracks (fun _ m => m ≤ n) (entriesLoop value fuel first read c)
      (entriesLoop value fuel' first read d) := by
  induction fuel generalizing fuel' first read n c d with
  | zero => omega
  | succ fuel ih =>
    obtain ⟨fuel', rfl⟩ : ∃ l, fuel' = l + 1 := ⟨fuel' - 1, by omega⟩
    refine (tracks_moreKeys first h).bind fun more m c' d' hm hfork => ?_
    obtain ⟨m, rfl⟩ : ∃ l, m = l + 1 := ⟨m - 1, by omega⟩
    cases more with
    | false =>
      refine (tracks_drop hfork).bind fun _ l c' d' hl hlast => ?_
      exact tracks_pure (by omega) hlast
    | true =>
      refine (tracks_drop hfork).bind fun _ l c' d' hl hkey => ?_
      obtain rfl := hl
      refine (inside_stringBody (by omega) (Nat.le_refl l) hkey).bind fun key i _ _ hi hcolon => ?_
      refine (between_colon hcolon).bind fun _ j _ _ hj hval => ?_
      refine (hvalue hval).bind fun a t _ _ ht hnext => ?_
      exact (ih false _ (by omega) (by omega) hnext).mono fun _ last hlast => by omega

/-- The entries of an object are read alike, if each value is. -/
theorem between_entries {value : Reader α} (hvalue : Between value) : Between (entries value) := by
  intro n c d h
  have hlength := h.add_three_le_length
  have hlength' := h.symm.add_three_le_length
  exact tracks_entriesLoop hvalue true [] (by omega) (by omega) h

/-! ## Values -/

/-- A value that is neither a list nor an object is read alike, its first character known. -/
theorem insideAt_plainValue : InsideAt ch k (plainValue ch) (plainValue ch) := by
  have hliteral : ∀ {k : Nat} {v : Json} (expected : List Char), '\n' ∉ expected →
      Inside k (literal expected >>= fun _ => pure v) (literal expected >>= fun _ => pure v) :=
    fun expected hline => (inside_literal expected hline).bind fun _ => inside_pure _
  unfold plainValue
  split
  · next hnull =>
    rw [eq_of_beq hnull]
    exact .drop_bind (by decide) (hliteral _ (by decide))
  split
  · next htrue =>
    rw [eq_of_beq htrue]
    exact .drop_bind (by decide) (hliteral _ (by decide))
  split
  · next hfalse =>
    rw [eq_of_beq hfalse]
    exact .drop_bind (by decide) (hliteral _ (by decide))
  split
  · next hminus =>
    rw [eq_of_beq hminus]
    exact .drop_bind (by decide) ((inside_numberBody true).bind fun _ => inside_pure _)
  split
  · exact ((inside_numberBody false).bind fun _ => inside_pure _).at
  split
  · next hquote =>
    rw [eq_of_beq hquote]
    exact .drop_bind (by decide) (inside_stringBody.bind fun _ => inside_pure _)
  · exact (inside_failHere _).at

/-- The same, where nothing is asked but that no character was added to what is common. -/
theorem tracks_plainValue {x y : List Char} {p : Place}
    (h : Forked (n + 1) ⟨ch :: x, p⟩ ⟨ch :: y, p⟩) :
    Tracks (fun _ m => m ≤ n + 1) (plainValue ch ⟨ch :: x, p⟩) (plainValue ch ⟨ch :: y, p⟩) :=
  (insideAt_plainValue (Nat.lt_succ_self n) h).mono fun _ _ hm => hm.2

/-- Every value is read alike, by induction on how deep values may still nest. -/
theorem between_value : ∀ room, Between (value room)
  | 0 => by
    intro n c d h
    refine peekToken_bind_failHere .expectedValue h ?_ (by rintro _ (_ | _ | _) <;> rfl)
    intro ch m x y p hm hfork
    dsimp only
    split
    · exact tracks_failHere hfork _
    · exact (tracks_plainValue hfork).mono fun _ _ hl => Nat.le_trans hl hm
  | room + 1 => by
    intro n c d h
    refine peekToken_bind_failHere .expectedValue h ?_ (by rintro _ (_ | _ | _) <;> rfl)
    intro ch m x y p hm hfork
    dsimp only
    split
    · refine (tracks_drop hfork).bind fun _ l _ _ hl hopen => ?_
      refine (between_items (between_value room) hopen).bind fun vs i _ _ hi hlast => ?_
      exact tracks_pure (by omega) hlast
    · split
      · refine (tracks_drop hfork).bind fun _ l _ _ hl hopen => ?_
        refine (between_entries (between_value room) hopen).bind fun es i _ _ hi hlast => ?_
        exact tracks_pure (by omega) hlast
      · exact (tracks_plainValue hfork).mono fun _ _ hl => Nat.le_trans hl hm

/-- An obstacle is not the end of a text. -/
theorem tracks_finish (h : Forked n c d) : Tracks (fun _ _ => False) (finish c) (finish d) :=
  peekToken_bind_failHere .trailingCharacters h
    (fun _ _ _ _ _ _ hfork => tracks_failHere hfork _) (by rintro _ (_ | _ | _) <;> rfl)

/-- A document that forks is never read to its end: both sides give one fault. -/
theorem tracks_document (h : Forked n c d) :
    Tracks (fun _ _ => False) (document c) (document d) := by
  refine (between_value depthLimit h).bind fun v m c' d' _ hfork => ?_
  exact (tracks_finish hfork).bind fun _ _ _ _ hnever => hnever.elim

end Reader

/-- Texts that fork are refused with one fault. -/
theorem exists_fault_of_forked {n : Nat} {x y : List Char} (h : Forked n ⟨x, .start⟩ ⟨y, .start⟩) :
    ∃ fault, parse (String.ofList x) = .error fault ∧ parse (String.ofList y) = .error fault := by
  have hdocument := Reader.tracks_document h
  unfold parse Reader.run Cursor.ofText
  rw [String.toList_ofList, String.toList_ofList]
  generalize Reader.document ⟨x, .start⟩ = u at hdocument
  generalize Reader.document ⟨y, .start⟩ = v at hdocument
  cases hdocument with
  | error fault => exact ⟨fault, rfl, rfl⟩
  | ok hnever =>
    obtain ⟨-, m, hm, -⟩ := hnever
    exact hm.elim

end FusionInspect.Json
