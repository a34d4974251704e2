import FusionInspect.Json.Token
import FusionInspect.Proofs.Outcome

/-!
# Reading up to an obstacle

An OBSTACLE is a text that starts with a character no token begins with. Put at the start of a line it
cannot be read over: a line break ends every token, and between tokens the character is a fault. What
the fault is does not depend on the obstacle, as long as its first characters are one byte each, since
places are counted in bytes.

Two texts that FORK are the same up to the end of some line and go on with an obstacle each. The readers
are run on both side by side. Each either fails with one fault on both texts, or gives one result on both
and stops where they still have a part in common. Inside a token that part is not empty, which is what
keeps the readers of tokens from looking at the obstacles at all.
-/

namespace FusionInspect.Json

/-! ## Texts that fork -/

/-- A character that begins no token. -/
inductive Stray : Char → Prop where
  | hash : Stray '#'
  | small : Stray 'i'
  | capital : Stray 'I'

/-- A character of one byte that ends no line. -/
def Plain (c : Char) : Prop :=
  c.utf8Size = 1 ∧ c ≠ '\n'

/-- A character that begins no token is a plain one. -/
theorem Stray.plain {c : Char} (h : Stray c) : Plain c := by
  cases h <;> exact ⟨rfl, by decide⟩

/-- A text that starts with a character which begins no token, and goes on for two plain ones. The
four digits of an escape that starts before the obstacle reach no further. -/
inductive Obstacle : List Char → Prop where
  | intro {a b c : Char} {rest : List Char} (ha : Stray a) (hb : Plain b) (hc : Plain c) :
      Obstacle (a :: b :: c :: rest)

/-- The cursors stand at one place, before `n` characters in common and an obstacle each. The last of
the common characters ends a line. -/
inductive Forked : Nat → Cursor → Cursor → Prop where
  | obstacles {x y : List Char} {p : Place} (hx : Obstacle x) (hy : Obstacle y) :
      Forked 0 ⟨x, p⟩ ⟨y, p⟩
  | common {n : Nat} {x y : List Char} {p : Place} (ch : Char) (hend : ch ≠ '\n' → 0 < n)
      (h : Forked n ⟨x, p.next ch⟩ ⟨y, p.next ch⟩) : Forked (n + 1) ⟨ch :: x, p⟩ ⟨ch :: y, p⟩

namespace Forked

variable {n : Nat} {c d : Cursor}

/-- Which of two forked texts is the first does not matter. -/
theorem symm (h : Forked n c d) : Forked n d c := by
  induction h with
  | obstacles hx hy => exact .obstacles hy hx
  | common ch hend _ ih => exact .common ch hend ih

/-- Behind what they have in common, forked texts go on for at least three characters. -/
theorem add_three_le_length (h : Forked n c d) : n + 3 ≤ c.rest.length := by
  induction h with
  | obstacles hx hy =>
    cases hx
    simp
  | common ch hend h ih =>
    simp only [List.length_cons]
    exact Nat.succ_le_succ ih

theorem place_eq (h : Forked n c d) : c.place = d.place := by
  cases h <;> rfl

/-- A character in common is taken from both, and the line goes on behind it unless it ends there. -/
theorem tail {ch : Char} {x y : List Char} {p : Place} (h : Forked (n + 1) ⟨ch :: x, p⟩ ⟨ch :: y, p⟩) :
    Forked n ⟨x, p.next ch⟩ ⟨y, p.next ch⟩ ∧ (ch ≠ '\n' → 0 < n) := by
  cases h with
  | common _ hend h => exact ⟨h, hend⟩

/-- The two characters at which a fault could be placed count for one byte each. -/
theorem here_eq (h : Forked n c d) : c.here = d.here := by
  cases h with
  | common ch hend h => rfl
  | obstacles hx hy =>
    cases hx with
    | intro ha _ _ =>
      cases hy with
      | intro hb _ _ => simp [Cursor.here, Place.advance, ha.plain.2, hb.plain.2]

end Forked

/-- A plain character moves a place by one column. -/
theorem Place.afterBytes_plain {c : Char} (hc : Plain c) (p : Place) (bytes : Nat) (rest : List Char) :
    p.afterBytes (bytes + 1) (c :: rest) = (⟨p.line, p.column + 1⟩ : Place).afterBytes bytes rest := by
  simp [Place.afterBytes, Place.next, Place.advance, hc.1, hc.2]

/-- Up to three bytes into an obstacle, places count on in the same line. -/
theorem Obstacle.afterBytes {text : List Char} (h : Obstacle text) (p : Place) :
    ∀ {bytes : Nat}, bytes ≤ 3 → p.afterBytes bytes text = ⟨p.line, p.column + bytes⟩ := by
  obtain ⟨ha, hb, hc⟩ := h
  have hzero : ∀ (q : Place) (l : List Char), q.afterBytes 0 l = q := by
    intro q l
    cases l <;> rfl
  intro bytes hbytes
  match bytes, hbytes with
  | 0, _ => exact hzero _ _
  | 1, _ => rw [Place.afterBytes_plain ha.plain, hzero]
  | 2, _ => rw [Place.afterBytes_plain ha.plain, Place.afterBytes_plain hb, hzero]
  | 3, _ =>
    rw [Place.afterBytes_plain ha.plain, Place.afterBytes_plain hb, Place.afterBytes_plain hc, hzero]

/-- Bytes are counted alike up to the third of an obstacle. -/
theorem Forked.afterBytes_eq {n : Nat} {c d : Cursor} (h : Forked n c d) :
    ∀ bytes, bytes ≤ n + 3 → c.place.afterBytes bytes c.rest = d.place.afterBytes bytes d.rest := by
  induction h with
  | obstacles hx hy =>
    intro bytes hbytes
    rw [hx.afterBytes _ (by omega), hy.afterBytes _ (by omega)]
  | common ch hend h ih =>
    intro bytes hbytes
    have hsize := ch.utf8Size_pos
    simp only [Place.afterBytes, ih (bytes - ch.utf8Size) (by omega)]

/-! ## Readers side by side -/

namespace Reader

variable {α β : Type} {n k : Nat} {c d : Cursor} {ch : Char}

/-- One fault on both sides, or one result and cursors that are forked. The result and the number of
common characters that are left are as asked. -/
def Tracks (post : α → Nat → Prop) (u v : Except Fault (α × Cursor)) : Prop :=
  Agree (fun x y => x.1 = y.1 ∧ ∃ m, post x.1 m ∧ Forked m x.2 y.2) u v

/-- What is asked of the results can be weakened. -/
theorem Tracks.mono {post weaker : α → Nat → Prop} {u v : Except Fault (α × Cursor)}
    (h : Tracks post u v) (himp : ∀ a m, post a m → weaker a m) : Tracks weaker u v := by
  refine Agree.imp h ?_
  rintro x y ⟨hxy, m, hm, hfork⟩
  exact ⟨hxy, m, himp _ _ hm, hfork⟩

/-- Readers that keep side by side, one after the other, keep side by side. -/
theorem Tracks.bind {post : α → Nat → Prop} {next : β → Nat → Prop} {r r' : Reader α}
    {f f' : α → Reader β} (h : Tracks post (r c) (r' d))
    (hnext : ∀ a m c' d', post a m → Forked m c' d' → Tracks next (f a c') (f' a d')) :
    Tracks next ((r >>= f) c) ((r' >>= f') d) := by
  refine Agree.bind h ?_
  rintro ⟨a, c'⟩ ⟨b, d'⟩ ⟨hab, m, hm, hfork⟩
  obtain rfl : a = b := hab
  exact hnext a m c' d' hm hfork

theorem tracks_pure {post : α → Nat → Prop} {a : α} (ha : post a n) (h : Forked n c d) :
    Tracks post ((pure a : Reader α) c) ((pure a : Reader α) d) :=
  .ok ⟨rfl, n, ha, h⟩

/-- A fault at the next character is one fault on both sides. -/
theorem tracks_failHere {post : α → Nat → Prop} (h : Forked n c d) (cause : Cause) :
    Tracks post (failHere cause c) (failHere cause d) := by
  unfold failHere
  rw [h.here_eq]
  exact .error _

/-- Readers that keep side by side inside a token, with at most `k` characters in common. -/
def Inside (k : Nat) (r r' : Reader α) : Prop :=
  ∀ ⦃n c d⦄, 0 < n → n ≤ k → Forked n c d → Tracks (fun _ m => 0 < m ∧ m ≤ n) (r c) (r' d)

/-- The same where the next character is known. -/
def InsideAt (ch : Char) (k : Nat) (r r' : Reader α) : Prop :=
  ∀ ⦃n x y p⦄, n < k → Forked (n + 1) ⟨ch :: x, p⟩ ⟨ch :: y, p⟩ →
    Tracks (fun _ m => 0 < m ∧ m ≤ n + 1) (r ⟨ch :: x, p⟩) (r' ⟨ch :: y, p⟩)

theorem Inside.at {r r' : Reader α} (h : Inside k r r') : InsideAt ch k r r' :=
  fun n _ _ _ hlt hfork => h (Nat.succ_pos n) hlt hfork

/-- If they do so before each character, they do. -/
theorem Inside.of_at {r r' : Reader α} (h : ∀ ch, InsideAt ch k r r') : Inside k r r' := by
  intro n c d hpos hle hfork
  cases hfork with
  | obstacles => exact absurd hpos (Nat.lt_irrefl 0)
  | common ch hend hfork => exact h ch hle (.common ch hend hfork)

theorem Inside.zero (r r' : Reader α) : Inside 0 r r' := by
  intro n c d hpos hle
  omega

/-- The next character is known to the first of two readers only. -/
theorem InsideAt.bind {r r' : Reader α} {f f' : α → Reader β} (h : InsideAt ch k r r')
    (hnext : ∀ a, Inside k (f a) (f' a)) : InsideAt ch k (r >>= f) (r' >>= f') := by
  intro n x y p hlt hfork
  refine (h hlt hfork).bind fun a m c' d' hm hfork' => ?_
  refine (hnext a hm.1 (Nat.le_trans hm.2 hlt) hfork').mono fun b l hl => ?_
  exact ⟨hl.1, Nat.le_trans hl.2 hm.2⟩

theorem Inside.bind {r r' : Reader α} {f f' : α → Reader β} (h : Inside k r r')
    (hnext : ∀ a, Inside k (f a) (f' a)) : Inside k (r >>= f) (r' >>= f') :=
  .of_at fun _ => h.at.bind hnext

theorem inside_pure (a : α) : Inside k (pure a) (pure a) := by
  intro n c d hpos _ hfork
  exact tracks_pure ⟨hpos, Nat.le_refl n⟩ hfork

theorem inside_failHere (cause : Cause) : Inside k (failHere (α := α) cause) (failHere cause) :=
  fun _ _ _ _ _ hfork => tracks_failHere hfork cause

/-- A fault where the cursors stand is one fault on both sides. -/
theorem inside_fail (cause : Cause) : Inside k (fail (α := α) cause) (fail cause) := by
  intro n c d _ _ hfork
  unfold fail
  rw [hfork.place_eq]
  exact .error _

theorem inside_failAt (cause : Cause) (place : Place) :
    Inside k (failAt (α := α) cause place) (failAt cause place) :=
  fun _ _ _ _ _ _ => .error _

theorem inside_reached : Inside k reached reached := by
  intro n c d hpos _ hfork
  exact .ok ⟨hfork.place_eq, n, ⟨hpos, Nat.le_refl n⟩, hfork⟩

/-- A number that is out of range is out of range on both sides. -/
theorem inside_inRange (a? : Option α) : Inside k (inRange a?) (inRange a?) := by
  cases a? with
  | none => exact inside_fail _
  | some a => exact inside_pure a

/-- Inside a token both texts go on with the same character. -/
theorem Inside.peek_bind {f f' : Option Char → Reader α}
    (h : ∀ ch, InsideAt ch k (f (some ch)) (f' (some ch))) : Inside k (peek >>= f) (peek >>= f') :=
  .of_at fun ch _ _ _ _ hlt hfork => h ch hlt hfork

/-- A token goes on behind each of its characters, since none of them ends the line. -/
theorem InsideAt.drop_bind {f f' : Unit → Reader α} (hch : ch ≠ '\n')
    (h : Inside (k - 1) (f ()) (f' ())) : InsideAt ch k (drop >>= f) (drop >>= f') := by
  intro n x y p hlt hfork
  obtain ⟨htail, hend⟩ := hfork.tail
  refine (h (hend hch) (by omega) htail).mono fun a m hm => ?_
  exact ⟨hm.1, Nat.le_succ_of_le hm.2⟩

/-- Passing over a character that ends no line leaves one character less in common. -/
theorem InsideAt.drop_seq {r r' : Reader α} (hch : ch ≠ '\n') (h : Inside (k - 1) r r') :
    InsideAt ch k (drop *> r) (drop *> r') :=
  InsideAt.drop_bind hch h

/-- Passing over such a character stays inside the token. -/
theorem InsideAt.drop (hch : ch ≠ '\n') : InsideAt ch k drop drop := by
  have h : InsideAt ch k (Reader.drop >>= pure) (Reader.drop >>= pure) :=
    InsideAt.drop_bind hch (inside_pure ())
  rwa [bind_pure] at h

/-! ## Runs of characters -/

/-- A run takes each character that passes. -/
theorem takeRun_pos {test : Char → Bool} (h : test ch = true) (x : List Char) (p : Place) :
    takeRun test ⟨ch :: x, p⟩ =
      (takeRun test ⟨x, p.next ch⟩).map fun r => (ch :: r.1, r.2) := by
  simp [takeRun, h, Place.after, Except.map]

/-- It ends before the first that does not. -/
theorem takeRun_neg {test : Char → Bool} (h : test ch = false) (x : List Char) (p : Place) :
    takeRun test ⟨ch :: x, p⟩ = .ok ([], ⟨ch :: x, p⟩) := by
  simp [takeRun, h, Place.after]

/-- A run stops before an obstacle, and before the end of the line if line breaks do not pass. -/
theorem tracks_takeRun {test : Char → Bool} (hstray : ∀ a, Stray a → test a = false)
    (h : Forked n c d) :
    Tracks (fun _ m => m ≤ n ∧ (test '\n' = false → 0 < n → 0 < m)) (takeRun test c)
      (takeRun test d) := by
  induction h with
  | obstacles hx hy =>
    obtain ⟨ha, -, -⟩ := id hx
    obtain ⟨hb, -, -⟩ := id hy
    rw [takeRun_neg (hstray _ ha), takeRun_neg (hstray _ hb)]
    exact .ok ⟨rfl, 0, ⟨Nat.le_refl 0, fun _ hpos => hpos⟩, .obstacles hx hy⟩
  | @common n x y p ch hend hfork ih =>
    cases htest : test ch with
    | false =>
      rw [takeRun_neg htest, takeRun_neg htest]
      exact .ok ⟨rfl, n + 1, ⟨Nat.le_refl _, fun _ hpos => hpos⟩, .common ch hend hfork⟩
    | true =>
      rw [takeRun_pos htest, takeRun_pos htest]
      refine Agree.map ih ?_
      rintro u v ⟨huv, m, ⟨hle, hpos⟩, hlast⟩
      refine ⟨congrArg (ch :: ·) huv, m, ⟨Nat.le_succ_of_le hle, fun hbreak _ => ?_⟩, hlast⟩
      have hch : ch ≠ '\n' := by
        rintro rfl
        rw [htest] at hbreak
        cases hbreak
      exact hpos hbreak (hend hch)

/-- A run that takes neither line breaks nor stray characters ends before the fork. -/
theorem inside_takeRun {test : Char → Bool} (hstray : ∀ a, Stray a → test a = false)
    (hbreak : test '\n' = false) : Inside k (takeRun test) (takeRun test) := by
  intro n c d hpos _ hfork
  exact (tracks_takeRun hstray hfork).mono fun _ m hm => ⟨hm.2 hbreak hpos, hm.1⟩

/-! ## Between tokens -/

/-- A reader that keeps side by side with itself between tokens. -/
def Between (r : Reader α) : Prop :=
  ∀ ⦃n c d⦄, Forked n c d → Tracks (fun _ m => m ≤ n) (r c) (r d)

theorem tracks_drop (h : Forked (n + 1) c d) : Tracks (fun _ m => m = n) (drop c) (drop d) := by
  cases h with
  | common ch hend h => exact .ok ⟨rfl, n, rfl, h⟩

/-- Between tokens the texts go on with one character, or with the obstacles, where a reader does the
same whatever they start with. -/
theorem peekToken_bind {post : α → Nat → Prop} {f : Option Char → Reader α} (stuck : Reader α)
    (h : Forked n c d)
    (hcommon : ∀ ch m x y p, m < n → Forked (m + 1) ⟨ch :: x, p⟩ ⟨ch :: y, p⟩ →
      Tracks post (f (some ch) ⟨ch :: x, p⟩) (f (some ch) ⟨ch :: y, p⟩))
    (hstray : ∀ a, Stray a → f (some a) = stuck)
    (hstuck : ∀ c' d', Forked 0 c' d' → Tracks post (stuck c') (stuck d')) :
    Tracks post ((peekToken >>= f) c) ((peekToken >>= f) d) := by
  have hspace : ∀ a, Stray a → isSpace a = false := by
    intro a ha
    cases ha <;> rfl
  have hpeek : ∀ {a rest p}, Stray a → (peek >>= f) ⟨a :: rest, p⟩ = stuck ⟨a :: rest, p⟩ :=
    fun ha => congrFun (hstray _ ha) _
  unfold peekToken
  rw [bind_assoc]
  refine (tracks_takeRun hspace h).bind fun _ m c' d' hm hfork => ?_
  cases hfork with
  | common ch hend hfork => exact hcommon ch _ _ _ _ hm.1 (.common ch hend hfork)
  | @obstacles x y p hx hy =>
    have hgo := hstuck ⟨x, p⟩ ⟨y, p⟩ (.obstacles hx hy)
    obtain ⟨ha, -, -⟩ := hx
    obtain ⟨hb, -, -⟩ := hy
    rw [hpeek ha, hpeek hb]
    exact hgo

/-- The usual case: an obstacle is a fault. -/
theorem peekToken_bind_failHere {post : α → Nat → Prop} {f : Option Char → Reader α} (cause : Cause)
    (h : Forked n c d)
    (hcommon : ∀ ch m x y p, m < n → Forked (m + 1) ⟨ch :: x, p⟩ ⟨ch :: y, p⟩ →
      Tracks post (f (some ch) ⟨ch :: x, p⟩) (f (some ch) ⟨ch :: y, p⟩))
    (hstray : ∀ a, Stray a → f (some a) = failHere cause) :
    Tracks post ((peekToken >>= f) c) ((peekToken >>= f) d) :=
  peekToken_bind (failHere cause) h hcommon hstray fun _ _ hstuck => tracks_failHere hstuck cause

end Reader

end FusionInspect.Json
