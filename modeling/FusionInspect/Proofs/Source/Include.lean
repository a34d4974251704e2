import FusionInspect.Proofs.Json.ForkedDocument
import FusionInspect.Source.Declaration
import FusionInspect.Source.Include

/-!
# Include statements and parsing

No line of a document starts with `include:`, and none starts with `#`. So a source with an include
statement is refused with or without it commented out, and what is left to show is that it is refused
alike. Up to the first statement the two texts are the same, and there they go on with an obstacle each
(`forked_commentIncludes`). What stands behind the first statement, which commenting it out moves by a
byte, is not read.
-/

namespace FusionInspect.Source

open Json (Forked Obstacle Plain Stray Place)

/-! ## Include statements are obstacles -/

/-- A character with an ASCII lower case is that, or the letter 32 places before it. -/
theorem toLower_cases {c m : Char} (h : c.toLower = m) :
    c = m ∨ c.toNat + 32 = m.toNat ∧ c.toNat ≤ 90 := by
  unfold Char.toLower at h
  split at h
  · next hcapital =>
    have hlow : 65 ≤ c.val.toNat := UInt32.le_iff_toNat_le.mp hcapital.1
    have hhigh : c.val.toNat ≤ 90 := UInt32.le_iff_toNat_le.mp hcapital.2
    have hshift : ('a'.val - 'A'.val).toNat = 32 := rfl
    have hval : c.val + ('a'.val - 'A'.val) = m.val := congrArg Char.val h
    have hsum := congrArg UInt32.toNat hval
    rw [UInt32.toNat_add, hshift, Nat.mod_eq_of_lt (by omega)] at hsum
    exact .inr ⟨hsum, hhigh⟩
  · exact .inl h

/-- No token begins with the letter that include statements begin with, in either case. -/
theorem stray_of_toLower {c : Char} (h : c.toLower = 'i') : Stray c := by
  rcases toLower_cases h with rfl | ⟨hsum, -⟩
  · exact .small
  · have hval : c.toNat = 'I'.toNat := Nat.add_right_cancel hsum
    rw [Char.toNat_inj.mp hval]
    exact .capital

/-- The letters of a mark are plain in either case. -/
theorem plain_of_toLower {c m : Char} (hm : Plain m) (hletter : 97 ≤ m.toNat) (h : c.toLower = m) :
    Plain c := by
  rcases toLower_cases h with rfl | ⟨hsum, hhigh⟩
  · exact hm
  · constructor
    · rw [Char.utf8Size_eq_one_iff, UInt32.le_iff_toNat_le]
      exact Nat.le_trans hhigh (by decide)
    · rintro rfl
      have hbreak : '\n'.toNat = 10 := rfl
      omega

/-- So an include statement is an obstacle. -/
theorem obstacle_of_startsWithMark {text : List Char} (h : startsWithMark includeMark text = true) :
    Obstacle text := by
  have hmark : includeMark = ['i', 'n', 'c', 'l', 'u', 'd', 'e', ':'] := rfl
  rw [hmark] at h
  rcases text with _ | ⟨a, _ | ⟨b, _ | ⟨c, rest⟩⟩⟩
  case cons.cons.cons =>
    simp only [startsWithMark, Bool.and_eq_true, beq_iff_eq] at h
    obtain ⟨ha, hb, hc, -⟩ := h
    exact .intro (stray_of_toLower ha) (plain_of_toLower ⟨rfl, by decide⟩ (by decide) hb)
      (plain_of_toLower ⟨rfl, by decide⟩ (by decide) hc)
  all_goals simp [startsWithMark] at h

/-- And so is one that is commented out. -/
theorem obstacle_commentedInclude (rest : List Char) : Obstacle (commentedInclude ++ rest) :=
  .intro .hash ⟨rfl, by decide⟩ ⟨rfl, by decide⟩

/-! ## Sources with their include statements commented out -/

/-- A text without include statements stays as it is, and any other one forks from what it becomes. In
the middle of a line there is something in common before that. -/
theorem forked_commentIncludes (text : List Char) : ∀ (lineStart : Bool) (p : Place),
    commentIncludes 0 lineStart text = text ∨
      ∃ n, (lineStart = false → 0 < n) ∧
        Forked n ⟨text, p⟩ ⟨commentIncludes 0 lineStart text, p⟩ := by
  induction text with
  | nil =>
    intro lineStart p
    exact .inl rfl
  | cons c text ih =>
    intro lineStart p
    unfold commentIncludes
    split
    · next hmark =>
      rw [Bool.and_eq_true] at hmark
      refine .inr ⟨0, fun hmiddle => ?_, ?_⟩
      · rw [hmark.1] at hmiddle
        cases hmiddle
      · exact .obstacles (obstacle_of_startsWithMark hmark.2) (obstacle_commentedInclude _)
    · rcases ih (c == '\n') (p.next c) with hsame | ⟨n, hpos, hfork⟩
      · exact .inl (congrArg (c :: ·) hsame)
      · refine .inr ⟨n + 1, fun _ => Nat.succ_pos n, .common c (fun hc => ?_) hfork⟩
        exact hpos (beq_false_of_ne hc)

/-- A document is read alike, and refused alike, with its include statements commented out. -/
theorem parse_json_normalizeIncludes (text : String) :
    Json.parse (normalizeIncludes text) = Json.parse text := by
  unfold normalizeIncludes
  rcases forked_commentIncludes text.toList true .start with hsame | ⟨n, -, hfork⟩
  · rw [hsame, String.ofList_toList]
  · obtain ⟨fault, htext, hcommented⟩ := Json.exists_fault_of_forked hfork
    rw [String.ofList_toList] at htext
    rw [htext, hcommented]

/-- A source is parsed alike with its include statements commented out, whether it is refused or not. -/
theorem parse_normalizeIncludes (label text : String) (t : ObjectTree) :
    parse label (normalizeIncludes text) t = parse label text t := by
  unfold parse declarations
  rw [parse_json_normalizeIncludes]

/-! ## The tree that a source is added to -/

/-- Sources are checked before they are added, so what they are added to makes no difference. -/
theorem parse_eq_error_iff {label text : String} {t : ObjectTree} {e : ParseError} :
    parse label text t = .error e ↔ declarations label text = .error e := by
  unfold parse
  cases declarations label text with
  | error cause => simp [bind, Except.bind]
  | ok entries => exact ⟨nofun, nofun⟩

end FusionInspect.Source
