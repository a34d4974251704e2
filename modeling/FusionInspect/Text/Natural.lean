import FusionInspect.Order.Stable

/-!
# Natural order of texts

Texts are compared piece by piece, where a piece is a maximal run of ASCII digits or any other single
character. Two runs compare by the number they write, and of two ways to write one number the
shorter comes first; so `item2` comes before `item10`. Any other two pieces compare by their first
character, and a text that ends comes before one that goes on.

Both texts are cut into pieces beforehand. Equal runs have equal digits, so comparing never needs to
cut a run in the middle. Runs may be of any length, so their numbers are compared digit by digit and
never computed.
-/

namespace FusionInspect.Text

/-- A piece of a text in natural order. -/
inductive Piece where
  /-- A maximal run of digits. -/
  | run (digits : List Char)
  /-- One character that is no digit. -/
  | single (char : Char)
  deriving Repr, DecidableEq

/-- The pieces of a text. -/
def pieces : List Char → List Piece
  | [] => []
  | c :: cs =>
    if c.isDigit then
      match pieces cs with
      | .run digits :: rest => .run (c :: digits) :: rest
      | rest => .run [c] :: rest
    else .single c :: pieces cs

/-- The first character of a piece. A run is never empty. -/
def Piece.head : Piece → Char
  | .run [] => '0'
  | .run (c :: _) => c
  | .single c => c

/-- A run of digits without the zeros in front. -/
def significant (digits : List Char) : List Char :=
  digits.dropWhile (· == '0')

/-- Order of two runs of digits. Without the zeros in front, the longer run writes the larger number, and
of two runs of one length the first different digit decides. Where both write one number, the shorter run
comes first. -/
def runOrder (ds es : List Char) : Ordering :=
  (compare (significant ds).length (significant es).length).then
    ((List.compareLex (fun d e => compare d.toNat e.toNat) (significant ds) (significant es)).then
      (compare ds.length es.length))

/-- Order of two pieces: runs by their number and then by their length, others by first character. -/
def Piece.order : Piece → Piece → Ordering
  | .run ds, .run es => runOrder ds es
  | p, q => compare p.head.toNat q.head.toNat

/-- Order of two lists of pieces: the first difference decides. -/
def piecesOrder : List Piece → List Piece → Ordering
  | [], [] => .eq
  | [], _ :: _ => .lt
  | _ :: _, [] => .gt
  | p :: ps, q :: qs => (p.order q).then (piecesOrder ps qs)

/-- The natural order of two texts. -/
def naturalOrder (a b : String) : Ordering :=
  piecesOrder (pieces a.toList) (pieces b.toList)

/-- Whether one text does not come after another in natural order. -/
def naturalLE (a b : String) : Bool :=
  (naturalOrder a b).isLE

/-- Names in natural order; equal names keep their places. -/
def naturalSort (names : List String) : List String :=
  Order.sort naturalLE names

end FusionInspect.Text
