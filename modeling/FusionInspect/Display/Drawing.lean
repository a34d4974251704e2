import FusionInspect.Text.Word
import FusionInspect.Tree.Node

/-!
# Drawing trees

A tree is drawn as lines, one for the root and one for each entry at any depth. An entry is labelled by
its key, and a scalar by its key and its value. Guides in front of a line show the depth: each guide is
four characters wide, and tells whether more siblings follow at its level.

Drawing has two steps. Labels are taken from the tree (`Drawing.forest`), and the labels are drawn
(`Drawing.lines`).
-/

namespace FusionInspect.Drawing

/-- What stands for a value that is loosely empty. -/
def emptyMark : String := "<empty>"

/-- Whether a text is the marker of a prototype, known or not. -/
def isPrototypeMark (text : String) : Bool :=
  match (List.splitAt "prototype(".length text.toList) with
  | (lead, rest) =>
    lead == "prototype(".toList
      && !(rest.takeWhile Text.isNamePart).isEmpty
      && (rest.dropWhile Text.isNamePart == [')']
        || rest.dropWhile Text.isNamePart == ") (?)".toList)

/-- Whether a text is an expression. -/
def isExpression (text : String) : Bool :=
  ['$', '\x7b'].isPrefixOf text.toList

/-- The value of a scalar in a label. -/
def scalarText : Scalar → String
  | .null => "null"
  | .bool true => "true"
  | .bool false => "false"
  | .number n => if (Scalar.number n).isEmpty then emptyMark else n.text
  | .text s =>
    if (Scalar.text s).isEmpty then emptyMark
    else if isExpression s || isPrototypeMark s then s
    else "\"" ++ s ++ "\""

/-- The label of a scalar entry. -/
def scalarLabel (key : String) (s : Scalar) : String :=
  key ++ " => " ++ scalarText s

/-- A label with the labels below it. -/
inductive Labelled where
  | node (label : String) (children : List Labelled)
  deriving Repr

mutual
/-- The labels of an entry. -/
def labelled (key : String) : Node → Labelled
  | .scalar s => .node (scalarLabel key s) []
  | .wrapper w => .node key (w.order.map fun s => .node (scalarLabel s.key (w.slot s)) [])
  | .branch b => .node key (forest b)
/-- The labels of a branch. -/
def forest : Branch → List Labelled
  | [] => []
  | (key, node) :: rest => labelled key node :: forest rest
end

/-- What joins an entry to the guide, by whether it is the last of its siblings. -/
def connector (last : Bool) : String :=
  if last then "└── " else "├── "

/-- What stands in front of the lines below an entry. -/
def guide (last : Bool) : String :=
  if last then "    " else "│   "

mutual
/-- The lines of a label and those below it. -/
def treeLines (last : Bool) : Labelled → List String
  | .node label children =>
    (connector last ++ label) :: (forestLines children).map (guide last ++ ·)
/-- The lines of some siblings. -/
def forestLines : List Labelled → List String
  | [] => []
  | t :: rest => treeLines rest.isEmpty t ++ forestLines rest
end

/-- The lines of a tree below its root label. -/
def lines (root : String) (b : Branch) : List String :=
  root :: forestLines (forest b)

end FusionInspect.Drawing
