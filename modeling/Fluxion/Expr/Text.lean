import Fluxion.Expr.Basic
import Fluxion.Decimal.Layout

/-!
# The text of an expression

`render` writes a tree with a pair of parentheses around every operator, so
that the text tells the tree. The one exception is infinity, whose text is also
a name of a variable. Requests are identified by this text.
-/

namespace Fluxion.Expr

open Fluxion.Decimal

mutual
def renderChars : Expr Float → List Char
  | .const value => floatChars value
  | .var name => name.toList
  | .unary _ a => '(' :: '-' :: renderChars a ++ [')']
  | .binary op a b =>
      '(' :: renderChars a ++ ' ' :: op.symbol.toList ++ ' ' :: renderChars b ++ [')']
  | .call name args => name.toList ++ '(' :: renderArgs args ++ [')']

def renderArgs : List (Expr Float) → List Char
  | [] => []
  | [a] => renderChars a
  | a :: b :: as => renderChars a ++ ',' :: ' ' :: renderArgs (b :: as)
end

def render (e : Expr Float) : String :=
  String.ofList e.renderChars

/-- What a node is, apart from its subtrees. -/
def label : Expr Float → String
  | .const value => "c " ++ floatText value
  | .var name => "v " ++ name
  | .unary op _ => "un " ++ op.symbol
  | .binary op _ _ => "bin " ++ op.symbol
  | .call name args => "call " ++ name ++ " " ++ natText args.length

mutual
/-- The labels of the nodes, each node before its subtrees. -/
def labels : Expr Float → List String
  | .const value => [label (.const value)]
  | .var name => [label (.var name)]
  | .unary op a => label (.unary op a) :: labels a
  | .binary op a b => label (.binary op a b) :: labels a ++ labels b
  | .call name args => label (.call name args) :: labelsList args

def labelsList : List (Expr Float) → List String
  | [] => []
  | a :: as => labels a ++ labelsList as
end

end Fluxion.Expr
