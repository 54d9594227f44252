import ClassLet.Position

/-!
# Faults found while generating code

Code can be generated only for a tree in which every use has a resolution and every class a
layout.
-/

namespace ClassLet

inductive CodeFault where
  | unresolved (name : String)
  | noLayout (className : String)
  | incompleteTree
deriving DecidableEq, Repr, Inhabited

abbrev CodeError :=
  Located CodeFault

namespace CodeFault

def message : CodeFault → String
  | unresolved name => s!"`{name}` has no resolved binding"
  | noLayout className => s!"class `{className}` has no computed layout"
  | incompleteTree => "syntax tree is incomplete"

end CodeFault

end ClassLet
