import ClassLet.Program

/-!
# Missing parts

Where the program text had no usable expression, a tree has a missing part. Here it is decided
whether a tree has one at any depth.
-/

namespace ClassLet

namespace Expr

mutual

def hasMissing : Expr → Bool
  | .int .. => false
  | .bool .. => false
  | .null _ => false
  | .missing _ => true
  | .name .. => false
  | .call _ _ args _ => hasMissingAll args
  | .methodCall _ _ _ args _ _ => hasMissingAll args
  | .construct _ _ args _ => hasMissingAll args
  | .ifElse _ condition whenTrue whenFalse =>
      condition.hasMissing || whenTrue.hasMissing || whenFalse.hasMissing
  | .not _ operand => operand.hasMissing
  | .binary _ _ left right => left.hasMissing || right.hasMissing
  | .print _ operand => operand.hasMissing

def hasMissingAll : List Expr → Bool
  | [] => false
  | e :: es => e.hasMissing || hasMissingAll es

end

end Expr

mutual

def Decl.hasMissing : Decl → Bool
  | .var _ _ _ init _ => init.hasMissing
  | .function _ body _ => body.hasMissing
  | .classDef _ methods => Method.hasMissingAll methods

def Body.hasMissing : Body → Bool
  | ⟨locals, result⟩ => Decl.hasMissingAll locals || result.hasMissing

def Method.hasMissing : Method → Bool
  | ⟨_, body, _⟩ => body.hasMissing

def Decl.hasMissingAll : List Decl → Bool
  | [] => false
  | d :: ds => d.hasMissing || Decl.hasMissingAll ds

def Method.hasMissingAll : List Method → Bool
  | [] => false
  | m :: ms => m.hasMissing || Method.hasMissingAll ms

end

namespace Program

def hasMissing (p : Program) : Bool :=
  Decl.hasMissingAll p.decls || p.body.hasMissing

end Program

end ClassLet
