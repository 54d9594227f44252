import ClassLet.Linkage.Environment

/-!
# Linking expressions

An expression declares nothing, so all its parts are linked in the environment of the whole.
Linking fills in the notes of the uses, and the errors are listed in the order of the uses.
-/

namespace ClassLet

namespace Expr

mutual

def link (env : Environment) : Expr → Expr
  | .int pos value => .int pos value
  | .bool pos value => .bool pos value
  | .null pos => .null pos
  | .missing pos => .missing pos
  | .name id _ => .name id (env.resolve id).toOption
  | .call pos callee args _ =>
      .call pos callee (linkAll env args) (env.resolve callee).toOption
  | .methodCall pos object method args _ entry =>
      match env.resolve object with
      | .error _ => .methodCall pos object method (linkAll env args) none entry
      | .ok receiver =>
          .methodCall pos object method (linkAll env args) (some receiver)
            (env.methodEntry object method receiver.binding.ty).toOption
  | .construct pos className args target =>
      .construct pos className (linkAll env args)
        (match env.constructed className with
        | .ok found => found
        | .error _ => target)
  | .ifElse pos condition whenTrue whenFalse =>
      .ifElse pos (condition.link env) (whenTrue.link env) (whenFalse.link env)
  | .not pos operand => .not pos (operand.link env)
  | .binary pos op left right => .binary pos op (left.link env) (right.link env)
  | .print pos operand => .print pos (operand.link env)

def linkAll (env : Environment) : List Expr → List Expr
  | [] => []
  | e :: es => e.link env :: linkAll env es

end

mutual

def linkErrors (env : Environment) : Expr → List LinkError
  | .int .. => []
  | .bool .. => []
  | .null _ => []
  | .missing _ => []
  | .name id _ => errorOf (env.resolve id)
  | .call _ callee args _ => errorOf (env.resolve callee) ++ linkErrorsAll env args
  | .methodCall _ object method args _ _ =>
      errorOf (env.resolve object >>= fun receiver =>
          env.methodEntry object method receiver.binding.ty) ++
        linkErrorsAll env args
  | .construct _ className args _ =>
      errorOf (env.constructed className) ++ linkErrorsAll env args
  | .ifElse _ condition whenTrue whenFalse =>
      condition.linkErrors env ++ whenTrue.linkErrors env ++ whenFalse.linkErrors env
  | .not _ operand => operand.linkErrors env
  | .binary _ _ left right => left.linkErrors env ++ right.linkErrors env
  | .print _ operand => operand.linkErrors env

def linkErrorsAll (env : Environment) : List Expr → List LinkError
  | [] => []
  | e :: es => e.linkErrors env ++ linkErrorsAll env es

end

end Expr

end ClassLet
