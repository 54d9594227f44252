import ClassLet.Diagnostic
import ClassLet.Generation
import ClassLet.Linkage
import ClassLet.Typing

/-!
# Compiling programs

A program is linked, the linked program is checked, and code is generated if neither found an
error and the body has a type.
-/

namespace ClassLet

structure Compilation where
  listing : Option Listing
  bodyType : Option Ty
  /-- Whether checking passed over a part of the program. -/
  incomplete : Bool
  /-- The errors of linking, then those of checking, or else the one of generating code. -/
  errors : List Diagnostic
deriving Inhabited

namespace Compilation

def isSuccess (c : Compilation) : Bool :=
  c.errors.isEmpty && c.listing.isSome

end Compilation

namespace Program

def compile (p : Program) (memorySize : Int32) : Compilation :=
  let linked := p.link
  let typing := linked.program.typing
  let errors := linked.errors.map Diagnostic.ofLink ++ typing.errors.map Diagnostic.ofType
  let result : Compilation :=
    { listing := none, bodyType := typing.bodyType, incomplete := typing.isIncomplete, errors }
  if errors.isEmpty && typing.bodyType.isSome then
    match linked.program.generate memorySize with
    | .ok listing => { result with listing := some listing }
    | .error e => { result with errors := [Diagnostic.ofCode e] }
  else
    result

end Program

end ClassLet
