import ClassLet.NameMap
import ClassLet.Storage

/-!
# Member tables

The table of a class names all its members, inherited ones included. The table of a subclass
starts as the table of its superclass; declaring a member again keeps its place and replaces its
type, so code written for the superclass finds every member where it expects it.
-/

namespace ClassLet

structure DispatchEntry where
  name : String
  signature : Signature
deriving DecidableEq, Inhabited

inductive KindClash where
  | fieldOverMethod
  | methodOverField
deriving DecidableEq, Repr, Inhabited

/-- The place of a known member, in a list that has no such place. -/
structure MissingPlace where
  offset : Int
  size : Nat
deriving DecidableEq, Repr, Inhabited

/-- Why a member is not added. A clash is an answer to the caller; a missing place is a failure of
the table itself, which ends whatever is under way. -/
inductive MemberFault where
  | clash (kind : KindClash)
  | missing (place : MissingPlace)
deriving DecidableEq, Repr, Inhabited

namespace MemberFault

/-- The clash that a client reports who knows of clashes only. Only a field that is taken for a
method has no place among the methods. -/
def reported : MemberFault → KindClash
  | clash kind => kind
  | missing _ => .methodOverField

instance {α : Type} : Coe (Except MemberFault α) (Except KindClash α) :=
  ⟨Except.mapError reported⟩

end MemberFault

structure MemberTable where
  members : NameMap Binding
  dispatch : List DispatchEntry
  fields : List Ty
deriving Inhabited

/-- The position of a field among the fields of its class; only fields have negative offsets. -/
def fieldPosition? (offset : Int) : Option Nat :=
  if offset < 0 then some (-offset - 1).toNat else none

/-- The position of a method in the dispatch table. -/
def slotPosition? (offset : Int) : Option Nat :=
  if 0 ≤ offset then some offset.toNat else none

/-- Puts an item where the offset says, if the list has that place. -/
def replaceAt {α : Type} (items : List α) (position? : Int → Option Nat) (offset : Int)
    (item : α) : Except MemberFault (List α) :=
  match (position? offset).filter (· < items.length) with
  | some i => .ok (items.set i item)
  | none => .error (.missing { offset, size := items.length })

namespace MemberTable

def empty : MemberTable :=
  { members := NameMap.empty, dispatch := [], fields := [] }

def member? (t : MemberTable) (name : String) : Option Binding :=
  t.members.find? name

/-- The entry of a method, if the name is one of a method. -/
def method? (t : MemberTable) (name : String) : Option Binding :=
  (t.member? name).filter fun b => b.ty.isMethod

def layout (t : MemberTable) (name : String) : ClassLayout :=
  { name, fields := t.fields, methods := t.dispatch.map DispatchEntry.signature }

/-!
# Adding members

A member whose type is a method is taken for a method, any other for a field. The offset of a
field that is taken for a method is no slot, so no method can be declared in its place.
-/

def bindField (t : MemberTable) (name : String) (ty : Ty) (offset : Int) (fields : List Ty) :
    MemberTable :=
  let entry : Binding := { level := objectLevel, ty, offset }
  { t with members := t.members.insert name entry, fields }

/-- The offset of the field and the table that holds it. -/
def addField (t : MemberTable) (name : String) (ty : Ty) :
    Except MemberFault (Int × MemberTable) :=
  match t.member? name with
  | some known =>
      if known.ty.isMethod then
        .error (.clash .fieldOverMethod)
      else do
        let fields ← replaceAt t.fields fieldPosition? known.offset ty
        return (known.offset, t.bindField name ty known.offset fields)
  | none =>
      let fields := t.fields ++ [ty]
      let offset : Int := -(fields.length : Int)
      .ok (offset, t.bindField name ty offset fields)

def bindMethod (t : MemberTable) (name : String) (signature : Signature) (slot : Nat)
    (dispatch : List DispatchEntry) : MemberTable :=
  let entry : Binding := { level := objectLevel, ty := .method signature, offset := slot }
  { t with members := t.members.insert name entry, dispatch }

/-- The slot of the method and the table that holds it. -/
def addMethod (t : MemberTable) (name : String) (signature : Signature) :
    Except MemberFault (Nat × MemberTable) :=
  match t.member? name with
  | some known =>
      if known.ty.isMethod then do
        let dispatch ← replaceAt t.dispatch slotPosition? known.offset { name, signature }
        let slot := known.offset.toNat
        return (slot, t.bindMethod name signature slot dispatch)
      else
        .error (.clash .methodOverField)
  | none =>
      let slot := t.dispatch.length
      .ok (slot, t.bindMethod name signature slot (t.dispatch ++ [{ name, signature }]))

end MemberTable

/-!
# The tables of all classes
-/

/-- The member tables of the classes declared so far. -/
abbrev ClassTables :=
  NameMap MemberTable

end ClassLet
