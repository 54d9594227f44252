/-!
# Types

The types of the language and their written forms. A boolean is also an integer, `null` belongs
to every class, a function has an arrow and a method has an arrow bound inside its class; the name
of a class itself has the layout of the class as its type.

Main statement: equality of types is decidable, by comparing them part by part.
-/

namespace ClassLet

mutual

inductive Ty where
  | int
  | bool
  | null
  | ref (name : String)
  | arrow (signature : Signature)
  | method (signature : Signature)
  | layout (members : ClassLayout)

/-- What a function or method takes and gives back. -/
structure Signature where
  params : List Ty
  result : Ty

/-- All members of a class, the inherited ones first: `fields[i]` is stored `i + 1` cells below
the object, and `methods[s]` is dispatched through slot `s`. -/
structure ClassLayout where
  name : String
  fields : List Ty
  methods : List Signature

end

deriving instance Inhabited for Ty
deriving instance Inhabited for Signature
deriving instance Inhabited for ClassLayout

/-!
# Equality
-/

mutual

def Ty.same : Ty → Ty → Bool
  | .int, .int => true
  | .bool, .bool => true
  | .null, .null => true
  | .ref a, .ref b => a == b
  | .arrow s, .arrow t => Signature.same s t
  | .method s, .method t => Signature.same s t
  | .layout a, .layout b => ClassLayout.same a b
  | _, _ => false
termination_by structural t => t

def Signature.same : Signature → Signature → Bool
  | ⟨ps, r⟩, ⟨qs, s⟩ => Ty.sameAll ps qs && Ty.same r s
termination_by structural t => t

def ClassLayout.same : ClassLayout → ClassLayout → Bool
  | ⟨n, fs, ms⟩, ⟨k, gs, ns⟩ => n == k && Ty.sameAll fs gs && Signature.sameAll ms ns
termination_by structural t => t

def Ty.sameAll : List Ty → List Ty → Bool
  | [], [] => true
  | t :: ts, u :: us => Ty.same t u && Ty.sameAll ts us
  | _, _ => false
termination_by structural t => t

def Signature.sameAll : List Signature → List Signature → Bool
  | [], [] => true
  | s :: ss, t :: ts => Signature.same s t && Signature.sameAll ss ts
  | _, _ => false
termination_by structural t => t

end

mutual

theorem Ty.same_iff : ∀ t u : Ty, Ty.same t u = true ↔ t = u
  | .int, u => by cases u <;> simp [Ty.same]
  | .bool, u => by cases u <;> simp [Ty.same]
  | .null, u => by cases u <;> simp [Ty.same]
  | .ref a, u => by cases u <;> simp [Ty.same]
  | .arrow s, u => by cases u <;> simp [Ty.same, Signature.same_iff s]
  | .method s, u => by cases u <;> simp [Ty.same, Signature.same_iff s]
  | .layout a, u => by cases u <;> simp [Ty.same, ClassLayout.same_iff a]

theorem Signature.same_iff : ∀ s t : Signature, Signature.same s t = true ↔ s = t
  | ⟨ps, r⟩, ⟨qs, s⟩ => by simp [Signature.same, Ty.sameAll_iff ps, Ty.same_iff r]

theorem ClassLayout.same_iff : ∀ a b : ClassLayout, ClassLayout.same a b = true ↔ a = b
  | ⟨n, fs, ms⟩, ⟨k, gs, ns⟩ => by
      simp [ClassLayout.same, Ty.sameAll_iff fs, Signature.sameAll_iff ms, and_assoc]

theorem Ty.sameAll_iff : ∀ ts us : List Ty, Ty.sameAll ts us = true ↔ ts = us
  | [], us => by cases us <;> simp [Ty.sameAll]
  | t :: ts, us => by cases us <;> simp [Ty.sameAll, Ty.same_iff t, Ty.sameAll_iff ts]

theorem Signature.sameAll_iff : ∀ ss ts : List Signature, Signature.sameAll ss ts = true ↔ ss = ts
  | [], ts => by cases ts <;> simp [Signature.sameAll]
  | s :: ss, ts => by
      cases ts <;> simp [Signature.sameAll, Signature.same_iff s, Signature.sameAll_iff ss]

end

instance : DecidableEq Ty :=
  fun t u => decidable_of_iff _ (Ty.same_iff t u)

instance : DecidableEq Signature :=
  fun s t => decidable_of_iff _ (Signature.same_iff s t)

instance : DecidableEq ClassLayout :=
  fun a b => decidable_of_iff _ (ClassLayout.same_iff a b)

/-!
# Written form
-/

mutual

def Ty.text : Ty → String
  | .int => "int"
  | .bool => "bool"
  | .null => "null"
  | .ref name => name
  | .arrow s => s.text
  | .method s => "method " ++ s.text
  | .layout members => "class " ++ members.name

def Signature.text : Signature → String
  | ⟨ps, r⟩ => "(" ++ ", ".intercalate (Ty.texts ps) ++ ") -> " ++ r.text

def Ty.texts : List Ty → List String
  | [] => []
  | t :: ts => t.text :: Ty.texts ts

end

/-!
# Parts of a type
-/

namespace Signature

def arity (s : Signature) : Nat :=
  s.params.length

end Signature

namespace Ty

/-- The signature of something that can be called. -/
def signature? : Ty → Option Signature
  | .arrow s => some s
  | .method s => some s
  | _ => none

def isCallable (t : Ty) : Bool :=
  t.signature?.isSome

/-- The class of an object reference. -/
def className? : Ty → Option String
  | .ref name => some name
  | _ => none

def isMethod : Ty → Bool
  | .method _ => true
  | _ => false

end Ty

/-!
# Classes a type refers to

References are listed in the order in which they are written. The layout of a class is no written
type, so its members are not looked into.
-/

mutual

def Ty.classRefs : Ty → List String
  | .ref name => [name]
  | .arrow s => s.classRefs
  | .method s => s.classRefs
  | _ => []

def Signature.classRefs : Signature → List String
  | ⟨ps, r⟩ => Ty.classRefsAll ps ++ r.classRefs

def Ty.classRefsAll : List Ty → List String
  | [] => []
  | t :: ts => t.classRefs ++ Ty.classRefsAll ts

end

end ClassLet
