import ClassLet.NameMap

/-!
# Class hierarchies

A hierarchy records for each class the superclass it was last declared with. Nothing keeps the
declarations from running in a circle, so the walk towards the root is cut as soon as it has
visited one class more than there are declarations: by then a circle has been walked around.
-/

namespace ClassLet

structure Hierarchy where
  supers : NameMap String
deriving Inhabited

namespace Hierarchy

def empty : Hierarchy :=
  { supers := NameMap.empty }

def declare (h : Hierarchy) (name super : String) : Hierarchy :=
  { supers := h.supers.insert name super }

def superclass? (h : Hierarchy) (name : String) : Option String :=
  h.supers.find? name

/-- Declares a list of edges, each a class with its superclass, from left to right. -/
def declareAll (h : Hierarchy) (edges : List (String × String)) : Hierarchy :=
  edges.foldl (fun h edge => h.declare edge.1 edge.2) h

def walk (h : Hierarchy) : Nat → String → List String
  | 0, _ => []
  | steps + 1, name =>
      name ::
        match h.superclass? name with
        | none => []
        | some super => h.walk steps super

/-- A class, its superclass, the superclass of that one, and so on. -/
def ancestors (h : Hierarchy) (name : String) : List String :=
  h.walk (h.supers.size + 1) name

theorem superclass?_declare (h : Hierarchy) (name super k : String) :
    (h.declare name super).superclass? k =
      if k = name then some super else h.superclass? k :=
  NameMap.find?_insert h.supers name super k

@[simp]
theorem declareAll_nil (h : Hierarchy) : h.declareAll [] = h :=
  rfl

theorem declareAll_append (h : Hierarchy) (xs ys : List (String × String)) :
    h.declareAll (xs ++ ys) = (h.declareAll xs).declareAll ys :=
  List.foldl_append

theorem mem_ancestors_self (h : Hierarchy) (name : String) : name ∈ h.ancestors name := by
  simp [ancestors, walk]

end Hierarchy

end ClassLet
