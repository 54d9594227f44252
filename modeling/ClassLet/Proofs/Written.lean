import ClassLet.Program

/-!
# Programs as they are written

The nodes of a program before linking: all notes are empty. Programs that only serve to show that
a statement is not void need no positions, so all nodes stand at the same one.
-/

namespace ClassLet

namespace Written

def start : Position :=
  .startOf 1

def ident (name : String) : Ident :=
  { name, pos := start }

def type (ty : Ty) : TypeRef :=
  { ty, pos := start }

def header (name : String) (params : List (String × Ty)) (result : Ty) : Header :=
  { pos := start
    id := ident name
    params := params.map fun p => { id := ident p.1, ty := type p.2, binding := none }
    result := type result }

def method (name : String) (params : List (String × Ty)) (result : Ty) (body : Body) : Method :=
  ⟨header name params result, body, none⟩

def classOf (name : String) (super : Option String) (fields : List (String × Ty))
    (methods : List Method) : Decl :=
  .classDef
    { pos := start
      id := ident name
      super := super.map ident
      fields := fields.map fun f => { id := ident f.1, ty := type f.2, offset := none }
      binding := none
      layout := none
      superLayout := none }
    methods

end Written

end ClassLet
