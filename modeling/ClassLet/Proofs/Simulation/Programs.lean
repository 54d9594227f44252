import ClassLet.Proofs.Generation.BodyNumbers
import ClassLet.Proofs.Simulation.Classes

/-!
# Programs

A program that is compiled does what its evaluation does: its declarations leave their cells in the
top-level frame, its body leaves a value on top of them, and the machine halts.

Main statement: `Outcome.program`.
-/

namespace ClassLet

namespace Config

/-- Nothing has been executed yet. -/
def start (base : Int32) : Config :=
  { ip := 0, stack := [], heap := [], hp := 0, fp := base, ra := 0, tm := 0, output := []
    calls := [] }

/-- The next instruction is `halt`, and the value is on top of the stack. -/
structure Halting (w : World) (bound : Bound) (ty : Ty) (v : Int32) (st : Store) (c : Config) :
    Prop where
  code : CodeAt w.im.listing c.ip [.bare .halt]
  stack : ∃ rest, c.stack = v :: rest
  fits : ∃ floor, Matches w bound floor c st ∧ Fits w (c.snapshot st floor) ty v

end Config

namespace Program

/-- What does not change during a run of a program. -/
def world (p : Program) (hlink : p.link.errors = []) (htyping : p.link.program.typing.errors = [])
    {memorySize : Nat} (haddressable : isAddressable memorySize = true) {im : Image}
    [im.Addressable] (hnumbered : im.Numbered p.arities) (labels : DispatchLabels) : World where
  im := im
  returns := hnumbered.returns
  memorySize := memorySize
  addressable := haddressable
  tables := p.link.classes
  hierarchy := p.link.program.typing.hierarchy
  settled := ⟨_, settled hlink htyping, rfl⟩
  labels := labels

/-- The body of a program that is complete has a type. -/
theorem body_hasType {p : Program} (hlink : p.link.errors = [])
    (htyping : p.link.program.typing.errors = []) (hcomplete : p.link.program.body.Complete) :
    ∃ ty, p.link.program.typing.bodyType = some ty ∧
      Expr.HasType p.link.program.typing.hierarchy (Environment.start.afterAll p.decls) p.body
        ty := by
  have hfree := (ErrorFree.append_iff.mp (Typing.errorFree htyping)).2
  simp only [link, List.append_eq_nil_iff] at hlink
  have hchecked := (Expr.type_proper p.link.program.typing.hierarchy _ hcomplete).errorFree
    fun error heq => by
      have hnone := (heq ▸ hfree) _ List.mem_cons_self
      cases hnone
  rcases hchecked with ⟨ty, hty⟩
  refine ⟨ty, ?_, Expr.hasType_of_type (fun _ _ h => h) _ p.body ty hlink.2 hty⟩
  exact congrArg Except.toOption hty

end Program

variable {w : World} {fuel : Nat} {p : Place} {c : Config} {st : Store}

theorem At.start (w : World) (bound : Bound) :
    At w bound { inside := false, env := .start, visible := [], floor := [] }
      (Config.start w.topBase) Store.empty where
  frames := ⟨[], Frames.start [], List.suffix_rfl⟩
  floor := List.suffix_rfl
  state := {
    heap := rfl
    next := rfl
    room := Nat.zero_le _
    output := rfl
    objects := fun _ _ h => by cases h
    bounded := fun _ => rfl }

/-- A cell in place of a return address has been pushed. -/
theorem Declaring.start (w : World) :
    Declaring w { inside := false, env := .start, visible := [], floor := [] }
      { Config.start w.topBase with ip := 2, stack := [0] } Store.empty where
  frames := Frames.start [0]
  next := by
    show Int32.ofNat w.memorySize + Int32.ofInt (-2) = stackAddress w.memorySize (0 + 1)
    rw [← Int32.ofInt_eq_ofNat, ← Int32.ofInt_add, stackAddress]
    congr 1
  floor := List.nil_suffix
  state := (At.start w none).state.same rfl rfl rfl

/-- The body of a program, in front of `halt`. -/
theorem Outcome.halts {bound : Bound} {body : Expr} {ty : Ty} {n : Nat}
    (hopen : bound = none ∨ p.env = .start) (hinside : p.inside = false)
    (htyped : Expr.HasType w.hierarchy p.env body ty)
    (hcode : CodeAt w.im.listing c.ip
      ((body.link p.env).code (w.context false) n ++ [.bare .halt]))
    (hat : At w bound p c st) (hroom : bound.Room c body.nodes) :
    Outcome w.im w.memorySize bound fuel c (Config.Halting w bound ty)
      ((body.eval (Body.eval fuel) p.visible).run st) := by
  rw [← hinside] at hcode
  refine (Expr.follows (bodiesFollow w fuel) body bound ty n hopen htyped c st hcode.left hat
    hroom).mono ?_
  rintro v st' c' ⟨harrives, hfits⟩
  exact {
    code := harrives.ip ▸ hcode.right
    stack := ⟨_, harrives.stack⟩
    fits := ⟨_, harrives.state, hfits⟩ }

/-- The declarations and the body of a program. -/
theorem Outcome.program {p : Program} (hlink : p.link.errors = [])
    (htyping : p.link.program.typing.errors = [])
    (hhierarchy : w.hierarchy = p.link.program.typing.hierarchy)
    (htables : w.tables = p.link.classes)
    {items : List Item} {ty : Ty} {n : Nat}
    (hcompiled : Decl.CompiledAll w.im.Holds (w.context false) 0 NameMap.empty w.labels
      (Decl.linkAll .start p.decls) items)
    (hcode : CodeAt w.im.listing 0 (p.link.program.mainCode (w.context false) items n))
    (htyped : Expr.HasType w.hierarchy (Environment.start.afterAll p.decls) p.body ty) :
    Outcome w.im w.memorySize none fuel (Config.start w.topBase) (Config.Halting w none ty)
      (p.eval (fuel + 1)) := by
  rcases p with ⟨decls, body, pos⟩
  have hok := hlink
  simp only [Program.link, List.append_eq_nil_iff] at hok
  cases decls with
  | nil =>
      unfold Decl.linkAll Decl.CompiledAll at hcompiled
      rcases hcompiled with ⟨_, rfl⟩
      exact Outcome.halts (Or.inl rfl) rfl htyped hcode (At.start w none) (Bound.room_none _ _)
  | cons d ds =>
      have hchecked := (ErrorFree.append_iff.mp (Typing.errorFree htyping)).1
      have hinner : CodeAt w.im.listing 2 (items ++ (_ ++ [.bare .halt])) := hcode.tail
      refine Outcome.push hcode (Bound.allows_none _) ?_
      refine Outcome.bind ((Declaring.start w).topLevel Settled.start hok.1 hchecked ?_
        KnowsTables.start hcompiled ?_ (fun _ _ h => h) rfl hinner.left) ?_
      · rw [hhierarchy]
        exact fun _ _ h => h
      · rw [htables]
        exact fun _ _ h => h
      · rintro visible st c ⟨floor, hdeclares⟩
        have hrest : CodeAt w.im.listing c.ip _ := hdeclares.ip ▸ hinner.right
        exact Outcome.halts (Or.inl rfl) rfl htyped hrest hdeclares.declaring.at_place
          (Bound.room_none _ _)

end ClassLet
