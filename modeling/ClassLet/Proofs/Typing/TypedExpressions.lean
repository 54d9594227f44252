import ClassLet.Proofs.Generation.CompleteTrees
import ClassLet.Proofs.Hierarchy.CommonSupertypes
import ClassLet.Proofs.Members.Overrides

/-!
# Typed expressions

The rules that an expression keeps to if it has been linked and checked without errors: every name
in it is bound, and the type of each part is below what its place asks for. Checking may happen
before all classes are known; the rules are stated for a hierarchy with all of them.

Main statements: `Expr.hasType_of_type` and `Expr.hasType_of_checked`.
-/

namespace ClassLet

namespace BinaryOp

def operandType : BinaryOp → Option Ty
  | eq => none
  | and | or => some .bool
  | _ => some .int

def resultType : BinaryOp → Ty
  | add | sub | mul | div => .int
  | _ => .bool

end BinaryOp

namespace Expr

mutual

inductive HasType (k : Hierarchy) (env : Environment) : Expr → Ty → Prop where
  | int (pos : Position) (value : Int32) : HasType k env (.int pos value) .int
  | bool (pos : Position) (value : Bool) : HasType k env (.bool pos value) .bool
  | null (pos : Position) : HasType k env (.null pos) .null
  | name {id : Ident} {target : Option Resolution} {b : Binding} :
      env.scopes.lookup? id.name = some b →
      b.ty.signature? = none →
      (∀ members, b.ty ≠ .layout members) →
      HasType k env (.name id target) b.ty
  | call {pos : Position} {callee : Ident} {args : List Expr} {target : Option Resolution}
      {b : Binding} {signature : Signature} :
      env.scopes.lookup? callee.name = some b →
      b.ty.signature? = some signature →
      HaveTypes k env args signature.params →
      HasType k env (.call pos callee args target) signature.result
  | methodCall {pos : Position} {object method : Ident} {args : List Expr}
      {receiver : Option Resolution} {entry : Option Binding} {b member : Binding}
      {className : String} {table : MemberTable} {signature : Signature} :
      env.scopes.lookup? object.name = some b →
      b.ty = .ref className →
      env.classes.find? className = some table →
      table.member? method.name = some member →
      member.ty = .method signature →
      HaveTypes k env args signature.params →
      HasType k env (.methodCall pos object method args receiver entry) signature.result
  | construct {pos : Position} {className : Ident} {args : List Expr} {target : Option Binding}
      {table : MemberTable} {b : Binding} {layout : ClassLayout} :
      env.classes.find? className.name = some table →
      env.scopes.lookupOutermost? className.name = some b →
      b.ty = .layout layout →
      HaveTypes k env args layout.fields →
      HasType k env (.construct pos className args target) (.ref layout.name)
  | ifElse {pos : Position} {condition whenTrue whenFalse : Expr} {found left right ty : Ty} :
      HasType k env condition found →
      k.isSubtype found .bool = true →
      HasType k env whenTrue left →
      HasType k env whenFalse right →
      k.isSubtype left ty = true →
      k.isSubtype right ty = true →
      HasType k env (.ifElse pos condition whenTrue whenFalse) ty
  | not {pos : Position} {operand : Expr} {found : Ty} :
      HasType k env operand found →
      k.isSubtype found .bool = true →
      HasType k env (.not pos operand) .bool
  | binary {pos : Position} {op : BinaryOp} {left right : Expr} {leftType rightType : Ty} :
      HasType k env left leftType →
      HasType k env right rightType →
      (∀ ty ∈ op.operandType, k.isSubtype leftType ty = true ∧ k.isSubtype rightType ty = true) →
      HasType k env (.binary pos op left right) op.resultType
  | print {pos : Position} {operand : Expr} {ty : Ty} :
      HasType k env operand ty →
      HasType k env (.print pos operand) ty

/-- The types of arguments are below those of the parameters. -/
inductive HaveTypes (k : Hierarchy) (env : Environment) : List Expr → List Ty → Prop where
  | nil : HaveTypes k env [] []
  | cons {e : Expr} {es : List Expr} {found ty : Ty} {tys : List Ty} :
      HasType k env e found →
      k.isSubtype found ty = true →
      HaveTypes k env es tys →
      HaveTypes k env (e :: es) (ty :: tys)

end

end Expr

/-!
# Successful checks
-/

namespace Typed

theorem bind_ok {α β : Type} {found : Typed α} {f : α → Typed β} {b : β}
    (h : (found >>= f) = .ok b) : ∃ a, found = .ok a ∧ f a = .ok b := by
  cases found with
  | error failure => cases h
  | ok a => exact ⟨a, rfl, h⟩

theorem require_ok {holds : Bool} {pos : Position} {cause : TypeFault} {a : Unit}
    (h : require holds pos cause = .ok a) : holds = true := by
  cases holds with
  | true => rfl
  | false => cases h

theorem noted_ok {α : Type} {note : Option α} {a : α} (h : noted note = .ok a) : note = some a := by
  cases note with
  | none => cases h
  | some a' =>
      cases h
      rfl

end Typed

theorem Ty.readAs_ok {ty found : Ty} {id : Ident} (h : ty.readAs id = .ok found) :
    found = ty ∧ ty.signature? = none ∧ ∀ members, ty ≠ .layout members := by
  cases ty <;> cases h <;> exact ⟨rfl, rfl, fun _ heq => nomatch heq⟩

theorem Ty.calledAs_ok {ty : Ty} {pos : Position} {name : String} {signature : Signature}
    (h : ty.calledAs pos name = .ok signature) : ty.signature? = some signature := by
  unfold Ty.calledAs at h
  split at h
  · rename_i hsignature
    cases h
    exact hsignature
  · cases h

theorem Ty.constructedAs_ok {ty : Ty} {pos : Position} {name : String} {layout : ClassLayout}
    (h : ty.constructedAs pos name = .ok layout) : ty = .layout layout := by
  cases ty <;> cases h
  rfl

theorem Hierarchy.binaryType_ok {h : Hierarchy} {pos : Position} {op : BinaryOp}
    {left right ty : Ty} (hok : h.binaryType pos op left right = .ok ty) :
    ty = op.resultType ∧
      ∀ t ∈ op.operandType, h.isSubtype left t = true ∧ h.isSubtype right t = true := by
  cases op <;> rcases Typed.bind_ok hok with ⟨_, hrequire, hty⟩ <;> cases hty <;>
    refine ⟨rfl, ?_⟩ <;> intro t ht <;> cases ht <;>
    exact Bool.and_eq_true_iff.mp (Typed.require_ok hrequire)

theorem Ty.eq_method_of_isMethod {ty : Ty} {signature : Signature} (h : ty.isMethod = true)
    (hsignature : ty.signature? = some signature) : ty = .method signature := by
  cases ty <;> cases h
  cases hsignature
  rfl

theorem Environment.lookup?_of_resolve {env : Environment} {id : Ident} {r : Resolution}
    (h : env.resolve id = .ok r) :
    env.scopes.lookup? id.name = some r.binding ∧ r.useLevel = env.scopes.level := by
  unfold Environment.resolve ScopeStack.resolve at h
  split at h
  · rename_i b hb
    cases h
    exact ⟨hb, rfl⟩
  · cases h

theorem Environment.resolve_ok {env : Environment} {id : Ident}
    (h : errorOf (env.resolve id) = []) :
    ∃ b, env.scopes.lookup? id.name = some b ∧
      env.resolve id = .ok { binding := b, useLevel := env.scopes.level } := by
  unfold Environment.resolve ScopeStack.resolve at h ⊢
  cases hlookup : env.scopes.lookup? id.name with
  | none =>
      rw [hlookup] at h
      cases h
  | some b => exact ⟨b, rfl, rfl⟩

theorem Environment.methodEntry_ok {env : Environment} {object method : Ident} {ty : Ty}
    (h : errorOf (env.methodEntry object method ty) = []) :
    ∃ className table member, ty = .ref className ∧ env.classes.find? className = some table ∧
      table.member? method.name = some member ∧ member.ty.isMethod = true ∧
      env.methodEntry object method ty = .ok member := by
  unfold Environment.methodEntry at h ⊢
  cases ty with
  | ref className =>
      simp only [Ty.className?] at h ⊢
      cases hfind : env.classes.find? className with
      | none =>
          simp only [hfind, Option.bind_none] at h
          cases h
      | some table =>
          simp only [hfind, Option.bind_some] at h ⊢
          cases hmember : table.method? method.name with
          | none =>
              simp only [hmember] at h
              cases h
          | some member =>
              rcases Option.filter_eq_some_iff.mp hmember with ⟨hfound, hmethod⟩
              exact ⟨className, table, member, rfl, hfind, hfound, hmethod, rfl⟩
  | _ => cases h

theorem Environment.constructed_ok {env : Environment} {id : Ident}
    (h : errorOf (env.constructed id) = []) :
    ∃ table, env.classes.find? id.name = some table ∧
      env.constructed id = .ok (env.scopes.lookupOutermost? id.name) := by
  unfold Environment.constructed at h ⊢
  split at h
  · rename_i hcontains
    rcases Option.isSome_iff_exists.mp hcontains with ⟨table, htable⟩
    exact ⟨table, htable, if_pos hcontains⟩
  · cases h

/-!
# Expressions
-/

namespace Expr

variable {k h : Hierarchy}

theorem length_linkAll (env : Environment) (es : List Expr) :
    (linkAll env es).length = es.length := by
  induction es with
  | nil => rfl
  | cons e es ih => simp [linkAll, ih]

theorem requireCount_ok {pos : Position} {callee : Callee} {tys : List Ty} {env : Environment}
    {es : List Expr} {a : Unit} (hok : Typed.requireCount pos callee tys (linkAll env es) = .ok a) :
    es.length = tys.length := by
  have hcount := Typed.require_ok hok
  rw [length_linkAll] at hcount
  exact eq_of_beq hcount

mutual

theorem hasType_of_type (hk : k.Extends h) (env : Environment) :
    ∀ (e : Expr) (ty : Ty), e.linkErrors env = [] → (e.link env).type h = .ok ty →
      HasType k env e ty
  | .int pos value, ty, _, htype => by
      cases htype
      exact HasType.int pos value
  | .bool pos value, ty, _, htype => by
      cases htype
      exact HasType.bool pos value
  | .null pos, ty, _, htype => by
      cases htype
      exact HasType.null pos
  | .missing pos, ty, _, htype => by
      cases htype
  | .name id target, ty, hok, htype => by
      unfold linkErrors at hok
      rcases Environment.resolve_ok hok with ⟨b, hb, hresolve⟩
      unfold link type at htype
      rw [hresolve] at htype
      rcases Ty.readAs_ok htype with ⟨rfl, hsignature, hlayout⟩
      exact HasType.name hb hsignature hlayout
  | .call pos callee args target, ty, hok, htype => by
      unfold linkErrors at hok
      rw [List.append_eq_nil_iff] at hok
      rcases Environment.resolve_ok hok.1 with ⟨b, hb, hresolve⟩
      unfold link type at htype
      rw [hresolve] at htype
      rcases Typed.bind_ok htype with ⟨r, hnoted, htype₁⟩
      cases hnoted
      rcases Typed.bind_ok htype₁ with ⟨signature, hcalled, htype₂⟩
      rcases Typed.bind_ok htype₂ with ⟨_, hcount, htype₃⟩
      rcases Typed.bind_ok htype₃ with ⟨_, hargs, hresult⟩
      cases hresult
      exact HasType.call hb (Ty.calledAs_ok hcalled)
        (haveTypes_of_checkArgs hk env args _ _ _ (requireCount_ok hcount) hok.2 hargs)
  | .methodCall pos object method args receiver entry, ty, hok, htype => by
      unfold linkErrors at hok
      rw [List.append_eq_nil_iff] at hok
      unfold link at htype
      cases hresolve : env.resolve object with
      | error e =>
          rw [hresolve] at hok
          cases hok.1
      | ok r =>
          rw [hresolve] at hok htype
          rcases Environment.lookup?_of_resolve hresolve with ⟨hb, hlevel⟩
          rcases Environment.methodEntry_ok hok.1 with
            ⟨className, table, member, hty, htable, hmember, hmethod, hentry⟩
          simp only [hentry] at htype
          unfold type at htype
          rcases Typed.bind_ok htype with ⟨entry, hnoted, htype₁⟩
          cases hnoted
          rcases Typed.bind_ok htype₁ with ⟨signature, hcalled, htype₂⟩
          rcases Typed.bind_ok htype₂ with ⟨_, hcount, htype₃⟩
          rcases Typed.bind_ok htype₃ with ⟨_, hargs, hresult⟩
          cases hresult
          exact HasType.methodCall hb hty htable hmember
            (Ty.eq_method_of_isMethod hmethod (Ty.calledAs_ok hcalled))
            (haveTypes_of_checkArgs hk env args _ _ _ (requireCount_ok hcount) hok.2 hargs)
  | .construct pos className args target, ty, hok, htype => by
      unfold linkErrors at hok
      rw [List.append_eq_nil_iff] at hok
      rcases Environment.constructed_ok hok.1 with ⟨table, htable, hconstructed⟩
      unfold link type at htype
      rw [hconstructed] at htype
      rcases Typed.bind_ok htype with ⟨b, hnoted, htype₁⟩
      rcases Typed.bind_ok htype₁ with ⟨layout, hlayout, htype₂⟩
      rcases Typed.bind_ok htype₂ with ⟨_, hcount, htype₃⟩
      rcases Typed.bind_ok htype₃ with ⟨_, hargs, hresult⟩
      cases hresult
      exact HasType.construct htable (Typed.noted_ok hnoted) (Ty.constructedAs_ok hlayout)
        (haveTypes_of_checkArgs hk env args _ _ _ (requireCount_ok hcount) hok.2 hargs)
  | .ifElse pos condition whenTrue whenFalse, ty, hok, htype => by
      unfold linkErrors at hok
      rw [List.append_eq_nil_iff, List.append_eq_nil_iff] at hok
      unfold link type at htype
      rcases Typed.bind_ok htype with ⟨found, hcondition, htype₁⟩
      rcases Typed.bind_ok htype₁ with ⟨_, hbool, htype₂⟩
      rcases Typed.bind_ok htype₂ with ⟨left, hleft, htype₃⟩
      rcases Typed.bind_ok htype₃ with ⟨right, hright, hcommon⟩
      split at hcommon
      · rename_i common habove
        cases hcommon
        rcases Hierarchy.commonSupertype?_above habove with ⟨hleftAbove, hrightAbove⟩
        exact HasType.ifElse (hasType_of_type hk env condition _ hok.1.1 hcondition)
          (Hierarchy.isSubtype_mono hk (Typed.require_ok hbool))
          (hasType_of_type hk env whenTrue _ hok.1.2 hleft)
          (hasType_of_type hk env whenFalse _ hok.2 hright)
          (Hierarchy.isSubtype_mono hk hleftAbove) (Hierarchy.isSubtype_mono hk hrightAbove)
      · cases hcommon
  | .not pos operand, ty, hok, htype => by
      unfold linkErrors at hok
      unfold link type at htype
      rcases Typed.bind_ok htype with ⟨found, hoperand, htype₁⟩
      rcases Typed.bind_ok htype₁ with ⟨_, hbool, hresult⟩
      cases hresult
      exact HasType.not (hasType_of_type hk env operand _ hok hoperand)
        (Hierarchy.isSubtype_mono hk (Typed.require_ok hbool))
  | .binary pos op left right, ty, hok, htype => by
      unfold linkErrors at hok
      rw [List.append_eq_nil_iff] at hok
      unfold link type at htype
      rcases Typed.bind_ok htype with ⟨leftType, hleft, htype₁⟩
      rcases Typed.bind_ok htype₁ with ⟨rightType, hright, hbinary⟩
      rcases Hierarchy.binaryType_ok hbinary with ⟨rfl, hoperands⟩
      refine HasType.binary (hasType_of_type hk env left _ hok.1 hleft)
        (hasType_of_type hk env right _ hok.2 hright) ?_
      intro t ht
      exact ⟨Hierarchy.isSubtype_mono hk (hoperands t ht).1,
        Hierarchy.isSubtype_mono hk (hoperands t ht).2⟩
  | .print pos operand, ty, hok, htype => by
      unfold linkErrors at hok
      unfold link type at htype
      exact HasType.print (hasType_of_type hk env operand ty hok htype)
termination_by structural e => e

theorem haveTypes_of_checkArgs (hk : k.Extends h) (env : Environment) :
    ∀ (es : List Expr) (tys : List Ty) (callee : Callee) (index : Nat), es.length = tys.length →
      linkErrorsAll env es = [] → checkArgs h callee index tys (linkAll env es) = .ok () →
      HaveTypes k env es tys
  | [], [], _, _, _, _, _ => HaveTypes.nil
  | e :: es, ty :: tys, callee, index, hlength, hok, hargs => by
      unfold linkErrorsAll at hok
      rw [List.append_eq_nil_iff] at hok
      unfold linkAll checkArgs at hargs
      rcases Typed.bind_ok hargs with ⟨found, he, hargs₁⟩
      rcases Typed.bind_ok hargs₁ with ⟨_, hbelow, hrest⟩
      exact HaveTypes.cons (hasType_of_type hk env e _ hok.1 he)
        (Hierarchy.isSubtype_mono hk (Typed.require_ok hbelow))
        (haveTypes_of_checkArgs hk env es tys callee (index + 1) (by simpa using hlength) hok.2
          hrest)
termination_by structural es => es

end

/-- An expression that was checked against a type has a type below it. -/
theorem hasType_of_checked (hk : k.Extends h) {env : Environment} {e : Expr} {ty : Ty}
    {pos : Position} {cause : Ty → TypeFault} (hok : e.linkErrors env = [])
    (hcomplete : (e.link env).Complete)
    (hfree : ErrorFree (failureOf ((e.link env).type h >>= fun found =>
      Typed.require (h.isSubtype found ty) pos (cause found)))) :
    ∃ found, HasType k env e found ∧ k.isSubtype found ty = true := by
  have hproper : ((e.link env).type h >>= fun found =>
      Typed.require (h.isSubtype found ty) pos (cause found)).Proper :=
    Typed.Proper.bind (type_proper h _ hcomplete) fun _ => Typed.Proper.require _ _ _
  have hchecked := hproper.errorFree fun error heq => by
    rw [heq] at hfree
    exact nomatch hfree _ List.mem_cons_self
  rcases hchecked with ⟨_, hchecked⟩
  rcases Typed.bind_ok hchecked with ⟨found, htype, hbelow⟩
  exact ⟨found, hasType_of_type hk env e found hok htype,
    Hierarchy.isSubtype_mono hk (Typed.require_ok hbelow)⟩

end Expr

end ClassLet
