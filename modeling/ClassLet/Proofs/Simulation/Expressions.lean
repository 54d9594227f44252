import ClassLet.Proofs.Simulation.Calls

/-!
# Expressions

The code of an expression follows its evaluation. A run may be bounded only where nothing has been
declared: an expression then needs no more stack cells than it has nodes, and no heap.

Main statement: `Expr.follows`.
-/

namespace ClassLet

namespace Expr

mutual

/-- The number of nodes of an expression. -/
def nodes : Expr → Nat
  | .int .. => 1
  | .bool .. => 1
  | .null _ => 1
  | .missing _ => 1
  | .name .. => 1
  | .call _ _ args _ => 1 + nodesAll args
  | .methodCall _ _ _ args _ _ => 1 + nodesAll args
  | .construct _ _ args _ => 1 + nodesAll args
  | .ifElse _ condition whenTrue whenFalse =>
      1 + (condition.nodes + whenTrue.nodes + whenFalse.nodes)
  | .not _ operand => 1 + operand.nodes
  | .binary _ _ left right => 1 + (left.nodes + right.nodes)
  | .print _ operand => 1 + operand.nodes
termination_by structural e => e

def nodesAll : List Expr → Nat
  | [] => 0
  | e :: es => e.nodes + nodesAll es
termination_by structural es => es

end

theorem nodes_pos (e : Expr) : 0 < e.nodes := by
  cases e <;> unfold nodes <;> omega

theorem length_of_haveTypes {k : Hierarchy} {env : Environment} {es : List Expr} {tys : List Ty}
    (h : HaveTypes k env es tys) : es.length = tys.length := by
  induction es generalizing tys with
  | nil =>
      cases h
      rfl
  | cons e es ih =>
      cases h with
      | cons _ _ hrest => rw [List.length_cons, List.length_cons, ih hrest]

end Expr

/-!
# Notes of linking
-/

namespace Environment

variable {env : Environment}

theorem resolve_of_lookup? {id : Ident} {b : Binding} (h : env.scopes.lookup? id.name = some b) :
    env.resolve id = .ok { binding := b, useLevel := env.scopes.level } := by
  unfold resolve ScopeStack.resolve
  rw [h]

theorem methodEntry_of_member? {object method : Ident} {className : String} {table : MemberTable}
    {member : Binding} {signature : Signature} (htable : env.classes.find? className = some table)
    (hmember : table.member? method.name = some member) (hty : member.ty = .method signature) :
    env.methodEntry object method (.ref className) = .ok member := by
  have hmethod : table.method? method.name = some member := by
    rw [MemberTable.method?, hmember, Option.filter_some, hty]
    rfl
  simp only [methodEntry, Ty.className?, htable, Option.bind_some, hmethod]

theorem constructed_of_find? {id : Ident} {table : MemberTable}
    (h : env.classes.find? id.name = some table) :
    env.constructed id = .ok (env.scopes.lookupOutermost? id.name) := by
  have hcontains : env.classes.contains id.name = true := by
    rw [NameMap.contains, h]
    rfl
  rw [constructed, if_pos hcontains]

end Environment

/-!
# Expressions
-/

namespace Expr

variable {w : World} {fuel : Nat} {p : Place}

mutual

theorem follows (hbodies : BodiesFollow w fuel) :
    ∀ (e : Expr) (bound : Bound) (ty : Ty) (n : Nat), bound = none ∨ p.env = .start →
      HasType w.hierarchy p.env e ty →
      Follows w bound fuel p e.nodes ((e.link p.env).code (w.context p.inside) n)
        (e.eval (Body.eval fuel) p.visible) ty
  | .int pos value, bound, ty, n, hopen, h => by
      cases h
      exact Follows.push value fun _ => Fits.int value
  | .bool pos value, bound, ty, n, hopen, h => by
      cases h
      exact Follows.push _ fun _ => Fits.truth value
  | .null pos, bound, ty, n, hopen, h => by
      cases h
      exact Follows.push _ fun _ => Fits.null
  | .missing pos, bound, ty, n, hopen, h => by
      cases h
  | .name id target, bound, ty, n, hopen, h => by
      cases h with
      | name hb hsignature hlayout =>
          rcases hopen with rfl | hstart
          · unfold link code
            rw [Environment.resolve_of_lookup? hb]
            exact Follows.name hb hsignature hlayout
          · rw [hstart, Environment.lookup?_start] at hb
            cases hb
  | .call pos callee args target, bound, ty, n, hopen, h => by
      cases h with
      | call hb hsignature hargs =>
          rcases hopen with rfl | hstart
          · unfold link code
            rw [Environment.resolve_of_lookup? hb]
            exact Follows.call hbodies hb hsignature (followsReversed hbodies args _ n hargs)
          · rw [hstart, Environment.lookup?_start] at hb
            cases hb
  | .methodCall pos object method args receiver entry, bound, ty, n, hopen, h => by
      cases h with
      | methodCall hb hty htable hmember hmethod hargs =>
          rcases hopen with rfl | hstart
          · unfold link
            simp only [Environment.resolve_of_lookup? hb, hty,
              Environment.methodEntry_of_member? htable hmember hmethod]
            unfold code
            exact Follows.methodCall hbodies hb hty htable hmember hmethod
              (followsReversed hbodies args _ n hargs)
          · rw [hstart, Environment.lookup?_start] at hb
            cases hb
  | .construct pos className args target, bound, ty, n, hopen, h => by
      cases h with
      | construct htable hb hlayout hargs =>
          rcases hopen with rfl | hstart
          · unfold link
            simp only [Environment.constructed_of_find? htable, hb]
            unfold code
            refine Follows.construct htable hb hlayout (followsAll hbodies args _ n hargs) ?_
            rw [length_linkAll, length_of_haveTypes hargs]
          · rw [hstart, Environment.find?_start] at htable
            cases htable
  | .ifElse pos condition whenTrue whenFalse, bound, ty, n, hopen, h => by
      cases h with
      | ifElse hcondition hbool htrue hfalse hleft hright =>
          unfold link code
          exact Follows.ifElse n (follows hbodies condition _ _ _ hopen hcondition)
            condition.nodes_pos (follows hbodies whenTrue _ _ _ hopen htrue)
            (follows hbodies whenFalse _ _ _ hopen hfalse) whenFalse.nodes_pos hleft hright
  | .not pos operand, bound, ty, n, hopen, h => by
      cases h with
      | not hoperand hbool =>
          unfold link code
          exact Follows.not _ (follows hbodies operand _ _ _ hopen hoperand) operand.nodes_pos
  | .binary pos op left right, bound, ty, n, hopen, h => by
      cases h with
      | binary hleft hright hoperands =>
          have hfollowsLeft := fun n => follows hbodies left _ _ n hopen hleft
          have hfollowsRight := fun n => follows hbodies right _ _ n hopen hright
          unfold link code
          cases hop : op.isLogical with
          | true =>
              rw [if_pos rfl]
              exact Follows.logical hop n (hfollowsLeft _) left.nodes_pos (hfollowsRight _)
                right.nodes_pos
          | false =>
              rw [if_neg Bool.false_ne_true]
              exact Follows.binary hop _ (hfollowsLeft _) left.nodes_pos (hfollowsRight _)
                right.nodes_pos
  | .print pos operand, bound, ty, n, hopen, h => by
      cases h with
      | print hoperand =>
          unfold link code
          exact Follows.print (follows hbodies operand _ _ _ hopen hoperand)
termination_by structural e => e

theorem followsAll (hbodies : BodiesFollow w fuel) :
    ∀ (es : List Expr) (tys : List Ty) (n : Nat), HaveTypes w.hierarchy p.env es tys →
      FollowsAll w fuel p List.reverse (codeAll (w.context p.inside) n (linkAll p.env es))
        (evalAll (Body.eval fuel) p.visible es) tys
  | [], tys, n, h => by
      cases h
      exact FollowsAll.nil _ rfl
  | e :: es, tys, n, h => by
      cases h with
      | cons he hbelow hrest =>
          unfold linkAll codeAll
          exact FollowsAll.inOrder (follows hbodies e none _ _ (Or.inl rfl) he) hbelow
            (followsAll hbodies es _ _ hrest)
termination_by structural es => es

theorem followsReversed (hbodies : BodiesFollow w fuel) :
    ∀ (es : List Expr) (tys : List Ty) (n : Nat), HaveTypes w.hierarchy p.env es tys →
      FollowsAll w fuel p id (codeReversed (w.context p.inside) n (linkAll p.env es))
        (evalReversed (Body.eval fuel) p.visible es) tys
  | [], tys, n, h => by
      cases h
      exact FollowsAll.nil _ rfl
  | e :: es, tys, n, h => by
      cases h with
      | cons he hbelow hrest =>
          unfold linkAll codeReversed
          exact FollowsAll.reversed (follows hbodies e none _ _ (Or.inl rfl) he) hbelow
            (followsReversed hbodies es _ _ hrest)
termination_by structural es => es

end

end Expr

end ClassLet
