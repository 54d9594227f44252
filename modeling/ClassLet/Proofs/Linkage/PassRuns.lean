import ClassLet.Linkage.Pass
import ClassLet.Proofs.Linkage.NestedDeclarations
import ClassLet.Proofs.Written

/-!
# What the linking pass computes

Every part of the pass takes one environment to another and adds errors behind those found before.
Both are what linking by environments says they are. In particular a body gives back the scopes,
the classes and the class under way as it has got them, whatever it declares and whatever is wrong
with it.

Main statements: `visitBody_does`, `visitDecl_does` and `Program.linkPass_eq`.
-/

namespace ClassLet

/-!
# Missing places
-/

namespace MemberScan

/-- The place that entering a member finds missing. -/
def missing? {α : Type} (scan : MemberScan) (id : Ident)
    (add : MemberTable → Except MemberFault (α × MemberTable)) : Option MissingPlace :=
  if scan.seen.contains id.name then
    none
  else
    match add scan.table with
    | .error (.missing place) => some place
    | _ => none

def missingField? (className : String) : MemberScan → List Field → Option MissingPlace
  | _, [] => none
  | scan, f :: fs =>
      let add (table : MemberTable) := table.addField f.id.name f.ty.ty
      (scan.missing? f.id add).or
        (missingField? className (scan.enter className f.id add).1 fs)

def missingMethod? (className : String) : MemberScan → List Method → Option MissingPlace
  | _, [] => none
  | scan, m :: ms =>
      let add (table : MemberTable) := table.addMethod m.header.id.name m.header.signature
      (scan.missing? m.header.id add).or
        (missingMethod? className (scan.enter className m.header.id add).1 ms)

end MemberScan

namespace Environment

/-- The first place that is missing while a class is laid out. -/
def missingMember? (env : Environment) (header : ClassHeader) (methods : List Method) :
    Option MissingPlace :=
  let start := MemberScan.startingFrom ((env.inherited header).toOption.getD MemberTable.empty)
  let scan := (MemberScan.enterFields header.id.name start header.fields).1
  (start.missingField? header.id.name header.fields).or
    (scan.missingMethod? header.id.name methods)

/-- Only a class at top level is laid out. -/
def missing? (env : Environment) : Decl → Option MissingPlace
  | .classDef header methods =>
      if env.scopes.level = 0 then env.missingMember? header methods else none
  | _ => none

def missingAll? (env : Environment) : List Decl → Option MissingPlace
  | [] => none
  | d :: ds => (env.missing? d).or ((env.after d).missingAll? ds)

end Environment

namespace ScopeStack

theorem level_takeOffset (s : ScopeStack) : s.takeOffset.level = s.level := by
  simp [takeOffset, setInnermost, level]

theorem duplicates_cons (s : ScopeStack) (id : Ident) (binding : Binding)
    (places : List (Ident × Binding)) :
    s.duplicates ((id, binding) :: places) =
      errorOf (s.declare id binding) ++ (s.declareOrKeep id binding).duplicates places := by
  unfold declareOrKeep
  rw [duplicates]
  cases s.declare id binding <;> rfl

end ScopeStack

/-!
# Runs of the pass
-/

namespace LinkPass

variable {α β : Type}

/-- Unless a place is missing, the pass has the result, leaves the second environment and adds the
errors, whatever errors there are already. -/
structure Does (x : LinkPass α) (env : Environment) (missing : Option MissingPlace) (a : α)
    (env' : Environment) (added : List LinkError) : Prop where
  ends : missing = none → ∀ errors, x.run ⟨env, errors⟩ = .ok a ⟨env', errors ++ added⟩
  fails : ∀ place, missing = some place → ∀ errors, ∃ s, x.run ⟨env, errors⟩ = .error place s

namespace Does

variable {env env' env'' : Environment} {missing missing' : Option MissingPlace} {a : α} {b : β}
  {added added' : List LinkError} {x : LinkPass α} {f : α → LinkPass β}

theorem of_run (h : ∀ errors, x.run ⟨env, errors⟩ = .ok a ⟨env', errors ++ added⟩) :
    Does x env none a env' added :=
  ⟨fun _ => h, nofun⟩

theorem of_run_nil (h : ∀ errors, x.run ⟨env, errors⟩ = .ok a ⟨env', errors⟩) :
    Does x env none a env' [] :=
  of_run fun errors => by rw [h, List.append_nil]

theorem pure (env : Environment) (a : α) : Does (Pure.pure a) env none a env [] :=
  of_run_nil fun _ => rfl

theorem bind (h : Does x env missing a env' added)
    (h' : Does (f a) env' missing' b env'' added') :
    Does (x >>= f) env (missing.or missing') b env'' (added ++ added') := by
  cases missing with
  | some place =>
      refine ⟨nofun, fun _ heq errors => ?_⟩
      cases heq
      rcases h.fails place rfl errors with ⟨s, hx⟩
      exact ⟨s, by rw [EStateM.run_bind, hx]⟩
  | none =>
      have hrun : ∀ errors, (x >>= f).run ⟨env, errors⟩ =
          (f a).run ⟨env', errors ++ added⟩ := fun errors => by
        rw [EStateM.run_bind, h.ends rfl]
      refine ⟨fun hnone errors => ?_, fun place hsome errors => ?_⟩
      · rw [hrun, h'.ends hnone, List.append_assoc]
      · rw [hrun]
        exact h'.fails place hsome _

/-- What the first part does not report and what cannot be missing is left out. -/
theorem silent (h : Does x env none a env' [])
    (h' : Does (f a) env' missing b env'' added) : Does (x >>= f) env missing b env'' added :=
  h.bind h'

theorem before (h : Does x env missing a env' added)
    (h' : Does (f a) env' none b env'' added') :
    Does (x >>= f) env missing b env'' (added ++ added') := by
  have hboth := h.bind h'
  rwa [Option.or_none] at hboth

theorem quiet (h : Does x env missing a env' added)
    (h' : Does (f a) env' none b env'' []) : Does (x >>= f) env missing b env'' added := by
  have hboth := h.before h'
  rwa [List.append_nil] at hboth

theorem returns {g : α → β} (h : Does x env missing a env' added) :
    Does (do return g (← x)) env missing (g a) env' added :=
  h.quiet (f := fun v => Pure.pure (g v)) (pure env' (g a))

end Does

/-!
# Effects
-/

section Effects

variable (env : Environment)

theorem environment_does : Does environment env none env env [] :=
  Does.of_run_nil fun _ => rfl

theorem report_does (e : LinkError) : Does (report e) env none () env [e] :=
  Does.of_run fun _ => rfl

theorem attempt_does (result : Except LinkError α) :
    Does (attempt result) env none result.toOption env (errorOf result) := by
  cases result with
  | ok a => exact Does.pure env (some a)
  | error e => exact (report_does env e).bind (Does.pure env none)

theorem setScopes_does (scopes : ScopeStack) :
    Does (setScopes scopes) env none () { env with scopes } [] :=
  Does.of_run_nil fun _ => rfl

theorem setCurrent_does (current : Option String) :
    Does (setCurrent current) env none () { env with current } [] :=
  Does.of_run_nil fun _ => rfl

theorem register_does (name : String) (table : MemberTable) :
    Does (register name table) env none ()
      { env with classes := env.classes.insert name table } [] :=
  Does.of_run_nil fun _ => rfl

theorem pushScope_does (scope : Scope) :
    Does (pushScope scope) env none () { env with scopes := env.scopes.openWith scope } [] :=
  (environment_does env).silent (setScopes_does env _)

/-- What has been pushed is popped, and what was below it is there again. -/
theorem pop_does (scope : Scope) :
    Does pop { env with scopes := env.scopes.openWith scope } none () env [] := by
  refine (environment_does _).silent ?_
  rw [ScopeStack.close?_openWith]
  exact setScopes_does _ env.scopes

theorem pop_scopes : ∃ scopes, Does pop env none () { env with scopes } [] := by
  cases hclose : env.scopes.close? with
  | some closed =>
      refine ⟨closed.2, (environment_does env).silent ?_⟩
      rw [hclose]
      exact setScopes_does env closed.2
  | none =>
      refine ⟨env.scopes, (environment_does env).silent ?_⟩
      rw [hclose]
      exact Does.pure env ()

theorem allocate_does :
    Does allocate env none env.scopes.nextOffset
      { env with scopes := env.scopes.takeOffset } [] :=
  (environment_does env).silent ((setScopes_does env _).silent (Does.pure _ _))

theorem declare_does (id : Ident) (binding : Binding) :
    Does (declare id binding) env none (env.scopes.declare id binding).toOption.isSome
      { env with scopes := env.scopes.declareOrKeep id binding }
      (errorOf (env.scopes.declare id binding)) := by
  refine (environment_does env).silent ?_
  unfold ScopeStack.declareOrKeep
  cases env.scopes.declare id binding with
  | ok scopes =>
      refine (attempt_does env (.ok scopes)).silent ?_
      exact (setScopes_does env scopes).silent (Does.pure _ true)
  | error e => exact (attempt_does env (.error e)).bind (Does.pure env false)

/-!
# Types
-/

theorem checkRefs_does (pos : Position) (names : List String) :
    Does (checkRefs pos names) env none () env
      ((names.filter fun name => !env.knowsClass name).map fun name =>
        { pos, cause := .unknownClass name }) := by
  induction names with
  | nil => exact Does.pure env ()
  | cons name names ih =>
      refine (environment_does env).silent ?_
      cases hknown : env.knowsClass name with
      | true =>
          rw [List.filter_cons_of_neg (by simp [hknown])]
          exact (Does.pure env _).silent ih
      | false =>
          rw [List.filter_cons_of_pos (by simp [hknown])]
          exact (report_does env _).bind ih

theorem checkType_does (t : TypeRef) :
    Does (checkType t) env none () env (env.typeErrors t) :=
  checkRefs_does env t.pos t.ty.classRefs

theorem checkParams_does (params : List Param) :
    Does (checkParams params) env none () env (params.flatMap fun p => env.typeErrors p.ty) := by
  induction params with
  | nil => exact Does.pure env ()
  | cons p params ih => exact (checkType_does env p.ty).bind ih

theorem checkSignature_does (h : Header) :
    Does (checkSignature h) env none () env (env.headerErrors h) :=
  (checkParams_does env h.params).bind (checkType_does env h.result)

/-!
# Expressions
-/

theorem resolve_does (id : Ident) :
    Does (resolve id) env none (env.resolve id).toOption env (errorOf (env.resolve id)) :=
  (environment_does env).silent (attempt_does env _)

mutual

theorem visitExpr_does : ∀ e : Expr, Does (visitExpr e) env none (e.link env) env (e.linkErrors env)
  | .int pos value => Does.pure env _
  | .bool pos value => Does.pure env _
  | .null pos => Does.pure env _
  | .missing pos => Does.pure env _
  | .name id _ => (resolve_does env id).returns
  | .call pos callee args _ => by
      refine (resolve_does env callee).bind ?_
      exact (visitArgs_does args).returns
  | .methodCall pos object method args receiver entry => by
      have hobject := resolve_does env object
      unfold visitExpr Expr.link Expr.linkErrors
      cases hresolved : env.resolve object with
      | error e =>
          rw [hresolved] at hobject
          refine hobject.bind ?_
          exact (visitArgs_does args).returns
      | ok found =>
          rw [hresolved] at hobject
          refine hobject.silent ((environment_does env).silent ?_)
          refine (attempt_does env (env.methodEntry object method found.binding.ty)).bind ?_
          exact (visitArgs_does args).returns
  | .construct pos className args target => by
      unfold visitExpr Expr.link Expr.linkErrors
      refine (environment_does env).silent ((attempt_does env (env.constructed className)).bind ?_)
      cases env.constructed className with
      | ok found => exact (visitArgs_does args).returns
      | error e => exact (visitArgs_does args).returns
  | .ifElse pos condition whenTrue whenFalse => by
      unfold visitExpr Expr.link Expr.linkErrors
      rw [List.append_assoc]
      refine (visitExpr_does condition).bind ((visitExpr_does whenTrue).bind ?_)
      exact (visitExpr_does whenFalse).returns
  | .not pos operand => (visitExpr_does operand).returns
  | .binary pos op left right => by
      refine (visitExpr_does left).bind ?_
      exact (visitExpr_does right).returns
  | .print pos operand => (visitExpr_does operand).returns

theorem visitArgs_does : ∀ es : List Expr,
    Does (visitArgs es) env none (Expr.linkAll env es) env (Expr.linkErrorsAll env es)
  | [] => Does.pure env _
  | e :: es => by
      refine (visitExpr_does e).bind ?_
      exact (visitArgs_does es).returns

end

/-!
# Classes
-/

theorem enterMember_does (className : String) (id : Ident)
    (add : MemberTable → Except MemberFault (α × MemberTable)) (scan : MemberScan) :
    Does (enterMember className id add scan) env (scan.missing? id add)
      ((scan.enter className id add).1, (scan.enter className id add).2.toOption) env
      (errorOf (scan.enter className id add).2) := by
  unfold enterMember MemberScan.missing? MemberScan.enter
  cases scan.seen.contains id.name with
  | true => exact (report_does env _).bind (Does.pure env _)
  | false =>
      cases add scan.table with
      | ok added => exact Does.pure env _
      | error fault =>
          cases fault with
          | clash kind => exact (report_does env _).bind (Does.pure env _)
          | missing place =>
              refine ⟨nofun, fun _ heq errors => ?_⟩
              cases heq
              exact ⟨_, rfl⟩

theorem visitFields_does (className : String) (fields : List Field) (scan : MemberScan) :
    Does (visitFields className scan fields) env (scan.missingField? className fields)
      ((MemberScan.enterFields className scan fields).1,
        (fields.zip (MemberScan.enterFields className scan fields).2).map fun (f, place) =>
          f.link place)
      env (env.fieldErrors fields (MemberScan.enterFields className scan fields).2) := by
  induction fields generalizing scan with
  | nil => exact Does.pure env _
  | cons f fields ih =>
      simp only [MemberScan.enterFields, Environment.fieldErrors, List.append_assoc]
      refine (checkType_does env f.ty).bind ((enterMember_does env className f.id _ scan).bind ?_)
      exact (ih _).returns

theorem visitHeaders_does (className : String) (methods : List Method) (scan : MemberScan) :
    Does (visitHeaders className scan methods) env (scan.missingMethod? className methods)
      ((MemberScan.enterMethods className scan methods).1,
        (MemberScan.enterMethods className scan methods).2.map Except.toOption)
      env (env.methodErrors methods (MemberScan.enterMethods className scan methods).2) := by
  induction methods generalizing scan with
  | nil => exact Does.pure env _
  | cons m methods ih =>
      simp only [MemberScan.enterMethods, Environment.methodErrors, List.append_assoc]
      refine (checkSignature_does env m.header).bind
        ((enterMember_does env className m.header.id _ scan).bind ?_)
      exact (ih _).returns

theorem visitSuper_does (header : ClassHeader) :
    Does (visitSuper header) env none
      ((env.inherited header).toOption.getD MemberTable.empty) env
      (errorOf (env.inherited header)) :=
  (environment_does env).silent (attempt_does env _).returns

theorem visitMembers_does (header : ClassHeader) (methods : List Method) :
    let inner := env.within header.id.name
    let plan := env.plan header methods
    Does (visitMembers header methods) inner (env.missingMember? header methods)
      ((header.fields.zip plan.fieldPlaces).map fun (f, place) => f.link place,
        plan.methodPlaces.map Except.toOption, plan.table) inner
      (errorOf (env.inherited header) ++ inner.fieldErrors header.fields plan.fieldPlaces ++
        inner.methodErrors methods plan.methodPlaces) := by
  intro inner plan
  let start := MemberScan.startingFrom ((env.inherited header).toOption.getD MemberTable.empty)
  let entered := MemberScan.enterFields header.id.name start header.fields
  have hplan : plan =
      { fieldPlaces := entered.2
        methodPlaces := (MemberScan.enterMethods header.id.name entered.1 methods).2
        table := (MemberScan.enterMethods header.id.name entered.1 methods).1.table } := by
    simp only [plan, Environment.plan, entered, start]
    cases env.inherited header <;> rfl
  rw [hplan, List.append_assoc]
  refine (visitSuper_does inner header).bind ?_
  refine (visitFields_does inner header.id.name header.fields start).bind ?_
  exact (visitHeaders_does inner header.id.name methods entered.1).returns

theorem declareClass_does (header : ClassHeader) (plan : ClassPlan)
    (hlevel : env.scopes.level = 0) (name : String) :
    Does (declareClass header.id plan.table) (env.within name) none (env.classPlace header plan)
      ((env.addClass header plan).within name)
      (errorOf (env.scopes.takeOffset.declare header.id (env.classPlace header plan))) := by
  have hplace : env.classPlace header plan =
      { level := 0, ty := .layout (plan.table.layout header.id.name)
        offset := env.scopes.nextOffset } := by
    rw [Environment.classPlace, Environment.place, hlevel]
  have hdeclare := declare_does { env.within name with scopes := env.scopes.takeOffset } header.id
    (env.classPlace header plan)
  refine (allocate_does _).silent ?_
  rw [show (env.within name).scopes.nextOffset = env.scopes.nextOffset from rfl, ← hplace]
  unfold Environment.addClass
  unfold ScopeStack.declareOrKeep at hdeclare
  cases hresult : env.scopes.takeOffset.declare header.id (env.classPlace header plan) with
  | ok scopes =>
      simp only [hresult] at hdeclare
      refine hdeclare.silent ?_
      exact (register_does _ header.id.name plan.table).returns
  | error e =>
      simp only [hresult] at hdeclare
      exact hdeclare.quiet (Does.pure _ _)

theorem visitClassHeader_does (header : ClassHeader) (methods : List Method)
    (hlevel : env.scopes.level = 0) :
    let plan := env.plan header methods
    Does (visitClassHeader header methods) (env.within header.id.name)
      (env.missingMember? header methods)
      (header.link env plan, plan.methodPlaces.map Except.toOption, plan.table.members)
      ((env.addClass header plan).within header.id.name) (header.linkErrors env methods) := by
  intro plan
  refine (environment_does _).silent ((visitMembers_does env header methods).before ?_)
  exact (declareClass_does env header plan hlevel header.id.name).returns

/-!
# Declarations
-/

theorem allocatePlace_does (ty : Ty) :
    Does (allocatePlace ty) env none (env.place ty)
      { env with scopes := env.scopes.takeOffset } [] := by
  unfold Environment.place
  rw [← ScopeStack.level_takeOffset]
  exact (allocate_does env).silent (environment_does _).returns

/-- Taking a place and declaring the name there. -/
theorem add_does {id : Ident} {ty : Ty} {f : Binding → LinkPass β} {b : β} {env' : Environment}
    {missing : Option MissingPlace} {added : List LinkError}
    (h : Does (f (env.place ty)) (env.add id ty) missing b env' added) :
    Does (do
      let binding ← allocatePlace ty
      let _ ← declare id binding
      f binding) env missing b env' (env.addErrors id ty ++ added) :=
  (allocatePlace_does env ty).silent ((declare_does _ id _).bind h)

theorem visitParams_does (level index : Nat) (params : List Param) :
    let places := params.mapIdx fun i p =>
      (p.id, ({ level, ty := p.ty.ty, offset := Frame.firstParam + (index + i) } : Binding))
    Does (visitParams level index params) env none
      ((params.zip places).map fun (p, place) => { p with binding := some place.2 })
      { env with scopes := env.scopes.declareEach places } (env.scopes.duplicates places) := by
  induction params generalizing env index with
  | nil => exact Does.pure env _
  | cons p params ih =>
      intro places
      let first : Binding := { level, ty := p.ty.ty, offset := Frame.firstParam + (index : Int) }
      have hplaces : places = (p.id, first) :: params.mapIdx fun i p => (p.id,
          { level, ty := p.ty.ty, offset := Frame.firstParam + ((index + 1 : Nat) + i) }) := by
        simp [places, first, List.mapIdx_cons, Int.add_comm, Int.add_left_comm]
      rw [hplaces, ScopeStack.duplicates_cons]
      refine (declare_does env p.id first).bind ?_
      exact (ih { env with scopes := env.scopes.declareOrKeep p.id first } (index + 1)).returns

end Effects

end LinkPass

/-!
# One more scope
-/

namespace ScopeStack

theorem declareOrKeep_openWith (s : ScopeStack) (scope : Scope) (id : Ident) (binding : Binding) :
    ∃ scope', (s.openWith scope).declareOrKeep id binding = s.openWith scope' := by
  unfold declareOrKeep declare
  cases (s.openWith scope).declares id.name with
  | true => exact ⟨scope, rfl⟩
  | false => exact ⟨_, rfl⟩

theorem declareEach_openWith (s : ScopeStack) (scope : Scope) (places : List (Ident × Binding)) :
    ∃ scope', (s.openWith scope).declareEach places = s.openWith scope' := by
  induction places generalizing scope with
  | nil => exact ⟨scope, rfl⟩
  | cons place places ih =>
      rcases s.declareOrKeep_openWith scope place.1 place.2 with ⟨scope', hdeclared⟩
      rw [declareEach, hdeclared]
      exact ih scope'

end ScopeStack

namespace Environment

/-- The second environment with one more scope, whatever has been declared there. -/
def Above (env outer : Environment) : Prop :=
  ∃ scope, env = { outer with scopes := outer.scopes.openWith scope }

variable {env outer : Environment}

theorem above_enter (env : Environment) (params : List Param) : (env.enter params).Above env := by
  rcases env.scopes.declareEach_openWith Scope.fresh (paramPlaces env.frameLevel params) with
    ⟨scope, hscope⟩
  exact ⟨scope, by rw [enter, ScopeStack.openFresh, hscope]⟩

theorem Above.add (h : env.Above outer) (id : Ident) (ty : Ty) : (env.add id ty).Above outer := by
  rcases h with ⟨scope, rfl⟩
  rcases outer.scopes.declareOrKeep_openWith { scope with nextOffset := scope.nextOffset - 1 } id
    (place { outer with scopes := outer.scopes.openWith scope } ty) with ⟨scope', hscope⟩
  exact ⟨scope', congrArg (fun scopes => { outer with scopes }) hscope⟩

theorem Above.afterAll (h : env.Above outer) (hnested : env.Nested) (ds : List Decl) :
    (env.afterAll ds).Above outer := by
  induction ds generalizing env with
  | nil => exact h
  | cons d ds ih =>
      refine ih ?_ (hnested.after d)
      cases d with
      | var _ id ty _ _ => exact h.add id ty.ty
      | function header _ _ => exact h.add header.id _
      | classDef header methods =>
          rw [Environment.after, if_neg hnested.level]
          exact h

theorem Nested.missingAll? (h : env.Nested) (ds : List Decl) : env.missingAll? ds = none := by
  induction ds generalizing env with
  | nil => rfl
  | cons d ds ih =>
      have hnone : env.missing? d = none := by
        cases d with
        | classDef header methods => exact if_neg h.level
        | _ => rfl
      rw [Environment.missingAll?, hnone, ih (h.after d), Option.or_none]

theorem missingAll?_append (env : Environment) (ds ds' : List Decl) :
    env.missingAll? (ds ++ ds') = (env.missingAll? ds).or ((env.afterAll ds).missingAll? ds') := by
  induction ds generalizing env with
  | nil => rfl
  | cons d ds ih =>
      simp only [List.cons_append, Environment.missingAll?, ih, afterAll_cons, Option.or_assoc]

theorem current_addClass (env : Environment) (header : ClassHeader) (plan : ClassPlan) :
    (env.addClass header plan).current = env.current := by
  unfold addClass
  cases env.scopes.takeOffset.declare header.id (env.classPlace header plan) <;> rfl

theorem current_after (env : Environment) (d : Decl) : (env.after d).current = env.current := by
  cases d with
  | classDef header methods =>
      rw [after]
      split
      · exact env.current_addClass header _
      · rfl
  | _ => rfl

end Environment

/-!
# Declarations
-/

namespace LinkPass

mutual

theorem visitDecl_does (env : Environment) (h : env.current = none ∨ env.Nested) :
    ∀ d : Decl,
      Does (visitDecl d) env (env.missing? d) (d.link env) (env.after d) (d.linkErrors env)
  | .var pos id ty init binding => by
      unfold Decl.linkErrors
      rw [List.append_assoc, ← List.append_nil (env.addErrors id ty.ty)]
      refine (visitExpr_does env init).bind ((checkType_does env ty).bind ?_)
      exact add_does env (Does.pure _ _)
  | .function header body binding => by
      let inner := env.add header.id (.arrow header.signature)
      unfold Decl.linkErrors
      simp only [List.append_assoc]
      refine (checkSignature_does env header).bind (add_does env ?_)
      exact (visitBody_does inner (env.add_scopes_ne_nil _ _) header body).returns
  | .classDef header methods => by
      refine (environment_does env).silent ?_
      unfold Environment.missing? Decl.link Environment.after Decl.linkErrors
      by_cases hlevel : env.scopes.level = 0
      · let plan := env.plan header methods
        let declared := env.addClass header plan
        have hcurrent : declared.current = none :=
          (env.current_addClass header plan).trans
            (h.resolve_right fun hnested => hnested.level hlevel)
        have hclear : { declared.within header.id.name with current := none } = declared := by
          rw [← hcurrent]
          rfl
        simp only [if_pos hlevel]
        refine (setCurrent_does env _).silent ?_
        refine (visitClassHeader_does env header methods hlevel).before ?_
        refine (pushScope_does _ _).silent ?_
        refine (visitMethods_does (env.insideClass header plan) (List.cons_ne_nil _ _)
          plan.methodPlaces methods).quiet ?_
        refine (pop_does (declared.within header.id.name) _).silent ?_
        refine (setCurrent_does _ none).silent ?_
        rw [hclear]
        exact Does.pure declared _
      · simp only [if_neg hlevel]
        exact (report_does env _).quiet (Does.pure env _)

/-- A body gives back what it has got: the frame that is pushed is popped, and no declaration in it
reaches the scopes below. -/
theorem visitBody_does (env : Environment) (hs : env.scopes.scopes ≠ []) (header : Header) :
    ∀ b : Body,
      Does (visitBody header b) env none
        (header.link env.frameLevel, b.link (env.enter header.params)) env
        (env.paramErrors header.params ++ b.linkErrors (env.enter header.params))
  | ⟨locals, result⟩ => by
      let inner := env.enter header.params
      have hnested : inner.Nested := Environment.nested_enter hs header.params
      rcases (env.above_enter header.params).afterAll hnested locals with ⟨scope, hscope⟩
      have hlocals := visitDecls_does inner (Or.inr hnested) locals
      rw [hnested.missingAll?] at hlocals
      have hpop : Does pop (inner.afterAll locals) none () env [] := hscope ▸ pop_does env scope
      have hparams := visitParams_does { env with scopes := env.scopes.openFresh } env.frameLevel 0
        header.params
      simp only [Int.natCast_zero, Int.zero_add] at hparams
      refine (pushScope_does env Scope.fresh).silent ((environment_does _).silent ?_)
      refine hparams.bind (hlocals.bind ((visitExpr_does _ result).quiet ?_))
      exact hpop.silent (Does.pure env _)

theorem visitDecls_does (env : Environment) (h : env.current = none ∨ env.Nested) :
    ∀ ds : List Decl,
      Does (visitDecls ds) env (env.missingAll? ds) (Decl.linkAll env ds) (env.afterAll ds)
        (Decl.linkErrorsAll env ds)
  | [] => Does.pure env _
  | d :: ds => by
      have hafter : (env.after d).current = none ∨ (env.after d).Nested :=
        h.imp (env.current_after d).trans fun hnested => hnested.after d
      refine (visitDecl_does env h d).bind ?_
      exact (visitDecls_does (env.after d) hafter ds).returns

theorem visitMethods_does (env : Environment) (hs : env.scopes.scopes ≠ [])
    (places : List (Except LinkError Nat)) :
    ∀ ms : List Method,
      Does (visitMethods (places.map Except.toOption) ms) env none (Method.linkAll env places ms)
        env (Method.linkErrorsAll env ms)
  | [] => Does.pure env _
  | ⟨header, body, slot⟩ :: ms => by
      have hplace : (places.map Except.toOption).head?.bind id =
          places.head?.bind Except.toOption := by
        cases places <;> rfl
      have hrest := visitMethods_does env hs places.tail ms
      rw [List.map_tail] at hrest
      unfold visitMethods
      rw [hplace]
      refine Does.bind (visitBody_does env hs header body).returns ?_
      exact hrest.returns

end

end LinkPass

/-!
# Programs
-/

namespace Program

def missing? (p : Program) : Option MissingPlace :=
  Environment.start.missingAll? p.decls

/-- The pass links the program, unless a place is missing. -/
theorem linkPass_eq (p : Program) :
    p.linkPass =
      match p.missing? with
      | none => .ok p.link
      | some place => .error place := by
  let empty : Environment :=
    { scopes := ScopeStack.empty, classes := NameMap.empty, current := none }
  let inner := Environment.start.afterAll p.decls
  rcases LinkPass.pop_scopes inner with ⟨scopes, hpop⟩
  have hdoes : LinkPass.Does (LinkPass.visitProgram p) empty p.missing? p.link.program
      { inner with scopes } p.link.errors := by
    refine (LinkPass.pushScope_does empty Scope.fresh).silent ?_
    refine (LinkPass.visitDecls_does Environment.start (Or.inl rfl) p.decls).before ?_
    refine (LinkPass.visitExpr_does inner p.body).quiet (hpop.silent ?_)
    exact LinkPass.Does.pure _ p.link.program
  unfold linkPass
  cases hmissing : p.missing? with
  | none =>
      have hrun := hdoes.ends hmissing []
      simp only [empty] at hrun
      simp only [hrun]
      rfl
  | some place =>
      rcases hdoes.fails place hmissing [] with ⟨s, hrun⟩
      simp only [empty] at hrun
      simp only [hrun]

/-- A field that is taken for a method has no place among the methods of the subclass. -/
example :
    missing?
      { decls := [
          Written.classOf "Base" none [("f", .method { params := [], result := .int })] [],
          Written.classOf "Leaf" (some "Base") []
            [Written.method "f" [] .int ⟨[], .int Written.start 0⟩]]
        body := .int Written.start 0
        pos := Written.start } = some { offset := -1, size := 0 } := by
  decide

end Program

end ClassLet
