import ClassLet.Proofs.Linkage.Parameters
import ClassLet.Proofs.Simulation.Worlds

/-!
# Frames

How the names of a place, the entries that are visible there and the frames on the stack belong
together: a declaration adds a name, an entry and a cell, and a call opens a frame that is linked
to the frame of the declaration of what is called. Inside a class the chain of links ends at the
object; the top-level frame is then reached by its address.

Main statements: `Frames.mono`, frames stay in order while more is stored, and
`Frames.class_of_find`, a known class is visible and its dispatch pointer lies in the top-level
frame.
-/

namespace ClassLet

/-!
# Bodies and classes
-/

/-- The code of a body that has been linked and checked is a routine with the given entry. -/
structure BodyReady (w : World) (inside : Bool) (env : Environment) (header : Header) (body : Body)
    (entry : Nat) : Prop where
  params : env.paramErrors header.params = []
  linked : body.linkErrors (env.enter header.params) = []
  checked : ∃ h, w.hierarchy.Extends h ∧
    ErrorFree ((body.link (env.enter header.params)).typingFailures h header)
  compiled : ∃ k known known' label,
    (body.link (env.enter header.params)).Compiled w.im.Holds (w.context inside) k known known'
      label header.params.length ∧
    w.im.listing.address? label = some entry

/-- A class that has been linked and checked, with the labels in its dispatch table. -/
structure ClassReady (w : World) (env : Environment) (header : ClassHeader) (methods : List Method)
    (labels : List String) : Prop where
  atTop : env.AtTop
  declared : ∃ inherited entered, ClassDeclared env header methods inherited entered
  table : w.tables.find? header.id.name = some (env.plan header methods).table
  edge : ∀ super, header.super = some super →
    w.hierarchy.superclass? header.id.name = some super.name
  labelled : w.labels.find? header.id.name = some labels
  length : labels.length = (env.plan header methods).table.dispatch.length
  own : ∀ (k : Nat) (m : Method) (slot : Nat), methods[k]? = some m →
    (env.plan header methods).methodPlaces[k]? = some (.ok slot) →
    ∃ label entry, labels[slot]? = some label ∧ w.im.listing.address? label = some entry ∧
      BodyReady w true (env.methodScope header methods) m.header m.body entry
  inherited : ∀ super above, header.super = some super →
    w.labels.find? super.name = some above → ∀ s, s < above.length →
    (∀ k : Nat, (env.plan header methods).methodPlaces[k]? ≠ some (Except.ok s)) →
      labels[s]? = above[s]?

/-- The dispatch table of a class is on the heap, and its address in the top-level frame. -/
structure ClassPlaced (w : World) (k : Snapshot) (env : Environment) (header : ClassHeader)
    (methods : List Method) (i : Nat) (stack : List Int32) : Prop where
  ready : ∃ labels, ClassReady w env header methods labels ∧
    ∀ (s : Nat) (label : String), labels[s]? = some label →
      k.heap[i + s]? = some (w.im.listing.target label)
  floor : heapAddress i :: stack <:+ k.floor
  place : w.topBase + Int32.ofInt env.scopes.nextOffset = stackAddress w.memorySize stack.length

/-!
# Frames
-/

/-- The frames of a place. Next to the names and the visible entries of the place stand the base of
its frame and the stack from the last declaration on. -/
inductive Frames (w : World) (k : Snapshot) :
    Bool → Environment → Visible → Int32 → List Int32 → Prop where
  | start (stack : List Int32) : Frames w k false .start [] w.topBase stack
  | value {inside : Bool} {env : Environment} {visible : Visible} {base : Int32}
      {stack : List Int32} {id : Ident} {ty : Ty} {v : Int32} :
      Frames w k inside env visible base stack →
      env.addErrors id ty = [] →
      base + Int32.ofInt env.scopes.nextOffset = stackAddress w.memorySize stack.length →
      Fits w k ty v →
      Frames w k inside (env.add id ty) (.value id.name v :: visible) base (v :: stack)
  | function {inside : Bool} {env : Environment} {visible : Visible} {base : Int32}
      {stack : List Int32} {header : Header} {body : Body} {entry : Nat} :
      Frames w k inside env visible base stack →
      env.addErrors header.id (.arrow header.signature) = [] →
      base + Int32.ofInt env.scopes.nextOffset = stackAddress w.memorySize stack.length →
      BodyReady w inside (env.add header.id (.arrow header.signature)) header body entry →
      Frames w k inside (env.add header.id (.arrow header.signature))
        (.function header body :: visible) base (codeAddress entry :: stack)
  | classDef {env : Environment} {visible : Visible} {stack : List Int32} {header : ClassHeader}
      {methods : List Method} {i : Nat} :
      Frames w k false env visible w.topBase stack →
      ClassPlaced w k env header methods i stack →
      Frames w k false (env.declareClass header methods) (.classDef header methods :: visible)
        w.topBase (heapAddress i :: stack)
  | enter {inside : Bool} {env : Environment} {visible : Visible} {link : Int32}
      {stack rest : List Int32} {params : List Param} {args : List Int32} {ra fp : Int32} :
      Frames w k inside env visible link stack →
      env.paramErrors params = [] →
      FitsAll w k (params.map fun p => p.ty.ty) args →
      stack <:+ rest →
      Frames w k inside (env.enter params) (visible.withArguments params args)
        (stackAddress w.memorySize (args.length + (1 + rest.length)))
        (ra :: link :: (args ++ fp :: rest))
  | members {env : Environment} {visible : Visible} {stack : List Int32} {header : ClassHeader}
      {methods : List Method} {labels : List String} {object : Int32} {o : Object} :
      Frames w k false (env.declareClass header methods) visible w.topBase stack →
      ClassReady w env header methods labels →
      k.objects.lookup object = some o →
      w.hierarchy.Descends o.className header.id.name →
      Frames w k true (env.methodScope header methods) (.members header.id.name object :: visible)
        object stack

/-!
# Facts about classes
-/

theorem ClassPlaced.mono {w : World} {k k' : Snapshot} {env : Environment} {header : ClassHeader}
    {methods : List Method} {i : Nat} {stack : List Int32}
    (h : ClassPlaced w k env header methods i stack) (hk : k.Grows k') :
    ClassPlaced w k' env header methods i stack where
  ready := by
    rcases h.ready with ⟨labels, hready, hcells⟩
    exact ⟨labels, hready, fun s label hlabel => hk.cell (hcells s label hlabel)⟩
  floor := h.floor.trans hk.floor
  place := h.place

namespace ClassReady

variable {w : World} {env : Environment} {header : ClassHeader} {methods : List Method}
  {labels : List String}

theorem scopes (h : ClassReady w env header methods labels) :
    ∃ scope, env.scopes.scopes = [scope] ∧ scope.bindings.find? header.id.name = none ∧
      (env.declareClass header methods).scopes.scopes =
        [scope.adding header.id.name (env.classPlace header (env.plan header methods))] := by
  rcases h.atTop.scopes with ⟨scope, hs⟩
  rcases h.declared with ⟨inherited, entered, hclass⟩
  rcases Environment.addClass_scopes hs hclass.name with ⟨hnew, hscopes, _, _⟩
  exact ⟨scope, hs, hnew, hscopes⟩

theorem classes (h : ClassReady w env header methods labels) (name : String) :
    (env.declareClass header methods).classes.find? name =
      if name = header.id.name then some (env.plan header methods).table
      else env.classes.find? name := by
  rcases h.atTop.scopes with ⟨scope, hs⟩
  rcases h.declared with ⟨inherited, entered, hclass⟩
  rcases Environment.addClass_scopes hs hclass.name with ⟨_, _, hclasses, _⟩
  rw [Environment.declareClass, hclasses, NameMap.find?_insert]

theorem find?_self (h : ClassReady w env header methods labels) :
    (env.declareClass header methods).classes.find? header.id.name =
      some (env.plan header methods).table := by
  rw [h.classes, if_pos rfl]

theorem lookup? (h : ClassReady w env header methods labels) (name : String) :
    (env.declareClass header methods).scopes.lookup? name =
      if name = header.id.name then some (env.classPlace header (env.plan header methods))
      else env.scopes.lookup? name := by
  rcases h.atTop.scopes with ⟨scope, hs⟩
  rcases h.declared with ⟨inherited, entered, hclass⟩
  exact Environment.lookup?_addClass hs hclass.name name

end ClassReady

namespace Frames

variable {w : World} {k k' : Snapshot} {inside : Bool} {env : Environment} {visible : Visible}
  {base : Int32} {stack : List Int32}

theorem mono (h : Frames w k inside env visible base stack) (hk : k.Grows k') :
    Frames w k' inside env visible base stack := by
  induction h with
  | start stack => exact start stack
  | value _ hok hplace hfits ih => exact value ih hok hplace (hfits.mono hk)
  | function _ hok hplace hready ih => exact function ih hok hplace hready
  | classDef _ hplaced ih => exact classDef ih (hplaced.mono hk)
  | enter _ hok hargs hstack ih => exact enter ih hok (hargs.mono hk) hstack
  | members _ hready ho hdescends ih => exact members ih hready (hk.objects _ _ ho) hdescends

theorem scopes_ne_nil (h : Frames w k inside env visible base stack) : env.scopes.scopes ≠ [] := by
  induction h with
  | start => exact List.cons_ne_nil _ _
  | value => exact Environment.add_scopes_ne_nil _ _ _
  | function => exact Environment.add_scopes_ne_nil _ _ _
  | classDef _ hplaced =>
      rcases hplaced.ready with ⟨labels, hready, _⟩
      rcases hready.scopes with ⟨scope, _, _, hscopes⟩
      rw [hscopes]
      exact List.cons_ne_nil _ _
  | enter _ hok =>
      rw [(Environment.enter_scopes hok).2]
      exact List.cons_ne_nil _ _
  | members => exact List.cons_ne_nil _ _

/-- Inside a class the top-level scope is not the innermost one. -/
theorem level_pos (h : Frames w k inside env visible base stack) (hinside : inside = true) :
    0 < env.scopes.level := by
  induction h with
  | start => cases hinside
  | value hframes hok _ _ ih =>
      rcases List.exists_cons_of_ne_nil hframes.scopes_ne_nil with ⟨scope, rest, hs⟩
      rw [Environment.level_eq (Environment.add_scopes hs hok).2, ← Environment.level_eq hs]
      exact ih hinside
  | function hframes hok _ _ ih =>
      rcases List.exists_cons_of_ne_nil hframes.scopes_ne_nil with ⟨scope, rest, hs⟩
      rw [Environment.level_eq (Environment.add_scopes hs hok).2, ← Environment.level_eq hs]
      exact ih hinside
  | classDef => cases hinside
  | enter hframes hok =>
      rw [Environment.level_eq (Environment.enter_scopes hok).2]
      exact List.length_pos_iff.mpr hframes.scopes_ne_nil
  | members hframes =>
      rw [Environment.level_eq (Environment.methodScope_scopes _ _ _)]
      exact List.length_pos_iff.mpr hframes.scopes_ne_nil

end Frames

/-!
# Visible classes
-/

/-- The entries from the declaration of a class on, with its table, the heap address of its
dispatch table and the stack from its cell on. -/
inductive ClassAt (w : World) (k : Snapshot) :
    String → MemberTable → Visible → Nat → List Int32 → Prop where
  | mk {env : Environment} {visible : Visible} {stack : List Int32} {header : ClassHeader}
      {methods : List Method} {i : Nat} :
      Frames w k false env visible w.topBase stack →
      ClassPlaced w k env header methods i stack →
      ClassAt w k header.id.name (env.plan header methods).table
        (.classDef header methods :: visible) i (heapAddress i :: stack)

/-- What a class is bound to in the top-level scope is its cell. -/
structure ClassBound (w : World) (env : Environment) (name : String) (table : MemberTable)
    (stack : List Int32) (binding : Binding) : Prop where
  lookup : env.scopes.lookupOutermost? name = some binding
  ty : binding.ty = .layout (table.layout name)
  address : w.topBase + Int32.ofInt binding.offset = stackAddress w.memorySize (stack.length - 1)

theorem ClassBound.add {w : World} {env : Environment} {name : String} {table : MemberTable}
    {stack : List Int32} {binding : Binding} (h : ClassBound w env name table stack binding)
    (hne : env.scopes.scopes ≠ []) {id : Ident} {ty : Ty} (hok : env.addErrors id ty = []) :
    ClassBound w (env.add id ty) name table stack binding := by
  rcases List.exists_cons_of_ne_nil hne with ⟨first, rest, hs⟩
  rcases Environment.add_scopes hs hok with ⟨hnew, hscopes⟩
  refine { h with lookup := Environment.lookupOutermost?_cons hs hscopes ?_ h.lookup }
  intro hb
  rw [Scope.adding, NameMap.find?_insert, if_neg, hb]
  rintro rfl
  rw [hnew] at hb
  cases hb

theorem ClassAt.mono {w : World} {k k' : Snapshot} {name : String} {table : MemberTable}
    {scope : Visible} {i : Nat} {stack : List Int32} (h : ClassAt w k name table scope i stack)
    (hk : k.Grows k') : ClassAt w k' name table scope i stack := by
  cases h with
  | mk hframes hplaced => exact mk (hframes.mono hk) (hplaced.mono hk)

namespace Frames

variable {w : World} {k : Snapshot} {inside : Bool} {env : Environment} {visible : Visible}
  {base : Int32} {stack : List Int32}

theorem class_of_find (h : Frames w k inside env visible base stack) {name : String}
    {table : MemberTable} (hfind : env.classes.find? name = some table) :
    ∃ scope i stack' binding, visible.class? name = some scope ∧
      ClassAt w k name table scope i stack' ∧ ClassBound w env name table stack' binding := by
  induction h with
  | start => simp [Environment.start] at hfind
  | @value inside env visible base stack id ty v hframes hok _ _ ih =>
      rcases ih hfind with ⟨scope, i, stack', binding, hscope, hclass, hbound⟩
      exact ⟨scope, i, stack', binding, hscope, hclass, hbound.add hframes.scopes_ne_nil hok⟩
  | @function inside env visible base stack header body entry hframes hok _ _ ih =>
      rcases ih hfind with ⟨scope, i, stack', binding, hscope, hclass, hbound⟩
      exact ⟨scope, i, stack', binding, hscope, hclass, hbound.add hframes.scopes_ne_nil hok⟩
  | @classDef env visible stack header methods i hframes hplaced ih =>
      rcases hplaced.ready with ⟨labels, hready, _⟩
      rcases hready.scopes with ⟨first, hs, hnew, hscopes⟩
      rw [hready.classes] at hfind
      by_cases hname : name = header.id.name
      · rw [if_pos hname, Option.some.injEq] at hfind
        subst hname hfind
        refine ⟨_, i, _, env.classPlace header (env.plan header methods), ?_,
          ClassAt.mk hframes hplaced, ?_⟩
        · rw [Visible.class?, if_pos rfl]
        · exact {
            lookup := by
              rw [Environment.lookupOutermost?_single hscopes, Scope.adding,
                NameMap.find?_insert_self]
            ty := rfl
            address := by
              rw [List.length_cons, Nat.add_sub_cancel]
              exact hplaced.place }
      · rw [if_neg hname] at hfind
        rcases ih hfind with ⟨scope, i', stack', binding, hscope, hclass, hbound⟩
        refine ⟨scope, i', stack', binding, ?_, hclass, { hbound with lookup := ?_ }⟩
        · rw [Visible.class?, if_neg (Ne.symm hname)]
          exact hscope
        · refine Environment.lookupOutermost?_cons hs hscopes ?_ hbound.lookup
          intro hb
          rw [Scope.adding, NameMap.find?_insert, if_neg hname, hb]
  | @enter inside env visible link stack rest params args ra fp hframes hok _ _ ih =>
      rcases ih hfind with ⟨scope, i, stack', binding, hscope, hclass, hbound⟩
      refine ⟨scope, i, stack', binding, ?_, hclass, { hbound with lookup := ?_ }⟩
      · rw [Visible.class?_withArguments]
        exact hscope
      · rw [Environment.lookupOutermost?_open hframes.scopes_ne_nil
          (Environment.enter_scopes hok).2]
        exact hbound.lookup
  | @members env visible stack header methods labels object o hframes hready _ _ ih =>
      rcases ih hfind with ⟨scope, i, stack', binding, hscope, hclass, hbound⟩
      refine ⟨scope, i, stack', binding, hscope, hclass, { hbound with lookup := ?_ }⟩
      rw [Environment.lookupOutermost?_open hframes.scopes_ne_nil
        (Environment.methodScope_scopes _ _ _)]
      exact hbound.lookup

end Frames

namespace ClassAt

variable {w : World} {k : Snapshot} {name : String} {table : MemberTable} {scope : Visible}
  {i : Nat}
  {stack : List Int32}

/-- The frames from the class on, where the class is known. -/
theorem frames (h : ClassAt w k name table scope i stack) :
    w.tables.find? name = some table ∧
      ∃ env, Frames w k false env scope w.topBase stack ∧ env.classes.find? name = some table := by
  cases h with
  | mk hframes hplaced =>
      rcases hplaced.ready with ⟨labels, hready, _⟩
      exact ⟨hready.table, _, Frames.classDef hframes hplaced, hready.find?_self⟩

/-- The dispatch table holds the labels of the class. -/
theorem cell (h : ClassAt w k name table scope i stack) {labels : List String} {s : Nat}
    {label : String} (hlabels : w.labels.find? name = some labels)
    (hlabel : labels[s]? = some label) :
    k.heap[i + s]? = some (w.im.listing.target label) := by
  cases h with
  | mk hframes hplaced =>
      rcases hplaced.ready with ⟨labels', hready, hcells⟩
      rw [hready.labelled, Option.some.injEq] at hlabels
      exact hcells s label (hlabels ▸ hlabel)

theorem floor (h : ClassAt w k name table scope i stack) :
    stack <:+ k.floor ∧ ∃ below, stack = heapAddress i :: below := by
  cases h with
  | mk hframes hplaced => exact ⟨hplaced.floor, _, rfl⟩

end ClassAt

end ClassLet
