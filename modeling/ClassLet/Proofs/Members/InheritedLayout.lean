import ClassLet.Proofs.Members.ClassOrder
import ClassLet.Proofs.Written

/-!
# Inherited layouts

Code that is written for a class finds the members of an object by their places alone. The table of
a class therefore begins with that of its superclass: every inherited member keeps its kind and its
place, and what is new goes behind.

Main statement: `ancestors_prefix`, the walk towards the root follows the declared superclasses up
to a class without one, and the table of each class on the way is continued by that of the first.
-/

namespace ClassLet

/-!
# Tables that continue others
-/

/-- The first table has all members of the second one, each of the same kind and in the same
place. -/
structure MemberTable.Continues (own above : MemberTable) : Prop where
  member : ∀ name b, above.member? name = some b →
    ∃ b', own.member? name = some b' ∧ b'.ty.isMethod = b.ty.isMethod ∧ b'.offset = b.offset
  slot : ∀ (s : Nat) (e : DispatchEntry), above.dispatch[s]? = some e →
    ∃ e', own.dispatch[s]? = some e' ∧ e'.name = e.name
  fields_le : above.fields.length ≤ own.fields.length
  slots_le : above.dispatch.length ≤ own.dispatch.length

/-- No field has the type of a method. -/
def MemberTable.Plain (t : MemberTable) : Prop :=
  ∀ ty ∈ t.fields, ty.isMethod = false

namespace MemberTable.Continues

variable {r s t : MemberTable}

theorem refl (t : MemberTable) : t.Continues t where
  member := fun _ b hb => ⟨b, hb, rfl, rfl⟩
  slot := fun _ e he => ⟨e, he, rfl⟩
  fields_le := Nat.le_refl _
  slots_le := Nat.le_refl _

theorem trans (hrs : r.Continues s) (hst : s.Continues t) : r.Continues t where
  member := by
    intro name b hb
    rcases hst.member name b hb with ⟨b', hb', hkind, hoffset⟩
    rcases hrs.member name b' hb' with ⟨b'', hb'', hkind', hoffset'⟩
    exact ⟨b'', hb'', hkind'.trans hkind, hoffset'.trans hoffset⟩
  slot := by
    intro s e he
    rcases hst.slot s e he with ⟨e', he', hname⟩
    rcases hrs.slot s e' he' with ⟨e'', he'', hname'⟩
    exact ⟨e'', he'', hname'.trans hname⟩
  fields_le := Nat.le_trans hst.fields_le hrs.fields_le
  slots_le := Nat.le_trans hst.slots_le hrs.slots_le

/-- The names of both kinds, in the order of their places, decide. -/
theorem of_names {names names' : List String} (habove : t.Named names) (hown : s.Named names')
    (hfields : names <+: names') (hmethods : t.methodNames <+: s.methodNames) (hplain : t.Plain)
    (hplain' : s.Plain) : s.Continues t := by
  have hat : ∀ {xs ys : List String} {i : Nat} {x : String}, xs <+: ys → xs[i]? = some x →
      ys[i]? = some x := by
    rintro xs ys i x ⟨rest, rfl⟩ hx
    rw [List.getElem?_append_left (List.getElem?_eq_some_iff.mp hx).1, hx]
  have hslot : ∀ (k : Nat) (e : DispatchEntry), t.dispatch[k]? = some e →
      ∃ e', s.dispatch[k]? = some e' ∧ e'.name = e.name := by
    intro k e he
    have hname : s.methodNames[k]? = some e.name := hat hmethods (by simp [methodNames, he])
    rw [methodNames, List.getElem?_map, Option.map_eq_some_iff] at hname
    exact hname
  constructor
  · intro name b hb
    rcases habove.member_cases hb with ⟨i, ty, hi, hty, rfl⟩ | ⟨k, e, he, rfl, rfl⟩
    · have hi' := hat hfields hi
      have hlt : i < s.fields.length := by
        rw [← hown.length_fields]
        exact (List.getElem?_eq_some_iff.mp hi').1
      have hty' : s.fields[i]? = some s.fields[i] := List.getElem?_eq_getElem hlt
      refine ⟨_, hown.field i name _ hi' hty', ?_, rfl⟩
      show s.fields[i].isMethod = ty.isMethod
      rw [hplain ty (List.mem_of_getElem? hty), hplain' _ (List.mem_of_getElem? hty')]
    · rcases hslot k e he with ⟨e', he', hname⟩
      have hbound := hown.method k e' he'
      rw [hname] at hbound
      exact ⟨_, hbound, rfl, rfl⟩
  · exact hslot
  · rw [← habove.length_fields, ← hown.length_fields]
    exact hfields.length_le
  · simpa [methodNames] using hmethods.length_le

end MemberTable.Continues

/-!
# One class and its superclass
-/

namespace ClassDeclared

variable {env : Environment} {header : ClassHeader} {methods : List Method}
  {inherited entered : MemberTable}

theorem plain (hclass : ClassDeclared env header methods inherited entered) {names : List String}
    (hnamed : inherited.Named names) (hinherited : inherited.Plain)
    (hfields : ∀ f ∈ header.fields, f.ty.ty.isMethod = false) :
    (env.plan header methods).table.Plain := by
  have hplaced := hclass.fieldsPlaced names hnamed
  intro ty hty
  rw [(hclass.methodsPlaced _ hplaced.named).fields] at hty
  rcases List.getElem?_of_mem hty with ⟨i, hi⟩
  rcases hplaced.origin i ty hi with hold | ⟨k, f, hf, _, rfl⟩
  · exact hinherited ty (List.mem_of_getElem? hold)
  · exact hfields f (List.mem_of_getElem? hf)

/-- The table of a class continues the one it starts from. -/
theorem continues (hclass : ClassDeclared env header methods inherited entered)
    {names : List String} (hnamed : inherited.Named names) (hinherited : inherited.Plain)
    (hplain : (env.plan header methods).table.Plain) :
    (env.plan header methods).table.Continues inherited := by
  refine MemberTable.Continues.of_names hnamed (hclass.named hnamed) (prefix_enterNames _ _) ?_
    hinherited hplain
  rw [hclass.methodNames hnamed]
  exact prefix_enterNames _ _

end ClassDeclared

/-!
# Programs
-/

namespace Program

/-- No class declares a field with the type of a method. -/
def PlainFields (p : Program) : Prop :=
  ∀ header methods, Decl.classDef header methods ∈ p.decls →
    ∀ f ∈ header.fields, f.ty.ty.isMethod = false

/-- The first class is declared with the second one as its superclass, and after it. -/
def Extends (p : Program) (sub super : String) : Prop :=
  ∃ i j above, j < i ∧ p.DeclaresClass i sub (some super) ∧ p.DeclaresClass j super above

variable {p : Program} {i : Nat} {header : ClassHeader} {methods : List Method}
  {inherited entered : MemberTable}

theorem extends_of_superclass? (hlink : p.link.errors = []) {sub super : String}
    (hedge : p.link.program.typing.hierarchy.superclass? sub = some super) :
    p.Extends sub super := by
  rcases declaresClass_of_superclass? hlink hedge with ⟨i, header, methods, hi, hname, hsuper⟩
  rcases class_at hlink hi with ⟨inherited, entered, hclass⟩
  rcases Option.map_eq_some_iff.mp hsuper with ⟨above, habove, habovename⟩
  rcases super_at hlink hclass habove with
    ⟨j, aboveHeader, others, _, _, hlt, hsuperclass, hsame, _⟩
  exact ⟨i, j, _, hlt, ⟨header, methods, hi, hname, hsuper⟩,
    ⟨aboveHeader, others, hsuperclass.position, hsame.trans habovename, rfl⟩⟩

/-- One class stands before another one. -/
def DeclaredBefore (p : Program) (first second : String) : Prop :=
  ∃ i j super super', i < j ∧ p.DeclaresClass i first super ∧ p.DeclaresClass j second super'

theorem declaresClass_unique (hlink : p.link.errors = []) {i j : Nat} {name : String}
    {super super' : Option String} (hi : p.DeclaresClass i name super)
    (hj : p.DeclaresClass j name super') : i = j := by
  rcases hi with ⟨header, methods, hi, hname, _⟩
  rcases hj with ⟨header', methods', hj, hname', _⟩
  rcases class_at hlink hi with ⟨_, _, hclass⟩
  rcases class_at hlink hj with ⟨_, _, hclass'⟩
  exact position_unique hlink hclass hclass' (hname.trans hname'.symm)

theorem ancestors_distinct (hlink : p.link.errors = []) (name : String) :
    (p.link.program.typing.hierarchy.ancestors name).Nodup := by
  let above : String → String → Prop := fun sub super => p.DeclaredBefore super sub
  have htrans : ∀ a b c, above a b → above b c → above a c := by
    rintro a b c ⟨i, j, _, _, hij, hb, ha⟩ ⟨k, l, _, _, hkl, hc, hb'⟩
    have hsame := declaresClass_unique hlink hb hb'
    exact ⟨k, j, _, _, by omega, hc, ha⟩
  have hirrefl : ∀ a, ¬above a a := by
    rintro a ⟨i, j, _, _, hij, hi, hj⟩
    have hsame := declaresClass_unique hlink hi hj
    omega
  refine Hierarchy.ancestors_nodup htrans hirrefl ?_ name
  intro sub super hedge
  rcases extends_of_superclass? hlink hedge with ⟨i, j, _, hlt, hsub, hsuper⟩
  exact ⟨j, i, _, _, hlt, hsuper, hsub⟩

theorem plain_table (hplain : p.PlainFields) (hlink : p.link.errors = []) :
    ∀ {i : Nat} {header : ClassHeader} {methods : List Method} {inherited entered : MemberTable},
      p.ClassAt i header methods inherited entered →
      inherited.Plain ∧ ((p.before i).plan header methods).table.Plain := by
  intro i
  -- The superclass stands before the class.
  induction i using Nat.strongRecOn with
  | ind i ih =>
      intro header methods inherited entered hclass
      rcases hclass.atTop.named_inherited hclass.declared.inherits with ⟨names, hnamed⟩
      have hinherited : inherited.Plain := by
        cases hsuper : header.super with
        | none =>
            have hinherits := hclass.declared.inherits
            simp only [Environment.inherited, hsuper, Except.ok.injEq] at hinherits
            rw [← hinherits]
            intro ty hty
            cases hty
        | some super =>
            rcases super_at hlink hclass hsuper with ⟨j, _, _, _, _, hlt, habove, _, rfl⟩
            exact (ih j hlt habove).2
      exact ⟨hinherited, hclass.declared.plain hnamed hinherited
        (hplain header methods (List.mem_of_getElem? hclass.position))⟩

/-- The table of a class continues that of its superclass. -/
theorem continues_of_superclass? (hplain : p.PlainFields) (hlink : p.link.errors = [])
    {sub super : String} {own : MemberTable}
    (hedge : p.link.program.typing.hierarchy.superclass? sub = some super)
    (hown : p.link.classes.find? sub = some own) :
    ∃ above, p.link.classes.find? super = some above ∧ own.Continues above := by
  rcases declaresClass_of_superclass? hlink hedge with ⟨i, header, methods, hi, rfl, hsuper⟩
  rcases class_at hlink hi with ⟨inherited, entered, hclass⟩
  rcases Option.map_eq_some_iff.mp hsuper with ⟨above, habove, rfl⟩
  rcases super_at hlink hclass habove with ⟨j, _, _, _, _, _, hsuperclass, hname, htable⟩
  rcases hclass.atTop.named_inherited hclass.declared.inherits with ⟨names, hnamed⟩
  rcases plain_table hplain hlink hclass with ⟨hinherited, hplaintable⟩
  have hfind := hclass.table
  rw [hown, Option.some.injEq] at hfind
  subst hfind
  refine ⟨inherited, ?_, hclass.declared.continues hnamed hinherited hplaintable⟩
  rw [← hname, hsuperclass.table, htable]

theorem continues_of_descends (hplain : p.PlainFields) (hlink : p.link.errors = [])
    {sub super : String} {own : MemberTable}
    (hdescends : p.link.program.typing.hierarchy.Descends sub super)
    (hown : p.link.classes.find? sub = some own) :
    ∃ above, p.link.classes.find? super = some above ∧ own.Continues above := by
  induction hdescends generalizing own with
  | refl => exact ⟨own, hown, MemberTable.Continues.refl own⟩
  | step hedge _ ih =>
      rcases continues_of_superclass? hplain hlink hedge hown with ⟨next, hnext, hcontinues⟩
      rcases ih hnext with ⟨above, habove, hcontinues'⟩
      exact ⟨above, habove, hcontinues.trans hcontinues'⟩

theorem ancestors_prefix {p : Program} (hplain : p.PlainFields) (hlink : p.link.errors = [])
    {header : ClassHeader} {methods : List Method}
    (hclass : Decl.classDef header methods ∈ p.decls) {chain : List String}
    (hchain : chain = p.link.program.typing.hierarchy.ancestors header.id.name) :
    chain.head? = some header.id.name ∧ chain.Nodup ∧ chain.IsChain p.Extends ∧
      (∀ root ∈ chain.getLast?, ∃ i, p.DeclaresClass i root none) ∧
      ∃ own, p.link.classes.find? header.id.name = some own ∧
        ∀ above ∈ chain, ∃ inherited, p.link.classes.find? above = some inherited ∧
          own.Continues inherited := by
  subst hchain
  rcases List.getElem?_of_mem hclass with ⟨i, hi⟩
  rcases class_at hlink hi with ⟨inherited, entered, hclassAt⟩
  have hnodup := ancestors_distinct hlink header.id.name
  have habove : ∀ above ∈ p.link.program.typing.hierarchy.ancestors header.id.name,
      ∃ inherited, p.link.classes.find? above = some inherited ∧
        ((p.before i).plan header methods).table.Continues inherited := by
    intro above hmem
    rw [Hierarchy.mem_ancestors_iff] at hmem
    exact continues_of_descends hplain hlink hmem hclassAt.table
  refine ⟨Hierarchy.head?_ancestors _ _, hnodup, ?_, ?_, _, hclassAt.table, habove⟩
  · exact (Hierarchy.ancestors_isChain _ _).imp fun sub super hedge =>
      extends_of_superclass? hlink hedge
  · intro root hroot
    rcases habove root (List.mem_of_getLast? hroot) with ⟨table, hfind, _⟩
    rcases Environment.atTop_start.exists_class (linkErrorsAll_of_link hlink) hfind with
      hknown | ⟨j, rootHeader, rootMethods, hj, hname⟩
    · simp [Environment.start] at hknown
    · have hdeclares : p.DeclaresClass j root (rootHeader.super.map Ident.name) :=
        ⟨rootHeader, rootMethods, hj, hname, rfl⟩
      have hnone := Hierarchy.superclass?_getLast_ancestors hnodup hroot
      exact ⟨j, super_eq_none hlink hnone hdeclares ▸ hdeclares⟩

/-- Each class adds a field and a method to those it inherits and declares one of them again. -/
def extending : Program :=
  { decls := [
      Written.classOf "Base" none [("f", .int)]
        [Written.method "m" [] .int ⟨[], .int Written.start 0⟩],
      Written.classOf "Middle" (some "Base") [("g", .bool), ("f", .bool)]
        [Written.method "n" [] .bool ⟨[], .bool Written.start true⟩],
      Written.classOf "Leaf" (some "Middle") [("h", .ref "Leaf")]
        [Written.method "k" [] .int ⟨[], .int Written.start 1⟩,
          Written.method "m" [] .bool ⟨[], .bool Written.start false⟩]]
    body := .int Written.start 0
    pos := Written.start }

theorem ancestors_prefix_extending :
    extending.PlainFields ∧ extending.link.errors = [] ∧
      ∃ header methods, Decl.classDef header methods ∈ extending.decls ∧
        header.id.name = "Leaf" ∧
        ["Leaf", "Middle", "Base"] =
          extending.link.program.typing.hierarchy.ancestors header.id.name ∧
        ["Leaf", "Middle", "Base"].IsChain extending.Extends ∧
        (∃ i, extending.DeclaresClass i "Base" none) ∧
        ∃ own, extending.link.classes.find? "Leaf" = some own ∧
          ∀ above ∈ ["Leaf", "Middle", "Base"],
            ∃ inherited, extending.link.classes.find? above = some inherited ∧
              own.Continues inherited := by
  have hplain : extending.PlainFields := by
    intro header methods hmem
    simp only [extending, Written.classOf, List.mem_cons, Decl.classDef.injEq, List.not_mem_nil,
      or_false] at hmem
    rcases hmem with ⟨rfl, rfl⟩ | ⟨rfl, rfl⟩ | ⟨rfl, rfl⟩ <;> decide
  have hlink : extending.link.errors = [] := by decide
  have hclass := List.mem_of_getElem? (l := extending.decls) (i := 2) rfl
  have hchain : ["Leaf", "Middle", "Base"] =
      extending.link.program.typing.hierarchy.ancestors "Leaf" := by decide
  rcases ancestors_prefix hplain hlink hclass hchain with ⟨_, _, hextends, hroot, own, hown, habove⟩
  exact ⟨hplain, hlink, _, _, hclass, rfl, hchain, hextends, hroot "Base" rfl, own, hown, habove⟩

end Program

end ClassLet
