import ClassLet.Proofs.Simulation.Frames

/-!
# Members of visible classes

The table of a class, which is laid out in advance, and the members that are found by walking from
the declaration of the class to those of its superclasses agree: the names stand in the same order,
and the routine in a slot is that of the method found under the name of the slot.

Main statements: `Frames.named` and `Frames.serves`.
-/

namespace ClassLet

/-- Each class starts from the table of its superclass, or from an empty one. -/
theorem Environment.inherited_cases {env : Environment} {header : ClassHeader}
    {inherited : MemberTable} (h : env.inherited header = .ok inherited) :
    (header.super = none ∧ inherited = MemberTable.empty) ∨
    ∃ super, header.super = some super ∧ env.classes.find? super.name = some inherited := by
  unfold Environment.inherited at h
  cases hsuper : header.super with
  | none =>
      rw [hsuper] at h
      cases h
      exact Or.inl ⟨rfl, rfl⟩
  | some super =>
      simp only [hsuper] at h
      split at h
      · rename_i table hfind
        cases h
        exact Or.inr ⟨super, rfl, hfind⟩
      · cases h

theorem MemberTable.Named.nodup_methodNames {t : MemberTable} {fields : List String}
    (h : t.Named fields) : t.methodNames.Nodup :=
  (List.nodup_append.mp h.nodup).2.1

/-- The method that a class itself declares under a name. -/
theorem find?_method {methods : List Method} {m : Method} {k : Nat}
    (hdistinct : (methods.map fun m => m.header.id.name).Nodup) (hm : methods[k]? = some m) :
    (methods.find? fun other => other.header.id.name == m.header.id.name) = some m := by
  induction methods generalizing k with
  | nil => simp at hm
  | cons first methods ih =>
      simp only [List.map_cons, List.nodup_cons] at hdistinct
      cases k with
      | zero =>
          simp only [List.getElem?_cons_zero, Option.some.injEq] at hm
          subst hm
          simp
      | succ k =>
          have hmem : m ∈ methods := List.mem_of_getElem? (by simpa using hm)
          have hne : first.header.id.name ≠ m.header.id.name := fun heq =>
            hdistinct.1 (heq ▸ List.mem_map.mpr ⟨m, hmem, rfl⟩)
          have hbeq : (first.header.id.name == m.header.id.name) = false := by simpa using hne
          rw [List.find?_cons, hbeq]
          exact ih hdistinct.2 (by simpa using hm)

namespace ClassDeclared

variable {env : Environment} {header : ClassHeader} {methods : List Method}
  {inherited entered : MemberTable}

/-- The entry in a slot belongs to a method of the class itself, or to the superclass if no method
of the class is placed there. -/
theorem slot_cases (hclass : ClassDeclared env header methods inherited entered)
    {names : List String} (hnamed : inherited.Named names) {s : Nat} {e : DispatchEntry}
    (he : (env.plan header methods).table.dispatch[s]? = some e) :
    (∃ (k : Nat) (m : Method), methods[k]? = some m ∧
      (env.plan header methods).methodPlaces[k]? = some (Except.ok s) ∧ entryOf m = e) ∨
    (inherited.dispatch[s]? = some e ∧
      (∀ k : Nat, (env.plan header methods).methodPlaces[k]? ≠ some (Except.ok s)) ∧
      (methods.find? fun m => m.header.id.name == e.name) = none) := by
  have hfields := hclass.fieldsPlaced names hnamed
  have hmethods := hclass.methodsPlaced _ hfields.named
  have hplaced : ∀ k s' : Nat, (env.plan header methods).methodPlaces[k]? = some (Except.ok s') →
      ∃ m, methods[k]? = some m ∧
        (env.plan header methods).table.dispatch[s']? = some (entryOf m) := by
    intro k s' hplace
    have hlt : k < methods.length := by
      rw [← hmethods.length_places]
      exact (List.getElem?_eq_some_iff.mp hplace).1
    have hm : methods[k]? = some methods[k] := List.getElem?_eq_getElem hlt
    exact ⟨_, hm, hmethods.placed k _ s' hm hplace⟩
  by_cases hown : ∃ k : Nat, (env.plan header methods).methodPlaces[k]? = some (Except.ok s)
  · rcases hown with ⟨k, hk⟩
    rcases hplaced k s hk with ⟨m, hm, hentry⟩
    rw [he, Option.some.injEq] at hentry
    exact Or.inl ⟨k, m, hm, hk, hentry.symm⟩
  · have hnone : ∀ k : Nat, (env.plan header methods).methodPlaces[k]? ≠ some (Except.ok s) :=
      fun k hk => hown ⟨k, hk⟩
    rcases hmethods.origin s e he with hold | ⟨k, m, hm, hk, hentry⟩
    · rw [hfields.dispatch] at hold
      refine Or.inr ⟨hold, hnone, ?_⟩
      rw [List.find?_eq_none]
      intro m hm hname
      rcases List.getElem?_of_mem hm with ⟨k, hk⟩
      have hlt : k < (env.plan header methods).methodPlaces.length := by
        rw [hmethods.length_places]
        exact (List.getElem?_eq_some_iff.mp hk).1
      rcases hclass.methodsAllPlaced _ (List.getElem_mem hlt) with ⟨s', hs'⟩
      have hplace : (env.plan header methods).methodPlaces[k]? = some (Except.ok s') := by
        rw [List.getElem?_eq_getElem hlt, hs']
      have hentry := hmethods.placed k m s' hk hplace
      have hsame : s' = s := by
        have hnodup := hmethods.named.nodup_methodNames
        have hfirst : (env.plan header methods).table.methodNames[s']? = some e.name := by
          rw [MemberTable.methodNames, List.getElem?_map, hentry]
          simpa [entryOf] using hname
        have hsecond : (env.plan header methods).table.methodNames[s]? = some e.name := by
          rw [MemberTable.methodNames, List.getElem?_map, he]
          rfl
        exact (List.getElem?_inj (List.getElem?_eq_some_iff.mp hfirst).1 hnodup).mp
          (hfirst.trans hsecond.symm)
      exact hnone k (hsame ▸ hplace)
    · exact absurd hk (hnone k)

end ClassDeclared

/-- The method found for an entry of a dispatch table, with its routine. -/
inductive Serves (w : World) (k : Snapshot) (name : String) (e : DispatchEntry) :
    FoundMethod → Nat → Prop where
  | mk {env : Environment} {visible : Visible} {stack : List Int32} {header : ClassHeader}
      {methods : List Method} {m : Method} {i entry : Nat} :
      Frames w k false env visible w.topBase stack →
      ClassPlaced w k env header methods i stack →
      entryOf m = e →
      BodyReady w true (env.methodScope header methods) m.header m.body entry →
      w.hierarchy.Descends name header.id.name →
      Serves w k name e
        { className := header.id.name, scope := .classDef header methods :: visible, method := m }
        entry

namespace Frames

variable {w : World} {k : Snapshot} {inside : Bool} {env : Environment} {visible : Visible}
  {base : Int32} {stack : List Int32}

/-- The names of the members in the table are those found by walking to the superclasses. -/
theorem named (h : Frames w k inside env visible base stack) {name : String}
    {table : MemberTable} (hfind : env.classes.find? name = some table) :
    table.Named (visible.fieldNames name) ∧ table.methodNames = visible.methodNames name := by
  induction h generalizing name table with
  | start => simp [Environment.start] at hfind
  | value _ _ _ _ ih => exact ih hfind
  | function _ _ _ _ ih => exact ih hfind
  | @classDef env visible stack header methods i hframes hplaced ih =>
      rcases hplaced.ready with ⟨labels, hready, _⟩
      rw [hready.classes] at hfind
      by_cases hname : name = header.id.name
      · rw [if_pos hname, Option.some.injEq] at hfind
        subst hname hfind
        rcases hready.declared with ⟨inherited, entered, hclass⟩
        rcases Environment.inherited_cases hclass.inherits with
          ⟨hsuper, rfl⟩ | ⟨super, hsuper, hknown⟩
        · have hnamed := MemberTable.named_empty
          constructor
          · simpa [Visible.fieldNames, Visible.memberNames, hsuper] using hclass.named hnamed
          · simpa [Visible.methodNames, Visible.memberNames, hsuper, MemberTable.methodNames,
              MemberTable.empty] using hclass.methodNames hnamed
        · rcases ih hknown with ⟨hnamed, hmethodNames⟩
          constructor
          · simpa [Visible.fieldNames, Visible.memberNames, hsuper] using hclass.named hnamed
          · have hnames := hclass.methodNames hnamed
            rw [hmethodNames] at hnames
            simpa [Visible.methodNames, Visible.memberNames, hsuper] using hnames
      · rw [if_neg hname] at hfind
        simpa [Visible.fieldNames, Visible.methodNames, Visible.memberNames, Ne.symm hname]
          using ih hfind
  | enter _ _ _ _ ih =>
      simpa [Visible.fieldNames, Visible.methodNames, Visible.memberNames_withArguments]
        using ih hfind
  | members _ _ _ _ ih => exact ih hfind

/-- The routine in a slot is that of the method found under the name of the slot. -/
theorem serves (h : Frames w k inside env visible base stack) {name : String}
    {table : MemberTable} (hfind : env.classes.find? name = some table) {s : Nat}
    {e : DispatchEntry} (he : table.dispatch[s]? = some e) :
    ∃ labels label found entry, w.labels.find? name = some labels ∧
      labels.length = table.dispatch.length ∧ labels[s]? = some label ∧
      w.im.listing.address? label = some entry ∧ visible.method? e.name name = some found ∧
      Serves w k name e found entry := by
  induction h generalizing name table with
  | start => simp [Environment.start] at hfind
  | value _ _ _ _ ih => exact ih hfind he
  | function _ _ _ _ ih => exact ih hfind he
  | @classDef env visible stack header methods i hframes hplaced ih =>
      rcases hplaced.ready with ⟨labels, hready, _⟩
      rw [hready.classes] at hfind
      by_cases hname : name = header.id.name
      · rw [if_pos hname, Option.some.injEq] at hfind
        subst hname hfind
        rcases hready.declared with ⟨inherited, entered, hclass⟩
        rcases hready.atTop.named_inherited hclass.inherits with ⟨names, hnamed⟩
        rcases hclass.slot_cases hnamed he with ⟨k, m, hm, hslot, hentry⟩ | ⟨hold, hnone, hfresh⟩
        · rcases hready.own k m s hm hslot with ⟨label, entry, hlabel, haddress, hbody⟩
          refine ⟨labels, label, _, entry, hready.labelled, hready.length, hlabel, haddress, ?_,
            Serves.mk hframes hplaced hentry hbody (Hierarchy.Descends.refl _)⟩
          rw [Visible.method?, if_pos rfl, ← hentry, entryOf,
            find?_method hclass.methodsDistinct hm]
        · rcases Environment.inherited_cases hclass.inherits with
            ⟨_, rfl⟩ | ⟨super, hsuper, hknown⟩
          · simp [MemberTable.empty] at hold
          · rcases ih hknown hold with
              ⟨above, label, found, entry, habove, hlength, hlabel, haddress, hmethod, hserves⟩
            have hlt : s < above.length := (List.getElem?_eq_some_iff.mp hlabel).1
            refine ⟨labels, label, found, entry, hready.labelled, hready.length, ?_, haddress,
              ?_, ?_⟩
            · rw [hready.inherited super above hsuper habove s hlt hnone, hlabel]
            · rw [Visible.method?, if_pos rfl, hfresh, hsuper]
              exact hmethod
            · cases hserves with
              | mk hframes' hplaced' hentry hbody hdescends =>
                  exact Serves.mk hframes' hplaced' hentry hbody
                    (Hierarchy.Descends.step (hready.edge super hsuper) hdescends)
      · rw [if_neg hname] at hfind
        rcases ih hfind he with
          ⟨labels', label, found, entry, hlabels, hlength, hlabel, haddress, hmethod, hserves⟩
        refine ⟨labels', label, found, entry, hlabels, hlength, hlabel, haddress, ?_, hserves⟩
        rw [Visible.method?, if_neg (Ne.symm hname)]
        exact hmethod
  | enter _ _ _ _ ih =>
      rw [Visible.method?_withArguments]
      exact ih hfind he
  | members _ _ _ _ ih => exact ih hfind he

end Frames

end ClassLet
