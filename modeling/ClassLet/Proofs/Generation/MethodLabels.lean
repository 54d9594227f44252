import ClassLet.Proofs.Generation.DispatchTables
import ClassLet.Proofs.Generation.ProgramCode
import ClassLet.Proofs.Members.ClassOrder
import ClassLet.Proofs.Written

/-!
# The labels in dispatch tables

Linking assigns the slots of methods, and generation fills a table of labels that it starts from
the one of the superclass. The two agree: behind each slot stands the body of the method of that
name in the class itself or, if it declares none, in the nearest class above that does.

Main statement: `Program.dispatch_labels`.
-/

namespace ClassLet

/-- The methods that a declaration has. -/
def Decl.methods : Decl → List Method
  | .classDef _ methods => methods
  | _ => []

/-!
# The code of declarations, one by one
-/

/-- The code of the declarations can be told apart, and no table is replaced once it is known. -/
theorem Decl.CompiledAll.pieces {has : List Item → Prop} {ctx : CodeContext} {ds : List Decl}
    {known known' : DispatchLabels} {env : Environment} (henv : env.AtTop)
    (hknows : KnowsTables known env) (hok : Decl.linkErrorsAll env ds = []) {n : Nat}
    {items : List Item} (h : Decl.CompiledAll has ctx n known known' (Decl.linkAll env ds) items) :
    ∃ pieces : List (List Item), pieces.length = ds.length ∧ pieces.flatten = items ∧
      ∀ (i : Nat) (d : Decl), ds[i]? = some d → ∃ piece known₁ known₂, pieces[i]? = some piece ∧
        KnowsTables known₁ (env.afterAll (ds.take i)) ∧
        (d.link (env.afterAll (ds.take i))).Compiled has ctx (n + Decl.bodyCountAll (ds.take i))
          known₁ known₂ piece ∧
        (∀ name labels, known₁.find? name = some labels → known'.find? name = some labels) ∧
        (∀ name labels, known₂.find? name = some labels → known'.find? name = some labels) := by
  induction ds generalizing n known env items with
  | nil =>
      unfold Decl.linkAll Decl.CompiledAll at h
      refine ⟨[], rfl, h.2.symm, ?_⟩
      intro i d hd
      cases hd
  | cons d ds ih =>
      simp only [Decl.linkErrorsAll, List.append_eq_nil_iff] at hok
      unfold Decl.linkAll Decl.CompiledAll at h
      rcases h with ⟨known₁, xs, ys, rfl, hfirst, hrest⟩
      rw [Decl.bodyCount_link] at hrest
      rcases hknows.after henv hok.1 hfirst with ⟨hknows', hkeeps⟩
      rcases ih (henv.after hok.1) hknows' hok.2 hrest with ⟨pieces, hlength, rfl, hpieces⟩
      refine ⟨xs :: pieces, by rw [List.length_cons, hlength, List.length_cons], rfl, ?_⟩
      intro i d' hd'
      cases i with
      | zero =>
          obtain rfl : d = d' := Option.some.inj hd'
          have hkeeps' := hknows'.afterAll (henv.after hok.1) hok.2 hrest
          exact ⟨xs, known, known₁, rfl, hknows, hfirst,
            fun name labels hfind => hkeeps' name labels (hkeeps name labels hfind), hkeeps'⟩
      | succ i =>
          rw [List.take_succ_cons, Decl.bodyCountAll, ← Nat.add_assoc]
          exact hpieces i d' hd'

namespace Program

/-!
# Methods and their labels
-/

/-- The class at the first position has the method of the name from the class at the second one: its
own method, or else that of its superclass. -/
inductive Provides (p : Program) (name : String) : Nat → Nat → Nat → Prop where
  | own {i k : Nat} {header : ClassHeader} {methods : List Method} {m : Method} :
      p.decls[i]? = some (.classDef header methods) →
      methods[k]? = some m →
      m.header.id.name = name →
      p.Provides name i i k
  | inherited {i above j k : Nat} {header : ClassHeader} {methods : List Method} {super : Ident}
      {superHeader : ClassHeader} {others : List Method} :
      p.decls[i]? = some (.classDef header methods) →
      (∀ m ∈ methods, m.header.id.name ≠ name) →
      header.super = some super →
      p.decls[above]? = some (.classDef superHeader others) →
      superHeader.id.name = super.name →
      p.Provides name above j k →
      p.Provides name i j k

/-- The number of a method of a class: how many functions and methods stand before it. -/
def methodNumber (p : Program) (j k : Nat) : Nat :=
  Decl.bodyCountAll (p.decls.take j) +
    Method.bodyCountAll (((p.decls[j]?.map Decl.methods).getD []).take k)

/-- The label of the body of a method of a class. -/
def methodLabel (p : Program) (j k : Nat) : String :=
  functionText (p.methodNumber j k)

/-- The code of the declarations and the bodies of the functions and methods in a listing. -/
structure Sections (p : Program) (memorySize : Int32) (l : Listing)
    (pieces bodies : List (List Item)) : Prop where
  readable : l.Readable
  divided : ∃ n, l.Divided (p.link.program.mainCode (context memorySize) pieces.flatten n) bodies
  piece : ∀ (i : Nat) (d : Decl), p.decls[i]? = some d → ∃ piece known known',
    pieces[i]? = some piece ∧
      (d.link (p.before i)).Compiled (fun segment => segment ∈ bodies) (context memorySize)
        (Decl.bodyCountAll (p.decls.take i)) known known' piece
  method : ∀ (j : Nat) (header : ClassHeader) (methods : List Method) (k : Nat) (m : Method),
    p.decls[j]? = some (.classDef header methods) → methods[k]? = some m → ∃ known known',
      (m.body.link (((p.before j).methodScope header methods).enter m.header.params)).Compiled
        (fun segment => segment ∈ bodies) { context memorySize with insideClass := true }
        (p.methodNumber j k + 1) known known' (p.methodLabel j k) m.header.params.length

/-!
# Slots and labels
-/

variable {p : Program}

theorem methodNumber_eq {j : Nat} {header : ClassHeader} {methods : List Method}
    (h : p.decls[j]? = some (.classDef header methods)) (k : Nat) :
    p.methodNumber j k =
      Decl.bodyCountAll (p.decls.take j) + Method.bodyCountAll (methods.take k) := by
  rw [methodNumber, h]
  rfl

/-- A table of labels has, in each slot of the class at the position, the label of the method that
the class provides. -/
structure Labelled (p : Program) (known : DispatchLabels) (pieces : List (List Item)) (i : Nat)
    (name : String) (table : MemberTable) (labels : List String) : Prop where
  known : known.find? name = some labels
  piece : pieces[i]? = some (.bare .pushHp :: Code.storeLabels labels)
  length : labels.length = table.dispatch.length
  slot : ∀ (s : Nat) (e : DispatchEntry), table.dispatch[s]? = some e →
    ∃ j k, p.Provides e.name i j k ∧ labels[s]? = some (p.methodLabel j k)

/-- Every method of a class has a place. -/
theorem ClassAt.place {i : Nat} {header : ClassHeader} {methods : List Method}
    {inherited entered : MemberTable} (hclass : p.ClassAt i header methods inherited entered)
    {k : Nat} {m : Method} (hm : methods[k]? = some m) :
    ∃ s, ((p.before i).plan header methods).methodPlaces[k]? = some (.ok s) := by
  rcases hclass.atTop.named_inherited hclass.declared.inherits with ⟨names, hnamed⟩
  have hplaced := hclass.declared.methodsPlaced _ (hclass.declared.fieldsPlaced names hnamed).named
  have hlt : k < ((p.before i).plan header methods).methodPlaces.length := by
    rw [hplaced.length_places]
    exact (List.getElem?_eq_some_iff.mp hm).1
  rcases hclass.declared.methodsAllPlaced _ (List.getElem_mem hlt) with ⟨s, hs⟩
  exact ⟨s, by rw [List.getElem?_eq_getElem hlt, hs]⟩

/-- What is in a slot is a method of the class itself, or it is inherited and no method of the class
has its name. -/
theorem ClassAt.slot_cases {i : Nat} {header : ClassHeader} {methods : List Method}
    {inherited entered : MemberTable} (hclass : p.ClassAt i header methods inherited entered)
    {s : Nat} {e : DispatchEntry}
    (he : ((p.before i).plan header methods).table.dispatch[s]? = some e) :
    (∃ (k : Nat) (m : Method), methods[k]? = some m ∧ m.header.id.name = e.name ∧
      ((p.before i).plan header methods).methodPlaces[k]? = some (.ok s)) ∨
      ((∀ m ∈ methods, m.header.id.name ≠ e.name) ∧ inherited.dispatch[s]? = some e ∧
        ∀ k : Nat, ((p.before i).plan header methods).methodPlaces[k]? ≠ some (.ok s)) := by
  rcases hclass.atTop.named_inherited hclass.declared.inherits with ⟨names, hnamed⟩
  have hfields := hclass.declared.fieldsPlaced names hnamed
  have hplaced := hclass.declared.methodsPlaced _ hfields.named
  by_cases hown : ∃ (k : Nat) (m : Method), methods[k]? = some m ∧ m.header.id.name = e.name
  · rcases hown with ⟨k, m, hm, hname⟩
    rcases hclass.place hm with ⟨s', hs'⟩
    have hentry := hplaced.placed k m s' hm hs'
    -- No name has two slots.
    have hlt : s < ((p.before i).plan header methods).table.methodNames.length := by
      rw [MemberTable.methodNames, List.length_map]
      exact (List.getElem?_eq_some_iff.mp he).1
    have hsame : s = s' := by
      refine (List.getElem?_inj hlt (List.nodup_append.mp hplaced.named.nodup).2.1).mp ?_
      rw [MemberTable.methodNames, List.getElem?_map, List.getElem?_map, he, hentry]
      exact congrArg some hname.symm
    exact Or.inl ⟨k, m, hm, hname, hsame ▸ hs'⟩
  · have hnone : ∀ (k : Nat) (m : Method), methods[k]? = some m → m.header.id.name ≠ e.name :=
      fun k m hm hname => hown ⟨k, m, hm, hname⟩
    refine Or.inr ⟨?_, ?_, ?_⟩
    · intro m hm
      rcases List.getElem?_of_mem hm with ⟨k, hk⟩
      exact hnone k m hk
    · rcases hplaced.origin s e he with hold | ⟨k, m, hm, _, rfl⟩
      · rwa [hfields.dispatch] at hold
      · exact absurd rfl (hnone k m hm)
    · intro k hk
      have hlt : k < methods.length := by
        rw [← hplaced.length_places]
        exact (List.getElem?_eq_some_iff.mp hk).1
      have hm : methods[k]? = some methods[k] := List.getElem?_eq_getElem hlt
      have hentry := hplaced.placed k _ s hm hk
      rw [he, Option.some.injEq] at hentry
      exact hnone k _ hm (congrArg DispatchEntry.name hentry).symm

/-- The slots of one class, given the labels of the classes before it. -/
theorem ClassAt.labelled {memorySize : Int32} {bodies pieces : List (List Item)}
    {final known known' : DispatchLabels} {i n : Nat} {piece : List Item} {header : ClassHeader}
    {methods : List Method} {inherited entered : MemberTable}
    (hclass : p.ClassAt i header methods inherited entered)
    (hok : (Decl.classDef header methods).linkErrors (p.before i) = [])
    (hn : n = Decl.bodyCountAll (p.decls.take i)) (hpiece : pieces[i]? = some piece)
    (hcompiled : ((Decl.classDef header methods).link (p.before i)).Compiled
      (fun segment => segment ∈ bodies) (context memorySize) n known known' piece)
    (hkeeps : ∀ name labels, known'.find? name = some labels → final.find? name = some labels)
    (habove : ∀ super, header.super = some super →
      ∃ (j : Nat) (above : ClassHeader) (others : List Method) (labels : List String),
        p.decls[j]? = some (.classDef above others) ∧ above.id.name = super.name ∧
          known.find? super.name = some labels ∧
          p.Labelled final pieces j super.name inherited labels) :
    ∃ labels, p.Labelled final pieces i header.id.name
      ((p.before i).plan header methods).table labels := by
  rcases KnowsTables.compiled_class hclass.atTop hok hcompiled with
    ⟨labels, hlength, hmethods, rfl, rfl⟩
  rcases hclass.atTop.named_inherited hclass.declared.inherits with ⟨names, hnamed⟩
  have hplaced := hclass.declared.methodsPlaced _ (hclass.declared.fieldsPlaced names hnamed).named
  rcases hmethods.slots _ hclass.declared.methodsAllPlaced hplaced.length_places
    (hplaced.differentPlaces hclass.declared.methodsDistinct) with ⟨hown, hothers⟩
  refine ⟨labels, hkeeps _ _ (NameMap.find?_insert_self _ _ _), hpiece, hlength, ?_⟩
  intro s e he
  rcases hclass.slot_cases he with ⟨k, m, hm, hname, hplace⟩ | ⟨hnone, hinherited, hfree⟩
  · rcases hown k m s hm hplace with ⟨_, _, hlabel, _⟩
    refine ⟨i, k, Provides.own hclass.position hm hname, ?_⟩
    rw [hlabel, hn, methodLabel, methodNumber_eq hclass.position]
  · rw [hothers s hfree]
    cases hsuper : header.super with
    | none =>
        have hinherits := hclass.declared.inherits
        simp only [Environment.inherited, hsuper, Except.ok.injEq] at hinherits
        rw [← hinherits] at hinherited
        cases hinherited
    | some super =>
        rcases habove super hsuper with ⟨j, above, others, labels', hj, hjname, hfind, hlabelled⟩
        rcases hlabelled.slot s e hinherited with ⟨j', k, hprovides, hlabel⟩
        refine ⟨j', k, Provides.inherited hclass.position hnone hsuper hj hjname hprovides, ?_⟩
        simpa [ClassHeader.inheritedLabels, hsuper, hfind] using hlabel

theorem linkErrors_at (hlink : p.link.errors = []) {i : Nat} {d : Decl}
    (hd : p.decls[i]? = some d) : d.linkErrors (p.before i) = [] := by
  have hok := linkErrorsAll_of_link hlink
  rw [split_at hd, Decl.linkErrorsAll_append, List.append_eq_nil_iff] at hok
  simp only [Decl.linkErrorsAll, List.append_eq_nil_iff] at hok
  exact hok.2.1

/-- The method of a class stands under its label. -/
theorem ClassAt.method_compiled {bodies : List (List Item)} {ctx : CodeContext} {piece : List Item}
    {known known' : DispatchLabels} {j : Nat} {header : ClassHeader} {methods : List Method}
    {inherited entered : MemberTable} (hclass : p.ClassAt j header methods inherited entered)
    (hok : (Decl.classDef header methods).linkErrors (p.before j) = [])
    (hcompiled : ((Decl.classDef header methods).link (p.before j)).Compiled
      (fun segment => segment ∈ bodies) ctx (Decl.bodyCountAll (p.decls.take j)) known known' piece)
    {k : Nat} {m : Method} (hm : methods[k]? = some m) :
    ∃ known known',
      (m.body.link (((p.before j).methodScope header methods).enter m.header.params)).Compiled
        (fun segment => segment ∈ bodies) { ctx with insideClass := true }
        (p.methodNumber j k + 1) known known' (p.methodLabel j k) m.header.params.length := by
  rcases KnowsTables.compiled_class hclass.atTop hok hcompiled with ⟨labels, _, hmethods, _, _⟩
  rcases hclass.atTop.named_inherited hclass.declared.inherits with ⟨names, hnamed⟩
  have hplaced := hclass.declared.methodsPlaced _ (hclass.declared.fieldsPlaced names hnamed).named
  rcases hmethods.slots _ hclass.declared.methodsAllPlaced hplaced.length_places
    (hplaced.differentPlaces hclass.declared.methodsDistinct) with ⟨hown, _⟩
  rcases hclass.place hm with ⟨s, hs⟩
  rcases hown k m s hm hs with ⟨known₁, known₂, _, hbody⟩
  rw [methodLabel, methodNumber_eq hclass.position]
  exact ⟨known₁, known₂, hbody⟩

theorem dispatch_labels {memorySize : Int32} {l : Listing}
    (h : (p.compile memorySize).listing = some l) :
    ∃ pieces bodies, p.Sections memorySize l pieces bodies ∧
      ∀ (i : Nat) (header : ClassHeader) (methods : List Method),
        p.decls[i]? = some (.classDef header methods) →
        ∃ table labels, p.link.classes.find? header.id.name = some table ∧
          pieces[i]? = some (.bare .pushHp :: Code.storeLabels labels) ∧
          labels.length = table.dispatch.length ∧
          ∀ (s : Nat) (e : DispatchEntry), table.dispatch[s]? = some e →
            ∃ j k, p.Provides e.name i j k ∧ labels[s]? = some (p.methodLabel j k) := by
  rcases listing_of_compile h with ⟨hlink, _, hgenerate⟩
  rcases generate_listing hgenerate with
    ⟨_, hreadable, final, items, n, bodies, hdivided, hcompiled⟩
  rcases (hcompiled (fun segment => segment ∈ bodies) fun _ hmem => hmem).pieces
    Environment.atTop_start KnowsTables.start (linkErrorsAll_of_link hlink) with
    ⟨pieces, _, rfl, hpieces⟩
  simp only [Nat.zero_add] at hpieces
  refine ⟨pieces, bodies, ⟨hreadable, ⟨n, hdivided⟩, ?_, ?_⟩, ?_⟩
  · intro i d hd
    rcases hpieces i d hd with ⟨piece, known₁, known₂, hpiece, _, hd', _, _⟩
    exact ⟨piece, known₁, known₂, hpiece, hd'⟩
  · intro j header methods k m hj hm
    rcases hpieces j _ hj with ⟨piece, known₁, known₂, _, _, hd, _, _⟩
    rcases class_at hlink hj with ⟨inherited, entered, hclass⟩
    exact hclass.method_compiled (linkErrors_at hlink hj) hd hm
  have hlabelled : ∀ (i : Nat) {header : ClassHeader} {methods : List Method}
      {inherited entered : MemberTable}, p.ClassAt i header methods inherited entered →
      ∃ labels, p.Labelled final pieces i header.id.name
        ((p.before i).plan header methods).table labels := by
    intro i
    -- The superclass stands before the class.
    induction i using Nat.strongRecOn with
    | ind i ih =>
        intro header methods inherited entered hclass
        rcases hpieces i _ hclass.position with
          ⟨piece, known₁, known₂, hpiece, hknows, hd, hkeeps₁, hkeeps₂⟩
        refine hclass.labelled (linkErrors_at hlink hclass.position) rfl hpiece hd hkeeps₂ ?_
        intro super hsuper
        rcases super_at hlink hclass hsuper with ⟨j, above, others, _, _, hlt, habove, hname, rfl⟩
        rcases ih j hlt habove with ⟨labels, hlabels⟩
        rcases hknows.labels (find?_before hlink habove hlt) with ⟨labels', hfind⟩
        have hsame := hkeeps₁ _ _ hfind
        rw [hlabels.known, Option.some.injEq] at hsame
        subst hsame
        rw [hname] at hlabels hfind
        exact ⟨j, above, others, labels, habove.position, hname, hfind, hlabels⟩
  intro i header methods hi
  rcases class_at hlink hi with ⟨inherited, entered, hclass⟩
  rcases hlabelled i hclass with ⟨labels, hlabels⟩
  exact ⟨_, labels, hclass.table, hlabels.piece, hlabels.length, hlabels.slot⟩

/-- The last class declares a new method before it declares an inherited one again. -/
def overriding : Program :=
  { decls := [
      Written.classOf "Base" none []
        [Written.method "m" [] .int ⟨[], .int Written.start 0⟩,
          Written.method "n" [] .int ⟨[], .int Written.start 1⟩],
      Written.classOf "Leaf" (some "Base") []
        [Written.method "k" [] .int ⟨[], .int Written.start 2⟩,
          Written.method "m" [] .int ⟨[], .int Written.start 3⟩]]
    body := .int Written.start 0
    pos := Written.start }

theorem dispatch_labels_overriding :
    ∃ l pieces bodies, (overriding.compile 100).listing = some l ∧
      overriding.Sections 100 l pieces bodies ∧
      ∃ table labels, overriding.link.classes.find? "Leaf" = some table ∧
        table.dispatch.map DispatchEntry.name = ["m", "n", "k"] ∧
        pieces[1]? = some (.bare .pushHp :: Code.storeLabels labels) ∧
        labels.length = 3 ∧
        (∃ j k, overriding.Provides "m" 1 j k ∧ labels[0]? = some (overriding.methodLabel j k)) ∧
        (∃ j k, overriding.Provides "n" 1 j k ∧ labels[1]? = some (overriding.methodLabel j k)) ∧
        ∃ j k, overriding.Provides "k" 1 j k ∧ labels[2]? = some (overriding.methodLabel j k) := by
  have hlisting : (overriding.compile 100).listing.isSome = true := by decide
  rcases Option.isSome_iff_exists.mp hlisting with ⟨l, hl⟩
  rcases dispatch_labels hl with ⟨pieces, bodies, hsections, hclasses⟩
  rcases hclasses 1 _ _ rfl with ⟨table, labels, htable, hpiece, hlength, hslots⟩
  have hfind : overriding.link.classes.find? "Leaf" = some table := htable
  have hknown : (overriding.link.classes.find? "Leaf").map (fun t =>
      t.dispatch.map DispatchEntry.name) = some ["m", "n", "k"] := by decide
  rw [hfind, Option.map_some, Option.some.injEq] at hknown
  have hcount : table.dispatch.length = 3 := by
    simpa using congrArg List.length hknown
  have hslot : ∀ (s : Nat) (name : String), ["m", "n", "k"][s]? = some name →
      ∃ j k, overriding.Provides name 1 j k ∧ labels[s]? = some (overriding.methodLabel j k) := by
    intro s name hname
    rw [← hknown, List.getElem?_map, Option.map_eq_some_iff] at hname
    rcases hname with ⟨e, he, rfl⟩
    exact hslots s e he
  exact ⟨l, pieces, bodies, hl, hsections, table, labels, hfind, hknown, hpiece,
    hlength.trans hcount, hslot 0 "m" rfl, hslot 1 "n" rfl, hslot 2 "k" rfl⟩

end Program

end ClassLet
