import ClassLet.Proofs.Generation.DispatchTables
import ClassLet.Proofs.Generation.ProgramCode
import ClassLet.Proofs.Machine.Bodies

/-!
# Numbers of bodies

Functions and methods are numbered in the order of their headers, and the label of a body has the
number of its header. There are no other function labels in a listing, so wherever a body begins it
is known how many parameters it has.

Main statement: `Program.generate_numbered`.
-/

namespace ClassLet

/-!
# Headers in order
-/

mutual

/-- How many parameters the functions and methods have, in the order of their headers. -/
def Decl.arities : Decl → List Nat
  | .var .. => []
  | .function header body _ => header.params.length :: body.arities
  | .classDef _ methods => Method.aritiesAll methods

def Body.arities : Body → List Nat
  | ⟨locals, _⟩ => Decl.aritiesAll locals

def Method.arities : Method → List Nat
  | ⟨header, body, _⟩ => header.params.length :: body.arities

def Decl.aritiesAll : List Decl → List Nat
  | [] => []
  | d :: ds => d.arities ++ Decl.aritiesAll ds

def Method.aritiesAll : List Method → List Nat
  | [] => []
  | m :: ms => m.arities ++ Method.aritiesAll ms

end

def Program.arities (p : Program) : List Nat :=
  Decl.aritiesAll p.decls

mutual

theorem Decl.length_arities : ∀ d : Decl, d.arities.length = d.bodyCount
  | .var .. => rfl
  | .function _ body _ => congrArg (· + 1) body.length_arities
  | .classDef _ methods => Method.length_aritiesAll methods

theorem Body.length_arities : ∀ b : Body, b.arities.length = b.bodyCount
  | ⟨locals, _⟩ => Decl.length_aritiesAll locals

theorem Method.length_arities : ∀ m : Method, m.arities.length = m.bodyCount
  | ⟨_, body, _⟩ => congrArg (· + 1) body.length_arities

theorem Decl.length_aritiesAll :
    ∀ ds : List Decl, (Decl.aritiesAll ds).length = Decl.bodyCountAll ds
  | [] => rfl
  | d :: ds => by
      rw [Decl.aritiesAll, List.length_append, d.length_arities, Decl.length_aritiesAll ds]
      rfl

theorem Method.length_aritiesAll :
    ∀ ms : List Method, (Method.aritiesAll ms).length = Method.bodyCountAll ms
  | [] => rfl
  | m :: ms => by
      rw [Method.aritiesAll, List.length_append, m.length_arities, Method.length_aritiesAll ms]
      rfl

end

mutual

theorem Decl.arities_link (env : Environment) : ∀ d : Decl, (d.link env).arities = d.arities
  | .var pos id ty init binding => rfl
  | .function header body binding =>
      congrArg₂ List.cons (header.length_params_link _) (body.arities_link _)
  | .classDef header methods => by
      unfold Decl.link
      split
      · exact Method.aritiesAll_link _ _ methods
      · rfl

theorem Body.arities_link (env : Environment) : ∀ b : Body, (b.link env).arities = b.arities
  | ⟨locals, _⟩ => Decl.aritiesAll_link env locals

theorem Method.arities_link (env : Environment) (place : Option Nat) :
    ∀ m : Method, (m.link env place).arities = m.arities
  | ⟨header, body, _⟩ =>
      congrArg₂ List.cons (header.length_params_link _) (body.arities_link _)

theorem Decl.aritiesAll_link (env : Environment) :
    ∀ ds : List Decl, Decl.aritiesAll (Decl.linkAll env ds) = Decl.aritiesAll ds
  | [] => rfl
  | d :: ds => congrArg₂ (· ++ ·) (d.arities_link env) (Decl.aritiesAll_link _ ds)

theorem Method.aritiesAll_link (env : Environment) (places : List (Except LinkError Nat)) :
    ∀ ms : List Method, Method.aritiesAll (Method.linkAll env places ms) = Method.aritiesAll ms
  | [] => rfl
  | m :: ms => congrArg₂ (· ++ ·) (m.arities_link env _) (Method.aritiesAll_link env places.tail ms)

end

theorem Program.arities_link (p : Program) : p.link.program.arities = p.arities :=
  Decl.aritiesAll_link .start p.decls

/-!
# Routines by number
-/

/-- There is a routine for every one of the numbers of parameters; the labels are numbered from `k`
on. -/
def Routines (has : List Item → Prop) (k : Nat) (arities : List Nat) : Prop :=
  ∀ i params, arities[i]? = some params →
    ∃ locals inner, has (Code.routine (functionText (k + i)) locals params inner)

namespace Routines

variable {has : List Item → Prop} {k params : Nat} {arities arities' : List Nat}

theorem nil : Routines has k [] := by
  intro i params hi
  cases hi

theorem cons {locals : Nat} {inner : List Item}
    (hfirst : has (Code.routine (functionText k) locals params inner))
    (h : Routines has (k + 1) arities) : Routines has k (params :: arities) := by
  intro i params' hi
  cases i with
  | zero =>
      cases hi
      exact ⟨locals, inner, hfirst⟩
  | succ i =>
      rw [← Nat.add_assoc, Nat.add_right_comm]
      exact h i params' hi

theorem append (h : Routines has k arities) (h' : Routines has (k + arities.length) arities') :
    Routines has k (arities ++ arities') := by
  intro i params hi
  rcases Nat.lt_or_ge i arities.length with hlt | hge
  · rw [List.getElem?_append_left hlt] at hi
    exact h i params hi
  · rw [List.getElem?_append_right hge] at hi
    have hrest := h' _ params hi
    rwa [Nat.add_assoc, Nat.add_sub_cancel' hge] at hrest

end Routines

mutual

theorem Decl.Compiled.routines {has : List Item → Prop} {ctx : CodeContext} {k : Nat}
    {known known' : DispatchLabels} {items : List Item} :
    ∀ d : Decl, d.Compiled has ctx k known known' items → Routines has k d.arities
  | .var _ _ _ _ _, _ => Routines.nil
  | .function header body _, h => by
      unfold Decl.Compiled at h
      rcases Body.Compiled.routines body h.2 with ⟨locals, inner, hfirst, hrest⟩
      exact Routines.cons hfirst hrest
  | .classDef header methods, h => by
      unfold Decl.Compiled at h
      rcases h with ⟨_, _, _, _, _, hmethods, _, _⟩
      exact Method.CompiledAll.routines methods hmethods
termination_by structural d => d

theorem Body.Compiled.routines {has : List Item → Prop} {ctx : CodeContext} {k : Nat}
    {known known' : DispatchLabels} {label : String} {params : Nat} :
    ∀ b : Body, b.Compiled has ctx k known known' label params →
      ∃ locals inner, has (Code.routine label locals params inner) ∧ Routines has k b.arities
  | ⟨locals, result⟩, h => by
      unfold Body.Compiled at h
      rcases h with ⟨items, n, hlocals, _, hhas⟩
      exact ⟨_, _, hhas, Decl.CompiledAll.routines locals hlocals⟩
termination_by structural b => b

theorem Method.Compiled.routines {has : List Item → Prop} {ctx : CodeContext} {k : Nat}
    {known known' : DispatchLabels} {labels labels' : List String} :
    ∀ m : Method, m.Compiled has ctx k known known' labels labels' → Routines has k m.arities
  | ⟨header, body, slot⟩, h => by
      unfold Method.Compiled at h
      rcases h with ⟨_, _, _, hbody⟩
      rcases Body.Compiled.routines body hbody with ⟨locals, inner, hfirst, hrest⟩
      exact Routines.cons hfirst hrest
termination_by structural m => m

theorem Decl.CompiledAll.routines {has : List Item → Prop} {ctx : CodeContext} {k : Nat}
    {known known' : DispatchLabels} {items : List Item} :
    ∀ ds : List Decl, Decl.CompiledAll has ctx k known known' ds items →
      Routines has k (Decl.aritiesAll ds)
  | [], _ => Routines.nil
  | d :: ds, h => by
      unfold Decl.CompiledAll at h
      rcases h with ⟨_, _, _, _, hfirst, hrest⟩
      rw [← d.length_arities] at hrest
      exact (Decl.Compiled.routines d hfirst).append (Decl.CompiledAll.routines ds hrest)
termination_by structural ds => ds

theorem Method.CompiledAll.routines {has : List Item → Prop} {ctx : CodeContext} {k : Nat}
    {known known' : DispatchLabels} {labels labels' : List String} :
    ∀ ms : List Method, Method.CompiledAll has ctx k known known' labels labels' ms →
      Routines has k (Method.aritiesAll ms)
  | [], _ => Routines.nil
  | m :: ms, h => by
      unfold Method.CompiledAll at h
      rcases h with ⟨_, _, hfirst, hrest⟩
      rw [← m.length_arities] at hrest
      exact (Method.Compiled.routines m hfirst).append (Method.CompiledAll.routines ms hrest)
termination_by structural ms => ms

end

/-!
# Bodies by number
-/

/-- The bodies of the code, by number. In front of a body the main part ends, or another body
returns. -/
structure Image.Numbered (im : Image) (arities : List Nat) : Prop where
  entries : ∀ a, im.Entry a → ∃ i params, arities[i]? = some params ∧
    im.listing.address? (functionText i) = some a
  bodies : ∀ i params, arities[i]? = some params → ∃ a finish exit,
    im.listing.address? (functionText i) = some a ∧ im.Body params a finish exit
  returns : ∀ a, im.Entry (a + 2) → im.code[a + 1]? = some Opcode.call.cell →
    im.code[a]? = some Opcode.pushRa.cell

theorem Image.Numbered.body_at {im : Image} {arities : List Nat} (h : im.Numbered arities)
    {i params a : Nat} (hi : arities[i]? = some params)
    (haddress : im.listing.address? (functionText i) = some a) :
    ∃ finish exit, im.Body params a finish exit := by
  rcases h.bodies i params hi with ⟨a', finish, exit, haddress', hbody⟩
  rw [haddress, Option.some.injEq] at haddress'
  exact ⟨finish, exit, haddress' ▸ hbody⟩

theorem Listing.mem_of_address {l : Listing} {name : String} {a : Nat}
    (h : l.address? name = some a) : name ∈ labelNames l.items := by
  refine Classical.byContradiction fun hnew => ?_
  have hnone := addressFrom?_append l.items [] 0 hnew
  rw [List.append_nil, ← Listing.address?, h] at hnone
  cases hnone

/-- A function label stands at the start of a body only. -/
theorem IsRoutine.starts {segment : List Item} (h : IsRoutine segment) {name : String}
    (hmem : name ∈ labelNames segment) (hname : IsFunctionLabel name) :
    ∃ rest, segment = .label name :: rest := by
  rcases h with ⟨name', inner, rfl, _, hinner⟩
  rw [labelNames_label, labelNames_append, labelNames_bare, labelNames_nil, List.append_nil,
    List.mem_cons] at hmem
  rcases hmem with rfl | hmem
  · exact ⟨_, rfl⟩
  · exact absurd hname (hinner name hmem)

namespace Listing.Divided

variable {im : Image} {main : List Item} {bodies : List (List Item)} {a : Nat}

theorem codeAt {l : Listing} (h : l.Divided main bodies) : CodeAt l 0 (main ++ bodies.flatten) :=
  ⟨[], l.items, [], by simp, h.items, rfl⟩

theorem entry_split (h : im.listing.Divided main bodies) (hentry : im.Entry a) :
    ∃ before after, bodies = before ++ after ∧ a = cellCount (main ++ before.flatten) := by
  rcases hentry with ⟨name, hname, haddress⟩
  have hmem := Listing.mem_of_address haddress
  rw [← labelNames_plain, h.items, labelNames_append, List.mem_append] at hmem
  rcases hmem with hmain | hflat
  · exact absurd hname (h.main name hmain)
  · rcases List.mem_filterMap.mp hflat with ⟨item, hitem, hlabel⟩
    rcases List.mem_flatten.mp hitem with ⟨segment, hsegment, hinside⟩
    rcases (h.routines segment hsegment).starts (List.mem_filterMap.mpr ⟨item, hinside, hlabel⟩)
      hname with ⟨rest, rfl⟩
    rcases List.append_of_mem hsegment with ⟨before, after, rfl⟩
    have hall := h.codeAt
    rw [List.flatten_append, ← List.append_assoc] at hall
    have hplaced : CodeAt im.listing (0 + cellCount (main ++ before.flatten))
        (.label name :: (rest ++ after.flatten)) := hall.right
    rw [hplaced.address im.coherent, Option.some.injEq, Nat.zero_add] at haddress
    exact ⟨before, _, rfl, haddress.symm⟩

/-- In front of a body is the main part or another body. -/
theorem entry_cases (h : im.listing.Divided main bodies) (hentry : im.Entry a) :
    a = cellCount main ∨ ∃ entry exit, im.Routine entry exit ∧ a = exit + 1 := by
  rcases h.entry_split hentry with ⟨before, after, rfl, rfl⟩
  rcases List.eq_nil_or_concat' before with rfl | ⟨others, last, rfl⟩
  · simp
  · have hlast : last ∈ others ++ [last] ++ after := by simp
    rcases Image.holds_of_mem h hlast with ⟨entry, exit, hcode, hroutine, hexit⟩
    refine Or.inr ⟨entry, exit, hroutine, ?_⟩
    rcases h.routines last hlast with ⟨name, inner, rfl, _, _⟩
    have hall := h.codeAt
    rw [List.append_assoc, List.flatten_append, ← List.append_assoc] at hall
    have hplaced : CodeAt im.listing (0 + cellCount (main ++ others.flatten))
        (.label name :: (inner ++ [.bare .call] ++ after.flatten)) := hall.right
    have hsame := (hplaced.address im.coherent).symm.trans (hcode.address im.coherent)
    rw [Option.some.injEq] at hsame
    rw [hexit, ← hsame]
    simp [Nat.add_assoc]

end Listing.Divided

/-- A body that is the only one begins behind the main part. -/
theorem Image.Numbered.entry_single {im : Image} {params a : Nat} {main : List Item}
    {bodies : List (List Item)} (h : im.Numbered [params])
    (hdivided : im.listing.Divided main bodies) (hentry : im.Entry a) : a = cellCount main := by
  rcases hdivided.entry_cases hentry with hmain | ⟨entry, exit, hroutine, rfl⟩
  · exact hmain
  · have hle : entry ≤ exit := by
      rcases hroutine with ⟨pre, name, inner, line, post, _, _, _, _, rfl, rfl⟩
      rw [cellCount_append]
      exact Nat.le_add_right _ _
    rcases h.entries _ hentry with ⟨i, _, hi, haddress⟩
    rcases h.entries _ hroutine.begins with ⟨j, _, hj, haddress'⟩
    obtain rfl : i = 0 := by simpa using (List.getElem?_eq_some_iff.mp hi).1
    obtain rfl : j = 0 := by simpa using (List.getElem?_eq_some_iff.mp hj).1
    rw [haddress, Option.some.injEq] at haddress'
    omega

namespace Program

theorem mainCode_halts (p : Program) (ctx : CodeContext) (items : List Item) (n : Nat) :
    ∃ before, p.mainCode ctx items n = before ++ [.bare .halt] :=
  ⟨(if p.hasDeclarations then [.push 0] else []) ++ (items ++ p.body.code ctx n), by
    simp [mainCode]⟩

/-- The bodies of a program are those of its functions and methods. -/
theorem generate_numbered {p : Program} {memorySize : Int32} {im : Image}
    (h : p.generate memorySize = .ok im.listing) : im.Numbered p.arities := by
  rcases generate_written h with
    ⟨_, known, e, items, n, bodies, hwritten, hitems, hcount, hcompiled⟩
  have hdivided : im.listing.Divided (p.mainCode (context memorySize) items n) bodies :=
    ⟨hitems, hwritten.inner, hwritten.routines⟩
  have hroutines := Decl.CompiledAll.routines p.decls
    (hcompiled im.Holds fun _ hmem => im.holds_of_mem hdivided hmem)
  have hbodies : ∀ i params, p.arities[i]? = some params → ∃ a finish exit,
      im.listing.address? (functionText i) = some a ∧ im.Body params a finish exit := by
    intro i params hi
    rcases hroutines i params hi with ⟨locals, inner, entry, exit, hcode, hroutine, hexit⟩
    rw [Nat.zero_add] at hcode hexit
    exact ⟨entry, _, exit, hcode.address im.coherent, hroutine.body hcode hexit⟩
  have hentries : ∀ a, im.Entry a → ∃ i params, p.arities[i]? = some params ∧
      im.listing.address? (functionText i) = some a := by
    rintro a ⟨name, hname, haddress⟩
    have htaken := Listing.mem_of_address haddress
    rw [← labelNames_plain, hitems, hwritten.names.mem_iff, Emitter.taken, List.mem_append]
      at htaken
    rcases htaken with hlabel | hfunction
    · exact absurd hname (not_isFunctionLabel_labelRange hlabel)
    · rcases List.mem_map.mp hfunction with ⟨i, hi, rfl⟩
      have hlt : i < p.arities.length := by
        rw [List.mem_range'_1, hcount] at hi
        rw [arities, Decl.length_aritiesAll]
        exact Nat.lt_of_lt_of_eq hi.2 (by simp [Emitter.empty])
      exact ⟨i, _, List.getElem?_eq_getElem hlt, haddress⟩
  refine ⟨hentries, hbodies, ?_⟩
  intro a hentry hcall
  rcases hdivided.entry_cases hentry with hmain | ⟨entry, exit, hroutine, hexit⟩
  · rcases p.mainCode_halts (context memorySize) items n with ⟨before, hshape⟩
    have hhalt := hdivided.codeAt.left
    rw [hshape] at hmain hhalt
    rw [cellCount_append] at hmain
    have hcell := hhalt.right.opcode im.coherent
    rw [Nat.zero_add, ← Nat.succ.inj hmain, ← Image.code, hcall] at hcell
    exact absurd hcell (by decide)
  · rcases hentries entry hroutine.begins with ⟨i, params, hi, haddress⟩
    rcases hbodies i params hi with ⟨entry', finish, exit', haddress', hbody⟩
    rw [haddress, Option.some.injEq] at haddress'
    subst haddress'
    rcases hbody.pushRa with ⟨b, hb, hcell⟩
    have hexit' := hroutine.unique hbody.routine
    rwa [show b = a by omega] at hcell

end Program

end ClassLet
