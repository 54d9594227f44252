import ClassLet.Proofs.Compilation.FarLabels
import ClassLet.Proofs.Simulation.Programs
import ClassLet.Proofs.Written

/-!
# Compilation preserves meaning

A program that is built and run prints what its evaluation prints, leaves the value of the program
on top of the stack, fails where the evaluation fails and runs on where the evaluation does. All of
this holds as long as the heap has not met the stack, for code whose addresses are values of cells.
Without either the run may do something else.

Main statements: `Program.compiled_run` and, for what may happen otherwise,
`Program.compiled_run_astray`.
-/

namespace ClassLet

namespace Represents

variable {im : Image} {memorySize codeSize : Nat} {c : Config} {m : Machine}

/-- The machine that code is loaded into. -/
theorem start (hload : Machine.load im.code codeSize memorySize = .ok m) :
    Represents im memorySize (Config.start (Int32.ofNat memorySize)) m := by
  rcases Machine.load_eq_ok hload with ⟨_, haddressable, rfl⟩
  exact {
    code := rfl
    size := rfl
    addressable := haddressable
    ip := rfl
    sp := Int32.ofInt_eq_ofNat.symm
    hp := rfl
    fp := rfl
    ra := rfl
    tm := rfl
    output := rfl
    heapCells := fun i v h => by cases h
    stackCells := fun above below v h => by
      have hlength := congrArg List.length h
      simp [Config.start] at hlength
    fits := Nat.zero_le _
    hp_le := Nat.le_refl _
    heap_le := Nat.zero_le _ }

/-- A run is followed to its end if heap and stack never meet. -/
theorem leads [im.Addressable] (h : Represents im memorySize c m)
    (hapart : ∀ n m', m.Reaches n m' → m'.Apart)
    {least : Nat} {goal : Config → Prop} (hleads : LeadsIn im memorySize none least c goal) :
    ∃ n m' c', least ≤ n ∧ m.Reaches n m' ∧ Represents im memorySize c' m' ∧ goal c' := by
  rcases hleads with ⟨n, c', hsteps, hle, hgoal⟩
  rcases h.follow hsteps fun j m' _ => hapart j m' with ⟨m', hreaches, h'⟩
  exact ⟨n, m', c', hle, hreaches, h', hgoal⟩

end Represents

namespace Machine

/-- The run halts, with the value on top of the stack. -/
def HaltsWith (m : Machine) (v : Int32) (printed : List Int32) : Prop :=
  ∃ n halted, (∀ steps, n < steps → m.run steps = (.halted, halted)) ∧
    halted.output.toList = printed ∧ halted.memory.read? halted.sp = some v

/-- The run ends with one of the traps, wherever the instruction is. -/
def TrapsWith (m : Machine) (trap : Nat → Trap) (printed : List Int32) : Prop :=
  ∃ n ip trapped, (∀ steps, n < steps → m.run steps = (.trapped (trap ip), trapped)) ∧
    trapped.output.toList = printed

end Machine

namespace Represents

variable {im : Image} {memorySize : Nat} {c : Config} {m m' : Machine} {n : Nat} {st : Store}

theorem haltsWith {w : World} {bound : Bound} {ty : Ty} {v : Int32}
    (h : Represents w.im w.memorySize c m') (hreaches : m.Reaches n m')
    (hhalting : Config.Halting w bound ty v st c) :
    m.HaltsWith v st.printed := by
  rcases hhalting.stack with ⟨rest, hstack⟩
  rcases hhalting.fits with ⟨_, hstate, _⟩
  refine ⟨n, _, fun steps hsteps =>
    hreaches.run_halted (h.halts (hhalting.code.opcode w.im.coherent)) hsteps, ?_, ?_⟩
  · exact h.output.trans hstate.output
  · exact h.read_top hstack

theorem trapsDividing (h : Represents im memorySize c m') (hreaches : m.Reaches n m')
    (hdivides : c.DividesByZero im st) : m.TrapsWith .divisionByZero st.printed := by
  rcases hdivides.stack with ⟨left, rest, hstack⟩
  rcases h.divides (hdivides.code.opcode im.coherent) hstack with ⟨sp, hstep⟩
  refine ⟨n, _, _, fun steps hsteps => hreaches.run_trapped hstep hsteps, ?_⟩
  exact h.output.trans hdivides.output

theorem trapsCallingNull (h : Represents im memorySize c m') (hreaches : m.Reaches n m')
    (hcalls : c.CallsNull im st) : m.TrapsWith (.memoryOutOfRange (-1)) st.printed := by
  rcases hcalls.stack with ⟨rest, hstack⟩
  rcases hcalls.code with ⟨offset, hcode⟩
  rcases h.loads_null (hcode.opcode im.coherent) hstack with ⟨sp, hstep⟩
  refine ⟨n, _, _, fun steps hsteps => hreaches.run_trapped hstep hsteps, ?_⟩
  exact h.output.trans hcalls.output

end Represents

/-- What the result of an evaluation says about the run, if heap and stack never meet. -/
theorem Represents.realizes {w : World} {fuel : Nat} {c : Config} {m : Machine} {ty : Ty}
    {r : EStateM.Result Failure Store Int32} (h : Represents w.im w.memorySize c m)
    (hapart : ∀ n m', m.Reaches n m' → m'.Apart)
    (hfollows : Outcome w.im w.memorySize none fuel c (Config.Halting w none ty) r) :
    (∀ v st, r = .ok v st → m.HaltsWith v st.printed) ∧
      (∀ st, r = .error .divisionByZero st → m.TrapsWith .divisionByZero st.printed) ∧
      (∀ st, r = .error .nullReceiver st → m.TrapsWith (.memoryOutOfRange (-1)) st.printed) ∧
      (∀ st, r = .error .outOfFuel st → (m.run fuel).1 = .outOfSteps) ∧
      ∀ st, r ≠ .error .stuck st := by
  cases hfollows with
  | full _ _ hleads =>
      rcases h.leads hapart hleads with ⟨n, m', c', _, hreaches, h', hfull⟩
      exact absurd (h'.apart_iff.mp (hapart n m' hreaches)) (Nat.not_lt.mpr hfull)
  | value hleads =>
      rcases h.leads hapart hleads with ⟨n, m', c', _, hreaches, h', hhalting⟩
      refine ⟨?_, by simp, by simp, by simp, by simp⟩
      intro v st heq
      cases heq
      exact h'.haltsWith hreaches hhalting
  | divisionByZero hleads =>
      rcases h.leads hapart hleads with ⟨n, m', c', _, hreaches, h', hdivides⟩
      refine ⟨by simp, ?_, by simp, by simp, by simp⟩
      intro st heq
      cases heq
      exact h'.trapsDividing hreaches hdivides
  | nullReceiver hleads =>
      rcases h.leads hapart hleads with ⟨n, m', c', _, hreaches, h', hcalls⟩
      refine ⟨by simp, by simp, ?_, by simp, by simp⟩
      intro st heq
      cases heq
      exact h'.trapsCallingNull hreaches hcalls
  | outOfFuel hleads =>
      rcases h.leads hapart hleads with ⟨n, m', c', hle, hreaches, _, _⟩
      refine ⟨by simp, by simp, by simp, ?_, by simp⟩
      intro st _
      rcases hreaches.le hle with ⟨m'', hreaches'⟩
      rw [hreaches'.run_eq]

namespace Program

/-- A program with the machine that its code has been loaded into. -/
structure Loaded (p : Program) (t : Target) (b : Build) (w : World) (m : Machine) (ty : Ty) :
    Prop where
  listed : (p.compile (Int32.ofNat t.memorySize)).listing = some w.im.listing
  linked : p.link.errors = []
  checked : p.link.program.typing.errors = []
  memorySize : w.memorySize = t.memorySize
  hierarchy : w.hierarchy = p.link.program.typing.hierarchy
  tables : w.tables = p.link.classes
  encoded : b.code = w.im.code
  numbered : w.im.Numbered p.arities
  load : Machine.load b.code t.codeSize t.memorySize = .ok m
  start : Represents w.im w.memorySize (Config.start w.topBase) m
  bodyType : p.link.program.typing.bodyType = some ty
  typed : Expr.HasType w.hierarchy (Environment.start.afterAll p.decls) p.body ty
  compiled : ∃ items n, Decl.CompiledAll w.im.Holds (w.context false) 0 NameMap.empty w.labels
      (Decl.linkAll .start p.decls) items ∧
    CodeAt w.im.listing 0 (p.link.program.mainCode (w.context false) items n)

theorem loaded {p : Program} {t : Target} {b : Build} (hbuild : t.build p = .ok b)
    (hcode : isAddressable b.code.length = true) : ∃ w m ty, Loaded p t b w m ty := by
  rcases Target.build_ok hbuild with ⟨haddressable, l, hlisting, hreadable, hencode, hfits⟩
  rcases listing_of_compile hlisting with ⟨hlink, htyping, hgenerate⟩
  obtain ⟨im, rfl⟩ : ∃ im : Image, im.listing = l := ⟨⟨l, hreadable.toCoherent⟩, rfl⟩
  have : im.Addressable := ⟨by rwa [Image.code, ← hencode]⟩
  rcases Machine.load_ok hfits haddressable with ⟨m, hload⟩
  rcases generate_listing hgenerate with
    ⟨hcomplete, _, labels, items, n, bodies, hdivided, hcompiled⟩
  rcases body_hasType hlink htyping hcomplete with ⟨ty, hty, htyped⟩
  have hnumbered := generate_numbered hgenerate
  rw [arities_link] at hnumbered
  refine ⟨p.world hlink htyping haddressable hnumbered labels, m, ty, ?_⟩
  exact {
    listed := hlisting
    linked := hlink
    checked := htyping
    memorySize := rfl
    hierarchy := rfl
    tables := rfl
    encoded := hencode
    numbered := hnumbered
    load := hload
    start := by
      rw [hencode] at hload
      exact Represents.start hload
    bodyType := hty
    typed := htyped
    compiled := ⟨items, n, hcompiled im.Holds fun _ hmem => im.holds_of_mem hdivided hmem,
      hdivided.codeAt.left⟩ }

theorem Loaded.follows {p : Program} {t : Target} {b : Build} {w : World} {m : Machine} {ty : Ty}
    (h : Loaded p t b w m ty) (fuel : Nat) :
    Outcome w.im w.memorySize none fuel (Config.start w.topBase) (Config.Halting w none ty)
      (p.eval (fuel + 1)) := by
  rcases h.compiled with ⟨items, n, hcompiled, hcode⟩
  exact Outcome.program h.linked h.checked h.hierarchy h.tables hcompiled hcode h.typed

/-- What a run of a program has to do with its evaluation. A jump goes to an address that is the
value of a cell, so the code has to be addressable as the memory is. -/
theorem compiled_run {p : Program} {t : Target} {b : Build} (hbuild : t.build p = .ok b)
    (hcode : isAddressable b.code.length = true) :
    ∃ m, Machine.load b.code t.codeSize t.memorySize = .ok m ∧
      ((∃ n met, m.Reaches n met ∧ ¬met.Apart) ∨
        (∀ fuel v st, p.eval fuel = .ok v st → m.HaltsWith v st.printed) ∧
        (∀ fuel st, p.eval fuel = .error .divisionByZero st →
          m.TrapsWith .divisionByZero st.printed) ∧
        (∀ fuel st, p.eval fuel = .error .nullReceiver st →
          m.TrapsWith (.memoryOutOfRange (-1)) st.printed) ∧
        (∀ fuel st, p.eval (fuel + 1) = .error .outOfFuel st →
          (m.run fuel).1 = .outOfSteps) ∧
        ∀ fuel st, p.eval fuel ≠ .error .stuck st) := by
  rcases loaded hbuild hcode with ⟨w, m, ty, hloaded⟩
  refine ⟨m, hloaded.load, ?_⟩
  by_cases hmet : ∃ n met, m.Reaches n met ∧ ¬met.Apart
  · exact Or.inl hmet
  have hapart : ∀ n m', m.Reaches n m' → m'.Apart := fun n m' hreaches =>
    Classical.byContradiction fun h => hmet ⟨n, m', hreaches, h⟩
  have hrealizes := fun fuel => hloaded.start.realizes hapart (hloaded.follows fuel)
  refine Or.inr ⟨?_, ?_, ?_, fun fuel => (hrealizes fuel).2.2.2.1, ?_⟩
  · intro fuel v st heval
    cases fuel with
    | zero => cases heval
    | succ fuel => exact (hrealizes fuel).1 v st heval
  · intro fuel st heval
    cases fuel with
    | zero => cases heval
    | succ fuel => exact (hrealizes fuel).2.1 st heval
  · intro fuel st heval
    cases fuel with
    | zero => cases heval
    | succ fuel => exact (hrealizes fuel).2.2.1 st heval
  · intro fuel st heval
    cases fuel with
    | zero => cases heval
    | succ fuel => exact (hrealizes fuel).2.2.2.2 st heval

/-- The object is of the subclass, and what is printed comes from its method. -/
def dispatching : Program :=
  { decls := [
      Written.classOf "Base" none [("f", .int)]
        [Written.method "m" [] .int ⟨[], .int Written.start 0⟩],
      Written.classOf "Leaf" (some "Base") []
        [Written.method "m" [] .int ⟨[], .name (Written.ident "f") none⟩],
      .var Written.start (Written.ident "o") (Written.type (.ref "Base"))
        (.construct Written.start (Written.ident "Leaf") [.int Written.start 5] none) none]
    body := .print Written.start
      (.methodCall Written.start (Written.ident "o") (Written.ident "m") [] none none)
    pos := Written.start }

theorem dispatching_compiledRun :
    dispatching.compiledRun {} 100 = some (85, .ok [5], true) := by
  decide +kernel

theorem compiled_run_dispatching :
    let t : Target := {}
    ∃ b m, t.build dispatching = .ok b ∧ isAddressable b.code.length = true ∧
      Machine.load b.code t.codeSize t.memorySize = .ok m ∧
      (∀ n m', m.Reaches n m' → m'.Apart) ∧ m.HaltsWith 5 [5] := by
  rcases returns_of_compiledRun (by decide) dispatching_compiledRun nofun (by decide) with
    ⟨b, hbuild, hlength, _, hapart⟩
  have hcode : isAddressable b.code.length = true := by
    rw [hlength]
    decide
  rcases compiled_run hbuild hcode with ⟨m, hload, hcompiled⟩
  have hrun := hapart rfl m hload
  refine ⟨b, m, hbuild, hcode, hload, hrun, ?_⟩
  rcases hcompiled with ⟨n, met, hreaches, hmet⟩ | ⟨hvalue, _⟩
  · exact absurd (hrun n met hreaches) hmet
  · exact hvalue 2 5 _ rfl

theorem outlying_eval : outlying.eval 1 = .ok 1 Store.empty :=
  rfl

/-- The evaluation gives a value, and the run fails at the first jump. -/
theorem outlying_run :
    ∃ (t : Target) (b : Build) (m : Machine), t.memorySize = 2147483647 ∧
      t.build outlying = .ok b ∧ Machine.load b.code t.codeSize t.memorySize = .ok m ∧
      (∀ n m', m.Reaches n m' → m'.Apart) ∧ outlying.eval 1 = .ok 1 Store.empty ∧
      m.TrapsWith (.codeOutOfRange (-1610612736)) [] ∧ ¬m.HaltsWith 1 [] := by
  rcases outlying_stops with
    ⟨t, b, m, m', trapped, hmemory, hbuild, hload, hapart, hreaches, htrap, hprinted⟩
  have htraps : ∀ steps, 2 < steps →
      m.run steps = (.trapped (.codeOutOfRange (-1610612736) 4), trapped) := fun _ =>
    hreaches.run_trapped htrap
  refine ⟨t, b, m, hmemory, hbuild, hload, hapart, outlying_eval, ⟨2, 4, trapped, htraps, hprinted⟩,
    ?_⟩
  rintro ⟨n, halted, hhalts, _⟩
  cases (htraps (n + 3) (by omega)).symm.trans (hhalts (n + 3) (by omega))

/-- With a memory of thirteen cells, the constant that the heap pointer is raised by is pushed onto
the cell where the new object has its dispatch pointer. The object then dispatches one entry too
late. -/
def misled : Program :=
  { decls := [
      Written.classOf "A" none []
        [Written.method "m" [] .int ⟨[], .int Written.start 5⟩,
          Written.method "n" [] .int ⟨[], .int Written.start 6⟩],
      .function (Written.header "make" [] (.ref "A"))
        ⟨[.var Written.start (Written.ident "x") (Written.type .int) (.int Written.start 0) none,
            .var Written.start (Written.ident "y") (Written.type .int) (.int Written.start 0) none],
          .construct Written.start (Written.ident "A") [] none⟩ none,
      .var Written.start (Written.ident "o") (Written.type (.ref "A"))
        (.call Written.start (Written.ident "make") [] none) none]
    body := .print Written.start
      (.methodCall Written.start (Written.ident "o") (Written.ident "m") [] none none)
    pos := Written.start }

theorem misled_thirteen :
    misled.compiledRun { memorySize := 13 } 100 = some (98, .ok [6], false) := by
  decide +kernel

theorem misled_fourteen :
    misled.compiledRun { memorySize := 14 } 100 = some (98, .ok [5], true) := by
  decide +kernel

theorem misled_eval : ∃ st, misled.eval 4 = .ok 5 st ∧ st.printed = [5] :=
  ⟨_, rfl, rfl⟩

/-- A run may do something else than the evaluation where the code is not addressable, with heap and
stack apart, and where heap and stack meet, with code that is addressable. -/
theorem compiled_run_astray :
    (∃ (t : Target) (b : Build) (m : Machine), t.memorySize = 2147483647 ∧
      t.build outlying = .ok b ∧ Machine.load b.code t.codeSize t.memorySize = .ok m ∧
      (∀ n m', m.Reaches n m' → m'.Apart) ∧ outlying.eval 1 = .ok 1 Store.empty ∧
      m.TrapsWith (.codeOutOfRange (-1610612736)) [] ∧ ¬m.HaltsWith 1 []) ∧
    ∃ (t : Target) (b : Build) (st : Store), t.memorySize = 13 ∧ t.build misled = .ok b ∧
      isAddressable b.code.length = true ∧ misled.eval 4 = .ok 5 st ∧ st.printed = [5] ∧
      t.Returns b.code (.ok [6]) := by
  rcases returns_of_compiledRun (by decide) misled_thirteen nofun (by decide) with
    ⟨b, hbuild, hlength, hreturns, _⟩
  rcases misled_eval with ⟨st, heval, hprinted⟩
  have hcode : isAddressable b.code.length = true := by
    rw [hlength]
    decide
  exact ⟨outlying_run, _, b, st, rfl, hbuild, hcode, heval, hprinted, hreturns⟩

end Program

end ClassLet
