import ClassLet.Proofs.Linkage.PassRuns
import ClassLet.Typing
import Mathlib.Data.List.Forall2

/-!
# What a class takes from its methods

A class is laid out, and its overrides are checked, without looking into the bodies of its methods.
So lists of methods that differ in their bodies only give the same layout, the same errors of the
headers and the same failures of overriding.

Main statements: `Environment.plan_congr`, `ClassHeader.linkErrors_congr` and
`ClassHeader.overrideFailures_congr`.
-/

namespace ClassLet

/-- The two methods differ in their bodies only. -/
def Method.SameOutline (m m' : Method) : Prop :=
  m.header = m'.header ∧ m.slot = m'.slot

theorem Method.sameOutline_refl (ms : List Method) : List.Forall₂ Method.SameOutline ms ms :=
  List.forall₂_same.mpr fun _ _ => ⟨rfl, rfl⟩

theorem Method.SameOutline.checkMethod {m m' : Method} (h : m.SameOutline m')
    (header : ClassHeader) (hierarchy : Hierarchy) (own parent : ClassLayout) :
    header.checkMethod hierarchy own parent m = header.checkMethod hierarchy own parent m' := by
  simp only [ClassHeader.checkMethod, h.1, h.2]

variable {ms ms' : List Method} (h : List.Forall₂ Method.SameOutline ms ms')
include h

theorem MemberScan.enterMethods_congr (className : String) (scan : MemberScan) :
    enterMethods className scan ms = enterMethods className scan ms' := by
  induction h generalizing scan with
  | nil => rfl
  | cons hm _ ih => simp only [enterMethods, hm.1, ih]

theorem MemberScan.missingMethod?_congr (className : String) (scan : MemberScan) :
    missingMethod? className scan ms = missingMethod? className scan ms' := by
  induction h generalizing scan with
  | nil => rfl
  | cons hm _ ih => simp only [missingMethod?, hm.1, ih]

namespace Environment

variable (env : Environment) (header : ClassHeader)

theorem missing?_class_congr :
    env.missing? (.classDef header ms) = env.missing? (.classDef header ms') := by
  simp only [missing?, missingMember?, MemberScan.missingMethod?_congr h]

theorem plan_congr : env.plan header ms = env.plan header ms' := by
  simp only [plan, MemberScan.enterMethods_congr h]

theorem methodErrors_congr (places : List (Except LinkError Nat)) :
    env.methodErrors ms places = env.methodErrors ms' places := by
  induction h generalizing places with
  | nil => rfl
  | cons hm _ ih =>
      cases places with
      | nil => rfl
      | cons place places => simp only [methodErrors, hm.1, ih]

theorem after_class_congr : env.after (.classDef header ms) = env.after (.classDef header ms') := by
  simp only [after, plan_congr h]

end Environment

namespace ClassHeader

variable (header : ClassHeader)

theorem linkErrors_congr (env : Environment) :
    header.linkErrors env ms = header.linkErrors env ms' := by
  simp only [linkErrors, Environment.plan_congr h, Environment.methodErrors_congr h]

theorem checkMethods_congr (hierarchy : Hierarchy) (own parent : ClassLayout) :
    (ms.flatMap fun m => failureOf (header.checkMethod hierarchy own parent m)) =
      ms'.flatMap fun m => failureOf (header.checkMethod hierarchy own parent m) := by
  induction h with
  | nil => rfl
  | cons hm _ ih => simp only [List.flatMap_cons, hm.checkMethod, ih]

theorem overrideFailures_congr (hierarchy : Hierarchy) :
    header.overrideFailures hierarchy ms = header.overrideFailures hierarchy ms' := by
  simp only [overrideFailures, checkMethods_congr h]

end ClassHeader

end ClassLet
