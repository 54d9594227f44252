import ClassLet.Linkage
import ClassLet.Typing

/-!
# Declarations in a row

Declarations and methods are linked and checked one after the other. Where a row of them is split,
what is found out about it falls apart likewise: the first part does not depend on the second, and
the second one is met in what the first part leaves.
-/

namespace ClassLet

namespace Environment

theorem afterAll_append (env : Environment) (ds ds' : List Decl) :
    env.afterAll (ds ++ ds') = (env.afterAll ds).afterAll ds' :=
  List.foldl_append

end Environment

namespace Decl

theorem linkAll_append (env : Environment) (ds ds' : List Decl) :
    linkAll env (ds ++ ds') = linkAll env ds ++ linkAll (env.afterAll ds) ds' := by
  induction ds generalizing env with
  | nil => rfl
  | cons d ds ih => simp [linkAll, ih]

theorem linkErrorsAll_append (env : Environment) (ds ds' : List Decl) :
    linkErrorsAll env (ds ++ ds') =
      linkErrorsAll env ds ++ linkErrorsAll (env.afterAll ds) ds' := by
  induction ds generalizing env with
  | nil => rfl
  | cons d ds ih => simp [linkErrorsAll, ih]

theorem edgesAll_append (ds ds' : List Decl) :
    edgesAll (ds ++ ds') = edgesAll ds ++ edgesAll ds' := by
  induction ds with
  | nil => rfl
  | cons d ds ih => simp [edgesAll, ih]

theorem typingFailuresAll_append (h : Hierarchy) (ds ds' : List Decl) :
    typingFailuresAll h (ds ++ ds') =
      typingFailuresAll h ds ++ typingFailuresAll (h.declareAll (edgesAll ds)) ds' := by
  induction ds generalizing h with
  | nil => rfl
  | cons d ds ih => simp [typingFailuresAll, edgesAll, Hierarchy.declareAll_append, ih]

end Decl

namespace Method

theorem linkAll_append (env : Environment) (places : List (Except LinkError Nat))
    (ms ms' : List Method) :
    linkAll env places (ms ++ ms') =
      linkAll env places ms ++ linkAll env (places.drop ms.length) ms' := by
  induction ms generalizing places with
  | nil => rfl
  | cons m ms ih => simp [linkAll, ih]

theorem linkErrorsAll_append (env : Environment) (ms ms' : List Method) :
    linkErrorsAll env (ms ++ ms') = linkErrorsAll env ms ++ linkErrorsAll env ms' := by
  induction ms with
  | nil => rfl
  | cons m ms ih => simp [linkErrorsAll, ih]

theorem edgesAll_append (ms ms' : List Method) :
    edgesAll (ms ++ ms') = edgesAll ms ++ edgesAll ms' := by
  induction ms with
  | nil => rfl
  | cons m ms ih => simp [edgesAll, ih]

theorem typingFailuresAll_append (h : Hierarchy) (ms ms' : List Method) :
    typingFailuresAll h (ms ++ ms') =
      typingFailuresAll h ms ++ typingFailuresAll (h.declareAll (edgesAll ms)) ms' := by
  induction ms generalizing h with
  | nil => rfl
  | cons m ms ih => simp [typingFailuresAll, edgesAll, Hierarchy.declareAll_append, ih]

end Method

end ClassLet
