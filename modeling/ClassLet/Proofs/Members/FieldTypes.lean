import ClassLet.Proofs.Members.TableEdits

/-!
# Fields of any type

A table takes a member whose type is a method for a method. A field is therefore known as one until
it is declared with such a type: its offset stays, and methods of its name are refused. From then on
it cannot be declared again, and declaring a method of its name fails for want of a slot.

Main statement: `TableEdit.field_kept`.
-/

namespace ClassLet

namespace MemberTable

variable {t t' : MemberTable} {name : String} {ty : Ty} {i : Nat}

/-!
# Other names
-/

/-- A field that is added is bound, and fields that are there stay. -/
theorem addField_bound {other : String} {ty : Ty} {place : Int}
    (hadd : t.addField other ty = .ok (place, t')) :
    ∃ fields, t' = t.bindField other ty place fields ∧ t.fields.length ≤ fields.length := by
  unfold addField at hadd
  cases hother : t.member? other with
  | none =>
      rw [hother] at hadd
      cases hadd
      exact ⟨_, rfl, by simp⟩
  | some known =>
      simp only [hother] at hadd
      split at hadd
      · cases hadd
      · cases hreplaced : replaceAt t.fields fieldPosition? known.offset ty with
        | error fault =>
            rw [hreplaced] at hadd
            cases hadd
        | ok fields =>
            rw [hreplaced] at hadd
            cases hadd
            rcases replaceAt_eq_ok_iff.mp hreplaced with ⟨j, _, _, rfl⟩
            exact ⟨_, rfl, Nat.le_of_eq List.length_set.symm⟩

theorem addMethod_bound {other : String} {signature : Signature} {slot : Nat}
    (hadd : t.addMethod other signature = .ok (slot, t')) :
    ∃ dispatch, t' = t.bindMethod other signature slot dispatch := by
  unfold addMethod at hadd
  cases hother : t.member? other with
  | none =>
      rw [hother] at hadd
      cases hadd
      exact ⟨_, rfl⟩
  | some known =>
      simp only [hother] at hadd
      split at hadd
      · cases hreplaced :
            replaceAt t.dispatch slotPosition? known.offset { name := other, signature } with
        | error fault =>
            rw [hreplaced] at hadd
            cases hadd
        | ok dispatch =>
            rw [hreplaced] at hadd
            cases hadd
            exact ⟨_, rfl⟩
      · cases hadd

/-!
# Tables that have the field
-/

/-- The name is bound to the place and the type of a field. -/
structure FieldAt (t : MemberTable) (name : String) (ty : Ty) (i : Nat) : Prop where
  member : t.member? name = some (.ofField i ty)
  lt_length : i < t.fields.length

namespace FieldAt

theorem entered {offset : Int} (hnew : t.member? name = none)
    (hrun : (TableEdit.field name ty).run t = .ok offset t') :
    ∃ i : Nat, offset = -((i : Int) + 1) ∧ t'.FieldAt name ty i := by
  rw [TableEdit.field_run, addField, hnew] at hrun
  cases hrun
  refine ⟨t.fields.length, by simp, ?_, by simp [bindField]⟩
  rw [member?, bindField, NameMap.find?_insert_self, Binding.ofField, List.length_append,
    List.length_singleton]
  rfl

theorem addField_same (h : t.FieldAt name ty i) (hplain : ty.isMethod = false) (ty' : Ty) :
    ∃ t', t.addField name ty' = .ok (-((i : Int) + 1), t') ∧ t'.FieldAt name ty' i := by
  rcases addField_known h.member hplain rfl h.lt_length ty' with ⟨t', hadd, hmember, hlength, _⟩
  exact ⟨t', hadd, hmember, hlength ▸ h.lt_length⟩

theorem addField_refused (h : t.FieldAt name ty i) (hmethod : ty.isMethod = true) (ty' : Ty) :
    t.addField name ty' = .error (.clash .fieldOverMethod) := by
  simp [addField, h.member, Binding.ofField, hmethod]

theorem addMethod_refused (h : t.FieldAt name ty i) (hplain : ty.isMethod = false)
    (signature : Signature) : t.addMethod name signature = .error (.clash .methodOverField) := by
  simp [addMethod, h.member, Binding.ofField, hplain]

/-- The field is taken for a method, but its offset is no slot. -/
theorem addMethod_missing (h : t.FieldAt name ty i) (hmethod : ty.isMethod = true)
    (signature : Signature) : t.addMethod name signature =
      .error (.missing { offset := -((i : Int) + 1), size := t.dispatch.length }) := by
  have hneg : -((i : Int) + 1) < 0 := by omega
  unfold addMethod
  simp only [h.member, Binding.ofField, hmethod, if_true,
    replaceAt_missing (slotPosition?_field hneg)]
  rfl

theorem addMethod_failed (h : t.FieldAt name ty i) (signature : Signature) :
    ∃ fault, t.addMethod name signature = .error fault := by
  cases hmethod : ty.isMethod with
  | false => exact ⟨_, h.addMethod_refused hmethod signature⟩
  | true => exact ⟨_, h.addMethod_missing hmethod signature⟩

/-- A field that is declared again takes the type and keeps the place. -/
theorem perform (h : t.FieldAt name ty i) {a : Addition} {place : Int}
    (hrun : a.perform.run t = .ok place t') :
    t'.FieldAt name ((a.fieldType? name).getD ty) i := by
  rcases TableEdit.perform_ok hrun with
    ⟨other, ty', rfl, hadd⟩ | ⟨other, signature, slot, rfl, _, hadd⟩
  · by_cases hname : other = name
    · subst hname
      have hplain : ty.isMethod = false := by
        by_contra hmethod
        rw [h.addField_refused (by simpa using hmethod)] at hadd
        cases hadd
      rcases h.addField_same hplain ty' with ⟨t₁, hadd₁, hat⟩
      rw [hadd] at hadd₁
      cases hadd₁
      simpa only [Addition.fieldType?, if_true, Option.getD_some] using hat
    · rcases addField_bound hadd with ⟨fields, rfl, hlength⟩
      simp only [Addition.fieldType?, hname, if_false, Option.getD_none]
      refine ⟨?_, Nat.lt_of_lt_of_le h.lt_length hlength⟩
      rw [member?, bindField, NameMap.find?_insert, if_neg (Ne.symm hname)]
      exact h.member
  · by_cases hname : other = name
    · subst hname
      rcases h.addMethod_failed signature with ⟨fault, hfailed⟩
      rw [hfailed] at hadd
      cases hadd
    · rcases addMethod_bound hadd with ⟨dispatch, rfl⟩
      refine ⟨?_, h.lt_length⟩
      rw [member?, bindMethod, NameMap.find?_insert, if_neg (Ne.symm hname)]
      exact h.member

theorem performAll {additions : List Addition} (h : t.FieldAt name ty i)
    (hrun : (Addition.performAll additions).run t = .ok () t') :
    t'.FieldAt name ((additions.filterMap (Addition.fieldType? name)).getLastD ty) i := by
  induction additions generalizing t ty with
  | nil =>
      cases hrun
      exact h
  | cons a rest ih =>
      rw [Addition.performAll, EStateM.run_bind] at hrun
      cases hfirst : a.perform.run t with
      | error fault t₁ =>
          rw [hfirst] at hrun
          cases hrun
      | ok place t₁ =>
          rw [hfirst] at hrun
          have hlast := ih (h.perform hfirst) hrun
          rw [List.filterMap_cons]
          cases hty : a.fieldType? name with
          | none =>
              rw [hty, Option.getD_none] at hlast
              exact hlast
          | some ty' =>
              rw [hty, Option.getD_some] at hlast
              rw [List.getLastD_cons]
              exact hlast

end FieldAt

end MemberTable

/-!
# Declaring a field again
-/

namespace TableEdit

/-- The name is new when it is declared as a field, and every addition that follows is completed.
The type that was declared last decides what the field is then taken for. -/
theorem field_kept {t₀ t₁ t : MemberTable} {name : String} {ty : Ty} {offset : Int}
    {additions : List Addition}
    (hnew : t₀.member? name = none) (hentered : (field name ty).run t₀ = .ok offset t₁)
    (hrest : (Addition.performAll additions).run t₁ = .ok () t) :
    let last := (additions.filterMap (Addition.fieldType? name)).getLastD ty
    t.member? name = some { level := objectLevel, ty := last, offset } ∧
      (last.isMethod = false →
        (∀ ty', ∃ t', (field name ty').run t = .ok offset t') ∧
          ∀ signature, (method name signature).run t = .error (.clash .methodOverField) t) ∧
      (last.isMethod = true →
        (∀ ty', (field name ty').run t = .error (.clash .fieldOverMethod) t) ∧
          ∀ signature, (method name signature).run t =
            .error (.missing { offset, size := t.dispatch.length }) t) := by
  intro last
  rcases MemberTable.FieldAt.entered hnew hentered with ⟨i, rfl, hfirst⟩
  have hat : t.FieldAt name last i := hfirst.performAll hrest
  refine ⟨hat.member, fun hplain => ⟨fun ty' => ?_, fun signature => ?_⟩,
    fun hmethod => ⟨fun ty' => ?_, fun signature => ?_⟩⟩
  · rcases hat.addField_same hplain ty' with ⟨t', hadd, _⟩
    exact ⟨t', by rw [field_run, hadd]; rfl⟩
  · rw [method_run, hat.addMethod_refused hplain]
    rfl
  · rw [field_run, hat.addField_refused hmethod]
    rfl
  · rw [method_run, hat.addMethod_missing hmethod]
    rfl

/-- A function and then a truth value, with a method between them. -/
theorem field_kept_redeclared :
    let getter : Signature := { params := [], result := .int }
    let additions : List Addition := [.method "m" getter, .field "x" .bool]
    ∃ t₁ t, MemberTable.empty.member? "x" = none ∧
      (field "x" (.arrow getter)).run MemberTable.empty = .ok (-1) t₁ ∧
      (Addition.performAll additions).run t₁ = .ok () t ∧
      t.member? "x" = some { level := objectLevel, ty := .bool, offset := -1 } ∧
      (∀ ty', ∃ t', (field "x" ty').run t = .ok (-1) t') ∧
      ∀ signature, (method "x" signature).run t = .error (.clash .methodOverField) t := by
  intro getter additions
  rcases @field_kept .empty _ _ "x" (.arrow getter) _ additions rfl rfl rfl with
    ⟨hmember, hplain, _⟩
  exact ⟨_, _, rfl, rfl, rfl, hmember, hplain rfl⟩

/-- A field that has the type of a method is not known as a field any more, nor is it a method. -/
theorem field_mistaken :
    let getter : Signature := { params := [], result := .int }
    ∃ t, (field "k" (.method getter)).run MemberTable.empty = .ok (-1) t ∧
      (field "k" .int).run t = .error (.clash .fieldOverMethod) t ∧
      (method "k" getter).run t = .error (.missing { offset := -1, size := 0 }) t :=
  ⟨_, rfl, rfl, rfl⟩

end TableEdit

end ClassLet
