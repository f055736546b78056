import FlexQL.Ref.Common

/-!
# Which values can be index keys

`operator<` and `operator==` order the values of one column, with one
exception: a NaN is below nothing, above nothing and equal to nothing.
`Comparable` leaves it out. On the comparable values of a type the two
operators are a strict weak order with its ties, and for every type but
`DECIMAL`, where the two zeros are tied, tied values are equal.
-/

namespace FlexQL.Spec

open Lib FlexQL.Ref

/-- A value of the given type that compares with the others of that type. -/
def Comparable (ty : DataType) (v : Value) : Prop :=
  v.type = ty ∧ (∀ b, v = .decimal b → Double.isNaN b = false) ∧
    ∀ c, ty ≠ .unknown c

theorem Comparable.type {ty : DataType} {v : Value} (h : Comparable ty v) :
    v.type = ty := h.1

private theorem int_weakOrder :
    WeakOrderOn (Comparable .int) Value.lt Value.eq := by
  refine WeakOrderOn.comap (fun v => v.intVal.toInt) WeakOrderOn.ofLinear
    (fun _ => trivial) ?_ ?_
  · intro a b ha _
    simp [Value.lt, ha.type, Int32.lt_iff_toInt_lt]
  · intro a b ha hb
    simp [Value.eq, ha.type, hb.type, Int32.toInt_inj]

private theorem decimal_weakOrder :
    WeakOrderOn (Comparable .decimal) Value.lt Value.eq := by
  refine WeakOrderOn.comap Value.decVal Double.weakOrder ?_ ?_ ?_
  · intro a ha
    cases a with
    | decimal b => exact ha.2.1 b rfl
    | int _ | varchar _ | datetime _ | unknown _ => exact absurd ha.type (by simp [Value.type])
  · intro a b ha _
    simp [Value.lt, ha.type]
  · intro a b ha hb
    simp [Value.eq, ha.type, hb.type]

private theorem varchar_weakOrder :
    WeakOrderOn (Comparable .varchar) Value.lt Value.eq := by
  refine WeakOrderOn.comap Value.strVal WeakOrderOn.ofLinear (fun _ => trivial) ?_ ?_
  · intro a b ha _
    simp [Value.lt, ha.type]
  · intro a b ha hb
    simp [Value.eq, ha.type, hb.type]

private theorem datetime_weakOrder :
    WeakOrderOn (Comparable .datetime) Value.lt Value.eq := by
  refine WeakOrderOn.comap (fun v => v.dtVal.toInt) WeakOrderOn.ofLinear
    (fun _ => trivial) ?_ ?_
  · intro a b ha _
    simp [Value.lt, ha.type, Int64.lt_iff_toInt_lt]
  · intro a b ha hb
    simp [Value.eq, ha.type, hb.type, Int64.toInt_inj]

/-- The comparison operators order the comparable values of a type. -/
theorem valueOrder (ty : DataType) : WeakOrderOn (Comparable ty) Value.lt Value.eq := by
  cases ty with
  | int => exact int_weakOrder
  | decimal => exact decimal_weakOrder
  | varchar => exact varchar_weakOrder
  | datetime => exact datetime_weakOrder
  | unknown c =>
      have hno : ∀ v, ¬ Comparable (.unknown c) v := fun v h => h.2.2 c rfl
      exact ⟨fun ha => absurd ha (hno _), fun ha => absurd ha (hno _),
        fun ha => absurd ha (hno _)⟩

/-- The types whose tied values are equal. -/
def Exact (ty : DataType) : Prop := ty = .int ∨ ty = .varchar ∨ ty = .datetime

theorem comparable_of_exact {ty : DataType} (hty : Exact ty) {v : Value}
    (hv : v.type = ty) : Comparable ty v := by
  refine ⟨hv, ?_, ?_⟩
  · rintro b rfl
    rcases hty with rfl | rfl | rfl <;> exact absurd hv (by simp [Value.type])
  · rintro c rfl
    rcases hty with h | h | h <;> exact absurd h (by simp)

theorem eq_iff_of_exact {ty : DataType} (hty : Exact ty) {a b : Value}
    (ha : a.type = ty) (hb : b.type = ty) : a.eq b = true ↔ a = b := by
  have hi : ∀ x : Int32, (Value.int x).intVal = x := by
    intro x
    simp [Value.intVal, Value.word]
  have hd : ∀ x : Int64, (Value.datetime x).dtVal = x := by
    intro x
    simp [Value.dtVal, Value.word]
  rcases hty with rfl | rfl | rfl
  · cases a <;> simp [Value.type] at ha
    cases b <;> simp [Value.type] at hb
    simp [Value.eq, Value.type, hi]
  · cases a <;> simp [Value.type] at ha
    cases b <;> simp [Value.type] at hb
    simp only [Value.eq, Value.type, Value.strVal, Value.varchar.injEq, ne_eq,
      not_true_eq_false, if_false]
    exact decide_eq_true_iff
  · cases a <;> simp [Value.type] at ha
    cases b <;> simp [Value.type] at hb
    simp [Value.eq, Value.type, hd]

end FlexQL.Spec
