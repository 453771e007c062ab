import Mathlib.Algebra.Order.Field.Basic

namespace Chronos.Library.ExtendedNumbers

/-- Exact numbers with the special values of floating point. -/
inductive Extended (K : Type)
  | finite (x : K)
  | posInf
  | negInf
  | nan
  deriving DecidableEq

variable {K : Type}

def Extended.IsFinite : Extended K → Prop
  | .finite _ => True
  | _ => False

instance (x : Extended K) : Decidable x.IsFinite :=
  match x with
  | .finite _ => isTrue trivial
  | .posInf | .negInf | .nan => isFalse id

theorem isFinite_iff {x : Extended K} : x.IsFinite ↔ ∃ a, x = .finite a := by
  cases x <;> simp [Extended.IsFinite]

section Order

variable [LinearOrder K]

/-- Every comparison with `nan` is false. -/
def Extended.Le : Extended K → Extended K → Prop
  | .nan, _ => False
  | _, .nan => False
  | .finite a, .finite b => a ≤ b
  | .negInf, _ => True
  | _, .posInf => True
  | _, _ => False

def Extended.Lt : Extended K → Extended K → Prop
  | .nan, _ => False
  | _, .nan => False
  | .finite a, .finite b => a < b
  | .posInf, _ => False
  | _, .negInf => False
  | _, _ => True

instance : LE (Extended K) := ⟨Extended.Le⟩

instance : LT (Extended K) := ⟨Extended.Lt⟩

instance (x y : Extended K) : Decidable (x ≤ y) :=
  match x, y with
  | .finite a, .finite b => inferInstanceAs (Decidable (a ≤ b))
  | .nan, .finite _ | .nan, .posInf | .nan, .negInf | .nan, .nan => isFalse id
  | .finite _, .nan | .posInf, .nan | .negInf, .nan => isFalse id
  | .posInf, .finite _ | .posInf, .negInf | .finite _, .negInf => isFalse id
  | .negInf, .finite _ | .negInf, .posInf | .negInf, .negInf => isTrue trivial
  | .finite _, .posInf | .posInf, .posInf => isTrue trivial

instance (x y : Extended K) : Decidable (x < y) :=
  match x, y with
  | .finite a, .finite b => inferInstanceAs (Decidable (a < b))
  | .nan, .finite _ | .nan, .posInf | .nan, .negInf | .nan, .nan => isFalse id
  | .finite _, .nan | .posInf, .nan | .negInf, .nan => isFalse id
  | .posInf, .finite _ | .posInf, .posInf | .posInf, .negInf => isFalse id
  | .finite _, .negInf | .negInf, .negInf => isFalse id
  | .finite _, .posInf | .negInf, .finite _ | .negInf, .posInf => isTrue trivial

@[simp] theorem finite_le_finite {a b : K} : (Extended.finite a ≤ .finite b) ↔ a ≤ b := Iff.rfl

@[simp] theorem finite_lt_finite {a b : K} : (Extended.finite a < .finite b) ↔ a < b := Iff.rfl

theorem finite_le_posInf (a : K) : Extended.finite a ≤ .posInf := trivial

end Order

section Division

variable [Field K] [LinearOrder K]

/-- A divisor of zero counts as the positive one. -/
def Extended.div : Extended K → Extended K → Extended K
  | .nan, _ => .nan
  | _, .nan => .nan
  | .finite a, .finite b =>
      if b = 0 then if a = 0 then .nan else if 0 < a then .posInf else .negInf
      else .finite (a / b)
  | .finite _, _ => .finite 0
  | .posInf, .finite b => if b < 0 then .negInf else .posInf
  | .negInf, .finite b => if b < 0 then .posInf else .negInf
  | _, _ => .nan

instance : Div (Extended K) := ⟨Extended.div⟩

theorem finite_div_finite {a b : K} (hb : b ≠ 0) :
    Extended.finite a / .finite b = .finite (a / b) :=
  if_neg hb

theorem isFinite_div {x y : Extended K} (hx : x.IsFinite) (hy : y.IsFinite)
    (hpos : .finite 0 < y) : (x / y).IsFinite := by
  obtain ⟨a, rfl⟩ := isFinite_iff.mp hx
  obtain ⟨b, rfl⟩ := isFinite_iff.mp hy
  rw [finite_div_finite (ne_of_gt (finite_lt_finite.mp hpos))]
  trivial

end Division

end Chronos.Library.ExtendedNumbers
