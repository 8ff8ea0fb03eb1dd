import Mathlib.Tactic

/-!
# Signed 32-bit arithmetic

An `int` is the integer that its 32 bits stand for in two's complement. Programs over `ℤ` bring a
result back into that range with `wrap`; a chain of additions and multiplications may be wrapped
once, at its end.
-/

namespace Signed32

/-- The signed number of the lowest 32 bits of `x`. -/
def wrap (x : ℤ) : ℤ := (x + 2 ^ 31) % 2 ^ 32 - 2 ^ 31

variable {x y : ℤ}

theorem wrap_eq_self (h : -2 ^ 31 ≤ x) (h' : x < 2 ^ 31) : wrap x = x := by
  rw [wrap, Int.emod_eq_of_lt] <;> omega

theorem le_wrap (x : ℤ) : -2 ^ 31 ≤ wrap x := by
  rw [wrap]
  omega

theorem wrap_lt (x : ℤ) : wrap x < 2 ^ 31 := by
  rw [wrap]
  omega

/-- Numbers with the same lowest 32 bits wrap to the same number. -/
theorem wrap_congr (h : x ≡ y [ZMOD 2 ^ 32]) : wrap x = wrap y := by
  rw [wrap, wrap, (h.add_right (2 ^ 31) : (x + 2 ^ 31) % 2 ^ 32 = _)]

theorem wrap_modEq (x : ℤ) : wrap x ≡ x [ZMOD 2 ^ 32] :=
  calc (x + 2 ^ 31) % 2 ^ 32 - 2 ^ 31
      ≡ x + 2 ^ 31 - 2 ^ 31 [ZMOD 2 ^ 32] := (Int.mod_modEq _ _).sub_right _
    _ = x := add_sub_cancel_right _ _

theorem wrap_wrap_sub (x y : ℤ) : wrap (wrap x - y) = wrap (x - y) :=
  wrap_congr ((wrap_modEq x).sub_right y)

theorem wrap_wrap_add (x y : ℤ) : wrap (wrap x + y) = wrap (x + y) :=
  wrap_congr ((wrap_modEq x).add_right y)

theorem wrap_wrap_mul (x y : ℤ) : wrap (wrap x * y) = wrap (x * y) :=
  wrap_congr ((wrap_modEq x).mul_right y)

end Signed32
