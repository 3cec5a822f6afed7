import Mathlib.Order.Basic
import Mathlib.Data.Nat.Notation

set_option autoImplicit false

/-!
# Computations that run out of fuel

A computation of `Except ε` ends in the error `e` when it has run out of fuel. With more fuel it
may come to something else, and where it has come to something already it stays at that.
-/
namespace Fuel

variable {ε α β : Type} {e : ε}

/-- `y` is what `x` has come to, unless `x` has run out of fuel. -/
def Extends (e : ε) (x y : Except ε α) : Prop := x ≠ .error e → y = x

theorem Extends.refl (e : ε) (x : Except ε α) : Extends e x x := fun _ => rfl

theorem Extends.unfinished (y : Except ε α) : Extends e (.error e) y := fun h => absurd rfl h

theorem Extends.bind {x y : Except ε α} {f g : α → Except ε β} (hxy : Extends e x y)
    (hfg : ∀ a, Extends e (f a) (g a)) : Extends e (x >>= f) (y >>= g) := by
  intro hend
  cases x with
  | error e' =>
    have hx : (.error e' : Except ε α) ≠ .error e := by
      intro heq
      cases heq
      exact hend rfl
    rw [hxy hx]
    rfl
  | ok a =>
    rw [hxy nofun]
    exact hfg a hend

/-- What a family that is extended by itself comes to does not depend on the fuel. -/
theorem agree {x : ℕ → Except ε α} (hx : ∀ n m, n ≤ m → Extends e (x n) (x m)) {n m : ℕ}
    (hn : x n ≠ .error e) (hm : x m ≠ .error e) : x n = x m := by
  rcases Nat.le_total n m with hle | hle
  · exact (hx n m hle hn).symm
  · exact hx m n hle hm

end Fuel
