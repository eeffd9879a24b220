/-
  Aworker.Fetch.Js — the JavaScript values the fetch and cache code works on: texts,
  numbers and thrown errors.

  A status is a `Number`, and nothing rounds it before it is stored in an `int32`.
-/

import Mathlib

namespace Aworker.Fetch

abbrev Text := List Char

abbrev Bytes := List UInt8

-- what decides `∈` on lists of texts
instance : LawfulBEq Text := inferInstance

/-! ## Numbers -/

/-- The finite number `num / 2 ^ exp`. -/
structure JsNumber where
  num : Int
  exp : Nat := 0
  deriving DecidableEq

variable {x : JsNumber}

namespace JsNumber

def ofInt (n : Int) : JsNumber := { num := n }

/-- `x === n` -/
def eqInt (x : JsNumber) (n : Int) : Bool := x.num == n * 2 ^ x.exp

/-- `x < n` -/
def ltInt (x : JsNumber) (n : Int) : Bool := x.num < n * 2 ^ x.exp

/-- `x > n` -/
def gtInt (x : JsNumber) (n : Int) : Bool := n * 2 ^ x.exp < x.num

/-- `Int32Value`: the fraction is cut off, the rest taken modulo `2 ^ 32`. -/
def toInt32 (x : JsNumber) : Int := (x.num.tdiv (2 ^ x.exp)).bmod (2 ^ 32)

def Same (x y : JsNumber) : Prop := x.num * 2 ^ y.exp = y.num * 2 ^ x.exp

/-- `Number.isInteger` -/
def isInteger (x : JsNumber) : Bool := x.num.tmod (2 ^ x.exp) == 0

theorem pow_pos (x : JsNumber) : (0 : Int) < 2 ^ x.exp := by positivity

theorem toInt32_ok (h1 : x.ltInt 200 = false) (h2 : x.gtInt 299 = false) :
    x.toInt32 = x.num / 2 ^ x.exp ∧ 200 ≤ x.toInt32 ∧ x.toInt32 ≤ 299 := by
  have hp := x.pow_pos
  simp only [ltInt, decide_eq_false_iff_not, not_lt] at h1
  simp only [gtInt, decide_eq_false_iff_not, not_lt] at h2
  have h0 : 0 ≤ x.num := by
    have : (0 : Int) ≤ 200 * 2 ^ x.exp := by positivity
    omega
  have hlo : 200 ≤ x.num / 2 ^ x.exp := (Int.le_ediv_iff_mul_le hp).mpr h1
  have hhi : x.num / 2 ^ x.exp ≤ 299 := by
    have := Int.ediv_le_ediv hp h2
    rwa [Int.mul_ediv_cancel _ hp.ne'] at this
  have hq : x.num.tdiv (2 ^ x.exp) = x.num / 2 ^ x.exp := Int.tdiv_eq_ediv_of_nonneg h0
  have hb : x.toInt32 = x.num / 2 ^ x.exp := by
    rw [toInt32, hq]
    exact Int.bmod_eq_of_le (by omega) (by omega)
  rw [hb]
  exact ⟨rfl, hlo, hhi⟩

theorem ofInt_eqInt (n m : Int) : (ofInt n).eqInt m = (n == m) := by simp [ofInt, eqInt]

theorem ofInt_ltInt (n m : Int) : (ofInt n).ltInt m = decide (n < m) := by simp [ofInt, ltInt]

theorem ofInt_gtInt (n m : Int) : (ofInt n).gtInt m = decide (m < n) := by simp [ofInt, gtInt]

theorem toInt32_ofInt {n : Int} (h1 : 200 ≤ n) (h2 : n ≤ 299) : (ofInt n).toInt32 = n := by
  have := (toInt32_ok (x := ofInt n) (by simp [ofInt_ltInt, h1]) (by simp [ofInt_gtInt, h2])).1
  simpa [ofInt] using this

theorem same_toInt32 (h1 : x.ltInt 200 = false) (h2 : x.gtInt 299 = false) (hi : x.isInteger = true) :
    Same (ofInt x.toInt32) x := by
  obtain ⟨hq, -, -⟩ := toInt32_ok h1 h2
  have h0 : 0 ≤ x.num := by
    simp only [ltInt, decide_eq_false_iff_not, not_lt] at h1
    have : (0 : Int) ≤ 200 * 2 ^ x.exp := by positivity
    omega
  have hm : x.num % 2 ^ x.exp = 0 := by
    have := beq_iff_eq.mp hi
    rwa [Int.tmod_eq_emod_of_nonneg h0] at this
  have hdvd : x.num / 2 ^ x.exp * 2 ^ x.exp = x.num := Int.ediv_mul_cancel (Int.dvd_of_emod_eq_zero hm)
  simp [Same, ofInt, hq, hdvd]

end JsNumber

namespace Shared

/-- A `Number`. -/
inductive Num where
  | nan
  | infinite (negative : Bool)
  | finite (x : JsNumber)
  deriving DecidableEq

def Num.ofInt (n : Int) : Num := .finite (.ofInt n)

/-- `x < n` -/
def Num.ltInt : Num → Int → Bool
  | .nan, _ => false
  | .infinite negative, _ => negative
  | .finite x, n => x.ltInt n

/-- `x > n` -/
def Num.gtInt : Num → Int → Bool
  | .nan, _ => false
  | .infinite negative, _ => !negative
  | .finite x, n => x.gtInt n

/-- `x === n`; `includes` differs from it for `NaN` only. -/
def Num.eqInt : Num → Int → Bool
  | .finite x, n => x.eqInt n
  | _, _ => false

/-- `x || y` -/
def Num.or (x y : Num) : Num := if x = .nan ∨ x.eqInt 0 then y else x

end Shared

/-! ## Errors -/

inductive JsError where
  | typeError (message : Text)
  /-- `RangeError`: `The status provided (status) is outside the range [200, 599]` -/
  | statusRange (status : JsNumber)
  /-- `TypeError`: `Error response is not cache-able: status(status)` -/
  | notCacheable (status : JsNumber)
  /-- `createInvalidStateError()` -/
  | invalidState
  deriving DecidableEq

/-- A block that ends well: its first part did, and the rest with its value. -/
theorem bind_ok {ε α β : Type} {x : Except ε α} {f : α → Except ε β} {b : β} :
    (x >>= f) = .ok b ↔ ∃ a, x = .ok a ∧ f a = .ok b := by
  cases x <;> simp [bind, Except.bind]

end Aworker.Fetch
