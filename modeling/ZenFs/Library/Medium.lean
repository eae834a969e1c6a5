import Mathlib.Data.List.Basic
import Mathlib.Data.List.GetD

/-!
Storage with an address for every cell: reading a span of cells and writing one.
-/

namespace ZenFs.Library.Medium

open List Nat

variable {α : Type*}

/-- The `n` cells from `pos` on. -/
def span (m : ℕ → α) (pos n : ℕ) : List α := (List.range n).map fun i => m (pos + i)

def put (m : ℕ → α) (pos : ℕ) (data : List α) : ℕ → α :=
  fun a => if pos ≤ a then data.getD (a - pos) (m a) else m a

@[simp] theorem length_span (m : ℕ → α) (pos n : ℕ) : (span m pos n).length = n := by
  simp [span]

@[simp] theorem span_zero (m : ℕ → α) (pos : ℕ) : span m pos 0 = [] := rfl

theorem span_add (m : ℕ → α) (pos a b : ℕ) :
    span m pos (a + b) = span m pos a ++ span m (pos + a) b := by
  simp [span, range_add, Nat.add_assoc]

theorem span_congr {m m' : ℕ → α} {pos n : ℕ} (h : ∀ a, pos ≤ a → a < pos + n → m a = m' a) :
    span m pos n = span m' pos n := by
  apply map_congr_left
  intro i hi
  have hlt := mem_range.mp hi
  exact h (pos + i) (by omega) (by omega)

section

variable (m : ℕ → α)
include m

theorem put_of_lt {pos a : ℕ} (data : List α) (ha : a < pos) :
    put m pos data a = m a := if_neg (by omega)

theorem put_of_le {pos a : ℕ} {data : List α} (ha : pos + data.length ≤ a) :
    put m pos data a = m a := by
  rw [put, if_pos (by omega), getD_eq_default _ _ (by omega)]

@[simp] theorem put_nil (pos : ℕ) : put m pos [] = m := by
  funext a
  simp [put]

theorem span_put_self (pos : ℕ) (data : List α) :
    span (put m pos data) pos data.length = data := by
  apply ext_getElem (by simp)
  intro i _ hi
  simp [span, put, hi]

theorem put_append (pos : ℕ) (a b : List α) :
    put m pos (a ++ b) = put (put m pos a) (pos + a.length) b := by
  funext i
  by_cases hlow : i < pos + a.length
  · rw [put_of_lt _ _ hlow, put, put]
    split
    · exact getD_append a b _ _ (by omega)
    · rfl
  · have hle : pos + a.length ≤ i := by omega
    rw [put, put, if_pos (by omega), if_pos hle, put_of_le _ hle,
      getD_append_right a b _ _ (by omega)]
    congr 1
    omega

theorem span_put_of_le {pos n a : ℕ} {data : List α} (h : pos + n ≤ a) :
    span (put m a data) pos n = span m pos n :=
  span_congr fun _ _ hlt => put_of_lt m data (by omega)

end

theorem span_put_of_ge {m : ℕ → α} {pos n a : ℕ} {data : List α} (h : a + data.length ≤ pos) :
    span (put m a data) pos n = span m pos n :=
  span_congr fun _ hle _ => put_of_le m (by omega)

theorem span_put_span {m m' : ℕ → α} {pos pos' : ℕ} {k off n : ℕ} (h : off + n ≤ k) :
    span (put m pos (span m' pos' k)) (pos + off) n = span m' (pos' + off) n := by
  apply map_congr_left
  intro i hi
  have hlt := mem_range.mp hi
  have hindex : pos + off + i - pos = off + i := by omega
  have hin : off + i < (span m' pos' k).length := by
    rw [length_span]
    omega
  rw [put, hindex, getD_eq_getElem _ _ hin]
  simp [span, Nat.add_assoc]

/-- What `n` cells lack to be whole blocks of `b`. -/
def padTo (b n : ℕ) : ℕ := (b - n % b) % b

theorem padTo_of_dvd {b n : ℕ} (h : b ∣ n) : padTo b n = 0 := by
  rw [padTo, Nat.mod_eq_zero_of_dvd h, Nat.sub_zero, Nat.mod_self]

theorem padTo_lt {b : ℕ} (hb : 0 < b) (n : ℕ) : padTo b n < b := mod_lt _ hb

theorem dvd_add_padTo {b : ℕ} (hb : 0 < b) (n : ℕ) : b ∣ n + padTo b n := by
  have hdecomp := div_add_mod n b
  have hlt := mod_lt n hb
  obtain hzero | hpos := Nat.eq_zero_or_pos (n % b)
  · have hdvd := dvd_of_mod_eq_zero hzero
    rw [padTo_of_dvd hdvd]
    exact hdvd
  · rw [padTo, mod_eq_of_lt (sub_lt hb hpos)]
    refine ⟨n / b + 1, ?_⟩
    rw [Nat.mul_add]
    omega

theorem ite_eq_add_padTo {b : ℕ} (hb : 0 < b) (n : ℕ) :
    (if n % b = 0 then n else n + (b - n % b)) = n + padTo b n := by
  split
  · next hzero => rw [padTo_of_dvd (Nat.dvd_of_mod_eq_zero hzero), Nat.add_zero]
  · next hpos => rw [padTo, Nat.mod_eq_of_lt (Nat.sub_lt hb (Nat.pos_of_ne_zero hpos))]

theorem add_padTo_le {b n m : ℕ} (hb : 0 < b) (hm : b ∣ m) (h : n ≤ m) : n + padTo b n ≤ m := by
  by_contra hlt
  have hpad := padTo_lt hb n
  have hle : b ≤ n + padTo b n - m :=
    le_of_dvd (by omega) (dvd_sub (dvd_add_padTo hb n) hm)
  omega

end ZenFs.Library.Medium
