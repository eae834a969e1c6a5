import Mathlib.Data.List.Basic
import Mathlib.Tactic.Ring
import Mathlib.Tactic.NormNum

/-!
Numbers and strings as bytes: fixed width with the least significant byte first, groups of
seven bits with a continuation bit, and strings behind their length.

A reader takes a value off the front of its input and returns what is left, so that readers are
run one after the other on what writers put behind each other.
-/

namespace ZenFs.Library.Coding

open List Option Nat

abbrev Bytes := List UInt8

def putFixed : ℕ → ℕ → Bytes
  | 0, _ => []
  | k + 1, n => UInt8.ofNat n :: putFixed k (n / 256)

def fixedValue : Bytes → ℕ
  | [] => 0
  | b :: rest => b.toNat + 256 * fixedValue rest

def getFixed (k : ℕ) (input : Bytes) : Option (ℕ × Bytes) :=
  if input.length < k then none else some (fixedValue (input.take k), input.drop k)

@[simp] theorem length_putFixed (k n : ℕ) : (putFixed k n).length = k := by
  induction k generalizing n with
  | zero => rfl
  | succ k ih => simp [putFixed, ih]

theorem fixedValue_putFixed (k n : ℕ) : fixedValue (putFixed k n) = n % 256 ^ k := by
  induction k generalizing n with
  | zero => simp [putFixed, fixedValue, mod_one]
  | succ k ih =>
    have hsplit : n % 256 ^ (k + 1) = n % 256 + 256 * (n / 256 % 256 ^ k) := by
      rw [pow_succ', mod_mul]
    rw [putFixed, fixedValue, ih, hsplit, UInt8.toNat_ofNat']

theorem getFixed_append {k : ℕ} {b : Bytes} (hb : b.length = k) (rest : Bytes) :
    getFixed k (b ++ rest) = some (fixedValue b, rest) := by
  subst hb
  simp [getFixed]

theorem getFixed_putFixed {k n : ℕ} (hn : n < 256 ^ k) (rest : Bytes) :
    getFixed k (putFixed k n ++ rest) = some (n, rest) := by
  rw [getFixed_append (length_putFixed k n), fixedValue_putFixed, mod_eq_of_lt hn]

/-- Seven bits a byte, at most `k + 1` bytes. -/
def putVarint : ℕ → ℕ → Bytes
  | 0, n => [UInt8.ofNat n]
  | k + 1, n =>
    if n < 128 then [UInt8.ofNat n] else UInt8.ofNat (n % 128 + 128) :: putVarint k (n / 128)

/-- Take a number of at most `k` bytes off the input. -/
def getVarint : ℕ → Bytes → Option (ℕ × Bytes)
  | 0, _ => none
  | _ + 1, [] => none
  | k + 1, b :: rest =>
    if b.toNat < 128 then some (b.toNat, rest)
    else (getVarint k rest).map fun p => (b.toNat - 128 + 128 * p.1, p.2)

theorem getVarint_putVarint (k : ℕ) {n : ℕ} (hn : n < 128 ^ (k + 1)) (rest : Bytes) :
    getVarint (k + 1) (putVarint k n ++ rest) = some (n, rest) := by
  induction k generalizing n with
  | zero =>
    have hbyte : (UInt8.ofNat n).toNat = n := by
      rw [UInt8.toNat_ofNat']
      omega
    have hlow : n < 128 := by simpa using hn
    simp only [putVarint, cons_append, nil_append, getVarint, hbyte, if_pos hlow]
  | succ k ih =>
    rw [putVarint]
    split
    case isTrue hlow =>
      have hbyte : (UInt8.ofNat n).toNat = n := by
        rw [UInt8.toNat_ofNat']
        omega
      simp only [cons_append, nil_append, getVarint, hbyte, if_pos hlow]
    case isFalse hhigh =>
      have hbyte : (UInt8.ofNat (n % 128 + 128)).toNat = n % 128 + 128 := by
        rw [UInt8.toNat_ofNat']
        omega
      have hrest : n / 128 < 128 ^ (k + 1) := by
        rw [div_lt_iff_lt_mul (by decide)]
        exact hn
      have hagain : ¬ n % 128 + 128 < 128 := by omega
      have hvalue : n % 128 + 128 - 128 + 128 * (n / 128) = n := by omega
      rw [cons_append, getVarint, hbyte, if_neg hagain, ih hrest, map_some]
      simp only [hvalue]

def putVarint32 (n : ℕ) : Bytes := putVarint 4 n

/-- What is beyond 32 bits is shifted out. -/
def getVarint32 (input : Bytes) : Option (ℕ × Bytes) :=
  (getVarint 5 input).map fun p => (p.1 % 2 ^ 32, p.2)

theorem getVarint32_putVarint32 {n : ℕ} (hn : n < 2 ^ 32) (rest : Bytes) :
    getVarint32 (putVarint32 n ++ rest) = some (n, rest) := by
  have hfits : n < 128 ^ (4 + 1) := lt_of_lt_of_le hn (by norm_num)
  rw [getVarint32, putVarint32, getVarint_putVarint 4 hfits, map_some]
  simp only [mod_eq_of_lt hn]

/-- The length is stored in 32 bits. -/
def putLengthPrefixed (s : Bytes) : Bytes := putVarint32 (s.length % 2 ^ 32) ++ s

def getLengthPrefixed (input : Bytes) : Option (Bytes × Bytes) :=
  (getVarint32 input).bind fun p =>
    if p.2.length < p.1 then none else some (p.2.take p.1, p.2.drop p.1)

theorem getLengthPrefixed_put_mod (s rest : Bytes) :
    getLengthPrefixed (putLengthPrefixed s ++ rest) =
      some (s.take (s.length % 2 ^ 32), s.drop (s.length % 2 ^ 32) ++ rest) := by
  have hle : s.length % 2 ^ 32 ≤ s.length := mod_le _ _
  rw [getLengthPrefixed, putLengthPrefixed, List.append_assoc,
    getVarint32_putVarint32 (mod_lt _ (by norm_num)), bind_some]
  have hlong : ¬ (s ++ rest).length < s.length % 2 ^ 32 := by
    rw [length_append]
    omega
  simp only [if_neg hlong, take_append_of_le_length hle, drop_append_of_le_length hle]

theorem getLengthPrefixed_put {s : Bytes} (hs : s.length < 2 ^ 32) (rest : Bytes) :
    getLengthPrefixed (putLengthPrefixed s ++ rest) = some (s, rest) := by
  rw [getLengthPrefixed_put_mod, mod_eq_of_lt hs, take_length, drop_length,
    nil_append]

theorem length_of_getLengthPrefixed {input s rest : Bytes}
    (h : getLengthPrefixed input = some (s, rest)) : rest.length < input.length := by
  obtain ⟨⟨n, r⟩, hr, hs⟩ := bind_eq_some_iff.mp h
  obtain ⟨⟨m, q⟩, hq, hp⟩ := map_eq_some_iff.mp hr
  have hshort : ∀ (k : ℕ) {input : Bytes} {m : ℕ} {q : Bytes},
      getVarint k input = some (m, q) → q.length < input.length := by
    intro k
    induction k with
    | zero => exact nofun
    | succ k ih =>
      intro input m q hm
      cases input with
      | nil => cases hm
      | cons b rest =>
        rw [getVarint] at hm
        split at hm
        · cases hm
          exact lt_succ_self _
        · obtain ⟨⟨m', q'⟩, hm', hpair⟩ := map_eq_some_iff.mp hm
          cases hpair
          have hlt : q'.length < rest.length := ih hm'
          exact lt_succ_of_lt hlt
  have hlt := hshort 5 hq
  cases hp
  dsimp only at hs
  split at hs
  · cases hs
  · cases hs
    rw [length_drop]
    omega

theorem length_of_getFixed {k n : ℕ} {input rest : Bytes} (h : getFixed k input = some (n, rest)) :
    rest.length + k = input.length := by
  rw [getFixed] at h
  split at h
  · cases h
  · cases h
    rw [length_drop]
    omega

section Loop

variable {α ε : Type}

/-- At most `k` rounds, each of which ends the loop or goes on with what it left of the
input. -/
def loop (round : α → Bytes → Except ε (α × Option Bytes)) : ℕ → α → Bytes → Except ε α
  | 0, a, _ => .ok a
  | k + 1, a, input =>
    match round a input with
    | .error s => .error s
    | .ok (b, none) => .ok b
    | .ok (b, some rest) => loop round k b rest

def consume (round : α → Bytes → Except ε (α × Option Bytes)) (a : α) (input : Bytes) :
    Except ε α := loop round (input.length + 1) a input

/-- Every round that goes on takes something off the input. -/
def Consuming (round : α → Bytes → Except ε (α × Option Bytes)) : Prop :=
  ∀ a input b rest, round a input = .ok (b, some rest) → rest.length < input.length

variable {round : α → Bytes → Except ε (α × Option Bytes)}

section

variable (hround : Consuming round)
include hround

theorem loop_eq_of_lt {j k : ℕ} {a : α} {input : Bytes}
    (hj : input.length < j) (hk : input.length < k) :
    loop round j a input = loop round k a input := by
  induction j generalizing k a input with
  | zero => omega
  | succ j ih =>
    obtain ⟨k, rfl⟩ : ∃ m, k = m + 1 := ⟨k - 1, by omega⟩
    rw [loop, loop]
    match hr : round a input with
    | .error s => rfl
    | .ok (b, none) => rfl
    | .ok (b, some rest) =>
      have hlt := hround a input b rest hr
      exact ih (by omega) (by omega)

theorem consume_eq (a : α) (input : Bytes) :
    consume round a input =
      match round a input with
      | .error s => .error s
      | .ok (b, none) => .ok b
      | .ok (b, some rest) => consume round b rest := by
  rw [consume, loop]
  match hr : round a input with
  | .error s => rfl
  | .ok (b, none) => rfl
  | .ok (b, some rest) =>
    have hlt := hround a input b rest hr
    exact loop_eq_of_lt hround (by omega) (by omega)

theorem consume_go {a b : α} {input rest : Bytes}
    (h : round a input = .ok (b, some rest)) : consume round a input = consume round b rest := by
  rw [consume_eq hround, h]

theorem consume_end {a b : α} {input : Bytes}
    (h : round a input = .ok (b, none)) : consume round a input = .ok b := by
  rw [consume_eq hround, h]

theorem consume_error {a : α} {input : Bytes} {s : ε}
    (h : round a input = .error s) : consume round a input = .error s := by
  rw [consume_eq hround, h]

end

end Loop

end ZenFs.Library.Coding
