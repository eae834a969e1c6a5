import Mathlib.Data.Rat.Floor
import Mathlib.Data.Int.Log
import ZenFs.Library.Act
import ZenFs.Library.Coding

/-!
Workload specifications of Tectonic, and the numbers and strings they generate.

A floating point number is the rational it stands for, and the product that a range length
is computed from is rounded as the source does. Where the source draws a random
number, the answer comes from a `World`: it samples every distribution, and picks every
character, index and marker. A statement about every world is one about every outcome.
-/

namespace ZenFs.Tectonic

open Library

-- `Key` and every other string are their bytes.
export Coding (Bytes)

/-- How a run can end early: an error that is returned, a `KeySet` method that the selected
key set does not support, another panic, or a retry loop that does not find a key. -/
inductive Stop
  | bail (msg : String)
  | unsupported (msg : String)
  | panic (msg : String)
  | noKey
  deriving DecidableEq, Repr

def stopIf {σ : Type} (condition : Prop) [Decidable condition] (e : Stop) : Act σ Stop Unit :=
  if condition then .fail e else pure ()

/-- The samplers of `rand_distr`, with the parameters they were built with. -/
inductive Sampler
  | uniform (low high : ℚ)
  | normal (mean stdDev : ℚ)
  | exp (lambda : ℚ)
  | beta (alpha beta : ℚ)
  | zipf (n s : ℚ)
  | logNormal (mu sigma : ℚ)
  | poisson (lambda : ℚ)
  | weibull (scale shape : ℚ)
  | pareto (scale shape : ℚ)
  deriving DecidableEq, Repr

inductive Distribution
  | uniform (min max : ℚ) (distr : Sampler)
  | normal (mean stdDev : ℚ) (distr : Sampler)
  | exponential (lambda : ℚ) (distr : Sampler)
  | beta (alpha beta : ℚ) (distr : Sampler)
  | zipf (n s : ℚ) (distr : Sampler)
  | latest (n s : ℚ) (distr : Sampler)
  | logNormal (mean stdDev : ℚ) (distr : Sampler)
  | poisson (lambda : ℚ) (distr : Sampler)
  | weibull (scale shape : ℚ) (distr : Sampler)
  | pareto (scale shape : ℚ) (distr : Sampler)
  deriving DecidableEq, Repr

def Distribution.distr : Distribution → Sampler
  | uniform _ _ d | normal _ _ d | exponential _ d | beta _ _ d | zipf _ _ d | latest _ _ d
  | logNormal _ _ d | poisson _ d | weibull _ _ d | pareto _ _ d => d

def Distribution.defaultKeySelection : Distribution := .uniform 0 1 (.uniform 0 1)

inductive NumberExpr
  | constant (val : ℚ)
  | sampled (dist : Distribution)
  deriving DecidableEq, Repr

inductive CharacterSet
  | alphanumeric
  | alphabetic
  | numeric
  deriving DecidableEq, Repr

namespace CharacterSet

def digits : Bytes := (List.range 10).map fun i => UInt8.ofNat (48 + i)

def letters : Bytes :=
  (List.range 26).map (fun i => UInt8.ofNat (65 + i)) ++
    (List.range 26).map fun i => UInt8.ofNat (97 + i)

def characters : CharacterSet → Bytes
  | alphanumeric => letters ++ digits
  | alphabetic => letters
  | numeric => digits

end CharacterSet

/-- `StringExpr`. The weights of `Weighted` stand beside the items. -/
inductive StringExpr
  | constant (val : Bytes)
  | uniform (len : NumberExpr) (characterSet : Option CharacterSet)
  | weighted (items : List StringExpr) (weights : List ℚ)
  | segmented (separator : Bytes) (segments : List StringExpr)
  | hotRange (len : ℕ) (probability : ℚ) (hotRanges : List Bytes)

/-- Where every outcome of a random choice comes from, with the functions of floating point
numbers that have no rational value, and whether the build checks for overflow. -/
structure World (ρ : Type) where
  seed : ℕ → ρ
  sample : Sampler → ρ → ℚ × ρ
  character : CharacterSet → ρ → UInt8 × ρ
  weighted : List ℚ → ρ → ℕ × ρ
  randomBool : ℚ → ρ → Bool × ρ
  /-- `random_range(0..n)`. -/
  below : ℕ → ρ → ℕ × ρ
  /-- `evaluate_index` for a length that is not zero. -/
  index : Distribution → ℕ → ρ → ℕ × ρ
  /-- `choose_weighted_mut`: the position of the chosen counter. -/
  marker : List ℕ → ρ → ℕ × ρ
  /-- The bits of a key in a Bloom filter that is built for a number of keys. -/
  hashes : ℕ → Bytes → List ℕ
  exp : ℚ → ℚ
  gamma : ℚ → ℚ
  genHarmonic : ℕ → ℚ → ℚ
  overflowChecks : Bool
  /-- How many keys a retry loop draws. -/
  retries : ℕ
  character_mem : ∀ cs r, (character cs r).1 ∈ cs.characters
  weighted_lt : ∀ ws r, ws ≠ [] → (weighted ws r).1 < ws.length
  below_lt : ∀ n r, 0 < n → (below n r).1 < n
  index_lt : ∀ d len r, 0 < len → (index d len r).1 < len
  marker_pos : ∀ ws r, (∃ n ∈ ws, 0 < n) → ∃ n, ws[(marker ws r).1]? = some n ∧ 0 < n

/-- The nearest integer, and of two that are equally near the even one. -/
def roundEven (x : ℚ) : ℤ := if Int.fract x = 1 / 2 ∧ Even ⌊x⌋ then ⌊x⌋ else round x

/-- The exponent of the last of the 53 bits that an `f64` has for `x`. -/
def lastPlace (x : ℚ) : ℤ := max (Int.log 2 |x| - 52) (-1074)

/-- The `f64` that stands for `x`: `as f64`, or the result of an operation on `f64`s whose exact
result is `x`. Numbers that are too large for an `f64` do not occur. -/
def asF64 (x : ℚ) : ℚ := roundEven (x / 2 ^ lastPlace x) * 2 ^ lastPlace x

/-- `as usize`: towards zero, and saturating. -/
def asUsize (x : ℚ) : ℕ := min ⌊x⌋.toNat (2 ^ 64 - 1)

theorem asUsize_pos_iff {x : ℚ} : 0 < asUsize x ↔ 1 ≤ x := by
  rw [asUsize, lt_min_iff, Int.lt_toNat, Nat.cast_zero, Int.floor_pos]
  exact and_iff_left (by decide)

def asIsize (x : ℚ) : ℤ :=
  let n := if 0 ≤ x then ⌊x⌋ else -⌊-x⌋
  max (-2 ^ 63) (min n (2 ^ 63 - 1))

section Numbers

variable {ρ : Type} (w : World ρ)

def Distribution.evaluate (d : Distribution) : Act ρ Stop ℚ := .act fun r =>
  match d with
  | .latest n _ distr => (n - (w.sample distr r).1, (w.sample distr r).2)
  | d => w.sample d.distr r

def NumberExpr.evaluate : NumberExpr → Act ρ Stop ℚ
  | .constant val => pure val
  | .sampled dist => dist.evaluate w

def Distribution.expectedValue : Distribution → ℚ
  | .uniform min max _ => min + max / 2
  | .normal mean _ _ => mean
  | .exponential lambda _ => 1 / lambda
  | .beta a b _ => a / (a + b)
  | .zipf n s _ => w.genHarmonic (asUsize n) (s - 1) / w.genHarmonic (asUsize n) s
  | .latest n s _ => n - w.genHarmonic (asUsize n) (s - 1) / w.genHarmonic (asUsize n) s
  | .logNormal mean stdDev _ => w.exp (mean + 1 / 2 * stdDev ^ 2)
  | .poisson lambda _ => lambda
  | .weibull scale shape _ => scale * w.gamma (1 + 1 / shape)
  | .pareto scale shape _ => shape * scale / (shape - 1)

def NumberExpr.expectedValue : NumberExpr → ℚ
  | .constant val => val
  | .sampled dist => dist.expectedValue w

/-- `Distribution::evaluate_index`. For an empty range the uniform distribution gives 0 and
the others divide by zero. -/
def Distribution.evaluateIndex (d : Distribution) (len : ℕ) : Act ρ Stop ℕ :=
  if len = 0 then
    match d with
    | .uniform _ _ distr => .act fun r => (0, (w.sample distr r).2)
    | _ => .fail (.panic "attempt to calculate the remainder with a divisor of zero")
  else .act (w.index d len)

def usub (a b : ℕ) : Act ρ Stop ℕ :=
  if b ≤ a then pure (a - b)
  else if w.overflowChecks then .fail (.panic "attempt to subtract with overflow")
  else pure (a + 2 ^ 64 - b)

def uadd (a b : ℕ) : Act ρ Stop ℕ :=
  if a + b < 2 ^ 64 then pure (a + b)
  else if w.overflowChecks then .fail (.panic "attempt to add with overflow")
  else pure ((a + b) % 2 ^ 64)

def usum : List ℕ → Act ρ Stop ℕ
  | [] => pure 0
  | n :: rest => do
    let total ← usum rest
    uadd w n total

end Numbers

/-- A world whose random numbers count up; of the counters, the first one that is left is
chosen. -/
def tickWorld : World ℕ where
  seed _ := 0
  sample _ r := (1, r + 1)
  character cs r := (cs.characters.getD (r % cs.characters.length) 48, r + 1)
  weighted ws r := (r % ws.length, r + 1)
  randomBool _ r := (r % 2 = 0, r + 1)
  below n r := (r % n, r + 1)
  index _ len r := (r % len, r + 1)
  marker ws r := (ws.findIdx (0 < ·), r + 1)
  hashes _ key := key.map UInt8.toNat
  exp _ := 1
  gamma _ := 1
  genHarmonic _ _ := 1
  overflowChecks := true
  retries := 5
  character_mem cs r := by
    have hpos : 0 < cs.characters.length := by cases cs <;> decide
    rw [List.getD_eq_getElem?_getD, List.getElem?_eq_getElem (Nat.mod_lt r hpos)]
    exact List.getElem_mem _
  weighted_lt ws r h := Nat.mod_lt r (List.length_pos_iff.mpr h)
  below_lt n r h := Nat.mod_lt r h
  index_lt _ len r h := Nat.mod_lt r h
  marker_pos ws r h := by
    have hlt : ws.findIdx (0 < ·) < ws.length := by
      obtain ⟨n, hn, hpos⟩ := h
      exact List.findIdx_lt_length_of_exists ⟨n, hn, by simpa using hpos⟩
    have hget := List.findIdx_getElem (w := hlt)
    exact ⟨_, List.getElem?_eq_getElem hlt, by simpa using hget⟩

end ZenFs.Tectonic
