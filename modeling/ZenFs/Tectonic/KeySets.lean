import Mathlib.Data.Finset.Basic
import Mathlib.Data.List.Sort
import ZenFs.Tectonic.Spec

/-!
The key sets that `generate_operations` selects from.

A `HashSet` is a finite set, and a Bloom filter is the list of its bits that are set. An
operation that can panic returns the panic.
-/

namespace ZenFs.Tectonic

/-- The trait `KeySet`; `new` gets the hash functions that a Bloom filter of the capacity has.
`stored` lists the keys that are in the set, and no method reads it. -/
class KeySet (S : Type) where
  stored : S → List Bytes
  new : (Bytes → List ℕ) → S
  len : S → ℕ
  isEmpty : S → Bool
  push : Bytes → S → S
  remove : ℕ → S → Except Stop (Bytes × S)
  /-- `remove_range(start..end)`: the first and the last key that were removed. -/
  removeRange : ℕ → ℕ → S → Except Stop ((Bytes × Bytes) × S)
  get : ℕ → S → Except Stop Bytes
  contains : Bytes → S → Except Stop Bool
  sort : S → Except Stop S

structure KeyVec where
  keys : List Bytes
  sorted : Bool
  deriving DecidableEq

namespace KeyVec

def empty : KeyVec := ⟨[], true⟩

variable (v : KeyVec)

def push (key : Bytes) : KeyVec where
  keys := v.keys ++ [key]
  sorted := v.sorted && !(v.keys.getLast?.any fun last => decide (key < last))

def remove (idx : ℕ) : Except Stop (Bytes × KeyVec) :=
  match v.keys[idx]? with
  | some key => .ok (key, ⟨v.keys.eraseIdx idx, v.sorted⟩)
  | none => .error (.panic "removal index (is idx) should be < len")

def swapRemove (idx : ℕ) : Except Stop (Bytes × KeyVec) :=
  match v.keys[idx]?, v.keys.getLast? with
  | some key, some last =>
    let swapped := (v.keys.set idx last).set (v.keys.length - 1) key
    .ok (last, ⟨swapped.eraseIdx idx, v.sorted⟩)
  | _, _ => .error (.panic "index out of bounds")

def removeRange (start stop : ℕ) : Except Stop ((Bytes × Bytes) × KeyVec) :=
  if stop < start ∨ v.keys.length < stop then .error (.panic "range end index out of range")
  else
    let drained := (v.keys.drop start).take (stop - start)
    match drained.head?, drained.getLast? with
    | some key1, some key2 =>
      .ok ((key1, key2), ⟨v.keys.take start ++ v.keys.drop stop, v.sorted⟩)
    | _, _ => .error (.panic "to have at least one element")

def get (idx : ℕ) : Except Stop Bytes :=
  match v.keys[idx]? with
  | some key => .ok key
  | none => .error (.panic "index out of bounds")

def sort : KeyVec := if v.sorted then v else ⟨v.keys.insertionSort (· ≤ ·), true⟩

end KeyVec

def slotLe : Option Bytes → Option Bytes → Prop
  | none, _ => True
  | some _, none => False
  | some a, some b => a ≤ b

instance : DecidableRel slotLe
  | none, _ => isTrue trivial
  | some _, none => isFalse id
  | some a, some b => inferInstanceAs (Decidable (a ≤ b))

structure SlotVec where
  keys : List (Option Bytes)
  sorted : Bool
  noneCount : ℕ
  deriving DecidableEq

namespace SlotVec

def empty : SlotVec := ⟨[], true, 0⟩

variable (v : SlotVec)

def stored : List Bytes := v.keys.filterMap id

def push (key : Bytes) : SlotVec :=
  { v with
    keys := v.keys ++ [some key]
    sorted := v.sorted && !(v.keys.getLast?.any fun last => !decide (slotLe last (some key))) }

/-- One slot in a hundred is empty: the vector is rebuilt without the empty ones. -/
def maybeFlattenInPlace : SlotVec :=
  if v.noneCount * 100 < v.keys.length then v
  else { v with keys := v.keys.filter Option.isSome, noneCount := 0 }

def take (idx : ℕ) : SlotVec :=
  { v with keys := v.keys.set idx none, noneCount := v.noneCount + 1 }

/-- The first slot that holds a key, from `idx` on and around the end, within `n` slots. -/
def findFrom : ℕ → ℕ → Option (ℕ × Bytes)
  | 0, _ => none
  | n + 1, idx => match v.keys[idx]? with
    | some (some key) => some (idx, key)
    | _ => findFrom n ((idx + 1) % v.keys.length)

def remove (idx : ℕ) : Except Stop (Bytes × SlotVec) :=
  if v.keys.length ≤ idx ∧ 0 < v.keys.length then .error (.panic "index out of bounds")
  else match v.findFrom v.keys.length idx with
    | some (i, key) => .ok (key, (v.take i).maybeFlattenInPlace)
    | none => .error (.panic "Called remove on an empty keyset")

def get (idx : ℕ) : Except Stop Bytes :=
  match v.findFrom v.keys.length idx with
  | some (_, key) => .ok key
  | none => .error (.panic "Called get on an empty keyset")

def within (start stop : ℕ) : List Bytes :=
  ((v.keys.drop start).take (stop - start)).filterMap id

def clear (start stop : ℕ) : SlotVec :=
  { v with
    keys := v.keys.take start ++ List.replicate (stop - start) none ++ v.keys.drop stop
    noneCount := v.noneCount + (v.within start stop).length }

def removeRange (start stop : ℕ) : Except Stop ((Bytes × Bytes) × SlotVec) :=
  if start < stop ∧ v.keys.length < stop then .error (.panic "index out of bounds")
  else match (v.within start stop).head?, (v.within start stop).getLast? with
    | some key1, some key2 => .ok ((key1, key2), (v.clear start stop).maybeFlattenInPlace)
    | _, _ => .error (.panic "to not be none")

def sort : SlotVec :=
  if v.sorted then v
  else
    let t := v.maybeFlattenInPlace
    { t with keys := t.keys.insertionSort slotLe, sorted := true }

end SlotVec

structure BloomFilter where
  hashes : Bytes → List ℕ
  bits : List ℕ

namespace BloomFilter

variable (f : BloomFilter)

def insert (key : Bytes) : BloomFilter := { f with bits := f.hashes key ++ f.bits }

def contains (key : Bytes) : Bool := (f.hashes key).all (· ∈ f.bits)

end BloomFilter

structure EmptyKeySet where
  len : ℕ
  pushed : List Bytes

instance : KeySet EmptyKeySet where
  stored s := s.pushed
  new _ := ⟨0, []⟩
  len s := s.len
  -- so that no group makes a first insert
  isEmpty _ := false
  push key s := ⟨s.len + 1, s.pushed ++ [key]⟩
  remove _ _ := .error (.unsupported "Tried to remove from empty keyset")
  removeRange _ _ _ := .error (.unsupported "Tried to remove range from empty keyset")
  get _ _ := .error (.unsupported "Tried to get from empty keyset")
  contains _ _ := .ok false
  sort _ := .error (.unsupported "Tried to sort empty keyset")

structure VecKeySet where
  vec : KeyVec

instance : KeySet VecKeySet where
  stored s := s.vec.keys
  new _ := ⟨.empty⟩
  len s := s.vec.keys.length
  isEmpty s := s.vec.keys.isEmpty
  push key s := ⟨s.vec.push key⟩
  remove idx s := (s.vec.swapRemove idx).map fun p => (p.1, ⟨p.2⟩)
  removeRange start stop s := (s.vec.removeRange start stop).map fun p => (p.1, ⟨p.2⟩)
  get idx s := s.vec.get idx
  contains key s := .ok (s.vec.keys.contains key)
  sort s := .ok ⟨s.vec.sort⟩

structure VecOptionHashSetKeySet where
  vec : SlotVec
  set : Finset Bytes

instance : KeySet VecOptionHashSetKeySet where
  stored s := s.vec.stored
  new _ := ⟨.empty, ∅⟩
  len s := s.vec.keys.length
  isEmpty s := s.vec.keys.isEmpty
  push key s := ⟨s.vec.push key, insert key s.set⟩
  remove idx s := (s.vec.remove idx).map fun p => (p.1, ⟨p.2, s.set.erase p.1⟩)
  removeRange start stop s := (s.vec.removeRange start stop).map fun p =>
    (p.1, ⟨p.2, s.set \ (s.vec.within start stop).toFinset⟩)
  get idx s := s.vec.get idx
  contains key s := .ok (decide (key ∈ s.set))
  sort s := .ok ⟨s.vec.sort, s.set⟩

structure VecOptionKeySet where
  vec : SlotVec

instance : KeySet VecOptionKeySet where
  stored s := s.vec.stored
  new _ := ⟨.empty⟩
  len s := s.vec.keys.length
  isEmpty s := s.vec.keys.isEmpty
  push key s := ⟨s.vec.push key⟩
  remove idx s := (s.vec.remove idx).map fun p => (p.1, ⟨p.2⟩)
  removeRange start stop s := (s.vec.removeRange start stop).map fun p => (p.1, ⟨p.2⟩)
  get idx s := s.vec.get idx
  contains _ _ :=
    .error (.unsupported "VecOptionKeySet is not meant to support contains operations")
  sort s := .ok ⟨s.vec.sort⟩

structure VecHashSetKeySet where
  vec : KeyVec
  keySet : Finset Bytes

instance : KeySet VecHashSetKeySet where
  stored s := s.vec.keys
  new _ := ⟨.empty, ∅⟩
  len s := s.vec.keys.length
  isEmpty s := s.vec.keys.isEmpty
  push key s := ⟨s.vec.push key, insert key s.keySet⟩
  remove idx s := (s.vec.remove idx).map fun p => (p.1, ⟨p.2, s.keySet.erase p.1⟩)
  removeRange start stop s := (s.vec.removeRange start stop).map fun p =>
    (p.1, ⟨p.2, s.keySet \ ((s.vec.keys.drop start).take (stop - start)).toFinset⟩)
  get idx s := s.vec.get idx
  contains key s := .ok (decide (key ∈ s.keySet))
  sort s := .ok ⟨s.vec.sort, s.keySet⟩

structure VecBloomFilterKeySet where
  vec : KeyVec
  bf : BloomFilter

instance : KeySet VecBloomFilterKeySet where
  stored s := s.vec.keys
  new hashes := ⟨.empty, ⟨hashes, []⟩⟩
  len s := s.vec.keys.length
  isEmpty s := s.vec.keys.isEmpty
  push key s := ⟨s.vec.push key, s.bf.insert key⟩
  remove idx s := (s.vec.remove idx).map fun p => (p.1, ⟨p.2, s.bf⟩)
  removeRange start stop s := (s.vec.removeRange start stop).map fun p => (p.1, ⟨p.2, s.bf⟩)
  get idx s := s.vec.get idx
  contains key s := .ok (s.bf.contains key)
  sort s := .ok ⟨s.vec.sort, s.bf⟩

/-- `BloomFilterKeySet`; the keys themselves are written down for `stored` only. -/
structure BloomFilterKeySet where
  bf : BloomFilter
  len : ℕ
  pushed : List Bytes
  len_eq : len = pushed.length

instance : KeySet BloomFilterKeySet where
  stored s := s.pushed
  new hashes := ⟨⟨hashes, []⟩, 0, [], rfl⟩
  len s := s.len
  isEmpty s := s.len = 0
  push key s := ⟨s.bf.insert key, s.len + 1, s.pushed ++ [key], by simp [s.len_eq]⟩
  remove _ _ := .error (.unsupported "BloomFilterKeySet does not support deletion")
  removeRange _ _ _ := .error (.unsupported "BloomFilterKeySet does not support deletion")
  get _ _ := .error (.unsupported "BloomFilterKeySet does not support get")
  contains key s := .ok (s.bf.contains key)
  sort _ := .error (.unsupported "BloomFilterKeySet does not support sorting")

end ZenFs.Tectonic
