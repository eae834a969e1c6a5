import ZenFs.Tectonic.Strings
import ZenFs.Tectonic.Workload

/-!
`generate_operations`: the calls that a workload specification makes on an operation handler.

A value is recorded as `WriteHandler` writes it and as `DBHandler` generates it, from the same
random numbers. The calls of a handler succeed. Beside every call stands what the key set held
before and after it, and every question `contains` with its answer; nothing reads these records.

A retry loop gives up after `World.retries` keys. The order in which `prepare_iter` shuffles
the counters makes no difference, since any counter that is left may be chosen next.
-/

namespace ZenFs.Tectonic

open Library

inductive BenchmarkerType
  | overall
  | section'
  | group
  deriving DecidableEq, Repr

/-- A value as it is written into a file and as it is handed to a database. -/
structure Value where
  written : Bytes
  generated : Bytes
  deriving DecidableEq, Repr

inductive Call
  | insert (key : Bytes) (val : Value)
  | update (key : Bytes) (val : Value)
  | merge (key : Bytes) (val : Value)
  | pointDelete (key : Bytes)
  | pointQuery (key : Bytes)
  | rangeQuery (key1 key2 : Bytes)
  | rangeQueryCount (key1 : Bytes) (count : ℕ)
  | rangeDelete (key1 key2 : Bytes)
  | rangeDeleteCount (key1 : Bytes) (count : ℕ)
  | startStatFlush (benchmarker : BenchmarkerType)
  | endStatFlush (name : Bytes) (benchmarker : BenchmarkerType)
  deriving DecidableEq, Repr

/-- A call, the section and the kind of operation it is made for (none for the statistics), and
the keys that are in the key set before and after the operation. -/
structure Event where
  sectionNum : ℕ
  marker : Option Op
  call : Call
  held : List Bytes
  kept : List Bytes
  deriving DecidableEq, Repr

structure Probe where
  kind : KeySetKind
  key : Bytes
  answer : Bool
  held : List Bytes
  deriving DecidableEq, Repr

structure Gen (ρ S : Type) where
  sectionNum : ℕ
  rng : ρ
  keys : S
  pool : Option (List Bytes)
  out : List Event
  probes : List Probe

namespace Gen

variable {ρ S : Type} (g : Gen ρ S)

def setRng (rng : ρ) (g : Gen ρ S) : Gen ρ S := { g with rng }

def setKeys (keys : S) : Gen ρ S := { g with keys }

def setPool (pool : Option (List Bytes)) : Gen ρ S := { g with pool }

def addProbe (probe : Probe) : Gen ρ S := { g with probes := g.probes ++ [probe] }

def addEvent [KeySet S] (marker : Option Op) (call : Call) (keys : S) : Gen ρ S :=
  { g with
    keys
    out := g.out ++ [⟨g.sectionNum, marker, call, KeySet.stored g.keys, KeySet.stored keys⟩] }

def popPool : Option Bytes × Gen ρ S :=
  match g.pool with
  | some pool => (pool.getLast?, g.setPool (some pool.dropLast))
  | none => (none, g)

end Gen

structure Context where
  workload : WorkloadSpec
  sec : WorkloadSpecSection
  sectionNum : ℕ
  kind : KeySetKind
  totalEntries : ℕ
  group : WorkloadSpecGroup

namespace Context

variable (c : Context)

def fallback {α : Type} (field : Defaults → Option α) : Option α :=
  (c.group.defaults.bind field).or
    ((c.sec.defaults.bind field).or (c.workload.defaults.bind field))

def characterSet : Option CharacterSet := c.fallback Defaults.characterSet
def key : Option StringExpr := c.fallback Defaults.key
def val : Option StringExpr := c.fallback Defaults.val

/-- The selection of the operation, or the default of the section or of the workload. -/
def selection (own : Option Distribution)
    (ofSection : DefaultDistributionsOptional → Option Distribution)
    (ofWorkload : DefaultDistributions → Distribution) : Distribution :=
  own.getD ((ofSection c.sec.defaultDistributions).getD (ofWorkload c.workload.defaultDistributions))

end Context

def expect {σ α : Type} (msg : String) : Option α → Act σ Stop α
  | some a => pure a
  | none => .fail (.panic msg)

/-- `ok_or_else`: a missing value is an error. -/
def okOr {σ α : Type} (msg : String) : Option α → Act σ Stop α
  | some a => pure a
  | none => .fail (.bail msg)

section Operations

variable {ρ : Type} (w : World ρ)

/-- The value of an expression for either handler. -/
def StringExpr.value (parent : Option CharacterSet) (e : StringExpr) : Act ρ Stop Value := fun r =>
  match e.writeAll w parent r, (e.generate w parent r).1 with
  | (.ok written, t), .ok generated => (.ok ⟨written, generated⟩, t)
  | (.ok _, t), .error e => (.error e, t)
  | (.error e, t), _ => (.error e, t)

def evalCount : Option NumberExpr → Act ρ Stop ℕ
  | none => pure 0
  | some n => do
    let x ← n.evaluate w
    return asUsize x

def getRangeLength (selectivity scanLength : Option NumberExpr) (numKeys : ℕ) : Act ρ Stop ℕ :=
  match selectivity with
  | some sel => do
    let x ← sel.evaluate w
    return asUsize (asF64 (x * asF64 numKeys))
  | none => do
    let n ← expect "Scan length should be specified if selectivity is not" scanLength
    let x ← n.evaluate w
    return asUsize x

variable {S : Type} [KeySet S]

def draw {α : Type} (m : Act ρ Stop α) : Act (Gen ρ S) Stop α := .zoom Gen.rng Gen.setRng m

def ask {α : Type} (f : S → Except Stop α) : Act (Gen ρ S) Stop α := fun g => (f g.keys, g)

def numKeys : Act (Gen ρ S) Stop ℕ := .read fun g => KeySet.len g.keys

def emit (marker : Option Op) (call : Call) (keys : S) : Act (Gen ρ S) Stop Unit :=
  .modify fun g => g.addEvent marker call keys

def report (marker : Option Op) (call : Call) : Act (Gen ρ S) Stop Unit :=
  .modify fun g => g.addEvent marker call g.keys

def reportIf (enabled : Bool) (call : Call) : Act (Gen ρ S) Stop Unit :=
  if enabled then report none call else pure ()

def askContains (kind : KeySetKind) (key : Bytes) : Act (Gen ρ S) Stop Bool := do
  let answer ← ask (KeySet.contains key)
  .modify fun g => g.addProbe ⟨kind, key, answer, KeySet.stored g.keys⟩
  return answer

def sortKeys : Act (Gen ρ S) Stop Unit := do
  let keys ← ask KeySet.sort
  .modify fun g => g.setKeys keys

def getRandom (d : Distribution) : Act (Gen ρ S) Stop Bytes := do
  let len ← numKeys
  let idx ← draw (d.evaluateIndex w len)
  ask (KeySet.get idx)

def removeRandom (d : Distribution) : Act (Gen ρ S) Stop (Bytes × S) := do
  let len ← numKeys
  let idx ← draw (d.evaluateIndex w len)
  ask (KeySet.remove idx)

def rangeStart (rangeLen : ℕ) (d : Distribution) : Act (Gen ρ S) Stop ℕ := do
  let len ← numKeys
  let validLen ← draw (usub w len rangeLen)
  draw (d.evaluateIndex w validLen)

def removeRangeRandom (rangeLen : ℕ) (d : Distribution) :
    Act (Gen ρ S) Stop ((Bytes × Bytes) × S) := do
  let start ← rangeStart w rangeLen d
  let stop ← draw (uadd w start rangeLen)
  ask (KeySet.removeRange start stop)

def getRandomRangeStart (rangeLen : ℕ) (d : Distribution) : Act (Gen ρ S) Stop (ℕ × Bytes) := do
  let start ← rangeStart w rangeLen d
  let key ← ask (KeySet.get start)
  return (start, key)

def getRangeRandom (rangeLen : ℕ) (d : Distribution) : Act (Gen ρ S) Stop (Bytes × Bytes) := do
  let start ← rangeStart w rangeLen d
  let stop ← draw (uadd w start rangeLen)
  let key1 ← ask (KeySet.get start)
  let key2 ← ask (KeySet.get stop)
  return (key1, key2)

def makeKey (c : Context) (own : Option StringExpr) (cs : Option CharacterSet) (msg : String) :
    Act (Gen ρ S) Stop Bytes := do
  let e ← expect msg (own.or c.key)
  draw (e.generate w (cs.or c.characterSet))

def nextKey (c : Context) (own : Option StringExpr) (cs : Option CharacterSet) (msg : String) :
    Act (Gen ρ S) Stop Bytes := do
  let pooled ← Act.act Gen.popPool
  match pooled with
  | some key => return key
  | none => makeKey w c own cs msg

def makeValue (c : Context) (own : Option StringExpr) (cs : Option CharacterSet) (msg : String) :
    Act (Gen ρ S) Stop Value := do
  let e ← expect msg (own.or c.val)
  draw (e.value w (cs.or c.characterSet))

def insertKey (c : Context) (marker : Op) (is : Inserts) (key : Bytes) (msg : String) :
    Act (Gen ρ S) Stop Unit := do
  let val ← makeValue w c is.val is.characterSet msg
  let keys ← Act.read Gen.keys
  emit marker (.insert key val) (KeySet.push key keys)

def freshKey (kind : KeySetKind) (next : Act (Gen ρ S) Stop Bytes) : ℕ → Act (Gen ρ S) Stop Bytes
  | 0 => .fail .noKey
  | n + 1 => do
    let key ← next
    let found ← askContains kind key
    if found then freshKey kind next n else return key

def requireKeys (msg : String) : Act (Gen ρ S) Stop Unit := do
  let empty ← Act.read fun g => KeySet.isEmpty g.keys
  stopIf empty (.bail msg)

variable (c : Context)

def performUniqueInsert : Act (Gen ρ S) Stop Unit := do
  let is ← okOr "Insert marker can only appear when inserts is not None" c.group.uniqueInserts
  let key ← freshKey c.kind
    (nextKey w c is.key is.characterSet "No key or default key set for unique inserts") w.retries
  insertKey w c .uniqueInsert is key "No value or default value set for unique inserts"

def performUpsert : Act (Gen ρ S) Stop Unit := do
  let is ← okOr "Upsert marker can only appear when upserts is not None" c.group.inserts
  let key ← nextKey w c is.key is.characterSet "No key or default key set for unique inserts"
  insertKey w c .upsert is key "No value or default value set for unique inserts"

def performUpdate : Act (Gen ρ S) Stop Unit := do
  let us ← okOr "Update marker can only appear when updates is not None" c.group.updates
  requireKeys "Cannot have updates when there are no valid keys."
  let key ← getRandom w (c.selection us.selection
    DefaultDistributionsOptional.updatesSelection DefaultDistributions.updatesSelection)
  let val ← makeValue w c us.val us.characterSet "No value or default value set for updates"
  report (some .update) (.update key val)

def performMerge : Act (Gen ρ S) Stop Unit := do
  let ms ← okOr "Merge marker can only appear when updates is not None" c.group.merges
  requireKeys "Cannot have merges when there are no valid keys."
  let key ← getRandom w (c.selection ms.selection
    DefaultDistributionsOptional.mergesSelection DefaultDistributions.mergesSelection)
  let val ← makeValue w c ms.val ms.characterSet "No value or default value set for merges"
  report (some .merge) (.merge key val)

def performPointDelete : Act (Gen ρ S) Stop Unit := do
  let pds ← okOr "Point delete marker can only appear when point deletes is not None"
    c.group.pointDeletes
  let removed ← removeRandom w (c.selection pds.selection
    DefaultDistributionsOptional.pointDeletesSelection DefaultDistributions.pointDeletesSelection)
  emit (some .pointDelete) (.pointDelete removed.1) removed.2

def performPointQuery : Act (Gen ρ S) Stop Unit := do
  requireKeys "Cannot have point queries when there are no valid keys."
  let pqs ← okOr "Point query marker can only appear when updates is not None" c.group.pointQueries
  let key ← getRandom w (c.selection pqs.selection
    DefaultDistributionsOptional.pointQueriesSelection DefaultDistributions.pointQueriesSelection)
  report (some .pointQuery) (.pointQuery key)

def performPointDeleteEmpty : Act (Gen ρ S) Stop Unit := do
  let epd ← okOr
    "Empty point delete marker can only appear when empty_point_deletes is not None"
    c.group.emptyPointDeletes
  let key ← freshKey c.kind
    (makeKey w c epd.key epd.characterSet "No key or default key set for empty point deletes")
    w.retries
  report (some .pointDeleteEmpty) (.pointDelete key)

def performEmptyPointQuery : Act (Gen ρ S) Stop Unit := do
  let epq ← okOr
    "Empty point query marker can only appear when empty_point_queries is not None"
    c.group.emptyPointQueries
  let key ← freshKey c.kind
    (makeKey w c epq.key epq.characterSet "No key or default key set for empty point queries")
    w.retries
  report (some .emptyPointQuery) (.pointQuery key)

def performRangeQuery : Act (Gen ρ S) Stop Unit := do
  let rqs ← okOr "Range query marker can only appear when range_queries is not None"
    c.group.rangeQueries
  requireKeys "Cannot have range queries when there are no valid keys."
  let len ← numKeys
  let rangeLength ← draw (getRangeLength w rqs.selectivity rqs.scanLength len)
  let d := c.selection rqs.selection
    DefaultDistributionsOptional.rangeQueriesSelection DefaultDistributions.rangeQueriesSelection
  match rqs.rangeFormat with
  | .startCount =>
    let found ← getRandomRangeStart w rangeLength d
    report (some .rangeQuery) (.rangeQueryCount found.2 rangeLength)
  | .startEnd =>
    sortKeys
    let found ← getRangeRandom w rangeLength d
    report (some .rangeQuery) (.rangeQuery found.1 found.2)

def performRangeDelete : Act (Gen ρ S) Stop Unit := do
  let rds ← okOr "RangeDelete marker can only appear when range_deletes is not None"
    c.group.rangeDeletes
  requireKeys "Cannot have range deletes when there are no valid keys."
  let len ← numKeys
  let rangeLength ← draw (getRangeLength w rds.selectivity rds.scanLength len)
  sortKeys
  let d := c.selection rds.selection
    DefaultDistributionsOptional.rangeDeletesSelection DefaultDistributions.rangeDeletesSelection
  match rds.rangeFormat with
  | .startCount =>
    let found ← getRandomRangeStart w rangeLength d
    let stop ← draw (uadd w found.1 rangeLength)
    let removed ← ask (KeySet.removeRange found.1 stop)
    emit (some .rangeDelete) (.rangeDeleteCount found.2 rangeLength) removed.2
  | .startEnd =>
    let removed ← removeRangeRandom w rangeLength d
    emit (some .rangeDelete) (.rangeDelete removed.1.1 removed.1.2) removed.2

def performBlindPointQuery : Act (Gen ρ S) Stop Unit := do
  let bpq ← okOr "BlindPointQuery marker can only appear when blind_point_queries is not None"
    c.group.blindPointQueries
  requireKeys "Cannot have range deletes when there are no valid keys."
  let key ← makeKey w c bpq.key bpq.characterSet
    "No key or default key set for blind point queries"
  report (some .blindPointQuery) (.pointQuery key)

/-- A blind point delete asks for the key, it does not delete it. -/
def performBlindPointDelete : Act (Gen ρ S) Stop Unit := do
  let bpd ← okOr "BlindPointDelete marker can only appear when blind_point_queries is not None"
    c.group.blindPointDeletes
  requireKeys "Cannot have range deletes when there are no valid keys."
  let key ← makeKey w c bpd.key bpd.characterSet
    "No key or default key set for blind point deletes"
  report (some .blindPointDelete) (.pointQuery key)

def performBlindRangeQuery : Act (Gen ρ S) Stop Unit := do
  let brq ← okOr "BlindPointDelete marker can only appear when blind_point_queries is not None"
    c.group.blindRangeQueries
  requireKeys "Cannot have range deletes when there are no valid keys."
  let key ← makeKey w c brq.key brq.characterSet
    "No key or default key set for blind range queries"
  let count ← draw (getRangeLength w brq.selectivity brq.scanLength c.totalEntries)
  report (some .blindRangeQuery) (.rangeQueryCount key count)

def perform : Op → Act (Gen ρ S) Stop Unit
  | .uniqueInsert => performUniqueInsert w c
  | .upsert => performUpsert w c
  | .update => performUpdate w c
  | .merge => performMerge w c
  | .pointDelete => performPointDelete w c
  | .pointDeleteEmpty => performPointDeleteEmpty w c
  | .rangeDelete => performRangeDelete w c
  | .pointQuery => performPointQuery w c
  | .emptyPointQuery => performEmptyPointQuery w c
  | .rangeQuery => performRangeQuery w c
  | .blindPointQuery => performBlindPointQuery w c
  | .blindPointDelete => performBlindPointDelete w c
  | .blindRangeQuery => performBlindRangeQuery w c

/-- The loop over the markers: `MarkerIter` chooses a counter that is left with its own random
numbers, and takes one off it. -/
def markerLoop : ℕ → List (Op × ℕ) → ρ → Act (Gen ρ S) Stop Unit
  | 0, _, _ => pure ()
  | total + 1, counts, r =>
    let chosen := w.marker (counts.map Prod.snd) r
    match counts[chosen.1]? with
    | none => pure ()
    | some (op, n) => do
      perform w c op
      markerLoop total (counts.set chosen.1 (op, n - 1)) chosen.2

/-- All markers. Counters that add up to no `usize` overflow in `calculate_total`, or else
`choose_weighted_mut` finds the overflow and there are no markers. -/
def runMarkers (counts : List (Op × ℕ)) (r : ρ) : Act (Gen ρ S) Stop Unit := do
  let total := (counts.map Prod.snd).sum
  if total < 2 ^ 64 then markerLoop w c total counts r
  else if w.overflowChecks then .fail (.panic "attempt to add with overflow")

def poolKeys (inserts : Option Inserts) (msg : String) : ℕ → Act (Gen ρ S) Stop (List Bytes)
  | 0 => pure []
  | n + 1 => match inserts with
    | none => pure []
    | some is => do
      let key ← makeKey w c is.key is.characterSet msg
      let rest ← poolKeys inserts msg n
      return key :: rest

def swapKeys (pool : List Bytes) (i j : ℕ) : List Bytes :=
  match pool[i]?, pool[j]? with
  | some a, some b => (pool.set i b).set j a
  | _, _ => pool

def displace (sorted : Sorted) : ℕ → List Bytes → Act ρ Stop (List Bytes)
  | 0, pool => pure pool
  | n + 1, pool => do
    stopIf (pool = []) (.panic "cannot sample empty range")
    let idx ← Act.act (w.below pool.length)
    let x ← sorted.l.evaluate w
    let l := max (-(idx : ℤ)) (min (asIsize x) (pool.length - 1 - idx))
    displace sorted n (swapKeys pool idx (idx + l).toNat)

/-- `key_pool`: the keys of the group's inserts, of the unique ones first, in descending order
up to some swaps. -/
def makePool (uniqueInsertCount upsertCount : ℕ) : Act (Gen ρ S) Stop Unit :=
  match c.group.sorted with
  | none => .modify fun g => g.setPool none
  | some sorted => do
    stopIf (c.group.inserts.isNone && c.group.uniqueInserts.isNone)
      (.bail "Insert spec must exist if sorted config exists")
    let unique ← poolKeys w c c.group.uniqueInserts "No key or default key set for unique inserts"
      uniqueInsertCount
    let upserts ← poolKeys w c c.group.inserts "No key or default key set for inserts" upsertCount
    let k ← draw (sorted.k.evaluate w)
    let pool ← draw (displace w sorted (asUsize k / 2)
      ((unique ++ upserts).insertionSort fun a b => b ≤ a))
    .modify fun g => g.setPool (some pool)

/-- The first key of a group without valid keys, if unique inserts are specified; and the
counter of unique inserts. -/
def firstUniqueInsert (uniqueInsertCount upsertCount : ℕ) :
    Act (Gen ρ S) Stop (List (Op × ℕ)) := do
  let empty ← Act.read fun g => KeySet.isEmpty g.keys
  if empty then
    let total ← draw (uadd w uniqueInsertCount upsertCount)
    stopIf (total = 0) (.bail
      "Invalid workload spec. Group must have existing valid keys or have insert operations.")
    match c.group.uniqueInserts with
    | some is =>
      let n ← draw (usub w uniqueInsertCount 1)
      let key ← nextKey w c is.key is.characterSet "No key or default key set for unique inserts"
      insertKey w c .uniqueInsert is key "No value or default value set for unique inserts"
      return [(.uniqueInsert, n)]
    | none => return []
  else return [(.uniqueInsert, uniqueInsertCount)]

def firstUpsert (upsertCount : ℕ) : Act (Gen ρ S) Stop (List (Op × ℕ)) := do
  let empty ← Act.read fun g => KeySet.isEmpty g.keys
  if empty then
    let ups ← expect "upserts to exist if no unique inserts and insert + upsert count > 0"
      c.group.inserts
    let n ← draw (usub w upsertCount 1)
    let key ← nextKey w c ups.key ups.characterSet "No key or default key set for inserts"
    insertKey w c .upsert ups key "No value or default value set for inserts"
    return [(.upsert, n)]
  else return [(.upsert, upsertCount)]

/-- The kinds of operations whose counts a group evaluates itself. -/
def countedOps : List Op :=
  [.update, .merge, .pointDelete, .pointDeleteEmpty, .rangeDelete, .pointQuery, .emptyPointQuery,
    .rangeQuery, .blindPointQuery, .blindPointDelete, .blindRangeQuery]

def evalCounts (group : WorkloadSpecGroup) : List Op → Act ρ Stop (List (Op × ℕ))
  | [] => pure []
  | op :: rest => do
    let n ← evalCount w (group.opCount op)
    let counts ← evalCounts group rest
    return (op, n) :: counts

def decimal (n : ℕ) : Bytes := (Nat.toDigits 10 n).map fun ch => UInt8.ofNat ch.toNat

def ascii (s : String) : Bytes := s.toList.map fun ch => UInt8.ofNat ch.toNat

def writeGroup (groupNum uniqueInsertCount upsertCount : ℕ) : Act (Gen ρ S) Stop Unit := do
  reportIf c.group.enableGranularStats (.startStatFlush .group)
  let markerRng ← Act.read Gen.rng
  let counts ← draw (evalCounts w c.group countedOps)
  let len ← numKeys
  stopIf (len < (counts.lookup .pointDelete).getD 0)
    (.bail "Cannot have more point deletes than existing valid keys.")
  makePool w c uniqueInsertCount upsertCount
  let unique ← firstUniqueInsert w c uniqueInsertCount upsertCount
  let upserts ← firstUpsert w c upsertCount
  runMarkers w c (unique ++ upserts ++ counts) markerRng
  reportIf c.group.enableGranularStats (.endStatFlush (c.group.name.getD
    (ascii "Section " ++ decimal c.sectionNum ++ ascii " Group " ++ decimal groupNum)) .group)

def writeGroups (onGroup : WorkloadSpecGroup → Context) :
    ℕ → List (WorkloadSpecGroup × ℕ × ℕ) → Act (Gen ρ S) Stop Unit
  | _, [] => pure ()
  | groupNum, (group, uniqueInsertCount, upsertCount) :: rest => do
    writeGroup w (onGroup group) groupNum uniqueInsertCount upsertCount
    writeGroups onGroup (groupNum + 1) rest

def groupCounts (op : Op) : List WorkloadSpecGroup → Act ρ Stop (List ℕ)
  | [] => pure []
  | group :: rest => do
    let n ← evalCount w (group.opCount op)
    let counts ← groupCounts op rest
    return n :: counts

end Operations

section Workloads

variable {ρ : Type} (w : World ρ)

def writeOperationsWithKeyset (workload : WorkloadSpec) (sec : WorkloadSpecSection)
    (sectionNum : ℕ) (kind : KeySetKind) : Act (Gen ρ kind.Carrier) Stop Unit := do
  reportIf sec.enableGranularStats (.startStatFlush .section')
  let uniqueInsertCounts ← draw (groupCounts w .uniqueInsert sec.groups)
  let upsertCounts ← draw (groupCounts w .upsert sec.groups)
  let upserts ← draw (usum w upsertCounts)
  let unique ← draw (usum w uniqueInsertCounts)
  let totalEntries ← draw (uadd w upserts unique)
  .modify fun g => g.setKeys (KeySet.new (w.hashes totalEntries))
  writeGroups w (fun group => ⟨workload, sec, sectionNum, kind, totalEntries, group⟩) 0
    (sec.groups.zip (uniqueInsertCounts.zip upsertCounts))
  reportIf sec.enableGranularStats
    (.endStatFlush (sec.name.getD (ascii "Section " ++ decimal sectionNum)) .section')

/-- What is left of the sections that are done. -/
structure Stream where
  out : List Event
  probes : List Probe

/-- The state in which a section starts, with random numbers of its own. -/
def sectionStart (sectionNum : ℕ) (kind : KeySetKind) (s : Stream) : Gen ρ kind.Carrier where
  sectionNum := sectionNum
  rng := w.seed sectionNum
  keys := KeySet.new (w.hashes 0)
  pool := none
  out := s.out
  probes := s.probes

def generateSections (workload : WorkloadSpec) :
    ℕ → List WorkloadSpecSection → Act Stream Stop Unit
  | _, [] => pure ()
  | sectionNum, sec :: rest => do
    Act.zoom (sectionStart w sectionNum (sec.keySetKind w)) (fun g _ => ⟨g.out, g.probes⟩)
      (writeOperationsWithKeyset w workload sec sectionNum (sec.keySetKind w))
    generateSections workload (sectionNum + 1) rest

def generateOperations (workload : WorkloadSpec) : Act Stream Stop Unit :=
  generateSections w workload 0 workload.sections

/-- The calls and questions of a run from the start, whether it returns or stops. -/
def generated (workload : WorkloadSpec) : Stream := (generateOperations w workload ⟨[], []⟩).2

end Workloads

end ZenFs.Tectonic
