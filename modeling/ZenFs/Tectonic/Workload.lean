import ZenFs.Tectonic.KeySets

/-!
Workload specifications, the questions `generate_operations` asks of a section, and the key
set it selects by the answers.
-/

namespace ZenFs.Tectonic

/-- The kinds of operations, in the order of the source. -/
inductive Op
  | uniqueInsert
  | upsert
  | update
  | merge
  | pointDelete
  | pointDeleteEmpty
  | rangeDelete
  | pointQuery
  | emptyPointQuery
  | rangeQuery
  | blindPointQuery
  | blindPointDelete
  | blindRangeQuery
  deriving DecidableEq, Repr

inductive RangeFormat
  | startCount
  | startEnd
  deriving DecidableEq, Repr

structure Inserts where
  opCount : NumberExpr
  key : Option StringExpr
  val : Option StringExpr
  characterSet : Option CharacterSet

structure Updates where
  opCount : NumberExpr
  val : Option StringExpr
  selection : Option Distribution
  characterSet : Option CharacterSet

abbrev Merges := Updates

structure PointDeletes where
  opCount : NumberExpr
  selection : Option Distribution

abbrev PointQueries := PointDeletes

structure EmptyPointDeletes where
  opCount : NumberExpr
  key : Option StringExpr
  characterSet : Option CharacterSet

abbrev EmptyPointQueries := EmptyPointDeletes

abbrev BlindPointQueries := EmptyPointDeletes

structure RangeDeletes where
  opCount : NumberExpr
  selectivity : Option NumberExpr
  scanLength : Option NumberExpr
  selection : Option Distribution
  rangeFormat : RangeFormat

abbrev RangeQueries := RangeDeletes

structure BlindRangeQueries where
  opCount : NumberExpr
  key : Option StringExpr
  selectivity : Option NumberExpr
  scanLength : Option NumberExpr
  characterSet : Option CharacterSet

structure Sorted where
  k : NumberExpr
  l : NumberExpr

structure Defaults where
  key : Option StringExpr
  val : Option StringExpr
  characterSet : Option CharacterSet

structure WorkloadSpecGroup where
  sorted : Option Sorted := none
  uniqueInserts : Option Inserts := none
  inserts : Option Inserts := none
  updates : Option Updates := none
  merges : Option Merges := none
  pointDeletes : Option PointDeletes := none
  emptyPointDeletes : Option EmptyPointDeletes := none
  rangeDeletes : Option RangeDeletes := none
  pointQueries : Option PointQueries := none
  emptyPointQueries : Option EmptyPointQueries := none
  rangeQueries : Option RangeQueries := none
  blindPointQueries : Option BlindPointQueries := none
  blindPointDeletes : Option BlindPointQueries := none
  blindRangeQueries : Option BlindRangeQueries := none
  defaults : Option Defaults := none
  name : Option Bytes := none
  enableGranularStats : Bool := false

structure DefaultDistributionsOptional where
  updatesSelection : Option Distribution := none
  mergesSelection : Option Distribution := none
  pointDeletesSelection : Option Distribution := none
  rangeQueriesSelection : Option Distribution := none
  rangeDeletesSelection : Option Distribution := none
  pointQueriesSelection : Option Distribution := none

structure DefaultDistributions where
  updatesSelection : Distribution := .defaultKeySelection
  mergesSelection : Distribution := .defaultKeySelection
  pointDeletesSelection : Distribution := .defaultKeySelection
  rangeQueriesSelection : Distribution := .defaultKeySelection
  rangeDeletesSelection : Distribution := .defaultKeySelection
  pointQueriesSelection : Distribution := .defaultKeySelection

structure WorkloadSpecSection where
  groups : List WorkloadSpecGroup
  skipKeyContainsCheck : Bool := false
  defaults : Option Defaults := none
  defaultDistributions : DefaultDistributionsOptional := {}
  name : Option Bytes := none
  enableGranularStats : Bool := false

structure WorkloadSpec where
  sections : List WorkloadSpecSection
  defaults : Option Defaults := none
  defaultDistributions : DefaultDistributions := {}

def WorkloadSpecGroup.opCount (group : WorkloadSpecGroup) : Op → Option NumberExpr
  | .uniqueInsert => group.uniqueInserts.map Inserts.opCount
  | .upsert => group.inserts.map Inserts.opCount
  | .update => group.updates.map Updates.opCount
  | .merge => group.merges.map Updates.opCount
  | .pointDelete => group.pointDeletes.map PointDeletes.opCount
  | .pointDeleteEmpty => group.emptyPointDeletes.map EmptyPointDeletes.opCount
  | .rangeDelete => group.rangeDeletes.map RangeDeletes.opCount
  | .pointQuery => group.pointQueries.map PointDeletes.opCount
  | .emptyPointQuery => group.emptyPointQueries.map EmptyPointDeletes.opCount
  | .rangeQuery => group.rangeQueries.map RangeDeletes.opCount
  | .blindPointQuery => group.blindPointQueries.map EmptyPointDeletes.opCount
  | .blindPointDelete => group.blindPointDeletes.map EmptyPointDeletes.opCount
  | .blindRangeQuery => group.blindRangeQueries.map BlindRangeQueries.opCount

namespace WorkloadSpecSection

variable {ρ : Type} (w : World ρ) (sec : WorkloadSpecSection)

def has (op : Op) : Bool :=
  sec.groups.any fun group => (group.opCount op).any fun n => decide (0 < n.expectedValue w)

def hasRange (format : RangeFormat) : Bool :=
  sec.groups.any fun group => group.rangeQueries.any fun rqs =>
    decide (0 < rqs.opCount.expectedValue w) && rqs.rangeFormat == format

def hasUniqueInsert : Bool := sec.has w .uniqueInsert
def hasUpdate : Bool := sec.has w .update
def hasMerge : Bool := sec.has w .merge
def hasDeletePoint : Bool := sec.has w .pointDelete
def hasDeletePointEmpty : Bool := sec.has w .pointDeleteEmpty
def hasDeleteRange : Bool := sec.has w .rangeDelete
def hasQueryPoint : Bool := sec.has w .pointQuery
def hasQueryPointEmpty : Bool := sec.has w .emptyPointQuery
def hasQueryRange : Bool := sec.hasRange w .startEnd
def hasQueryRangeCount : Bool := sec.hasRange w .startCount

end WorkloadSpecSection

inductive KeySetKind
  | empty
  | vecOptionHashSet
  | vecOption
  | vecHashSet
  | vec
  | vecBloomFilter
  | bloomFilter
  deriving DecidableEq, Repr

def KeySetKind.Carrier : KeySetKind → Type
  | empty => EmptyKeySet
  | vecOptionHashSet => VecOptionHashSetKeySet
  | vecOption => VecOptionKeySet
  | vecHashSet => VecHashSetKeySet
  | vec => VecKeySet
  | vecBloomFilter => VecBloomFilterKeySet
  | bloomFilter => BloomFilterKeySet

instance : (kind : KeySetKind) → KeySet kind.Carrier
  | .empty => inferInstanceAs (KeySet EmptyKeySet)
  | .vecOptionHashSet => inferInstanceAs (KeySet VecOptionHashSetKeySet)
  | .vecOption => inferInstanceAs (KeySet VecOptionKeySet)
  | .vecHashSet => inferInstanceAs (KeySet VecHashSetKeySet)
  | .vec => inferInstanceAs (KeySet VecKeySet)
  | .vecBloomFilter => inferInstanceAs (KeySet VecBloomFilterKeySet)
  | .bloomFilter => inferInstanceAs (KeySet BloomFilterKeySet)

namespace WorkloadSpecSection

variable {ρ : Type} (w : World ρ) (sec : WorkloadSpecSection)

def noKeyset : Bool :=
  !(sec.hasUniqueInsert w || sec.hasUpdate w || sec.hasMerge w || sec.hasQueryPoint w ||
    sec.hasQueryPointEmpty w || sec.hasDeletePoint w || sec.hasDeletePointEmpty w ||
    sec.hasQueryRange w || sec.hasQueryRangeCount w || sec.hasDeleteRange w)

def requiresDeletion : Bool := sec.hasDeletePoint w || sec.hasDeleteRange w

def requiresSorting : Bool := sec.hasQueryRange w || sec.hasDeleteRange w

def requiresContainsCheck : Bool :=
  !sec.skipKeyContainsCheck &&
    (sec.hasUniqueInsert w || sec.hasQueryPointEmpty w || sec.hasDeletePointEmpty w)

def requiresRandomElement : Bool :=
  sec.hasUpdate w || sec.hasMerge w || sec.hasDeletePoint w || sec.hasDeleteRange w ||
    sec.hasQueryPoint w || sec.hasQueryRange w || sec.hasQueryRangeCount w

/-- The key set that `generate_operations` constructs for a section. -/
def keySetKind : KeySetKind :=
  if sec.noKeyset w then .empty
  else if sec.requiresSorting w && sec.requiresDeletion w && sec.requiresContainsCheck w then
    .vecOptionHashSet
  else if sec.requiresSorting w && sec.requiresDeletion w && !sec.requiresContainsCheck w then
    .vecOption
  else if (sec.requiresSorting w || sec.requiresDeletion w) && sec.requiresContainsCheck w then
    .vecHashSet
  else if sec.requiresSorting w || sec.requiresDeletion w then .vec
  else if sec.requiresContainsCheck w && sec.requiresRandomElement w then .vecBloomFilter
  else if sec.requiresContainsCheck w then .bloomFilter
  else .vec

end WorkloadSpecSection

end ZenFs.Tectonic
