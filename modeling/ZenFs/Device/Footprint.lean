import ZenFs.Device.Runs

/-!
Which calls the programs make.

Every lemma says that a judgement admits a program, given that it admits the kinds of
calls the program is built from. A statement about one kind of call, such as "this call
leaves the per-level lists alone", carries over to whole programs this way.
-/

namespace ZenFs.Device

open Library Task Judgement

variable {above below l : List ℕ} {fits : Zbd → Zone → Bool} {got : Bool} {ioType : IOType}
variable {level : ℤ} {m : Task Call.Res Status} {n target z : ℕ} {new old : MetaLogObject}
variable {policy : Policy} {r : RollRecords} {ranking : Zbd → Placement × List Handle}
variable {e : Setup} {a : Holder} {h : Handle} {L : Judgement Call.Res}

structure Searches (a : Holder) (L : Judgement Call.Res) : Prop where
  look : L.Calls .look
  acquire : ∀ z, L.Calls (.acquire a z)
  release : ∀ z, L.Calls (.release a z)

structure Ranks (a : Holder) (L : Judgement Call.Res) : Prop extends Searches a L where
  lock : ∀ m, m ≠ .files → L.Calls (.lock m)
  unlock : ∀ m, m ≠ .files → L.Calls (.unlock m)
  hang : L.Calls .hang

/-- `L` admits the calls by which a thread takes an empty zone and recycles others. -/
structure Recycles (a : Holder) (L : Judgement Call.Res) : Prop extends Searches a L where
  reset : ∀ z, L.Calls (.reset a z)
  finish : ∀ z, L.Calls (.finish a z)
  putActive : L.Calls .putActiveIOZoneToken
  setZonePos : ∀ n, L.Calls (.setZonePos n)
  shuffle : L.Calls .shuffle

/-- `L` admits the calls by which a thread finds a zone and recycles others for it. -/
structure Seeks (a : Holder) (L : Judgement Call.Res) : Prop
    extends Ranks a L, Recycles a L where
  getActive : L.Calls .getActiveIOZoneTokenIfAvailable

/-- `L` admits all calls by which a thread handles zones, tokens and locks. -/
structure Handles (a : Holder) (L : Judgement Call.Res) : Prop extends Seeks a L where
  tag : ∀ z lifetime policy level, L.Calls (.tag z lifetime policy level)
  wait : ∀ b, L.Calls (.waitForOpenIOZoneToken b)
  putOpen : L.Calls .putOpenIOZoneToken
  startMigrating : L.Calls .startMigrating
  stopMigrating : L.Calls .stopMigrating

theorem admits_hang {α : Type} (h : L.Calls .hang) : L.Admits (hang : DevTask α) := by
  exact admits_bind h nofun

theorem heeds_call {α : Type} {o : Call} {f : o.Res → DevTask α} {d : Zbd}
    {P : Call → Zbd → Prop} {Q : α → Zbd → Prop} (hp : P o d)
    (hf : ∀ r t, exec e o d = some (r, t) → (f r).Heeds (exec e) P t Q) :
    (call o >>= f).Heeds (exec e) P d Q := .bind (.op hp hf)

/-! ### Scans -/

section

variable (hP : Searches a L)
include hP

theorem checkRelease_admits (z : ℕ) : L.Admits (checkRelease e a z) := by
  refine admits_bind (hP.release z) fun r => ?_
  split <;> exact admits_ret _

theorem bestZone_admits {τ β : Type} (zoneOf : τ → ℕ)
    (accept : Zbd → τ → β → Option β) (l : List τ) (kept : Option ℕ) (best : β) :
    L.Admits (bestZone e a zoneOf accept l kept best) := by
  induction l generalizing kept best with
  | nil => exact admits_ret _
  | cons x rest ih =>
    refine admits_bind (hP.acquire _) fun r => ?_
    split
    · exact ih _ _
    · refine admits_bind hP.look fun d => ?_
      split
      · exact ih _ _
      · refine admits_bind (checkRelease_admits hP _) fun s => ?_
        split
        · exact admits_bind (checkRelease_admits hP _) fun _ => admits_ret _
        · exact ih _ _
      · exact admits_then (checkRelease_admits hP _) fun _ => ih _ _

theorem cheapestZone_admits (test : ℕ → Zone → Bool)
    (better : Zone → Zone → Bool) (l : List ℕ) (kept : Option ℕ) :
    L.Admits (cheapestZone e a test better l kept) := by
  induction l generalizing kept with
  | nil => exact admits_ret _
  | cons z rest ih =>
    have release_then : ∀ (y : ℕ) (next : Option ℕ), L.Admits (do
        let s ← checkRelease e a y
        if !s.ok then return (s, kept) else cheapestZone e a test better rest next) := by
      intro y next
      exact admits_then (checkRelease_admits hP y) fun _ => ih _
    refine admits_bind (hP.acquire _) fun r => ?_
    split
    · exact ih _
    · refine admits_bind hP.look fun d => ?_
      split
      · exact release_then z kept
      · split
        · exact ih _
        · split
          · exact release_then _ _
          · exact release_then _ _

theorem firstEmptyZone_admits (l : List ℕ) (passed : ℕ) :
    L.Admits (firstEmptyZone e a l passed) := by
  induction l generalizing passed with
  | nil => exact admits_ret _
  | cons z rest ih =>
    refine admits_bind (hP.acquire _) fun r => ?_
    split
    · exact ih _
    · refine admits_then hP.look fun d => ?_
      exact admits_then (checkRelease_admits hP _) fun _ => ih _

/-! ### Empty zones -/

theorem allocateEmptyZoneDefault_admits :
    L.Admits (allocateEmptyZoneDefault e a) :=
  admits_bind (firstEmptyZone_admits hP _ _) fun _ => admits_ret _

end

theorem sequentialRounds_admits (hP : Recycles a L) : L.Admits (sequentialRounds e a n) := by
  induction n with
  | zero => exact admits_ret _
  | succ n ih =>
    refine admits_bind hP.look fun d => ?_
    refine admits_bind (hP.setZonePos _) fun _ => ?_
    refine admits_bind (hP.acquire _) fun r => ?_
    split
    · exact ih
    · refine admits_then hP.look fun d => ?_
      exact admits_then (checkRelease_admits hP.toSearches _) fun _ => ih

theorem allocateEmptyZoneLeastWear_admits (hP : Searches a L) :
    L.Admits (allocateEmptyZoneLeastWear e a) := cheapestZone_admits hP _ _ _ _

theorem allocateEmptyZoneRandom_admits (hP : Recycles a L) :
    L.Admits (allocateEmptyZoneRandom e a) :=
  admits_bind hP.shuffle fun _ =>
    admits_bind (firstEmptyZone_admits hP.toSearches _ _) fun _ => admits_ret _

theorem allocateAroundInterval_admits (hP : Searches a L) :
    L.Admits (allocateAroundInterval e a below above) := by
  refine admits_bind (firstEmptyZone_admits hP _ _) fun ⟨s, upper⟩ => ?_
  refine admits_ite_ret ?_
  refine admits_bind (firstEmptyZone_admits hP _ _) fun ⟨s, lower⟩ => ?_
  refine admits_ite_ret ?_
  split
  · exact allocateEmptyZoneDefault_admits hP
  · exact admits_ret _
  · exact admits_ret _
  · split <;> exact admits_bind (checkRelease_admits hP _) fun _ => admits_ret _

theorem allocateEmptyZoneHotnessBased_admits (hP : Searches a L) :
    L.Admits (allocateEmptyZoneHotnessBased e a level) := by
  rw [allocateEmptyZoneHotnessBased]
  split
  · exact allocateEmptyZoneLeastWear_admits hP
  · refine admits_bind hP.look fun d => ?_
    refine admits_bind (firstEmptyZone_admits hP _ _) fun ⟨s, found⟩ => ?_
    refine admits_ite_ret ?_
    split
    · exact admits_ret _
    · exact allocateAroundInterval_admits hP

def raiseForEmptyZone (level : ℤ) (d : Zbd) : Placement :=
  if level > 0 then d.place.raiseMaxLevel level else d.place

theorem place_admits {f : Zbd → Placement} (hf : L.Calls (.place fun d => (f d, []))) :
    L.Admits (place f) := admits_bind hf fun _ => admits_ret _

section

variable (hP : Recycles a L)
include hP

theorem allocateEmptyZone_admits
    (hmax : L.Calls (.place fun d => (raiseForEmptyZone level d, []))) :
    L.Admits (allocateEmptyZone e a level) := by
  refine admits_bind (place_admits hmax) fun _ => ?_
  split
  · exact allocateEmptyZoneDefault_admits hP.toSearches
  · exact sequentialRounds_admits hP
  · exact allocateEmptyZoneRandom_admits hP
  · exact allocateEmptyZoneLeastWear_admits hP.toSearches
  · exact allocateEmptyZoneHotnessBased_admits hP.toSearches
  · exact sequentialRounds_admits hP

/-! ### Recycling -/

theorem resetUnused_admits : L.Admits (resetUnused e a l) := by
  induction l with
  | nil => exact admits_ret _
  | cons z rest ih =>
    refine admits_bind (hP.acquire _) fun r => ?_
    split
    · exact ih
    · refine admits_bind hP.look fun d => ?_
      dsimp only
      split
      · refine admits_bind (hP.reset _) fun s => ?_
        refine admits_then (checkRelease_admits hP.toSearches _) fun t => ?_
        refine admits_ite_ret ?_
        split
        · exact admits_bind hP.putActive fun _ => ih
        · exact ih
      · exact admits_then (checkRelease_admits hP.toSearches _) fun _ => ih

theorem finishBelowThreshold_admits :
    L.Admits (finishBelowThreshold e a l) := by
  induction l with
  | nil => exact admits_ret _
  | cons z rest ih =>
    refine admits_bind (hP.acquire _) fun r => ?_
    split
    · exact ih
    · refine admits_bind hP.look fun d => ?_
      dsimp only
      split
      · refine admits_bind (hP.finish _) fun s => ?_
        split
        · exact admits_bind (hP.release _) fun _ => admits_ret _
        · exact admits_then (checkRelease_admits hP.toSearches _) fun _ =>
            admits_bind hP.putActive fun _ => ih
      · exact admits_then (checkRelease_admits hP.toSearches _) fun _ => ih

theorem applyFinishThreshold_admits : L.Admits (applyFinishThreshold e a) := by
  exact admits_ite_ret (finishBelowThreshold_admits hP)

theorem finishCheapestIOZone_admits : L.Admits (finishCheapestIOZone e a) := by
  refine admits_bind (cheapestZone_admits hP.toSearches _ _ _ _) fun ⟨s, victim⟩ => ?_
  dsimp only
  refine admits_ite_ret ?_
  split
  · exact admits_ret _
  · refine admits_bind (hP.finish _) fun s => ?_
    refine admits_bind (checkRelease_admits hP.toSearches _) fun t => ?_
    split
    · exact admits_bind hP.putActive fun _ => admits_ret _
    · exact admits_ret _

theorem allocateMeta_admits : L.Admits (allocateMeta e a l) := by
  induction l with
  | nil => exact admits_ret _
  | cons z rest ih =>
    refine admits_bind (hP.acquire _) fun r => ?_
    split
    · exact ih
    · refine admits_bind hP.look fun d => ?_
      dsimp only
      split
      · exact ih
      · refine admits_ite_ret ?_
        refine admits_then (hP.reset _) fun s => ?_
        exact admits_then (checkRelease_admits hP.toSearches _) fun _ => ih

end

theorem waitForActiveToken_admits (hP : Seeks a L) : L.Admits (waitForActiveToken e a n) := by
  induction n with
  | zero => exact admits_hang hP.hang
  | succ n ih =>
    refine admits_then hP.getActive fun got => ?_
    exact admits_then (finishCheapestIOZone_admits hP.toRecycles) fun _ => ih

theorem releaseMigrateZone_admits (hP : Handles a L) (zone : Option ℕ) :
    L.Admits (releaseMigrateZone e a zone) := by
  refine admits_bind (hP.lock _ (by decide)) fun _ => admits_bind hP.stopMigrating fun _ => ?_
  refine admits_bind ?_ fun _ => admits_bind (hP.unlock _ (by decide)) fun _ => admits_ret _
  split
  · exact admits_ret _
  · exact checkRelease_admits hP.toSearches _

/-! ### Policies -/

def policyChange (e : Setup) (h : Handle) : Policy → Option (Zbd → Placement × List Handle)
  | .sameLevelNearbyKeysSimple => some (simpleRanking e h)
  | .overlapChildren => some (childrenRanking e h)
  | .overlapGrandchildren => some (grandchildrenRanking e h)
  | .compensatedSize => some (compensatedRanking e h)
  | .oaza => some (oazaRanking e h)
  | _ => none

variable {zone : Option ℕ} {minCapacity : ℕ} {best : ℕ}

theorem matchTagged_admits (hP : Searches a L) :
    L.Admits (matchTagged e a fits best zone minCapacity) :=
  admits_bind (bestZone_admits hP _ _ _ _ _) fun _ => admits_ret _

variable {lifetime : Lifetime}

section

variable (hP : Searches a L)
include hP

theorem matchLifetimeBased_admits :
    L.Admits (matchLifetimeBased e a lifetime best zone minCapacity) :=
  admits_bind (bestZone_admits hP _ _ _ _ _) fun _ => admits_ret _

theorem matchTombstoneDensity_admits :
    L.Admits (matchTombstoneDensity e a h best zone minCapacity) := by
  exact admits_then hP.look fun _ => matchTagged_admits hP

theorem closestFileRounds_admits (minCapacity : ℕ) (l : List (List Handle)) :
    L.Admits (closestFileRounds e a minCapacity l) := by
  induction l with
  | nil => exact admits_ret _
  | cons files rest ih =>
    refine admits_bind hP.look fun d => ?_
    refine admits_bind (bestZone_admits hP _ _ _ _ _) fun ⟨s, kept, _⟩ => ?_
    exact admits_ite_ret (admits_ite_ret ih)

theorem closestRankRounds_admits (ranking : List Handle) (minCapacity n : ℕ)
    (prev : ℤ) (next : ℕ) : L.Admits (closestRankRounds e a h ranking minCapacity n prev next) := by
  induction n generalizing prev next with
  | zero => exact admits_ret _
  | succ n ih =>
    refine admits_ite_ret ?_
    refine admits_bind hP.look fun d => ?_
    refine admits_bind (bestZone_admits hP _ _ _ _ _) fun ⟨s, kept, _⟩ => ?_
    refine admits_ite_ret ?_
    refine admits_ite_ret ?_
    split
    · exact ih _ _
    · exact ih _ _

end

theorem withLevelwiseFiles_admits {α : Type} {m : DevTask α} (hP : Ranks a L) (hm : L.Admits m) :
    L.Admits (withLevelwiseFiles m) :=
  admits_bind (hP.lock _ (by decide)) fun _ => admits_bind hm fun _ =>
    admits_bind (hP.unlock _ (by decide)) fun _ => admits_ret _

def SearchesUnder (a : Holder) (m : DevTask Match) : Prop :=
  ∃ g, m = withLevelwiseFiles g ∧ ∀ L : Judgement Call.Res, Searches a L → L.Admits g

theorem SearchesUnder.admits {m : DevTask Match} (hm : SearchesUnder a m) (hP : Ranks a L) :
    L.Admits m := by
  obtain ⟨g, rfl, hg⟩ := hm
  exact withLevelwiseFiles_admits hP (hg L hP.toSearches)

theorem matchCAZA_searchesUnder (best : ℕ) (zone : Option ℕ) (minCapacity : ℕ) :
    SearchesUnder a (matchCAZA e a h best zone minCapacity) := by
  refine ⟨_, rfl, fun L hP => ?_⟩
  refine admits_bind hP.look fun d => ?_
  dsimp only
  refine admits_ite_ret ?_
  refine admits_bind (bestZone_admits hP _ _ _ _ _) fun ⟨s, kept, _⟩ => ?_
  split
  · exact admits_bind (bestZone_admits hP _ _ _ _ _) fun _ => admits_ret _
  · exact admits_ret _

theorem matchSameLevelNearbyKeys_searchesUnder (zone : Option ℕ) (minCapacity : ℕ) :
    SearchesUnder a (matchSameLevelNearbyKeys e a h zone minCapacity) := by
  refine ⟨_, rfl, fun L hP => ?_⟩
  refine admits_then hP.look fun d => ?_
  refine admits_bind (bestZone_admits hP _ _ _ _ _) fun ⟨s, kept, _⟩ => ?_
  dsimp only
  split
  · exact admits_ret _
  · split
    · exact admits_ret _
    · refine admits_bind hP.look fun d => ?_
      split <;> exact admits_ret _

/-- A program that makes the change `f` under the mutex and from then on only searches. -/
def RanksFirst (a : Holder) (f : Zbd → Placement × List Handle) (m : DevTask Match) : Prop :=
  ∃ g, m = withLevelwiseFiles (rank f >>= g) ∧
    ∀ L : Judgement Call.Res, Searches a L → ∀ x, L.Admits (g x)

variable {f : Zbd → Placement × List Handle}

theorem RanksFirst.admits {m : DevTask Match}
    (hm : RanksFirst a f m) (hP : Ranks a L) (hf : L.Calls (.place f)) : L.Admits m := by
  obtain ⟨g, rfl, hg⟩ := hm
  exact withLevelwiseFiles_admits hP (admits_bind hf (hg L hP.toSearches))

theorem matchSameLevelNearbyKeysSimple_ranksFirst (best : ℕ) (zone : Option ℕ) (minCapacity : ℕ) :
    RanksFirst a (simpleRanking e h)
      (matchSameLevelNearbyKeysSimple e a h best zone minCapacity) := by
  refine ⟨_, rfl, fun L hP ⟨d, files⟩ => ?_⟩
  exact admits_ite_ret (admits_bind (closestFileRounds_admits hP _ _) fun _ => admits_ret _)

theorem matchRanking_ranksFirst {w : ℕ → ℚ} (best : ℕ) (zone : Option ℕ) (minCapacity : ℕ) :
    RanksFirst a ranking (matchRanking e a h ranking w best zone minCapacity) := by
  refine ⟨_, rfl, fun L hP ⟨d, own⟩ => ?_⟩
  exact admits_ite_ret (admits_bind (bestZone_admits hP _ _ _ _ _) fun _ => admits_ret _)

theorem matchOAZA_ranksFirst (best : ℕ) (zone : Option ℕ) (minCapacity : ℕ) :
    RanksFirst a (oazaRanking e h) (matchOAZA e a h best zone minCapacity) := by
  refine ⟨_, rfl, fun L hP ⟨d, own⟩ => ?_⟩
  refine admits_ite_ret ?_
  split
  · exact admits_bind (closestRankRounds_admits hP _ _ _ _ _) fun _ => admits_ret _
  · exact admits_bind (closestFileRounds_admits hP _ _) fun _ => admits_ret _

theorem matchBy_ranksFirst
    (hf : policyChange e h policy = some f) (lifetime : Lifetime) (best : ℕ) (zone : Option ℕ)
    (minCapacity : ℕ) : RanksFirst a f (matchBy e a h policy lifetime best zone minCapacity) := by
  cases policy <;> cases hf
  · exact matchSameLevelNearbyKeysSimple_ranksFirst best zone minCapacity
  · exact matchRanking_ranksFirst best zone minCapacity
  · exact matchRanking_ranksFirst best zone minCapacity
  · exact matchRanking_ranksFirst best zone minCapacity
  · exact matchOAZA_ranksFirst best zone minCapacity

theorem matchBy_admits (hP : Ranks a L)
    (hf : ∀ f, policyChange e h policy = some f → L.Calls (.place f)) (lifetime : Lifetime)
    (best : ℕ) (zone : Option ℕ) (minCapacity : ℕ) :
    L.Admits (matchBy e a h policy lifetime best zone minCapacity) := by
  cases hchange : policyChange e h policy with
  | some f => exact (matchBy_ranksFirst hchange lifetime best zone minCapacity).admits hP (hf f hchange)
  | none =>
    cases policy <;> cases hchange
    · exact matchLifetimeBased_admits hP.toSearches
    · exact admits_hang hP.hang
    · exact (matchCAZA_searchesUnder best zone minCapacity).admits hP
    · exact (matchSameLevelNearbyKeys_searchesUnder zone minCapacity).admits hP
    · change L.Admits (matchArrivalTimeBased e a h best zone minCapacity)
      exact matchTagged_admits hP.toSearches
    · exact matchTombstoneDensity_admits hP.toSearches
    · exact matchLifetimeBased_admits hP.toSearches
    · change L.Admits (matchClusterTogether e a best zone minCapacity)
      exact matchTagged_admits hP.toSearches
    · exact admits_hang hP.hang

/-! ### The metadata log -/

/-- `L` admits the calls by which log objects handle their zones. -/
structure Logs (a : Holder) (L : Judgement Call.Res) : Prop where
  append : ∀ n z data, L.Calls (.append (.log n) z data)
  finish : ∀ n z, L.Calls (.finish (.log n) z)
  reset : ∀ n z, L.Calls (.reset (.log n) z)
  release : ∀ n z, L.Calls (.release (.log n) z)
  newMetaLog : ∀ l, L.Calls (.newMetaLog a l)
  setMetaLog : ∀ l, L.Calls (.setMetaLog l)

theorem unlessFull_admits (hP : Searches a L) (hm : L.Admits m) :
    L.Admits (unlessFull z m) := by
  exact admits_then hP.look fun _ => admits_bind hm fun _ => admits_ret _

theorem writeRoll_admits (hP : Searches a L) (hL : Logs a L) : L.Admits (writeRoll old new r) := by
  refine admits_bind (unlessFull_admits hP (hL.append _ _ _)) fun _ => ?_
  refine admits_bind (unlessFull_admits hP (hL.finish _ _)) fun _ => ?_
  refine admits_then (hL.append _ _ _) fun s => ?_
  refine admits_bind (hL.append _ _ _) fun s => ?_
  split
  · exact admits_bind (hL.reset _ _) fun _ => admits_ret _
  · exact admits_ret _

theorem rollMetaZoneLocked_admits (hP : Recycles a L) (hL : Logs a L) :
    L.Admits (rollMetaZoneLocked e a) := by
  refine admits_bind (allocateMeta_admits hP) fun ⟨s, zone⟩ => ?_
  refine admits_ite_ret ?_
  split
  · exact admits_ret _
  · refine admits_bind hP.look fun d => ?_
    refine admits_bind (hL.newMetaLog _) fun _ => ?_
    refine admits_bind (hL.setMetaLog _) fun _ => ?_
    refine admits_bind (writeRoll_admits hP.toSearches hL) fun s => ?_
    exact admits_bind (hL.release _ _) fun _ => admits_ret _

theorem persistRecord_admits (hP : Seeks a L) (hL : Logs a L) : L.Admits (persistRecord e a) := by
  refine admits_bind (hP.lock _ (by decide)) fun _ => ?_
  refine admits_bind hP.look fun d => ?_
  refine admits_bind (hL.append _ _ _) fun s => ?_
  refine admits_bind ?_ fun s => admits_bind (hP.unlock _ (by decide)) fun _ => admits_ret _
  split
  · exact rollMetaZoneLocked_admits hP.toRecycles hL
  · exact admits_ret _

/-! ### Files -/

/-- `L` admits the calls by which a file handles its active zone and its extents. -/
structure Writes (a : Holder) (h : Handle) (L : Judgement Call.Res) : Prop where
  append : ∀ z data, L.Calls (.append (.file h) z data)
  close : ∀ z, L.Calls (.close (.file h) z)
  release : ∀ z, L.Calls (.release (.file h) z)
  setActiveZone : ∀ z, L.Calls (.setActiveZone a h z)
  clearActiveZone : L.Calls (.clearActiveZone h)
  use : ∀ z f, L.Calls (.use z f)
  body : ∀ f, L.Calls (.body h f)

/-- `L` admits reading the device and changing the extents of a file. -/
structure Edits (h : Handle) (L : Judgement Call.Res) : Prop where
  look : L.Calls .look
  hang : L.Calls .hang
  use : ∀ z f, L.Calls (.use z f)
  body : ∀ f, L.Calls (.body h f)

theorem Writes.edits (hW : Writes a h L) (hP : Handles a L) : Edits h L :=
  ⟨hP.look, hP.hang, hW.use, hW.body⟩

theorem activeZone_admits (hlook : L.Calls .look) (hhang : L.Calls .hang) :
    L.Admits (activeZone h) := by
  refine admits_bind hlook fun d => ?_
  split
  · exact admits_ret _
  · exact admits_hang hhang

theorem lookActiveZone_admits (hlook : L.Calls .look) (hhang : L.Calls .hang) :
    L.Admits (lookActiveZone h) :=
  admits_bind (activeZone_admits hlook hhang) fun _ => admits_bind hlook fun _ => admits_ret _

theorem closeActiveZone_admits (hP : Handles a L) (hclose : ∀ z, L.Calls (.close (.file h) z))
    (hrelease : ∀ z, L.Calls (.release (.file h) z)) (hclear : L.Calls (.clearActiveZone h)) :
    L.Admits (closeActiveZone h) := by
  refine admits_then hP.look fun d => ?_
  refine admits_bind (lookActiveZone_admits hP.look hP.hang) fun zone => ?_
  refine admits_bind (activeZone_admits hP.look hP.hang) fun z => ?_
  refine admits_bind (hclose _) fun s => ?_
  refine admits_bind (activeZone_admits hP.look hP.hang) fun z => ?_
  refine admits_bind (hrelease _) fun _ => ?_
  refine admits_then hclear fun _ => ?_
  refine admits_bind hP.putOpen fun _ => ?_
  split
  · exact admits_bind hP.putActive fun _ => admits_ret _
  · exact admits_ret _

theorem pushExtent_admits (hE : Edits h L) : L.Admits (pushExtent h) := by
  refine admits_then hE.look fun d => ?_
  refine admits_ite_ret ?_
  refine admits_bind (activeZone_admits hE.look hE.hang) fun z => ?_
  refine admits_bind (hE.body _) fun _ => ?_
  refine admits_bind (hE.use _ _) fun _ => ?_
  refine admits_bind (lookActiveZone_admits hE.look hE.hang) fun _ => ?_
  exact (hE.body _)

theorem addExtent_admits (hE : Edits h L) (header length : ℕ) :
    L.Admits (addExtent h header length) := by
  refine admits_bind (activeZone_admits hE.look hE.hang) fun z => ?_
  refine admits_bind (lookActiveZone_admits hE.look hE.hang) fun _ => ?_
  refine admits_bind (hE.body _) fun _ => ?_
  refine admits_bind (hE.use _ _) fun _ => ?_
  exact (hE.body _)

theorem pushIfFull_admits (hlook : L.Calls .look) (hhang : L.Calls .hang)
    (hpush : L.Admits (pushExtent h)) : L.Admits (pushIfFull h) := by
  refine admits_bind (lookActiveZone_admits hlook hhang) fun zone => ?_
  split
  · exact hpush
  · exact admits_ret _

theorem syncFileMetadata_admits (hP : Seeks a L) (hL : Logs a L)
    (hlock : L.Calls (.lock .files)) (hunlock : L.Calls (.unlock .files)) :
    L.Admits (syncFileMetadata e a h) := by
  refine admits_bind hlock fun _ => ?_
  refine admits_bind hP.look fun d => ?_
  refine admits_bind ?_ fun s => admits_bind hunlock fun _ => admits_ret _
  exact admits_ite_ret (persistRecord_admits hP hL)

theorem migrateRounds_admits (hlook : L.Calls .look)
    (happend : ∀ data, L.Calls (.append a target data)) (n offset length : ℕ) :
    L.Admits (migrateRounds e a target n offset length) := by
  induction n generalizing offset length with
  | zero => exact admits_ret _
  | succ n ih =>
    refine admits_ite_ret ?_
    refine admits_bind hlook fun d => ?_
    exact admits_bind (happend _) fun _ => ih _ _

theorem migrateData_admits (hlook : L.Calls .look)
    (happend : ∀ data, L.Calls (.append a target data)) (offset length : ℕ) :
    L.Admits (migrateData e a offset length target) := by
  exact admits_ite_ret (admits_bind (migrateRounds_admits hlook happend _ _ _) fun _ => admits_ret _)

theorem dropMoved_admits (huse : ∀ z f, L.Calls (.use z f)) (old new : List ZoneExtent) :
    L.Admits (dropMoved old new) := by
  induction old generalizing new with
  | nil => exact admits_ret _
  | cons x old ih =>
    cases new with
    | nil => exact admits_ret _
    | cons y new =>
      rw [dropMoved]
      split
      · exact admits_bind (huse _ _) fun _ => ih _
      · exact ih _

theorem clearExtents_drop_admits (huse : ∀ z f, L.Calls (.use z f)) (l : List ZoneExtent) :
    L.Admits (clearExtents.drop l) := by
  induction l with
  | nil => exact admits_ret _
  | cons x rest ih => exact admits_bind (huse _ _) fun _ => ih

theorem clearExtents_admits (hE : Edits h L) : L.Admits (clearExtents h) :=
  admits_bind hE.look fun _ =>
    admits_bind (clearExtents_drop_admits hE.use _) fun _ => hE.body _

/-! ### Allocation and what uses it -/

/-- `L` admits the changes of the placement data that allocations make for the file; those
of the policies need to be admitted only for the level seen when the search begins. -/
structure Places (e : Setup) (h : Handle) (L : Judgement Call.Res) : Prop where
  raiseForEmptyZone : ∀ level, L.Calls (.place fun d => (raiseForEmptyZone level d, []))
  raiseMaxLevel :
    L.Calls (.place fun d => (d.place.raiseMaxLevel (d.place.info h).level, []))
  setAllocSize : ∀ n,
    L.Calls (.place fun d => (d.place.setInfo h { d.place.info h with allocSize := n }, []))
  policies : L.Holds look fun d => (d.place.info h).listed → ∀ policy : Policy,
    policy = e.getPolicy (d.place.info h).level ∨
      policy = e.getSecondaryPolicy (d.place.info h).level →
    ∀ f, policyChange e h policy = some f → L.Calls (.place f)

/-- `L` admits all calls by which a zone is allocated for a file. -/
structure Allocates (e : Setup) (a : Holder) (h : Handle) (L : Judgement Call.Res) : Prop where
  handles : Handles a L
  places : Places e h L

structure Advances (e : Setup) (a : Holder) (h : Handle) (L : Judgement Call.Res) : Prop
    extends Allocates e a h L where
  close : ∀ z, L.Calls (.close (.file h) z)
  release : ∀ z, L.Calls (.release (.file h) z)
  setActiveZone : ∀ z, L.Calls (.setActiveZone a h z)
  clearActiveZone : L.Calls (.clearActiveZone h)
  startExtent : ∀ wp, L.Calls (.body h fun b =>
    { b with extentStart := some wp, extentFilepos := b.fileSize })
  sync : L.Admits (syncFileMetadata e a h)

structure Appends (e : Setup) (a : Holder) (h : Handle) (L : Judgement Call.Res) : Prop
    extends Advances e a h L where
  append : ∀ z data, L.Calls (.append (.file h) z data)
  addExtent : ∀ header length, L.Admits (addExtent h header length)
  pushExtent : L.Admits (pushExtent h)
  grow : ∀ n, L.Calls (.body h fun b => { b with fileSize := b.fileSize + n })

structure Works (e : Setup) (a : Holder) (h : Handle) (L : Judgement Call.Res) : Prop where
  handles : Handles a L
  writes : Writes a h L
  places : Places e h L
  sync : L.Admits (syncFileMetadata e a h)
  append : ∀ z data, L.Calls (.append a z data)
  tryAcquireWRLock : L.Calls (.tryAcquireWRLock h)
  releaseWRLock : L.Calls (.releaseWRLock h)

theorem Works.edits (w : Works e a h L) : Edits h L := w.writes.edits w.handles

theorem Works.advances (w : Works e a h L) : Advances e a h L where
  handles := w.handles
  places := w.places
  close := w.writes.close
  release := w.writes.release
  setActiveZone := w.writes.setActiveZone
  clearActiveZone := w.writes.clearActiveZone
  startExtent _ := w.writes.body _
  sync := w.sync

theorem Works.appends (w : Works e a h L) : Appends e a h L where
  toAdvances := w.advances
  append := w.writes.append
  addExtent := addExtent_admits w.edits
  pushExtent := pushExtent_admits w.edits
  grow _ := w.writes.body _

theorem getBestOpenZoneMatch_admits_of (hP : Ranks a L)
    (hpolicies : L.Holds look fun d => (d.place.info h).listed → ∀ policy : Policy,
      policy = e.getPolicy (d.place.info h).level ∨
        policy = e.getSecondaryPolicy (d.place.info h).level →
      ∀ f, policyChange e h policy = some f → L.Calls (.place f))
    (lifetime : Lifetime) (best minCapacity : ℕ) :
    L.Admits (getBestOpenZoneMatch e a h lifetime best minCapacity) := by
  have hlife : ∀ best n, L.Admits (matchLifetimeBased e a lifetime best none n) :=
    fun best n => matchLifetimeBased_admits hP.toSearches
  refine L.bind hpolicies fun d hd => ?_
  dsimp only
  split
  · exact hlife _ _
  · next hl =>
    have hl : (d.place.info h).listed := by simpa using hl
    refine admits_bind (matchBy_admits hP (hd hl _ (.inl rfl)) _ _ _ _)
      fun ⟨s, b, z⟩ => ?_
    refine admits_ite_ret ?_
    refine admits_bind (matchBy_admits hP (hd hl _ (.inr rfl)) _ _ _ _)
      fun ⟨s, b, z⟩ => ?_
    refine admits_bind hP.look fun d' => ?_
    exact admits_ite_ret (admits_bind (hlife _ _) fun _ => admits_ret _)

section Allocate

variable (w : Allocates e a h L)
include w

theorem openNewZone_admits (spins : ℕ) :
    L.Admits (openNewZone e a h spins lifetime got) := by
  have hput : L.Admits putOpenIOZoneToken := w.handles.putOpen
  have hputActive : L.Admits putActiveIOZoneToken := w.handles.putActive
  have hwait : L.Admits (if got then pure .OK else waitForActiveToken e a spins) := by
    exact admits_ite_ret (waitForActiveToken_admits w.handles.toSeeks)
  refine admits_bind hwait fun s => ?_
  split
  · exact admits_bind hput fun _ => admits_ret _
  · refine admits_bind w.handles.look fun d => ?_
    refine admits_bind (allocateEmptyZone_admits w.handles.toRecycles (w.places.raiseForEmptyZone _))
      fun ⟨s, zone⟩ => ?_
    dsimp only
    split
    · exact admits_bind hputActive fun _ => admits_bind hput fun _ => admits_ret _
    · split
      · exact admits_bind hputActive fun _ => admits_bind hput fun _ => admits_ret _
      · refine admits_bind w.handles.look fun d => ?_
        exact admits_bind (w.handles.tag _ _ _ _) fun _ => admits_ret _

theorem reconsider_admits (spins : ℕ) :
    L.Admits (reconsider e a h spins lifetime best zone) := by
  refine admits_bind w.handles.getActive fun got => ?_
  split
  · exact openNewZone_admits w _
  · refine admits_ite_ret ?_
    refine admits_bind w.handles.look fun d => ?_
    split
    · refine admits_bind (checkRelease_admits w.handles.toSearches _) fun s => ?_
      split
      · refine admits_bind w.handles.putOpen fun _ => ?_
        split
        · exact admits_bind w.handles.putActive fun _ => admits_ret _
        · exact admits_ret _
      · exact openNewZone_admits w _
    · split
      · exact admits_bind w.handles.putActive fun _ => admits_ret _
      · exact admits_ret _

theorem getBestOpenZoneMatch_admits (lifetime : Lifetime) :
    L.Admits (getBestOpenZoneMatch e a h lifetime best minCapacity) :=
  getBestOpenZoneMatch_admits_of w.handles.toRanks w.places.policies lifetime best minCapacity

theorem allocateIOZoneLocked_admits (spins : ℕ) :
    L.Admits (allocateIOZoneLocked e a h spins lifetime ioType) := by
  have hfinish : L.Admits (if ioType ≠ .wal then applyFinishThreshold e a else pure .OK) := by
    split
    · exact applyFinishThreshold_admits w.handles.toRecycles
    · exact admits_ret _
  refine admits_bind (place_admits w.places.raiseMaxLevel) fun _ => ?_
  refine admits_bind w.handles.look fun d => ?_
  dsimp only
  refine admits_ite_ret ?_
  refine admits_then hfinish fun s => ?_
  refine admits_bind (w.handles.wait _) fun _ => ?_
  refine admits_bind w.handles.look fun d => ?_
  refine admits_bind (getBestOpenZoneMatch_admits w _) fun ⟨s, best, zone⟩ => ?_
  split
  · exact admits_bind w.handles.putOpen fun _ => admits_ret _
  · split
    · exact reconsider_admits w _
    · split
      · exact admits_bind w.handles.putOpen fun _ => admits_ret _
      · exact admits_ret _

theorem allocateIOZone_admits (spins : ℕ) (lifetime : Lifetime) (ioType : IOType) :
    L.Admits (allocateIOZone e a h spins lifetime ioType) :=
  admits_bind (w.handles.lock _ (by decide)) fun _ =>
    admits_bind (allocateIOZoneLocked_admits w _) fun _ =>
      admits_bind (w.handles.unlock _ (by decide)) fun _ => admits_ret _

end Allocate

/-- The search for a target, given the matches and what `AllocateEmptyZone` does to `max_level`
for the level of the file. -/
theorem takeMigrateZone_admits_of (hP : Handles a L) (lifetime : Lifetime) (minCapacity : ℕ)
    (hmatch : ∀ best n, L.Admits (getBestOpenZoneMatch e a h lifetime best n))
    (hraise : L.Holds look fun d =>
      L.Calls (.place fun t => (raiseForEmptyZone (d.place.info h).level t, []))) :
    L.Admits (takeMigrateZone e a h lifetime minCapacity) := by
  refine admits_bind hP.startMigrating fun _ => ?_
  refine admits_bind (hmatch _ _) fun ⟨s, best, zone⟩ => ?_
  dsimp only
  split
  · exact admits_bind (hP.unlock _ (by decide)) fun _ => admits_ret _
  · refine admits_bind hP.look fun d => ?_
    have htoken : L.Admits (if d.getEmptyZoneCount e > 0 then
        getActiveIOZoneTokenIfAvailable else pure false) := by
      split
      · exact hP.getActive
      · exact admits_ret _
    refine admits_bind htoken fun token => ?_
    split
    · refine L.bind hraise fun d hd => ?_
      refine admits_bind (allocateEmptyZone_admits hP.toRecycles hd) fun ⟨t, new⟩ => ?_
      split
      · exact admits_hang hP.hang
      · exact admits_bind (hP.unlock _ (by decide)) fun _ => admits_ret _
    · exact admits_bind hP.stopMigrating fun _ =>
        admits_bind (hP.unlock _ (by decide)) fun _ => admits_ret _

theorem takeMigrateZone_admits (w : Allocates e a h L) (lifetime : Lifetime) (minCapacity : ℕ) :
    L.Admits (takeMigrateZone e a h lifetime minCapacity) :=
  takeMigrateZone_admits_of w.handles lifetime minCapacity
    (fun _ _ => getBestOpenZoneMatch_admits w _)
    (w.handles.look.holds fun _ => w.places.raiseForEmptyZone _)

section Advance

variable (w : Advances e a h L)
include w

theorem allocateNewZone_admits (spins : ℕ) : L.Admits (allocateNewZone e a h spins) := by
  refine admits_bind w.handles.look fun d => ?_
  refine admits_bind (allocateIOZone_admits w.toAllocates _ _ _) fun ⟨s, zone⟩ => ?_
  refine admits_ite_ret ?_
  split
  · exact admits_ret _
  · refine admits_bind (w.setActiveZone _) fun _ => ?_
    refine admits_bind (lookActiveZone_admits w.handles.look w.handles.hang) fun _ => ?_
    refine admits_bind (w.startExtent _) fun _ => ?_
    exact w.sync

theorem ensureActiveZone_admits (spins : ℕ) : L.Admits (ensureActiveZone e a h spins) := by
  refine admits_bind w.handles.look fun d => ?_
  split
  · exact allocateNewZone_admits w _
  · exact admits_ret _

theorem nextZoneIfFull_admits (spins left : ℕ) :
    L.Admits (nextZoneIfFull e a h spins left) := by
  refine admits_then (lookActiveZone_admits w.handles.look w.handles.hang) fun zone => ?_
  refine admits_then (closeActiveZone_admits w.handles w.close w.release w.clearActiveZone)
    fun s => ?_
  refine admits_bind (place_admits (w.places.setAllocSize _)) fun _ => ?_
  exact allocateNewZone_admits w _

end Advance

section Append

variable (w : Appends e a h L)
include w

theorem segmentRounds_admits (headerSize : ℕ) (header : ℕ → List UInt8) (spins n : ℕ)
    (left : List UInt8) :
    L.Admits (segmentRounds e a h headerSize header spins n left) := by
  induction n generalizing left with
  | zero => exact admits_hang w.handles.hang
  | succ n ih =>
    refine admits_ite_ret ?_
    refine admits_bind (lookActiveZone_admits w.handles.look w.handles.hang) fun zone => ?_
    refine admits_bind (activeZone_admits w.handles.look w.handles.hang) fun z => ?_
    refine admits_then (w.append _ _) fun s => ?_
    refine admits_bind (w.addExtent _ _) fun _ => ?_
    exact admits_then (nextZoneIfFull_admits w.toAdvances _ _) fun _ => ih _

theorem segmentAppend_admits (headerSize : ℕ) (header : ℕ → List UInt8) (spins : ℕ)
    (data : List UInt8) : L.Admits (segmentAppend e a h headerSize header spins data) := by
  refine admits_bind (place_admits (w.places.setAllocSize _)) fun _ => ?_
  exact admits_then (ensureActiveZone_admits w.toAdvances _) fun _ =>
    segmentRounds_admits w _ _ _ _ _

theorem directRounds_admits (spins n : ℕ) (left : List UInt8) :
    L.Admits (directRounds e a h spins n left) := by
  induction n generalizing left with
  | zero => exact admits_hang w.handles.hang
  | succ n ih =>
    refine admits_ite_ret ?_
    refine admits_bind (pushIfFull_admits w.handles.look w.handles.hang w.pushExtent) fun _ => ?_
    refine admits_then (nextZoneIfFull_admits w.toAdvances _ _) fun s => ?_
    refine admits_bind (lookActiveZone_admits w.handles.look w.handles.hang) fun zone => ?_
    refine admits_bind (activeZone_admits w.handles.look w.handles.hang) fun z => ?_
    exact admits_then (w.append _ _) fun _ => admits_bind (w.grow _) fun _ => ih _

theorem append_admits (spins : ℕ) (data : List UInt8) :
    L.Admits (append e a h spins data) := by
  refine admits_bind (place_admits (w.places.setAllocSize _)) fun _ => ?_
  exact admits_then (ensureActiveZone_admits w.toAdvances _) fun _ => directRounds_admits w _ _ _

end Append

/-- `L` admits the calls of a migration and the search for its targets. -/
structure Migrates (e : Setup) (a : Holder) (h : Handle) (L : Judgement Call.Res) : Prop where
  handles : Handles a L
  take : ∀ lifetime minCapacity, L.Admits (takeMigrateZone e a h lifetime minCapacity)
  sync : L.Admits (syncFileMetadata e a h)
  append : ∀ z data, L.Calls (.append a z data)
  use : ∀ z f, L.Calls (.use z f)
  body : ∀ f, L.Calls (.body h f)
  tryAcquireWRLock : L.Calls (.tryAcquireWRLock h)
  releaseWRLock : L.Calls (.releaseWRLock h)

theorem Works.migrates (w : Works e a h L) : Migrates e a h L where
  handles := w.handles
  take := takeMigrateZone_admits w.advances.toAllocates
  sync := w.sync
  append := w.append
  use := w.writes.use
  body := w.writes.body
  tryAcquireWRLock := w.tryAcquireWRLock
  releaseWRLock := w.releaseWRLock

variable (w : Migrates e a h L)
include w

theorem migrateExtents_admits {l : List ZoneExtent} (selected : List (ℕ × ℕ)) :
    L.Admits (migrateExtents e a h selected l) := by
  induction l with
  | nil => exact admits_ret _
  | cons x rest ih =>
    have hskip : L.Admits (do return x :: (← migrateExtents e a h selected rest)) :=
      admits_bind ih fun _ => admits_ret _
    rw [migrateExtents]
    split
    · exact hskip
    · refine admits_bind w.handles.look fun d => ?_
      refine admits_bind (w.take _ _) fun ⟨s, target, _⟩ => ?_
      dsimp only
      split
      · exact hskip
      · split
        · exact admits_bind (releaseMigrateZone_admits w.handles _) fun _ => hskip
        · refine admits_bind w.handles.look fun d => ?_
          refine admits_bind (migrateData_admits w.handles.look (w.append _) _ _)
            fun _ => ?_
          refine admits_bind w.handles.look fun d => ?_
          split
          · exact admits_bind (releaseMigrateZone_admits w.handles _) fun _ => admits_ret _
          · refine admits_bind (w.use _ _) fun _ => ?_
            refine admits_bind (releaseMigrateZone_admits w.handles _) fun _ => ?_
            exact admits_bind ih fun _ => admits_ret _

theorem syncFileExtents_admits (old new : List ZoneExtent) :
    L.Admits (syncFileExtents e a h old new) := by
  refine admits_bind (w.body _) fun _ => ?_
  exact admits_then w.sync fun _ => admits_bind (dropMoved_admits w.use _ _) fun _ => admits_ret _

theorem migrateFileExtents_admits (selected : List (ℕ × ℕ)) :
    L.Admits (migrateFileExtents e a h selected) := by
  refine admits_then w.tryAcquireWRLock fun got => ?_
  refine admits_bind w.handles.look fun d => ?_
  refine admits_bind (migrateExtents_admits w _) fun new => ?_
  refine admits_bind (syncFileExtents_admits w _ _) fun _ => ?_
  exact admits_bind w.releaseWRLock fun _ => admits_ret _

end ZenFs.Device
