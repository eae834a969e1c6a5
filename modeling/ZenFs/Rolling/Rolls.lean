import Mathlib.Algebra.BigOperators.Ring.List
import ZenFs.Library.Medium
import ZenFs.Rolling.Recovery

/-!
What a roll, a `PersistRecord` and a mount do to recoverable metadata zones.

A roll whose superblock and snapshot are written leaves its new zone as the one to
recover, whatever happened to the old zone. When all device steps succeed, the zones are
recoverable after each of them.
-/

namespace ZenFs.Rolling

open Library List Function Nat

variable {Q : Status → MetaState → Prop} {b readonly : Bool} {c : Catalog} {l : List Entry}
variable {mark : MetaState → MetaState} {n y : ℕ} {r : Record} {repair : Catalog → Status × Catalog}
variable {rs' : List Record} {x : Entry} {zs : List ℕ}
variable {L : Layout} {z old seq : ℕ} {zone : MetaZone} {rs : List Record} {s : MetaState}
  {P : MetaState → Prop} {f : Faults}

namespace Layout

theorem physSize_eq (L : Layout) (n : ℕ) :
    L.physSize n = n + 8 + Medium.padTo L.blockSize (n + 8) :=
  Medium.ite_eq_add_padTo L.blockSize_pos (n + 8)

theorem block_dvd_physSize (L : Layout) (n : ℕ) : L.blockSize ∣ L.physSize n := by
  rw [physSize_eq]
  exact Medium.dvd_add_padTo L.blockSize_pos (n + 8)

theorem le_physSize (L : Layout) (n : ℕ) : n + 8 ≤ L.physSize n := by
  rw [physSize_eq]
  exact le_add_right _ _

theorem block_dvd_size (L : Layout) (x : Entry) : L.blockSize ∣ L.size x := by
  cases x with
  | superblock | record => exact L.block_dvd_physSize _
  | torn n => exact dvd_mul_left _ _

theorem block_dvd_used (L : Layout) (zone : MetaZone) : L.blockSize ∣ L.used zone := by
  apply dvd_sum
  intro n hn
  obtain ⟨x, -, rfl⟩ := mem_map.mp hn
  exact L.block_dvd_size x

theorem size_endRecord (L : Layout) : L.size (.record .endRecord) = L.blockSize := by
  have h := L.twelve_le_block
  show L.physSize 4 = L.blockSize
  unfold physSize
  dsimp only
  rcases eq_or_lt_of_le h with heq | hlt
  · rw [if_pos (by rw [← heq])]
    exact heq
  · rw [mod_eq_of_lt hlt]
    simp
    omega

theorem endRecord_fits (L : Layout) (h : 0 < L.capacityLeft z zone) :
    L.size (.record .endRecord) ≤ L.capacityLeft z zone := by
  rw [L.size_endRecord]
  apply le_of_dvd h
  unfold capacityLeft
  split
  · exact dvd_zero _
  · exact dvd_sub (L.block_dvd_metaCapacity z) (L.block_dvd_used zone)

/-- Records of `n` bytes altogether fit into zone `z` and can be read to their end. -/
def Readable (L : Layout) (z n : ℕ) : Prop :=
  n ≤ L.metaCapacity z ∧ (n = L.metaCapacity z → L.fullWp z = n)

instance (L : Layout) (z n : ℕ) : Decidable (L.Readable z n) :=
  inferInstanceAs (Decidable (_ ∧ _))

theorem wp_le_used (h : L.Readable z (L.used zone)) (hf : zone.finished = false) :
    L.wp z zone ≤ L.used zone := by
  simp only [wp, hf, Bool.false_eq_true, false_or]
  split
  · next hu => exact (h.2 hu).le
  · rfl

theorem used_push (L : Layout) (l : List Entry) (x : Entry) (b : Bool) :
    L.used ⟨l ++ [x], b⟩ = L.used ⟨l, b⟩ + L.size x := by
  simp [used]

end Layout

namespace MetaState

@[simp] theorem setZone_setZone (zone zone' : MetaZone) :
    (s.setZone z zone).setZone z zone' = s.setZone z zone' := by
  simp [setZone]

@[simp] theorem setZone_self : s.setZone z (s.zones z) = s := by
  simp [setZone]

@[simp] theorem setZone_zones : (s.setZone z zone).zones z = zone := by
  simp [setZone]

theorem setZone_zones_ne (h : y ≠ z) : (s.setZone z zone).zones y = s.zones y := by
  simp [setZone, h]

@[simp] theorem setBusy_setBusy (a b : Bool) :
    (s.setBusy z a).setBusy z b = s.setBusy z b := by
  simp [setBusy]

theorem setBusy_eq_self (h : s.busy z = b) : s.setBusy z b = s := by
  simp [setBusy, ← h]

end MetaState

/-- A mounted file system whose current zone is the one to recover. -/
structure Live (L : Layout) (s : MetaState) (rs : List Record) : Prop where
  recoverable : Recoverable L s.zones s.latest s.seq rs
  current : s.current = s.latest
  busy : ∀ z, s.busy z = true ↔ z = s.current

theorem deviceStep_settles {g : MetaState → MetaState} {Q : Unit → MetaState → Prop}
    (hP : P (g s)) (hQ : Q () (g s)) : Settles P (deviceStep g) s Q :=
  .bind (.modify (.emit hP hQ))

theorem addRecord_settles {fault : Option ℕ}
   
    (hfull : L.capacityLeft z (s.zones z) < L.size x →
      Q (.NoSpace "Not enough capacity for append") s)
    (hok : L.size x ≤ L.capacityLeft z (s.zones z) → fault = none →
      P (mark (s.push z x)) ∧ Q .OK (mark (s.push z x)))
    (hnone : fault = some 0 → Q (.IOError "Write failed") s)
    (htorn : ∀ n, fault = some (n + 1) →
      P (s.push z (.torn (n + 1))) ∧ Q (.IOError "Write failed") (s.push z (.torn (n + 1)))) :
    Settles P (addRecord L z x fault mark) s Q := by
  apply Settles.bind
  apply Settles.read
  split
  · next h => exact .pure (hfull h)
  · next h =>
    split
    · have := hok (Nat.le_of_not_lt h) rfl
      exact .bind (deviceStep_settles this.1 (.pure this.2))
    · exact .pure (hnone rfl)
    · next n =>
      have := htorn n rfl
      exact .bind (deviceStep_settles this.1 (.pure this.2))

theorem resetZone_settles {fails : Bool}
    (hok : fails = false → P (s.setZone z .empty) ∧ Q .OK (s.setZone z .empty))
    (hfail : fails = true → Q (.IOError "Zone reset failed\n") s) :
    Settles P (resetZone z fails) s Q := by
  unfold resetZone
  split
  · next h => exact .pure (hfail h)
  · next h =>
    have := hok (by simpa using h)
    exact .bind (deviceStep_settles this.1 (.pure this.2))

theorem finishZone_settles {fails : Bool}
    (hok : fails = false → P (s.setZone z ⟨(s.zones z).content, true⟩) ∧
      Q .OK (s.setZone z ⟨(s.zones z).content, true⟩))
    (hfail : fails = true → Q (.IOError "Zone finish failed\n") s) :
    Settles P (finishZone z fails) s Q := by
  unfold finishZone
  split
  · next h => exact .pure (hfail h)
  · next h =>
    have := hok (by simpa using h)
    exact .bind (deviceStep_settles this.1 (.pure this.2))

theorem ifCapacityLeft_settles {m : MetaProg Status} {Q : Unit → MetaState → Prop}
    (hleft : 0 < L.capacityLeft z (s.zones z) → Settles P m s fun _ t => Q () t)
    (hfull : L.capacityLeft z (s.zones z) = 0 → Q () s) :
    Settles P (ifCapacityLeft L z m) s Q := by
  apply Settles.bind
  apply Settles.read
  dsimp only [id]
  split
  · next h =>
    apply Settles.bind
    apply (hleft h).mono
    intro _ t ht
    exact .pure ht
  · next h => exact .pure (hfull (by omega))

/-- `AllocateMetaZone` gives an empty zone that nobody held; it fails only if a reset
failed. -/
theorem allocateMetaZone_settles
    (hP : ∀ z ∈ zs, s.busy z = false → P ((s.setBusy z true).setZone z .empty)) :
    Settles P (allocateMetaZone f zs) s fun r t =>
      (∃ z ∈ zs, s.busy z = false ∧ r = (.OK, some z) ∧
        t = (s.setBusy z true).setZone z .empty) ∨
      (r = (.NoSpace "Out of metadata zones", none) ∧ t = s ∧
        ∀ z ∈ zs, s.busy z = false → f.resetNew z = true) := by
  induction zs with
  | nil => exact .pure (.inr ⟨rfl, rfl, by simp⟩)
  | cons z rest ih =>
    have hrest := ih fun y hy => hP y (mem_cons_of_mem _ hy)
    apply Settles.bind
    apply Settles.act
    cases hb : s.busy z with
    | true =>
      apply hrest.mono
      rintro r t (⟨y, hy, h⟩ | ⟨hr, ht, hall⟩)
      · exact .inl ⟨y, mem_cons_of_mem _ hy, h⟩
      · exact .inr ⟨hr, ht, forall_mem_cons.mpr ⟨by simp [hb], hall⟩⟩
    | false =>
      simp only [Bool.false_eq_true, if_false]
      apply Settles.bind
      apply Settles.read
      dsimp only [id]
      split
      · next he =>
        have hself : (s.setBusy z true).setZone z .empty = s.setBusy z true := by
          rw [← he, MetaState.setZone_self]
        exact .pure (.inl ⟨z, by simp, hb, rfl, hself.symm⟩)
      · apply Settles.bind
        apply resetZone_settles
        · intro _
          refine ⟨hP z (by simp) hb, ?_⟩
          exact .pure (.inl ⟨z, by simp, hb, rfl, rfl⟩)
        · intro hfail
          apply Settles.bind
          apply Settles.modify
          rw [MetaState.setBusy_setBusy, MetaState.setBusy_eq_self hb]
          apply hrest.mono
          rintro r t (⟨y, hy, h⟩ | ⟨hr, ht, hall⟩)
          · exact .inl ⟨y, mem_cons_of_mem _ hy, h⟩
          · exact .inr ⟨hr, ht, forall_mem_cons.mpr ⟨fun _ => hfail, hall⟩⟩

/-- What is left of the old zone: it has its superblock, and when all steps succeeded it is
still complete. -/
structure Closing (L : Layout) (f : Faults) (old seq : ℕ) (zone : MetaZone) : Prop where
  starts : ∃ rest, zone.content = .superblock seq :: rest
  complete : f = .none → ∃ rs, Complete L old zone seq rs

theorem Complete.closing (h : Complete L old zone seq rs) : Closing L f old seq zone where
  starts := ⟨_, h.content⟩
  complete _ := ⟨rs, h⟩

theorem Complete.endRecord (h : Complete L z zone seq rs) (b : Bool) :
    Complete L z ⟨zone.content ++ [.record .endRecord], b⟩ seq (rs ++ [.endRecord]) where
  content := by simp [h.content]
  replays := h.replays.endRecord
  ends := .inl (by simp)

theorem Complete.finish (h : Complete L z zone seq rs) (he : .endRecord ∈ rs) :
    Complete L z ⟨zone.content, true⟩ seq rs := ⟨h.content, h.replays, .inl he⟩

theorem closeZone_settles (hold : Complete L old (s.zones old) seq rs)
    (hP : ∀ zone, Closing L f old seq zone → P (s.setZone old zone)) :
    Settles P (closeZone L f old) s fun _ t =>
      ∃ zone, t = s.setZone old zone ∧ Closing L f old seq zone := by
  -- after the end record: the zone is complete with an end record, or full
  have hend : Settles P (ifCapacityLeft L old
      (addRecord L old (.record .endRecord) f.endRecord id)) s fun _ t =>
      ∃ zone, t = s.setZone old zone ∧ (∃ rest, zone.content = .superblock seq :: rest) ∧
        (f = .none → ∃ rs', Complete L old zone seq rs' ∧
          (.endRecord ∈ rs' ∨ L.capacityLeft old zone = 0)) := by
    apply ifCapacityLeft_settles
    · intro hleft
      have hfits := L.endRecord_fits hleft
      apply addRecord_settles
      · intro hlt
        omega
      · intro _ _
        have hc := hold.endRecord (s.zones old).finished
        exact ⟨hP _ hc.closing, _, rfl, ⟨_, hc.content⟩, fun _ => ⟨_, hc, .inl (by simp)⟩⟩
      · intro h0
        refine ⟨s.zones old, MetaState.setZone_self.symm, ⟨_, hold.content⟩, ?_⟩
        rintro rfl
        cases h0
      · intro n hn
        have hc : Closing L f old seq ⟨(s.zones old).content ++ [.torn (n + 1)],
            (s.zones old).finished⟩ := by
          constructor
          · exact ⟨rs.map .record ++ [.torn (n + 1)], by simp [hold.content]⟩
          · rintro rfl
            cases hn
        refine ⟨hP _ hc, _, rfl, hc.starts, ?_⟩
        rintro rfl
        cases hn
    · intro hfull
      exact ⟨s.zones old, MetaState.setZone_self.symm, ⟨_, hold.content⟩,
        fun _ => ⟨rs, hold, .inr hfull⟩⟩
  apply Settles.bind
  apply hend.mono
  rintro _ _ ⟨zone, rfl, hstarts, hcomplete⟩
  have hclosing : Closing L f old seq zone :=
    ⟨hstarts, fun hf => (hcomplete hf).imp fun _ h => h.1⟩
  apply ifCapacityLeft_settles
  · intro hleft
    rw [MetaState.setZone_zones] at hleft
    apply finishZone_settles
    · intro _
      rw [MetaState.setZone_zones, MetaState.setZone_setZone]
      have hc : Closing L f old seq ⟨zone.content, true⟩ := by
        refine ⟨hstarts, fun hf => ?_⟩
        obtain ⟨rs', h, he | h0⟩ := hcomplete hf
        · exact ⟨rs', h.finish he⟩
        · omega
      exact ⟨hP _ hc, _, rfl, hc⟩
    · intro _
      exact ⟨zone, rfl, hclosing⟩
  · intro _
    exact ⟨zone, rfl, hclosing⟩

def SnapshotFits (L : Layout) (c : Catalog) : Prop :=
  recordLength c.encodeSnapshotTo < 2 ^ 32 ∧ ∀ z < L.metaZones,
    L.Readable z (L.size (.superblock 0) + L.size (.record c.encodeSnapshotTo))

/-- Under the faults that remain, the zones a roll publishes are recoverable when all steps
succeed. -/
def Safe (L : Layout) (f : Faults) (s : MetaState) : Prop :=
  f = .none → ∃ n rs, Recoverable L s.zones s.latest n rs

namespace Recoverable

variable {zones : ℕ → MetaZone} {latest : ℕ}

theorem setLatest (h : Recoverable L zones latest seq rs) (hc : Complete L latest zone seq rs') :
    Recoverable L (update zones latest zone) latest seq rs' where
  lt := h.lt
  complete := by simpa using hc
  others y hy hne := by simpa [hne] using h.others y hy hne

theorem setOther (h : Recoverable L zones latest seq rs) (hne : z ≠ latest)
    (ho : Older L z seq zone) :
    Recoverable L (update zones z zone) latest seq rs where
  lt := h.lt
  complete := by simpa [hne.symm] using h.complete
  others y hy hy' := by
    by_cases hyz : y = z
    · subst hyz
      simpa using ho
    · simpa [hyz] using h.others y hy hy'

theorem written (hz : z < L.metaZones)
    (ho : ∀ y < L.metaZones, y ≠ z → Older L y n (zones y)) (hfits : SnapshotFits L c)
    (hrep : Replays L [c.encodeSnapshotTo]) :
    Recoverable L (update zones z ⟨[.superblock n, .record c.encodeSnapshotTo], false⟩)
      z n [c.encodeSnapshotTo] where
  lt := hz
  complete := by
    rw [update_self]
    refine ⟨rfl, hrep, .inr (L.wp_le_used ?_ rfl)⟩
    simpa [Layout.used, Layout.size] using hfits.2 z hz
  others y hy hne := by simpa [hne] using ho y hy hne

end Recoverable

theorem push_eq (h : s.zones z = ⟨l, b⟩) (x : Entry) :
    s.push z x = s.setZone z ⟨l ++ [x], b⟩ := by
  simp [MetaState.push, h]

theorem addRecord_fits (hzone : s.zones z = ⟨l, false⟩)
    (hroom : L.used ⟨l, false⟩ + L.size x ≤ L.metaCapacity z)
    (hP : P (mark (s.setZone z ⟨l ++ [x], false⟩)))
    (hQ : Q .OK (mark (s.setZone z ⟨l ++ [x], false⟩))) :
    Settles P (addRecord L z x none mark) s Q := by
  apply addRecord_settles
  · intro hlt
    simp only [hzone, Layout.capacityLeft, Bool.false_eq_true, if_false] at hlt
    omega
  · intro _ _
    rw [push_eq hzone]
    exact ⟨hP, hQ⟩
  · intro h0
    cases h0
  · intro n hn
    cases hn

def MetaState.rolled (s : MetaState) (z n : ℕ) : MetaState :=
  ((s.setZone z ⟨[.superblock n, .record s.cat.encodeSnapshotTo], false⟩).setLatest z).setCat
    s.cat.metadataSynced

theorem writeSnapshotLocked_settles (hz : z < L.metaZones)
    (hzone : s.zones z = ⟨[.superblock n], false⟩)
    (ho : ∀ y < L.metaZones, y ≠ z → Older L y n (s.zones y)) (hfits : SnapshotFits L s.cat)
    (hrep : Replays L [s.cat.encodeSnapshotTo]) :
    Settles (Safe L f) (writeSnapshotLocked L z none) s fun st t =>
      st = .OK ∧ t = s.rolled z n := by
  apply Settles.bind
  apply Settles.read
  apply Settles.bind
  apply addRecord_fits hzone
  · exact (hfits.2 z hz).1
  · intro _
    exact ⟨n, _, Recoverable.written hz ho hfits hrep⟩
  · apply Settles.bind
    apply Settles.modify
    exact .pure ⟨rfl, rfl⟩

theorem Older.of_started (hz : z < L.metaZones)
    (hfits : SnapshotFits L c) : Older L z seq ⟨[.superblock n], false⟩ := by
  have hsnap := L.le_physSize (recordLength c.encodeSnapshotTo)
  obtain ⟨hcap, -⟩ := hfits.2 z hz
  apply Older.started n rfl
  apply L.wp_le_used _ rfl
  simp only [Layout.used, map_cons, map_nil, sum_cons, sum_nil,
    Layout.size, Layout.Readable] at hcap ⊢
  omega

/-- Once superblock and snapshot are written, the new zone is the one to recover. -/
theorem writeRoll_settles (hs : Recoverable L s.zones s.latest s.seq rs) (hz : z < L.metaZones)
    (hne : z ≠ s.latest) (he : s.zones z = .empty) (hseq : s.seq + 1 < 2 ^ 32)
    (hrep : Replays L [s.cat.encodeSnapshotTo]) (hfits : SnapshotFits L s.cat)
    (hsb : f.superblock = none) (hsn : f.snapshot = none) :
    Settles (Safe L f) (writeRoll L f s.latest z) s fun st t => st = .OK ∧
      Recoverable L t.zones z (s.seq + 1) [s.cat.encodeSnapshotTo] ∧ t.latest = z ∧
      t.seq = s.seq + 1 ∧ t.cat = s.cat.metadataSynced ∧ t.current = s.current ∧
      t.busy = s.busy := by
  apply Settles.bind
  apply (closeZone_settles hs.complete ?_).mono
  swap
  · intro zone hc hf
    obtain ⟨rs', h⟩ := hc.complete hf
    exact ⟨_, rs', hs.setLatest h⟩
  rintro _ _ ⟨zone, rfl, hclosing⟩
  have hothers : ∀ y < L.metaZones, y ≠ z →
      Older L y (s.seq + 1) ((s.setZone s.latest zone).zones y) := by
    intro y hy hyz
    by_cases hyl : y = s.latest
    · subst hyl
      rw [MetaState.setZone_zones]
      obtain ⟨rest, hrest⟩ := hclosing.starts
      exact .earlier s.seq rest hrest (by omega)
    · rw [MetaState.setZone_zones_ne hyl]
      exact (hs.others y hy hyl).mono (by omega)
  apply Settles.bind
  apply Settles.act
  rw [show (s.setZone s.latest zone).seq = s.seq from rfl, mod_eq_of_lt hseq]
  apply Settles.bind
  rw [hsb]
  apply addRecord_fits
  · exact (MetaState.setZone_zones_ne hne).trans he
  · have := (hfits.2 z hz).1
    simp only [Layout.used, map_nil, sum_nil, Layout.size] at this ⊢
    omega
  · intro hf
    obtain ⟨rs', h⟩ := hclosing.complete hf
    exact ⟨_, _, (hs.setLatest h).setOther hne (Older.of_started hz hfits)⟩
  rw [hsn]
  apply Settles.bind
  apply (writeSnapshotLocked_settles (s := ((s.setZone s.latest zone).setSeq (s.seq + 1)).setZone z
    ⟨[.superblock (s.seq + 1)], false⟩) hz MetaState.setZone_zones ?_ hfits
    hrep).mono
  swap
  · intro y hy hyz
    rw [MetaState.setZone_zones_ne hyz]
    exact hothers y hy hyz
  rintro st t ⟨rfl, rfl⟩
  have hrolled : Recoverable L (update (s.setZone s.latest zone).zones z
      ⟨[.superblock (s.seq + 1), .record s.cat.encodeSnapshotTo], false⟩) z (s.seq + 1)
      [s.cat.encodeSnapshotTo] := Recoverable.written hz hothers hfits hrep
  rw [MetaState.rolled, MetaState.setZone_setZone]
  apply Settles.bind
  apply resetZone_settles
  · intro _
    have hempty : Older L s.latest (s.seq + 1) .empty := .empty rfl
    have hreset := hrolled.setOther hne.symm hempty
    refine ⟨fun _ => ⟨_, _, hreset⟩, ?_⟩
    exact .pure ⟨rfl, hreset, rfl, rfl, rfl, rfl, rfl⟩
  · intro _
    exact .pure ⟨rfl, hrolled, rfl, rfl, rfl, rfl, rfl⟩

theorem exists_free (hs : Live L s rs) : ∃ z ∈ List.range L.metaZones, s.busy z = false := by
  have h2 := L.two_le_metaZones
  by_cases h : s.current = 0
  · refine ⟨1, by simp only [mem_range]; omega, ?_⟩
    rw [← Bool.not_eq_true, hs.busy, h]
    decide
  · refine ⟨0, by simp only [mem_range]; omega, ?_⟩
    rw [← Bool.not_eq_true, hs.busy]
    exact fun h0 => h h0.symm

theorem Live.free_ne_latest (hs : Live L s rs) (hz : s.busy z = false) : z ≠ s.latest := by
  rintro rfl
  rw [← Bool.not_eq_true, hs.busy, hs.current] at hz
  exact hz rfl

/-- A roll that writes its superblock and its snapshot. Otherwise it found no zone and
changed nothing. -/
theorem rollMetaZoneLocked_settles (hs : Live L s rs) (hseq : s.seq + 1 < 2 ^ 32)
    (hrep : Replays L [s.cat.encodeSnapshotTo]) (hfits : SnapshotFits L s.cat)
    (hsb : f.superblock = none) (hsn : f.snapshot = none) :
    Settles (Safe L f) (rollMetaZoneLocked L f) s fun st t =>
      (st = .OK ∧ Live L t [s.cat.encodeSnapshotTo] ∧ t.cat = s.cat.metadataSynced) ∨
      (st.ok = false ∧ t = s ∧ f ≠ .none) := by
  apply Settles.bind
  apply (allocateMetaZone_settles ?_).mono
  swap
  · intro z _ hz _
    exact ⟨_, _, hs.recoverable.setOther (hs.free_ne_latest hz) (.empty rfl)⟩
  rintro r t (⟨z, hz, hzb, rfl, rfl⟩ | ⟨rfl, rfl, hall⟩)
  · have hne := hs.free_ne_latest hzb
    apply Settles.bind
    apply Settles.read
    apply Settles.bind
    apply Settles.modify
    apply Settles.bind
    have hcur : (id ((s.setBusy z true).setZone z .empty)).current =
        (((s.setBusy z true).setZone z .empty).setCurrent z).latest := hs.current
    rw [hcur]
    apply (writeRoll_settles (s := ((s.setBusy z true).setZone z .empty).setCurrent z)
      (hs.recoverable.setOther hne (.empty rfl)) (by simpa using hz) hne
      MetaState.setZone_zones hseq hrep hfits hsb hsn).mono
    rintro st t ⟨rfl, hrec, hlatest, htseq, hcat, hcurrent, hbusy⟩
    apply Settles.bind
    apply Settles.modify
    apply Settles.pure
    refine .inl ⟨rfl, ?_, hcat⟩
    constructor
    · show Recoverable L t.zones t.latest t.seq _
      rw [hlatest, htseq]
      exact hrec
    · show t.current = t.latest
      rw [hcurrent, hlatest]
      rfl
    · intro y
      show update t.busy s.latest false y = true ↔ y = t.current
      rw [hbusy, hcurrent]
      show update (update s.busy z true) s.latest false y = true ↔ y = z
      by_cases hy : y = s.latest
      · subst hy
        simp [hne.symm]
      · rw [update_of_ne hy]
        by_cases hyz : y = z
        · simp [hyz]
        · rw [update_of_ne hyz, hs.busy, hs.current]
          simp [hy, hyz]
  · apply Settles.pure
    refine .inr ⟨rfl, rfl, ?_⟩
    rintro rfl
    obtain ⟨z, hz, hzb⟩ := exists_free hs
    exact absurd (hall z hz hzb) (by simp [Faults.none])

theorem Live.append (hs : Live L s rs) (hfit : s.Fits L r) (hrep : Replays L (rs ++ [r]))
    (hread : L.Readable s.current (L.used (s.zones s.current) + L.size (.record r))) :
    Live L (s.push s.current (.record r)) (rs ++ [r]) := by
  have hopen : (s.zones s.current).finished = false := by
    by_contra hfin
    have hpos := L.le_physSize (recordLength r)
    rw [MetaState.Fits, Layout.capacityLeft, if_pos (by simpa using hfin), Layout.size] at hfit
    omega
  have hzone : s.zones s.current = ⟨(s.zones s.current).content, false⟩ := by rw [← hopen]
  have hc : Complete L s.latest ⟨(s.zones s.current).content ++ [.record r], false⟩ s.seq
      (rs ++ [r]) := by
    rw [← hs.current]
    constructor
    · simp [hs.current, hs.recoverable.complete.content]
    · exact hrep
    · right
      apply L.wp_le_used _ rfl
      rw [Layout.used_push]
      exact hread
  rw [push_eq hzone]
  refine ⟨?_, hs.current, hs.busy⟩
  rw [hs.current] at *
  exact hs.recoverable.setLatest hc

theorem persistRecord_rolls (hno : ¬ s.Fits L r)
    (h : Settles P (rollMetaZoneLocked L f) s Q) : Settles P (persistRecord L f r) s Q := by
  apply Settles.bind
  apply Settles.read
  apply Settles.bind
  apply addRecord_settles
  · intro _
    exact h
  · intro hle _
    exact absurd hle hno
  · intro h0
    cases h0
  · intro n hn
    cases hn

/-- The record is appended, or a roll writes the snapshot in its place. -/
theorem persistRecord_settles (hs : Live L s rs) (hseq : s.seq + 1 < 2 ^ 32)
    (happ : s.Fits L r → Replays L (rs ++ [r]) ∧
      L.Readable s.current (L.used (s.zones s.current) + L.size (.record r)))
    (hroll : ¬ s.Fits L r → Replays L [s.cat.encodeSnapshotTo] ∧ SnapshotFits L s.cat)
    (hsb : f.superblock = none) (hsn : f.snapshot = none) :
    Settles (Safe L f) (persistRecord L f r) s fun st t =>
      (st = .OK ∧ Live L t (if s.Fits L r then rs ++ [r] else [s.cat.encodeSnapshotTo])) ∨
      (st.ok = false ∧ t = s ∧ f ≠ .none) := by
  by_cases hfit : s.Fits L r
  · obtain ⟨hrep, hread⟩ := happ hfit
    have hlive := hs.append hfit hrep hread
    apply Settles.bind
    apply Settles.read
    apply Settles.bind
    apply addRecord_settles
    · intro hlt
      exact absurd hfit (not_le.mpr hlt)
    · intro _ _
      refine ⟨fun _ => ⟨_, _, hlive.recoverable⟩, ?_⟩
      apply Settles.pure
      rw [if_pos hfit]
      exact .inl ⟨rfl, hlive⟩
    · intro h0
      cases h0
    · intro n hn
      cases hn
  · obtain ⟨hrep, hfits⟩ := hroll hfit
    apply persistRecord_rolls hfit
    apply (rollMetaZoneLocked_settles hs hseq hrep hfits hsb hsn).mono
    rintro st t (⟨rfl, hlive, -⟩ | h)
    · rw [if_neg hfit]
      exact .inl ⟨rfl, hlive⟩
    · exact .inr h

def MetaState.recovered (s : MetaState) (seq : ℕ) (c : Catalog) : MetaState :=
  { s with
    busy := update (fun _ => false) s.latest true
    current := s.latest
    seq := seq
    cat := c }

theorem Recoverable.live (h : Recoverable L s.zones s.latest seq rs) (c : Catalog) :
    Live L (s.recovered seq c) rs where
  recoverable := h
  current := rfl
  busy z := by
    show update (fun _ => false) s.latest true z = true ↔ z = s.latest
    by_cases hz : z = s.latest <;> simp [hz]

/-- What a mount does after the loop over the zones ended with `s`. -/
def mountRecovered (L : Layout) (readonly : Bool) (repair : Catalog → Status × Catalog)
    (f : Faults) (s : Status) : MetaProg Status := do
  if !s.ok then return s
  else
    Prog.modify fun s => { s with busy := update (fun _ => false) s.current true }
    if readonly then return .OK
    else
      let s ← Prog.act fun s => ((repair s.cat).1, s.setCat (repair s.cat).2)
      if !s.ok then return s else rollMetaZoneLocked L f

theorem mount_reads (h : Newest L s.zones z seq) (hloop : ∀ pre post b, Unwritten L s.zones pre →
      Settles P (recoverLatest L (pre ++ (seq, z) :: post)) { s with busy := b, cat := .empty }
        fun st t => Settles P (mountRecovered L readonly repair f st) t Q) :
    Settles P (mount L readonly repair f) s Q := by
  obtain ⟨pre, post, hsort, hpre⟩ := h.sorted
  apply Settles.bind
  apply Settles.modify
  apply Settles.bind
  apply (readSuperblocks_settles _ _ ?_).mono
  swap
  · intro z hz
    exact h.no_record (by simpa using hz)
  rintro _ _ ⟨rfl, b, rfl⟩
  have hne : (range L.metaZones).filterMap (superblockOf s.zones) ≠ [] := by
    intro hnil
    rw [hnil] at hsort
    simp at hsort
  split
  · next heq => cases heq
  · next heq => exact absurd (Except.ok.inj heq) hne
  · next found _ heq =>
    cases heq
    rw [hsort]
    exact .bind (hloop pre post b hpre)

/-- A mount recovers the complete zone; for writing, it then repairs the files and rolls. -/
theorem mount_settles (h : Recoverable L s.zones s.latest seq rs)
    (hc : Catalog.replay L.toGeometry rs false .empty = .ok (true, c))
    (hread : readonly = true → Q .OK (s.recovered seq c))
    (hwrite : readonly = false → (repair c).1.ok = true ∧
      Settles P (rollMetaZoneLocked L f) (s.recovered seq (repair c).2) Q) :
    Settles P (mount L readonly repair f) s Q := by
  apply mount_reads h.newest
  intro pre post b hpre
  apply (recoverLatest_settles (s := { s with busy := b, cat := .empty }) hpre rfl h.complete
    hc).mono
  rintro _ _ ⟨rfl, b', rfl⟩
  apply Settles.bind
  apply Settles.modify
  cases readonly with
  | true => exact .pure (hread rfl)
  | false =>
    obtain ⟨hrepair, hroll⟩ := hwrite rfl
    apply Settles.bind
    apply Settles.act
    rw [hrepair]
    exact hroll

end ZenFs.Rolling
