import ZenFs.MetaLog.Framing
import ZenFs.Recover.Bounded

/-!
Full zones after a remount.

For a full zone the device reports a write pointer at the end of its address range. Behind the
capacity of the zone there is nothing to read, yet the log reader and the recovery of a file both
take everything below the write pointer for data.
-/

namespace ZenFs.MetaLog

open Library.Coding Library.Medium Log

variable {k : ℕ} {r : Bytes} {s : Status}

def kEndRecord : ℕ := 4

def isEnd (r : Bytes) : Bool := (getFixed 4 r).map Prod.fst = some kEndRecord

/-- The loop of `RecoverFrom` as far as it reads the log; what it does with the records is left
out. `none` is a run that is not over after the given number of rounds. -/
def Log.replay (m : Media) (b : Backend) : ℕ → Log → Option Status
  | 0, _ => none
  | k + 1, l =>
    let (s, record, l) := l.readRecord m b
    if !s.ok then some (.Corruption "ZenFS: Metadata corruption")
    else
      match getFixed 4 record with
      | none => some .OK
      | some (tag, _) => if tag = kEndRecord then some .OK else replay m b k l

def Replays (m : Media) (b : Backend) (z : LogZone) : Prop :=
  ∃ k s, (Log.new z).replay m b k = some s ∧ s.ok = true

/-- A zone that is full or has been finished, as a new process gets it from the device. -/
def LogZone.reportedFull (zoneSize : ℕ) (z : LogZone) : LogZone :=
  { z with wp := z.start + zoneSize, capacity := 0 }

variable {m : Media} {b : Backend} {zoneSize : ℕ}

/-- Records with a tag that can be read back. -/
def Tagged (rs : List Bytes) : Prop := ∀ r ∈ rs, 4 ≤ r.length ∧ r.length < 2 ^ 31

theorem getFixed_of_le (hr : 4 ≤ r.length) :
    getFixed 4 r = some (fixedValue (r.take 4), r.drop 4) := if_neg (by omega)

theorem replay_cons {l l' : Log} (hread : l.readRecord m b = (.OK, r, l'))
    (hlen : 4 ≤ r.length) (hend : isEnd r = false) (k : ℕ) :
    l.replay m b (k + 1) = l'.replay m b k := by
  have htag : fixedValue (r.take 4) ≠ kEndRecord := by
    simpa [isEnd, getFixed_of_le hlen] using hend
  simp only [Log.replay, hread, Status.ok_OK, Bool.not_true, Bool.false_eq_true, if_false,
    getFixed_of_le hlen, if_neg htag]

theorem replay_end {l l' : Log} (hread : l.readRecord m b = (.OK, r, l'))
    (hend : isEnd r = true) (k : ℕ) : l.replay m b (k + 1) = some .OK := by
  obtain ⟨p, hp, htag⟩ := Option.map_eq_some_iff.mp (of_decide_eq_true hend)
  simp only [Log.replay, hread, Status.ok_OK, Bool.not_true, Bool.false_eq_true, if_false, hp,
    htag, if_true]

variable {rs : List Bytes}

theorem Tagged.head (h : Tagged (r :: rs)) : r ≠ [] ∧ 4 ≤ r.length ∧ r.length < 2 ^ 31 := by
  obtain ⟨hlow, hhigh⟩ := h r (by simp)
  exact ⟨List.ne_nil_of_length_pos (by omega), hlow, hhigh⟩

theorem replay_laid (htag : Tagged rs) (hend : ∀ r ∈ rs, isEnd r = false)
    {l : Log} (h : Ahead m l rs) (k : ℕ) :
    l.replay m b k =
      if k < rs.length then none else (l.skip (m.total rs)).replay m b (k - rs.length) := by
  induction rs generalizing l k with
  | nil => rfl
  | cons r rs ih =>
    cases k with
    | zero => rfl
    | succ k =>
      obtain ⟨hne, hlow, hhigh⟩ := htag.head
      obtain ⟨hread, hrest⟩ := h.read (b := b) hne hhigh
      have hagain := ih (fun r' hr' => htag r' (by simp [hr']))
        (fun r' hr' => hend r' (by simp [hr'])) hrest k
      have hskip : (l.skip (m.stored r).length).skip (m.total rs) = l.skip (m.total (r :: rs)) :=
        congrArg (fun n => { l with readPos := n }) (Nat.add_assoc ..)
      rw [replay_cons hread hlow (hend r (by simp)), hagain, hskip, List.length_cons]
      simp only [Nat.add_lt_add_iff_right, Nat.add_sub_add_right]

theorem replay_laid_end (htag : Tagged rs) (hend : ∃ r ∈ rs, isEnd r = true)
    {l : Log} (h : Ahead m l rs) : ∃ k, l.replay m b k = some .OK := by
  induction rs generalizing l with
  | nil =>
    obtain ⟨r, hr, -⟩ := hend
    cases hr
  | cons r rs ih =>
    obtain ⟨hne, hlow, hhigh⟩ := htag.head
    obtain ⟨hread, hrest⟩ := h.read (b := b) hne hhigh
    cases hr : isEnd r with
    | true => exact ⟨1, replay_end hread hr 0⟩
    | false =>
      have hend' : ∃ r' ∈ rs, isEnd r' = true := by
        obtain ⟨r', hr', hend'⟩ := hend
        rcases List.mem_cons.mp hr' with rfl | hr'
        · rw [hr] at hend'
          cases hend'
        · exact ⟨r', hr', hend'⟩
      obtain ⟨k, hk⟩ := ih (fun r' hr' => htag r' (by simp [hr'])) hend' hrest
      use k + 1
      rw [replay_cons hread hlow hr]
      exact hk

/-- At the end of the capacity: the write pointer, or nothing that can be read. -/
theorem replay_at_capacity {l : Log} (hpos : l.readPos = l.zone.start + l.zone.maxCapacity)
    (k : ℕ) : l.replay m b (k + 1) =
      some (if l.readPos ≥ l.zone.wp then .OK
        else .Corruption "ZenFS: Metadata corruption") := by
  have hacross : l.readPos + Media.headerSize > l.zone.start + l.zone.maxCapacity := by
    rw [Media.headerSize]
    omega
  by_cases heof : l.readPos ≥ l.zone.wp
  · simp only [Log.replay, readRecord, Log.read, if_pos heof]
    rfl
  · simp only [Log.replay, readRecord, Log.read, if_neg heof, if_pos hacross]
    rfl

theorem replay_at_wp {l : Log} (hwp : l.readPos ≥ l.zone.wp) (k : ℕ) :
    l.replay m b (k + 1) = some .OK := by
  simp only [Log.replay, readRecord, Log.read, if_pos hwp]
  rfl

/-- The checksum of an empty record is not that of a header of zeros. -/
def Media.TellsBlank (m : Media) : Prop := m.checksum [] 0 ≠ unmask 0

instance (m : Media) : Decidable m.TellsBlank := inferInstanceAs (Decidable (_ ≠ _))

theorem span_blank {content : ℕ → UInt8} {pos n : ℕ}
    (h : ∀ a, pos ≤ a → a < pos + n → content a = 0) :
    span content pos n = List.replicate n 0 := by
  have hzero : span content pos n = span (fun _ => 0) pos n := span_congr h
  rw [hzero, span, List.map_const', List.length_range]

/-- Zeros below the write pointer are not taken for a record. -/
theorem replay_at_blank (hcrc : m.TellsBlank) {l : Log} (hwp : l.readPos < l.zone.wp)
    (hblank : ∀ a, l.readPos ≤ a → a < l.zone.start + l.zone.maxCapacity → l.zone.content a = 0)
    (k : ℕ) : l.replay m b (k + 1) = some (.Corruption "ZenFS: Metadata corruption") := by
  have hbad : (l.readRecord m b).1.ok = false := by
    by_cases hfit : l.readPos + Media.headerSize ≤ l.zone.start + l.zone.maxCapacity
    · have hheader : l.read b Media.headerSize = (.OK, List.replicate Media.headerSize 0,
          { l with readPos := l.readPos + Media.headerSize }) := by
        rw [read_eq b hwp hfit (by decide), span_blank fun a hle hlt => hblank a hle (by omega)]
      -- the length in the header is zero, so nothing more is read, wherever the position is now
      have hbody : ({ l with readPos := l.readPos + Media.headerSize } : Log).read b 0 =
          (.OK, [], { l with readPos := l.readPos + Media.headerSize }) := by
        by_cases heof : l.readPos + Media.headerSize ≥ l.zone.wp
        · simp only [Log.read, if_pos heof]
        · have hinside : ¬ l.readPos + Media.headerSize + 0 >
              l.zone.start + l.zone.maxCapacity := by omega
          simp only [Log.read, if_neg heof, if_neg hinside]
          rfl
      have hsz : fixedValue ((List.replicate Media.headerSize (0 : UInt8)).drop 4) = 0 := by decide
      have hcrc0 : fixedValue ((List.replicate Media.headerSize (0 : UInt8)).take 4) = 0 := by
        decide
      have hne : m.checksum [] 0 ≠ unmask (UInt32.ofNat 0) := hcrc
      have hsome : Media.headerSize ≠ 0 := by decide
      simp only [readRecord, hheader, hsz, hbody, hcrc0, Status.ok_OK, Bool.not_true,
        Bool.false_eq_true, if_false, List.length_replicate, if_neg hsome, if_pos hne]
      rfl
    · have hacross : l.readPos + Media.headerSize > l.zone.start + l.zone.maxCapacity := by omega
      simp only [readRecord, Log.read, if_neg (Nat.not_le.mpr hwp), if_pos hacross]
      rfl
  simp only [Log.replay, hbad, Bool.not_false, if_true]

/-- Behind records without an end record, the replay comes to what it finds there. -/
theorem replays_of_last (htag : Tagged rs) (hend : ∀ r ∈ rs, isEnd r = false) {z : LogZone}
    (h : Ahead m (Log.new z) rs)
    (hlast : ∀ k, ((Log.new z).skip (m.total rs)).replay m b (k + 1) = some s) :
    Replays m b z ↔ s.ok = true := by
  have hrun := replay_laid (b := b) htag hend h
  constructor
  · intro ⟨k, s', hk, hs⟩
    rw [hrun] at hk
    split at hk
    · cases hk
    · cases hj : k - rs.length with
      | zero =>
        rw [hj] at hk
        cases hk
      | succ j =>
        rw [hj, hlast] at hk
        cases hk
        exact hs
  · intro hs
    refine ⟨rs.length + 1, s, ?_, hs⟩
    rw [hrun, if_neg (by omega), Nat.add_sub_cancel_left, hlast]

/-- A zone that has been reset: nothing is in it, and it reads as zeros. -/
structure LogZone.Fresh (m : Media) (z : LogZone) : Prop where
  aligned : m.blockSize ∣ z.start
  wp : z.wp = z.start
  capacity : z.capacity = z.maxCapacity
  blank : ∀ a, z.start ≤ a → a < z.start + z.maxCapacity → z.content a = 0

def endRecord : Bytes := putFixed 4 kEndRecord

/-- What `RollMetaZoneLocked` writes into the zone of the old log. It does not look at the status of
`WriteEndRecord`. -/
def Media.close (m : Media) (b : Backend) (z : LogZone) : LogZone :=
  if z.capacity ≠ 0 then (m.addRecord b z endRecord).2 else z

/-- What the device reports of the zone to a new process. With space left behind the end record,
`RollMetaZoneLocked` goes on to `Finish`, whose status it does not look at either. -/
def LogZone.reported (zoneSize : ℕ) (finish : Bool) (z : LogZone) : LogZone :=
  if z.capacity = 0 ∨ finish = true then z.reportedFull zoneSize else z

theorem addRecords_above {z z' : LogZone} (htag : Tagged rs)
    (h : m.addRecords b z rs = some z') (a : ℕ) (ha : z'.wp ≤ a) :
    z'.content a = z.content a := by
  induction rs generalizing z with
  | nil =>
    cases h
    rfl
  | cons r rs ih =>
    have hwritten (z₁ : LogZone) (h₁ : m.addRecords b z₁ rs = some z') :=
      m.addRecords_written (fun r' (hr' : r' ∈ rs) => (htag r' (by simp [hr'])).2) h₁
    rw [Media.addRecords] at h
    obtain ⟨s, z₁, hadd⟩ : ∃ s z₁, m.addRecord b z r = (s, z₁) := ⟨_, _, rfl⟩
    rw [hadd] at h
    dsimp only at h
    split at h
    case isFalse => cases h
    case isTrue hs =>
      obtain ⟨-, rfl⟩ := m.addRecord_ok hadd hs (htag r (by simp)).2
      have hwp := (hwritten _ h).wp
      rw [ih (fun r' hr' => htag r' (by simp [hr'])) h]
      apply put_of_le
      simp only at hwp
      omega

theorem addRecords_concat {z z' : LogZone} (h : m.addRecords b z rs = some z') (r : Bytes) :
    m.addRecords b z (rs ++ [r]) =
      if (m.addRecord b z' r).1.ok then some (m.addRecord b z' r).2 else none := by
  induction rs generalizing z with
  | nil =>
    cases h
    rfl
  | cons r₀ rs ih =>
    rw [List.cons_append, Media.addRecords]
    rw [Media.addRecords] at h
    dsimp only at h ⊢
    split at h
    case isFalse => cases h
    case isTrue hs =>
      rw [if_pos hs]
      exact ih h

structure Media.EndsInBlock (m : Media) (b : Backend) : Prop where
  fits : 12 ≤ m.blockSize
  whole : ∀ {pos r}, b.write pos m.blockSize = some r → r = m.blockSize

theorem length_stored_endRecord (hsize : 12 ≤ m.blockSize) :
    (m.stored endRecord).length = m.blockSize := by
  rw [m.length_stored]
  have hle := m.le_padded (endRecord.length + Media.headerSize)
  have hlt := m.padded_lt (endRecord.length + Media.headerSize)
  have hdvd := m.blockSize_dvd_padded (endRecord.length + Media.headerSize)
  have hlen : endRecord.length + Media.headerSize = 12 := rfl
  rw [hlen] at hle hlt hdvd ⊢
  obtain ⟨c, hc⟩ := hdvd
  obtain rfl : c = 1 := by
    rcases c with _ | _ | c
    · omega
    · rfl
    · rw [hc] at hlt
      have hmul : m.blockSize * (c + 1 + 1) = m.blockSize * c + m.blockSize + m.blockSize := by ring
      omega
  rw [hc, Nat.mul_one]

/-- An end record that is not written leaves the zone as it was. -/
theorem addRecord_endRecord_failed (hone : m.EndsInBlock b) {z : LogZone}
    (h : (m.addRecord b z endRecord).1.ok = false) : (m.addRecord b z endRecord).2 = z := by
  have hlen := length_stored_endRecord hone.fits
  have hadd : m.addRecord b z endRecord = z.append b (m.stored endRecord) m.blockSize := by
    have hsize : m.padded (endRecord.length + Media.headerSize) = m.blockSize := by
      rw [← m.length_stored, hlen]
    have hbs := m.blockSize_le
    show z.append b (m.stored endRecord) (m.padded (endRecord.length + Media.headerSize) % 2 ^ 32) =
      _
    rw [hsize, Nat.mod_eq_of_lt (by omega)]
  rw [hadd] at h ⊢
  rw [LogZone.append] at h ⊢
  split
  · rfl
  next hcap =>
    rw [if_neg hcap] at h
    have hpos := m.blockSize_pos
    obtain ⟨k, hk⟩ : ∃ k, m.blockSize = k + 1 := ⟨m.blockSize - 1, by omega⟩
    have htake : (m.stored endRecord).take m.blockSize = m.stored endRecord :=
      List.take_of_length_le hlen.le
    rw [htake] at h ⊢
    have hloop : ∀ k, appendLoop b (k + 1) z (m.stored endRecord) = _ := fun k => by
      rw [appendLoop, if_neg (by omega), hlen]
    rw [hk, hloop] at h ⊢
    cases hw : b.write z.wp m.blockSize with
    | none => rfl
    | some r =>
      -- the call that writes the block leaves nothing to fail on
      obtain rfl := hone.whole hw
      rw [hw] at h
      have hrest : (m.stored endRecord).drop m.blockSize = [] :=
        List.drop_eq_nil_of_le hlen.le
      dsimp only at h
      rw [hrest] at h
      cases k <;> cases h

/-- The log has an end record, or its records fill a zone without an unusable tail, or there is
space left behind them and the zone is not finished. -/
def EndsWell (m : Media) (b : Backend) (zoneSize : ℕ) (finish : Bool) (rs : List Bytes)
    (z : LogZone) : Prop :=
  (∃ r ∈ rs, isEnd r = true) ∨
    if z.capacity = 0 then z.maxCapacity = zoneSize
    else (m.addRecord b z endRecord).1.ok = true ∨ finish = false

/-- What the replay makes of a zone that is reported with the records in it. -/
theorem replays_reported_iff (hcrc : m.TellsBlank) {z z' : LogZone} (hfresh : z.Fresh m)
    (htag : Tagged rs) (hadd : m.addRecords b z rs = some z') (hle : z.maxCapacity ≤ zoneSize)
    (finish : Bool) :
    Replays m b (z'.reported zoneSize finish) ↔ (∃ r ∈ rs, isEnd r = true) ∨
      if z'.capacity = 0 then z'.maxCapacity = zoneSize else finish = false := by
  have hw := m.addRecords_written (fun r hr => (htag r hr).2) hadd
  have hstart := hw.start
  have hmax := hw.maxCapacity
  have htotal := hw.wp
  have hsum := hw.capacity
  have hempty := hfresh.wp
  have hcap := hfresh.capacity
  have hahead := hw.ahead hfresh.aligned hempty hcap
  -- where the write pointer is reported, and that the rest of the zone is as it was
  obtain ⟨wp, cap, hrep, hwp⟩ : ∃ wp cap,
      z'.reported zoneSize finish = { z' with wp := wp, capacity := cap } ∧
        wp = if z'.capacity = 0 ∨ finish = true then z'.start + zoneSize else z'.wp := by
    rw [LogZone.reported]
    split
    · exact ⟨_, _, rfl, rfl⟩
    · exact ⟨_, _, rfl, rfl⟩
  rw [hrep]
  have hbelow : z'.start + m.total rs ≤ wp := by
    rw [hwp]
    split <;> omega
  have hahead' : Ahead m (Log.new { z' with wp := wp, capacity := cap }) rs :=
    ⟨hahead.aligned, hahead.laid, hbelow, hahead.cap⟩
  by_cases hend : ∃ r ∈ rs, isEnd r = true
  · obtain ⟨k, hk⟩ := replay_laid_end (b := b) htag hend hahead'
    exact iff_of_true ⟨k, .OK, hk, rfl⟩ (.inl hend)
  have hnone : ∀ r ∈ rs, isEnd r = false := fun r hr => by
    by_contra hne
    exact hend ⟨r, hr, Bool.not_eq_false _ ▸ hne⟩
  have hlast := fun s => replays_of_last (b := b) (s := s) htag hnone hahead'
  simp only [hend, false_or]
  by_cases hfull : z'.capacity = 0
  · rw [if_pos (.inl hfull)] at hwp
    rw [if_pos hfull, hlast _ (replay_at_capacity (by
      show z'.start + m.total rs = z'.start + z'.maxCapacity
      omega))]
    show Status.ok (if z'.start + m.total rs ≥ wp then _ else _) = true ↔ _
    split
    · exact iff_of_true rfl (by omega)
    · exact iff_of_false (by decide) (by omega)
  · rw [if_neg hfull]
    cases finish with
    | false =>
      rw [if_neg (by simp [hfull])] at hwp
      refine iff_of_true ((hlast .OK (replay_at_wp ?_)).mpr rfl) rfl
      show z'.start + m.total rs ≥ wp
      omega
    | true =>
      rw [if_pos (.inr rfl)] at hwp
      refine iff_of_false (fun hrun => ?_) (by decide)
      refine absurd ((hlast _ (replay_at_blank hcrc ?_ ?_)).mp hrun) (by decide)
      · show z'.start + m.total rs < wp
        omega
      · intro a hlow hhigh
        have hlow' : z'.start + m.total rs ≤ a := hlow
        have hhigh' : a < z'.start + z'.maxCapacity := hhigh
        show z'.content a = 0
        rw [addRecords_above htag hadd a (by omega)]
        exact hfresh.blank a (by omega) (by omega)

/-- After `RollMetaZoneLocked` has closed a log and the process is gone, the log is replayed without
an error if and only if it ends well. -/
theorem replays_closed_iff (hone : m.EndsInBlock b) (hcrc : m.TellsBlank) {z z' : LogZone}
    (hfresh : z.Fresh m) (htag : Tagged rs) (hadd : m.addRecords b z rs = some z')
    (hle : z.maxCapacity ≤ zoneSize) (finish : Bool) :
    Replays m b ((m.close b z').reported zoneSize finish) ↔
      EndsWell m b zoneSize finish rs z' := by
  have hsame := replays_reported_iff hcrc hfresh htag hadd hle finish
  rw [Media.close, EndsWell]
  by_cases hfull : z'.capacity = 0
  · rw [if_neg (by simp [hfull]), hsame, if_pos hfull, if_pos hfull]
  · rw [if_pos hfull, if_neg hfull]
    cases hs : (m.addRecord b z' endRecord).1.ok with
    | false =>
      rw [addRecord_endRecord_failed hone hs, hsame, if_neg hfull]
      simp
    | true =>
      have hall := addRecords_concat hadd endRecord
      rw [if_pos hs] at hall
      have htag' : Tagged (rs ++ [endRecord]) := by
        intro r hr
        rcases List.mem_append.mp hr with hr | hr
        · exact htag r hr
        · rw [List.mem_singleton.mp hr]
          decide
      rw [replays_reported_iff hcrc hfresh htag' hall hle finish]
      exact iff_of_true (.inl ⟨endRecord, by simp, by decide⟩) (.inr (.inl rfl))

end ZenFs.MetaLog

namespace ZenFs.Recover

open Library.Coding Library.Medium

variable {d : Disk} {z cap k p stop : ℕ} {e e' l : List ZoneExtent} {f' : ZoneFile} {s : Status}
  {u u' v : ℤ} {used' : ℕ → ℤ}

/-- The recovery returns, and no byte it adds lies at or beyond `cap`. -/
def RecoversBelow (d : Disk) (cap : ℕ) (f : ZoneFile) (used : ℕ → ℤ) : Prop :=
  ∃ rounds s f' used', recover d rounds f used = some (s, f', used') ∧
    ∀ x ∈ f'.extents.drop f.extents.length, x.start + x.length ≤ cap

inductive Tiled (d : Disk) (cap : ℕ) : ℕ → Prop
  | done : Tiled d cap cap
  | next {p : ℕ} : p < cap → d.readable p = true → d.header p ≠ 0 →
      p + sparseHeaderSize + d.header p ≤ cap → Tiled d cap (d.follow p) → Tiled d cap p

/-- A sparse file's part of a full zone consists of segments; that of another file is just
bytes. -/
structure FillsZone (d : Disk) (z : ℕ) (f : ZoneFile) (start : ℕ) : Prop where
  extentStart : f.extentStart = some start
  zone : d.getIOZone start = some z
  full : d.wp z = d.start z + d.zoneSize
  start_le : start ≤ d.start z + d.maxCapacity z
  tiled : f.isSparse = true → Tiled d (d.start z + d.maxCapacity z) start

theorem recoverSparseExtents_extends
    (h : d.recoverSparseExtents z stop k p e u = some (s, e', u')) : e <+: e' := by
  induction k generalizing p e u with
  | zero => cases h
  | succ k ih =>
    rw [Disk.recoverSparseExtents] at h
    split at h
    · split at h
      · cases h
        exact List.prefix_rfl
      · split at h
        · cases h
          exact List.prefix_rfl
        · exact (List.prefix_append e _).trans (ih h)
    · cases h
      exact List.prefix_rfl

/-- The scan runs through the segments to the capacity and goes on from there. -/
theorem Tiled.scan (hcap : cap < 2 ^ 63) (hstop : cap ≤ stop)
    (h : Tiled d cap p) (e : List ZoneExtent) (u : ℤ) :
    ∃ n l v, (∀ x ∈ l, x.start + x.length ≤ cap) ∧
      ∀ k, d.recoverSparseExtents z stop k p e u =
        if k < n then none else d.recoverSparseExtents z stop (k - n) cap (e ++ l) v := by
  induction h generalizing e u with
  | done => exact ⟨0, [], u, by simp, fun k => by simp⟩
  | @next p hp hread hlen hend _ ih =>
    obtain ⟨n, l, v, hl, hrun⟩ := ih (e ++ [d.extentAt z p]) (u + d.header p)
    refine ⟨n + 1, d.extentAt z p :: l, v, ?_, ?_⟩
    · intro x hx
      rcases List.mem_cons.mp hx with rfl | hx
      · rw [extentAt_start hcap hend]
        exact hend
      · exact hl x hx
    · intro k
      cases k with
      | zero => rfl
      | succ k =>
        rw [Disk.recoverSparseExtents, if_pos (by omega), if_neg (by simp [hread]), if_neg hlen,
          hrun k, List.append_assoc]
        simp only [Nat.add_lt_add_iff_right, Nat.add_sub_add_right]
        rfl

section Cases

variable {f : ZoneFile} {used : ℕ → ℤ} {start : ℕ}

section

variable (h : FillsZone d z f start)
include h

theorem FillsZone.bounds :
    start < d.wp z ∧ d.start z + d.maxCapacity z ≤ d.wp z ∧
      d.start z + d.maxCapacity z < 2 ^ 63 := by
  obtain ⟨hz, -, hlt⟩ := d.getIOZone_eq_some.mp h.zone
  have hfull := h.full
  have hcap := d.capacity_le z
  have hend := d.addressable z hz
  omega

theorem recoversBelow_direct (hsparse : f.isSparse = false) :
    RecoversBelow d (d.start z + d.maxCapacity z) f used ↔ d.maxCapacity z = d.zoneSize := by
  obtain ⟨hlt, -, -⟩ := h.bounds
  have hrec : ∀ k, recover d k f used = _ := recover_direct h.extentStart h.zone hlt hsparse
  have hfull := h.full
  have hcap := d.capacity_le z
  constructor
  · intro ⟨rounds, s, f', used', hrun, hbelow⟩
    rw [hrec] at hrun
    cases hrun
    have hend := hbelow ⟨start, d.wp z - start, z⟩ (by simp [completed])
    simp only at hend
    omega
  · intro hsame
    refine ⟨0, _, _, _, hrec 0, ?_⟩
    intro x hx
    simp only [completed, List.drop_left, List.mem_singleton] at hx
    subst hx
    simp only
    omega

section

variable (hsparse : f.isSparse = true)
include hsparse

theorem extents_of_recover (hrec : recover d k f used = some (s, f', used')) :
    ∃ u, d.recoverSparseExtents z (d.wp z) k start f.extents (used z) =
      some (s, f'.extents, u) := by
  rw [recover_sparse h.extentStart h.zone h.bounds.1 hsparse] at hrec
  obtain ⟨⟨s₁, e₁, u₁⟩, hscan, heq⟩ := Option.map_eq_some_iff.mp hrec
  dsimp only at heq
  split at heq
  · cases heq
    exact ⟨u₁, hscan⟩
  · cases heq
    exact ⟨u₁, hscan⟩

theorem recoversBelow_of_scan (hl : ∀ x ∈ l, x.start + x.length ≤ cap)
    (hscan : d.recoverSparseExtents z (d.wp z) k start f.extents (used z) =
      some (s, f.extents ++ l, v)) : RecoversBelow d cap f used := by
  have hrec : recover d k f used = _ := recover_sparse h.extentStart h.zone h.bounds.1 hsparse k
  rw [hscan, Option.map_some] at hrec
  cases hs : s.ok with
  | true =>
    simp only [hs] at hrec
    exact ⟨k, _, _, _, hrec, fun x hx => hl x (by simpa [completed] using hx)⟩
  | false =>
    simp only [hs] at hrec
    exact ⟨k, _, _, _, hrec, fun x hx => hl x (by simpa using hx)⟩

/-- Behind the segments the scan goes on to the block at the end of the capacity. -/
theorem recoversBelow_sparse :
    RecoversBelow d (d.start z + d.maxCapacity z) f used ↔
      d.maxCapacity z = d.zoneSize ∨ d.readable (d.start z + d.maxCapacity z) = false ∨
        d.header (d.start z + d.maxCapacity z) = 0 := by
  obtain ⟨-, hle, hsmall⟩ := h.bounds
  obtain ⟨n, l, v, hl, hrun⟩ := (h.tiled hsparse).scan hsmall hle f.extents (used z)
  have hfull := h.full
  -- one more round at the end of the capacity settles it, unless a segment is found there
  have hgood : ∀ s, d.recoverSparseExtents z (d.wp z) 1 (d.start z + d.maxCapacity z)
      (f.extents ++ l) v = some (s, f.extents ++ l, v) →
      RecoversBelow d (d.start z + d.maxCapacity z) f used := by
    intro s hlast
    apply recoversBelow_of_scan h hsparse hl (k := n + 1)
    rw [hrun, if_neg (by omega), Nat.add_sub_cancel_left, hlast]
  by_cases hsame : d.maxCapacity z = d.zoneSize
  · refine iff_of_true (hgood .OK ?_) (.inl hsame)
    rw [Disk.recoverSparseExtents, if_neg (by omega)]
  have hbefore : d.start z + d.maxCapacity z < d.wp z := by omega
  by_cases hread : d.readable (d.start z + d.maxCapacity z) = false
  · refine iff_of_true (hgood (.IOError "Unexpected read error while recovering") ?_)
      (.inr (.inl hread))
    rw [Disk.recoverSparseExtents, if_pos hbefore, if_pos hread]
  by_cases hzero : d.header (d.start z + d.maxCapacity z) = 0
  · refine iff_of_true (hgood (.IOError "Unexpected extent length while recovering") ?_)
      (.inr (.inr hzero))
    rw [Disk.recoverSparseExtents, if_pos hbefore, if_neg hread, if_pos hzero]
  refine iff_of_false ?_ (by simp [hsame, hread, hzero])
  rintro ⟨rounds, s, f', used', hrec, hbelow⟩
  obtain ⟨u, hscan⟩ := extents_of_recover h hsparse hrec
  have hmem : d.extentAt z (d.start z + d.maxCapacity z) ∈ f'.extents.drop f.extents.length := by
    rw [hrun] at hscan
    split at hscan
    · cases hscan
    · cases hk : rounds - n with
      | zero =>
        rw [hk] at hscan
        cases hscan
      | succ k =>
        rw [hk, Disk.recoverSparseExtents, if_pos hbefore, if_neg hread, if_neg hzero] at hscan
        obtain ⟨more, hmore⟩ := recoverSparseExtents_extends hscan
        rw [← hmore]
        simp
  have hend := hbelow _ hmem
  have hstart : (d.extentAt z (d.start z + d.maxCapacity z)).start =
      d.start z + d.maxCapacity z + 8 := Nat.mod_eq_of_lt (by simp only [sparseHeaderSize]; omega)
  omega

end

/-- A file that fills its zone is recovered below the capacity if and only if the zone has no
unusable tail, or the file is sparse and there is no segment to be read at the tail. -/
theorem recoversBelow_iff :
    RecoversBelow d (d.start z + d.maxCapacity z) f used ↔
      d.maxCapacity z = d.zoneSize ∨ f.isSparse = true ∧
        (d.readable (d.start z + d.maxCapacity z) = false ∨
          d.header (d.start z + d.maxCapacity z) = 0) := by
  cases hsparse : f.isSparse with
  | false => simp [recoversBelow_direct h hsparse]
  | true => simp [recoversBelow_sparse h hsparse]

end

end Cases

open MetaLog in
/-- After a roll that ended early and a remount, the old log is replayed without an error and a file
that filled its zone is recovered below the capacity, if and only if the log ends well, and the
file's zone has no unusable tail or the file is sparse and no segment can be read at the tail. -/
theorem fullZones_iff (m : Media) (b : Backend) (hone : m.EndsInBlock b) (hcrc : m.TellsBlank)
    {zone zone' : LogZone} (hfresh : zone.Fresh m) {rs : List Bytes} (htag : Tagged rs)
    (hadd : m.addRecords b zone rs = some zone') (finish : Bool)
    {d : Disk} (hle : zone.maxCapacity ≤ d.zoneSize) {f : ZoneFile} {z start : ℕ}
    (hfill : FillsZone d z f start) (used : ℕ → ℤ) :
    (Replays m b ((m.close b zone').reported d.zoneSize finish) ∧
        RecoversBelow d (d.start z + d.maxCapacity z) f used) ↔
      EndsWell m b d.zoneSize finish rs zone' ∧
        (d.maxCapacity z = d.zoneSize ∨ f.isSparse = true ∧
          (d.readable (d.start z + d.maxCapacity z) = false ∨
            d.header (d.start z + d.maxCapacity z) = 0)) := by
  rw [replays_closed_iff hone hcrc hfresh htag hadd hle, recoversBelow_iff hfill]

/-- Two zones with the given number of blocks of sixteen bytes, of the four that a zone spans. -/
def narrow (blocks : ℕ) (hpos : 0 < blocks) (hle : blocks ≤ 4) : Geometry where
  blockSize := 16
  zoneSize := 64
  nrZones := 2
  start z := z * 64
  maxCapacity _ := blocks * 16
  header_lt_block := Geometry.small.header_lt_block
  block_dvd_start z := ⟨z * 4, by omega⟩
  block_dvd_capacity _ := ⟨blocks, by omega⟩
  capacity_pos _ := by omega
  capacity_le _ := by omega
  disjoint y z _ _ h := by omega
  addressable z h := by omega

def fullDisk (blocks : ℕ) (hpos : 0 < blocks) (hle : blocks ≤ 4) : Disk where
  toGeometry := narrow blocks hpos hle
  wp z := z * 64 + 64
  content _ := 0
  readable _ := true
  wp_le _ _ := le_rfl

/-- A file that was written directly from the start of the device on. -/
def direct : ZoneFile := { ZoneFile.new 1 with extentStart := some 0 }

theorem fillsZone_direct (blocks : ℕ) {hpos : 0 < blocks} {hle : blocks ≤ 4} :
    FillsZone (fullDisk blocks hpos hle) 0 direct 0 where
  extentStart := rfl
  zone := rfl
  full := rfl
  start_le := Nat.zero_le _
  tiled := nofun

/-- A zone with the given number of blocks at address 64 that has been reset. -/
def logZone (blocks : ℕ) : MetaLog.LogZone :=
  ⟨64, blocks * 16, blocks * 16, 64, fun _ => 0⟩

theorem logZone_fresh (blocks : ℕ) : (logZone blocks).Fresh .small where
  aligned := ⟨4, rfl⟩
  wp := rfl
  capacity := rfl
  blank _ _ _ := rfl

theorem small_endsInBlock : MetaLog.Media.small.EndsInBlock .whole where
  fits := by decide
  whole h := (Option.some.inj h).symm

open MetaLog in
/-- A finished log with an end record, in a zone with a tail, and a file in a zone without one. -/
theorem fullZones_ended :
    ∃ zone', Media.small.addRecords .whole (logZone 3) [List.replicate 8 1] = some zone' ∧
      (Media.small.close .whole zone').capacity = 16 ∧
      Replays .small .whole ((Media.small.close .whole zone').reported 64 true) ∧
      RecoversBelow (fullDisk 4 (by decide) (by decide)) 64 direct fun _ => 0 := by
  obtain ⟨zone', hadd⟩ : ∃ zone', Media.small.addRecords .whole (logZone 3)
      [List.replicate 8 1] = some zone' := Option.isSome_iff_exists.mp (by decide +kernel)
  have hall : (Media.small.addRecords .whole (logZone 3) [List.replicate 8 1]).all
      (fun z => z.capacity ≠ 0 ∧ (Media.small.addRecord .whole z endRecord).1.ok = true ∧
        (Media.small.close .whole z).capacity = 16) = true := by
    decide +kernel
  rw [hadd] at hall
  obtain ⟨hleft, hended, hcap⟩ := of_decide_eq_true hall
  have hwell : EndsWell .small .whole 64 true [List.replicate 8 1] zone' :=
    .inr (by rw [if_neg hleft]; exact .inl hended)
  have hboth := (fullZones_iff .small .whole small_endsInBlock (by decide) (logZone_fresh 3)
    (by simp [Tagged]) hadd true (d := fullDisk 4 (by decide) (by decide)) (by decide)
    (fillsZone_direct 4) fun _ => 0).mpr ⟨hwell, .inl rfl⟩
  exact ⟨zone', hadd, hcap, hboth.1, hboth.2⟩

open MetaLog in
/-- With three of the four blocks usable, the log that fills them ends in an error, and the file
gets the block behind them. -/
theorem not_fullZones_narrow :
    ∃ zone', Media.small.addRecords .whole (logZone 3) [List.replicate 40 2] = some zone' ∧
      zone'.capacity = 0 ∧
      (Log.new (zone'.reportedFull 64)).replay .small .whole 2 =
        some (.Corruption "ZenFS: Metadata corruption") ∧
      ¬ Replays .small .whole (zone'.reportedFull 64) ∧
      ((recover (fullDisk 3 (by decide) (by decide)) 0 direct fun _ => 0).map
        fun r => (r.1, r.2.1.extents)) = some (.OK, [⟨0, 64, 0⟩]) ∧
      ¬ RecoversBelow (fullDisk 3 (by decide) (by decide)) 48 direct fun _ => 0 := by
  obtain ⟨zone', hadd⟩ : ∃ zone', Media.small.addRecords .whole (logZone 3)
      [List.replicate 40 2] = some zone' := Option.isSome_iff_exists.mp (by decide +kernel)
  have hall : (Media.small.addRecords .whole (logZone 3) [List.replicate 40 2]).all
      (fun z => z.capacity = 0 ∧ z.maxCapacity = 48 ∧
        (Log.new (z.reportedFull 64)).replay .small .whole 2 =
          some (.Corruption "ZenFS: Metadata corruption")) = true := by
    decide +kernel
  rw [hadd] at hall
  obtain ⟨hfull, hmax, hrun⟩ := of_decide_eq_true hall
  refine ⟨zone', hadd, hfull, hrun, ?_, by decide +kernel, ?_⟩
  · have hreported : zone'.reported 64 true = zone'.reportedFull 64 := if_pos (.inl hfull)
    rw [← hreported, replays_reported_iff (by decide) (logZone_fresh 3) (by simp [Tagged]) hadd
      (by decide), if_pos hfull, hmax]
    decide
  · have hiff : RecoversBelow (fullDisk 3 (by decide) (by decide)) 48 direct (fun _ => 0) ↔ _ :=
      recoversBelow_direct (fillsZone_direct 3) rfl
    rw [hiff]
    decide

end ZenFs.Recover
