import ZenFs.MetaLog.Model

/-!
Reading a metadata zone back.

The records that `AddRecord` accepted lie behind each other in whole blocks. The reader finds
header after header, since it rounds its position up the way the writer padded, and ends at the
write pointer. Neither goes through for a record of `2 ^ 31` bytes or more.
-/

namespace ZenFs.MetaLog

open Library.Coding Library.Medium List Option Nat Log

variable {content : ℕ → UInt8} {data : Bytes} {k left pos : ℕ} {rs : List Bytes} {z z' : LogZone}
variable {r : Bytes}

theorem rotate_rotate (c : UInt32) :
    (((c >>> 15) ||| (c <<< 17)) >>> 17) ||| (((c >>> 15) ||| (c <<< 17)) <<< 15) = c := by
  apply UInt32.eq_of_toBitVec_eq
  apply BitVec.eq_of_getLsbD_eq
  intro i hi
  have hover : c.toBitVec.getLsbD (15 + (17 + i)) = false :=
    BitVec.getLsbD_of_ge _ _ (by omega)
  by_cases hlow : i < 15
  · have hfit : 17 + i < 32 := by omega
    simp [hover, hlow, hfit, BitVec.getLsbD_eq_getElem hi]
  · have hback : 15 + (i - 15) = i := by omega
    have hfit : i - 15 < 17 := by omega
    have hlost : ¬ 17 + i < 32 := by omega
    simp [hover, hlow, hback, hfit, hi]

theorem unmask_mask (c : UInt32) : unmask (mask c) = c := by
  rw [unmask, mask]
  simp only [UInt32.add_sub_cancel]
  exact rotate_rotate c

variable {b : Backend} {s : Status}

theorem appendLoop_ok
    (hk : data.length ≤ k) (h : appendLoop b k z data = (s, z')) (hs : s.ok = true) :
    z' = { z with
      content := put z.content z.wp data
      wp := z.wp + data.length
      capacity := z.capacity - data.length } := by
  induction k generalizing z data with
  | zero =>
    have hnil : data = [] := eq_nil_of_length_eq_zero (by omega)
    subst hnil
    cases h
    simp
  | succ k ih =>
    rw [appendLoop] at h
    split at h
    case isTrue hempty =>
      have hnil := eq_nil_of_length_eq_zero hempty
      subst hnil
      cases h
      simp
    case isFalse hne =>
      cases hw : b.write z.wp data.length with
      | none =>
        rw [hw] at h
        cases h
        cases hs
      | some r =>
        rw [hw] at h
        obtain ⟨hpos, hle⟩ := b.write_some hw
        have hrest := ih (by rw [length_drop]; omega) h
        have htake : (data.take r).length = r := by rw [length_take]; omega
        have hput : put (put z.content z.wp (data.take r)) (z.wp + r) (data.drop r) =
            put z.content z.wp data := by
          conv_rhs => rw [← take_append_drop r data, put_append, htake]
        rw [hrest]
        simp only [hput, length_drop, LogZone.mk.injEq, true_and, and_true]
        omega

theorem readLoop_eq (content : ℕ → UInt8) (pos : ℕ) (hk : left ≤ k) (hleft : left < 2 ^ 31) :
    readLoop b content k pos left = (.OK, span content pos left, pos + left) := by
  induction k generalizing pos left with
  | zero =>
    obtain rfl : left = 0 := by omega
    rfl
  | succ k ih =>
    rw [readLoop]
    split
    case isTrue hzero =>
      subst hzero
      rfl
    case isFalse hne =>
      obtain ⟨r, hr⟩ := ne_none_iff_exists'.mp
        (b.read_succeeds pos left (by omega) hleft)
      obtain ⟨hpos, hle⟩ := b.read_some hr
      have hsum : r + (left - r) = left := by omega
      have hshort : left - r ≤ k := by omega
      have hrest := ih (pos + r) hshort (by omega)
      rw [hr]
      simp only [hrest, add_assoc, ← span_add, hsum]

theorem read_eq (b : Backend) {l : Log} {n : ℕ} (hwp : l.readPos < l.zone.wp)
    (hend : l.readPos + n ≤ l.zone.start + l.zone.maxCapacity) (hn : n < 2 ^ 31) :
    l.read b n = (.OK, span l.zone.content l.readPos n, { l with readPos := l.readPos + n }) := by
  rw [Log.read, if_neg (by omega), if_neg (by omega), readLoop_eq _ _ le_rfl hn]

theorem length_of_read {l l' : Log} {n : ℕ}
    (h : l.read b n = (s, data, l')) (hs : s.ok = true) : data.length < 2 ^ 31 := by
  rw [Log.read] at h
  split at h
  · cases h
    decide
  · split at h
    · cases h
      cases hs
    · by_cases hn : n < 2 ^ 31
      · rw [readLoop_eq _ _ le_rfl hn] at h
        cases h
        rwa [length_span]
      · obtain ⟨k, rfl⟩ : ∃ k, n = k + 1 := ⟨n - 1, by omega⟩
        rw [readLoop, b.read_negative _ _ (by omega)] at h
        cases h
        cases hs

namespace Media

variable (m : Media)

theorem padded_eq (n : ℕ) : m.padded n = n + padTo m.blockSize n :=
  ite_eq_add_padTo m.blockSize_pos n

theorem le_padded (n : ℕ) : n ≤ m.padded n := by
  rw [padded_eq]
  exact le_add_right _ _

theorem padded_lt (n : ℕ) : m.padded n < n + m.blockSize := by
  rw [padded_eq]
  exact Nat.add_lt_add_left (padTo_lt m.blockSize_pos n) n

theorem blockSize_dvd_padded (n : ℕ) : m.blockSize ∣ m.padded n := by
  rw [padded_eq]
  exact dvd_add_padTo m.blockSize_pos n

theorem padded_add (hpos : m.blockSize ∣ pos) (n : ℕ) :
    m.padded (pos + n) = pos + m.padded n := by
  have hmod : (pos + n) % m.blockSize = n % m.blockSize := by
    rw [add_mod, mod_eq_zero_of_dvd hpos, zero_add, mod_mod]
  rw [padded, padded, hmod]
  split <;> omega

def stored (r : Bytes) : Bytes := m.frame r r.length

theorem length_stored (r : Bytes) : (m.stored r).length = m.padded (r.length + headerSize) := by
  have hle := m.le_padded (r.length + headerSize)
  simp only [stored, frame, length_append, length_putFixed, length_replicate,
    headerSize] at hle ⊢
  omega

theorem length_stored_lt (hr : r.length < 2 ^ 31) : (m.stored r).length < 2 ^ 32 := by
  have hlt := m.padded_lt (r.length + headerSize)
  have hbs := m.blockSize_le
  rw [length_stored]
  simp only [headerSize] at hlt ⊢
  omega

theorem addRecord_ok
    (h : m.addRecord b z r = (s, z')) (hs : s.ok = true) (hr : r.length < 2 ^ 31) :
    (m.stored r).length ≤ z.capacity ∧
    z' = { z with
      content := put z.content z.wp (m.stored r)
      wp := z.wp + (m.stored r).length
      capacity := z.capacity - (m.stored r).length } := by
  have hlen := m.length_stored_lt hr
  have hmod : r.length % 2 ^ 32 = r.length := mod_eq_of_lt (by omega)
  have hsize : m.padded (r.length + headerSize) % 2 ^ 32 = (m.stored r).length := by
    rw [← length_stored, mod_eq_of_lt hlen]
  simp only [addRecord, hmod, hsize, take_length, LogZone.append] at h
  split at h
  case isTrue => cases h; cases hs
  case isFalse hcap =>
    change appendLoop b _ z ((m.stored r).take (m.stored r).length) = _ at h
    rw [take_length] at h
    exact ⟨by omega, appendLoop_ok le_rfl h hs⟩

def total (rs : List Bytes) : ℕ := (rs.map fun r => (m.stored r).length).sum

/-- The records lie behind each other from `pos` on. -/
def Laid (content : ℕ → UInt8) : ℕ → List Bytes → Prop
  | _, [] => True
  | pos, r :: rest =>
    span content pos (m.stored r).length = m.stored r ∧
      Laid content (pos + (m.stored r).length) rest

structure Written (z z' : LogZone) (rs : List Bytes) : Prop where
  start : z'.start = z.start
  maxCapacity : z'.maxCapacity = z.maxCapacity
  wp : z'.wp = z.wp + m.total rs
  capacity : z'.wp + z'.capacity = z.wp + z.capacity
  below : ∀ a < z.wp, z'.content a = z.content a
  laid : m.Laid z'.content z.wp rs

/-- By induction on the records: each is laid behind those before it. -/
theorem addRecords_written
    (hrs : ∀ r ∈ rs, r.length < 2 ^ 31) (h : m.addRecords b z rs = some z') :
    m.Written z z' rs := by
  induction rs generalizing z with
  | nil =>
    cases h
    exact ⟨rfl, rfl, rfl, rfl, fun _ _ => rfl, trivial⟩
  | cons r rs ih =>
    rw [addRecords] at h
    obtain ⟨s, z₁, hadd⟩ : ∃ s z₁, m.addRecord b z r = (s, z₁) := ⟨_, _, rfl⟩
    rw [hadd] at h
    dsimp only at h
    split at h
    case isFalse => cases h
    case isTrue hs =>
      obtain ⟨hcap, rfl⟩ := m.addRecord_ok hadd hs (hrs r (by simp))
      have hrest := ih (fun r' hr' => hrs r' (by simp [hr'])) h
      constructor
      · exact hrest.start
      · exact hrest.maxCapacity
      · rw [hrest.wp]
        simp only [total, map_cons, sum_cons]
        omega
      · rw [hrest.capacity]
        simp only
        omega
      · intro a ha
        rw [hrest.below a (Nat.lt_add_right _ ha)]
        exact put_of_lt _ _ ha
      · constructor
        · rw [span_congr fun a _ ha => hrest.below a ha]
          exact span_put_self _ _ _
        · exact hrest.laid

end Media

variable {m : Media}

theorem span_of_stored (h : span content pos (m.stored r).length = m.stored r) :
    span content pos Media.headerSize =
        putFixed 4 (mask (m.checksum r r.length)).toNat ++ putFixed 4 r.length ∧
      span content (pos + Media.headerSize) r.length = r := by
  have hle := m.le_padded (r.length + Media.headerSize)
  have hlen := m.length_stored r
  obtain ⟨pad, hpad⟩ : ∃ pad, (m.stored r).length = Media.headerSize + (r.length + pad) :=
    ⟨(m.stored r).length - (r.length + Media.headerSize), by omega⟩
  have hstored : m.stored r =
      (putFixed 4 (mask (m.checksum r r.length)).toNat ++ putFixed 4 r.length) ++
        (r ++ replicate (m.padded (r.length + Media.headerSize) -
          (r.length + Media.headerSize)) 0) := by
    rw [Media.stored, Media.frame, List.append_assoc]
  rw [hpad, span_add, span_add, hstored] at h
  obtain ⟨hhead, htail⟩ := append_inj h (by simp [Media.headerSize])
  exact ⟨hhead, (append_inj htail (by simp)).1⟩

theorem readRecord_stored {l : Log} (hr : r ≠ []) (hlen : r.length < 2 ^ 31)
    (hbs : m.blockSize ∣ l.readPos)
    (hcontent : span l.zone.content l.readPos (m.stored r).length = m.stored r)
    (hwp : l.readPos + (m.stored r).length ≤ l.zone.wp)
    (hend : l.readPos + (m.stored r).length ≤ l.zone.start + l.zone.maxCapacity) :
    l.readRecord m b = (.OK, r, { l with readPos := l.readPos + (m.stored r).length }) := by
  obtain ⟨hhead, hdata⟩ := span_of_stored hcontent
  have hpos : 0 < r.length := length_pos_iff.mpr hr
  have hle := m.le_padded (r.length + Media.headerSize)
  rw [← m.length_stored] at hle
  have hheader : l.read b Media.headerSize =
      (.OK, putFixed 4 (mask (m.checksum r r.length)).toNat ++ putFixed 4 r.length,
        { l with readPos := l.readPos + Media.headerSize }) := by
    rw [read_eq b (by omega) (by omega) (by decide), hhead]
  have hbody : ({ l with readPos := l.readPos + Media.headerSize } : Log).read b r.length =
      (.OK, r, { l with readPos := l.readPos + Media.headerSize + r.length }) := by
    rw [read_eq b (by dsimp only; omega) (by dsimp only; omega) hlen, hdata]
  have hcrc : fixedValue ((putFixed 4 (mask (m.checksum r r.length)).toNat ++
      putFixed 4 r.length).take 4) = (mask (m.checksum r r.length)).toNat := by
    rw [take_left' (length_putFixed 4 _), fixedValue_putFixed]
    exact mod_eq_of_lt (UInt32.toNat_lt _)
  have hsz : fixedValue ((putFixed 4 (mask (m.checksum r r.length)).toNat ++
      putFixed 4 r.length).drop 4) = r.length := by
    rw [drop_left' (length_putFixed 4 _), fixedValue_putFixed]
    exact mod_eq_of_lt (by omega)
  have hnext : m.padded (l.readPos + Media.headerSize + r.length) =
      l.readPos + (m.stored r).length := by
    rw [add_assoc, m.padded_add hbs, m.length_stored, add_comm Media.headerSize]
  simp only [readRecord, hheader, hcrc, hsz, hbody, UInt32.ofNat_toNat, unmask_mask,
    ne_eq, hnext]
  rfl

def Log.skip (l : Log) (n : ℕ) : Log := { l with readPos := l.readPos + n }

/-- The records lie ahead of the read position, below the write pointer and the capacity. -/
structure Ahead (m : Media) (l : Log) (rs : List Bytes) : Prop where
  aligned : m.blockSize ∣ l.readPos
  laid : m.Laid l.zone.content l.readPos rs
  wp : l.readPos + m.total rs ≤ l.zone.wp
  cap : l.readPos + m.total rs ≤ l.zone.start + l.zone.maxCapacity

theorem Ahead.read {l : Log} (h : Ahead m l (r :: rs)) (hr : r ≠ []) (hlen : r.length < 2 ^ 31) :
    l.readRecord m b = (.OK, r, l.skip (m.stored r).length) ∧
      Ahead m (l.skip (m.stored r).length) rs := by
  obtain ⟨hbs, ⟨hfirst, hrest⟩, hwp, hcap⟩ := h
  have htotal : m.total (r :: rs) = (m.stored r).length + m.total rs := rfl
  have hbs' : m.blockSize ∣ l.readPos + (m.stored r).length := by
    rw [m.length_stored]
    exact Nat.dvd_add hbs (m.blockSize_dvd_padded _)
  refine ⟨readRecord_stored hr hlen hbs hfirst (by omega) (by omega), hbs', hrest, ?_, ?_⟩
  · simp only [skip]
    omega
  · simp only [skip]
    omega

/-- The reader returns the records in order, and then an empty one. -/
theorem readRecords_laid (hne : ∀ r ∈ rs, r ≠ [])
    (hlen : ∀ r ∈ rs, r.length < 2 ^ 31) {l : Log} (h : Ahead m l rs)
    (hwp : l.readPos + m.total rs = l.zone.wp) :
    l.readRecords m b (rs.length + 1) = rs.map (fun r => (.OK, r)) ++ [(.OK, [])] := by
  induction rs generalizing l with
  | nil =>
    have heof : l.readPos ≥ l.zone.wp := by
      simp only [Media.total, map_nil, sum_nil] at hwp
      omega
    simp [Log.readRecords, readRecord, Log.read, if_pos heof]
  | cons r rs ih =>
    obtain ⟨hread, hrest⟩ := h.read (b := b) (hne r (by simp)) (hlen r (by simp))
    have hagain := ih (fun r' hr' => hne r' (by simp [hr'])) (fun r' hr' => hlen r' (by simp [hr']))
      hrest ((add_assoc ..).trans hwp)
    rw [length_cons, Log.readRecords, hread]
    dsimp only
    rw [hagain]
    rfl

theorem length_of_readRecord {l l' : Log}
    (h : l.readRecord m b = (s, r, l')) (hs : s.ok = true) : r.length < 2 ^ 31 := by
  rw [readRecord] at h
  split at h
  split at h
  · cases h
    decide
  · split at h
    · cases h
      decide
    · dsimp only at h
      split at h
      case isTrue hbad =>
        obtain ⟨rfl, -⟩ := Prod.ext_iff.mp h
        rw [hs] at hbad
        cases hbad
      case isFalse hok =>
        rw [Bool.not_eq_true, Bool.not_eq_false'] at hok
        have hlen := length_of_read rfl hok
        split at h
        · cases h
          cases hs
        · cases h
          exact hlen

theorem length_of_mem_readRecords {l : Log}
    (h : (Status.OK, r) ∈ l.readRecords m b k) : r.length < 2 ^ 31 := by
  induction k generalizing l with
  | zero => cases h
  | succ k ih =>
    rcases mem_cons.mp h with hfirst | hrest
    · obtain ⟨hs, hr⟩ := Prod.ext_iff.mp hfirst
      have hread : l.readRecord m b = (.OK, r, (l.readRecord m b).2.2) := by
        rw [Prod.ext_iff, Prod.ext_iff]
        exact ⟨hs.symm, hr.symm, rfl⟩
      exact length_of_readRecord hread rfl
    · exact ih hrest

theorem Media.Written.ahead (hw : m.Written z z' rs) (hbs : m.blockSize ∣ z.start)
    (hwp : z.wp = z.start) (hcap : z.capacity = z.maxCapacity) : Ahead m (Log.new z') rs := by
  obtain ⟨hstart, hmax, htotal, hsum, -, hlaid⟩ := hw
  refine ⟨?_, ?_, ?_, ?_⟩
  · show m.blockSize ∣ z'.start
    rwa [hstart]
  · show m.Laid z'.content z'.start rs
    rwa [hstart, ← hwp]
  · show z'.start + m.total rs ≤ z'.wp
    omega
  · show z'.start + m.total rs ≤ z'.start + z'.maxCapacity
    omega

/-- The records that a fresh zone accepted are read back in order, and then the end, if and only
if each has less than `2 ^ 31` bytes. -/
theorem readRecords_iff (m : Media) (b : Backend) {z z' : LogZone} (hbs : m.blockSize ∣ z.start)
    (hwp : z.wp = z.start) (hcap : z.capacity = z.maxCapacity) {rs : List Bytes}
    (hne : ∀ r ∈ rs, r ≠ []) (hadd : m.addRecords b z rs = some z') :
    (Log.new z').readRecords m b (rs.length + 1) = rs.map (fun r => (.OK, r)) ++ [(.OK, [])] ↔
      ∀ r ∈ rs, r.length < 2 ^ 31 := by
  constructor
  · intro hread r hr
    apply length_of_mem_readRecords
    rw [hread]
    exact mem_append_left _ (mem_map.mpr ⟨r, hr, rfl⟩)
  · intro hlen
    have hw := m.addRecords_written hlen hadd
    exact readRecords_laid hne hlen (hw.ahead hbs hwp hcap) (by simp [Log.new, hw.start, hw.wp, hwp])

def Backend.whole : Backend where
  write _ left := if left = 0 then none else some left
  read _ left := if left = 0 ∨ 2 ^ 31 ≤ left then none else some left
  write_some h := by
    split at h
    · cases h
    · cases h
      omega
  read_some h := by
    split at h
    · cases h
    · cases h
      omega
  read_succeeds _ left hpos hlt := by
    rw [if_neg (by omega)]
    exact Option.some_ne_none left
  read_negative _ left hle := if_pos (.inr hle)

/-- Blocks of sixteen bytes, and the number of bytes as checksum. -/
def Media.small : Media where
  blockSize := 16
  extend crc data := crc + UInt32.ofNat data.length
  blockSize_pos := by decide
  blockSize_le := by decide

/-- A zone of four blocks at address 64 that has been reset. -/
def LogZone.small : LogZone := ⟨64, 64, 64, 64, fun _ => 255⟩

/-- Two records that fill the zone to its end. -/
theorem readRecords_iff_full :
    ∃ z', Media.small.addRecords .whole .small [[1, 2], List.replicate 40 7] = some z' ∧
      z'.wp = z'.start + z'.maxCapacity ∧
      (Log.new z').readRecords .small .whole 3 =
        [(.OK, [1, 2]), (.OK, List.replicate 40 7), (.OK, [])] := by
  obtain ⟨z', hz⟩ : ∃ z', Media.small.addRecords .whole .small [[1, 2], replicate 40 7] =
      some z' := isSome_iff_exists.mp (by decide +kernel)
  have hfull : z'.wp = z'.start + z'.maxCapacity := by
    have : (Media.small.addRecords .whole .small [[1, 2], replicate 40 7]).all
        (fun z => z.wp = z.start + z.maxCapacity) = true := by decide +kernel
    rw [hz] at this
    simpa using this
  exact ⟨z', hz, hfull, (readRecords_iff .small .whole (by decide) rfl rfl (by decide) hz).mpr
    (by decide)⟩

/-- A record of `2 ^ 32` bytes is stored as one without bytes. -/
theorem readRecords_of_zero_length (hr : r.length = 2 ^ 32) :
    ∃ z', Media.small.addRecords .whole .small [r] = some z' ∧
      (Log.new z').readRecords .small .whole 2 = [(.OK, []), (.OK, [])] := by
  have hadd : ∀ z, Media.small.addRecord .whole z r = Media.small.addRecord .whole z [] := by
    intro z
    rw [Media.addRecord, hr]
    rfl
  have hsame : Media.small.addRecords .whole .small [r] =
      Media.small.addRecords .whole .small [[]] := by
    rw [Media.addRecords, Media.addRecords, hadd]
  rw [hsame]
  obtain ⟨z', hz⟩ : ∃ z', Media.small.addRecords .whole .small [[]] = some z' :=
    isSome_iff_exists.mp (by decide +kernel)
  refine ⟨z', hz, ?_⟩
  have hread : (Media.small.addRecords .whole .small [[]]).map
      (fun z => (Log.new z).readRecords .small .whole 2) = some [(.OK, []), (.OK, [])] := by
    decide +kernel
  rw [hz] at hread
  exact some.inj hread

theorem readRecords_replicate :
    ∃ z', Media.small.addRecords .whole .small [List.replicate (2 ^ 32) 7] = some z' ∧
      (Log.new z').readRecords .small .whole 2 = [(.OK, []), (.OK, [])] :=
  readRecords_of_zero_length length_replicate

end ZenFs.MetaLog
