import ZenFs.MetaLog.Framing

/-!
Reading the log from a backend that may return fewer bytes than it is asked for, or none.

`ZonedBlockDevice::Read` gives up when the backend returns 0, but `ZenMetaLog::Read` asks again for
what is missing.
-/

namespace ZenFs.MetaLog

open Library.Coding Library.Medium Option Log

/-- What a read of the backend returns, `none` for a failure. -/
structure ShortReads where
  read : ℕ → ℕ → Option ℕ
  read_le : ∀ {pos left r}, read pos left = some r → r ≤ left

/-- `ZonedBlockDevice::Read`, in at most `k` calls of the backend; each but the last returns some
byte. -/
def ShortReads.zbdRead (b : ShortReads) : ℕ → ℕ → ℕ → Option ℕ
  | 0, _, _ => some 0
  | k + 1, pos, left =>
    if left = 0 then some 0
    else
      match b.read pos left with
      | none => none
      | some 0 => some 0
      | some (r + 1) => (zbdRead b k (pos + (r + 1)) (left - (r + 1))).map (r + 1 + ·)

/-- The loop of `ZenMetaLog::Read`, if it ends within `k` rounds. -/
def readRounds (b : ShortReads) (content : ℕ → UInt8) : ℕ → ℕ → ℕ → Option (Status × Bytes × ℕ)
  | 0, _, _ => none
  | k + 1, pos, left =>
    if left = 0 then some (.OK, [], pos)
    else
      match b.zbdRead left pos left with
      | none => some (.IOError "Read failed", [], pos)
      | some r =>
        (readRounds b content k (pos + r) (left - r)).map fun (s, data, pos') =>
          (s, span content pos r ++ data, pos')

/-- `ZenMetaLog::Read`, if its loop ends within `k` rounds. -/
def Log.readWithin (b : ShortReads) (k : ℕ) (l : Log) (n : ℕ) : Option (Status × Bytes × Log) :=
  if l.readPos ≥ l.zone.wp then some (.OK, [], l)
  else if l.readPos + n > l.zone.start + l.zone.maxCapacity then
    some (.IOError "Read across zone", [], l)
  else
    (readRounds b l.zone.content k l.readPos n).map fun (s, data, pos) =>
      (s, data, { l with readPos := pos })

/-- `ZenMetaLog::ReadRecord`, if its loops end within `k` rounds. -/
def Log.readRecordWithin (m : Media) (b : ShortReads) (k : ℕ) (l : Log) :
    Option (Status × Bytes × Log) :=
  match l.readWithin b k Media.headerSize with
  | none => none
  | some (s, header, l) =>
    if !s.ok then some (s, [], l)
    else if header.length = 0 then some (.OK, [], l)
    else
      let recordSz := fixedValue (header.drop 4)
      match l.readWithin b k recordSz with
      | none => none
      | some (s, record, l) =>
        if !s.ok then some (s, record, l)
        else if m.checksum record recordSz ≠ unmask (UInt32.ofNat (fixedValue (header.take 4))) then
          some (.IOError "Not a valid record", record, l)
        else some (.OK, record, { l with readPos := m.padded l.readPos })

/-- The loop of `RecoverFrom`, if it ends within `j` records; `goesOn` says which records do not end
it. -/
def Log.recoverWithin (m : Media) (b : ShortReads) (goesOn : Bytes → Bool) (k : ℕ) : ℕ → Log → Option Unit
  | 0, _ => none
  | j + 1, l =>
    match l.readRecordWithin m b k with
    | none => none
    | some (s, record, l) =>
      if s.ok && goesOn record then recoverWithin m b goesOn k j l else some ()

/-- A read of `n` bytes fails or returns all of them. -/
def ShortReads.Complete (b : ShortReads) (pos n : ℕ) : Prop := ∀ r, b.zbdRead n pos n = some r → r = n

variable {b : ShortReads} {content : ℕ → UInt8} {k pos left n r : ℕ}

theorem read_of_zbdRead (h : b.zbdRead k pos left = some r) (hk : left ≤ k) :
    r = left ∨ r < left ∧ b.read (pos + r) (left - r) = some 0 := by
  induction k generalizing pos left r with
  | zero =>
    cases h
    omega
  | succ k ih =>
    rw [ShortReads.zbdRead] at h
    split at h
    · cases h
      omega
    split at h
    · cases h
    · next hread =>
      cases h
      exact .inr ⟨by omega, hread⟩
    · next q hread =>
      obtain ⟨p, hp, rfl⟩ := map_eq_some_iff.mp h
      have hle := b.read_le hread
      rw [← Nat.add_assoc, ← Nat.sub_sub]
      exact (ih hp (by omega)).imp (by omega) fun ⟨hlt, hzero⟩ => ⟨by omega, hzero⟩

theorem readRounds_eq_none (hleft : 0 < left) (hread : b.read pos left = some 0) (k : ℕ) :
    readRounds b content k pos left = none := by
  have hzero : b.zbdRead left pos left = some 0 := by
    obtain ⟨n, rfl⟩ := Nat.exists_eq_add_one.mpr hleft
    rw [ShortReads.zbdRead, if_neg (by omega), hread]
  induction k with
  | zero => rfl
  | succ k ih =>
    rw [readRounds, if_neg hleft.ne', hzero]
    exact map_eq_none_iff.mpr ih

theorem isSome_readRounds_iff :
    (readRounds b content (k + 2) pos left).isSome ↔ b.Complete pos left := by
  constructor
  · intro hk r hr
    obtain h | ⟨hlt, hzero⟩ := read_of_zbdRead hr le_rfl
    · exact h
    · rw [readRounds, if_neg (by omega), hr] at hk
      simp [readRounds_eq_none (by omega) hzero] at hk
  · intro h
    rw [readRounds]
    split
    · rfl
    split
    · rfl
    · next r hr => simp [h r hr, readRounds]

variable {l t : Log} {m : Media} {s : Status} {data : Bytes} {b' : Backend}

/-- `b'` is the device that `b` makes of the backend, and it has no reads of 0 bytes. -/
def ShortReads.Delivers (b : ShortReads) (b' : Backend) : Prop :=
  ∀ pos n, 0 < n → b.zbdRead n pos n = b'.read pos n

theorem readRounds_eq_readLoop (h : b.Delivers b') (pos n : ℕ) :
    readRounds b content (k + 2) pos n = some (readLoop b' content n pos n) := by
  cases n with
  | zero => rfl
  | succ n =>
    rw [readRounds, readLoop, if_neg n.succ_ne_zero, if_neg n.succ_ne_zero, h pos _ n.succ_pos]
    cases hread : b'.read pos (n + 1) with
    | none => rfl
    | some r =>
      -- a shorter read would be followed by one of 0 bytes
      obtain rfl : r = n + 1 := by
        obtain heq | ⟨hlt, hzero⟩ := read_of_zbdRead ((h pos _ n.succ_pos).trans hread) le_rfl
        · exact heq
        · have hrest := h (pos + r) (n + 1 - r) (by omega)
          obtain ⟨left, hleft⟩ := Nat.exists_eq_add_one.mpr (by omega : 0 < n + 1 - r)
          rw [hleft] at hzero hrest
          rw [ShortReads.zbdRead, if_neg (by omega), hzero] at hrest
          exact absurd (b'.read_some hrest.symm).1 (lt_irrefl 0)
      cases n <;> simp [readRounds, readLoop]

theorem readWithin_eq_read (h : b.Delivers b') (l : Log) (n : ℕ) :
    l.readWithin b (k + 2) n = some (l.read b' n) := by
  unfold readWithin Log.read
  rw [readRounds_eq_readLoop h]
  split_ifs <;> rfl

/-- On a device without reads of 0 bytes the loops end, with what `readRecord` returns. -/
theorem readRecordWithin_eq_readRecord (h : b.Delivers b') (l : Log) :
    l.readRecordWithin m b (k + 2) = some (l.readRecord m b') := by
  simp only [readRecordWithin, readRecord, readWithin_eq_read h]
  split_ifs <;> rfl

/-- What a call of `Read` asks the device for, if anything, is served. -/
def Log.Served (b : ShortReads) (l : Log) (n : ℕ) : Prop :=
  l.readPos < l.zone.wp → l.readPos + n ≤ l.zone.start + l.zone.maxCapacity → b.Complete l.readPos n

theorem isSome_readWithin_iff : (l.readWithin b (k + 2) n).isSome ↔ l.Served b n := by
  unfold readWithin Log.Served
  split
  · exact iff_of_true rfl (by omega)
  split
  · exact iff_of_true rfl (by omega)
  · rw [isSome_map, isSome_readRounds_iff]
    exact ⟨fun h _ _ => h, fun h => h (by omega) (by omega)⟩

def Log.RecordServed (b : ShortReads) (k : ℕ) (l : Log) : Prop :=
  l.Served b Media.headerSize ∧ ∀ s header t, l.readWithin b k Media.headerSize = some (s, header, t) →
    s.ok = true → header ≠ [] → t.Served b (fixedValue (header.drop 4))

/-- A record is read to an end exactly if its requests are served. -/
theorem isSome_readRecordWithin_iff :
    (l.readRecordWithin m b (k + 2)).isSome ↔ l.RecordServed b (k + 2) := by
  unfold readRecordWithin Log.RecordServed
  rw [← isSome_readWithin_iff (k := k)]
  cases hheader : l.readWithin b (k + 2) Media.headerSize with
  | none => simp
  | some x =>
    obtain ⟨s, header, t⟩ := x
    dsimp only
    split
    · next hs =>
      refine iff_of_true rfl ⟨rfl, ?_⟩
      rintro _ _ _ ⟨⟩ hok
      rw [hok] at hs
      cases hs
    split
    · next hlen =>
      refine iff_of_true rfl ⟨rfl, ?_⟩
      rintro _ _ _ ⟨⟩ - hne
      exact absurd (List.length_eq_zero_iff.mp hlen) hne
    · next hs hne =>
      have hread : (t.readWithin b (k + 2) (fixedValue (header.drop 4))).isSome ↔
          t.Served b (fixedValue (header.drop 4)) := isSome_readWithin_iff
      constructor
      · intro h
        refine ⟨rfl, ?_⟩
        rintro _ _ _ ⟨⟩ - -
        apply hread.mp
        cases hrecord : t.readWithin b (k + 2) (fixedValue (header.drop 4)) with
        | none => simp [hrecord] at h
        | some x => rfl
      · rintro ⟨-, h⟩
        obtain ⟨x, hx⟩ := isSome_iff_exists.mp
          (hread.mpr (h s header t rfl (by simpa using hs) fun h => hne (by rw [h]; rfl)))
        rw [hx]
        dsimp only
        split
        · rfl
        · split <;> rfl

theorem readRounds_pos {x : Status × Bytes × ℕ} (h : readRounds b content k pos left = some x) :
    (x.1 = .OK ∨ ∃ msg, x.1 = .IOError msg) ∧ x.2.2 = pos + x.2.1.length := by
  induction k generalizing pos left x with
  | zero => cases h
  | succ k ih =>
    rw [readRounds] at h
    split at h
    · cases h
      exact ⟨.inl rfl, rfl⟩
    split at h
    · cases h
      exact ⟨.inr ⟨_, rfl⟩, rfl⟩
    · obtain ⟨y, hy, rfl⟩ := map_eq_some_iff.mp h
      obtain ⟨hs, hpos⟩ := ih hy
      exact ⟨hs, by simp [hpos, Nat.add_assoc]⟩

theorem readWithin_pos (h : l.readWithin b k n = some (s, data, t)) :
    (s = .OK ∨ ∃ msg, s = .IOError msg) ∧ t.zone = l.zone ∧ t.readPos = l.readPos + data.length ∧
      (data ≠ [] → l.readPos < l.zone.wp) := by
  unfold readWithin at h
  split at h
  · cases h
    exact ⟨.inl rfl, rfl, rfl, fun h => absurd rfl h⟩
  split at h
  · cases h
    exact ⟨.inr ⟨_, rfl⟩, rfl, rfl, fun h => absurd rfl h⟩
  · obtain ⟨x, hx, hxs⟩ := map_eq_some_iff.mp h
    cases hxs
    obtain ⟨hs, hpos⟩ := readRounds_pos hx
    exact ⟨hs, rfl, hpos, fun _ => by omega⟩

theorem readRecordWithin_pos (h : l.readRecordWithin m b k = some (s, data, t)) :
    (s = .OK ∨ ∃ msg, s = .IOError msg) ∧ t.zone = l.zone ∧
      (s = .OK → data ≠ [] → l.readPos < l.zone.wp ∧ l.readPos < t.readPos) := by
  unfold readRecordWithin at h
  split at h
  · cases h
  next s' header l' hheader =>
  obtain ⟨hs, hzone, hpos, hwp⟩ := readWithin_pos hheader
  split at h
  · cases h
    exact ⟨hs, hzone, fun _ h => absurd rfl h⟩
  split at h
  · cases h
    exact ⟨.inl rfl, hzone, fun _ h => absurd rfl h⟩
  next hne =>
  have hlt : l.readPos < l'.readPos := by omega
  have hwp := hwp fun h => hne (by rw [h]; rfl)
  dsimp only at h
  split at h
  · cases h
  next hrecord =>
  obtain ⟨hs', hzone', hpos', -⟩ := readWithin_pos hrecord
  split at h
  · cases h
    exact ⟨hs', hzone'.trans hzone, fun _ _ => ⟨hwp, by omega⟩⟩
  split at h
  · cases h
    exact ⟨.inr ⟨_, rfl⟩, hzone'.trans hzone, fun _ _ => ⟨hwp, by omega⟩⟩
  · cases h
    refine ⟨.inl rfl, hzone'.trans hzone, fun _ _ => ⟨hwp, lt_of_lt_of_le ?_ (m.le_padded _)⟩⟩
    omega

/-- The replay reads a record that does not end it, and goes on behind it. -/
def Log.GoesOn (m : Media) (b : ShortReads) (goesOn : Bytes → Bool) (k : ℕ) (l t : Log) : Prop :=
  ∃ s record, l.readRecordWithin m b k = some (s, record, t) ∧ s.ok = true ∧ goesOn record = true

def Log.ReplayServed (m : Media) (b : ShortReads) (goesOn : Bytes → Bool) (k : ℕ) (l : Log) :
    Prop :=
  ∀ t, Relation.ReflTransGen (Log.GoesOn m b goesOn k) l t → t.RecordServed b k

variable {goesOn : Bytes → Bool}

/-- The position moves on with every record, so the bytes that are left bound the records. -/
theorem Log.GoesOn.lt_readPos (hempty : goesOn [] = false) (h : l.GoesOn m b goesOn k t) :
    t.zone = l.zone ∧ l.readPos < l.zone.wp ∧ l.readPos < t.readPos := by
  obtain ⟨s, record, hread, hok, hgo⟩ := h
  obtain ⟨rfl | ⟨msg, rfl⟩, hzone, hpos⟩ := readRecordWithin_pos hread
  · have hne : record ≠ [] := by
      rintro rfl
      rw [hempty] at hgo
      cases hgo
    exact ⟨hzone, hpos rfl hne⟩
  · cases hok

/-- The replay ends, after at most as many records as bytes are left, exactly if every record that
it comes to is served. -/
theorem isSome_recoverWithin_iff (hempty : goesOn [] = false) {j : ℕ}
    (hj : l.zone.wp - l.readPos < j) :
    (l.recoverWithin m b goesOn (k + 2) j).isSome ↔ l.ReplayServed m b goesOn (k + 2) := by
  induction j generalizing l with
  | zero => omega
  | succ j ih =>
    rw [recoverWithin]
    cases hread : l.readRecordWithin m b (k + 2) with
    | none =>
      have hnot : ¬ l.RecordServed b (k + 2) := by
        rw [← isSome_readRecordWithin_iff (m := m), hread]
        simp
      exact iff_of_false (by simp) fun h => hnot (h l .refl)
    | some x =>
      obtain ⟨s, record, t⟩ := x
      have hserved : l.RecordServed b (k + 2) := by
        rw [← isSome_readRecordWithin_iff (m := m), hread]
        rfl
      dsimp only
      split
      · next hgo =>
        rw [Bool.and_eq_true] at hgo
        have hnext : l.GoesOn m b goesOn (k + 2) t := ⟨s, record, hread, hgo⟩
        obtain ⟨hzone, hwp, hpos⟩ := hnext.lt_readPos hempty
        rw [ih (by rw [hzone]; omega)]
        constructor
        · intro h u hu
          obtain rfl | ⟨v, ⟨_, _, hv, -⟩, hrest⟩ := hu.cases_head
          · exact hserved
          · cases hread.symm.trans hv
            exact h u hrest
        · exact fun h u hu => h u (.head hnext hu)
      · next hstop =>
        refine iff_of_true rfl fun u hu => ?_
        obtain rfl | ⟨v, ⟨_, _, hv, hgo⟩, -⟩ := hu.cases_head
        · exact hserved
        · cases hread.symm.trans hv
          exact absurd (by rw [hgo.1, hgo.2]; rfl) hstop

/-- Reading a record ends, in two rounds for each request or never, exactly if the requests are
served. It ends with OK or an error, and a record that is read moves the position on. So the
recovery ends exactly if no request that it makes is cut short. -/
theorem log_reading_ends_iff (m : Media) (b : ShortReads) (k : ℕ) (l : Log) :
    ((l.readRecordWithin m b (k + 2)).isSome ↔ l.RecordServed b (k + 2)) ∧
    (∀ s record t, l.readRecordWithin m b (k + 2) = some (s, record, t) →
      (s = .OK ∨ ∃ msg, s = .IOError msg) ∧ (s = .OK → record ≠ [] → l.readPos < t.readPos)) ∧
    ∀ goesOn, goesOn [] = false →
      ((l.recoverWithin m b goesOn (k + 2) (l.zone.wp - l.readPos + 1)).isSome ↔
        l.ReplayServed m b goesOn (k + 2)) := by
  refine ⟨isSome_readRecordWithin_iff, fun s record t h => ?_, fun goesOn hempty => ?_⟩
  · obtain ⟨hs, -, hpos⟩ := readRecordWithin_pos h
    exact ⟨hs, fun hok hne => (hpos hok hne).2⟩
  · exact isSome_recoverWithin_iff hempty (Nat.lt_succ_self _)

/-- A device with a block of data of which only four bytes can be read. -/
theorem log_reading_stuck : ¬ ∃ k, ((Log.new ⟨0, 4096, 0, 4096, fun _ => 0⟩).readRecordWithin
    ⟨4096, fun _ _ => 0, by decide, by decide⟩ ⟨fun pos left => some (min left (4 - pos)), by grind⟩ k).isSome := by
  rintro ⟨_ | _ | k, hk⟩
  · cases hk
  · cases hk
  · exact absurd ((isSome_readRecordWithin_iff.mp hk).1 (by decide) (by decide) 4 rfl) (by decide)

end ZenFs.MetaLog
