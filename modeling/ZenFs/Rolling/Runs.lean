import ZenFs.Namespace.Restored
import ZenFs.Rolling.Rolls

/-!
The metadata zones over whole runs: records, rolls, mounts, crashes and failed rolls.
-/

namespace ZenFs.Rolling

open Library List Option

variable {acked rs' tried : List Record} {c : Catalog} {f : Faults}
variable {img : FileImage} {imgs : List FileImage} {r : Record} {readonly up : Bool}
variable {repair : Catalog → Status × Catalog} {seq : ℕ} {st : Status}
variable {L : Layout} {s t : System}
variable {rs : List Record} {d : MetaState}

def replaysTo (L : Layout) (rs : List Record) : Bool :=
  match Catalog.replay L.toGeometry rs false .empty with
  | .ok (seen, _) => seen
  | .error _ => false

theorem replaysTo_iff : replaysTo L rs = true ↔ Replays L rs := by
  unfold replaysTo Replays
  split
  · next seen c h =>
    rw [h]
    constructor
    · rintro rfl
      exact ⟨c, rfl⟩
    · rintro ⟨d, hd⟩
      exact congrArg Prod.fst (Except.ok.inj hd)
  · next st h =>
    rw [h]
    constructor
    · intro hf
      cases hf
    · rintro ⟨c, hc⟩
      cases hc

instance (L : Layout) (rs : List Record) : Decidable (Replays L rs) :=
  decidable_of_iff _ replaysTo_iff

instance (L : Layout) (c : Catalog) : Decidable (SnapshotFits L c) :=
  inferInstanceAs (Decidable (_ ∧ _))

/-- No zone has the last sequence number. -/
def SeqsLeft (L : Layout) (s : MetaState) : Prop :=
  ∀ z < L.metaZones, ∀ p ∈ superblockOf s.zones z, p.1 + 1 < 2 ^ 32

instance (L : Layout) (s : MetaState) : Decidable (SeqsLeft L s) :=
  inferInstanceAs (Decidable (∀ _ < _, ∀ _ ∈ _, _))

def MetaState.durable (L : Layout) (s : MetaState) : Catalog :=
  (recoverFrom L s.latest (s.zones s.latest) .empty).2

/-- What is assumed of the records and of the files: an operation persists a record of a
file or of a deletion, which replays after those of the latest zone, the snapshot that a roll
writes replays, the files can be repaired, and there are sequence numbers left. -/
def Legal (L : Layout) (s : System) : Action → Prop
  | .persist c r _ _ => SeqsLeft L s.disk ∧ r.isSnapshot = false ∧ r ≠ .endRecord ∧
      (s.disk.Fits L r → Replays L ((s.disk.zones s.disk.latest).records ++ [r])) ∧
      (¬ s.disk.Fits L r → Replays L [c.encodeSnapshotTo])
  | .mount readonly repair _ _ => SeqsLeft L s.disk ∧ (readonly = false →
      (repair (s.disk.durable L)).1.ok = true ∧
      Replays L [(repair (s.disk.durable L)).2.encodeSnapshotTo])
  | .stop => True

instance (L : Layout) (s : System) : (a : Action) → Decidable (Legal L s a)
  | .persist _ _ _ _ => inferInstanceAs (Decidable (_ ∧ _))
  | .mount _ _ _ _ => inferInstanceAs (Decidable (_ ∧ _))
  | .stop => isTrue trivial

/-- The snapshot of every roll fits behind the superblock, records are shorter than `2 ^ 32`
bytes, and a zone is filled to its last byte only where the device reports the write
pointer of a full zone there. -/
def Roomy (L : Layout) (s : System) : Action → Prop
  | .persist c r _ _ => recordLength r < 2 ^ 32 ∧
      (s.disk.Fits L r → L.Readable s.disk.current
        (L.used (s.disk.zones s.disk.current) + L.size (.record r))) ∧
      (¬ s.disk.Fits L r → SnapshotFits L c)
  | .mount readonly repair _ _ => readonly = false →
      SnapshotFits L (repair (s.disk.durable L)).2
  | .stop => True

instance (L : Layout) (s : System) : (a : Action) → Decidable (Roomy L s a)
  | .persist _ _ _ _ => inferInstanceAs (Decidable (_ ∧ _))
  | .mount _ _ _ _ => inferInstanceAs (Decidable (_ → _))
  | .stop => isTrue trivial

def Action.faults : Action → Faults
  | .persist _ _ f _ => f
  | .mount _ _ f _ => f
  | .stop => .none

def Action.crash : Action → Option ℕ
  | .persist _ _ _ crash => crash
  | .mount _ _ _ crash => crash
  | .stop => none

theorem Recoverable.durable_eq (h : Recoverable L d.zones d.latest seq rs) :
    Catalog.replay L.toGeometry rs false .empty = .ok (true, d.durable L) := by
  obtain ⟨c, hc⟩ := h.complete.replays
  rw [hc, MetaState.durable, h.complete.recoverFrom_eq hc]

theorem Recoverable.seq_lt
    (h : Recoverable L d.zones d.latest seq rs) (hs : SeqsLeft L d) : seq + 1 < 2 ^ 32 := by
  have hsb := superblockOf_eq_some (p := (seq, d.latest)).mpr ⟨rfl, _, h.complete.content⟩
  exact hs d.latest h.lt (seq, d.latest) hsb

theorem Live.setCat (h : Live L d rs) (c : Catalog) :
    Live L (d.setCat c) rs := ⟨h.recoverable, h.current, h.busy⟩

theorem encodeSnapshotTo_metadataSynced (c : Catalog) :
    c.metadataSynced.encodeSnapshotTo = c.encodeSnapshotTo := by
  unfold Catalog.encodeSnapshotTo
  congr 1
  apply filterMap_congr
  intro p hp
  have hn : c.Named p.2 := ⟨p, hp, rfl⟩
  simp only [Catalog.metadataSynced, if_pos hn, Option.map_map]
  rfl

theorem mkfs_recoverable (h : L.Readable 0 (L.used (mkfs.zones 0))) :
    Recoverable L mkfs.zones 0 1 [Catalog.empty.encodeSnapshotTo] where
  lt := by
    have := L.two_le_metaZones
    omega
  complete := ⟨rfl, ⟨_, rfl⟩, .inr (L.wp_le_used h rfl)⟩
  others z _ hz := .empty (by simp [mkfs, hz, MetaZone.empty])

theorem persist_settles {crash : Option ℕ} (hs : Live L s.disk rs)
    (hlegal : Legal L s (.persist c r f crash)) (hroomy : Roomy L s (.persist c r f crash))
    (hsb : f.superblock = none) (hsn : f.snapshot = none) :
    Settles (Safe L f) (persistRecord L f r) (s.disk.setCat c) fun st t =>
      (st = .OK ∧ Live L t (if s.disk.Fits L r then rs ++ [r] else [c.encodeSnapshotTo])) ∨
      (st.ok = false ∧ t = s.disk.setCat c ∧ f ≠ .none) := by
  obtain ⟨hseqs, -, -, happ, hsnap⟩ := hlegal
  obtain ⟨-, hread, hfits⟩ := hroomy
  rw [hs.recoverable.complete.records] at happ
  exact persistRecord_settles (hs.setCat c) (hs.recoverable.seq_lt hseqs)
    (fun h => ⟨happ h, hread h⟩) (fun h => ⟨hsnap h, hfits h⟩) hsb hsn

theorem mountRun_settles {crash : Option ℕ}
    (hs : Recoverable L s.disk.zones s.disk.latest seq rs)
    (hlegal : Legal L s (.mount readonly repair f crash))
    (hroomy : Roomy L s (.mount readonly repair f crash)) (hsb : f.superblock = none)
    (hsn : f.snapshot = none) :
    Settles (Safe L f) (mount L readonly repair f) s.disk fun st t =>
      (st = .OK ∧ readonly = true ∧ t = s.disk.recovered seq (s.disk.durable L)) ∨
      (st = .OK ∧ readonly = false ∧
        Live L t [(repair (s.disk.durable L)).2.encodeSnapshotTo] ∧
        t.cat = (repair (s.disk.durable L)).2.metadataSynced) ∨
      (st.ok = false ∧ t = s.disk.recovered seq (repair (s.disk.durable L)).2 ∧ f ≠ .none) := by
  obtain ⟨hseqs, hrepair⟩ := hlegal
  apply mount_settles hs hs.durable_eq
  · intro hr
    exact .inl ⟨rfl, hr, rfl⟩
  · intro hr
    obtain ⟨hok, hrep⟩ := hrepair hr
    refine ⟨hok, ?_⟩
    apply (rollMetaZoneLocked_settles (hs.live _) (hs.seq_lt hseqs) hrep (hroomy hr) hsb hsn).mono
    rintro st t (⟨hst, hlive, hcat⟩ | h)
    · exact .inr (.inl ⟨hst, hr, hlive, hcat⟩)
    · exact .inr (.inr h)

def Faultless (a : Action) : Prop := a.faults = .none

/-- The zones can be mounted, and a mounted file system writes to the zone to recover. -/
structure Mountable (L : Layout) (s : System) : Prop where
  recoverable : ∃ seq rs, Recoverable L s.disk.zones s.disk.latest seq rs
  live : s.up = true → ∃ rs, Live L s.disk rs

theorem Mountable.of_live (h : Live L d rs) : Mountable L ⟨up, d, acked, tried⟩ :=
  ⟨⟨_, rs, h.recoverable⟩, fun _ => ⟨rs, h⟩⟩

theorem Live.records (h : Live L d rs) :
    (d.zones d.current).records = rs := by
  rw [h.current, h.recoverable.complete.records]

def System.Endless (s : System) : Prop :=
  s.up = true → .endRecord ∉ (s.disk.zones s.disk.current).records

/-- A step without device errors leaves a system that can be mounted. -/
theorem Mountable.step {a : Action} (hs : Mountable L s) (hlegal : Legal L s a)
    (hroomy : Roomy L s a) (hf : Faultless a) (h : step L s a = some t) :
    Mountable L t ∧ (s.Endless → t.Endless) := by
  cases a with
  | persist c r f crash =>
    cases (show f = .none from hf)
    simp only [Rolling.step] at h
    split at h
    · next hup =>
      obtain ⟨rs, hlive⟩ := hs.live hup
      have hp := persist_settles hlive hlegal hroomy rfl rfl
      cases crash with
      | some n =>
        obtain ⟨d, hd, rfl⟩ := map_eq_some_iff.mp h
        exact ⟨⟨hp.trail hd rfl, fun hup => absurd hup Bool.false_ne_true⟩,
          fun _ hup => absurd hup Bool.false_ne_true⟩
      | none =>
        obtain ⟨⟨st, d⟩, hd, rfl⟩ := map_eq_some_iff.mp h
        rcases hp.result hd with ⟨-, hl⟩ | ⟨-, -, hne⟩
        · refine ⟨.of_live hl, fun hend _ => ?_⟩
          have hend : .endRecord ∉ rs := hlive.records ▸ hend hup
          show .endRecord ∉ (d.zones d.current).records
          rw [hl.records]
          split
          · simpa [hend] using hlegal.2.2.1.symm
          · simp [Catalog.encodeSnapshotTo]
        · exact absurd rfl hne
    · cases h
  | mount readonly repair f crash =>
    cases (show f = .none from hf)
    obtain ⟨seq, rs, hrec⟩ := hs.recoverable
    have hm := mountRun_settles hrec hlegal hroomy rfl rfl
    simp only [Rolling.step] at h
    split at h
    · cases h
    · cases crash with
      | some n =>
        obtain ⟨d, hd, rfl⟩ := map_eq_some_iff.mp h
        exact ⟨⟨hm.trail hd rfl, fun hup => absurd hup Bool.false_ne_true⟩,
          fun _ hup => absurd hup Bool.false_ne_true⟩
      | none =>
        obtain ⟨⟨st, d⟩, hd, rfl⟩ := map_eq_some_iff.mp h
        rcases hm.result hd with ⟨rfl, rfl, rfl⟩ | ⟨rfl, rfl, hl, -⟩ | ⟨-, -, hne⟩
        · exact ⟨.of_live (hrec.live _), fun _ hup => absurd hup Bool.false_ne_true⟩
        · refine ⟨.of_live hl, fun _ _ => ?_⟩
          have hrecords := hl.records
          show .endRecord ∉ (d.zones d.current).records
          rw [hrecords]
          simp [Catalog.encodeSnapshotTo]
        · exact absurd rfl hne
  | stop =>
    simp only [Rolling.step] at h
    split at h
    · cases h
      exact ⟨⟨hs.recoverable, fun hup => absurd hup Bool.false_ne_true⟩,
        fun _ hup => absurd hup Bool.false_ne_true⟩
    · cases h

/-- In a run without device errors in which the snapshots fit, whatever crashes it has,
every mount recovers the zone whose snapshot was the last to be written. -/
theorem mount_recovers_of_roomy (hmkfs : L.Readable 0 (L.used (mkfs.zones 0)))
    (h : Reaches (step L) (fun s a => Legal L s a ∧ Roomy L s a ∧ Faultless a) newSystem s)
    {readonly : Bool} {repair : Catalog → Status × Catalog}
    (hlegal : Legal L s (.mount readonly repair .none none))
    (hroomy : Roomy L s (.mount readonly repair .none none)) :
    ∃ c, recoverFrom L s.disk.latest (s.disk.zones s.disk.latest) .empty = (.OK, c) ∧
      Returns (mount L readonly repair .none) s.disk fun st t =>
        st = .OK ∧ t.cat = if readonly then c else (repair c).2.metadataSynced := by
  have hs : Mountable L s := by
    apply h.keeps ⟨⟨_, _, mkfs_recoverable hmkfs⟩, nofun⟩
    rintro a v w hv ⟨hl, hr, hf⟩ hstep
    exact (hv.step hl hr hf hstep).1
  obtain ⟨seq, rs, hrec⟩ := hs.recoverable
  refine ⟨s.disk.durable L, hrec.complete.recoverFrom_eq hrec.durable_eq, ?_⟩
  apply (mountRun_settles hrec hlegal hroomy rfl rfl).2.mono
  rintro st t (⟨rfl, rfl, rfl⟩ | ⟨rfl, rfl, -, hcat⟩ | ⟨-, -, hne⟩)
  · exact ⟨rfl, rfl⟩
  · exact ⟨rfl, hcat⟩
  · exact absurd rfl hne

/-- Two metadata zones of the given number of blocks, behind one zone for files. -/
def smallLayout (blocks : ℕ) : Layout where
  blockSize := 512
  zoneSize := 65536
  nrZones := 1
  start z := z * 65536
  maxCapacity _ := 65536
  header_lt_block := by decide
  block_dvd_start z := Nat.dvd_mul_left_of_dvd (by decide) z
  block_dvd_capacity _ := by decide
  capacity_pos _ := by decide
  capacity_le _ := by decide
  disjoint y z hy hz hlt := by omega
  addressable z hz := by omega
  metaZones := 2
  metaCapacity _ := blocks * 512
  fullWp _ := blocks * 512
  two_le_metaZones := by decide
  block_dvd_metaCapacity _ := Nat.dvd_mul_left _ _
  capacity_le_fullWp _ := Nat.le_refl _
  twelve_le_block := by decide

def plainMount : Action := .mount false (fun c => (.OK, c)) .none none

def imageOf (id extents : ℕ) (names : List UInt8) : FileImage :=
  ⟨id, 512 * extents, .notSet, (List.range extents).map fun i => (512 * i, 512), 0, none, false,
    names.map fun n => [n]⟩

theorem of_run_faultless {P : System → Prop} [∀ s, Decidable (P s)] (l : List Action)
    (h : ((runSteps (step L) (fun s a => Legal L s a ∧ Roomy L s a) newSystem l).any
      fun s => P s) = true) (hl : ∀ a ∈ l, Faultless a) :
    ∃ s, Reaches (step L) (fun s a => Legal L s a ∧ Roomy L s a ∧ Faultless a) newSystem s ∧ P s :=
  Reaches.of_any_labels h fun a ha _ hok => ⟨hok.1, hok.2, hl a ha⟩

/-- A crash after the record was appended and before the operation returned. -/
theorem mount_recovers_appended : ∃ s, Reaches (step (smallLayout 8))
      (fun s a => Legal (smallLayout 8) s a ∧ Roomy (smallLayout 8) s a ∧ Faultless a)
      newSystem s ∧ s.acked = [.snapshot []] ∧
    ∃ c, recoverFrom (smallLayout 8) s.disk.latest (s.disk.zones s.disk.latest) .empty = (.OK, c) ∧
      Returns (mount (smallLayout 8) false (fun c => (.OK, c)) .none) s.disk fun st t =>
        st = .OK ∧ t.cat = c.metadataSynced := by
  obtain ⟨s, hreach, hacked, hlegal, hroomy⟩ : ∃ s, Reaches (step (smallLayout 8))
      (fun s a => Legal (smallLayout 8) s a ∧ Roomy (smallLayout 8) s a ∧ Faultless a)
      newSystem s ∧ s.acked = [.snapshot []] ∧ Legal (smallLayout 8) s plainMount ∧
      Roomy (smallLayout 8) s plainMount :=
    of_run_faultless [plainMount, .persist .empty (.update (imageOf 1 2 [97])) .none (some 0)]
      (by decide +kernel) (forall_mem_cons.mpr ⟨rfl, forall_mem_singleton.mpr rfl⟩)
  exact ⟨s, hreach, hacked, mount_recovers_of_roomy (by decide +kernel) hreach hlegal hroomy⟩

/-- A file with many extents gets a second name. A snapshot holds the extents once for each
name, which is more than the records of the zone took, and the mount has no room for it. -/
theorem mount_without_room : ∃ s, Reaches (step (smallLayout 7))
      (fun s a => Legal (smallLayout 7) s a ∧ Roomy (smallLayout 7) s a ∧ Faultless a)
      newSystem s ∧ Legal (smallLayout 7) s plainMount ∧
    ((mount (smallLayout 7) false (fun c => (.OK, c)) .none s.disk).result.map (·.1)) =
      some (.NoSpace "Not enough capacity for append") := by
  apply of_run_faultless [plainMount, .persist .empty (.update (imageOf 1 64 [97])) .none none,
    .persist .empty (.update (imageOf 1 0 [97, 98])) .none none, .stop] (by decide +kernel)
  intro a ha
  simp only [mem_cons, not_mem_nil, or_false] at ha
  rcases ha with rfl | rfl | rfl | rfl <;> rfl

def RollsWritten (a : Action) : Prop :=
  a.faults.superblock = none ∧ a.faults.snapshot = none ∧ a.crash = none

def filesOf (L : Layout) (rs : List Record) : Except Status (Bool × Record) :=
  (Catalog.replay L.toGeometry rs false .empty).map fun p => (p.1, p.2.encodeSnapshotTo)

/-- The records come to the same files, now and after any further records. -/
def Alike (L : Layout) (rs rs' : List Record) : Prop :=
  ∀ more, filesOf L (rs ++ more) = filesOf L (rs' ++ more)

theorem Alike.append (h : Alike L rs rs') (more : List Record) :
    Alike L (rs ++ more) (rs' ++ more) := by
  intro rest
  rw [append_assoc, append_assoc]
  exact h (more ++ rest)

/-- The records come to all that was acknowledged, and to nothing that no operation did: an
operation that failed may have its effect or not. -/
def System.Accounts (L : Layout) (s : System) (rs : List Record) : Prop :=
  ∃ h, s.acked <+ h ∧ h <+ s.tried ∧ Alike L rs h

/-- The memory that a roll writes down accounts for the operations so far and for the one that
persists its record. -/
def Remembers (L : Layout) (s : System) : Action → Prop
  | .persist c r _ _ => ¬ s.disk.Fits L r →
      ∃ h, s.acked ++ [r] <+ h ∧ h <+ s.tried ++ [r] ∧ Alike L [c.encodeSnapshotTo] h
  | _ => True

namespace System.Accounts

/-- An operation that failed has left the records as they were. -/
theorem failed (h : s.Accounts L rs) (hst : st.ok = false) (r : Record) (d : MetaState) :
    (s.ackPersist r st d).Accounts L rs := by
  obtain ⟨l, hacked, htried, halike⟩ := h
  refine ⟨l, ?_, htried.trans (sublist_append_left _ _), halike⟩
  show (if st.ok then s.acked ++ [r] else s.acked) <+ l
  rwa [if_neg (by simp [hst])]

/-- An operation that returned OK has appended its record or written the memory down. -/
theorem persisted {crash : Option ℕ} (h : s.Accounts L rs)
    (hmem : Remembers L s (.persist c r f crash)) (d : MetaState) : (s.ackPersist r .OK d).Accounts L
      (if s.disk.Fits L r then rs ++ [r] else [c.encodeSnapshotTo]) := by
  split
  · obtain ⟨l, hacked, htried, halike⟩ := h
    exact ⟨l ++ [r], hacked.append_right [r], htried.append_right [r], halike.append [r]⟩
  · next hfit => exact hmem hfit

theorem fresh (up : Bool) (d : MetaState) (rs : List Record) :
    System.Accounts L ⟨up, d, rs, rs⟩ rs :=
  ⟨rs, Sublist.refl rs, Sublist.refl rs, fun _ => rfl⟩

end System.Accounts

/-- The zone to recover accounts for the operations. -/
structure Acknowledged (L : Layout) (s : System) : Prop where
  recoverable : ∃ seq rs, Recoverable L s.disk.zones s.disk.latest seq rs ∧ s.Accounts L rs
  live : s.up = true → ∃ rs, Live L s.disk rs ∧ s.Accounts L rs

theorem Acknowledged.of_live (h : Live L s.disk rs) (hacc : s.Accounts L rs) :
    Acknowledged L s :=
  ⟨⟨_, rs, h.recoverable, hacc⟩, fun _ => ⟨rs, h, hacc⟩⟩

/-- A step whose roll is written loses nothing that was acknowledged. -/
theorem Acknowledged.step {a : Action} (hs : Acknowledged L s) (hlegal : Legal L s a)
    (hroomy : Roomy L s a) (hw : RollsWritten a) (hmem : Remembers L s a)
    (h : step L s a = some t) : Acknowledged L t := by
  obtain ⟨hsb, hsn, hcrash⟩ := hw
  cases a with
  | persist c r f crash =>
    cases (show crash = none from hcrash)
    simp only [Rolling.step] at h
    split at h
    · next hup =>
      obtain ⟨rs, hlive, hacc⟩ := hs.live hup
      have hp := persist_settles hlive hlegal hroomy hsb hsn
      obtain ⟨⟨st, d⟩, hd, rfl⟩ := map_eq_some_iff.mp h
      rcases hp.result hd with ⟨rfl, hl⟩ | ⟨hst, rfl, -⟩
      · exact .of_live hl (hacc.persisted hmem d)
      · exact .of_live (hlive.setCat c) (hacc.failed hst r _)
    · cases h
  | mount readonly repair f crash =>
    cases (show crash = none from hcrash)
    obtain ⟨seq, rs, hrec, hacc⟩ := hs.recoverable
    have hm := mountRun_settles hrec hlegal hroomy hsb hsn
    simp only [Rolling.step] at h
    split at h
    · cases h
    · obtain ⟨⟨st, d⟩, hd, rfl⟩ := map_eq_some_iff.mp h
      rcases hm.result hd with ⟨rfl, rfl, rfl⟩ | ⟨rfl, rfl, hl, hcat⟩ | ⟨hst, rfl, -⟩
      · exact .of_live (hrec.live _) hacc
      · dsimp only
        rw [hcat, encodeSnapshotTo_metadataSynced]
        exact .of_live hl (.fresh _ _ _)
      · dsimp only
        rw [hst]
        exact .of_live (hrec.live _) hacc
  | stop =>
    simp only [Rolling.step] at h
    split at h
    · cases h
      exact ⟨hs.recoverable, nofun⟩
    · cases h

instance (a : Action) : Decidable (RollsWritten a) := inferInstanceAs (Decidable (_ ∧ _))

def catalogOf (L : Layout) (imgs : List FileImage) : Catalog :=
  match Catalog.decodeSnapshotFrom L.toGeometry imgs .empty with
  | .ok c => c
  | .error _ => .empty

def imagesOf (c : Catalog) : List FileImage :=
  c.files.toList.filterMap fun p => (c.heap p.2).map ZoneFile.encodeSnapshotTo

def IsNew (L : Layout) (imgs : List FileImage) (img : FileImage) : Prop :=
  img.linkfiles.length = 1 ∧
    (match Catalog.decodeSnapshotFrom L.toGeometry imgs .empty with
      | .ok c => (c.findId img.fileId).isNone
      | .error _ => false) = true

instance (L : Layout) (imgs : List FileImage) (img : FileImage) : Decidable (IsNew L imgs img) :=
  inferInstanceAs (Decidable (_ ∧ _))

theorem decodeSnapshotFrom_append (g : Geometry) (imgs more : List FileImage) (c : Catalog) :
    Catalog.decodeSnapshotFrom g (imgs ++ more) c =
      Catalog.decodeSnapshotFrom g imgs c >>= Catalog.decodeSnapshotFrom g more := by
  induction imgs generalizing c with
  | nil => rfl
  | cons img rest ih =>
    rw [cons_append, Catalog.decodeSnapshotFrom, Catalog.decodeSnapshotFrom]
    cases decodeFrom g img with
    | error e => rfl
    | ok f => exact ih _

/-- A snapshot with a new file comes to what its record comes to behind the snapshot without it. -/
theorem IsNew.alike (h : IsNew L imgs img) :
    Alike L [.snapshot (imgs ++ [img])] [.snapshot imgs, .update img] := by
  obtain ⟨hname, hdecode⟩ := h
  obtain ⟨name, hname⟩ := length_eq_one_iff.mp hname
  split at hdecode
  case h_2 => cases hdecode
  case h_1 c hc =>
    intro more
    have hsame : Catalog.decodeFileUpdateFrom L.toGeometry img false c =
        Catalog.decodeSnapshotFrom L.toGeometry [img] c := by
      rw [Catalog.decodeFileUpdateFrom, Catalog.decodeSnapshotFrom]
      cases hf : decodeFrom L.toGeometry img with
      | error e => rfl
      | ok f =>
        obtain ⟨hid, hlinks, -⟩ := Catalog.decodeFrom_eq hf
        have hnone : ((c.addUsed f.extents).bumpFileId f.fileId).findId f.fileId = none := by
          rw [hid]
          exact Option.isNone_iff_eq_none.mp hdecode
        simp only [bind, Except.bind, Catalog.decodeSnapshotFrom, hnone]
        rw [hlinks, hname]
        rfl
    show (Catalog.replay L.toGeometry (.snapshot (imgs ++ [img]) :: more) false .empty).map _ =
      (Catalog.replay L.toGeometry (.snapshot imgs :: .update img :: more) false .empty).map _
    have hclear : Catalog.empty.clearFiles = .empty := rfl
    simp only [Catalog.replay, hclear, decodeSnapshotFrom_append, hc, bind, Except.bind, hsame]

def NewFiles (L : Layout) (imgs : List FileImage) : Prop :=
  ∀ k < imgs.length, ∀ img ∈ imgs[k]?, IsNew L (imgs.take k) img

instance (L : Layout) (imgs : List FileImage) : Decidable (NewFiles L imgs) :=
  inferInstanceAs (Decidable (∀ _ < _, ∀ _ ∈ _, _))

theorem NewFiles.alike (h : NewFiles L imgs) :
    Alike L [.snapshot imgs] (.snapshot [] :: imgs.map .update) := by
  induction imgs using List.reverseRecOn with
  | nil => exact fun _ => rfl
  | append_singleton imgs img ih =>
    have hlast : IsNew L imgs img := by
      have hk := h imgs.length (by simp) img (by simp)
      rwa [take_left'  rfl] at hk
    have hrest : NewFiles L imgs := by
      intro k hk img' himg
      have hk' := h k (by simp; omega) img' (by simpa [getElem?_append_left hk] using himg)
      rwa [take_append_of_le_length hk.le] at hk'
    intro more
    rw [hlast.alike more, map_append]
    exact (ih hrest).append [.update img] more

/-- The memory that a roll writes down holds new files, in the order of their records. -/
def Listed (L : Layout) (s : System) : Action → Prop
  | .persist c r _ _ => ¬ s.disk.Fits L r →
      s.acked <+ s.tried ∧ NewFiles L (imagesOf c) ∧
        s.tried ++ [r] = .snapshot [] :: (imagesOf c).map .update
  | _ => True

instance (L : Layout) (s : System) : (a : Action) → Decidable (Listed L s a)
  | .persist _ _ _ _ => inferInstanceAs (Decidable (_ → _))
  | .mount _ _ _ _ | .stop => isTrue trivial

theorem Listed.remembers {a : Action} (h : Listed L s a) : Remembers L s a := by
  cases a with
  | persist c r f crash =>
    intro hfit
    obtain ⟨hacked, hnew, htried⟩ := h hfit
    refine ⟨s.tried ++ [r], hacked.append_right [r], Sublist.refl _, ?_⟩
    rw [htried]
    exact hnew.alike
  | mount | stop => trivial

/-- A mount, and the persists of three new files; the second one finds the zone full and rolls. -/
def threeFiles (m f : Faults) : List Action :=
  let imgs := [imageOf 1 1 [97], imageOf 2 1 [98], imageOf 3 1 [99]]
  [.mount false (fun c => (.OK, c)) m none,
    .persist (catalogOf (smallLayout 4) (imgs.take 1)) (.update (imageOf 1 1 [97])) .none none,
    .persist (catalogOf (smallLayout 4) (imgs.take 2)) (.update (imageOf 2 1 [98])) f none,
    .persist (catalogOf (smallLayout 4) imgs) (.update (imageOf 3 1 [99])) .none none]

end ZenFs.Rolling
