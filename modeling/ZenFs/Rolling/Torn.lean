import ZenFs.Rolling.Runs

/-!
Crashes inside the write of one metadata record.

Such a crash stores the first blocks of the record. A mount passes a zone whose superblock
was cut. Any other record that was cut ends the log in a way that `RecoverFrom` reports as
corruption, and `Mount` does not try an older zone then.
-/

namespace ZenFs.Rolling

open Library List MetaState

variable {a : Action} {b c : Catalog} {l : List Entry} {m : String} {n z : ℕ} {r : Record}
variable {seen : Bool} {zone : MetaZone}
variable {L : Layout}
variable {d : MetaState}

/-- What a mount finds of a record of which a proper part was stored, in whole blocks: nothing,
blocks whose checksum is wrong, or the record, if the blocks that were not stored held nothing
but zeros. The superblock ends with zeros. -/
inductive Remains (L : Layout) (x : Entry) : List Entry → Prop
  | nothing : Remains L x []
  | torn (n : ℕ) (hpos : 0 < n) (hlt : n * L.blockSize < L.size x) : Remains L x [.torn n]
  | zeros (h : L.blockSize < L.size x) : Remains L x [x]

/-- The writes of a roll to its new zone. -/
inductive Cut
  | superblock
  | snapshot

namespace Cut

/-- The roll gets as far as this write and stores nothing of it. -/
def faults : Cut → Faults
  | .superblock => { Faults.none with superblock := some 0 }
  | .snapshot => { Faults.none with snapshot := some 0 }

def entry (d : MetaState) : Cut → Entry
  | .superblock => .superblock d.seq
  | .snapshot => .record d.cat.encodeSnapshotTo

/-- What the new zone holds before the write, if the new sequence number is `n`. -/
def stored (n : ℕ) : Cut → List Entry
  | .superblock => []
  | .snapshot => [.superblock n]

end Cut

def Rolls (L : Layout) (s : System) : Action → Prop
  | .persist _ r _ _ => ¬ s.disk.Fits L r
  | .mount readonly _ _ _ => readonly = false
  | .stop => False

def Action.failing (f : Faults) : Action → Action
  | .persist c r _ _ => .persist c r f none
  | .mount readonly repair _ _ => .mount readonly repair f none
  | .stop => .stop

/-- From `s`, the file system gets to `d` and writes `x` to the current zone next: a record
that fits, or the superblock or the snapshot of a roll. -/
inductive Writing (L : Layout) (s : System) : MetaState → Entry → Prop
  | record {c : Catalog} {r : Record} {f : Faults} {crash : Option ℕ} (hup : s.up = true)
      (hlegal : Legal L s (.persist c r f crash)) (hroomy : Roomy L s (.persist c r f crash))
      (hfit : s.disk.Fits L r) : Writing L s s.disk (.record r)
  | roll {a : Action} {t : System} (k : Cut) (hlegal : Legal L s a) (hroomy : Roomy L s a)
      (hrolls : Rolls L s a) (h : step L s (a.failing k.faults) = some t) :
      Writing L s t.disk (k.entry t.disk)

/-- The metadata zones with `l` behind what the current zone holds. A snapshot that can be
read counts as written. -/
def MetaState.store (d : MetaState) (l : List Entry) : MetaState :=
  let e := d.setZone d.current ⟨(d.zones d.current).content ++ l, (d.zones d.current).finished⟩
  match l with
  | [.record _] => e.setLatest d.current
  | _ => e

/-- Every mount of `d` succeeds with the catalog `c`, provided its files can be repaired and
its snapshot fits. -/
def Rebuilds (L : Layout) (d : MetaState) (c : Catalog) : Prop :=
  ∀ (readonly : Bool) (repair : Catalog → Status × Catalog),
    (readonly = false → (repair c).1.ok = true ∧ Replays L [(repair c).2.encodeSnapshotTo] ∧
      SnapshotFits L (repair c).2) →
    Returns (mount L readonly repair .none) d fun st t =>
      st = .OK ∧ t.cat = if readonly then c else (repair c).2.metadataSynced

variable {rs : List Record} {seq : ℕ}

theorem Recoverable.rebuilds (h : Recoverable L d.zones d.latest seq rs)
    (hc : Catalog.replay L.toGeometry rs false .empty = .ok (true, c)) (hseqs : SeqsLeft L d) :
    Rebuilds L d c := by
  intro readonly repair hrepair
  have hm : Settles (fun _ => True) (mount L readonly repair .none) d fun st t =>
      st = .OK ∧ t.cat = if readonly then c else (repair c).2.metadataSynced := by
    apply mount_settles h hc
    · rintro rfl
      exact ⟨rfl, rfl⟩
    · rintro rfl
      obtain ⟨hok, hrep, hfits⟩ := hrepair rfl
      refine ⟨hok, ?_⟩
      have hroll := rollMetaZoneLocked_settles (f := .none) (h.live (repair c).2) (h.seq_lt hseqs)
        hrep hfits rfl rfl
      refine ⟨fun _ _ => trivial, hroll.2.mono ?_⟩
      rintro st t (⟨hst, -, hcat⟩ | ⟨-, -, hne⟩)
      · exact ⟨hst, hcat⟩
      · exact absurd rfl hne
  exact hm.2

theorem Rebuilds.unique (hb : Rebuilds L d b) (hc : Rebuilds L d c) : b = c := by
  obtain ⟨st, t, ht, -, hbt⟩ := hb true (fun c => (.OK, c)) nofun
  obtain ⟨st', t', ht', -, hct⟩ := hc true (fun c => (.OK, c)) nofun
  rw [ht] at ht'
  cases ht'
  exact hbt.symm.trans hct

theorem Recoverable.rebuilds_iff
    (h : Recoverable L d.zones d.latest seq rs) (hseqs : SeqsLeft L d) :
    Rebuilds L d c ↔ Catalog.replay L.toGeometry rs false .empty = .ok (true, c) := by
  constructor
  · intro hr
    have hd := h.durable_eq
    rw [hr.unique (h.rebuilds hd hseqs)]
    exact hd
  · intro hc
    exact h.rebuilds hc hseqs

theorem Newest.not_rebuilds (h : Newest L d.zones z seq)
    (hz : recoverFrom L z (d.zones z) .empty = (.Corruption m, b)) : ¬ Rebuilds L d c := by
  intro hr
  have hm : Settles (fun _ => True) (mount L true (fun c => (.OK, c)) .none) d fun st _ =>
      st = .Corruption m := by
    apply mount_reads h
    intro pre post busy hpre
    apply recoverLatest_passes (s := { d with busy := busy, cat := .empty }) hpre rfl
    intro busy'
    apply Settles.bind
    apply Settles.act
    rw [hz]
    exact .pure (.pure rfl)
  obtain ⟨st, t, ht, hok, -⟩ := hr true (fun c => (.OK, c)) nofun
  have hst := hm.result ht
  rw [hok] at hst
  cases hst

theorem recordsOf_torn (rs : List Record) (n : ℕ) :
    recordsOf (rs.map .record ++ [.torn n]) = rs := by
  induction rs with
  | nil => rfl
  | cons r rest ih => rw [map_cons, cons_append, recordsOf, ih]

theorem recoverFrom_torn (h : zone.content = .superblock seq :: (rs.map .record ++ [.torn n]))
    (hend : .endRecord ∉ rs)
    (hc : Catalog.replay L.toGeometry rs false .empty = .ok (seen, c)) :
    recoverFrom L z zone .empty = (.Corruption "ZenFS: Metadata corruption", c) := by
  have hr : zone.records = rs := by rw [MetaZone.records, h, tail_cons, recordsOf_torn]
  have hb : zone.broken L z := by
    rw [MetaZone.broken, hr, h]
    exact ⟨hend, .inl (by simp)⟩
  simp [recoverFrom, hr, hc, hb]

/-- A roll has not written its snapshot yet: the new zone holds `l`, and the old one is
still the zone to recover. -/
structure Half (L : Layout) (seq : ℕ) (l : List Entry) (t : MetaState) : Prop where
  recoverable : ∃ rs, Recoverable L t.zones t.latest seq rs
  lt : t.current < L.metaZones
  ne : t.current ≠ t.latest
  zone : t.zones t.current = ⟨l, false⟩
  seq : t.seq = seq + 1
  replays : Replays L [t.cat.encodeSnapshotTo]
  fits : SnapshotFits L t.cat

section Rolling

variable {s : MetaState}

theorem writeRoll_half (k : Cut) (hs : Recoverable L s.zones s.latest s.seq rs)
    (hz : s.current < L.metaZones) (hne : s.current ≠ s.latest)
    (he : s.zones s.current = .empty) (hseq : s.seq + 1 < 2 ^ 32)
    (hrep : Replays L [s.cat.encodeSnapshotTo]) (hfits : SnapshotFits L s.cat) :
    Settles (fun _ => True) (writeRoll L k.faults s.latest s.current) s fun _ t =>
      Half L s.seq (k.stored (s.seq + 1)) t := by
  have hclose : closeZone L k.faults s.latest = closeZone L .none s.latest := by
    cases k <;> rfl
  apply Settles.bind
  rw [hclose]
  apply (closeZone_settles hs.complete fun _ _ => trivial).mono
  rintro _ _ ⟨zone, rfl, hclosing⟩
  obtain ⟨rs', hcomplete⟩ := hclosing.complete rfl
  have hold := hs.setLatest hcomplete
  have hempty : (s.setZone s.latest zone).zones s.current = ⟨[], false⟩ :=
    (MetaState.setZone_zones_ne hne).trans he
  apply Settles.bind
  apply Settles.act
  rw [show (s.setZone s.latest zone).seq = s.seq from rfl, Nat.mod_eq_of_lt hseq]
  apply Settles.bind
  cases k with
  | superblock =>
    have hhalf : Half L s.seq [] ((s.setZone s.latest zone).setSeq (s.seq + 1)) :=
      ⟨⟨rs', hold⟩, hz, hne, hempty, rfl, hrep, hfits⟩
    apply addRecord_settles
    · intro _
      exact .pure hhalf
    · intro _ h
      cases h
    · intro _
      exact .pure hhalf
    · intro n h
      cases h
  | snapshot =>
    apply addRecord_fits
    · exact hempty
    · have := (hfits.2 s.current hz).1
      simp only [Layout.used, map_nil, sum_nil, Layout.size] at this ⊢
      omega
    · trivial
    have hhalf : Half L s.seq [.superblock (s.seq + 1)]
        (((s.setZone s.latest zone).setSeq (s.seq + 1)).setZone s.current
          ⟨[.superblock (s.seq + 1)], false⟩) :=
      ⟨⟨rs', hold.setOther hne (Older.of_started hz hfits)⟩, hz, hne, MetaState.setZone_zones,
        rfl, hrep, hfits⟩
    apply Settles.bind
    apply Settles.bind
    apply Settles.read
    apply Settles.bind
    apply addRecord_settles
    · intro _
      exact .pure (.pure hhalf)
    · intro _ h
      cases h
    · intro _
      exact .pure (.pure hhalf)
    · intro n h
      cases h

theorem rollMetaZoneLocked_half (k : Cut) (hs : Live L s rs) (hseq : s.seq + 1 < 2 ^ 32)
    (hrep : Replays L [s.cat.encodeSnapshotTo]) (hfits : SnapshotFits L s.cat) :
    Settles (fun _ => True) (rollMetaZoneLocked L k.faults) s fun _ t =>
      Half L s.seq (k.stored (s.seq + 1)) t := by
  apply Settles.bind
  apply (allocateMetaZone_settles fun _ _ _ => trivial).mono
  rintro r t (⟨z, hz, hzb, rfl, rfl⟩ | ⟨rfl, rfl, hall⟩)
  · have hne := hs.free_ne_latest hzb
    apply Settles.bind
    apply Settles.read
    apply Settles.bind
    apply Settles.modify
    apply Settles.bind
    have hcur : (id ((s.setBusy z true).setZone z .empty)).current =
        (((s.setBusy z true).setZone z .empty).setCurrent z).latest := hs.current
    rw [hcur]
    apply (writeRoll_half (s := ((s.setBusy z true).setZone z .empty).setCurrent z) k
      (hs.recoverable.setOther hne (.empty rfl)) (mem_range.mp hz) hne
      MetaState.setZone_zones hseq hrep hfits).mono
    intro st t ht
    apply Settles.bind
    apply Settles.modify
    exact .pure ⟨ht.recoverable, ht.lt, ht.ne, ht.zone, ht.seq, ht.replays, ht.fits⟩
  · obtain ⟨z, hz, hzb⟩ := exists_free hs
    cases k <;> exact absurd (hall z hz hzb) Bool.false_ne_true

end Rolling

variable {s t : System}

structure Writable (L : Layout) (s : System) : Prop extends Mountable L s where
  noEnd : s.up = true → .endRecord ∉ (s.disk.zones s.disk.current).records

theorem Writable.step (hs : Writable L s) (hlegal : Legal L s a)
    (hroomy : Roomy L s a) (hf : Faultless a) (h : step L s a = some t) : Writable L t := by
  obtain ⟨hmount, hend⟩ := hs.toMountable.step hlegal hroomy hf h
  exact ⟨hmount, hend hs.noEnd⟩

/-- A roll that stops at one of its writes leaves the old zone to be recovered. -/
theorem half_of_step {k : Cut} (hs : Mountable L s) (hlegal : Legal L s a)
    (hroomy : Roomy L s a) (hrolls : Rolls L s a) (h : step L s (a.failing k.faults) = some t) :
    ∃ seq, Half L seq (k.stored (seq + 1)) t.disk := by
  cases a with
  | persist c r f crash =>
    simp only [Rolling.step, Action.failing] at h
    split at h
    · next hup =>
      obtain ⟨rs, hlive⟩ := hs.live hup
      obtain ⟨hseqs, -, -, -, hsnap⟩ := hlegal
      have hp := persistRecord_rolls (s := s.disk.setCat c) hrolls
        (rollMetaZoneLocked_half k (hlive.setCat c) (hlive.recoverable.seq_lt hseqs)
          (hsnap hrolls) (hroomy.2.2 hrolls))
      obtain ⟨⟨st, d⟩, hd, rfl⟩ := Option.map_eq_some_iff.mp h
      exact ⟨_, hp.result hd⟩
    · cases h
  | mount readonly repair f crash =>
    obtain ⟨seq, rs, hrec⟩ := hs.recoverable
    obtain ⟨hseqs, hrepair⟩ := hlegal
    obtain ⟨hok, hrep⟩ := hrepair hrolls
    have hm : Settles (fun _ => True) (mount L readonly repair k.faults) s.disk fun _ t =>
        Half L seq (k.stored (seq + 1)) t := by
      apply mount_settles hrec hrec.durable_eq
      · intro hr
        rw [show readonly = false from hrolls] at hr
        cases hr
      · intro _
        exact ⟨hok, rollMetaZoneLocked_half k (hrec.live _) (hrec.seq_lt hseqs) hrep
          (hroomy hrolls)⟩
    simp only [Rolling.step, Action.failing] at h
    split at h
    · cases h
    · obtain ⟨⟨st, d⟩, hd, rfl⟩ := Option.map_eq_some_iff.mp h
      have hhalf := hm.result hd
      refine ⟨seq, ?_⟩
      split <;> exact hhalf
  | stop => exact hrolls.elim

theorem Half.others (h : Half L seq l d) (y : ℕ)
    (hy : y < L.metaZones) : Older L y (seq + 1) (d.zones y) := by
  obtain ⟨rs, hrec⟩ := h.recoverable
  by_cases hyl : y = d.latest
  · rw [hyl]
    exact .earlier seq _ hrec.complete.content (by omega)
  · exact (hrec.others y hy hyl).mono (by omega)

/-- Nothing of the record was stored, the record is a superblock, or all that is missing of
it are zeros and it changes nothing. -/
def Spared (L : Layout) (d : MetaState) (x : Entry) (l : List Entry) : Prop :=
  l = [] ∨ (∃ n, x = .superblock n) ∨ ∃ r, x = .record r ∧ l = [x] ∧
    Catalog.replay L.toGeometry ((d.zones d.current).records ++ [r]) false .empty =
      .ok (true, d.durable L)

theorem MetaState.store_nil (d : MetaState) : d.store [] = d := by
  show d.setZone d.current ⟨(d.zones d.current).content ++ [], _⟩ = d
  rw [append_nil]
  exact MetaState.setZone_self

theorem MetaState.store_record (d : MetaState) (r : Record) :
    d.store [.record r] = (d.push d.current (.record r)).setLatest d.current := rfl

theorem MetaState.store_torn (d : MetaState) (n : ℕ) :
    d.store [.torn n] = d.push d.current (.torn n) := rfl

theorem MetaState.store_superblock (d : MetaState) (n : ℕ) :
    d.store [.superblock n] = d.push d.current (.superblock n) := rfl

theorem not_spared_torn :
    ¬ Spared L d (.record r) [.torn n] := by
  simp [Spared]

theorem spared_zeros_iff :
    Spared L d (.record r) [.record r] ↔
      Catalog.replay L.toGeometry ((d.zones d.current).records ++ [r]) false .empty =
        .ok (true, d.durable L) := by
  simp [Spared]

theorem Live.rebuilds_store_iff (hs : Live L d rs) (hend : .endRecord ∉ rs) (hfit : d.Fits L r)
    (hrep : Replays L (rs ++ [r]))
    (hread : L.Readable d.current (L.used (d.zones d.current) + L.size (.record r)))
    (hl : Remains L (.record r) l) (hseqs : SeqsLeft L (d.store l)) :
    Rebuilds L (d.store l) (d.durable L) ↔ Spared L d (.record r) l := by
  have hrec := hs.recoverable
  cases hl with
  | nothing =>
    rw [store_nil] at hseqs ⊢
    exact iff_of_true (hrec.rebuilds hrec.durable_eq hseqs) (.inl rfl)
  | torn n hpos hlt =>
    have hcontent : ((d.push d.current (.torn n)).zones d.current).content =
        .superblock d.seq :: (rs.map .record ++ [.torn n]) := by
      simp [MetaState.push, hs.current, hrec.complete.content]
    have hnew : Newest L (d.push d.current (.torn n)).zones d.current d.seq := by
      refine ⟨hs.current ▸ hrec.lt, ⟨_, hcontent⟩, ?_⟩
      intro y hy hne
      rw [MetaState.push, MetaState.setZone_zones_ne hne]
      exact hrec.others y hy (hs.current ▸ hne)
    exact iff_of_false (hnew.not_rebuilds (recoverFrom_torn hcontent hend hrec.durable_eq))
      not_spared_torn
  | zeros _ =>
    have hlive := hs.append hfit hrep hread
    have hstore : d.store [.record r] = d.push d.current (.record r) := by
      rw [store_record, hs.current]
      rfl
    rw [hstore] at hseqs ⊢
    rw [spared_zeros_iff, hs.records]
    exact hlive.recoverable.rebuilds_iff hseqs

theorem Half.rebuilds_store_iff {k : Cut}
    (hd : Half L seq (k.stored (seq + 1)) d) (hl : Remains L (k.entry d) l)
    (hseqs : SeqsLeft L (d.store l)) :
    Rebuilds L (d.store l) (d.durable L) ↔ Spared L d (k.entry d) l := by
  obtain ⟨rs, hrec⟩ := hd.recoverable
  have hdurable := hrec.durable_eq
  cases k with
  | superblock =>
    apply iff_of_true _ (.inr (.inl ⟨d.seq, rfl⟩))
    cases hl with
    | nothing =>
      rw [store_nil] at hseqs ⊢
      exact hrec.rebuilds hdurable hseqs
    | torn n hpos hlt =>
      rw [store_torn, push_eq hd.zone] at hseqs ⊢
      exact (hrec.setOther hd.ne (.torn n [] rfl)).rebuilds
        hdurable hseqs
    | zeros _ =>
      rw [Cut.entry, store_superblock, push_eq hd.zone] at hseqs ⊢
      exact (hrec.setOther hd.ne (Older.of_started hd.lt hd.fits)).rebuilds
        hdurable hseqs
  | snapshot =>
    cases hl with
    | nothing =>
      rw [store_nil] at hseqs ⊢
      exact iff_of_true (hrec.rebuilds hdurable hseqs) (.inl rfl)
    | torn n hpos hlt =>
      rw [store_torn, push_eq hd.zone]
      have hnew : Newest L (d.setZone d.current ⟨[.superblock (seq + 1), .torn n], false⟩).zones
          d.current (seq + 1) := by
        refine ⟨hd.lt, ⟨[.torn n], by rw [MetaState.setZone_zones]⟩, ?_⟩
        intro y hy hne
        rw [MetaState.setZone_zones_ne hne]
        exact hd.others y hy
      apply iff_of_false _ not_spared_torn
      apply hnew.not_rebuilds
      rw [MetaState.setZone_zones]
      have hend : Record.endRecord ∉ ([] : List Record) := not_mem_nil
      exact recoverFrom_torn rfl hend rfl
    | zeros _ =>
      have hwritten := Recoverable.written hd.lt (fun y hy _ => hd.others y hy) hd.fits
        hd.replays
      have hrecords : (d.zones d.current).records = [] := by
        rw [hd.zone]
        rfl
      rw [Cut.entry, spared_zeros_iff, hrecords]
      rw [Cut.entry, store_record, push_eq hd.zone] at hseqs
      rw [store_record, push_eq hd.zone]
      exact hwritten.rebuilds_iff hseqs

/-- In a run without device errors in which the snapshots fit, a crash inside a write is
followed by mounts that rebuild the state without the record exactly if the record was
spared. -/
theorem torn_record_rebuilds_iff (hmkfs : L.Readable 0 (L.used (mkfs.zones 0)))
    (h : Reaches (step L) (fun s a => Legal L s a ∧ Roomy L s a ∧ Faultless a) newSystem s)
    {d : MetaState} {x : Entry} {l : List Entry} (hw : Writing L s d x) (hl : Remains L x l)
    (hseqs : SeqsLeft L (d.store l)) :
    Rebuilds L (d.store l) (d.durable L) ↔ Spared L d x l := by
  have hs : Writable L s := by
    apply h.keeps ⟨⟨⟨_, _, mkfs_recoverable hmkfs⟩, nofun⟩, nofun⟩
    rintro a v w hv ⟨hlegal, hr, hf⟩ hstep
    exact hv.step hlegal hr hf hstep
  cases hw with
  | record hup hlegal hroomy hfit =>
    obtain ⟨rs, hlive⟩ := hs.live hup
    have happ := hlegal.2.2.2.1 hfit
    rw [hlive.recoverable.complete.records] at happ
    exact hlive.rebuilds_store_iff (hlive.records ▸ hs.noEnd hup) hfit happ (hroomy.2.1 hfit) hl
      hseqs
  | roll k hlegal hroomy hrolls hstep =>
    obtain ⟨seq, hhalf⟩ := half_of_step hs.toMountable hlegal hroomy hrolls hstep
    exact hhalf.rebuilds_store_iff hl hseqs

/-- A record of two blocks and an end of the process. -/
def oneFile : List Action :=
  let img := imageOf 1 30 [97]
  [plainMount, .persist (catalogOf (smallLayout 8) [img]) (.update img) .none none, .stop]

theorem oneFile_faultless : ∀ a ∈ oneFile, Faultless a := by
  intro a ha
  simp only [oneFile, mem_cons, not_mem_nil, or_false] at ha
  rcases ha with rfl | rfl | rfl <;> rfl

/-- The mount after `oneFile` stores one of the two blocks of its superblock. -/
theorem torn_superblock_rebuilds : ∃ s d, Reaches (step (smallLayout 8)) (fun s a =>
      Legal (smallLayout 8) s a ∧ Roomy (smallLayout 8) s a ∧ Faultless a) newSystem s ∧
    Writing (smallLayout 8) s d (.superblock d.seq) ∧
    Rebuilds (smallLayout 8) (d.store [.torn 1]) (d.durable (smallLayout 8)) := by
  obtain ⟨s, hreach, hlegal, hroomy, t, ht, hseqs⟩ : ∃ s, Reaches (step (smallLayout 8))
      (fun s a => Legal (smallLayout 8) s a ∧ Roomy (smallLayout 8) s a ∧ Faultless a)
      newSystem s ∧ Legal (smallLayout 8) s plainMount ∧ Roomy (smallLayout 8) s plainMount ∧
        ∃ t ∈ step (smallLayout 8) s (plainMount.failing Cut.superblock.faults),
          SeqsLeft (smallLayout 8) (t.disk.store [.torn 1]) :=
    of_run_faultless oneFile (by decide +kernel) oneFile_faultless
  have hw := Writing.roll .superblock hlegal hroomy rfl ht
  refine ⟨s, t.disk, hreach, hw, ?_⟩
  exact (torn_record_rebuilds_iff (by decide +kernel) hreach hw
    (.torn 1 (by decide) (show 1 * 512 < (smallLayout 8).physSize 512 by decide)) hseqs).mpr (.inr (.inl ⟨_, rfl⟩))

/-- The mount after `oneFile` stores one of the two blocks of its snapshot. The old zone is
complete, and the next mount does not get to it. -/
theorem torn_snapshot_corrupt : ∃ s d r, Reaches (step (smallLayout 8)) (fun s a =>
      Legal (smallLayout 8) s a ∧ Roomy (smallLayout 8) s a ∧ Faultless a) newSystem s ∧
    Writing (smallLayout 8) s d (.record r) ∧ Remains (smallLayout 8) (.record r) [.torn 1] ∧
    SeqsLeft (smallLayout 8) (d.store [.torn 1]) ∧
    ((mount (smallLayout 8) true (fun c => (.OK, c)) .none (d.store [.torn 1])).result.map
      (·.1)) = some (.Corruption "ZenFS: Metadata corruption") ∧
    ((mount (smallLayout 8) true (fun c => (.OK, c)) .none d).result.map (·.1)) = some .OK := by
  obtain ⟨s, hs, hlegal, hroomy, t, ht, hsize, h⟩ : ∃ s, Reaches (step (smallLayout 8))
      (fun s a => Legal (smallLayout 8) s a ∧ Roomy (smallLayout 8) s a ∧ Faultless a)
      newSystem s ∧ Legal (smallLayout 8) s plainMount ∧ Roomy (smallLayout 8) s plainMount ∧
        ∃ t ∈ step (smallLayout 8) s (plainMount.failing Cut.snapshot.faults),
          1 * 512 < (smallLayout 8).size (.record t.disk.cat.encodeSnapshotTo) ∧
          SeqsLeft (smallLayout 8) (t.disk.store [.torn 1]) ∧
          ((mount (smallLayout 8) true (fun c => (.OK, c)) .none
            (t.disk.store [.torn 1])).result.map (·.1)) =
              some (.Corruption "ZenFS: Metadata corruption") ∧
          ((mount (smallLayout 8) true (fun c => (.OK, c)) .none t.disk).result.map (·.1)) =
            some .OK := of_run_faultless oneFile (by decide +kernel) oneFile_faultless
  exact ⟨s, t.disk, _, hs,
    .roll .snapshot hlegal hroomy rfl ht, .torn 1 (by decide) hsize, h⟩

end ZenFs.Rolling
