import ZenFs.Device.Threads

/-!
Who holds which zone.

The busy flag of a zone has no owner. That a zone is released by its holder rests on what
each thread knows: the zones it acquired, the active zone of the file it writes or closes,
and the zones of the log objects while it holds `metadata_sync_mtx_`.
-/

namespace ZenFs.Device

open Library List Function

variable {a : Holder} {l : List ℕ} {p : MetaLogObject × Option MetaLogObject}
variable {b : Bool} {o : Option Holder} {x : Option ℕ}

/-- The part of the state that decides who may act on a zone. -/
structure OwnerTable where
  busy : ℕ → Bool
  holders : ℕ → List Holder
  active : Handle → Option ℕ
  wrLocked : Handle → Bool
  closing : Handle → ℕ
  metaLog : MetaLogObject
  /-- `metadata_sync_mtx_` is held. -/
  syncing : Bool

def Zbd.ownerTable (d : Zbd) : OwnerTable where
  busy z := (d.zones z).busy
  holders := d.holders
  active h := (d.bodies h).activeZone
  wrLocked := d.wrLocked
  closing := d.closing
  metaLog := d.metaLog
  syncing := d.locked .metadataSync

/-- The zone passes to a new holder, or to none. -/
def OwnerTable.pass (T : OwnerTable) (z : ℕ) (o : Option Holder) : OwnerTable :=
  { T with
    busy := Function.update T.busy z o.isSome
    holders := Function.update T.holders z o.toList }

/-- What a thread may do with the active zone of a file: nothing, as a migration, or what
it likes, knowing the zone; or it has released the zone that `active_zone_` still has. -/
inductive Access
  | none
  | knows (zone : Option ℕ)
  | released
  deriving DecidableEq

/-- A thread works on a file, with the writer lock or, at the end of `CloseWR`, without. -/
structure Session where
  file : Handle
  locked : Bool
  access : Access

variable {s : Option Session} {t : Session}

/-- What a thread knows: zones it acquired, the file it works on, and under
`metadata_sync_mtx_` the current log object and another one that has a zone. -/
structure Holding where
  zones : List ℕ
  session : Option Session
  logs : Option (MetaLogObject × Option MetaLogObject)

namespace Holding

variable (v : Holding)

def withZones (l : List ℕ) : Holding := ⟨l, v.session, v.logs⟩

def withSession (s : Option Session) : Holding := ⟨v.zones, s, v.logs⟩

def withLogs (l : Option (MetaLogObject × Option MetaLogObject)) : Holding :=
  ⟨v.zones, v.session, l⟩

end Holding

def OwnerTable.withFiles (T : OwnerTable) (A : Handle → Option ℕ) (W : Handle → Bool)
    (C : Handle → ℕ) : OwnerTable := { T with active := A, wrLocked := W, closing := C }

/-- The thread released the active zone of the file and did not clear `active_zone_` yet. -/
def Holding.Released (v : Holding) (h : Handle) : Prop :=
  ∃ s, v.session = some s ∧ s.file = h ∧ s.access = .released

structure Session.Right (T : OwnerTable) (s : Session) : Prop where
  locked : s.locked = true → T.wrLocked s.file = true
  closing : s.locked = false → T.closing s.file ≠ 0 ∧ s.access ≠ .none
  active : ∀ z, s.access = .knows z → T.active s.file = z

/-- The log objects that the holder of the mutex knows have their zones. -/
structure LogsRight (T : OwnerTable) (cur : MetaLogObject) (other : Option MetaLogObject) :
    Prop where
  syncing : T.syncing = true
  current : T.metaLog = cur
  other : ∀ l, other = some l → l.serial ≠ cur.serial ∧ T.holders l.zone = [.log l.serial]

/-- What thread `i` knows is right. -/
structure Knows (T : OwnerTable) (i : ℕ) (v : Holding) : Prop where
  nodup : v.zones.Nodup
  zones : ∀ z ∈ v.zones, T.holders z = [.thread i]
  session : ∀ s, v.session = some s → s.Right T
  logs : ∀ cur other, v.logs = some (cur, other) → LogsRight T cur other

/-- Two sessions of different threads: not both have the writer lock of one file, and not
both have access to its active zone. -/
def Session.Apart (s t : Session) : Prop :=
  s.file = t.file → ¬ (s.locked = true ∧ t.locked = true) ∧ (s.access = .none ∨ t.access = .none)

structure Apart (v w : Holding) : Prop where
  sessions : ∀ s t, v.session = some s → w.session = some t → s.Apart t
  logs : v.logs = none ∨ w.logs = none

theorem Session.Apart.symm {s : Session} (h : s.Apart t) : t.Apart s := by
  intro hf
  obtain ⟨hlock, hacc⟩ := h hf.symm
  exact ⟨fun hb => hlock hb.symm, hacc.symm⟩

theorem Apart.symm {v w : Holding} (h : Apart v w) : Apart w v :=
  ⟨fun s t hs ht => (h.sessions t s ht hs).symm, h.logs.symm⟩

/-- Every zone has at most one holder, and what the threads know accounts for all who act
on zones. -/
structure Owned (vs : ℕ → Holding) (T : OwnerTable) : Prop where
  single : ∀ z, T.holders z = [] ∧ T.busy z = false ∨ ∃ a, T.holders z = [a] ∧ T.busy z = true
  knows : ∀ i, Knows T i (vs i)
  apart : ∀ i j, i ≠ j → Apart (vs i) (vs j)
  active : ∀ h z, T.active h = some z → T.holders z = [.file h] ∨ ∃ i, (vs i).Released h
  log : T.holders T.metaLog.zone = [.log T.metaLog.serial]

variable {T : OwnerTable} {vs : ℕ → Holding} {v w : Holding} {i : ℕ} {h : Handle} {z : ℕ}

theorem pass_holders {y : ℕ} {b : Holder}
    (hz : ∀ a ∈ T.holders z, a ≠ b) (hy : T.holders y = [b]) :
    (T.pass z o).holders y = [b] := by
  have hne : y ≠ z := by
    rintro rfl
    exact hz b (by simp [hy]) rfl
  simp [OwnerTable.pass, hne, hy]

theorem pass_single
    (hT : ∀ y, T.holders y = [] ∧ T.busy y = false ∨ ∃ a, T.holders y = [a] ∧ T.busy y = true)
    (y : ℕ) : (T.pass z o).holders y = [] ∧ (T.pass z o).busy y = false ∨
      ∃ a, (T.pass z o).holders y = [a] ∧ (T.pass z o).busy y = true := by
  by_cases hy : y = z
  · subst hy
    cases o with
    | none => exact .inl (by simp [OwnerTable.pass])
    | some a => exact .inr ⟨a, by simp [OwnerTable.pass]⟩
  · simpa [OwnerTable.pass, hy] using hT y

theorem Knows.pass (hv : Knows T i v)
    (hz : ∀ a ∈ T.holders z, a ≠ .thread i)
    (hlogs : v.logs = none ∨ ∀ a ∈ T.holders z, ∀ n, a ≠ .log n) : Knows (T.pass z o) i v := by
  refine ⟨hv.nodup, ?_, ?_, ?_⟩
  · intro y hy
    exact pass_holders hz (hv.zones y hy)
  · intro s hs
    obtain ⟨hlock, hclose, hact⟩ := hv.session s hs
    exact ⟨hlock, hclose, hact⟩
  · intro cur other hl
    obtain ⟨hsync, hcur, hother⟩ := hv.logs cur other hl
    refine ⟨hsync, hcur, fun l ho => ⟨(hother l ho).1, ?_⟩⟩
    rcases hlogs with hnone | hz
    · rw [hnone] at hl
      cases hl
    · exact pass_holders (fun a ha => hz a ha _) (hother l ho).2

section

variable (hd : Owned vs T)
include hd

theorem Owned.revise {U : OwnerTable}
    (hsingle : ∀ z, U.holders z = [] ∧ U.busy z = false ∨
      ∃ a, U.holders z = [a] ∧ U.busy z = true)
    (hi : Knows U i w) (hothers : ∀ j, j ≠ i → Knows U j (vs j))
    (hapart : ∀ j, j ≠ i → Apart w (vs j))
    (hactive : ∀ h z, U.active h = some z → U.holders z = [.file h] ∨ w.Released h ∨
      ∃ j, j ≠ i ∧ (vs j).Released h)
    (hlog : U.holders U.metaLog.zone = [.log U.metaLog.serial]) :
    Owned (update vs i w) U := by
  refine ⟨hsingle, ?_, ?_, ?_, hlog⟩
  · intro j
    by_cases hj : j = i
    · rw [hj, update_self]
      exact hi
    · rw [update_of_ne hj]
      exact hothers j hj
  · intro j k hjk
    by_cases hj : j = i
    · rw [hj, update_self, update_of_ne (hj ▸ hjk.symm)]
      exact hapart k (hj ▸ hjk.symm)
    · rw [update_of_ne hj]
      by_cases hk : k = i
      · rw [hk, update_self]
        exact (hapart j hj).symm
      · rw [update_of_ne hk]
        exact hd.apart j k hjk
  · intro h z hz
    rcases hactive h z hz with hh | hh | ⟨j, hj, hh⟩
    · exact .inl hh
    · exact .inr ⟨i, by rwa [update_self]⟩
    · exact .inr ⟨j, by rwa [update_of_ne hj]⟩

theorem Owned.active_ne (hw : ∀ h, (vs i).Released h → w.Released h)
    (ha : T.active h = some z) :
    T.holders z = [.file h] ∨ w.Released h ∨ ∃ j, j ≠ i ∧ (vs j).Released h := by
  rcases hd.active h z ha with hh | ⟨j, hj⟩
  · exact .inl hh
  · by_cases hji : j = i
    · subst hji
      exact .inr (.inl (hw h hj))
    · exact .inr (.inr ⟨j, hji, hj⟩)

/-- A zone passes from one holder to another, or to none. -/
theorem Owned.passed
    (hz : T.holders z = [] ∨ T.holders z = [a])
    (hi : Knows (T.pass z o) i w) (hsession : w.session = (vs i).session)
    (hothers : ∀ j, j ≠ i → a ≠ .thread j)
    (hlogs : w.logs = (vs i).logs ∨ (vs i).logs ≠ none)
    (hlog : ∀ n, a = .log n → (vs i).logs ≠ none ∧ T.metaLog.serial ≠ n)
    (hfile : ∀ h, a = .file h → w.Released h) : Owned (update vs i w) (T.pass z o) := by
  have hmem : ∀ b ∈ T.holders z, b = a := by
    rcases hz with hz | hz <;> simp [hz]
  apply hd.revise (pass_single hd.single) hi
  · intro j hj
    apply (hd.knows j).pass
    · intro b hb
      rw [hmem b hb]
      exact hothers j hj
    · by_cases hn : ∃ n, a = .log n
      · obtain ⟨n, hn⟩ := hn
        exact .inl (((hd.apart i j (Ne.symm hj)).logs).resolve_left (hlog n hn).1)
      · refine .inr fun b hb n hbn => hn ⟨n, ?_⟩
        rw [← hmem b hb, hbn]
  · intro j hj
    have hij := hd.apart i j (Ne.symm hj)
    refine ⟨fun s t hs ht => hij.sessions s t (hsession ▸ hs) ht, ?_⟩
    rcases hlogs with hl | hl
    · rw [hl]
      exact hij.logs
    · exact .inr (hij.logs.resolve_left hl)
  · intro g y hy
    have hw : ∀ g, (vs i).Released g → w.Released g := by
      rintro g ⟨s, hs, hg⟩
      exact ⟨s, hsession ▸ hs, hg⟩
    rcases hd.active_ne hw (show T.active g = some y from hy) with hh | hh
    · by_cases hag : a = .file g
      · exact .inr (.inl (hfile g hag))
      · refine .inl (pass_holders ?_ hh)
        intro b hb
        rw [hmem b hb]
        exact hag
    · exact .inr hh
  · refine pass_holders ?_ hd.log
    intro b hb hbl
    rw [hmem b hb] at hbl
    exact (hlog _ hbl).2 rfl

theorem Owned.free (hz : T.busy z = false) : T.holders z = [] := by
  rcases hd.single z with ⟨hh, -⟩ | ⟨a, -, hb⟩
  · exact hh
  · rw [hz] at hb
    cases hb

theorem Owned.held (hz : T.holders z = [a]) : T.busy z = true := by
  rcases hd.single z with ⟨hh, -⟩ | ⟨b, -, hb⟩
  · rw [hz] at hh
    cases hh
  · exact hb

theorem Owned.acquired (hz : T.holders z = []) :
    Owned (update vs i ((vs i).withZones (z :: (vs i).zones)))
      (T.pass z (some (.thread i))) := by
  have hi := hd.knows i
  have hnew : z ∉ (vs i).zones := by
    intro hmem
    rw [hi.zones z hmem] at hz
    cases hz
  have hpass : Knows (T.pass z (some (.thread i))) i (vs i) := hi.pass (by simp [hz]) (by simp [hz])
  refine hd.passed (a := .thread i) (.inl hz) ?_ rfl ?_ (.inl rfl) nofun nofun
  · refine ⟨nodup_cons.mpr ⟨hnew, hi.nodup⟩, ?_, hpass.session, hpass.logs⟩
    intro y hy
    rcases mem_cons.mp hy with rfl | hy
    · simp [OwnerTable.pass]
    · exact hpass.zones y hy
  · intro j hj hij
    cases hij
    exact hj rfl

end

theorem Knows.passOwn (hi : Knows T i v)
    (hl : v.zones.Perm (z :: l)) : Knows (T.pass z o) i (v.withZones l) := by
  have hnodup := nodup_cons.mp (hl.nodup_iff.mp hi.nodup)
  have hz := hi.zones z (hl.mem_iff.mpr mem_cons_self)
  refine ⟨hnodup.2, ?_, fun s hs => ?_, ?_⟩
  · intro y hy
    have hne : y ≠ z := by
      rintro rfl
      exact hnodup.1 hy
    simp [OwnerTable.pass, hne, hi.zones y (hl.mem_iff.mpr (mem_cons_of_mem z hy))]
  · obtain ⟨hlock, hclose, hact⟩ := hi.session s hs
    exact ⟨hlock, hclose, hact⟩
  · intro cur other hl
    obtain ⟨hsync, hcur, hother⟩ := hi.logs cur other hl
    refine ⟨hsync, hcur, fun l ho => ⟨(hother l ho).1, pass_holders ?_ (hother l ho).2⟩⟩
    simp [hz]

theorem Owned.passedOwn (hd : Owned vs T)
    (hl : (vs i).zones.Perm (z :: l)) :
    Owned (update vs i ((vs i).withZones l)) (T.pass z o) := by
  have hz := (hd.knows i).zones z (hl.mem_iff.mpr mem_cons_self)
  refine hd.passed (.inr hz) ((hd.knows i).passOwn hl) rfl ?_ (.inl rfl) nofun nofun
  intro j hj hij
  cases hij
  exact hj rfl

theorem Owned.lessZones (hd : Owned vs T) (hl : l.Sublist (vs i).zones) :
    Owned (update vs i ((vs i).withZones l)) T := by
  have hi := hd.knows i
  refine hd.revise hd.single ?_ (fun j _ => hd.knows j) ?_ ?_ hd.log
  · exact ⟨hi.nodup.sublist hl, fun z hz => hi.zones z (hl.subset hz), hi.session, hi.logs⟩
  · intro j hj
    obtain ⟨hsessions, hlogs⟩ := hd.apart i j (Ne.symm hj)
    exact ⟨hsessions, hlogs⟩
  · intro g z hz
    exact hd.active_ne (fun g hg => hg) hz

theorem Owned.sessionChanged {A : Handle → Option ℕ} {W : Handle → Bool}
    {C : Handle → ℕ} (hd : Owned vs T)
    (hright : ∀ t, s = some t → t.Right (T.withFiles A W C))
    (hothers : ∀ j t, j ≠ i → (vs j).session = some t →
      t.Right (T.withFiles A W C))
    (hapart : ∀ j t u, j ≠ i → s = some t → (vs j).session = some u → t.Apart u)
    (hactive : ∀ h z, A h = some z → T.holders z = [.file h] ∨
      ((vs i).withSession s).Released h ∨ ∃ j, j ≠ i ∧ (vs j).Released h) :
    Owned (update vs i ((vs i).withSession s)) (T.withFiles A W C) := by
  have hlogs : ∀ j cur other, (vs j).logs = some (cur, other) →
      LogsRight (T.withFiles A W C) cur other := by
    intro j cur other hl
    obtain ⟨hsync, hcur, hother⟩ := (hd.knows j).logs cur other hl
    exact ⟨hsync, hcur, hother⟩
  refine hd.revise hd.single ?_ ?_ ?_ hactive hd.log
  · exact ⟨(hd.knows i).nodup, (hd.knows i).zones, hright, hlogs i⟩
  · intro j hj
    exact ⟨(hd.knows j).nodup, (hd.knows j).zones, fun t => hothers j t hj, hlogs j⟩
  · intro j hj
    exact ⟨fun t u => hapart j t u hj, (hd.apart i j (Ne.symm hj)).logs⟩

variable {n : ℕ}

theorem Session.Right.of_ne {s : Session} (hs : s.Right T) (hne : s.file ≠ h) :
    s.Right (T.withFiles (update T.active h x)
      (update T.wrLocked h b) (update T.closing h n)) := by
  obtain ⟨hlock, hclose, hact⟩ := hs
  constructor
  · simpa [OwnerTable.withFiles, update_of_ne hne] using hlock
  · simpa [OwnerTable.withFiles, update_of_ne hne] using hclose
  · simpa [OwnerTable.withFiles, update_of_ne hne] using hact

def OwnerTable.setFile (T : OwnerTable) (h : Handle) (x : Option ℕ) (b : Bool) (n : ℕ) :
    OwnerTable :=
  T.withFiles (Function.update T.active h x) (Function.update T.wrLocked h b)
    (Function.update T.closing h n)

/-- The entries of one file change. The threads other than `i` must agree if they work on
this file. -/
theorem Owned.fileChanged
    (hd : Owned vs T) (hright : ∀ t, s = some t → t.file = h ∧ t.Right (T.setFile h x b n))
    (hothers : ∀ j t, j ≠ i → (vs j).session = some t → t.file = h →
      t.Right (T.setFile h x b n) ∧ ∀ u, s = some u → u.Apart t)
    (hactive : ∀ z, x = some z → T.holders z = [.file h] ∨
      ((vs i).withSession s).Released h ∨ ∃ j, j ≠ i ∧ (vs j).Released h)
    (hkeep : ∀ g, g ≠ h → ¬ (vs i).Released g) :
    Owned (update vs i ((vs i).withSession s)) (T.setFile h x b n) := by
  apply hd.sessionChanged
  · exact fun t ht => (hright t ht).2
  · intro j t hj ht
    by_cases hf : t.file = h
    · exact (hothers j t hj ht hf).1
    · exact ((hd.knows j).session t ht).of_ne hf
  · intro j t u hj ht hu
    by_cases hf : u.file = h
    · exact (hothers j u hj hu hf).2 t ht
    · intro heq
      exact absurd (heq.symm.trans (hright t ht).1) hf
  · intro g z hz
    by_cases hg : g = h
    · subst hg
      rw [update_self] at hz
      exact hactive z hz
    · rw [update_of_ne hg] at hz
      rcases hd.active g z hz with hh | ⟨j, hj⟩
      · exact .inl hh
      · refine .inr (.inr ⟨j, ?_, hj⟩)
        rintro rfl
        exact hkeep g hg hj

theorem Session.Right.set {a : Access} {c : Bool}
    (hlock : b = true → c = true) (hclose : b = false → n ≠ 0 ∧ a ≠ .none)
    (hact : ∀ z, a = .knows z → x = z) : (⟨h, b, a⟩ : Session).Right (T.setFile h x c n) := by
  constructor
  · simpa [OwnerTable.setFile, OwnerTable.withFiles] using hlock
  · simpa [OwnerTable.setFile, OwnerTable.withFiles] using hclose
  · simpa [OwnerTable.setFile, OwnerTable.withFiles] using hact

theorem Owned.other_session (hd : Owned vs T) {s : Session} {j : ℕ}
    (hs : (vs i).session = some s) (hacc : s.access ≠ .none) (hj : j ≠ i)
    (ht : (vs j).session = some t) (hf : t.file = s.file) :
    t.access = .none ∧ t.locked = true ∧ T.wrLocked s.file = true ∧ s.locked = false := by
  obtain ⟨hlock, hnone⟩ := (hd.apart i j (Ne.symm hj)).sessions s t hs ht hf.symm
  obtain ⟨hright, hclose, -⟩ := (hd.knows j).session t ht
  have hnone := hnone.resolve_left hacc
  have htl : t.locked = true := by
    by_contra hl
    exact (hclose (Bool.eq_false_iff.mpr hl)).2 hnone
  refine ⟨hnone, htl, hf ▸ hright htl, ?_⟩
  by_contra hl
  exact hlock ⟨Bool.of_not_eq_false hl, htl⟩

theorem Owned.accessChanged {a c : Access} (hd : Owned vs T)
    (hs : (vs i).session = some ⟨h, b, a⟩) (ha : a ≠ .none) (hc : c ≠ .none)
    (hx : ∀ z, c = .knows z → x = z)
    (hactive : ∀ z, x = some z → T.holders z = [.file h] ∨ c = .released) :
    Owned (update vs i ((vs i).withSession (some ⟨h, b, c⟩)))
      (T.setFile h x (T.wrLocked h) (T.closing h)) := by
  obtain ⟨hlock, hclose, -⟩ := (hd.knows i).session _ hs
  apply hd.fileChanged
  · rintro t ⟨⟩
    exact ⟨rfl, Session.Right.set hlock (fun hb => ⟨(hclose hb).1, hc⟩) hx⟩
  · intro j t hj ht hf
    obtain ⟨hnone, htl, hw, hb⟩ := hd.other_session hs ha hj ht hf
    obtain ⟨g, _, _⟩ := t
    cases hf
    cases hnone
    cases htl
    refine ⟨Session.Right.set (fun _ => hw) nofun nofun, ?_⟩
    rintro u ⟨⟩ -
    exact ⟨fun hh => Bool.false_ne_true (hb.symm.trans hh.1), .inr rfl⟩
  · intro z hz
    rcases hactive z hz with hh | hh
    · exact .inl hh
    · exact .inr (.inl ⟨_, rfl, rfl, hh⟩)
  · rintro g hg ⟨s, hs', hsg, -⟩
    rw [hs] at hs'
    cases hs'
    exact hg hsg.symm

theorem setFile_self (T : OwnerTable) (h : Handle) :
    T.setFile h (T.active h) (T.wrLocked h) (T.closing h) = T := by
  simp [OwnerTable.setFile, OwnerTable.withFiles]

theorem Owned.activeHeld (hd : Owned vs T)
    (hs : (vs i).session = some ⟨h, b, .knows (some z)⟩) : T.holders z = [.file h] := by
  have hact := ((hd.knows i).session _ hs).active _ rfl
  rcases hd.active h z hact with hh | ⟨j, t, ht, hf, hrel⟩
  · exact hh
  · by_cases hj : j = i
    · subst hj
      rw [hs] at ht
      cases ht
      cases hrel
    · have := (hd.other_session hs nofun hj ht hf).1
      rw [hrel] at this
      cases this

theorem Owned.activated (hd : Owned vs T)
    (hl : (vs i).zones.Perm (z :: l)) (hs : (vs i).session = some ⟨h, b, .knows none⟩) :
    Owned (update vs i ⟨l, some ⟨h, b, .knows (some z)⟩, (vs i).logs⟩)
      ((T.pass z (some (.file h))).setFile h (some z) (T.wrLocked h) (T.closing h)) := by
  have hpass := hd.passedOwn (o := some (.file h)) hl
  have hset := hpass.accessChanged (a := .knows none)
    (c := .knows (some z)) (by rw [update_self]; exact hs) nofun nofun
    (by rintro _ ⟨⟩; rfl) (by rintro _ ⟨⟩; exact .inl (by simp [OwnerTable.pass]))
  rw [update_self, update_idem] at hset
  exact hset

theorem Owned.fileReleased (hd : Owned vs T)
    (hs : (vs i).session = some ⟨h, b, .knows (some z)⟩) :
    Owned (update vs i ((vs i).withSession (some ⟨h, b, .released⟩))) (T.pass z none) := by
  have hz := hd.activeHeld hs
  have hrel := hd.accessChanged (c := .released) (x := T.active h) hs nofun nofun nofun
    fun _ _ => .inr rfl
  rw [setFile_self] at hrel
  have hi := hrel.knows i
  have hpass := hrel.passed (o := none) (i := i)
    (w := (vs i).withSession (some ⟨h, b, .released⟩)) (.inr hz) ?_ ?_ nofun ?_ nofun ?_
  · rwa [update_idem] at hpass
  · rw [update_self] at hi
    exact hi.pass (by simp [hz]) (.inr (by simp [hz]))
  · rw [update_self]
  · rw [update_self]
    exact .inl rfl
  · rintro g ⟨⟩
    exact ⟨_, rfl, rfl, rfl⟩

theorem Owned.cleared (hd : Owned vs T)
    (hs : (vs i).session = some ⟨h, b, .released⟩) :
    Owned (update vs i ((vs i).withSession (some ⟨h, b, .knows none⟩)))
      (T.setFile h none (T.wrLocked h) (T.closing h)) :=
  hd.accessChanged hs nofun nofun (by rintro _ ⟨⟩; rfl) nofun

theorem Holding.not_released (hv : ∀ s, v.session = some s → s.access ≠ .released) :
    ¬ v.Released h := by
  rintro ⟨s, hs, -, hrel⟩
  exact hv s hs hrel

theorem Owned.lockChanged (hd : Owned vs T)
    (hi : ∀ t, (vs i).session = some t → t.access ≠ .released)
    (hright : ∀ t, s = some t → t.file = h ∧ t.Right (T.setFile h (T.active h) b n))
    (hothers : ∀ j t, j ≠ i → (vs j).session = some t → t.file = h →
      (t.locked = true → b = true) ∧ (t.locked = false → n ≠ 0) ∧ ∀ u, s = some u → u.Apart t) :
    Owned (update vs i ((vs i).withSession s)) (T.setFile h (T.active h) b n) := by
  apply hd.fileChanged hright
  · rintro j ⟨g, c, a⟩ hj ht hf
    obtain ⟨hlock, hclose, hapart⟩ := hothers j _ hj ht hf
    obtain ⟨-, hacc, hact⟩ := (hd.knows j).session _ ht
    cases hf
    exact ⟨Session.Right.set hlock (fun hc => ⟨hclose hc, (hacc hc).2⟩) hact, hapart⟩
  · intro z hz
    exact hd.active_ne (fun g hg => absurd hg (Holding.not_released hi)) hz
  · exact fun g _ => Holding.not_released hi

theorem ne_released_of_eq {s : Session} (hs : v.session = some s) (ha : s.access ≠ .released)
    (ht : v.session = some t) : t.access ≠ .released := by
  rw [hs] at ht
  cases ht
  exact ha

theorem ne_released_of_none (hs : v.session = none) (ht : v.session = some t) :
    t.access ≠ .released := by
  rw [hs] at ht
  cases ht

section

variable (hd : Owned vs T)
include hd

theorem Owned.opened (hs : (vs i).session = none)
    (hw : T.wrLocked h = false) (hc : T.closing h = 0) :
    Owned (update vs i ((vs i).withSession (some ⟨h, true, .knows (T.active h)⟩)))
      (T.setFile h (T.active h) true (T.closing h)) := by
  apply hd.lockChanged fun t => ne_released_of_none hs
  · rintro t ⟨⟩
    exact ⟨rfl, Session.Right.set (fun _ => rfl) nofun (by rintro _ ⟨⟩; rfl)⟩
  · rintro j t hj ht rfl
    obtain ⟨hlock, hclose, -⟩ := (hd.knows j).session t ht
    cases htl : t.locked with
    | true => exact absurd (hlock htl) (by simp [hw])
    | false => exact absurd hc (hclose htl).1

theorem Owned.taken (hs : (vs i).session = none) (hw : T.wrLocked h = false) :
    Owned (update vs i ((vs i).withSession (some ⟨h, true, .none⟩)))
      (T.setFile h (T.active h) true (T.closing h)) := by
  apply hd.lockChanged fun t => ne_released_of_none hs
  · rintro t ⟨⟩
    exact ⟨rfl, Session.Right.set (fun _ => rfl) nofun nofun⟩
  · rintro j t hj ht rfl
    obtain ⟨hlock, hclose, -⟩ := (hd.knows j).session t ht
    refine ⟨fun _ => rfl, fun htl => (hclose htl).1, ?_⟩
    rintro u ⟨⟩ -
    exact ⟨fun hh => absurd (hlock hh.2) (by simp [hw]), .inl rfl⟩

theorem Owned.closingStarted
    (hs : (vs i).session = some ⟨h, true, .knows x⟩) (hn : n ≠ 0) :
    Owned (update vs i ((vs i).withSession (some ⟨h, false, .knows x⟩)))
      (T.setFile h (T.active h) false n) := by
  have hact := ((hd.knows i).session _ hs).active x rfl
  apply hd.lockChanged fun t => ne_released_of_eq hs nofun
  · rintro t ⟨⟩
    refine ⟨rfl, Session.Right.set nofun (fun _ => ⟨hn, nofun⟩) ?_⟩
    rintro _ ⟨⟩
    exact hact
  · intro j t hj ht hf
    exact absurd (hd.other_session hs nofun hj ht hf).2.2.2 Bool.noConfusion

theorem Owned.closingEnded
    (hs : (vs i).session = some ⟨h, false, .knows x⟩) :
    Owned (update vs i ((vs i).withSession none))
      (T.setFile h (T.active h) (T.wrLocked h) n) := by
  apply hd.lockChanged fun t => ne_released_of_eq hs nofun
  · exact nofun
  · intro j t hj ht hf
    obtain ⟨-, htl, hw, -⟩ := hd.other_session hs nofun hj ht hf
    exact ⟨fun _ => hw, fun hl => Bool.noConfusion (htl.symm.trans hl), nofun⟩

theorem Owned.left (hs : (vs i).session = some ⟨h, true, .none⟩) :
    Owned (update vs i ((vs i).withSession none))
      (T.setFile h (T.active h) false (T.closing h)) := by
  apply hd.lockChanged fun t => ne_released_of_eq hs nofun
  · exact nofun
  · rintro j t hj ht rfl
    have hlock := ((hd.apart i j (Ne.symm hj)).sessions _ t hs ht rfl).1
    exact ⟨fun htl => absurd ⟨rfl, htl⟩ hlock,
      fun htl => (((hd.knows j).session t ht).closing htl).1, nofun⟩

theorem Owned.forgotten
    (hs : ∀ t, (vs i).session = some t → t.access ≠ .released) :
    Owned (update vs i ((vs i).withSession none)) T := by
  have hsame : Owned (update vs i ((vs i).withSession none))
      (T.withFiles T.active T.wrLocked T.closing) := by
    refine hd.sessionChanged (by rintro _ ⟨⟩) ?_ (by rintro _ _ _ _ ⟨⟩) ?_
    · exact fun j t _ ht => (hd.knows j).session t ht
    · exact fun g z hz => hd.active_ne (fun g hg => absurd hg (Holding.not_released hs)) hz
  exact hsame

theorem Owned.logsChanged {l : Option (MetaLogObject × Option MetaLogObject)}
    {m : MetaLogObject}
    (hi : ∀ cur other, l = some (cur, other) →
      LogsRight { T with metaLog := m, syncing := b } cur other)
    (hothers : ∀ j, j ≠ i → (vs j).logs = none)
    (hlog : T.holders m.zone = [.log m.serial]) :
    Owned (update vs i ((vs i).withLogs l)) { T with metaLog := m, syncing := b } := by
  have hsession : ∀ j s, (vs j).session = some s →
      s.Right { T with metaLog := m, syncing := b } := by
    intro j s hs
    obtain ⟨hlock, hclose, hact⟩ := (hd.knows j).session s hs
    exact ⟨hlock, hclose, hact⟩
  refine hd.revise hd.single ?_ ?_ ?_ ?_ hlog
  · exact ⟨(hd.knows i).nodup, (hd.knows i).zones, hsession i, hi⟩
  · intro j hj
    refine ⟨(hd.knows j).nodup, (hd.knows j).zones, hsession j, ?_⟩
    rw [hothers j hj]
    exact nofun
  · intro j hj
    exact ⟨(hd.apart i j (Ne.symm hj)).sessions, .inr (hothers j hj)⟩
  · intro g z hz
    apply hd.active_ne _ hz
    exact fun g hg => hg

end

section

variable (hd : Owned vs T)
include hd

theorem Owned.others_logs
    (hl : (vs i).logs = some p) {j : ℕ} (hj : j ≠ i) : (vs j).logs = none :=
  (hd.apart i j (Ne.symm hj)).logs.resolve_left (by simp [hl])

theorem Owned.syncLocked (hfree : T.syncing = false) :
    Owned (update vs i ((vs i).withLogs (some (T.metaLog, none))))
      { T with syncing := true } := by
  refine hd.logsChanged ?_ ?_ hd.log
  · rintro cur other ⟨⟩
    exact ⟨rfl, rfl, nofun⟩
  · intro j hj
    by_contra hne
    obtain ⟨⟨cur, other⟩, hl⟩ := Option.ne_none_iff_exists'.mp hne
    have := ((hd.knows j).logs cur other hl).syncing
    rw [hfree] at this
    cases this

theorem Owned.syncUnlocked
    (hl : (vs i).logs = some p) :
    Owned (update vs i ((vs i).withLogs none)) { T with syncing := false } :=
  hd.logsChanged (m := T.metaLog) (b := false) nofun (fun _ => hd.others_logs hl) hd.log

theorem Owned.logMade {l : MetaLogObject} {r : List ℕ} {cur : MetaLogObject}
    (hz : (vs i).zones.Perm (l.zone :: r)) (hl : (vs i).logs = some (cur, none))
    (hne : l.serial ≠ cur.serial) :
    Owned (update vs i ⟨r, (vs i).session, some (cur, some l)⟩)
      (T.pass l.zone (some (.log l.serial))) := by
  have hpass := hd.passedOwn (o := some (.log l.serial)) hz
  obtain ⟨hsync, hcur, -⟩ := (hd.knows i).logs cur none hl
  have hset := hpass.logsChanged (i := i) (l := some (cur, some l)) (m := T.metaLog)
    (b := T.syncing) ?_ ?_ ?_
  · rw [update_self, update_idem] at hset
    exact hset
  · rintro _ _ ⟨⟩
    refine ⟨hsync, hcur, ?_⟩
    rintro _ ⟨⟩
    exact ⟨hne, by simp [OwnerTable.pass]⟩
  · intro j hj
    rw [update_of_ne hj]
    exact hd.others_logs hl hj
  · exact hpass.log

theorem Owned.logSet {l cur : MetaLogObject}
    (hl : (vs i).logs = some (cur, some l)) :
    Owned (update vs i ((vs i).withLogs (some (l, some cur)))) { T with metaLog := l } := by
  obtain ⟨hsync, hcur, hother⟩ := (hd.knows i).logs cur _ hl
  obtain ⟨hne, hzone⟩ := hother l rfl
  refine hd.logsChanged ?_ (fun _ => hd.others_logs hl) hzone
  rintro _ _ ⟨⟩
  refine ⟨hsync, rfl, ?_⟩
  rintro _ ⟨⟩
  exact ⟨hne.symm, by rw [← hcur]; exact hd.log⟩

theorem Owned.logReleased {l cur : MetaLogObject}
    (hl : (vs i).logs = some (cur, some l)) :
    Owned (update vs i ((vs i).withLogs (some (cur, none)))) (T.pass l.zone none) := by
  obtain ⟨hsync, hcur, hother⟩ := (hd.knows i).logs cur _ hl
  obtain ⟨hne, hzone⟩ := hother l rfl
  refine hd.passed (.inr hzone) ?_ rfl nofun (.inr (by simp [hl])) ?_ nofun
  · have hi := hd.knows i
    refine ⟨hi.nodup, ?_, ?_, ?_⟩
    · intro y hy
      exact pass_holders (by simp [hzone]) (hi.zones y hy)
    · intro s hs
      obtain ⟨hlock, hclose, hact⟩ := hi.session s hs
      exact ⟨hlock, hclose, hact⟩
    · rintro _ _ ⟨⟩
      exact ⟨hsync, hcur, nofun⟩
  · rintro n ⟨⟩
    exact ⟨by simp [hl], by rw [hcur]; exact hne.symm⟩

end

end ZenFs.Device
