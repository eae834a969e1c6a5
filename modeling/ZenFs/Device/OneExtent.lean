import ZenFs.Device.Allocations
import ZenFs.Device.MetaZones

/-!
With fragmentation disabled, the first flush of an SST file is one extent.

The size of the flush is what the zone is asked to have room for, by every policy and in the last
resort alike, so the zone that comes back takes all of it, or it is an empty one.
-/

namespace ZenFs.Device

open Library Task Judgement

variable {data : List UInt8} {f : FileBody → FileBody} {ioType : IOType} {left m rounds z : ℕ}
variable {lifetime : Lifetime} {o : Call} {x : Handle → List ZoneExtent} {r : o.Res}
variable {e : Setup} {a : Holder} {h : Handle} {d t : Zbd} {n spins : ℕ}

/-- A device on which an SST file without a zone is about to be flushed: its level and keys are
known, and every zone that looks empty has room for `n` bytes. -/
structure Zbd.FirstFlush (e : Setup) (h : Handle) (n : ℕ) (d : Zbd) : Prop extends d.AtRest e where
  wp : ∀ z, e.start z ≤ (d.zones z).wp
  log : e.nrZones ≤ d.metaLog.zone
  listed : (d.place.info h).listed = true
  inactive : (d.bodies h).activeZone = none
  fits : ∀ z < e.nrZones, (d.zones z).isEmpty (e.start z) = true → n ≤ (d.zones z).capacity

theorem run_activeZone_bind {α : Type} {f : ℕ → DevTask α}
    (hz : (d.bodies h).activeZone = some z) :
    (activeZone h >>= f).run (exec e) d = (f z).run (exec e) d := by
  have hactive : (activeZone h).run (exec e) d = some (z, d) := by
    rw [activeZone, run_bind, look_run, Option.bind_some, hz]
    rfl
  rw [run_bind, hactive]
  rfl

theorem run_lookActiveZone_bind {α : Type} {f : Zone → DevTask α}
    (hz : (d.bodies h).activeZone = some z) :
    (lookActiveZone h >>= f).run (exec e) d = (f (d.zones z)).run (exec e) d := by
  rw [lookActiveZone, bind_assoc, run_activeZone_bind hz]
  rfl

section

variable {α : Type} {Q : α → Zbd → Prop}

theorem ends_of_run_eq {m n : DevTask α} (hrun : m.run (exec e) d = n.run (exec e) d)
    (hn : n.Ends (exec e) d Q) : m.Ends (exec e) d Q := fun r t hr => hn r t (hrun.symm.trans hr)

theorem ends_activeZone {f : ℕ → DevTask α} (hz : (d.bodies h).activeZone = some z)
    (hf : (f z).Ends (exec e) d Q) : (activeZone h >>= f).Ends (exec e) d Q :=
  ends_of_run_eq (run_activeZone_bind hz) hf

theorem ends_lookActiveZone {f : Zone → DevTask α} (hz : (d.bodies h).activeZone = some z)
    (hf : (f (d.zones z)).Ends (exec e) d Q) : (lookActiveZone h >>= f).Ends (exec e) d Q :=
  ends_of_run_eq (run_lookActiveZone_bind hz) hf

theorem ends_look {f : Zbd → DevTask α} (hf : (f d).Ends (exec e) d Q) :
    (look >>= f).Ends (exec e) d Q := by
  apply ends_call
  rintro _ _ ⟨⟩
  exact hf

end

theorem exec_bodies (ho : o.sparesBodies = true)
    (hr : exec e o d = some (r, t)) : t.bodies = d.bodies := (exec_framed hr).bodies ho

/-- A file that takes a zone leaves the room of all zones as it is. -/
theorem takeZone_ends (hlog : e.nrZones ≤ d.metaLog.zone) :
    (do
      call (.setActiveZone a h z)
      let wp := (← lookActiveZone h).wp
      call (.body h fun b => { b with extentStart := some wp, extentFilepos := b.fileSize })
      syncFileMetadata e a h).Ends (exec e) d fun _ t =>
        (∀ y < e.nrZones, t.zones y = d.zones y) ∧ (t.bodies h).activeZone = some z := by
  apply ends_call
  intro _ u hu
  have hzones : u.zones = d.zones := by
    cases hu
    rfl
  have hactive : (u.bodies h).activeZone = some z := by
    cases hu
    simp [Zbd.putActiveZone, Zbd.setBody]
  have hulog : e.nrZones ≤ u.metaLog.zone := by
    cases hu
    exact hlog
  refine ends_lookActiveZone hactive ?_
  apply ends_call
  rintro _ _ ⟨⟩
  refine (syncFileMetadata_aside (d := u.onBody h _) hulog).mono fun s v hv => ⟨?_, ?_⟩
  · intro y hy
    rw [hv.zones y hy, ← hzones]
    rfl
  · rw [hv.bodies]
    simp [Zbd.onBody, Zbd.setBody, hactive]

abbrev keepsExtents (e : Setup) (x : Handle → List ZoneExtent) : Judgement Call.Res :=
  .keeps (exec e) fun d => d.extents = x

theorem keepsExtents_call (ho : o.sparesBooks = true) : (keepsExtents e x).Calls o := by
  intro s r t hs hr
  exact ⟨(exec_sparesBooks ho hr).extents.trans hs, trivial⟩

theorem keepsExtents_body (hf : ∀ b, (f b).extents = b.extents) :
    (keepsExtents e x).Calls (.body h f) := by
  rintro s _ _ hs ⟨⟩
  have hsame : SameBooks s (s.onBody h f) := sameBooks_of_body rfl rfl (hf _)
  exact ⟨hsame.extents.trans hs, trivial⟩

theorem handles_keepsExtents : Handles a (keepsExtents e x) := by
  constructor
  iterate 3 on_goal 1 => constructor
  all_goals
    intros
    exact keepsExtents_call rfl

theorem logs_keepsExtents : Logs a (keepsExtents e x) := by
  constructor <;> intros <;> exact keepsExtents_call rfl

theorem places_keepsExtents : Places e h (keepsExtents e x) where
  raiseForEmptyZone _ := keepsExtents_call rfl
  raiseMaxLevel := keepsExtents_call rfl
  setAllocSize _ := keepsExtents_call rfl
  policies := .mono (keepsExtents_call rfl)
    fun _ _ _ _ _ _ _ => keepsExtents_call rfl

theorem advances_keepsExtents : Advances e a h (keepsExtents e x) where
  handles := handles_keepsExtents
  places := places_keepsExtents
  close _ := keepsExtents_call rfl
  release _ := keepsExtents_call rfl
  setActiveZone _ := keepsExtents_call rfl
  clearActiveZone := keepsExtents_call rfl
  startExtent _ := keepsExtents_body fun _ => rfl
  sync := syncFileMetadata_admits handles_keepsExtents.toSeeks logs_keepsExtents
    (keepsExtents_call rfl) (keepsExtents_call rfl)

theorem allocateNewZone_extents : (allocateNewZone e a h spins).Ends (exec e) d fun _ t =>
    t.extents = d.extents :=
  (Keeps.ends (allocateNewZone_admits advances_keepsExtents spins) rfl).mono fun _ _ ht => ht.1

theorem nextZoneIfFull_extents :
    (nextZoneIfFull e a h spins left).Ends (exec e) d fun _ t => t.extents = d.extents :=
  (Keeps.ends (nextZoneIfFull_admits advances_keepsExtents spins left) rfl).mono fun _ _ ht => ht.1

theorem addExtent_extents (hactive : (d.bodies h).activeZone = some z) (length : ℕ) :
    (addExtent h 0 length).Ends (exec e) d fun _ t =>
      ∃ start, t.extents h = d.extents h ++ [⟨start, length, z⟩] := by
  refine ends_activeZone hactive ?_
  refine ends_lookActiveZone hactive ?_
  apply ends_call
  rintro _ u ⟨⟩
  apply ends_call
  rintro _ v ⟨⟩
  rintro _ w ⟨⟩
  exact ⟨_, by simp [Zbd.extents, Zbd.onBody, Zbd.setBody, Zbd.use, Zbd.setZone]; rfl⟩

theorem allocateIOZone_takes (hfragments : e.fragmentationEnabled = false) (hd : d.AtRest e)
    (hlisted : (d.place.info h).listed = true) :
    (allocateIOZone e a h spins lifetime ioType).Ends (exec e) d fun r t =>
      ∀ z, r.2 = some z → t.Takes e ((d.place.info h).allocSize % 2 ^ 32) z := by
  rintro ⟨status, zone⟩ v hrun z rfl
  have hallocated := allocateIOZone_allocated lifetime ioType hd spins _ v hrun
  obtain rfl : status = .OK := hallocated.ok nofun
  obtain ⟨t, hcome, r, u, hmatch, w, hafter, rfl⟩ :=
    (allocateIOZone_run_iff spins lifetime ioType).mp hrun
  have hsettled := hcome.settled
  have hmatched : (matchForFile e a h lifetime).Ends (exec e) t fun r u =>
      r.1 = .OK ∧ Found e a ((d.place.info h).allocSize % 2 ^ 32) t r.2.2 u ∧
        (r.2.2 = none → lifetimeDiffCouldBeWorse ≤ r.2.1) := by
    apply ends_look
    rw [hfragments, hcome.info]
    refine (getBestOpenZoneMatch_listed_ends lifetime _ _ ?_ ?_ ?_).mono fun r u hr =>
      ⟨hr.1, hr.2.1, fun hzone => (hr.2.2 hzone).1⟩
    · rw [hcome.info]
      exact hlisted
    · rw [hsettled.levelwise, hd.levelwise]
    · rw [OnIoZones, hsettled.bodies]
      exact hd.onIoZones
  obtain ⟨s, best, zone⟩ := r
  obtain ⟨rfl, hfound, hbad⟩ := hmatched _ u hmatch
  have hpos := hsettled.leaves.zonePos hd.zonePos
  exact (afterMatch_allocated lifetime spins hfound hbad hpos _ w hafter).2 z rfl

/-- The first zone of a file has room for all of its first flush. -/
theorem allocateNewZone_fits (hfragments : e.fragmentationEnabled = false)
    (hd : d.FirstFlush e h n) (hsize : (d.place.info h).allocSize % 2 ^ 32 = n) :
    (allocateNewZone e a h spins).Ends (exec e) d fun s t => s.ok = true →
      ∃ z < e.nrZones, (t.bodies h).activeZone = some z ∧ n ≤ (t.zones z).capacity := by
  apply ends_look
  refine .bind fun r t hrun => ?_
  obtain ⟨status, zone⟩ := r
  have hallocated := allocateIOZone_allocated _ _ hd.toAtRest spins _ t hrun
  have htakes := allocateIOZone_takes hfragments hd.toAtRest hd.listed _ t hrun
  rw [hsize] at htakes
  dsimp only
  split
  · next hstatus =>
    refine .ret fun hok => ?_
    simp [hok] at hstatus
  · cases zone with
    | none => exact .ret nofun
    | some z =>
      have hz := hallocated.ioZone z rfl
      have hroom : n ≤ (t.zones z).capacity := by
        obtain hempty | hroom := htakes z rfl
        · -- An empty zone was not finished, so it has the room it had.
          have hbefore : (d.zones z).isEmpty (e.start z) = true := by
            rw [← hallocated.leaves.isEmpty]
            exact hempty
          obtain hsame | ⟨-, -, hdata⟩ := hallocated.leaves.capacity z
          · rw [hsame]
            exact hd.fits z hz hbefore
          · rw [hempty] at hdata
            cases hdata
        · exact hroom
      have hlog : e.nrZones ≤ t.metaLog.zone := by
        rw [(allocateIOZone_balanced hd.wp spins _ _ _ t hrun).metaLog]
        exact hd.log
      refine (takeZone_ends hlog).mono fun s v hv _ => ⟨z, hz, hv.2, ?_⟩
      rw [hv.1 z hz]
      exact hroom

section

variable {headerSize : ℕ} {header : ℕ → List UInt8}

variable (e a h headerSize header spins) in
/-- The write of one segment, its extent, and a new zone if the write filled the old one. -/
def writeSegment (left : List UInt8) (wrSize length : ℕ) : DevTask Status := do
  let s ← appendZone (.file h) (← activeZone h)
    ((header length ++ left).take wrSize ++ List.replicate (padSize e wrSize) 0)
  if !s.ok then return s
  else
    addExtent h headerSize length
    nextZoneIfFull e a h spins (left.length - length)

theorem segmentRounds_succ (n : ℕ) (left : List UInt8) :
    segmentRounds e a h headerSize header spins (n + 1) left =
      (do
        if left.isEmpty then return .OK
        else
          let wrSize := min (left.length + headerSize) (← lookActiveZone h).capacity
          let length := u32Sub wrSize headerSize
          let s ← writeSegment e a h spins headerSize header left wrSize length
          if !s.ok then return s
          else segmentRounds e a h headerSize header spins n (left.drop length)) := by
  rw [segmentRounds]
  congr 1
  congr 1
  funext zone
  simp only [writeSegment, bind_assoc]
  congr 1
  funext z
  congr 1
  funext s
  cases hs : s.ok with
  | true => simp
  | false => simp [hs]

theorem u32Sub_of_le (hle : m ≤ n) (hlt : n < 2 ^ 32) : u32Sub n m = n - m := by
  rw [u32Sub]
  omega

end

/-- Data that fits into the active zone is written in one round. -/
theorem segmentRounds_one_extent
    (hactive : (d.bodies h).activeZone = some z) (hroom : data.length ≤ (d.zones z).capacity)
    (hsize : data.length < 2 ^ 32) (hdata : data ≠ []) :
    (segmentRounds e a h 0 (fun _ => []) spins rounds data).Ends (exec e) d fun s t =>
      s.ok = true → ∃ start, t.extents h = d.extents h ++ [⟨start, data.length, z⟩] := by
  cases rounds with
  | zero => exact .call fun r => nomatch r
  | succ rounds =>
    rw [segmentRounds_succ, if_neg (by simpa using hdata)]
    refine ends_lookActiveZone hactive ?_
    have hwhole : min (data.length + 0) (d.zones z).capacity = data.length := by omega
    have hlength : u32Sub data.length 0 = data.length := u32Sub_of_le (Nat.zero_le _) hsize
    dsimp only
    rw [hwhole, hlength, List.drop_length]
    have hsegment : (writeSegment e a h spins 0 (fun _ => []) data data.length data.length).Ends
        (exec e) d fun s t => s.ok = true →
          ∃ start, t.extents h = d.extents h ++ [⟨start, data.length, z⟩] := by
      refine ends_activeZone hactive ?_
      apply ends_call
      intro s t hr
      have hextents : t.extents = d.extents := (exec_sparesBooks rfl hr).extents
      cases hs : s.ok with
      | false =>
        refine .ret fun hok => ?_
        rw [hs] at hok
        cases hok
      | true =>
        have htactive : (t.bodies h).activeZone = some z := by
          rw [exec_bodies rfl hr]
          exact hactive
        refine (addExtent_extents htactive data.length).seq fun _ u hu => ?_
        refine (nextZoneIfFull_extents).mono fun s v hv _ => ?_
        obtain ⟨start, hstart⟩ := hu
        exact ⟨start, by rw [hv, hstart, hextents]⟩
    refine hsegment.seq fun s t ht => ?_
    cases hs : s.ok with
    | false =>
      refine .ret fun hok => ?_
      rw [hs] at hok
      cases hok
    | true =>
      -- Nothing is left, so the next round returns.
      cases rounds with
      | zero => exact .call fun r => nomatch r
      | succ rounds => exact .ret fun _ => ht hs

theorem setAllocSize_sets (n : ℕ) : (setAllocSize h n).Ends (exec e) d fun _ t =>
    t = d.setPlace (d.place.setInfo h { d.place.info h with allocSize := n }) := by
  apply ends_call
  rintro _ _ ⟨⟩
  exact .ret rfl

theorem Zbd.FirstFlush.setAllocSize (hd : d.FirstFlush e h n) (hn : n < 2 ^ 32)
    (ht : t = d.setPlace (d.place.setInfo h { d.place.info h with allocSize := n })) :
    t.FirstFlush e h n ∧ (t.place.info h).allocSize % 2 ^ 32 = n ∧ t.bodies = d.bodies := by
  subst ht
  refine ⟨⟨⟨hd.zonePos, hd.levelwise, hd.onIoZones⟩, hd.wp, hd.log, ?_, hd.inactive, hd.fits⟩,
    ?_, rfl⟩
  · simpa [Zbd.setPlace, FileInfo.listed] using hd.listed
  · simpa [Zbd.setPlace] using Nat.mod_eq_of_lt hn

def wholeSetup : Setup := { smallSetup .sameLevelNearbyKeys with fragmentationEnabled := false }

theorem firstFlush_usedDevice : usedDevice.FirstFlush wholeSetup 1 50 where
  zonePos _ := by decide
  levelwise := rfl
  onIoZones := onIoZones_usedDevice
  wp z := by
    change z * 64 ≤ (if z = 0 then { smallDevice.zones 0 with
      capacity := 48, wp := 16, usedCapacity := 16 } else smallDevice.zones z).wp
    split
    · next hz => simp [hz]
    · exact le_rfl
  log := by decide
  listed := by decide
  inactive := rfl
  fits := by decide

end ZenFs.Device
