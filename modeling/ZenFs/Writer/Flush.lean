import ZenFs.Writer.Model

/-!
What a flush puts on the device.

A flush that ends well adds the data of the buffer to what the extents lead to. A segment is
written where `extent_start_` says only if the zone has not been written to since.
-/

namespace ZenFs.Writer

open Library Library.Coding Library.Medium List Function Option Nat

variable {capacity fuel left n pos wrSize : ℕ} {m : ℕ → UInt8} {u v : State} {x : ZoneExtent}
variable {c : Config} {s t : State} {env : Answers}
variable {status : Status} {g : Segment} {answer : Status × ℕ}

theorem Config.headerSize_le (c : Config) : c.headerSize ≤ sparseHeaderSize := by
  rw [Config.headerSize]
  split
  · exact le_rfl
  · exact zero_le _

/-- A segment takes some of the data, and fits into the zone in whole blocks. Either it takes all
that is left, or it fills the zone and has no padding. -/
structure Segment.Fits (c : Config) (left capacity : ℕ) (g : Segment) : Prop where
  wrSize_eq : g.wrSize = c.headerSize + g.length
  length_pos : 0 < g.length
  length_le : g.length ≤ left
  le_capacity : g.wrSize + g.padSize ≤ capacity
  whole : c.blockSize ∣ g.wrSize + g.padSize
  last : g.length = left ∨ g.wrSize = capacity ∧ g.padSize = 0

theorem segment_fits (hleft : 0 < left)
    (hlt : left + c.headerSize < 2 ^ 32) (hpos : 0 < capacity) (hwhole : c.blockSize ∣ capacity) :
    (segment c left capacity).Fits c left capacity := by
  have hblock := le_of_dvd hpos hwhole
  have hheader := c.headerSize_le
  have hless := c.header_lt_block
  have hlength : (min (left + c.headerSize) capacity + (2 ^ 32 - c.headerSize)) % 2 ^ 32 =
      min (left + c.headerSize) capacity - c.headerSize := by omega
  have hle := add_padTo_le c.blockSize_pos hwhole (min_le_right (left + c.headerSize) capacity)
  constructor <;> simp only [segment]
  · omega
  · omega
  · omega
  · exact hle
  · exact dvd_add_padTo c.blockSize_pos _
  · obtain hall | hfull := le_total (left + c.headerSize) capacity
    · left
      omega
    · right
      rw [min_eq_right hfull]
      exact ⟨rfl, padTo_of_dvd hwhole⟩

theorem span_fill (hpos : c.headerSize ≤ pos)
    (hpad : pos + n ≤ g.wrSize ∨ g.padSize = 0) : span (fill c g m) pos n = span m pos n := by
  have hpadded : span (put m g.wrSize (replicate g.padSize 0)) pos n = span m pos n := by
    obtain hle | hzero := hpad
    · exact span_put_of_le m hle
    · rw [hzero, replicate_zero, put_nil]
  rw [fill]
  split
  · next hsparse =>
    rw [Config.headerSize, if_pos hsparse] at hpos
    have hbehind : 0 + (putFixed 8 g.length).length ≤ pos := by
      exact hpos
    rw [span_put_of_ge hbehind, hpadded]
  · exact hpadded

/-- The zones do not run into each other, have whole blocks left, and the extents lie below the
write pointers. -/
structure Laid (c : Config) (s : State) : Prop where
  start_le : ∀ z < c.nrZones, c.start z ≤ (s.zones z).wp
  le_end : ∀ z < c.nrZones, (s.zones z).wp + (s.zones z).capacity ≤ c.start z + c.zoneSize
  whole : ∀ z < c.nrZones, c.blockSize ∣ (s.zones z).capacity
  extents : ∀ x ∈ s.extents, x.zone < c.nrZones ∧ c.start x.zone ≤ x.start ∧
    x.start + x.length ≤ (s.zones x.zone).wp

structure Ready (c : Config) (s : State) : Prop extends Laid c s where
  active : ∀ z, s.activeZone = some z →
    z < c.nrZones ∧ 0 < (s.zones z).capacity ∧ s.extentStart = some (s.zones z).wp

variable {data : List UInt8} {z : ℕ}

theorem Laid.span_put (hs : Laid c s) (hx : x ∈ s.extents)
    (hz : z < c.nrZones) (hdata : data.length ≤ (s.zones z).capacity) :
    span (put s.dev (s.zones z).wp data) x.start x.length = span s.dev x.start x.length := by
  obtain ⟨hxz, hstart, hend⟩ := hs.extents x hx
  have hle := hs.le_end z hz
  have hxle := hs.le_end x.zone hxz
  have hfree := hs.start_le z hz
  rcases lt_trichotomy x.zone z with hlt | heq | hgt
  · have := c.disjoint x.zone z hxz hz hlt
    exact span_put_of_le _ (by omega)
  · rw [heq] at hend
    exact span_put_of_le _ hend
  · have := c.disjoint z x.zone hz hxz hgt
    exact span_put_of_ge (by omega)

theorem Laid.contents_put (hs : Laid c s) (hz : z < c.nrZones)
    (hdata : data.length ≤ (s.zones z).capacity) :
    (s.extents.flatMap fun x => span (put s.dev (s.zones z).wp data) x.start x.length) =
      s.contents := by
  rw [flatMap_def]
  congr 1
  exact map_congr_left fun x hx => hs.span_put hx hz hdata

structure SameWriter (s t : State) : Prop where
  bufferPos : t.bufferPos = s.bufferPos
  taken : t.taken = s.taken

theorem sameWriter_refl (s : State) : SameWriter s s := ⟨rfl, rfl⟩

theorem SameWriter.trans (hs : SameWriter s t) (ht : SameWriter t u) :
    SameWriter s u := ⟨ht.bufferPos.trans hs.bufferPos, ht.taken.trans hs.taken⟩

theorem appendZone_ok
    (hfits : data.length ≤ (s.zones z).capacity) (hok : answer.1.ok = true) :
    appendZone answer z data s = (.OK, { s with
      dev := put s.dev (s.zones z).wp data
      zones := update s.zones z
        ⟨(s.zones z).wp + data.length, (s.zones z).capacity - data.length⟩ }) := by
  rw [appendZone]
  simp [not_lt.mpr hfits, hok]

theorem appendZone_failed
    (hfailed : answer.1.ok = false) : (appendZone answer z data s).1.ok = false := by
  rw [appendZone]
  split
  · rfl
  · simp [hfailed]

theorem appendZone_nothing
    (hfits : data.length ≤ (s.zones z).capacity) (hfailed : answer.1.ok = false)
    (hstored : answer.2 = 0) : appendZone answer z data s = (answer.1, s) := by
  rw [appendZone]
  simp [not_lt.mpr hfits, hfailed, hstored]

structure Wrote (c : Config) (g : Segment) (z : ℕ) (s t : State) : Prop extends Laid c t where
  activeZone : t.activeZone = s.activeZone
  extentStart : t.extentStart = some (t.zones z).wp
  capacity : (t.zones z).capacity = (s.zones z).capacity - (g.wrSize + g.padSize)
  memory : t.memory = fill c g s.memory
  contents : t.contents = s.contents ++ span s.memory c.headerSize g.length
  fileSize : t.fileSize = s.fileSize + g.length
  writer : SameWriter s t

theorem wrote_segment (hs : Ready c s) (hactive : s.activeZone = some z)
    (hg : g.Fits c left (s.zones z).capacity) :
    Wrote c g z s (pushSegment c g z { s with
      memory := fill c g s.memory
      dev := put s.dev (s.zones z).wp (span (fill c g s.memory) 0 (g.wrSize + g.padSize))
      zones := update s.zones z ⟨(s.zones z).wp + (g.wrSize + g.padSize),
        (s.zones z).capacity - (g.wrSize + g.padSize)⟩ }) := by
  obtain ⟨hz, -, hstart⟩ := hs.active z hactive
  have hfits := hg.le_capacity
  have hsize := hg.wrSize_eq
  have hlength : (span (fill c g s.memory) 0 (g.wrSize + g.padSize)).length ≤
      (s.zones z).capacity := by
    rw [length_span]
    exact hfits
  have hzones (y : ℕ) (P : Room → Prop) (hsame : y ≠ z → P (s.zones y))
      (hnew : y = z → P ⟨(s.zones z).wp + (g.wrSize + g.padSize),
        (s.zones z).capacity - (g.wrSize + g.padSize)⟩) :
      P (update s.zones z ⟨(s.zones z).wp + (g.wrSize + g.padSize),
        (s.zones z).capacity - (g.wrSize + g.padSize)⟩ y) := by
    by_cases hy : y = z
    · rw [hy, update_self]
      exact hnew hy
    · rw [update_of_ne hy]
      exact hsame hy
  have hstart_le := hs.start_le z hz
  have hle_end := hs.le_end z hz
  refine ⟨⟨fun y hy => ?_, fun y hy => ?_, fun y hy => ?_, fun x hx => ?_⟩, rfl, rfl, ?_, rfl, ?_,
    rfl, ⟨rfl, rfl⟩⟩
  · apply hzones y fun room => c.start y ≤ room.wp
    · exact fun _ => hs.start_le y hy
    · rintro rfl
      exact le_add_right_of_le hstart_le
  · apply hzones y fun room => room.wp + room.capacity ≤ c.start y + c.zoneSize
    · exact fun _ => hs.le_end y hy
    · rintro rfl
      dsimp only
      omega
  · apply hzones y fun room => c.blockSize ∣ room.capacity
    · exact fun _ => hs.whole y hy
    · rintro rfl
      exact dvd_sub (hs.whole y hy) hg.whole
  · obtain hold | hnew := mem_append.mp hx
    · obtain ⟨hxz, hxstart, hxend⟩ := hs.extents x hold
      refine ⟨hxz, hxstart, ?_⟩
      apply hzones x.zone fun room => x.start + x.length ≤ room.wp
      · exact fun _ => hxend
      · intro heq
        rw [heq] at hxend
        exact le_add_right_of_le hxend
    · rw [mem_singleton.mp hnew]
      simp only [hstart, getD_some, pushSegment, update_self]
      omega
  · simp [pushSegment]
  · -- the extent starts behind the header
    have hnew : span (put s.dev (s.zones z).wp (span (fill c g s.memory) 0
        (g.wrSize + g.padSize))) ((s.zones z).wp + c.headerSize) g.length =
        span s.memory c.headerSize g.length := by
      rw [span_put_span (by omega), zero_add]
      exact span_fill le_rfl (.inl (by omega))
    simp only [State.contents, pushSegment, hstart, getD_some, flatMap_append,
      flatMap_cons, flatMap_nil, append_nil]
    rw [hs.contents_put hz hlength, hnew]
    rfl

theorem writeSegment_ok (hs : Ready c s)
    (hactive : s.activeZone = some z) (hg : g.Fits c left (s.zones z).capacity)
    (hok : answer.1.ok = true) :
    ∃ u, writeSegment c answer g z s = (.OK, u) ∧ Wrote c g z s (pushSegment c g z u) := by
  have hfits : (span (fill c g s.memory) 0 (g.wrSize + g.padSize)).length ≤
      (s.zones z).capacity := by
    rw [length_span]
    exact hg.le_capacity
  have hwrote := wrote_segment hs hactive hg
  refine ⟨_, appendZone_ok hfits hok, ?_⟩
  simp only [length_span]
  exact hwrote

/-- Zones that are allocated have room. -/
def Answers.Grants (c : Config) (env : Answers) : Prop :=
  ∀ n zones status z, env.allocate n zones = (status, some z) →
    z < c.nrZones ∧ 0 < (zones z).capacity

/-- The `n`-th allocation gives a zone, and the metadata is written. -/
def Answers.Allocates (env : Answers) (n : ℕ) (zones : ℕ → Room) : Prop :=
  (env.allocate n zones).1.ok = true ∧ (env.allocate n zones).2.isSome = true ∧
    (env.persist n).ok = true

/-- What an allocation leaves behind, whatever its status. -/
structure Allocated (c : Config) (s : State) (status : Status) (t : State) : Prop
    extends Ready c t where
  contents : t.contents = s.contents
  memory : t.memory = s.memory
  fileSize : t.fileSize = s.fileSize
  writer : SameWriter s t
  some_of_ok : status.ok = true → ∃ z, t.activeZone = some z

theorem allocateNewZone_spec (hs : Laid c s)
    (hnone : s.activeZone = none) (hgrants : env.Grants c)
    (h : allocateNewZone env n s = (status, t)) : Allocated c s status t := by
  have hidle : Ready c s := ⟨hs, fun z hz => by rw [hnone] at hz; cases hz⟩
  have hlost {status : Status} (hstatus : status.ok = false) : Allocated c s status s :=
    ⟨hidle, rfl, rfl, rfl, sameWriter_refl s, fun hok => by rw [hstatus] at hok; cases hok⟩
  rw [allocateNewZone] at h
  cases hzone : env.allocate n s.zones with
  | mk answer zone =>
    rw [hzone] at h
    cases hok : answer.ok with
    | false =>
      simp only [hok] at h
      cases h
      exact hlost hok
    | true =>
      simp only [hok] at h
      cases zone with
      | none =>
        cases h
        exact hlost rfl
      | some z =>
        cases h
        obtain ⟨hz, hroom⟩ := hgrants n s.zones answer z hzone
        refine ⟨⟨⟨hs.start_le, hs.le_end, hs.whole, hs.extents⟩, ?_⟩, rfl, rfl, rfl, ⟨rfl, rfl⟩,
          fun _ => ⟨z, rfl⟩⟩
        rintro _ ⟨⟩
        exact ⟨hz, hroom, rfl⟩

theorem allocateNewZone_ok_iff (h : allocateNewZone env n s = (status, t)) :
    status.ok = true ↔ env.Allocates n s.zones := by
  rw [allocateNewZone] at h
  rw [Answers.Allocates]
  cases hzone : env.allocate n s.zones with
  | mk answer zone =>
    rw [hzone] at h
    cases hok : answer.ok with
    | false =>
      simp only [hok] at h
      cases h
      simp [hok]
    | true =>
      simp only [hok] at h
      cases zone with
      | none | some =>
        cases h
        simp

theorem nextZone_eq (hactive : s.activeZone = some z) (hfull : (s.zones z).capacity = 0) :
    nextZone c env n g left s =
      allocateNewZone env n (moveLeft c g.wrSize left { s with activeZone := none }) := by
  rw [nextZone, closeActiveZone, hactive]
  simp [hfull]

theorem moveLeft_memory : (moveLeft c wrSize left s).memory =
    if left = 0 then s.memory else put s.memory c.headerSize (span s.memory wrSize left) := by
  rw [moveLeft]
  split <;> rfl

theorem moveLeft_eq :
    moveLeft c wrSize left s = { s with memory := (moveLeft c wrSize left s).memory } := by
  rw [moveLeft]
  split <;> rfl

theorem nextZone_spec (hs : Laid c s)
    (hactive : s.activeZone = some z) (hfull : (s.zones z).capacity = 0) (hgrants : env.Grants c)
    (h : nextZone c env n g left s = (status, t)) :
    Ready c t ∧ t.contents = s.contents ∧ t.fileSize = s.fileSize ∧ SameWriter s t ∧
      t.memory = (moveLeft c g.wrSize left s).memory ∧
      (status.ok = true → ∃ y, t.activeZone = some y) ∧
      (status.ok = true ↔ env.Allocates n s.zones) := by
  rw [nextZone_eq hactive hfull, moveLeft_eq] at h
  have hlaid : Laid c { s with
      activeZone := none
      memory := (moveLeft c g.wrSize left { s with activeZone := none }).memory } :=
    ⟨hs.start_le, hs.le_end, hs.whole, hs.extents⟩
  have halloc := allocateNewZone_spec hlaid rfl hgrants h
  have hiff := allocateNewZone_ok_iff h
  refine ⟨halloc.toReady, halloc.contents, halloc.fileSize, ?_, ?_, halloc.some_of_ok, hiff⟩
  · exact ⟨halloc.writer.bufferPos, halloc.writer.taken⟩
  · rw [halloc.memory]
    simp only [moveLeft_memory]

/-- The state before the next round: the data that is left is at the front of the buffer. -/
structure Continues (c : Config) (g : Segment) (left : ℕ) (s t : State) : Prop
    extends Ready c t where
  rest : span t.memory c.headerSize (left - g.length) =
    span s.memory (c.headerSize + g.length) (left - g.length)
  contents : t.contents = s.contents ++ span s.memory c.headerSize g.length
  fileSize : t.fileSize = s.fileSize + g.length
  writer : SameWriter s t
  zone : ∃ z, t.activeZone = some z

theorem Wrote.continues (hu : Wrote c g z s u)
    (hactive : s.activeZone = some z) (hz : z < c.nrZones)
    (hg : g.Fits c left (s.zones z).capacity) (hroom : (u.zones z).capacity ≠ 0) :
    Continues c g left s u := by
  have hall : g.length = left := by
    obtain hall | ⟨hfull, hpad⟩ := hg.last
    · exact hall
    · have := hu.capacity
      omega
  have huactive := hu.activeZone.trans hactive
  refine ⟨⟨hu.toLaid, fun y hy => ?_⟩, ?_, hu.contents, hu.fileSize, hu.writer, z, huactive⟩
  · rw [huactive] at hy
    cases hy
    exact ⟨hz, pos_of_ne_zero hroom, hu.extentStart⟩
  · rw [hall, Nat.sub_self, span_zero, span_zero]

theorem Wrote.continues_next (hu : Wrote c g z s u) (hactive : s.activeZone = some z)
    (hg : g.Fits c left (s.zones z).capacity) (hfull : (u.zones z).capacity = 0)
    (hgrants : env.Grants c) (h : nextZone c env n g (left - g.length) u = (status, v))
    (hok : status.ok = true) : Continues c g left s v := by
  obtain ⟨hready, hcontents, hsize, hwriter, hmemory, hsome, -⟩ :=
    nextZone_spec hu.toLaid (hu.activeZone.trans hactive) hfull hgrants h
  refine ⟨hready, ?_, hcontents.trans hu.contents, hsize.trans hu.fileSize,
    hu.writer.trans hwriter, hsome hok⟩
  rw [hmemory, moveLeft_memory, hu.memory]
  split
  · next hzero => rw [hzero, span_zero, span_zero]
  · next hleft =>
    have hpad : g.padSize = 0 := by
      obtain hall | ⟨-, hpad⟩ := hg.last
      · omega
      · exact hpad
    have hself := span_put_self (fill c g s.memory) c.headerSize
      (span (fill c g s.memory) g.wrSize (left - g.length))
    rw [length_span] at hself
    rw [hself, span_fill (by have := hg.wrSize_eq; omega) (.inr hpad), hg.wrSize_eq]

/-- What one round comes to: the write fails, or the rounds go on, or there is no next zone. -/
theorem rounds_cases (h : rounds c env (fuel + 1) n left s = some (status, t)) (hs : Ready c s)
    (hactive : s.activeZone = some z) (hleft : 0 < left) (hlt : left + c.headerSize < 2 ^ 32)
    (hgrants : env.Grants c) :
    let g := segment c left (s.zones z).capacity
    g.Fits c left (s.zones z).capacity ∧
    ((env.write n).1.ok = false ∧ status.ok = false ∧
        writeSegment c (env.write n) g z s = (status, t) ∨
      (env.write n).1.ok = true ∧
        ((∃ u, Continues c g left s u ∧
          rounds c env fuel (n + 1) (left - g.length) u = some (status, t)) ∨
        status.ok = false ∧ ∃ zones, ¬ env.Allocates (n + 1) zones)) := by
  intro g
  obtain ⟨hz, hroom, -⟩ := hs.active z hactive
  have hg : g.Fits c left (s.zones z).capacity := segment_fits hleft hlt hroom (hs.whole z hz)
  refine ⟨hg, ?_⟩
  rw [rounds, if_neg hleft.ne', hactive] at h
  dsimp only at h
  cases hok : (env.write n).1.ok with
  | false =>
    left
    have hfailed : (writeSegment c (env.write n) g z s).1.ok = false := appendZone_failed hok
    rw [hfailed] at h
    have hwrite := some.inj h
    rw [Prod.mk.eta] at hwrite
    rw [hwrite] at hfailed
    exact ⟨rfl, hfailed, hwrite⟩
  | true =>
    right
    refine ⟨rfl, ?_⟩
    obtain ⟨u, hwrite, hwrote⟩ := writeSegment_ok hs hactive hg hok
    rw [hwrite] at h
    by_cases hfull : ((pushSegment c g z u).zones z).capacity = 0
    · rw [if_neg (not_not.mpr hfull)] at h
      cases hnext : nextZone c env (n + 1) g (left - g.length) (pushSegment c g z u) with
      | mk answer v =>
        have hspec := nextZone_spec hwrote.toLaid (hwrote.activeZone.trans hactive) hfull hgrants
          hnext
        rw [hnext] at h
        cases hanswer : answer.ok with
        | true =>
          simp only [hanswer] at h
          exact .inl ⟨v, hwrote.continues_next hactive hg hfull hgrants hnext hanswer, h⟩
        | false =>
          simp only [hanswer] at h
          cases h
          refine .inr ⟨hanswer, (pushSegment c g z u).zones, fun halloc => ?_⟩
          rw [hspec.2.2.2.2.2.2.mpr halloc] at hanswer
          cases hanswer
    · rw [if_pos hfull] at h
      exact .inl ⟨_, hwrote.continues hactive hz hg hfull, h⟩

/-- Rounds that end well put the data of the buffer behind the contents. -/
theorem rounds_ok
    (h : rounds c env fuel n left s = some (status, t)) (hok : status.ok = true) (hs : Ready c s)
    (hzone : ∃ z, s.activeZone = some z) (hlt : left + c.headerSize < 2 ^ 32)
    (hgrants : env.Grants c) :
    Ready c t ∧ t.contents = s.contents ++ span s.memory c.headerSize left ∧
      t.fileSize = s.fileSize + left ∧ SameWriter s t := by
  induction fuel generalizing n left s with
  | zero => cases h
  | succ fuel ih =>
    obtain ⟨z, hactive⟩ := hzone
    obtain rfl | hleft := Nat.eq_zero_or_pos left
    · rw [rounds] at h
      cases h
      exact ⟨hs, by simp, rfl, sameWriter_refl _⟩
    · obtain ⟨hg, ⟨-, hlost, -⟩ | ⟨-, ⟨u, hu, hrest⟩ | ⟨hlost, -⟩⟩⟩ :=
        rounds_cases h hs hactive hleft hlt hgrants
      · rw [hok] at hlost
        cases hlost
      · have hle := hg.length_le
        obtain ⟨hready, hcontents, hsize, hwriter⟩ :=
          ih hrest hu.toReady hu.zone (by omega)
        refine ⟨hready, ?_, ?_, hu.writer.trans hwriter⟩
        · rw [hcontents, hu.contents, hu.rest, List.append_assoc, ← span_add,
            Nat.add_sub_cancel' hle]
        · rw [hsize, hu.fileSize]
          omega
      · rw [hok] at hlost
        cases hlost

theorem rounds_nothing
    (h : rounds c env (fuel + 1) n left s = some (status, t)) (hs : Ready c s)
    (hzone : ∃ z, s.activeZone = some z) (hleft : 0 < left) (hlt : left + c.headerSize < 2 ^ 32)
    (hgrants : env.Grants c) (hfailed : (env.write n).1.ok = false)
    (hstored : (env.write n).2 = 0) :
    ∃ m, t = { s with memory := m } ∧ span m c.headerSize left = span s.memory c.headerSize left := by
  obtain ⟨z, hactive⟩ := hzone
  obtain ⟨hg, ⟨-, -, hwrite⟩ | ⟨hok, -⟩⟩ := rounds_cases h hs hactive hleft hlt hgrants
  · have hfits : (span (fill c (segment c left (s.zones z).capacity) s.memory) 0
        ((segment c left (s.zones z).capacity).wrSize +
          (segment c left (s.zones z).capacity).padSize)).length ≤ (s.zones z).capacity := by
      rw [length_span]
      exact hg.le_capacity
    have hnothing := appendZone_nothing
      (s := { s with memory := fill c (segment c left (s.zones z).capacity) s.memory })
      hfits hfailed hstored
    rw [writeSegment, hnothing] at hwrite
    cases hwrite
    refine ⟨_, rfl, span_fill le_rfl ?_⟩
    have hsize := hg.wrSize_eq
    obtain hall | ⟨-, hpad⟩ := hg.last
    · exact .inl (by omega)
    · exact .inr hpad
  · rw [hfailed] at hok
    cases hok

end ZenFs.Writer
