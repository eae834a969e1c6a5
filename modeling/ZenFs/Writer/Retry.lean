import ZenFs.Writer.Flush

/-!
Flushes that are tried again.

A flush that fails keeps the position in the buffer, so that the same number of bytes is flushed
again. That is right as long as nothing of the buffer has been written. If part of it has, the
extents that were pushed, the write pointer and the moved data are not taken back.
-/

namespace ZenFs.Writer

open Library Library.Coding Library.Medium List Option

variable {P : Answers → State → Prop} {a : Action × ℕ} {closed persisted : Status}
variable {dev memory : ℕ → UInt8} {fuel y z : ℕ} {zones : ℕ → Room}
variable {c : Config} {s t : State} {env : Answers}

structure Holds (c : Config) (s : State) : Prop extends Ready c s where
  buffer : s.bufferPos ≤ c.bufferSize
  bytes : s.contents ++ s.buffered c = s.taken
  size : s.fileSize = s.contents.length

/-- Nothing of the buffer is stored: there is no first zone, or the first write fails and stores
nothing. -/
def Answers.FailsAtOnce (env : Answers) (s : State) : Prop :=
  s.activeZone = none ∧ ¬ env.Allocates 0 s.zones ∨
    (env.write 0).1.ok = false ∧ (env.write 0).2 = 0

def CleanFlush (c : Config) (fuel : ℕ) (env : Answers) (s : State) : Prop :=
  ∀ status t, flushBuffer c env fuel s = some (status, t) → status.ok = true ∨ env.FailsAtOnce s

theorem Holds.left_lt (hs : Holds c s) : s.bufferPos + c.headerSize < 2 ^ 32 := by
  have hbuffer := hs.buffer
  have hheader := c.headerSize_le
  have hlt := c.buffer_lt
  omega

theorem Holds.of_same (hs : Holds c s) (ht : Ready c t) (hcontents : t.contents = s.contents)
    (hsize : t.fileSize = s.fileSize) (hwriter : SameWriter s t)
    (hmemory : span t.memory c.headerSize s.bufferPos = span s.memory c.headerSize s.bufferPos) :
    Holds c t where
  toReady := ht
  buffer := by
    rw [hwriter.bufferPos]
    exact hs.buffer
  bytes := by
    rw [hcontents, State.buffered, hwriter.bufferPos, hmemory, hwriter.taken]
    exact hs.bytes
  size := by
    rw [hsize, hcontents]
    exact hs.size

variable {status : Status}

theorem Holds.firstZone (hs : Holds c s) (hgrants : env.Grants c)
    (h : (if s.activeZone.isNone then allocateNewZone env 0 s else (.OK, s)) = (status, t)) :
    Allocated c s status t ∧
      (status.ok = true → s.activeZone = none → env.Allocates 0 s.zones) := by
  cases hactive : s.activeZone with
  | none =>
    rw [hactive] at h
    exact ⟨allocateNewZone_spec hs.toLaid hactive hgrants h,
      fun hok _ => (allocateNewZone_ok_iff h).mp hok⟩
  | some z =>
    rw [hactive] at h
    cases h
    exact ⟨⟨hs.toReady, rfl, rfl, rfl, sameWriter_refl s, fun _ => ⟨z, hactive⟩⟩, fun _ => nofun⟩

/-- A flush that ends well empties the buffer into the file, and one that fails at once keeps it. -/
theorem Holds.flushBuffer (hs : Holds c s) (hgrants : env.Grants c)
    (h : flushBuffer c env fuel s = some (status, t))
    (hclean : status.ok = true ∨ env.FailsAtOnce s) :
    Holds c t ∧ (status.ok = true → t.bufferPos = 0 ∧ t.taken = s.taken) := by
  rw [Writer.flushBuffer] at h
  split at h
  · next hempty =>
    cases h
    exact ⟨hs, fun _ => ⟨hempty, rfl⟩⟩
  · next hpos =>
    obtain ⟨⟨answer, u⟩, hu, hresult⟩ := map_eq_some_iff.mp h
    rw [appendBuffer] at hu
    cases hfirst : (if s.activeZone.isNone then allocateNewZone env 0 s else (.OK, s)) with
    | mk first v =>
      obtain ⟨hv, hallocates⟩ := hs.firstZone hgrants hfirst
      rw [hfirst] at hu
      cases hok : first.ok with
      | false =>
        simp only [hok] at hu
        cases hu
        simp only [hok] at hresult
        cases hresult
        refine ⟨hs.of_same hv.toReady hv.contents hv.fileSize hv.writer (by rw [hv.memory]), ?_⟩
        intro hstatus
        rw [hok] at hstatus
        cases hstatus
      | true =>
        simp only [hok] at hu
        have hzone := hv.some_of_ok hok
        cases hanswer : answer.ok with
        | true =>
          obtain ⟨hready, hcontents, hsize, hwriter⟩ :=
            rounds_ok hu hanswer hv.toReady hzone hs.left_lt hgrants
          simp only [hanswer] at hresult
          cases hresult
          refine ⟨⟨⟨⟨hready.start_le, hready.le_end, hready.whole, hready.extents⟩, hready.active⟩,
            Nat.zero_le _, ?_, ?_⟩, fun _ => ⟨rfl, hwriter.taken.trans hv.writer.taken⟩⟩
          · rw [State.buffered, span_zero, append_nil]
            refine hcontents.trans ?_
            rw [hv.contents, hv.memory, hwriter.taken, hv.writer.taken]
            exact hs.bytes
          · refine hsize.trans ?_
            change _ = u.contents.length
            rw [hcontents, hv.contents, hv.fileSize, hs.size, length_append, length_span]
        | false =>
          simp only [hanswer] at hresult
          cases hresult
          have hkept : Holds c t := by
            obtain hfine | ⟨hnone, hfailed⟩ | ⟨hfailed, hstored⟩ := hclean
            · rw [hanswer] at hfine
              cases hfine
            · exact absurd (hallocates hok hnone) hfailed
            · cases fuel with
              | zero => cases hu
              | succ fuel =>
                obtain ⟨m, rfl, hm⟩ := rounds_nothing hu hv.toReady hzone (Nat.pos_of_ne_zero hpos)
                  hs.left_lt hgrants hfailed hstored
                have hready : Ready c { v with memory := m } :=
                  ⟨⟨hv.start_le, hv.le_end, hv.whole, hv.extents⟩, hv.active⟩
                rw [hv.memory] at hm
                exact hs.of_same hready hv.contents hv.fileSize
                  ⟨hv.writer.bufferPos, hv.writer.taken⟩ hm
          refine ⟨hkept, fun hfine => ?_⟩
          rw [hanswer] at hfine
          cases hfine

variable {data : List UInt8}

theorem Holds.copyIn (hs : Holds c s)
    (hroom : s.bufferPos + data.length ≤ c.bufferSize) : Holds c (copyIn c data s) where
  start_le := hs.start_le
  le_end := hs.le_end
  whole := hs.whole
  extents := hs.extents
  active := hs.active
  buffer := hroom
  bytes := by
    have hold : span (put s.memory (c.headerSize + s.bufferPos) data) c.headerSize s.bufferPos =
        span s.memory c.headerSize s.bufferPos := span_put_of_le _ le_rfl
    change s.contents ++ span (put s.memory (c.headerSize + s.bufferPos) data) c.headerSize
      (s.bufferPos + data.length) = s.taken ++ data
    rw [span_add, hold, span_put_self, ← List.append_assoc, ← hs.bytes]
    rfl
  size := hs.size

variable (c) in
/-- The flushes of `BufferedWrite` have the property `P`. -/
def FlushesMeet (P : Answers → State → Prop) (env : ℕ → Answers) (fuel : ℕ) :
    (rounds k : ℕ) → List UInt8 → State → Prop
  | 0, _, _, _ => True
  | rounds + 1, k, data, s =>
    data ≠ [] → (s.bufferPos = c.bufferSize → P (env k) s) ∧
      ∀ status t, (if s.bufferPos = c.bufferSize then flushBuffer c (env k) fuel s
          else some (.OK, s)) = some (status, t) → status.ok = true →
        FlushesMeet P env fuel rounds (k + 1)
          (data.drop (min data.length (c.bufferSize - t.bufferPos)))
          (copyIn c (data.take (min data.length (c.bufferSize - t.bufferPos))) t)

/-- A write whose flushes are clean keeps the bytes that were taken. -/
theorem Holds.bufferedWrite (hs : Holds c s) {env : ℕ → Answers} (hgrants : ∀ k, (env k).Grants c)
    {n k : ℕ}
    (h : bufferedWrite c env fuel n k data s = some (status, t))
    (hclean : FlushesMeet c (CleanFlush c fuel) env fuel n k data s) : Holds c t := by
  induction n generalizing k data s with
  | zero => cases h
  | succ n ih =>
    rw [Writer.bufferedWrite] at h
    split at h
    · cases h
      exact hs
    · next hdata =>
      obtain ⟨hflush, hrest⟩ := hclean hdata
      obtain ⟨⟨answer, u⟩, hu, hnext⟩ := bind_eq_some_iff.mp h
      have huholds : Holds c u := by
        split at hu
        · next hfull => exact (hs.flushBuffer (hgrants k) hu (hflush hfull answer u hu)).1
        · cases hu
          exact hs
      cases hanswer : answer.ok with
      | false =>
        simp only [hanswer] at hnext
        cases hnext
        exact huholds
      | true =>
        simp only [hanswer] at hnext
        refine ih (huholds.copyIn ?_) hnext (hrest answer u hu hanswer)
        have hbuffer := huholds.buffer
        rw [length_take]
        omega

theorem Holds.dataSync (hs : Holds c s) (hgrants : env.Grants c)
    (h : dataSync c env persisted fuel s = some (status, t))
    (hclean : CleanFlush c fuel env s) : Holds c t := by
  obtain ⟨⟨answer, u⟩, hu, hresult⟩ := map_eq_some_iff.mp h
  have huholds := (hs.flushBuffer hgrants hu (hclean answer u hu)).1
  dsimp only at hresult
  split at hresult
  · cases hresult
    exact huholds
  · split at hresult <;> cases hresult <;> exact huholds

theorem closeActiveZone_state (h : closeActiveZone c env s = (status, t)) :
    t = { s with activeZone := none } := by
  rw [closeActiveZone] at h
  split at h
  · next hnone =>
    cases h
    rw [← hnone]
  · cases h
    rfl

theorem Holds.closeInternal (hs : Holds c s) (hgrants : env.Grants c)
    (h : closeInternal c env persisted closed fuel s = some (status, t))
    (hclean : CleanFlush c fuel env s) (hclosed : closed.ok = true) : Holds c t := by
  rw [Writer.closeInternal] at h
  split at h
  · cases h
    exact hs
  · obtain ⟨⟨answer, u⟩, hu, hresult⟩ := map_eq_some_iff.mp h
    have huholds := hs.dataSync hgrants hu hclean
    dsimp only at hresult
    split at hresult
    · cases hresult
      exact huholds
    · cases hclose : closeWR c env closed u with
      | mk answer v =>
        rw [hclose] at hresult
        rw [closeWR, hclosed] at hclose
        have hv := closeActiveZone_state hclose
        have hready : Ready c v := by
          rw [hv]
          exact ⟨⟨huholds.start_le, huholds.le_end, huholds.whole, huholds.extents⟩, nofun⟩
        have hvholds : Holds c v := by
          apply huholds.of_same hready <;> rw [hv]
          · rfl
          · exact ⟨rfl, rfl⟩
        split at hresult
        · cases hresult
          exact hvholds
        · cases hresult
          exact { hvholds with }

/-- Other files leave the active zone and the extents of this one alone. -/
structure LeavesFile (c : Config) (zones : ℕ → Room) (dev : ℕ → UInt8) (s : State) : Prop where
  laid : Laid c { s with zones := zones, dev := dev }
  active : ∀ z, s.activeZone = some z → zones z = s.zones z
  bytes : ∀ x ∈ s.extents, span dev x.start x.length = span s.dev x.start x.length

/-- Zones that are allocated have room, and other files keep to themselves. -/
def Action.Valid (c : Config) (s : State) : Action → Prop
  | .append _ env => ∀ k, (env k).Grants c
  | .sync env _ => env.Grants c
  | .close env _ _ => env.Grants c
  | .others zones dev => LeavesFile c zones dev s

/-- Every flush of the action that fails does so at once, and the metadata write of `CloseWR` does
not fail. -/
def Action.Clean (c : Config) (fuel : ℕ) (s : State) : Action → Prop
  | .append data env => FlushesMeet c (CleanFlush c fuel) env fuel (data.length + 1) 0 data s
  | .sync env _ => CleanFlush c fuel env s
  | .close env _ closed => CleanFlush c fuel env s ∧ closed.ok = true
  | .others _ _ => True

theorem Holds.others (hs : Holds c s)
    (h : LeavesFile c zones dev s) : Holds c { s with zones := zones, dev := dev } := by
  have hready : Ready c { s with zones := zones, dev := dev } := by
    refine ⟨h.laid, fun z hz => ?_⟩
    obtain ⟨hlt, hroom, hstart⟩ := hs.active z hz
    simp only [h.active z hz]
    exact ⟨hlt, hroom, hstart⟩
  refine hs.of_same hready ?_ rfl ⟨rfl, rfl⟩ rfl
  rw [State.contents, flatMap_def]
  congr 1
  exact map_congr_left h.bytes

theorem Holds.step (hs : Holds c s) (hvalid : a.1.Valid c s)
    (hclean : a.1.Clean c a.2 s) (h : step c s a = some t) : Holds c t := by
  obtain ⟨a, fuel⟩ := a
  obtain ⟨⟨status, t⟩, ht, rfl⟩ := map_eq_some_iff.mp h
  cases a with
  | append data env => exact hs.bufferedWrite hvalid ht hclean
  | sync env persisted => exact hs.dataSync hvalid ht hclean
  | close env persisted closed => exact hs.closeInternal hvalid ht hclean.1 hclean.2
  | others zones dev =>
    cases ht
    exact hs.others hvalid

theorem holds_opened
    (hlaid : Laid c (.opened zones dev memory)) : Holds c (.opened zones dev memory) where
  toLaid := hlaid
  active := nofun
  buffer := Nat.zero_le _
  bytes := rfl
  size := rfl

/-- In every run whose flushes, if they fail, fail at once, what the extents lead to and what is in
the buffer are the bytes that were taken; a flush that ends well puts all of them in the file. -/
theorem retry_safe_of_clean {zones : ℕ → Room} {dev memory : ℕ → UInt8}
    (hlaid : Laid c (.opened zones dev memory))
    (hrun : Reaches (step c) (fun s a => a.1.Valid c s ∧ a.1.Clean c a.2 s)
      (.opened zones dev memory) s) :
    s.contents ++ s.buffered c = s.taken ∧
    ∀ env fuel status t, env.Grants c → flushBuffer c env fuel s = some (status, t) →
      status.ok = true → t.contents = s.taken ∧ t.fileSize = s.taken.length := by
  have hs : Holds c s :=
    hrun.keeps (holds_opened hlaid) fun hv hok hstep => hv.step hok.1 hok.2 hstep
  refine ⟨hs.bytes, fun env fuel status t hgrants h hok => ?_⟩
  obtain ⟨ht, hflushed⟩ := hs.flushBuffer hgrants h (.inl hok)
  obtain ⟨hempty, htaken⟩ := hflushed hok
  have hcontents : t.contents = s.taken := by
    rw [← htaken, ← ht.bytes, State.buffered, hempty, span_zero, append_nil]
  exact ⟨hcontents, by rw [ht.size, hcontents]⟩

theorem smallWriter_disjoint (h : y < z) : y * 16 + 16 ≤ z * 16 := by omega

theorem smallWriter_addressable (z : ℕ) (h : z < 8) : z * 16 + 16 < 2 ^ 63 := by omega

def smallWriter (sparse : Bool) : Config where
  blockSize := 16
  zoneSize := 16
  nrZones := 8
  start z := z * 16
  maxCapacity _ := 16
  header_lt_block := Geometry.small.header_lt_block
  block_dvd_start z := ⟨z, Nat.mul_comm z 16⟩
  block_dvd_capacity _ := by decide
  capacity_pos _ := by decide
  capacity_le _ := by decide
  disjoint _ _ _ _ := smallWriter_disjoint
  addressable := smallWriter_addressable
  bufferSize := 32
  isSparse := sparse
  buffer_pos := by decide
  buffer_lt := by decide

def smallState : State := .opened (fun z => ⟨z * 16, 16⟩) (fun _ => 0) (fun _ => 0)

theorem laid_smallState (sparse : Bool) : Laid (smallWriter sparse) smallState where
  start_le _ _ := le_rfl
  le_end _ _ := le_rfl
  whole _ _ := dvd_refl 16
  extents := nofun

def freeZone (zones : ℕ → Room) : Option ℕ := (List.range 8).find? fun z => 0 < (zones z).capacity

def failingAt (k : ℕ) : Answers where
  allocate n zones := if n = k then (.NoSpace "Zone allocation failure\n", none)
    else (.OK, freeZone zones)
  persist _ := .OK
  write _ := (.OK, 0)
  close := .OK

theorem failingAt_grants (sparse : Bool) (k : ℕ) : (failingAt k).Grants (smallWriter sparse) := by
  intro n zones status z h
  simp only [failingAt] at h
  split at h
  · cases h
  · obtain ⟨-, hfound⟩ := Prod.mk.inj h
    have hroom := find?_some hfound
    exact ⟨mem_range.mp (mem_of_find?_eq_some hfound), of_decide_eq_true hroom⟩

theorem flushesMeet_of_fits {env : ℕ → Answers} {n k : ℕ}
    (hfits : s.bufferPos + data.length < c.bufferSize) :
    FlushesMeet c P env fuel n k data s := by
  cases n with
  | zero => exact trivial
  | succ n =>
    intro _
    have hroom : s.bufferPos ≠ c.bufferSize := by omega
    refine ⟨fun hfull => absurd hfull hroom, fun status t ht _ => ?_⟩
    rw [if_neg hroom] at ht
    cases ht
    rw [Nat.min_eq_left (by omega), drop_length]
    cases n with
    | zero => exact trivial
    | succ n => exact fun hne => absurd rfl hne

def smallData : List UInt8 := (List.range 20).map fun i => UInt8.ofNat (i + 1)

def failingWrites : Answers := { failingAt 9 with write := fun _ => (.IOError "", 0) }

/-- Twenty bytes are flushed into three zones. The flush of twenty more fails and is tried again. -/
theorem retry_safe_of_clean_smallWriter : ∃ s t : State,
    Reaches (step (smallWriter true))
      (fun s a => a.1.Valid (smallWriter true) s ∧ a.1.Clean (smallWriter true) a.2 s) smallState s ∧
    s.contents = smallData ∧
    flushBuffer (smallWriter true) (failingAt 9) 9 s = some (.OK, t) ∧
    t.contents = smallData ++ smallData := by
  let c := smallWriter true
  let append : Action × ℕ := (.append smallData fun _ => failingAt 9, 9)
  have hruns : ((step c smallState append).bind fun u₁ =>
      (flushBuffer c (failingAt 9) 9 u₁).bind fun r₁ =>
        (step c u₁ (.sync (failingAt 9) .OK, 9)).bind fun u₂ =>
          (step c u₂ append).bind fun u₃ =>
            (step c u₃ (.sync failingWrites .OK, 9)).bind fun s =>
              (flushBuffer c (failingAt 9) 9 s).map fun r =>
                decide (r₁.1.ok = true ∧ u₂.bufferPos = 0 ∧ s.contents = smallData ∧
                  s.taken = smallData ++ smallData ∧ r.1 = .OK)) =
      some true := by
    decide +kernel
  obtain ⟨u₁, hu₁, hruns⟩ := bind_eq_some_iff.mp hruns
  obtain ⟨⟨status, v⟩, hflush, hruns⟩ := bind_eq_some_iff.mp hruns
  obtain ⟨u₂, hu₂, hruns⟩ := bind_eq_some_iff.mp hruns
  obtain ⟨u₃, hu₃, hruns⟩ := bind_eq_some_iff.mp hruns
  obtain ⟨s, hs, hruns⟩ := bind_eq_some_iff.mp hruns
  obtain ⟨⟨last, t⟩, ht, hruns⟩ := map_eq_some_iff.mp hruns
  obtain ⟨hok, hempty, hcontents, htaken, rfl⟩ := of_decide_eq_true hruns
  have hgrants := failingAt_grants true 9
  have hfits : u₂.bufferPos + smallData.length < c.bufferSize := by
    rw [hempty]
    decide
  have hclean : CleanFlush c 9 (failingAt 9) u₁ := by
    intro answer w hw
    rw [hflush] at hw
    cases hw
    exact .inl hok
  have hreach : Reaches (step c) (fun s a => a.1.Valid c s ∧ a.1.Clean c a.2 s) smallState s :=
    ((Reaches.single (a := append) ⟨fun _ => hgrants, flushesMeet_of_fits (by decide)⟩ hu₁).trans
      (Reaches.single ⟨hgrants, hclean⟩ hu₂)).trans
      ((Reaches.single (a := append) ⟨fun _ => hgrants, flushesMeet_of_fits hfits⟩ hu₃).trans
        (Reaches.single (a := (.sync failingWrites .OK, 9))
          ⟨hgrants, fun _ _ _ => .inr (.inr ⟨rfl, rfl⟩)⟩ hs))
  have hsafe := retry_safe_of_clean (laid_smallState true) hreach
  exact ⟨s, t, hreach, hcontents, ht, (hsafe.2 _ 9 _ t hgrants ht rfl).1.trans htaken⟩

/-- Twenty bytes in zones of sixteen: the first sixteen are written, and there is no zone for the
rest. The flush that follows writes the four bytes that are left, and sixteen more that stayed
behind in the buffer. -/
theorem retry_repeats_bytes : ∃ s t : State,
    Reaches (step (smallWriter false)) (fun s a => a.1.Valid (smallWriter false) s) smallState s ∧
    s.taken = smallData ∧
    flushBuffer (smallWriter false) (failingAt 9) 9 s = some (.OK, t) ∧
    t.contents = smallData ++ smallData.drop 4 := by
  let c := smallWriter false
  let l : List (Action × ℕ) :=
    [(.append smallData fun _ => failingAt 9, 9), (.sync (failingAt 1) .OK, 9)]
  have hruns : ((runSteps (step c) anyStep smallState l).any fun s =>
      decide (((flushBuffer c (failingAt 9) 9 s).any fun r =>
        decide (s.taken = smallData ∧ r.1 = .OK ∧
          r.2.contents = smallData ++ smallData.drop 4)) = true)) = true := by
    decide +kernel
  have hvalid : ∀ a ∈ l, ∀ s, a.1.Valid c s := by
    simp only [l, forall_mem_cons]
    exact ⟨fun _ _ => failingAt_grants false 9, fun _ => failingAt_grants false 1,
      fun _ ha => absurd ha not_mem_nil⟩
  obtain ⟨s, hreach, hs⟩ := Reaches.of_any_labels hruns fun a ha s _ => hvalid a ha s
  obtain ⟨⟨status, t⟩, ht, hruns⟩ := (any_eq_true _ _).mp hs
  obtain ⟨htaken, rfl, hcontents⟩ := of_decide_eq_true hruns
  exact ⟨s, t, hreach, htaken, ht, hcontents⟩

end ZenFs.Writer
