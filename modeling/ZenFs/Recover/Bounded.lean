import ZenFs.Namespace.Recovery
import ZenFs.Recover.Model

/-!
When the recovery of an interrupted writer stays within the zone.

The scan of a sparse file ends with an error at a block that cannot be read or has no length.
Otherwise it stays below the write pointer just when every segment it is led to does. A segment
of which only the first blocks were written, or a length that wraps, breaks this.
-/

namespace ZenFs.Recover

open Library.Coding Library.Medium List Function Nat

variable {e e' l : List ZoneExtent} {k p : ℕ} {s : Status} {u u' : ℤ}
variable {d : Disk} {z stop : ℕ}

inductive Segments (d : Disk) (z stop : ℕ) : ℕ → List ZoneExtent → Prop
  | done {p : ℕ} : stop ≤ p → Segments d z stop p []
  | next {p : ℕ} {l : List ZoneExtent} : p < stop → d.readable p = true → d.header p ≠ 0 →
      Segments d z stop (d.follow p) l → Segments d z stop p (d.extentAt z p :: l)

/-- The scan from `p` comes to a block that cannot be read or that has no length. -/
inductive Stops (d : Disk) (stop : ℕ) : ℕ → Prop
  | unreadable {p : ℕ} : p < stop → d.readable p = false → Stops d stop p
  | empty {p : ℕ} : p < stop → d.readable p = true → d.header p = 0 → Stops d stop p
  | next {p : ℕ} : p < stop → d.readable p = true → d.header p ≠ 0 → Stops d stop (d.follow p) →
      Stops d stop p

inductive Complete (d : Disk) (stop : ℕ) : ℕ → Prop
  | done {p : ℕ} : stop ≤ p → Complete d stop p
  | next {p : ℕ} : p < stop → d.readable p = true → d.header p ≠ 0 →
      p + sparseHeaderSize + d.header p ≤ stop → Complete d stop (d.follow p) → Complete d stop p

def lengths (l : List ZoneExtent) : ℕ := (l.map (·.length)).sum

/-- A scan that ends well has pushed the extents of the segments. -/
theorem recoverSparseExtents_ok
    (h : d.recoverSparseExtents z stop k p e u = some (s, e', u')) (hs : s.ok = true) :
    ∃ l, Segments d z stop p l ∧ e' = e ++ l ∧ u' = u + lengths l := by
  induction k generalizing p e u with
  | zero => cases h
  | succ k ih =>
    rw [Disk.recoverSparseExtents] at h
    split at h
    case isTrue hp =>
      split at h
      · cases h
        cases hs
      case isFalse hread =>
        split at h
        · cases h
          cases hs
        case isFalse hlen =>
          obtain ⟨l, hl, rfl, rfl⟩ := ih h
          refine ⟨_, .next hp (Bool.not_eq_false _ ▸ hread) hlen hl, by simp, ?_⟩
          simp only [lengths, map_cons, sum_cons, Disk.extentAt]
          omega
    case isFalse hp =>
      cases h
      exact ⟨[], .done (by omega), by simp, by simp [lengths]⟩

theorem recoverSparseExtents_fails
    (h : d.recoverSparseExtents z stop k p e u = some (s, e', u')) (hs : s.ok = false) :
    Stops d stop p := by
  induction k generalizing p e u with
  | zero => cases h
  | succ k ih =>
    rw [Disk.recoverSparseExtents] at h
    split at h
    case isTrue hp =>
      split at h
      case isTrue hread => exact .unreadable hp hread
      case isFalse hread =>
        have hread' : d.readable p = true := Bool.not_eq_false _ ▸ hread
        split at h
        case isTrue hlen => exact .empty hp hread' hlen
        case isFalse hlen => exact .next hp hread' hlen (ih h)
    case isFalse hp =>
      cases h
      cases hs

theorem Segments.run (h : Segments d z stop p l)
    (e : List ZoneExtent) (u : ℤ) :
    ∃ k, d.recoverSparseExtents z stop k p e u = some (.OK, e ++ l, u + lengths l) := by
  induction h generalizing e u with
  | done hp =>
    use 1
    rw [Disk.recoverSparseExtents, if_neg (by omega)]
    simp [lengths]
  | @next p l hp hread hlen _ ih =>
    obtain ⟨k, hk⟩ := ih (e ++ [d.extentAt z p]) (u + d.header p)
    use k + 1
    have hsum : u + d.header p + (lengths l : ℤ) = u + lengths (d.extentAt z p :: l) := by
      simp only [lengths, map_cons, sum_cons, Disk.extentAt]
      omega
    rw [Disk.recoverSparseExtents, if_pos hp, if_neg (by simp [hread]), if_neg hlen, hk,
      List.append_assoc, hsum]
    rfl

theorem Stops.run (h : Stops d stop p) (e : List ZoneExtent) (u : ℤ) :
    ∃ k s e' u', d.recoverSparseExtents z stop k p e u = some (s, e', u') ∧ s.ok = false := by
  induction h generalizing e u with
  | unreadable hp hread =>
    refine ⟨1, .IOError "Unexpected read error while recovering", e, u, ?_, rfl⟩
    rw [Disk.recoverSparseExtents, if_pos hp, if_pos hread]
  | empty hp hread hlen =>
    refine ⟨1, .IOError "Unexpected extent length while recovering", e, u, ?_, rfl⟩
    rw [Disk.recoverSparseExtents, if_pos hp, if_neg (by simp [hread]), if_pos hlen]
  | @next p hp hread hlen _ ih =>
    obtain ⟨k, s, e', u', hk, hs⟩ := ih (e ++ [d.extentAt z p]) (u + d.header p)
    refine ⟨k + 1, s, e', u', ?_, hs⟩
    rw [Disk.recoverSparseExtents, if_pos hp, if_neg (by simp [hread]), if_neg hlen, hk]

def Apart (x y : ZoneExtent) : Prop :=
  x.start + x.length ≤ y.start ∨ y.start + y.length ≤ x.start

theorem blockSize_lt (hz : z < d.nrZones) : d.blockSize < 2 ^ 63 := by
  have hle := le_of_dvd (d.capacity_pos z) (d.block_dvd_capacity z)
  have hcap := d.capacity_le z
  have hend := d.addressable z hz
  omega

theorem le_segmentSize {length : ℕ} (hlen : length + sparseHeaderSize < 2 ^ 64) :
    length + sparseHeaderSize ≤ d.segmentSize length ∧
      d.segmentSize length ≤ length + sparseHeaderSize + d.blockSize := by
  have hdiv := div_add_mod (length + sparseHeaderSize) d.blockSize
  have hlt := mod_lt (length + sparseHeaderSize) d.blockSize_pos
  rw [Disk.segmentSize, mod_eq_of_lt hlen, add_mul, mul_comm]
  split <;> omega

theorem le_follow (hz : z < d.nrZones) (hstop : stop < 2 ^ 63)
    (hp : p + sparseHeaderSize + d.header p ≤ stop) :
    p + sparseHeaderSize + d.header p ≤ d.follow p := by
  have hbs := blockSize_lt hz
  have hlen : d.header p + sparseHeaderSize < 2 ^ 64 := by omega
  obtain ⟨hlow, hhigh⟩ := le_segmentSize (d := d) hlen
  rw [Disk.follow]
  omega

theorem extentAt_start (hstop : stop < 2 ^ 63)
    (hp : p + sparseHeaderSize + d.header p ≤ stop) :
    (d.extentAt z p).start = p + sparseHeaderSize :=
  mod_eq_of_lt (by omega)

theorem Complete.segments (hz : z < d.nrZones) (hstop : stop < 2 ^ 63)
    (h : Complete d stop p) :
    ∃ l, Segments d z stop p l ∧
      (∀ x ∈ l, x.zone = z ∧ p ≤ x.start ∧ x.start + x.length ≤ stop) ∧ l.Pairwise Apart := by
  induction h with
  | done hp => exact ⟨[], .done hp, by simp, .nil⟩
  | @next p hp hread hlen hend _ ih =>
    obtain ⟨l, hl, hin, hapart⟩ := ih
    have hstart := extentAt_start (z := z) hstop hend
    have hfollow := le_follow hz hstop hend
    have hfirst : (d.extentAt z p).start + (d.extentAt z p).length ≤ d.follow p := by
      rw [hstart]
      exact hfollow
    refine ⟨_, .next hp hread hlen hl, ?_, ?_⟩
    · intro x hx
      rcases mem_cons.mp hx with rfl | hx
      · rw [hstart]
        exact ⟨rfl, le_add_right _ _, hend⟩
      · obtain ⟨hzone, hlow, hhigh⟩ := hin x hx
        exact ⟨hzone, by omega, hhigh⟩
    · refine pairwise_cons.mpr ⟨fun y hy => ?_, hapart⟩
      left
      have := (hin y hy).2.1
      omega

theorem Segments.complete (hstop : stop < 2 ^ 63)
    (h : Segments d z stop p l) (hin : ∀ x ∈ l, x.start + x.length ≤ stop) : Complete d stop p := by
  induction h with
  | done hp => exact .done hp
  | @next p l hp hread hlen _ ih =>
    have hsize : sparseHeaderSize = 8 := rfl
    have hstart : (d.extentAt z p).start = p + sparseHeaderSize :=
      mod_eq_of_lt (by omega)
    have hfirst := hin (d.extentAt z p) (by simp)
    rw [hstart] at hfirst
    exact .next hp hread hlen hfirst (ih fun x hx => hin x (by simp [hx]))

/-- The recovery ends, and if it ends well the extents it adds lie between the start of the
active extent and the write pointer, do not overlap, and are what the counters grow by. -/
def Bounded (d : Disk) (f : ZoneFile) (used : ℕ → ℤ) : Prop :=
  ∃ rounds s f' used', recover d rounds f used = some (s, f', used') ∧
    (s.ok = true → ∃ added, f'.extents = f.extents ++ added ∧
      (∀ x ∈ added, ∃ start, f.extentStart = some start ∧ d.getIOZone start = some x.zone ∧
        start ≤ x.start ∧ x.start + x.length ≤ d.wp x.zone) ∧
      added.Pairwise Apart ∧ ∀ z, used' z = used z + heldIn added z)

/-- The headers of a sparse file's active extent lead to an error, or over complete segments to
the write pointer. -/
def HeadersLead (d : Disk) (f : ZoneFile) : Prop :=
  ∀ start z, f.extentStart = some start → d.getIOZone start = some z → start ≤ d.wp z →
    f.isSparse = true → Stops d (d.wp z) start ∨ Complete d (d.wp z) start

theorem wp_lt {start : ℕ} (hz : d.getIOZone start = some z) : z < d.nrZones ∧ d.wp z < 2 ^ 63 := by
  have hlt := (d.getIOZone_eq_some.mp hz).1
  exact ⟨hlt, (d.wp_le z hlt).trans_lt (d.addressable z hlt)⟩

theorem heldIn_of_zone (hl : ∀ x ∈ l, x.zone = z) :
    heldIn l z = lengths l ∧ ∀ y, y ≠ z → heldIn l y = 0 := by
  constructor
  · rw [heldIn, filter_eq_self.mpr fun x hx => by simp [hl x hx]]
    rfl
  · intro y hy
    rw [heldIn, filter_eq_nil_iff.mpr fun x hx => by simp [hl x hx, Ne.symm hy]]
    rfl

theorem update_used {used : ℕ → ℤ} (hl : ∀ x ∈ l, x.zone = z) (y : ℕ) :
    update used z (used z + lengths l) y = used y + heldIn l y := by
  obtain ⟨hself, hother⟩ := heldIn_of_zone hl
  by_cases hy : y = z
  · subst hy
    rw [update_self, hself]
  · rw [update_of_ne hy, hother y hy]
    simp

section Cases

variable {f : ZoneFile} {used : ℕ → ℤ} {start : ℕ}

theorem recover_sparse (hstart : f.extentStart = some start) (hzone : d.getIOZone start = some z)
    (hlt : start < d.wp z) (hsparse : f.isSparse = true) (k : ℕ) :
    recover d k f used =
      (d.recoverSparseExtents z (d.wp z) k start f.extents (used z)).map fun (s, extents, u) =>
        if s.ok then (s, completed f extents, update used z u)
        else (s, { f with extents := extents }, update used z u) := by
  have hle : ¬ d.wp z < start := by omega
  have hzero : d.wp z - start ≠ 0 := by omega
  simp only [recover, hstart, hzone, if_neg hle, if_neg hzero, hsparse, if_true]

theorem recover_direct (hstart : f.extentStart = some start) (hzone : d.getIOZone start = some z)
    (hlt : start < d.wp z) (hsparse : f.isSparse = false) (k : ℕ) :
    recover d k f used =
      some (.OK, completed f (f.extents ++ [⟨start, d.wp z - start, z⟩]),
        update used z (used z + lengths [⟨start, d.wp z - start, z⟩])) := by
  have hle : ¬ d.wp z < start := by omega
  have hzero : d.wp z - start ≠ 0 := by omega
  simp only [recover, hstart, hzone, if_neg hle, if_neg hzero, hsparse]
  rfl

theorem recover_nothing (h : ∀ start z, f.extentStart = some start →
    d.getIOZone start = some z → d.wp z ≤ start) :
    ∃ s f', recover d 0 f used = some (s, f', used) ∧ f'.extents = f.extents := by
  cases hstart : f.extentStart with
  | none => exact ⟨.OK, f, by simp only [recover, hstart], rfl⟩
  | some start =>
    cases hzone : d.getIOZone start with
    | none =>
      exact ⟨.IOError "Could not find zone for extent start while recovering", f,
        by simp only [recover, hstart, hzone], rfl⟩
    | some z =>
      have hle := h start z hstart hzone
      by_cases hlt : d.wp z < start
      · exact ⟨.IOError "Zone wp is smaller than active extent start", f,
          by simp only [recover, hstart, hzone, if_pos hlt], rfl⟩
      · have hzero : d.wp z - start = 0 := by omega
        exact ⟨.OK, { f with extentStart := none },
          by simp only [recover, hstart, hzone, if_neg hlt, if_pos hzero], rfl⟩

theorem headersLead_of_bounded (h : Bounded d f used) : HeadersLead d f := by
  intro start z hstart hzone hle hsparse
  obtain ⟨-, hwp⟩ := wp_lt hzone
  by_cases hlt : start < d.wp z
  · obtain ⟨rounds, s, f', used', hrec, hgood⟩ := h
    rw [recover_sparse hstart hzone hlt hsparse] at hrec
    obtain ⟨⟨s₁, e₁, u₁⟩, hrun, heq⟩ := Option.map_eq_some_iff.mp hrec
    cases hs : s₁.ok with
    | false => exact .inl (recoverSparseExtents_fails hrun hs)
    | true =>
      right
      simp only [hs] at heq
      cases heq
      obtain ⟨l, hl, hext, -⟩ := recoverSparseExtents_ok hrun hs
      obtain ⟨added, hadded, hin, -, -⟩ := hgood hs
      have hsame : l = added := append_cancel_left (hext.symm.trans hadded)
      subst hsame
      apply hl.complete hwp
      intro x hx
      obtain ⟨start', hstart', hzone', -, hend⟩ := hin x hx
      rw [hstart] at hstart'
      cases hstart'
      rw [hzone] at hzone'
      cases hzone'
      exact hend
  · exact .inr (.done (by omega))

theorem bounded_sparse (hstart : f.extentStart = some start) (hzone : d.getIOZone start = some z)
    (hlt : start < d.wp z) (hsparse : f.isSparse = true)
    (h : Stops d (d.wp z) start ∨ Complete d (d.wp z) start) : Bounded d f used := by
  obtain ⟨hz, hwp⟩ := wp_lt hzone
  rcases h with hstops | hcomplete
  · obtain ⟨k, s, e, u, hrun, hs⟩ := hstops.run f.extents (used z)
    refine ⟨k, s, { f with extents := e }, update used z u, ?_, ?_⟩
    · rw [recover_sparse hstart hzone hlt hsparse, hrun, Option.map_some]
      simp only [hs, Bool.false_eq_true, if_false]
    · rw [hs]
      exact nofun
  · obtain ⟨l, hl, hin, hapart⟩ := hcomplete.segments hz hwp
    obtain ⟨k, hrun⟩ := hl.run f.extents (used z)
    refine ⟨k, .OK, completed f (f.extents ++ l), update used z (used z + lengths l), ?_,
      fun _ => ⟨l, rfl, ?_, hapart, update_used fun x hx => (hin x hx).1⟩⟩
    · rw [recover_sparse hstart hzone hlt hsparse, hrun]
      rfl
    · intro x hx
      obtain ⟨hxz, hlow, hhigh⟩ := hin x hx
      rw [hxz]
      exact ⟨start, hstart, hzone, hlow, hhigh⟩

theorem bounded_direct (hstart : f.extentStart = some start) (hzone : d.getIOZone start = some z)
    (hlt : start < d.wp z) (hsparse : f.isSparse = false) : Bounded d f used := by
  refine ⟨0, .OK, _, _, recover_direct hstart hzone hlt hsparse 0, fun _ =>
    ⟨[⟨start, d.wp z - start, z⟩], rfl, ?_, pairwise_singleton _ _,
      update_used (by simp)⟩⟩
  intro x hx
  rw [mem_singleton.mp hx]
  exact ⟨start, hstart, hzone, le_rfl, by simp only; omega⟩

theorem bounded_of_headersLead (h : HeadersLead d f) : Bounded d f used := by
  by_cases hdata : ∃ start z, f.extentStart = some start ∧ d.getIOZone start = some z ∧
      start < d.wp z
  · obtain ⟨start, z, hstart, hzone, hlt⟩ := hdata
    cases hsparse : f.isSparse with
    | false => exact bounded_direct hstart hzone hlt hsparse
    | true => exact bounded_sparse hstart hzone hlt hsparse (h start z hstart hzone hlt.le hsparse)
  · push Not at hdata
    obtain ⟨s, f', hrec, hext⟩ : ∃ s f', recover d 0 f used = some (s, f', used) ∧
        f'.extents = f.extents := recover_nothing hdata
    exact ⟨0, s, f', used, hrec, fun _ => ⟨[], by simp [hext], by simp, .nil, by simp⟩⟩

end Cases

/-- The recovery is bounded if and only if the headers of a sparse file lead to an error or over
complete segments to the write pointer. -/
theorem bounded_iff (d : Disk) (f : ZoneFile) (used : ℕ → ℤ) :
    Bounded d f used ↔ HeadersLead d f :=
  ⟨headersLead_of_bounded, bounded_of_headersLead⟩

/-- A device whose first block starts with the given length, with one block written. -/
def oneBlock (length : ℕ) : Disk where
  toGeometry := .small
  wp z := if z = 0 then 16 else z * 64
  content := put (fun _ => 0) 0 (putFixed 8 length)
  readable _ := true
  wp_le z _ := by
    show (if z = 0 then 16 else z * 64) ≤ z * 64 + 64
    split <;> omega

def interrupted : ZoneFile :=
  { ZoneFile.new 1 with
    extentStart := some 0
    isSparse := true }

theorem recoverSparseExtents_oneBlock (k : ℕ) (e : List ZoneExtent) (u : ℤ) :
    (oneBlock (2 ^ 64 - 8)).recoverSparseExtents 0 16 k 0 e u = none := by
  induction k generalizing e u with
  | zero => rfl
  | succ k ih =>
    exact ih _ _

/-- Of a segment with twenty bytes of data, only the first block was written: an extent beyond the
write pointer is recovered. A length that wraps to no block at all keeps the scan where it is. -/
theorem not_bounded_oneBlock :
    ((recover (oneBlock 20) 2 interrupted fun _ => 0).map fun r => (r.1, r.2.1.extents)) =
        some (.OK, [⟨8, 20, 0⟩]) ∧
      (oneBlock 20).wp 0 = 16 ∧
      ¬ Bounded (oneBlock 20) interrupted (fun _ => 0) ∧
      ∀ rounds, recover (oneBlock (2 ^ 64 - 8)) rounds interrupted (fun _ => 0) = none := by
  refine ⟨by decide +kernel, rfl, ?_, ?_⟩
  · intro hbounded
    rcases headersLead_of_bounded hbounded 0 0 rfl rfl (by decide) rfl with hstops | hcomplete
    · cases hstops with
      | unreadable _ hread => cases hread
      | empty _ _ hlen =>
        cases hlen
      | next _ _ _ hrest =>
        cases hrest <;> contradiction
    · cases hcomplete with
      | done hp => exact absurd hp (by decide)
      | next _ _ _ hend _ =>
        exact absurd hend (by decide)
  · intro rounds
    have hnone := recoverSparseExtents_oneBlock rounds interrupted.extents 0
    exact congrArg (Option.map _) hnone

end ZenFs.Recover
