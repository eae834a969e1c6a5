import ZenFs.Rolling.Model

/-!
What a mount makes of the metadata zones.

One zone is complete: a superblock, a snapshot and records that replay. Every other zone
is empty, starts with a superblock that was not stored completely, has no snapshot yet, or
has a smaller sequence number. From such zones a mount recovers the complete one.
-/

namespace ZenFs.Rolling

open Library List

variable {P : MetaState → Prop} {Q : Status → MetaState → Prop} {c : Catalog} {latest n : ℕ}
variable {p : ℕ × ℕ} {post pre rest : List (ℕ × ℕ)} {s : MetaState} {zones : ℕ → MetaZone}
variable {L : Layout} {z seq : ℕ} {zone : MetaZone} {rs : List Record}

theorem recordsOf_map (rs : List Record) : recordsOf (rs.map .record) = rs := by
  induction rs with
  | nil => rfl
  | cons r rest ih => rw [map_cons, recordsOf, ih]

theorem replay_append_endRecord (g : Geometry) (rs : List Record) (seen : Bool) (c : Catalog) :
    Catalog.replay g (rs ++ [.endRecord]) seen c = Catalog.replay g rs seen c := by
  induction rs generalizing seen c with
  | nil => rfl
  | cons r rest ih => cases r <;> simp only [cons_append, Catalog.replay, ih]

def Replays (L : Layout) (rs : List Record) : Prop :=
  ∃ c, Catalog.replay L.toGeometry rs false .empty = .ok (true, c)

theorem Replays.endRecord (h : Replays L rs) : Replays L (rs ++ [.endRecord]) := by
  obtain ⟨c, hc⟩ := h
  exact ⟨c, by rw [replay_append_endRecord, hc]⟩

/-- A zone with a superblock, followed by records that replay and can be read to the end. -/
structure Complete (L : Layout) (z : ℕ) (zone : MetaZone) (seq : ℕ) (rs : List Record) :
    Prop where
  content : zone.content = .superblock seq :: rs.map .record
  replays : Replays L rs
  ends : .endRecord ∈ rs ∨ L.wp z zone ≤ L.used zone

namespace Complete

section

variable (h : Complete L z zone seq rs)
include h

theorem records : zone.records = rs := by
  rw [MetaZone.records, h.content, tail_cons, recordsOf_map]

theorem not_broken : ¬ zone.broken L z := by
  intro hb
  rw [MetaZone.broken, h.records, h.content, tail_cons, length_map] at hb
  rcases h.ends with he | he
  · exact hb.1 he
  · omega

theorem recoverFrom_eq (hc : Catalog.replay L.toGeometry rs false .empty = .ok (true, c)) :
    recoverFrom L z zone .empty = (.OK, c) := by
  simp [recoverFrom, h.records, hc, h.not_broken]

end

end Complete

/-- A zone that a mount does not recover from while one with number `seq` is complete. -/
inductive Older (L : Layout) (z seq : ℕ) (zone : MetaZone) : Prop
  | empty (h : zone.content = [])
  | torn (n : ℕ) (rest : List Entry) (h : zone.content = .torn n :: rest)
  | started (s : ℕ) (h : zone.content = [.superblock s]) (hwp : L.wp z zone ≤ L.used zone)
  | earlier (s : ℕ) (rest : List Entry) (h : zone.content = .superblock s :: rest) (hs : s < seq)

theorem Older.mono (h : Older L z seq zone) (hn : seq ≤ n) : Older L z n zone := by
  cases h with
  | empty h => exact .empty h
  | torn k rest h => exact .torn k rest h
  | started s h hwp => exact .started s h hwp
  | earlier s rest h hs => exact .earlier s rest h (by omega)

theorem recoverFrom_started {s : ℕ} (h : zone.content = [.superblock s])
    (hwp : L.wp z zone ≤ L.used zone) :
    recoverFrom L z zone .empty = (.NotFound "ZenFS: No snapshot found", .empty) := by
  have hr : zone.records = [] := by
    rw [MetaZone.records, h]
    rfl
  have hb : ¬ zone.broken L z := by
    rw [MetaZone.broken, h]
    simp
    omega
  simp [recoverFrom, hr, Catalog.replay, hb]

/-- A mount recovers zone `latest`, with sequence number `seq` and records `rs`. -/
structure Recoverable (L : Layout) (zones : ℕ → MetaZone) (latest seq : ℕ)
    (rs : List Record) : Prop where
  lt : latest < L.metaZones
  complete : Complete L latest (zones latest) seq rs
  others : ∀ z < L.metaZones, z ≠ latest → Older L z seq (zones z)

def superblockOf (zones : ℕ → MetaZone) (z : ℕ) : Option (ℕ × ℕ) :=
  match (zones z).content with
  | .superblock seq :: _ => some (seq, z)
  | _ => none

theorem readSuperblocks_settles (zs : List ℕ) (s : MetaState)
    (h : ∀ z ∈ zs, ∀ r rest, (s.zones z).content ≠ .record r :: rest) :
    Settles P (readSuperblocks zs) s fun found t =>
      found = .ok (zs.filterMap (superblockOf s.zones)) ∧ ∃ b, t = { s with busy := b } := by
  induction zs generalizing s with
  | nil => exact .pure ⟨rfl, s.busy, rfl⟩
  | cons z rest ih =>
    have hacq : Settles P (acquire z) s fun _ t => ∃ b, t = { s with busy := b } := by
      apply Settles.act
      split
      · exact ⟨s.busy, rfl⟩
      · exact ⟨_, rfl⟩
    have hrest : ∀ t : MetaState, t.zones = s.zones →
        ∀ y ∈ rest, ∀ r l, (t.zones y).content ≠ .record r :: l := by
      intro t ht y hy
      rw [ht]
      exact h y (mem_cons_of_mem _ hy)
    apply Settles.bind
    apply hacq.mono
    rintro _ _ ⟨b, rfl⟩
    apply Settles.bind
    apply Settles.read
    dsimp only [id]
    split
    · next seq l hc =>
      apply Settles.bind
      apply (ih { s with busy := b } (hrest _ rfl)).mono
      rintro found t ⟨rfl, b', rfl⟩
      apply Settles.pure
      simp [superblockOf, hc, Except.map]
    · next r l hc => exact absurd hc (h z (by simp) r l)
    · next hsb hrec =>
      apply Settles.bind
      apply Settles.modify
      apply (ih (MetaState.setBusy { s with busy := b } z false) (hrest _ rfl)).mono
      have hnone : superblockOf s.zones z = none := by
        unfold superblockOf
        split
        · next heq => exact absurd heq (hsb _ _)
        · rfl
      simp [hnone, MetaState.setBusy]

def Unwritten (L : Layout) (zones : ℕ → MetaZone) (pre : List (ℕ × ℕ)) : Prop :=
  ∀ p ∈ pre, ∃ n, (zones p.2).content = [.superblock n] ∧
    L.wp p.2 (zones p.2) ≤ L.used (zones p.2)

theorem recoverLatest_passes (hpre : Unwritten L s.zones pre) (hcat : s.cat = .empty)
    (h : ∀ b, Settles P (recoverLatest L rest) { s with busy := b } Q) :
    Settles P (recoverLatest L (pre ++ rest)) s Q := by
  induction pre generalizing s with
  | nil => exact h s.busy
  | cons p pre ih =>
    obtain ⟨n, hn, hwp⟩ := hpre p (by simp)
    have hrec := recoverFrom_started hn hwp
    apply Settles.bind
    apply Settles.act
    rw [hcat, hrec]
    apply Settles.bind
    apply Settles.modify
    have hs : MetaState.setBusy (s.setCat .empty) p.2 false =
        { s with busy := Function.update s.busy p.2 false } := by
      rw [MetaState.setBusy, MetaState.setCat, ← hcat]
    rw [hs]
    exact ih
      (fun q hq => hpre q (by simp [hq])) hcat h

theorem recoverLatest_settles (hpre : Unwritten L s.zones pre)
    (hcat : s.cat = .empty) (hz : Complete L z (s.zones z) seq rs)
    (hc : Catalog.replay L.toGeometry rs false .empty = .ok (true, c)) :
    Settles P (recoverLatest L (pre ++ (seq, z) :: post)) s fun st t =>
      st = .OK ∧ ∃ b, t = { s with busy := b, cat := c, current := z, seq := seq } := by
  apply recoverLatest_passes hpre hcat
  intro b
  apply Settles.bind
  apply Settles.act
  rw [hcat, hz.recoverFrom_eq hc]
  apply Settles.bind
  apply Settles.modify
  exact .pure ⟨rfl, b, rfl⟩

instance : Std.Total Later := ⟨fun a b => by unfold Later; omega⟩

instance : IsTrans (ℕ × ℕ) Later := ⟨fun a b c h k => by unfold Later at *; omega⟩

theorem superblockOf_eq_some :
    superblockOf zones z = some p ↔
      p.2 = z ∧ ∃ rest, (zones z).content = .superblock p.1 :: rest := by
  unfold superblockOf
  split
  · next n rest h =>
    rw [h]
    constructor
    · rintro ⟨⟩
      exact ⟨rfl, rest, rfl⟩
    · rintro ⟨rfl, rest', h'⟩
      obtain ⟨⟨hn⟩, -⟩ := List.cons.inj h'
      rfl
  · next h =>
    constructor
    · intro h'
      cases h'
    · rintro ⟨-, rest, h'⟩
      exact absurd h' (h _ _)

/-- Zone `latest` is the first one with a snapshot, or with a part of one, that a mount comes
to. -/
structure Newest (L : Layout) (zones : ℕ → MetaZone) (latest seq : ℕ) : Prop where
  lt : latest < L.metaZones
  starts : ∃ rest, (zones latest).content = .superblock seq :: rest
  others : ∀ z < L.metaZones, z ≠ latest → Older L z seq (zones z)

namespace Newest

theorem no_record (h : Newest L zones latest seq) (hz : z < L.metaZones) (r : Record)
    (rest : List Entry) : (zones z).content ≠ .record r :: rest := by
  intro hr
  by_cases hl : z = latest
  · obtain ⟨l, hc⟩ := h.starts
    rw [hl, hc] at hr
    cases hr
  · cases h.others z hz hl with
    | empty he => simp [he] at hr
    | torn k l hk => simp [hk] at hr
    | started s hs hwp | earlier s l hs hlt => simp [hs] at hr

theorem sorted (h : Newest L zones latest seq) : ∃ pre post,
    ((range L.metaZones).filterMap (superblockOf zones)).insertionSort Later =
      pre ++ (seq, latest) :: post ∧ Unwritten L zones pre := by
  obtain ⟨content, hcontent⟩ := h.starts
  have hmem : (seq, latest) ∈ (range L.metaZones).filterMap (superblockOf zones) := by
    apply mem_filterMap.mpr
    exact ⟨latest, by simpa using h.lt, superblockOf_eq_some.mpr ⟨rfl, _, hcontent⟩⟩
  obtain ⟨pre, post, hsplit⟩ := append_of_mem ((mem_insertionSort Later).mpr hmem)
  have hnodup : ((range L.metaZones).filterMap (superblockOf zones)).Nodup := by
    apply List.Nodup.filterMap _ nodup_range
    intro a b p hp hq
    rw [← (superblockOf_eq_some.mp hp).1, ← (superblockOf_eq_some.mp hq).1]
  refine ⟨pre, post, hsplit, ?_⟩
  intro p hp
  have hlater : Later p (seq, latest) := by
    have hs := pairwise_insertionSort Later
      ((range L.metaZones).filterMap (superblockOf zones))
    rw [hsplit, pairwise_append] at hs
    exact hs.2.2 p hp _ (by simp)
  have hne : p ≠ (seq, latest) := by
    have hn := (perm_insertionSort Later _).nodup_iff.mpr hnodup
    rw [hsplit, nodup_append] at hn
    exact hn.2.2 p hp _ (by simp)
  have hin : p ∈ (range L.metaZones).filterMap (superblockOf zones) := by
    rw [← mem_insertionSort Later, hsplit]
    simp [hp]
  obtain ⟨z, hz, hzp⟩ := mem_filterMap.mp hin
  obtain ⟨rfl, rest, hc⟩ := superblockOf_eq_some.mp hzp
  have hzl : p.2 ≠ latest := by
    intro heq
    rw [heq, hcontent] at hc
    obtain ⟨⟨hseq⟩, -⟩ := List.cons.inj hc
    exact hne (Prod.ext rfl heq)
  -- an earlier superblock would come after the newest zone
  cases h.others p.2 (by simpa using hz) hzl with
  | empty he => simp [he] at hc
  | torn k l hk => simp [hk] at hc
  | started s hs hwp => exact ⟨s, hs, hwp⟩
  | earlier s l hs hlt =>
    rw [hs] at hc
    obtain ⟨⟨hps⟩, -⟩ := List.cons.inj hc
    unfold Later at hlater
    omega

end Newest

theorem Recoverable.newest (h : Recoverable L zones latest seq rs) : Newest L zones latest seq :=
  ⟨h.lt, ⟨_, h.complete.content⟩, h.others⟩

end ZenFs.Rolling
