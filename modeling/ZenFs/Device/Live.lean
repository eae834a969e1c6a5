import ZenFs.Device.Lists
import ZenFs.Device.Threads

/-!
Which files the threads hold, and which of them may be in the per-level lists.

A thread knows whether it holds `files_mtx_`, which file it has a `shared_ptr` to, and how
that file stands. Only the holder of the mutex changes names, so a file that is in the
lists without a name is one whose last name is just being removed.
-/

namespace ZenFs.Device

open Library Task Judgement Function

variable {n : ℕ} {p : Placement}

/-- How a file stands that a thread has a `shared_ptr` to. -/
inductive Stage
  /-- Found under a name, or given one. -/
  | held
  /-- Made, but not yet given a name. -/
  | fresh
  /-- The thread took the last name away. -/
  | unnamed
  /-- The thread marked the file deleted, and has yet to take it out of the lists. -/
  | marked
  /-- The thread is done with deleting the file. -/
  | gone
  deriving DecidableEq

variable {t : Stage}

def Stage.Unmarked (s : Stage) : Prop := s ≠ .marked ∧ s ≠ .gone

/-- The file has no name, and the thread keeps others from giving it one. -/
def Stage.Nameless (s : Stage) : Prop := s = .fresh ∨ s = .unnamed ∨ s = .marked

abbrev Hold := Option (Handle × Stage)

structure View where
  /-- The thread holds `files_mtx_`. -/
  locked : Bool
  file : Hold

variable {own : ℕ → Bool} {file : ℕ → Hold} {c : FileTable} {i : ℕ} {h g : Handle} {x : Hold}

/-- What the threads know is right, and the lists have live files only, but for one that a thread is
about to take out. -/
structure Live (own : ℕ → Bool) (file : ℕ → Hold) (c : FileTable) : Prop where
  lock : ∀ i, own i → c.locked
  single : ∀ i j, own i → own j → i = j
  pins : ∀ i h, (c.pins h).count i = if (file i).map (·.1) = some h then 1 else 0
  alive : ∀ h, 0 < c.links h ∨ (∃ i s, file i = some (h, s) ∧ s.Unmarked) →
    (c.place.info h).isDeleted = false
  listed : ∀ h ∈ c.place.recorded,
    (c.place.info h).isDeleted = false ∨ ∃ i, file i = some (h, .marked)
  covered : ∀ h, h ∈ c.place.recorded ∨ (∃ i, file i = some (h, .held)) →
    0 < c.links h ∨ ∃ i, file i = some (h, .unnamed) ∨ file i = some (h, .marked)
  nameless : ∀ i h s, file i = some (h, s) → s.Nameless → own i ∧ c.links h = 0
  fresh : ∀ i h, file i = some (h, .fresh) → h ∉ c.place.recorded ∧ c.pins h = [i]
  marked : ∀ i h, file i = some (h, .marked) → c.pins h = [i]
  uncreated : ∀ h, c.created h = false → c.links h = 0 ∧ c.pins h = [] ∧
    h ∉ c.place.recorded ∧ (c.place.info h).isDeleted = false

variable {s : Stage}

theorem update_hold {j : ℕ} : update file i x j = some (g, s) ↔
    j = i ∧ x = some (g, s) ∨ j ≠ i ∧ file j = some (g, s) := by
  by_cases hj : j = i
  · simp [hj]
  · simp [hj]

/-- What `Live` says of one file. -/
structure Right (own : ℕ → Bool) (file : ℕ → Hold) (c : FileTable) (h : Handle) : Prop where
  pins : ∀ i, (c.pins h).count i = if (file i).map (·.1) = some h then 1 else 0
  alive : 0 < c.links h ∨ (∃ i s, file i = some (h, s) ∧ s.Unmarked) →
    (c.place.info h).isDeleted = false
  listed : h ∈ c.place.recorded →
    (c.place.info h).isDeleted = false ∨ ∃ i, file i = some (h, .marked)
  covered : h ∈ c.place.recorded ∨ (∃ i, file i = some (h, .held)) →
    0 < c.links h ∨ ∃ i, file i = some (h, .unnamed) ∨ file i = some (h, .marked)
  nameless : ∀ i s, file i = some (h, s) → s.Nameless → own i ∧ c.links h = 0
  fresh : ∀ i, file i = some (h, .fresh) → h ∉ c.place.recorded ∧ c.pins h = [i]
  marked : ∀ i, file i = some (h, .marked) → c.pins h = [i]
  uncreated : c.created h = false → c.links h = 0 ∧ c.pins h = [] ∧
    h ∉ c.place.recorded ∧ (c.place.info h).isDeleted = false

namespace Live

section

variable (hc : Live own file c)
include hc

theorem exists_of_recorded (hh : h ∈ c.place.recorded) :
    0 < c.links h ∨ c.pins h ≠ [] := by
  rcases hc.covered h (.inl hh) with hl | ⟨i, hi⟩
  · exact .inl hl
  · right
    intro hp
    have := hc.pins i h
    rcases hi with hi | hi <;> simp [hp, hi] at this

/-- A file in the lists is marked only while its deletion holds the mutex. -/
theorem locked_of_listed (hh : h ∈ c.place.recorded) (hdel : (c.place.info h).isDeleted = true) :
    c.locked = true := by
  rcases hc.listed h hh with hlive | ⟨i, hi⟩
  · rw [hdel] at hlive
    cases hlive
  · exact hc.lock i (hc.nameless i h .marked hi (.inr (.inr rfl))).1

theorem eq_of_pins {j : ℕ} (hp : c.pins h = [i])
    (hj : file j = some (h, s)) : j = i := by
  have := hc.pins j h
  by_contra hne
  simp [hp, hj, Ne.symm hne] at this

theorem acquired (hfree : c.locked = false) :
    Live (update own i true) file { c with locked := true } := by
  have hnone : ∀ j, own j = false := by
    intro j
    cases hj : own j with
    | false => rfl
    | true => exact absurd (hc.lock j hj) (by simp [hfree])
  refine ⟨fun _ _ => rfl, ?_, hc.pins, hc.alive, hc.listed, hc.covered, ?_, hc.fresh, hc.marked,
    hc.uncreated⟩
  · intro j k hj hk
    grind
  · intro j g s hj hs
    exact absurd (hc.nameless j g s hj hs).1 (by simp [hnone])

theorem released (hi : own i = true)
    (hfile : ∀ h s, file i = some (h, s) → s = .held ∨ s = .gone) :
    Live (update own i false) file { c with locked := false } := by
  have hothers : ∀ j, update own i false j = false := by
    intro j
    by_cases hji : j = i
    · rw [hji, update_self]
    · rw [update_of_ne hji]
      cases hj : own j with
      | false => rfl
      | true => exact absurd (hc.single j i hj hi) hji
  refine ⟨?_, ?_, hc.pins, hc.alive, hc.listed, hc.covered, ?_, hc.fresh, hc.marked,
    hc.uncreated⟩
  · intro j hj
    simp [hothers] at hj
  · intro j k hj
    simp [hothers] at hj
  · intro j g s hj hs
    have hown := (hc.nameless j g s hj hs).1
    have hji := hc.single j i hown hi
    subst hji
    rcases hfile g s hj with rfl | rfl <;> simp [Stage.Nameless] at hs

theorem placed (hrec : ∀ g ∈ p.recorded, g ∈ c.place.recorded ∨ file i = some (g, .held))
    (hdel : ∀ g, (p.info g).isDeleted = (c.place.info g).isDeleted) :
    Live own file { c with place := p } := by
  have hin : ∀ g ∈ p.recorded, g ∈ c.place.recorded ∨ ∃ j, file j = some (g, .held) :=
    fun g hg => (hrec g hg).imp_right fun hi => ⟨i, hi⟩
  refine ⟨hc.lock, hc.single, hc.pins, ?_, ?_, ?_, hc.nameless, ?_, hc.marked, ?_⟩
  · intro g hg
    rw [hdel]
    exact hc.alive g hg
  · intro g hg
    rw [hdel]
    rcases hin g hg with hg | ⟨j, hj⟩
    · exact hc.listed g hg
    · exact .inl (hc.alive g (.inr ⟨j, .held, hj, by decide, by decide⟩))
  · intro g hg
    apply hc.covered
    rcases hg with hg | hg
    · exact hin g hg
    · exact .inr hg
  · intro j g hj
    obtain ⟨hnot, hp⟩ := hc.fresh j g hj
    refine ⟨fun hg => ?_, hp⟩
    rcases hrec g hg with hg | hi
    · exact hnot hg
    · have := hc.eq_of_pins hp hi
      rw [this, hj] at hi
      simp at hi
  · intro g hg
    obtain ⟨hl, hp, hnot, hd⟩ := hc.uncreated g hg
    refine ⟨hl, hp, fun hg => ?_, (hdel g).trans hd⟩
    rcases hrec g hg with hg | hi
    · exact hnot hg
    · have := hc.pins i g
      simp [hp, hi] at this

theorem right (h : Handle) : Right own file c h where
  pins i := hc.pins i h
  alive := hc.alive h
  listed := hc.listed h
  covered := hc.covered h
  nameless i := hc.nameless i h
  fresh i := hc.fresh i h
  marked i := hc.marked i h
  uncreated := hc.uncreated h

theorem changed {file' : ℕ → Hold} {c' : FileTable}
    (hlock : c'.locked = c.locked)
    (hfile : ∀ g, g ≠ h → ∀ j s, file' j = some (g, s) ↔ file j = some (g, s))
    (hpins : ∀ g, g ≠ h → c'.pins g = c.pins g) (hlinks : ∀ g, g ≠ h → c'.links g = c.links g)
    (hcreated : ∀ g, g ≠ h → c'.created g = c.created g)
    (hrec : ∀ g, g ≠ h → (g ∈ c'.place.recorded ↔ g ∈ c.place.recorded))
    (hdel : ∀ g, g ≠ h → (c'.place.info g).isDeleted = (c.place.info g).isDeleted)
    (hright : Right own file' c' h) : Live own file' c' := by
  have hall (g : Handle) : Right own file' c' g := by
    by_cases hg : g = h
    · exact hg ▸ hright
    · have hmap (j : ℕ) : (file' j).map (·.1) = some g ↔ (file j).map (·.1) = some g := by
        simp [hfile g hg]
      obtain ⟨hcount, halive, hlisted, hcovered, hnameless, hfresh, hmarked, huncreated⟩ :=
        hc.right g
      constructor <;> simpa only [hpins g hg, hlinks g hg, hcreated g hg, hrec g hg, hdel g hg,
        hmap, hfile g hg]
  exact ⟨fun i hi => hlock ▸ hc.lock i hi, hc.single, fun i g => (hall g).pins i,
    fun g => (hall g).alive, fun g => (hall g).listed, fun g => (hall g).covered,
    fun i g => (hall g).nameless i, fun i g => (hall g).fresh i, fun i g => (hall g).marked i,
    fun g => (hall g).uncreated⟩

end

theorem hold_of_ne {y : Hold} (hi : file i = y) (hy : ∀ g, g ≠ h → ∀ s, y ≠ some (g, s))
    (hx : ∀ g, g ≠ h → ∀ s, x ≠ some (g, s)) (g : Handle) (hg : g ≠ h) (j : ℕ) (s : Stage) :
    update file i x j = some (g, s) ↔ file j = some (g, s) := by
  rw [update_hold]
  constructor
  · rintro (⟨-, hxg⟩ | ⟨-, hj⟩)
    · exact absurd hxg (hx g hg s)
    · exact hj
  · intro hj
    refine .inr ⟨?_, hj⟩
    rintro rfl
    exact hy g hg s (hi ▸ hj)

section

variable (hc : Live own file c)
include hc

theorem nobody (hp : c.pins h = []) (j : ℕ) (s : Stage) :
    file j ≠ some (h, s) := by
  intro hj
  have := hc.pins j h
  simp [hp, hj] at this

theorem count_update {l : List ℕ}
    (hother : ∀ j, j ≠ i → l.count j = (c.pins h).count j)
    (hself : l.count i = if x.map (·.1) = some h then 1 else 0) (j : ℕ) :
    l.count j = if (update file i x j).map (·.1) = some h then 1 else 0 := by
  by_cases hj : j = i
  · rw [hj, update_self, hself]
  · rw [update_of_ne hj, hother j hj, hc.pins]

theorem made (hi : file i = none) (hown : own i = true)
    (hnew : c.created h = false) :
    Live own (update file i (some (h, .fresh)))
      { c with pins := update c.pins h [i], created := update c.created h true } := by
  obtain ⟨hlinks, hpins, hnot, hdel⟩ := hc.uncreated h hnew
  have hhold (j : ℕ) (s : Stage) : update file i (some (h, .fresh)) j = some (h, s) ↔
      j = i ∧ s = .fresh := by
    rw [update_hold]
    constructor
    · rintro (⟨hj, hx⟩ | ⟨-, hj⟩)
      · cases hx
        exact ⟨hj, rfl⟩
      · exact absurd hj (hc.nobody hpins j s)
    · rintro ⟨rfl, rfl⟩
      exact .inl ⟨rfl, rfl⟩
  refine hc.changed rfl (hold_of_ne hi (by simp) (by simp; grind))
    (fun g hg => update_of_ne hg ..) (fun _ _ => rfl)
    (fun g hg => update_of_ne hg ..) (fun _ _ => Iff.rfl) (fun _ _ => rfl) ?_
  constructor
  · intro j
    exact hc.count_update (fun j hj => by simp [hpins, Ne.symm hj]) (by simp) j
  · exact fun _ => hdel
  · exact fun hg => absurd hg hnot
  · simp [hhold, hnot]
  · intro j s hj _
    obtain ⟨rfl, -⟩ := (hhold j s).mp hj
    exact ⟨hown, hlinks⟩
  · intro j hj
    obtain ⟨rfl, -⟩ := (hhold j _).mp hj
    exact ⟨hnot, update_self ..⟩
  · intro j hj
    cases ((hhold j _).mp hj).2
  · simp

theorem found (hi : file i = none) (hl : c.links h ≠ 0) :
    Live own (update file i (some (h, .held)))
      { c with pins := update c.pins h (i :: c.pins h) } := by
  have hpos : 0 < c.links h := Nat.pos_of_ne_zero hl
  have hnamed (j : ℕ) (s : Stage) (hs : s.Nameless) :
      update file i (some (h, .held)) j ≠ some (h, s) := by
    intro hj
    rcases update_hold.mp hj with ⟨-, hx⟩ | ⟨-, hj⟩
    · cases hx
      simp [Stage.Nameless] at hs
    · exact hl (hc.nameless j h s hj hs).2
  refine hc.changed rfl (hold_of_ne hi (by simp) (by simp; grind))
    (fun g hg => update_of_ne hg ..) (fun _ _ => rfl) (fun _ _ => rfl)
    (fun _ _ => Iff.rfl) (fun _ _ => rfl) ?_
  constructor
  · intro j
    have hcount := hc.pins i h
    rw [hi] at hcount
    exact hc.count_update (fun j hj => by simp [Ne.symm hj]) (by simpa using hcount) j
  · exact fun _ => hc.alive h (.inl hpos)
  · exact fun _ => .inl (hc.alive h (.inl hpos))
  · exact fun _ => .inl hpos
  · exact fun j s hj hs => absurd hj (hnamed j s hs)
  · exact fun j hj => absurd hj (hnamed j _ (.inl rfl))
  · exact fun j hj => absurd hj (hnamed j _ (.inr (.inr rfl)))
  · exact fun hh => absurd (hc.uncreated h hh).1 hl

theorem dropped (hi : file i = some (h, s)) (hs : s ≠ .unnamed) (hm : s ≠ .marked) :
    Live own (update file i none)
      { c with pins := update c.pins h ((c.pins h).erase i) } := by
  have hothers (j : ℕ) (s' : Stage) : update file i none j = some (h, s') ↔
      j ≠ i ∧ file j = some (h, s') := by simp [update_hold]
  have hne (j : ℕ) (s' : Stage) (hj : file j = some (h, s')) (hs' : s ≠ s') : j ≠ i := by
    rintro rfl
    rw [hi] at hj
    cases hj
    exact hs' rfl
  refine hc.changed rfl (hold_of_ne hi (by simp; grind) (by simp))
    (fun g hg => update_of_ne hg ..) (fun _ _ => rfl) (fun _ _ => rfl)
    (fun _ _ => Iff.rfl) (fun _ _ => rfl) ?_
  constructor
  · intro j
    have hcount := hc.pins i h
    rw [hi] at hcount
    dsimp only
    rw [update_self]
    exact hc.count_update (fun j hj => List.count_erase_of_ne hj) (by simp [hcount]) j
  · rintro (hl | ⟨j, s', hj, hs'⟩)
    · exact hc.alive h (.inl hl)
    · exact hc.alive h (.inr ⟨j, s', ((hothers j s').mp hj).2, hs'⟩)
  · intro hg
    rcases hc.listed h hg with hlive | ⟨j, hj⟩
    · exact .inl hlive
    · exact .inr ⟨j, (hothers j _).mpr ⟨hne j _ hj hm, hj⟩⟩
  · intro hg
    rcases hc.covered h (hg.imp_right fun ⟨j, hj⟩ => ⟨j, ((hothers j _).mp hj).2⟩) with
      hl | ⟨j, hj | hj⟩
    · exact .inl hl
    · exact .inr ⟨j, .inl ((hothers j _).mpr ⟨hne j _ hj hs, hj⟩)⟩
    · exact .inr ⟨j, .inr ((hothers j _).mpr ⟨hne j _ hj hm, hj⟩)⟩
  · exact fun j s' hj => hc.nameless j h s' ((hothers j s').mp hj).2
  · intro j hj
    obtain ⟨hji, hj⟩ := (hothers j _).mp hj
    exact absurd (hc.eq_of_pins (hc.fresh j h hj).2 hi).symm hji
  · intro j hj
    obtain ⟨hji, hj⟩ := (hothers j _).mp hj
    exact absurd (hc.eq_of_pins (hc.marked j h hj) hi).symm hji
  · intro hh
    exact absurd hi (hc.nobody (hc.uncreated h hh).2.1 i s)

theorem created_of_file (hi : file i = some (h, s)) :
    c.created h = true := by
  cases hh : c.created h with
  | true => rfl
  | false => exact absurd hi (hc.nobody (hc.uncreated h hh).2.1 i s)

/-- A thread changes the number of names of its file, or finds out what it is. The file
stands as `t` afterwards: without a name if there is none left, or held. -/
theorem renamed (hi : file i = some (h, s))
    (hs : s.Unmarked) (hown : own i = true) (hn : t = .unnamed ∧ n = 0 ∨ t = .held ∧ 0 < n) :
    Live own (update file i (some (h, t)))
      { c with links := update c.links h n } := by
  have hdel : (c.place.info h).isDeleted = false := hc.alive h (.inr ⟨i, s, hi, hs⟩)
  -- another thread with the mutex would be this one
  have hnamed (j : ℕ) (s' : Stage) (hs' : s'.Nameless)
      (hj : update file i (some (h, t)) j = some (h, s')) : j = i ∧ s' = t := by
    rcases update_hold.mp hj with ⟨rfl, hx⟩ | ⟨hji, hj⟩
    · cases hx
      exact ⟨rfl, rfl⟩
    · exact absurd (hc.single j i (hc.nameless j h s' hj hs').1 hown) hji
  refine hc.changed rfl (hold_of_ne hi (by simp; grind) (by simp; grind)) (fun _ _ => rfl)
    (fun g hg => update_of_ne hg ..) (fun _ _ => rfl) (fun _ _ => Iff.rfl)
    (fun _ _ => rfl) ?_
  constructor
  · exact hc.count_update (fun _ _ => rfl) (by rw [hc.pins, hi]; rfl)
  · exact fun _ => hdel
  · exact fun _ => .inl hdel
  · intro _
    rcases hn with ⟨rfl, -⟩ | ⟨-, hn⟩
    · exact .inr ⟨i, .inl (update_self ..)⟩
    · exact .inl (by simpa using hn)
  · intro j s' hj hs'
    obtain ⟨rfl, rfl⟩ := hnamed j s' hs' hj
    rcases hn with ⟨-, rfl⟩ | ⟨rfl, -⟩
    · exact ⟨hown, update_self ..⟩
    · simp [Stage.Nameless] at hs'
  · intro j hj
    obtain ⟨-, rfl⟩ := hnamed j _ (.inl rfl) hj
    rcases hn with ⟨hn, -⟩ | ⟨hn, -⟩ <;> cases hn
  · intro j hj
    obtain ⟨-, rfl⟩ := hnamed j _ (.inr (.inr rfl)) hj
    rcases hn with ⟨hn, -⟩ | ⟨hn, -⟩ <;> cases hn
  · intro hh
    rw [hc.created_of_file hi] at hh
    cases hh

/-- A thread that has the only reference to a file without a name is the only one to know it. -/
theorem only_hold (hp : c.pins h = [i]) (j : ℕ) (s : Stage)
    (hj : update file i (some (h, t)) j = some (h, s)) : j = i ∧ s = t := by
  rcases update_hold.mp hj with ⟨hji, hx⟩ | ⟨hji, hj⟩
  · cases hx
    exact ⟨hji, rfl⟩
  · exact absurd (hc.eq_of_pins hp hj) hji

theorem flagged (hi : file i = some (h, .unnamed)) (hp : c.pins h = [i]) :
    Live own (update file i (some (h, .marked))) { c with place := c.place.mark h } := by
  obtain ⟨hown, hlinks⟩ := hc.nameless i h .unnamed hi (.inr (.inl rfl))
  have hhold := hc.only_hold (t := .marked) hp
  refine hc.changed rfl (hold_of_ne hi (by simp; grind) (by simp; grind)) (fun _ _ => rfl)
    (fun _ _ => rfl) (fun _ _ => rfl) (fun _ _ => Iff.rfl)
    (fun g hg => congrArg FileInfo.isDeleted (Placement.setInfo_info_of_ne _ _ _ hg)) ?_
  constructor
  · exact hc.count_update (fun _ _ => rfl) (by rw [hc.pins, hi]; rfl)
  · rintro (hl | ⟨j, s, hj, hs⟩)
    · exact absurd hlinks (Nat.pos_iff_ne_zero.mp hl)
    · exact absurd (hhold j s hj).2 hs.1
  · exact fun _ => .inr ⟨i, update_self ..⟩
  · exact fun _ => .inr ⟨i, .inr (update_self ..)⟩
  · intro j s hj _
    obtain ⟨rfl, -⟩ := hhold j s hj
    exact ⟨hown, hlinks⟩
  · intro j hj
    cases (hhold j _ hj).2
  · intro j hj
    obtain ⟨rfl, -⟩ := hhold j _ hj
    exact hp
  · intro hh
    rw [hc.created_of_file hi] at hh
    cases hh

theorem unlisted (hi : file i = some (h, .marked)) :
    Live own (update file i (some (h, .gone))) { c with place := c.place.removeZoneFileRecord h } := by
  have hmem : ∀ g, g ∈ (c.place.removeZoneFileRecord h).recorded ↔ g ∈ c.place.recorded ∧ g ≠ h :=
    fun g => Placement.mem_removeZoneFileRecord
  have hhold := hc.only_hold (t := .gone) (hc.marked i h hi)
  have hgone : h ∉ (c.place.removeZoneFileRecord h).recorded := fun hg => ((hmem h).mp hg).2 rfl
  refine hc.changed (h := h) rfl (hold_of_ne hi (by simp; grind) (by simp; grind))
    (fun _ _ => rfl) (fun _ _ => rfl) (fun _ _ => rfl) (fun g hg => by simp [hmem, hg])
    (fun _ _ => rfl) ?_
  constructor
  · exact hc.count_update (fun _ _ => rfl) (by rw [hc.pins, hi]; rfl)
  · rintro (hl | ⟨j, s, hj, hs⟩)
    · exact absurd (hc.nameless i h .marked hi (.inr (.inr rfl))).2 (Nat.pos_iff_ne_zero.mp hl)
    · exact absurd (hhold j s hj).2 hs.2
  · exact fun hg => absurd hg hgone
  · rintro (hg | ⟨j, hj⟩)
    · exact absurd hg hgone
    · cases (hhold j _ hj).2
  · intro j s hj hs
    obtain ⟨-, rfl⟩ := hhold j s hj
    simp [Stage.Nameless] at hs
  · intro j hj
    cases (hhold j _ hj).2
  · intro j hj
    cases (hhold j _ hj).2
  · intro hh
    rw [hc.created_of_file hi] at hh
    cases hh

end

end Live

end ZenFs.Device
