import Mathlib.Data.List.GetD
import ZenFs.Device.Closest

/-!
The search for a zone that has data of a file with a rank close to that of the file.

Two positions run away from the file, and each round looks at the file that is closer in rank.
The rounds end when one of the positions has run off its side, although the other side may
have files left, and the first file of the ranking is never looked at.
-/

namespace ZenFs.Device

open Library Task List

variable {j k v : ℕ} {m : DevTask (Status × Option ℕ)} {rest visited : ℕ → Prop}

/-- The distance in rank of the file at a position. -/
def rankDiffAt (d : Zbd) (h : Handle) (ranking : List Handle) (j : ℕ) : ℕ :=
  rankDiff d.place h (ranking.getD j 0)

/-- The file at a position other than that of the file itself has data. -/
def OtherHasData (d : Zbd) (n : ℕ) (ranking : List Handle) (i j : ℕ) : Prop :=
  j ≠ i ∧ j < ranking.length ∧ d.HasData n (ranking.getD j 0)

/-- What `ChooseZoneWithClosestRank` is for: no zone exactly if no other file has data in one
that can take the file, and else one with data of a file that is closest in rank among them. -/
def TakesClosestRank (e : Setup) (a : Holder) (h : Handle) (i : ℕ) (ranking : List Handle) (n : ℕ)
    (d : Zbd) : Prop :=
  (chooseZoneWithClosestRank e a h i ranking n).Returns (exec e) d fun r t =>
    r.1 = .OK ∧ t = d.hold a r.2 ∧
    (r.2 = none ↔ ∀ j, ¬ OtherHasData d n ranking i j) ∧
    ∀ z, r.2 = some z → ∃ j, OtherHasData d n ranking i j ∧
      (∃ x ∈ (d.bodies (ranking.getD j 0)).extents, x.zone = z ∧ d.Usable n x) ∧
      ∀ k, OtherHasData d n ranking i k → rankDiffAt d h ranking j ≤ rankDiffAt d h ranking k

/-- The positions that the rounds get to from `prev` and `next` on, as long as they find
nothing: those behind up to the rank distance of the second file of the ranking, and those
before, but not the first file, below that of the last. -/
def Visited (d : Zbd) (h : Handle) (ranking : List Handle) (prev : ℤ) (next j : ℕ) : Prop :=
  0 < prev ∧ next < ranking.length ∧
    ((next ≤ j ∧ j < ranking.length ∧ rankDiffAt d h ranking j ≤ rankDiffAt d h ranking 1) ∨
      (0 < j ∧ (j : ℤ) ≤ prev ∧
        rankDiffAt d h ranking j < rankDiffAt d h ranking (ranking.length - 1)))

def SortedByRank (p : Placement) (ranking : List Handle) : Prop :=
  ranking.Pairwise fun x y => (p.info x).rank ≤ (p.info y).rank

instance (p : Placement) (ranking : List Handle) : Decidable (SortedByRank p ranking) :=
  inferInstanceAs (Decidable (ranking.Pairwise _))

variable {e : Setup} {a : Holder} {h : Handle} {d : Zbd} {n i : ℕ} {ranking : List Handle}

section

variable (hsorted : SortedByRank d.place ranking)
include hsorted

theorem SortedByRank.rank_le (hjk : j ≤ k) (hk : k < ranking.length) :
    (d.place.info (ranking.getD j 0)).rank ≤ (d.place.info (ranking.getD k 0)).rank := by
  have hj : j < ranking.length := by omega
  rw [getD_eq_getElem _ _ hj, getD_eq_getElem _ _ hk]
  obtain hlt | rfl := Nat.lt_or_eq_of_le hjk
  · exact pairwise_iff_getElem.mp hsorted j k hj hk hlt
  · exact le_rfl

theorem rankDiffAt_before (hi : ranking[i]? = some h)
    (hjk : j ≤ k) (hk : k ≤ i) : rankDiffAt d h ranking k ≤ rankDiffAt d h ranking j := by
  obtain ⟨hlt, rfl⟩ := List.getElem?_eq_some_iff.mp hi
  have hjk' := hsorted.rank_le hjk (by omega)
  have hki := hsorted.rank_le hk hlt
  rw [getD_eq_getElem _ _ hlt] at hki
  simp only [rankDiffAt, rankDiff]
  omega

theorem rankDiffAt_behind (hi : ranking[i]? = some h)
    (hij : i ≤ j) (hjk : j ≤ k) (hk : k < ranking.length) :
    rankDiffAt d h ranking j ≤ rankDiffAt d h ranking k := by
  obtain ⟨hlt, rfl⟩ := List.getElem?_eq_some_iff.mp hi
  have hjk' := hsorted.rank_le hjk hk
  have hij' := hsorted.rank_le hij (by omega)
  rw [getD_eq_getElem _ _ hlt] at hij'
  simp only [rankDiffAt, rankDiff]
  omega

end

theorem rankDiff_comm (p : Placement) (f g : Handle) : rankDiff p f g = rankDiff p g f := by
  simp only [rankDiff]
  omega

theorem visited_back_iff (hsorted : SortedByRank d.place ranking) (hi : ranking[i]? = some h)
    {p next : ℕ} (hp : 0 < p) (hpi : p < i) (hin : i < next) (hnext : next < ranking.length)
    (hback : rankDiffAt d h ranking p < rankDiffAt d h ranking next) :
    Visited d h ranking p next j ↔ j = p ∨ Visited d h ranking (p - 1) next j := by
  have hlast : rankDiffAt d h ranking next ≤ rankDiffAt d h ranking (ranking.length - 1) :=
    rankDiffAt_behind hsorted hi (by omega) (by omega) (by omega)
  constructor
  · rintro ⟨-, -, ⟨hj, hlt, hdiff⟩ | ⟨hj, hle, hdiff⟩⟩
    · have hbehind := rankDiffAt_behind hsorted hi (by omega) hj hlt
      -- If the file before were the second one, nothing behind would be as close.
      have hne : p ≠ 1 := by
        rintro rfl
        omega
      exact .inr ⟨by omega, hnext, .inl ⟨hj, hlt, hdiff⟩⟩
    · by_cases hjp : j = p
      · exact .inl hjp
      · exact .inr ⟨by omega, hnext, .inr ⟨hj, by omega, hdiff⟩⟩
  · rintro (rfl | ⟨hpos, -, hvisited⟩)
    · exact ⟨by omega, hnext, .inr ⟨hp, le_rfl, by omega⟩⟩
    · refine ⟨by omega, hnext, hvisited.imp_right fun hj => ⟨hj.1, by omega, hj.2.2⟩⟩

theorem visited_forward_iff (hsorted : SortedByRank d.place ranking) (hi : ranking[i]? = some h)
    {p next : ℕ} (hp : 0 < p) (hpi : p < i) (hin : i < next) (hnext : next < ranking.length)
    (hforward : rankDiffAt d h ranking next ≤ rankDiffAt d h ranking p) :
    Visited d h ranking p next j ↔ j = next ∨ Visited d h ranking p (next + 1) j := by
  have hsecond : rankDiffAt d h ranking p ≤ rankDiffAt d h ranking 1 :=
    rankDiffAt_before hsorted hi (by omega) (by omega)
  constructor
  · rintro ⟨-, -, ⟨hj, hlt, hdiff⟩ | ⟨hj, hle, hdiff⟩⟩
    · by_cases hjn : j = next
      · exact .inl hjn
      · exact .inr ⟨by omega, by omega, .inl ⟨by omega, hlt, hdiff⟩⟩
    · have hbefore := rankDiffAt_before hsorted hi (j := j) (k := p) (by omega) (by omega)
      have hne : next ≠ ranking.length - 1 := by
        intro heq
        rw [← heq] at hdiff
        omega
      exact .inr ⟨by omega, by omega, .inr ⟨hj, hle, hdiff⟩⟩
  · rintro (rfl | ⟨hpos, hlt, hvisited⟩)
    · exact ⟨by omega, hnext, .inl ⟨le_rfl, hnext, by omega⟩⟩
    · exact ⟨hpos, hnext, hvisited.imp_left fun hj => ⟨by omega, hj.2⟩⟩

/-- What rounds from `prev` and `next` on end with. -/
structure RankFound (d : Zbd) (n : ℕ) (h : Handle) (ranking : List Handle) (i : ℕ)
    (visited : ℕ → Prop) (zone : Option ℕ) : Prop where
  none : zone = none → ∀ j, visited j → ¬ OtherHasData d n ranking i j
  some : ∀ z, zone = some z → ∃ j, visited j ∧ OtherHasData d n ranking i j ∧
    (∃ x ∈ (d.bodies (ranking.getD j 0)).extents, x.zone = z ∧ d.Usable n x) ∧
    ∀ k, OtherHasData d n ranking i k → rankDiffAt d h ranking j ≤ rankDiffAt d h ranking k

/-- One round: it looks at the file at position `v`, the closest of those that are left, and
without a zone the other rounds follow. -/
theorem rankRound_returns
    (hv : v ≠ i ∧ v < ranking.length) (hsplit : ∀ j, visited j ↔ j = v ∨ rest j)
    (hclosest : ∀ k, OtherHasData d n ranking i k →
      rankDiffAt d h ranking v ≤ rankDiffAt d h ranking k)
    (hm : ¬ OtherHasData d n ranking i v → m.Returns (exec e) d fun r t =>
      r.1 = .OK ∧ t = d.hold a r.2 ∧ RankFound d n h ranking i rest r.2) :
    (longestExtent e a (d.bodies (ranking.getD v 0)).extents n >>= fun r =>
      if !r.1.ok then pure (r.1, r.2.1) else if r.2.1.isSome then pure (.OK, r.2.1) else m).Returns
      (exec e) d fun r t =>
        r.1 = .OK ∧ t = d.hold a r.2 ∧ RankFound d n h ranking i visited r.2 := by
  have hround : (longestExtent e a (d.bodies (ranking.getD v 0)).extents n).Returns (exec e) d
      fun r t => r.1 = .OK ∧ t = d.hold a r.2.1 ∧ (bestFree d ZoneExtent.zone (longer d n)
        (d.bodies (ranking.getD v 0)).extents none 0).1 = r.2.1 :=
    ⟨_, _, longestExtent_run, rfl, rfl, rfl⟩
  apply hround.seq
  rintro ⟨_, kept, _⟩ t ⟨rfl, rfl, hround⟩
  cases kept with
  | some z =>
    obtain ⟨x, hx, hz, husable⟩ := bestFree_usable hround
    have hother : OtherHasData d n ranking i v := ⟨hv.1, hv.2, x, hx, husable⟩
    refine .ret ⟨rfl, rfl, nofun, ?_⟩
    rintro _ ⟨⟩
    exact ⟨v, (hsplit v).mpr (.inl rfl), hother, ⟨x, hx, hz, husable⟩, hclosest⟩
  | none =>
    have hnot : ¬ OtherHasData d n ranking i v := by
      rintro ⟨-, -, x, hx, husable⟩
      exact bestFree_eq_none_iff.mp hround x hx husable
    apply (hm hnot).mono
    rintro r t ⟨hok, ht, hfound⟩
    refine ⟨hok, ht, fun hnone j hj => ?_, fun z hz => ?_⟩
    · obtain rfl | hj := (hsplit j).mp hj
      · exact hnot
      · exact hfound.none hnone j hj
    · obtain ⟨j, hj, hdata⟩ := hfound.some z hz
      exact ⟨j, (hsplit j).mpr (.inr hj), hdata⟩

/-- One round after the other: what lies between the positions had no data. -/
theorem closestRankRounds_returns (hsorted : SortedByRank d.place ranking)
    (hi : ranking[i]? = some h) (rounds : ℕ) {prev : ℤ} {next : ℕ} (hprev : prev < i)
    (hnext : i < next) (hrounds : prev.toNat + (ranking.length - next) ≤ rounds)
    (hseen : ∀ j : ℕ, prev < j → j < next → ¬ OtherHasData d n ranking i j) :
    (closestRankRounds e a h ranking n rounds prev next).Returns (exec e) d fun r t =>
      r.1 = .OK ∧ t = d.hold a r.2 ∧
        RankFound d n h ranking i (Visited d h ranking prev next) r.2 := by
  induction rounds generalizing prev next with
  | zero =>
    refine .ret ⟨rfl, rfl, fun _ j hj => ?_, nofun⟩
    have hpos := hj.1
    omega
  | succ rounds ih =>
    rw [closestRankRounds]
    split
    · next hend =>
      refine .ret ⟨rfl, rfl, fun _ j hj => ?_, nofun⟩
      simp [hj.1, hj.2.1] at hend
    · next hgo =>
      obtain ⟨hpos, hlt⟩ : 0 < prev ∧ next < ranking.length := by simpa using hgo
      obtain ⟨p, rfl⟩ := Int.eq_ofNat_of_zero_le hpos.le
      apply returns_look
      dsimp only
      rw [Int.toNat_natCast, rankDiff_comm d.place (ranking.getD next 0) h]
      have hbefore {k : ℕ} (hk : k ≤ p) := rankDiffAt_before hsorted hi hk (by omega)
      have hbehind {k : ℕ} (hk : next ≤ k) (hkl : k < ranking.length) :=
        rankDiffAt_behind hsorted hi (by omega) hk hkl
      -- A file that has data is not between the positions.
      have hleft : ∀ k, OtherHasData d n ranking i k → k ≤ p ∨ next ≤ k := by
        intro k hk
        by_contra hbetween
        exact hseen k (by omega) (by omega) hk
      by_cases hback : rankDiffAt d h ranking p < rankDiffAt d h ranking next
      · have hif : (rankDiff d.place h (ranking.getD p 0) <
            rankDiff d.place h (ranking.getD next 0)) := hback
        simp only [hif]
        refine rankRound_returns ⟨by omega, by omega⟩ (fun j => visited_back_iff hsorted hi
          (by omega) (by omega) hnext hlt hback) (fun k hk => ?_) fun hnot =>
            ih (by omega) hnext (by omega) fun j hj hjn => ?_
        · obtain hkp | hkn := hleft k hk
          · exact hbefore hkp
          · exact hback.le.trans (hbehind hkn hk.2.1)
        · by_cases hjp : j = p
          · exact hjp ▸ hnot
          · exact hseen j (by omega) hjn
      · have hif : ¬ (rankDiff d.place h (ranking.getD p 0) <
            rankDiff d.place h (ranking.getD next 0)) := hback
        simp only [hif]
        refine rankRound_returns ⟨by omega, hlt⟩ (fun j => visited_forward_iff hsorted hi
          (by omega) (by omega) hnext hlt (Nat.not_lt.mp hback)) (fun k hk => ?_) fun hnot =>
            ih hprev (by omega) (by omega) fun j hj hjn => ?_
        · obtain hkp | hkn := hleft k hk
          · exact (Nat.not_lt.mp hback).trans (hbefore hkp)
          · exact hbehind hkn hk.2.1
        · by_cases hjn' : j = next
          · exact hjn' ▸ hnot
          · exact hseen j hj (by omega)

/-- The search does what it is for exactly if it gets to some file that has data, unless there
is none. -/
theorem takesClosestRank_iff (hsorted : SortedByRank d.place ranking)
    (hi : ranking[i]? = some h) :
    TakesClosestRank e a h i ranking n d ↔ ((∃ j, OtherHasData d n ranking i j) →
      ∃ j, Visited d h ranking (i - 1) (i + 1) j ∧ OtherHasData d n ranking i j) := by
  have hlt : i < ranking.length := (List.getElem?_eq_some_iff.mp hi).1
  have hrun : (chooseZoneWithClosestRank e a h i ranking n).Returns (exec e) d _ :=
    closestRankRounds_returns hsorted hi ranking.length (by omega) (by omega) (by omega)
      fun j hj hjn hdata => hdata.1 (by omega)
  constructor
  · rintro ⟨r, t, hr, -, -, hnone, -⟩ ⟨j, hj⟩
    obtain ⟨-, -, hfound⟩ := hrun.ends r t hr
    cases hz : r.2 with
    | none => exact absurd hj (hnone.mp hz j)
    | some z =>
      obtain ⟨k, hk, hdata, -⟩ := hfound.some z hz
      exact ⟨k, hk, hdata⟩
  · intro hcond
    apply hrun.mono
    rintro r t ⟨hok, ht, hfound⟩
    refine ⟨hok, ht, ⟨fun hz j hj => ?_, fun hall => ?_⟩, fun z hz => ?_⟩
    · obtain ⟨k, hk, hdata⟩ := hcond ⟨j, hj⟩
      exact hfound.none hz k hk hdata
    · cases hz : r.2 with
      | none => rfl
      | some z =>
        obtain ⟨k, -, hdata, -⟩ := hfound.some z hz
        exact absurd hdata (hall k)
    · obtain ⟨k, -, hdata, hfile⟩ := hfound.some z hz
      exact ⟨k, hdata, hfile⟩

/-- A ranking in which the search gets to file 2: it has the rank of the file itself. -/
theorem takesClosestRank_neighbourDevice :
    TakesClosestRank (smallSetup .oaza) me 1 2 [3, 4, 1, 2] 16 neighbourDevice := by
  refine (takesClosestRank_iff (by decide) rfl).mpr fun _ => ⟨3, ?_, ?_⟩
  · exact ⟨by decide, by decide, .inl ⟨by decide, by decide, by decide⟩⟩
  · exact ⟨by decide, by decide, by decide +kernel⟩

/-- With the file last in the ranking the search does not begin, although the file before it
has data. -/
theorem closest_rank_last_not_found :
    ¬ TakesClosestRank (smallSetup .oaza) me 1 1 [2, 1] 16 neighbourDevice := by
  rintro ⟨r, t, hr, -, -, hnone, -⟩
  have hrun : ((chooseZoneWithClosestRank (smallSetup .oaza) me 1 1 [2, 1] 16).run
      (exec (smallSetup .oaza)) neighbourDevice).map (·.1.2) = some none := by decide +kernel
  rw [hr] at hrun
  exact hnone.mp (Option.some.inj hrun) 0 ⟨by decide, by decide, by decide +kernel⟩

end ZenFs.Device
