import ZenFs.Device.Books

/-!
The share of a zone that the nearest-keys policy computes, over whole runs.

Appends record an extent and then raise the counter of its zone. A migration raises the
counters of the new zones first, then replaces the extent list, and last lowers the counters
of the old zones. In between, the counters run ahead of the extents by a credit.
-/

namespace ZenFs.Device

open Library Task Judgement Zbd Nat

variable {f : FileInfo → FileInfo} {level : ℤ} {new old : List ZoneExtent} {o : Operation}
variable {spins : ℕ}
variable {e : Setup} {a : Holder} {h : Handle} {d t : Zbd} {credit : ℕ → ℕ}
  {keep : (Handle → List ZoneExtent) → Prop}

def anyExtents (_ : Handle → List ZoneExtent) : Prop := True

theorem InOrder.mono {credit' : ℕ → ℕ} (hd : InOrder credit keep d)
    (hle : ∀ z, credit' z ≤ credit z) : InOrder credit' anyExtents d := by
  refine ⟨fun z files => ?_, trivial, hd.accounted⟩
  have hsum := hd.covered z files
  have hz := hle z
  omega

variable {α : Type}

theorem use_usedCapacity (z : ℕ) (f : ℕ → ℕ) (y : ℕ) : ((d.use z f).zones y).usedCapacity =
    if y = z then f (d.zones z).usedCapacity else (d.zones y).usedCapacity := by
  by_cases hy : y = z
  · subst hy
    simp [Zbd.use, Zbd.setZone]
  · simp [Zbd.use, Zbd.setZone, hy]

theorem onBody_extents_self (f : FileBody → FileBody) :
    (d.onBody h f).extents h = (f (d.bodies h)).extents := by
  simp [extents, Zbd.onBody, Zbd.setBody]

theorem onBody_extents_of_ne {g : Handle} (f : FileBody → FileBody) (hg : g ≠ h) :
    (d.onBody h f).extents g = d.extents g := by
  simp [extents, Zbd.onBody, Zbd.setBody, hg]

theorem record_orderly {f : FileBody → FileBody} {z n : ℕ} {m : DevTask α}
    (hf : ∀ b, ∃ start, (f b).extents = b.extents ++ [⟨start, n, z⟩])
    (hm : (orderly e credit anyExtents).Admits m) :
    (orderly e credit anyExtents).Admits (do
      call (.body h f)
      call (.use z (· + n))
      m) := by
  intro s hs
  refine heeds_call nofun ?_
  rintro _ _ ⟨⟩
  refine heeds_call nofun ?_
  rintro _ _ ⟨⟩
  apply hm
  refine ⟨hs.covered.of_file h (fun g hg => onBody_extents_of_ne f hg) fun y => ?_, trivial,
    hs.accounted⟩
  obtain ⟨start, hextents⟩ := hf (s.bodies h)
  have hbytes : ((s.onBody h f).use z (· + n)).bytes h y =
      s.bytes h y + if z = y then n else 0 := by
    change bytesIn ((s.onBody h f).extents h) y = _
    rw [onBody_extents_self, hextents, bytesIn_append, bytesIn_cons]
    rfl
  have hused := use_usedCapacity (d := s.onBody h f) z (· + n) y
  have hzones : (s.onBody h f).zones = s.zones := rfl
  rw [hbytes, hused, hzones]
  by_cases hy : y = z
  · subst hy
    simp only [if_true]
    omega
  · simp only [if_neg hy, if_neg (Ne.symm hy)]
    omega

theorem activeZone_orderly : (orderly e credit keep).Admits (activeZone h) :=
  activeZone_admits (orderly_call rfl nofun nofun) (orderly_call rfl nofun nofun)

theorem lookActiveZone_orderly : (orderly e credit keep).Admits (lookActiveZone h) :=
  lookActiveZone_admits (orderly_call rfl nofun nofun) (orderly_call rfl nofun nofun)

theorem addExtent_orderly (header length : ℕ) :
    (orderly e credit anyExtents).Admits (addExtent h header length) := by
  apply admits_bind activeZone_orderly
  intro z
  apply admits_bind lookActiveZone_orderly
  intro zone
  exact record_orderly (fun b => ⟨_, rfl⟩) (orderly_body fun _ => rfl)

theorem pushExtent_orderly : (orderly e credit anyExtents).Admits (pushExtent h) := by
  refine admits_then (orderly_call (o := .look) rfl nofun nofun) fun d => ?_
  refine admits_ite_ret ?_
  apply admits_bind activeZone_orderly
  intro z
  apply record_orderly fun b => ⟨_, rfl⟩
  apply admits_bind lookActiveZone_orderly
  intro zone
  exact orderly_body fun _ => rfl

theorem appends_orderly (he : e.Plaza) : Appends e a h (orderly e credit anyExtents) where
  toAdvances := advances_orderly he
  append _ _ := orderly_call rfl nofun nofun
  addExtent := addExtent_orderly
  pushExtent := pushExtent_orderly
  grow _ := orderly_body fun _ => rfl

/-- The bytes that come to a zone when the first list is replaced by the second. -/
def gained : List ZoneExtent → List ZoneExtent → ℕ → ℕ
  | x :: old, y :: new, z =>
    (if x ≠ y ∧ y.zone = z then y.length else 0) + gained old new z
  | _, _, _ => 0

/-- The bytes that leave a zone when the first list is replaced by the second. -/
def lost : List ZoneExtent → List ZoneExtent → ℕ → ℕ
  | x :: old, y :: new, z =>
    (if x ≠ y ∧ x.zone = z then x.length else 0) + lost old new z
  | _, _, _ => 0

theorem gained_self (l : List ZoneExtent) (z : ℕ) : gained l l z = 0 := by
  induction l with
  | nil => rfl
  | cons x rest ih => simp [gained, ih]

theorem gained_cons_le (x y : ZoneExtent) (old new : List ZoneExtent) (z : ℕ) :
    gained (x :: old) (y :: new) z ≤ (if y.zone = z then y.length else 0) + gained old new z := by
  rw [gained]
  split_ifs <;> omega

theorem bytesIn_add_lost (hlength : new.length = old.length) (z : ℕ) :
    bytesIn new z + lost old new z = bytesIn old z + gained old new z := by
  induction old generalizing new with
  | nil =>
    cases new with
    | nil => rfl
    | cons y new => cases hlength
  | cons x old ih =>
    cases new with
    | nil => cases hlength
    | cons y new =>
      have hrest := ih (succ.inj hlength)
      rw [bytesIn_cons, bytesIn_cons, lost, gained]
      by_cases hxy : x = y
      · subst hxy
        omega
      · simp only [ne_eq, hxy, not_false_eq_true, true_and]
        omega

theorem InOrder.use_add (hd : InOrder credit keep d) (z n : ℕ) :
    InOrder (fun y => credit y + if z = y then n else 0) keep (d.use z (· + n)) := by
  refine ⟨hd.covered.of_file 0 (fun _ _ => rfl) fun y => ?_, hd.keeps, hd.accounted⟩
  have hbytes : (d.use z (· + n)).bytes 0 y = d.bytes 0 y := rfl
  rw [use_usedCapacity]
  by_cases hy : y = z
  · subst hy
    simp only [if_true]
    omega
  · simp only [if_neg hy, if_neg (Ne.symm hy)]
    omega

theorem InOrder.use_sub {z n : ℕ}
    (hd : InOrder (fun y => (if z = y then n else 0) + credit y) keep d) :
    InOrder credit keep (d.use z (· - n)) := by
  refine ⟨hd.covered.of_file 0 (fun _ _ => rfl) fun y => ?_, hd.keeps, hd.accounted⟩
  have hbytes : (d.use z (· - n)).bytes 0 y = d.bytes 0 y := rfl
  rw [use_usedCapacity]
  by_cases hy : y = z
  · subst hy
    simp only [if_true]
    omega
  · simp only [if_neg hy]
    omega

theorem InOrder.credit_le {credit' : ℕ → ℕ} (hd : InOrder credit keep d)
    (hle : ∀ z, credit' z ≤ credit z) : InOrder credit' keep d :=
  ⟨(hd.mono hle).covered, hd.keeps, hd.accounted⟩

/-- The zones that take the extents are charged before the extent list is replaced. -/
theorem migrateExtents_heeds (he : e.Plaza) (selected : List (ℕ × ℕ)) {l : List ZoneExtent}
    (hd : InOrder credit keep d) :
    (migrateExtents e a h selected l).Heeds (exec e) (ProperAtLists e) d fun new t =>
      new.length = l.length ∧ InOrder (fun z => credit z + gained l new z) keep t := by
  induction l generalizing credit d with
  | nil => exact .ret ⟨rfl, hd.credit_le fun _ => le_rfl⟩
  | cons x rest ih =>
    have hskip {t : Zbd} (ht : InOrder credit keep t) :
        (do return x :: (← migrateExtents e a h selected rest) : DevTask _).Heeds (exec e)
          (ProperAtLists e) t fun new u => new.length = (x :: rest).length ∧
            InOrder (fun z => credit z + gained (x :: rest) new z) keep u := by
      refine (ih ht).seq fun new u hu => .ret ⟨congrArg (· + 1) hu.1, hu.2.credit_le ?_⟩
      simp [gained]
    have hrelease (zone : Option ℕ) : (orderly e credit keep).Admits (releaseMigrateZone e a zone) :=
      releaseMigrateZone_admits handles_orderly zone
    rw [migrateExtents]
    split
    · exact hskip hd
    · refine heeds_call (hd.properAtLists _) ?_
      rintro _ _ ⟨⟩
      refine (takeMigrateZone_admits (advances_orderly he).toAllocates _ _ d hd).seq ?_
      rintro ⟨s, target, _⟩ t ⟨ht, -⟩
      dsimp only
      split
      · exact hskip ht
      · cases target with
        | none => exact (hrelease none t ht).seq fun _ u hu => hskip hu.1
        | some z =>
          refine heeds_call (ht.properAtLists _) ?_
          rintro _ _ ⟨⟩
          refine (migrateData_admits (orderly_call rfl (by rintro _ ⟨⟩) (by rintro _ ⟨⟩))
            (fun _ => orderly_call rfl (by rintro _ ⟨⟩) (by rintro _ ⟨⟩)) _ _ t ht).seq fun _ u hu => ?_
          refine heeds_call (hu.1.properAtLists _) ?_
          rintro _ _ ⟨⟩
          split
          · refine (hrelease (some z) u hu.1).seq fun _ v hv => .ret ⟨rfl, hv.1.credit_le ?_⟩
            intro y
            rw [gained_self]
            exact le_rfl
          · refine heeds_call (hu.1.properAtLists _) ?_
            rintro _ _ ⟨⟩
            refine (releaseMigrateZone_admits handles_orderly (some z) _
              (hu.1.use_add z x.length)).seq fun _ v hv => ?_
            refine (ih hv.1).seq fun new w hw => .ret ⟨congrArg (· + 1) hw.1, ?_⟩
            apply hw.2.credit_le
            intro y
            have hgained := gained_cons_le x
              ⟨(t.zones z).wp + if (d.bodies h).isSparse then sparseHeaderSize else 0, x.length, z⟩
              rest new y
            dsimp only at hgained
            omega

theorem dropMoved_heeds (old new : List ZoneExtent)
    (hd : InOrder (fun z => lost old new z + credit z) keep d) :
    (dropMoved old new).Heeds (exec e) (ProperAtLists e) d fun _ t => InOrder credit keep t := by
  induction old generalizing new d with
  | nil => exact .ret (hd.credit_le fun _ => le_add_left _ _)
  | cons x old ih =>
    cases new with
    | nil => exact .ret (hd.credit_le fun _ => le_add_left _ _)
    | cons y new =>
      rw [dropMoved]
      split
      · next hmoved =>
        refine heeds_call (hd.properAtLists _) ?_
        rintro _ _ ⟨⟩
        apply ih
        apply InOrder.use_sub
        apply hd.credit_le
        have hxy : x ≠ y := fun hxy => hmoved (congrArg _ hxy)
        simp only [lost, hxy, ne_eq, not_false_eq_true, true_and]
        omega
      · apply ih
        apply hd.credit_le
        intro z
        rw [lost]
        omega

/-- The new list has the credit of the zones that took extents, and frees that of the zones
they left. -/
theorem syncFileExtents_heeds (hlength : new.length = old.length)
    (hd : InOrder (gained old new) (fun x => x h = old) d) :
    (syncFileExtents e a h old new).Heeds (exec e) (ProperAtLists e) d fun _ t =>
      InOrder 0 anyExtents t := by
  refine heeds_call (hd.properAtLists _) ?_
  rintro _ _ ⟨⟩
  set u := d.onBody h fun b => { b with extents := new } with hu
  have hnew : InOrder (lost old new) anyExtents u := by
    refine ⟨hd.covered.of_file h (fun g hg => onBody_extents_of_ne _ hg) fun z => ?_, trivial,
      hd.accounted⟩
    have hbytes : u.bytes h z = bytesIn new z := by
      rw [bytes, onBody_extents_self]
    have hold : d.bytes h z = bytesIn old z := by
      rw [bytes, hd.keeps]
    have hzones : u.zones = d.zones := rfl
    have hbalance := bytesIn_add_lost hlength z
    rw [hzones]
    omega
  refine (sync_orderly u hnew).seq fun s t ht => ?_
  split
  · exact .ret (ht.1.mono fun _ => zero_le _)
  · have hlost : InOrder (fun z => lost old new z + (0 : ℕ → ℕ) z) anyExtents t :=
      ht.1.credit_le fun z => by simp
    exact (dropMoved_heeds old new hlost).seq fun _ v hv => .ret hv

theorem migrateFileExtents_heeds (he : e.Plaza) (selected : List (ℕ × ℕ))
    (hd : InOrder 0 anyExtents d) :
    (migrateFileExtents e a h selected).Heeds (exec e) (ProperAtLists e) d fun _ t =>
      InOrder 0 anyExtents t := by
  refine (orderly_call (o := .tryAcquireWRLock h) rfl nofun nofun d hd).seq fun got t ht => ?_
  split
  · exact .ret ht.1
  · refine heeds_call (ht.1.properAtLists _) ?_
    rintro _ _ ⟨⟩
    have hkeep : InOrder 0 (fun x => x h = (t.bodies h).extents) t :=
      ⟨ht.1.covered, rfl, ht.1.accounted⟩
    refine (migrateExtents_heeds he selected hkeep).seq fun new u hu => ?_
    have hgained : InOrder (gained (t.bodies h).extents new) _ u :=
      hu.2.credit_le fun z => by simp
    refine (syncFileExtents_heeds hu.1 hgained).seq fun _ v hv => ?_
    refine (orderly_call (o := .releaseWRLock h) rfl nofun nofun v hv).seq fun _ w hw => ?_
    exact .ret hw.1

theorem drop_heeds {l : List ZoneExtent} :
    (clearExtents.drop l).Heeds (exec e) (ProperAtLists e) d fun _ t =>
      t.bodies = d.bodies ∧ t.place = d.place ∧
        ∀ z, (d.zones z).usedCapacity ≤ (t.zones z).usedCapacity + bytesIn l z := by
  induction l generalizing d with
  | nil => exact .ret ⟨rfl, rfl, fun _ => le_add_right _ _⟩
  | cons x rest ih =>
    refine heeds_call nofun ?_
    rintro _ _ ⟨⟩
    refine ih.mono fun _ t ht => ⟨ht.1, ht.2.1, fun z => ?_⟩
    have hrest := ht.2.2 z
    rw [use_usedCapacity] at hrest
    rw [bytesIn_cons]
    by_cases hz : z = x.zone
    · subst hz
      simp only [if_true] at hrest ⊢
      omega
    · simp only [if_neg hz] at hrest ⊢
      omega

theorem clearExtents_heeds (hd : InOrder 0 anyExtents d) :
    (clearExtents h).Heeds (exec e) (ProperAtLists e) d fun _ t => InOrder 0 anyExtents t := by
  refine heeds_call nofun ?_
  rintro _ _ ⟨⟩
  refine (drop_heeds).seq fun _ t ht => ?_
  refine .op nofun ?_
  rintro _ _ ⟨⟩
  obtain ⟨hbodies, hplace, hused⟩ := ht
  refine ⟨hd.covered.of_file h (fun g hg => ?_) fun z => ?_, trivial, hplace.symm ▸ hd.accounted⟩
  · rw [onBody_extents_of_ne _ hg, extents, hbodies]
    rfl
  · have hcleared : (t.onBody h fun b => { b with extents := [] }).bytes h z = 0 := by
      rw [bytes, onBody_extents_self]
      rfl
    have hz := hused z
    have hzones : (t.onBody h fun b => { b with extents := [] }).zones = t.zones := rfl
    rw [hzones]
    change _ ≤ bytesIn (d.bodies h).extents z + _ + _
    omega

theorem place_heeds {f : Zbd → Placement} : (place f).Heeds (exec e) (ProperAtLists e) d
    fun _ t => SameBooks d t ∧ t.place = f d := by
  refine heeds_call nofun ?_
  rintro _ _ ⟨⟩
  exact .ret ⟨sameBooks_of_eq rfl rfl, rfl⟩

section

variable (hd : InOrder credit keep d)
include hd

theorem withLevelwiseFiles_heeds {m : DevTask α}
    (hm : ∀ t, SameBooks d t → m.Heeds (exec e) (ProperAtLists e) t fun _ u => SameBooks t u) :
    (withLevelwiseFiles m).Heeds (exec e) (ProperAtLists e) d fun _ t => SameBooks d t := by
  refine heeds_call (hd.properAtLists _) fun _ t ht => ?_
  have ht : SameBooks d t := exec_sparesBooks rfl ht
  refine (hm t ht).seq fun _ u hu => ?_
  refine heeds_call nofun fun _ v hv => ?_
  exact .ret ((ht.trans hu).trans (exec_sparesBooks rfl hv))

theorem record_heeds {f : Placement → Placement} :
    (withLevelwiseFiles (place fun d => f d.place)).Heeds (exec e) (ProperAtLists e) d
      fun _ t => SameBooks d t ∧ t.place = f d.place :=
  (withLevelwiseFiles_heeds hd fun _ _ => place_heeds.mono fun _ _ hu => hu.1).and_ends
    ends_withLevelwiseFiles_place

theorem addZoneFileRecord_heeds :
    (addZoneFileRecord e h).Heeds (exec e) (ProperAtLists e) d
      fun _ t => SameBooks d t ∧ t.place = d.place.addZoneFileRecord e h :=
  record_heeds (f := fun p => p.addZoneFileRecord e h) hd

theorem removeZoneFileRecord_heeds :
    (removeZoneFileRecord h).Heeds (exec e) (ProperAtLists e) d
      fun _ t => SameBooks d t ∧ t.place = d.place.removeZoneFileRecord h :=
  record_heeds (f := fun p => p.removeZoneFileRecord h) hd

theorem createOrUpdateRecord_heeds :
    (createOrUpdateRecord e h).Heeds (exec e) (ProperAtLists e) d
      fun _ t => InOrder credit keep t := by
  have hadd {u : Zbd} (hu : InOrder credit keep u) : (do
      addZoneFileRecord e h
      place fun d => d.place.setInfo h { d.place.info h with isRecorded := true }).Heeds (exec e)
        (ProperAtLists e) u fun _ t => SameBooks u t :=
    (addZoneFileRecord_heeds hu).seq fun _ v hv =>
      place_heeds.mono fun _ w hw => hv.1.trans hw.1
  have hsame : (createOrUpdateRecord e h).Heeds (exec e) (ProperAtLists e) d
      fun _ t => SameBooks d t := by
    refine heeds_call (hd.properAtLists _) ?_
    rintro _ _ ⟨⟩
    dsimp only
    split
    · exact .ret (sameBooks_of_eq rfl rfl)
    · split
      · refine (removeZoneFileRecord_heeds hd).seq fun _ u hu => ?_
        have hremoved : InOrder credit keep u := hd.same hu.1 (hu.2 ▸ hd.accounted.remove)
        exact (hadd hremoved).mono fun _ t ht => hu.1.trans ht
      · exact hadd hd
  refine (hsame.and_ends ends_createOrUpdateRecord).mono fun _ t ht => hd.same ht.1 ?_
  rw [ht.2]
  exact hd.accounted.createOrUpdateRecord

theorem moveFileToNewLevel_heeds (hclosed : (d.place.info h).isRecorded = true ∨
      { d.place.info h with level := level }.listed = false) :
    (moveFileToNewLevel e h level).Heeds (exec e) (ProperAtLists e) d
      fun _ t => InOrder credit keep t := by
  have hsame : (moveFileToNewLevel e h level).Heeds (exec e) (ProperAtLists e) d
      fun _ t => SameBooks d t := by
    refine (removeZoneFileRecord_heeds hd).seq fun _ u hu => ?_
    refine place_heeds.seq fun _ v hv => ?_
    have hmoved : InOrder credit keep v := by
      apply hd.same (hu.1.trans hv.1)
      rw [hv.2, hu.2]
      exact hd.accounted.remove.setInfo fun hr => hr
    exact (addZoneFileRecord_heeds hmoved).mono fun _ w hw => (hu.1.trans hv.1).trans hw.1
  refine (hsame.and_ends (ends_moveFileToNewLevel level)).mono fun _ t ht => hd.same ht.1 ?_
  rw [ht.2]
  exact hd.accounted.relevel hclosed

theorem setDeleted_heeds :
    (setDeleted h).Heeds (exec e) (ProperAtLists e) d fun _ t => InOrder credit keep t := by
  have hsame : (setDeleted h).Heeds (exec e) (ProperAtLists e) d fun _ t => SameBooks d t := by
    refine .bind (.op nofun ?_)
    rintro _ _ ⟨⟩
    have hmark : SameBooks d (d.setPlace (d.place.mark h)) := sameBooks_of_eq rfl rfl
    have hmarked : InOrder credit keep (d.setPlace (d.place.mark h)) :=
      hd.same hmark (hd.accounted.setInfo fun hr => hr)
    exact (removeZoneFileRecord_heeds hmarked).mono fun _ t ht => hmark.trans ht.1
  refine (hsame.and_ends ends_setDeleted).mono fun _ t ht => hd.same ht.1 ?_
  rw [ht.2]
  apply Placement.Accounted.remove
  apply hd.accounted.setInfo
  exact fun hr => hr

theorem closeWR_heeds :
    (closeWR e a h).Heeds (exec e) (ProperAtLists e) d fun _ t => InOrder credit keep t := by
  have hstart : (orderly e credit keep).Calls (.body h fun b => { b with extentStart := none }) :=
    orderly_body fun _ => rfl
  refine (createOrUpdateRecord_heeds hd).seq fun _ u hu => ?_
  refine (hstart u hu).seq fun _ v hv => ?_
  refine (sync_orderly v hv.1).seq fun s w hw => ?_
  split
  · exact .ret hw.1
  · refine (orderly_call (o := .startClosing h) rfl nofun nofun w hw.1).seq fun _ x hx => ?_
    refine (closeActiveZone_admits (a := a) handles_orderly
      (fun _ => orderly_call rfl nofun nofun) (fun _ => orderly_call rfl nofun nofun)
      (orderly_call rfl nofun nofun) x hx.1).seq fun _ y hy => ?_
    refine (orderly_call (o := .endClosing h) rfl nofun nofun y hy.1).seq fun _ z hz => ?_
    exact .ret hz.1

end

def MovesClosed (d : Zbd) (a : Operation × ℕ) : Prop :=
  match a.1 with
  | .moveFileToNewLevel h level =>
    (d.place.info h).isRecorded = true ∨ { d.place.info h with level := level }.listed = false
  | _ => True

instance (d : Zbd) (a : Operation × ℕ) : Decidable (MovesClosed d a) := by
  obtain ⟨o, _⟩ := a
  cases o <;> first | exact isTrue trivial | exact inferInstanceAs (Decidable (_ ∨ _))

theorem ignore_heeds {m : DevTask α} {P : Call → Zbd → Prop} {Q : Zbd → Prop}
    (hm : m.Heeds (exec e) P d fun _ t => Q t) : (ignore m).Heeds (exec e) P d fun _ t => Q t :=
  hm.seq fun _ _ ht => .ret ht

theorem onInfo_orderly (hf : ∀ g, g.isRecorded = true → (f g).isRecorded = true) :
    (orderly e credit keep).Admits (onInfo h f) :=
  place_admits (orderly_place fun _ hd => hd.setInfo (hf _))

/-- Every operation keeps order, and finds what the policy counts proper whenever it uses the
lists. -/
theorem programOf_heeds (he : e.Plaza) (hd : InOrder 0 anyExtents d)
    (hok : MovesClosed d (o, spins)) :
    (programOf e a spins o).Heeds (exec e) (ProperAtLists e) d
      fun _ t => InOrder 0 anyExtents t := by
  have orderly_heeds {m : DevTask Unit} (hm : (orderly e 0 anyExtents).Admits m) :
      m.Heeds (exec e) (ProperAtLists e) d fun _ t => InOrder 0 anyExtents t :=
    (hm d hd).mono fun _ _ ht => ht.1
  have ignore_orderly {m : DevTask Status} (hm : (orderly e 0 anyExtents).Admits m) :
      (ignore m).Heeds (exec e) (ProperAtLists e) d fun _ t => InOrder 0 anyExtents t :=
    ignore_heeds ((hm d hd).mono fun _ _ ht => ht.1)
  cases o with
  | create h ioType sparse =>
    exact orderly_heeds (admits_bind (onInfo_orderly (by exact fun _ hg => hg)) fun _ =>
      orderly_body fun _ => rfl)
  | openForWrite h => exact orderly_heeds (orderly_call rfl nofun nofun)
  | setWriteLifeTimeHint | setLevel | updateInternalKeys | updateInternalKeysRange =>
    apply orderly_heeds
    dsimp only [programOf]
    apply onInfo_orderly
    exact fun _ hg => hg
  | updateMetadata h n m r s c average =>
    refine orderly_heeds (admits_bind (onInfo_orderly (by exact fun _ hg => hg)) fun _ => ?_)
    split
    · exact place_admits (orderly_place fun _ hd => ⟨hd.unique, hd.flagged⟩)
    · exact admits_ret _
  | bufferedAppend | sparseAppend =>
    exact ignore_orderly (segmentAppend_admits (appends_orderly he) _ _ _ _)
  | append h data => exact ignore_orderly (append_admits (appends_orderly he) _ _)
  | pushExtent h => exact orderly_heeds pushExtent_orderly
  | persistMetadata h => exact ignore_orderly sync_orderly
  | closeWR h => exact ignore_heeds (closeWR_heeds hd)
  | moveFileToNewLevel h level => exact moveFileToNewLevel_heeds hd hok
  | migrateFileExtents h selected => exact ignore_heeds (migrateFileExtents_heeds he selected hd)
  | setDeleted h => exact setDeleted_heeds hd
  | clearExtents h => exact clearExtents_heeds hd
  | resetUnusedIOZones => exact ignore_orderly (resetUnused_admits handles_orderly.toRecycles)

structure Blank (d : Zbd) : Prop extends Unrecorded d where
  extents : ∀ h, (d.bodies h).extents = []

theorem Blank.inOrder (hd : Blank d) : InOrder 0 anyExtents d := by
  refine ⟨fun z files => ?_, trivial, ⟨?_, ?_⟩⟩
  · have hbytes : ∀ g, d.bytes g z = 0 := by
      intro g
      rw [Zbd.bytes, Zbd.extents, hd.extents]
      rfl
    simp [hbytes]
  · rw [Placement.recorded, hd.lists]
    exact List.nodup_nil
  · intro g hg
    rw [Placement.recorded, hd.lists] at hg
    cases hg

/-- As long as files are moved to another level only after they were closed, the share that the
nearest-keys policy computes is at most one, in every state reached and whenever an operation
comes to use the lists. -/
theorem proper_of_movesClosed {d₀ : Zbd} (he : e.Plaza) (h₀ : Blank d₀)
    (hrun : Reaches (step e) MovesClosed d₀ d) :
    Proper e d ∧ ∀ a, MovesClosed d a →
      (programOf e me a.2 a.1).Heeds (exec e) (ProperAtLists e) d fun _ t => Proper e t := by
  have hd : InOrder 0 anyExtents d := by
    refine hrun.keeps h₀.inOrder fun hs hok hstep => ?_
    exact step_ends hstep (programOf_heeds he hs hok).ends
  exact ⟨hd.proper, fun a ha => (programOf_heeds he hd ha).mono fun _ t ht => ht.proper⟩

def plazaSetup : Setup :=
  { smallSetup .sameLevelNearbyKeys with
    upperLevelPolicyFallback := .sameLevelNearbyKeys
    middleLevelPolicy := .sameLevelNearbyKeys
    middleLevelPolicyFallback := .sameLevelNearbyKeys
    lowerLevelPolicy := .sameLevelNearbyKeys
    lowerLevelPolicyFallback := .sameLevelNearbyKeys }

theorem plazaSetup_accepted : plazaSetup.Accepted :=
  have h := smallSetup_accepted .sameLevelNearbyKeys
  ⟨h.threshold, h.density, h.minBoundary_lt, h.boundaries, h.reserve_lt⟩

theorem plazaSetup_plaza : plazaSetup.Plaza := ⟨rfl, rfl, rfl, rfl, rfl, rfl⟩

theorem smallDevice_blank : Blank smallDevice := ⟨smallDevice_unrecorded, fun _ => rfl⟩

/-- A file with a block of data is written, closed and moved to the next level. -/
theorem proper_after_move : Blank smallDevice ∧
    ∃ d, Reaches (step plazaSetup) MovesClosed smallDevice d ∧ d.place.lists = [[], [1]] ∧
      Proper plazaSetup d := by
  refine ⟨smallDevice_blank, Reaches.of_any_imp (P := fun d => d.place.lists = [[], [1]])
    (openSst 1 [1] ++ [(.bufferedAppend 1 (List.replicate 16 7), 9), (.closeWR 1, 9),
      (.moveFileToNewLevel 1 1, 9)]) (by decide +kernel) ?_⟩
  intro d hd hlists
  exact ⟨hlists, (proper_of_movesClosed plazaSetup_plaza smallDevice_blank hd).1⟩

/-- A file with a block of data is moved before it is closed, and so it is recorded twice. The
policy then counts 28 bytes for the next file, in a zone with 16 bytes of data. -/
theorem not_proper_after_early_move : plazaSetup.Plaza ∧ plazaSetup.Accepted ∧
    (∀ n, (plazaSetup.backend n).status.ok = true) ∧ Blank smallDevice ∧
    ∃ d, Reaches (step plazaSetup) anyStep smallDevice d ∧ ¬ Proper plazaSetup d := by
  refine ⟨plazaSetup_plaza, plazaSetup_accepted, fun _ => rfl, smallDevice_blank,
    Reaches.of_any_imp (P := fun d => ∃ r ∈ (chooseZoneWithHighestContrib plazaSetup me
        (nearbyContributions plazaSetup 2 d nearWeight) 16).run (exec plazaSetup) d,
      r.1.2 = (some 0, 28) ∧ (r.2.zones 0).usedCapacity = 16)
    (openSst 1 [1] ++ [(.bufferedAppend 1 (List.replicate 16 7), 9),
      (.moveFileToNewLevel 1 0, 9), (.closeWR 1, 9)] ++ openSst 2 [2]) (by decide +kernel) ?_⟩
  intro d _ ⟨⟨⟨s, zone, highest⟩, t⟩, hchosen, hzone, hused⟩ hproper
  cases hzone
  have hle : 28 ≤ (t.zones 0).usedCapacity := hproper me 2 16 s 0 28 t hchosen
  have hused : (t.zones 0).usedCapacity = 16 := hused
  omega

end ZenFs.Device
