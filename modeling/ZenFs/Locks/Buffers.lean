import ZenFs.Library.Locks

/-!
Threads that open a new file, write to it and close it.

`OpenWritableFile` builds the writer while it holds `files_mtx_`, and the constructor
of a buffered writer waits for a buffer slot. Another writer frees its slot after a
close that persists the metadata of its file, which takes `files_mtx_`. The threads can
go on whatever the schedule exactly when there is a slot for every buffered writer.
-/

namespace ZenFs.Buffers

open Library Finset

/-- The locks of the writers. A lock that only one of the threads ever takes, such as
`buffer_mtx_` of a writer or the write lock of a new file, is left out. -/
inductive Mutex
  | files
  | metadataSync
  | bufferCount
  deriving DecidableEq

/-- What one thread does: the kind of its file, and how many zones it fills while it
appends and while it flushes its buffer at the end. -/
structure Plan where
  buffered : Bool
  sparse : Bool
  allocations : ℕ
  flushAllocations : ℕ

def persistRecord : Code Mutex := .lock .metadataSync (.unlock .metadataSync .done)

def persistMetadata : Code Mutex := .lock .files (persistRecord ++ .unlock .files .done)

namespace Plan

variable (p : Plan)

def newWriter : Code Mutex :=
  if p.buffered then
    .lock .bufferCount (.await .bufferCount (.takeSlot (.unlock .bufferCount .done)))
  else .done

def openWritableFile : Code Mutex :=
  .lock .files (persistRecord ++ p.newWriter ++ .unlock .files .done)

/-- The appends. `AllocateNewZone` persists the start of the active extent. -/
def append : Code Mutex := persistMetadata.times p.allocations

def dataSync : Code Mutex :=
  if p.buffered then
    persistMetadata.times p.flushAllocations ++ (if p.sparse then .done else persistMetadata)
  else .done

def closeInternal : Code Mutex := p.dataSync ++ persistMetadata

/-- The destructor `ZonedWritableFile::~ZonedWritableFile` of a closed writer. -/
def destroyWriter : Code Mutex :=
  if p.buffered then
    .lock .bufferCount (.freeSlot (.unlock .bufferCount (.notifyAll .done)))
  else .done

/-- What is left to do once the file is open. -/
def afterOpen : Code Mutex := p.append ++ p.closeInternal ++ p.destroyWriter

def thread : Code Mutex := p.openWritableFile ++ p.afterOpen

end Plan

variable {ι : Type}

def start (plan : ι → Plan) : Machine ι Mutex where
  holder _ := none
  code t := (plan t).thread
  slots := 0

variable [DecidableEq ι]

/-- In every state that the threads reach from the start, as long as one of them has
not finished, one of them can take a step. -/
def NeverStuck (limit : ℕ) (plan : ι → Plan) : Prop :=
  ∀ s, Reaches (Machine.step limit) anyStep (start plan) s → ¬ s.Stuck limit

def rank : Mutex → ℕ
  | .files => 0
  | .metadataSync => 1
  | .bufferCount => 1

def Before (l m : Mutex) : Prop := rank l < rank m

theorem proper_persistMetadata : persistMetadata.Proper Before := by
  constructor
  · intro l
    cases l <;> simp [persistMetadata, persistRecord, Code.Bracketed]
  · simp [persistMetadata, persistRecord, Code.Ordered, Code.Follows, Before, rank]

theorem slotless_persistMetadata : persistMetadata.Slotless := trivial

namespace Plan

variable (p : Plan)

theorem proper_openWritableFile : p.openWritableFile.Proper Before := by
  unfold openWritableFile newWriter
  constructor
  · intro l
    split <;> cases l <;> simp [persistRecord, Code.Bracketed]
  · split <;> simp [persistRecord, Code.Ordered, Code.Follows, Before, rank]

theorem proper_destroyWriter : p.destroyWriter.Proper Before := by
  unfold destroyWriter
  constructor
  · intro l
    split <;> cases l <;> simp [Code.Bracketed]
  · split <;> simp [Code.Ordered, Code.Follows]

/-- How often the thread persists its metadata between opening and closing. -/
def persists : ℕ :=
  p.allocations + if p.buffered then p.flushAllocations + if p.sparse then 0 else 1 else 0

theorem afterOpen_eq : p.afterOpen = persistMetadata.times (p.persists + 1) ++ p.destroyWriter := by
  have hone : persistMetadata.times 1 = persistMetadata := Code.append_done _
  rw [afterOpen, append, closeInternal, dataSync, persists]
  cases p.buffered <;> cases p.sparse <;> simp [Code.times_add, hone, Code.append_assoc]

theorem proper_thread : p.thread.Proper Before := by
  rw [thread, afterOpen_eq]
  exact p.proper_openWritableFile.append
    ((proper_persistMetadata.times _).append p.proper_destroyWriter)

theorem slotted_thread : p.thread.Slotted false := by
  have hp := slotless_persistMetadata.times (p.persists + 1)
  rw [thread, afterOpen_eq]
  cases hb : p.buffered with
  | false =>
    simp only [openWritableFile, newWriter, destroyWriter, hb]
    exact hp.slotted_append rfl
  | true =>
    simp only [openWritableFile, newWriter, destroyWriter, hb]
    exact ⟨rfl, rfl, hp.slotted_append ⟨rfl, rfl⟩⟩

theorem awake_thread : p.thread.Awake := by
  have hp := slotless_persistMetadata.times (p.persists + 1)
  rw [thread, afterOpen_eq]
  cases hb : p.buffered with
  | false | true =>
    simp only [openWritableFile, newWriter, destroyWriter, hb]
    exact hp.awake_append trivial

theorem buffered_of_usesSlots (h : p.thread.UsesSlots) : p.buffered = true := by
  by_contra hb
  refine Code.Slotless.not_usesSlots ?_ h
  rw [thread, afterOpen_eq, openWritableFile, newWriter, destroyWriter, if_neg hb, if_neg hb]
  exact (slotless_persistMetadata.times _).append trivial

end Plan

variable {plan : ι → Plan}

/-- As many slots as buffered writers: no thread ever sleeps, and the locks are taken in
order. -/
theorem neverStuck_of_room {limit : ℕ}
    (hroom : ∀ S : Finset ι, (∀ t ∈ S, (plan t).buffered = true) → S.card ≤ limit) :
    NeverStuck limit plan := by
  intro s hs hstuck
  let I (s : Machine ι Mutex) : Prop :=
    s.Disciplined Before ∧ ∃ owners, s.Roomy (fun t => (plan t).buffered = true) owners
  obtain ⟨hd, owners, hr⟩ : I s := by
    refine hs.keeps ⟨?_, ∅, ?_⟩ ?_
    · exact Machine.Disciplined.init (fun _ => rfl) fun t => (plan t).proper_thread
    · exact Machine.Roomy.init rfl (fun t => (plan t).slotted_thread)
        (fun t => (plan t).buffered_of_usesSlots) fun t => (plan t).awake_thread
    · rintro t v w ⟨hd, _, hr⟩ - hstep
      exact ⟨hd.step hstep, hr.step hroom hstep⟩
  rcases hstuck.cycle hd rank 1 (by intro l; cases l <;> simp [rank]) with
    ⟨t, l, c, hc⟩ | ⟨t, l, m, c, hc, hl, hlt⟩
  · have := hr.awake t
    rw [hc] at this
    exact this
  · have hf := hd.follows l t hl
    rw [hc] at hf
    exact hlt hf.1

variable {s : Machine ι Mutex} {t : ι} {p : Plan}

theorem reaches_open (limit : ℕ) (rest : Code Mutex) (hc : s.code t = p.openWritableFile ++ rest)
    (hb : p.buffered = true) (hfree : ∀ l, s.holder l = none) (hslots : s.slots < limit) :
    Reaches (Machine.step limit) anyStep s
      ⟨s.holder, Function.update s.code t rest, s.slots + 1⟩ := by
  have hnone : s.holder = fun _ => none := funext hfree
  apply Reaches.of_runSteps (l := List.replicate 8 t)
  simp [runSteps, Machine.step, hc, Plan.openWritableFile, Plan.newWriter, hb, persistRecord,
    hnone, hslots, Machine.setCode, Machine.setHolder]
  funext l
  cases l <;> rfl

theorem reaches_sleep (limit : ℕ) (rest : Code Mutex) (hc : s.code t = p.openWritableFile ++ rest)
    (hb : p.buffered = true) (hfree : ∀ l, s.holder l = none) (hslots : limit ≤ s.slots) :
    ∃ u, Reaches (Machine.step limit) anyStep s u ∧ u.holder .files = some t ∧
      (∃ l c, u.code t = .asleep l c) ∧ ∀ v, v ≠ t → u.code v = s.code v := by
  have hnone : s.holder = fun _ => none := funext hfree
  have hfull : ¬ s.slots < limit := by omega
  have hrun : ∃ u, runSteps (Machine.step limit) anyStep s (List.replicate 5 t) = some u ∧
      u.holder .files = some t ∧ (∃ l c, u.code t = .asleep l c) ∧
      ∀ v, v ≠ t → u.code v = s.code v := by
    simp +contextual [runSteps, Machine.step, hc, Plan.openWritableFile, Plan.newWriter, hb,
      persistRecord, hnone, hfull, Machine.setCode, Machine.setHolder]
  obtain ⟨u, hu, h⟩ := hrun
  exact ⟨u, .of_runSteps hu, h⟩

def opened (plan : ι → Plan) (S : Finset ι) : Machine ι Mutex where
  holder _ := none
  code t := if t ∈ S then (plan t).afterOpen else (plan t).thread
  slots := S.card

theorem opened_insert {S : Finset ι} (ht : t ∉ S) :
    opened plan (insert t S) = ⟨(opened plan S).holder,
      Function.update (opened plan S).code t (plan t).afterOpen, (opened plan S).slots + 1⟩ := by
  simp only [opened, Machine.mk.injEq, true_and]
  refine ⟨?_, card_insert_of_notMem ht⟩
  funext u
  by_cases hu : u = t
  · simp [hu]
  · simp [hu]

theorem reaches_opened (limit : ℕ) (S : Finset ι)
    (hb : ∀ t ∈ S, (plan t).buffered = true) (hS : S.card ≤ limit) :
    Reaches (Machine.step limit) anyStep (start plan) (opened plan S) := by
  induction S using Finset.induction_on with
  | empty => exact .refl _
  | insert t S ht ih =>
    rw [card_insert_of_notMem ht] at hS
    have hopen := reaches_open (s := opened plan S) (t := t) limit (plan t).afterOpen
      (by simp [opened, ht, Plan.thread]) (hb t (mem_insert_self t S)) (fun _ => rfl) hS
    rw [opened_insert ht]
    exact (ih (fun u hu => hb u (mem_insert_of_mem hu)) (by omega)).trans hopen

theorem Plan.waits (p : Plan) :
    (∃ c, p.afterOpen = .lock .files c) ∧ ∃ c, p.thread = .lock .files c := by
  constructor
  · rw [p.afterOpen_eq]
    exact ⟨_, rfl⟩
  · exact ⟨_, rfl⟩

/-- More buffered writers than slots: all but one open their files, and that one sleeps
with `files_mtx_`. -/
theorem stuck_of_crowd {limit : ℕ} {S : Finset ι}
    (hb : ∀ t ∈ S, (plan t).buffered = true) (hS : limit < S.card) :
    ∃ s, Reaches (Machine.step limit) anyStep (start plan) s ∧ s.Stuck limit := by
  obtain ⟨S', hsub, hcard⟩ := exists_subset_card_eq (Nat.succ_le_of_lt hS)
  obtain ⟨t, ht⟩ : S'.Nonempty := card_pos.mp (by omega)
  have hrest : (S'.erase t).card = limit := by
    rw [card_erase_of_mem ht, hcard]
    rfl
  have hopened := reaches_opened limit (S'.erase t)
    (fun u hu => hb u (hsub (mem_of_mem_erase hu))) hrest.le
  obtain ⟨u, hu, hfiles, ⟨l, c, hsleep⟩, hothers⟩ :=
    reaches_sleep (s := opened plan (S'.erase t)) (t := t) limit (plan t).afterOpen
      (by simp [opened, Plan.thread]) (hb t (hsub ht)) (fun _ => rfl) hrest.ge
  refine ⟨u, hopened.trans hu, ⟨t, by simp [hsleep]⟩, fun v => ?_⟩
  by_cases hv : v = t
  · simp [Machine.step, hv, hsleep]
  · obtain ⟨c, hc⟩ : ∃ c, u.code v = .lock .files c := by
      rw [hothers v hv]
      simp only [opened]
      split
      · exact (plan v).waits.1
      · exact (plan v).waits.2
    simp [Machine.step, hc, hfiles]

/-- The threads can always go on exactly when every buffered writer can have a slot. -/
theorem neverStuck_iff (limit : ℕ) (plan : ι → Plan) :
    NeverStuck limit plan ↔
      ∀ S : Finset ι, (∀ t ∈ S, (plan t).buffered = true) → S.card ≤ limit := by
  constructor
  · intro h S hS
    by_contra hlt
    obtain ⟨s, hs, hstuck⟩ := stuck_of_crowd hS (Nat.lt_of_not_le hlt)
    exact h s hs hstuck
  · exact neverStuck_of_room

/-- A thread that writes a table file and fills part of one zone. -/
def tablePlan : Plan := ⟨true, false, 0, 1⟩

/-- With one slot, two threads that each write a table file can block each other: one
sleeps with `files_mtx_`, and the other cannot close its file. -/
theorem two_writers_stuck : ¬ NeverStuck 1 (fun _ : Bool => tablePlan) := by
  intro h
  obtain ⟨s, hs, hstuck⟩ : ∃ s, Reaches (Machine.step 1) anyStep
      (start fun _ : Bool => tablePlan) s ∧ s.Stuck 1 :=
    stuck_of_crowd (S := univ) (fun _ _ => rfl) (by decide)
  exact h s hs hstuck

end ZenFs.Buffers
