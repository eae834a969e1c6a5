import ZenFs.Library.Tasks
import ZenFs.Namespace.Restored

/-!
Threads inside the entry points of the file system, one critical section at a time.

All entry points change `files_` under `files_mtx_` only, except `NewRandomAccessFile`: it
looks the name up under the mutex and then evaluates `files_[fname]` without it, which
makes a null entry when the name has gone in between.
-/

namespace ZenFs

open Library Task

/-- The atomic steps of the entry points. -/
inductive Section
  /-- `GetFile`: whether there is a file of that name. -/
  | getFile (name : Name)
  | getFileSize (name : Name)
  /-- `files_[fname]`, not under the mutex. -/
  | index (name : Name)
  /-- An operation on the metadata. -/
  | run (op : MetaOp)

def Section.Res : Section → Type
  | getFile _ => Bool
  | getFileSize _ => Option ℕ
  | index _ => Unit
  | run _ => Status

/-- The file system, and the names whose entry in `files_` is null. -/
structure Service where
  fs : State
  nulls : List Name

/-- Execute a section. With a null entry the operations are not followed any further:
most of them go through the null pointer when they come to it. -/
def Section.exec (e : Env) : (o : Section) → Service → Option (o.Res × Service)
  | .getFile n, s => some ((s.fs.getFile n).isSome, s)
  | .getFileSize n, s =>
    some (((s.fs.getFile n).bind s.fs.cat.heap).map (·.fileSize), s)
  | .index n, s =>
    some ((), if (s.fs.getFile n).isSome then s else { s with nulls := n :: s.nulls })
  | .run op, s =>
    if s.nulls ≠ [] then none
    else (op.prog e s.fs).result.map fun p => (p.1, { s with fs := p.2 })

inductive Request
  | newSequentialFile (name : Name)
  | newRandomAccessFile (name : Name)
  | newWritableFile (name : Name) (directWrites : Bool)
  | reuseWritableFile (name old : Name) (directWrites : Bool)
  | reopenWritableFile (name : Name) (directWrites : Bool)
  | fileExists (name : Name)
  | linkFile (file link : Name)
  | renameFile (depth : ℕ) (source dest : Name)
  | deleteFile (name : Name)
  | getFileSize (name : Name)
  /-- What writers and the garbage collector do with the metadata of a file. -/
  | ofFile (op : MetaOp)

abbrev EntryTask := Task Section.Res

def lookUp (n : Name) : EntryTask Bool := op (Section.getFile n)

def perform (o : MetaOp) : EntryTask Status := op (Section.run o)

def Request.serve : Request → EntryTask Unit
  | .newSequentialFile n => do
    let _ ← lookUp n
  | .newRandomAccessFile n => do
    if ← lookUp n then op (Section.index n)
  | .newWritableFile n direct => do
    let _ ← perform (.openWritableFile n direct false)
  | .reuseWritableFile n old direct => do
    if ← lookUp old then
      if (← perform (.deleteFile old)).ok then
        let _ ← perform (.openWritableFile n direct false)
  | .reopenWritableFile n direct => do
    let _ ← perform (.openWritableFile n direct true)
  | .fileExists n => do
    let _ ← lookUp n
  | .linkFile file link => do
    let _ ← perform (.linkFile file link)
  | .renameFile depth source dest => do
    let _ ← perform (.renameFile depth source dest)
  | .deleteFile n => do
    let _ ← perform (.deleteFile n)
  | .getFileSize n => do
    let _ ← op (Section.getFileSize n)
  | .ofFile o => do
    let _ ← perform o

def serveAll : List Request → EntryTask Unit
  | [] => return ()
  | r :: rest => do
    r.serve
    serveAll rest

def Service.start (s : Service) (requests : ℕ → List Request) : Pool ℕ Section.Res Service :=
  ⟨fun i => serveAll (requests i), s⟩

/-- `files_` has no null file, and a name leads to a file just when it occurs exactly once
among the link names of the file. -/
structure Service.Represents (s : Service) : Prop where
  no_null : s.nulls = [] ∧ ∀ n h, s.fs.getFile n = some h → s.fs.cat.heap h ≠ none
  links : ∀ h f, s.fs.cat.heap h = some f →
    ∀ n, s.fs.getFile n = some h ↔ f.linkfiles.count n = 1

theorem State.Orderly.represents {s : Service} (hs : s.fs.Orderly) (hnull : s.nulls = []) :
    s.Represents := by
  refine ⟨⟨hnull, fun n h hn hnone => ?_⟩, fun h f hf n => ?_⟩
  · obtain ⟨E, hE, -⟩ := hs.tidy.alive hn
    simp [State.names, hnone] at hE
  · have hentry : s.fs.names.entry h = some f.entry := State.entry_of_heap hf
    have hnd : f.linkfiles.Nodup := hs.tidy.nodup hentry
    have hmem : n ∈ f.linkfiles ↔ s.fs.getFile n = some h := hs.tidy.links hentry n
    rw [← hmem]
    constructor
    · exact List.count_eq_one_of_mem hnd
    · intro hcount
      apply List.count_pos_iff.mp
      omega

/-- When `NewRandomAccessFile` comes to `files_[fname]`, the name is still there. -/
def Indexed (_ : ℕ) (o : Section) (s : Service) : Prop :=
  match o with
  | .index n => (s.fs.getFile n).isSome = true
  | _ => True

instance (i : ℕ) (o : Section) (s : Service) : Decidable (Indexed i o s) :=
  match o with
  | .index n => inferInstanceAs (Decidable ((s.fs.getFile n).isSome = true))
  | .getFile _ => isTrue trivial
  | .getFileSize _ => isTrue trivial
  | .run _ => isTrue trivial

variable {e : Env}

theorem Section.exec_orderly {i : ℕ} {o : Section} {s t : Service} {r : o.Res}
    (hs : s.fs.Orderly ∧ s.nulls = []) (hok : Indexed i o s)
    (hr : o.exec e s = some (r, t)) : t.fs.Orderly ∧ t.nulls = [] := by
  cases o with
  | getFile | getFileSize =>
    cases hr
    exact hs
  | index n =>
    have hn : (s.fs.getFile n).isSome = true := hok
    simp only [Section.exec, hn] at hr
    cases hr
    exact hs
  | run op =>
    simp only [Section.exec, hs.2] at hr
    obtain ⟨⟨st, u⟩, hu, hp⟩ := Option.map_eq_some_iff.mp hr
    cases hp
    exact ⟨keeps_orderly op s.fs hs.1 st u hu, rfl⟩

/-- As long as `files_[fname]` is evaluated only while the name is there, and a mount
replayed records that fit, `files_` and the link names of the files agree at all times. -/
theorem represents_of_indexed {c : Catalog} (hc : c.Restored) {records : List Record}
    (hfit : Catalog.RecordsFit e.toGeometry records false c) {s₀ : Service}
    (hrec : c.recoverFrom e.toGeometry records = (.OK, s₀.fs.cat)) (hnull : s₀.nulls = [])
    {requests : ℕ → List Request} {p : Pool ℕ Section.Res Service}
    (hp : Reaches (Pool.step (Section.exec e)) (Pool.Allows Indexed) (s₀.start requests) p) :
    p.state.Represents := by
  have hinit : s₀.fs.Orderly ∧ s₀.nulls = [] := ⟨(hc.recoverFrom hfit hrec).orderly, hnull⟩
  have hstate : p.state.fs.Orderly ∧ p.state.nulls = [] := by
    apply hp.keeps hinit
    intro p q i hs hok hstep
    obtain ⟨o, k, r, t, htask, hr, rfl⟩ := Pool.step_eq_some hstep
    exact Section.exec_orderly hs (hok o (by rw [htask]; rfl)) hr
  exact hstate.1.represents hstate.2

/-- The service of a file system that was just made. -/
def Service.initial (e : Env) : Service := ⟨State.initial e, []⟩

def openAndDelete : ℕ → List Request
  | 0 => [.newWritableFile [97] true, .newRandomAccessFile [97]]
  | 1 => [.deleteFile [97]]
  | _ => []

/-- The file is made and opened for reading before it is deleted. -/
theorem represents_open_then_delete :
    let e := Env.small fun _ => .appended
    (Catalog.empty.Restored ∧ Catalog.RecordsFit e.toGeometry [.snapshot []] false .empty ∧
      Catalog.recoverFrom e.toGeometry [.snapshot []] .empty =
        (.OK, (Service.initial e).fs.cat)) ∧
    ∃ p, Reaches (Pool.step (Section.exec e)) (Pool.Allows Indexed)
      ((Service.initial e).start openAndDelete) p ∧ (p.state.fs.getFile [97]).isNone = true ∧
      p.state.Represents := by
  intro e
  have hfit : Catalog.RecordsFit e.toGeometry [.snapshot []] false .empty :=
    ⟨trivial, fun _ _ => trivial⟩
  refine ⟨⟨Catalog.restored_empty, hfit, rfl⟩, Reaches.of_any_imp
    (P := fun p => (p.state.fs.getFile [97]).isNone = true) [0, 0, 0, 1] (by decide +kernel) ?_⟩
  intro p hp hgone
  exact ⟨hgone, represents_of_indexed Catalog.restored_empty hfit rfl rfl hp⟩

/-- A file is deleted after `NewRandomAccessFile` has found it: `files_` gets a null entry.
And a recovery on a log of the file system itself: the creation record of a file was lost
in a roll, and of the two names in its next record only the first is entered. -/
theorem null_entry_and_lost_name :
    (let e := Env.small fun _ => .appended
      ∃ p, Reaches (Pool.step (Section.exec e)) anyStep
        ((Service.initial e).start openAndDelete) p ∧ ¬ p.state.Represents) ∧
    let e := Env.small fun n => if n = 0 then .rolled else .appended
    ∃ s c, MetaRun e (fun _ _ => True) s ∧
      Catalog.recoverFrom e.toGeometry s.log.durable .empty = (.OK, c) ∧
      ∀ t : Service, t.fs.cat = c → ¬ t.Represents := by
  refine ⟨?_, ?_⟩
  · intro e
    apply Reaches.of_any_imp (P := fun p => p.state.nulls = [[97]]) [0, 0, 1, 0]
      (by decide +kernel)
    intro p _ hnull hrep
    rw [hrep.no_null.1] at hnull
    cases hnull
  · intro e
    have hcreate := MetaRun.step (P := fun _ _ => True)
      (.openWritableFile [97] true false) (.init (e := e)) (by simp [MetaOp.Valid]) trivial rfl
    have hlink := MetaRun.step (.linkFile [97] [98]) hcreate (by simp [MetaOp.Valid]) trivial
      (publish_result)
    refine ⟨_, _, hlink, rfl, fun t ht hrep => ?_⟩
    have hfile : ∃ f, t.fs.cat.heap 0 = some f ∧ f.linkfiles = [[97], [98]] := by
      rw [ht]
      exact ⟨_, rfl, rfl⟩
    obtain ⟨f, hf, hlinks⟩ := hfile
    have hname := (hrep.links 0 f hf [98]).mpr (by rw [hlinks]; rfl)
    rw [State.getFile, ht] at hname
    cases hname

end ZenFs
