import ZenFs.Device.Footprint
import ZenFs.Locks.Buffers
import ZenFs.Locks.Reopen

/-!
The locks of `PersistRecord` and `SyncFileMetadata`.

The lock codes of the writers keep of these functions only which mutexes they take and give back.
In every run of the programs on the device these are the same ones, in the same order.
-/

namespace ZenFs

open Library Task

def recordSteps {L : Type} (metadataSync : L) : List (Bool × L) :=
  [(true, metadataSync), (false, metadataSync)]

def fileSteps {L : Type} (files metadataSync : L) : List (Bool × L) :=
  (true, files) :: recordSteps metadataSync ++ [(false, files)]

/-- The code that takes and gives back mutexes in order. -/
def codeOf {L : Type} : List (Bool × L) → Library.Code L
  | [] => .done
  | (true, l) :: rest => .lock l (codeOf rest)
  | (false, l) :: rest => .unlock l (codeOf rest)

theorem Buffers.persistRecord_eq : persistRecord = codeOf (recordSteps .metadataSync) := rfl

theorem Buffers.persistMetadata_eq :
    persistMetadata = codeOf (fileSteps .files .metadataSync) := rfl

theorem Reopen.persistRecord_eq {φ : Type} :
    (persistRecord : Library.Code (Mutex φ)) = codeOf (recordSteps .metadataSync) := rfl

theorem Reopen.syncFileMetadata_eq {φ : Type} :
    (syncFileMetadata : Library.Code (Mutex φ)) = codeOf (fileSteps .files .metadataSync) := rfl

namespace Device

variable {e : Setup} {a : Holder} {h : Handle} {d : Zbd} {o : Call} {steps : List (Bool × Mutex)}

def Call.lockSteps : Call → List (Bool × Mutex)
  | .lock m => [(true, m)]
  | .unlock m => [(false, m)]
  | _ => []

def noteLocks (o : Call) (_ : o.Res) (steps : List (Bool × Mutex)) : List (Bool × Mutex) :=
  steps ++ o.lockSteps

abbrev lockFree (e : Setup) (steps : List (Bool × Mutex)) : Judgement Call.Res :=
  .keeps (noting (exec e) noteLocks) fun s => s.1 = steps

theorem noting_steps {s t : List (Bool × Mutex) × Zbd} {r : o.Res}
    (hr : noting (exec e) noteLocks o s = some (r, t)) :
    t.1 = s.1 ++ o.lockSteps ∧ exec e o s.2 = some (r, t.2) := by
  obtain ⟨_, hexec, heq⟩ := Option.map_eq_some_iff.mp hr
  cases heq
  exact ⟨rfl, hexec⟩

theorem lockFree_call (ho : o.lockSteps = []) : (lockFree e steps).Calls o := by
  intro s r t hs hr
  refine ⟨?_, trivial⟩
  dsimp only
  rw [(noting_steps hr).1, ho, List.append_nil, hs]

theorem recycles_lockFree : Recycles a (lockFree e steps) := by
  constructor
  on_goal 1 => constructor
  all_goals
    intros
    exact lockFree_call rfl

theorem logs_lockFree : Logs a (lockFree e steps) := by
  constructor <;> intros <;> exact lockFree_call rfl

theorem ends_noting {α : Type} {f : o.Res → DevTask α} {s : List (Bool × Mutex) × Zbd}
    {Q : α → List (Bool × Mutex) × Zbd → Prop}
    (hf : ∀ r t, t.1 = s.1 ++ o.lockSteps ∧ exec e o s.2 = some (r, t.2) →
      (f r).Ends (noting (exec e) noteLocks) t Q) :
    (call o >>= f).Ends (noting (exec e) noteLocks) s Q :=
  .call fun r t hr => hf r t (noting_steps hr)

/-- Between the two steps on its mutex, `PersistRecord` leaves all mutexes alone. -/
theorem persistRecord_steps :
    (persistRecord e a).Ends (noting (exec e) noteLocks) (steps, d) fun _ s =>
      s.1 = steps ++ recordSteps .metadataSync := by
  apply ends_noting
  intro _ t₁ h₁
  apply ends_noting
  intro d' t₂ h₂
  apply ends_noting
  intro s t₃ h₃
  have hroll : (lockFree e t₃.1).Admits
      (if s.isNoSpace then rollMetaZoneLocked e a else pure s) := by
    split
    · exact rollMetaZoneLocked_admits recycles_lockFree logs_lockFree
    · exact Judgement.admits_ret _
  refine (Keeps.ends hroll rfl).seq fun _ t₄ h₄ => ?_
  apply ends_noting
  intro _ t₅ h₅
  refine .ret ?_
  simp [h₅.1, h₄.1, h₃.1, h₂.1, h₁.1, Call.lockSteps, recordSteps]

/-- The record of a file is written under the mutex of the files, unless the file was deleted. -/
theorem syncFileMetadata_steps (hlive : (d.place.info h).isDeleted = false) :
    (syncFileMetadata e a h).Ends (noting (exec e) noteLocks) (steps, d) fun _ s =>
      s.1 = steps ++ fileSteps .files .metadataSync := by
  apply ends_noting
  rintro _ ⟨steps₁, d₁⟩ ⟨rfl, hlock⟩
  obtain ⟨-, ⟨⟩⟩ := Option.ite_none_left_eq_some.mp hlock
  apply ends_noting
  rintro _ ⟨steps₂, d₂⟩ ⟨rfl, ⟨⟩⟩
  rw [if_neg (by simpa using hlive)]
  refine persistRecord_steps.seq fun s t₃ h₃ => ?_
  apply ends_noting
  intro _ t₄ h₄
  refine .ret ?_
  simp [h₄.1, h₃, Call.lockSteps, fileSteps]

end Device

end ZenFs
