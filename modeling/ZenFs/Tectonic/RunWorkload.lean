import ZenFs.Tectonic.Lines

/-!
`runWorkload` on a file that `WriteHandler` has written.

The lines are taken apart with `operator>>`: the operation is the first character, and the
arguments are the words behind it, whatever their number. A missing argument is the empty string.
The progress bar is drawn after every line that is a multiple of a fiftieth of the lines, a number
that is zero for a short file.
-/

namespace ZenFs.Tectonic

open Library List

variable {args more : List Bytes} {arg first text : Bytes} {c : UInt8} {interval total : ℕ}
variable {showProgress : Bool}

/-- `isspace` in the C locale. -/
def isWhitespace (c : UInt8) : Bool := c = 32 ∨ 9 ≤ c ∧ c ≤ 13

/-- What becomes of a line. The operation is indeterminate if the line has none. The process may
end behind a line, when the progress bar divides by zero. -/
inductive Outcome
  | ran (call : DbCall)
  | notFound
  | indeterminate
  | divisionByZero
  deriving DecidableEq, Repr

def switchOn (operation : UInt8) (args : List Bytes) : Outcome :=
  let first := args.getD 0 []
  let second := args.getD 1 []
  if operation = 73 then .ran (.insert first second)
  else if operation = 85 then .ran (.update first second)
  else if operation = 68 then .ran (.pointDelete first)
  else if operation = 80 ∨ operation = 81 then .ran (.pointQuery first)
  else if operation = 83 then .ran (.rangeQuery first second)
  else if operation = 82 then .ran (.rangeDelete first second)
  else .notFound

def runOperation (line : Bytes) : Outcome :=
  match line.dropWhile isWhitespace with
  | [] => .indeterminate
  | operation :: rest => switchOn operation (words isWhitespace rest)

/-- The update interval of the progress bar, `(int)total_operations * 0.02` as a `size_t`. -/
def updateInterval (total : ℕ) : ℕ :=
  asUsize (asF64 (Int.bmod total (2 ^ 32) * asF64 (2 / 100)))

/-- The loop over the lines; an empty line ends it. `UpdateProgressBar` computes a remainder by
`interval` if the bar is shown. -/
def runOperations (showProgress : Bool) (interval : ℕ) : List Bytes → List Outcome
  | [] => []
  | line :: rest =>
    if line = [] then []
    else runOperation line ::
      if showProgress && interval = 0 then [.divisionByZero]
      else runOperations showProgress interval rest

/-- The line without the line feed that `getline` takes from the file. -/
def dropLf (line : Bytes) : Bytes := if line.getLast? = some 10 then line.dropLast else line

def getLines (file : Bytes) : List Bytes := (chunks isNewline file).map dropLf

def runWorkload (showProgress : Bool) (file : Bytes) : List Outcome :=
  runOperations showProgress (updateInterval (getLines file).length) (getLines file)

/-- The operation and the arguments that a line was written for. -/
def Call.emitted : Call → DbCall := Call.request Value.written

def RunsAsEmitted (showProgress : Bool) (out : List Event) : Prop :=
  runWorkload showProgress (fileOf out) = out.map fun e => .ran e.call.emitted

def Call.texts : Call → List Bytes
  | .insert key val | .update key val | .merge key val => [key, val.written]
  | .pointDelete key | .pointQuery key => [key]
  | .rangeQuery key1 key2 | .rangeDelete key1 key2 => [key1, key2]
  | .rangeQueryCount key1 _ | .rangeDeleteCount key1 _ => [key1]
  | .startStatFlush _ | .endStatFlush _ _ => []

def Spaceless (out : List Event) : Prop := ∀ e ∈ out, ∀ text ∈ e.call.texts, Word isWhitespace text

def Call.known : Call → Bool
  | .insert .. | .update .. | .pointDelete .. | .pointQuery .. | .rangeQuery .. | .rangeDelete .. =>
    true
  | .merge .. | .rangeQueryCount .. | .rangeDeleteCount .. | .startStatFlush .. |
    .endStatFlush .. => false

theorem getLines_concat (text rest : Bytes) :
    getLines (text ++ 10 :: rest) = text.splitOnP isNewline ++ getLines rest := by
  have hdrop : (dropLf ∘ fun line : Bytes => line ++ [10]) = id := by
    funext line
    simp [dropLf]
  rw [getLines, chunks_append rfl, chunks_concat (by simp [isNewline]), map_append,
    map_map, hdrop, map_id]
  rfl

theorem not_newline_of_word (h : Word isWhitespace text) :
    ∀ c ∈ text, isNewline c = false := by
  intro c hc
  have hspace := h.2 c hc
  simp only [isNewline, decide_eq_false_iff_not]
  rintro rfl
  exact absurd hspace (by decide)

theorem runOperation_cons (hc : isWhitespace c = false) (rest : Bytes) :
    runOperation (c :: rest) = switchOn c (words isWhitespace rest) := by
  rw [runOperation, dropWhile_cons_of_neg (by simp [hc])]

theorem getLines_line (call : Call) (c : UInt8) (name : Bytes)
    (hparts : call.parts = (c :: name) :: arg :: args) (hname : Word isWhitespace (c :: name))
    (hsplit : ([32].intercalate (arg :: args)).splitOnP isNewline = first :: more) (rest : Bytes) :
    getLines (call.line ++ rest) = (c :: name ++ 32 :: first) :: (more ++ getLines rest) ∧
      runOperation (c :: name ++ 32 :: first) =
        switchOn c (words isWhitespace name ++ words isWhitespace first) := by
  have hline : call.line ++ rest =
      c :: name ++ 32 :: [32].intercalate (arg :: args) ++ 10 :: rest := by
    simp [Call.line, hparts]
  have hlines : (c :: name ++ 32 :: [32].intercalate (arg :: args)).splitOnP isNewline =
      (c :: name ++ 32 :: first) :: more :=
    splitOnP_append (not_newline_of_word hname) (splitOnP_cons rfl hsplit)
  constructor
  · rw [hline, getLines_concat, hlines, cons_append]
  · rw [cons_append, runOperation_cons (hname.2 c mem_cons_self), words_append_cons rfl]

/-- The rest of the file is read as if the call had not been written before it. -/
def RunsFirst (call : Call) (rest : Bytes) : Prop :=
  ∃ line, getLines (call.line ++ rest) = line :: getLines rest ∧ line ≠ [] ∧
    runOperation line = .ran call.emitted

theorem runsFirst_letter (call : Call) (c : UInt8)
    (hparts : call.parts = [c] :: arg :: args) (hc : isWhitespace c = false)
    (hargs : ∀ a ∈ arg :: args, Word isWhitespace a)
    (hcall : switchOn c (arg :: args) = .ran call.emitted) (rest : Bytes) :
    RunsFirst call rest := by
  have hnewline : ∀ x ∈ [32].intercalate (arg :: args), isNewline x = false := by
    intro x hx
    obtain rfl | ⟨a, ha, hx⟩ := mem_intercalate hx
    · rfl
    · exact not_newline_of_word (hargs a ha) x hx
  have hwords : words isWhitespace ([32].intercalate (arg :: args)) = arg :: args := by
    rw [words_intercalate rfl, flatMap_congr fun a ha => words_of_word (hargs a ha)]
    exact flatMap_singleton' _
  obtain ⟨hlines, hrun⟩ := getLines_line call c [] hparts ⟨cons_ne_nil c [], by simpa using hc⟩
    (splitOnP_eq_singleton hnewline) rest
  rw [hwords] at hrun
  exact ⟨_, hlines, by simp, hrun.trans hcall⟩

theorem runsFirst_of_known {call : Call} (hknown : call.known = true)
    (h : ∀ text ∈ call.texts, Word isWhitespace text) (rest : Bytes) : RunsFirst call rest := by
  cases call with
  | insert key val => exact runsFirst_letter (.insert key val) 73 rfl rfl h rfl rest
  | update key val => exact runsFirst_letter (.update key val) 85 rfl rfl h rfl rest
  | pointDelete key => exact runsFirst_letter (.pointDelete key) 68 rfl rfl h rfl rest
  | pointQuery key => exact runsFirst_letter (.pointQuery key) 80 rfl rfl h rfl rest
  | rangeQuery key1 key2 =>
    exact runsFirst_letter (.rangeQuery key1 key2) 83 rfl rfl h rfl rest
  | rangeDelete key1 key2 =>
    exact runsFirst_letter (.rangeDelete key1 key2) 82 rfl rfl h rfl rest
  | merge | rangeQueryCount | rangeDeleteCount | startStatFlush | endStatFlush => cases hknown

/-- The first line of another call is no line of that call. -/
theorem exists_line_of_not_known {call : Call} (hknown : call.known ≠ true) (rest : Bytes) :
    ∃ line more, getLines (call.line ++ rest) = line :: more ∧
      runOperation line ≠ .ran call.emitted := by
  have hfirst (c : UInt8) (name arg : Bytes) (args : List Bytes)
      (hparts : call.parts = (c :: name) :: arg :: args) (hname : Word isWhitespace (c :: name))
      (hne : ∀ ws, switchOn c ws ≠ .ran call.emitted) :
      ∃ line more, getLines (call.line ++ rest) = line :: more ∧
        runOperation line ≠ .ran call.emitted := by
    obtain ⟨first, more, hsplit⟩ := exists_splitOnP isNewline ([32].intercalate (arg :: args))
    obtain ⟨hlines, hrun⟩ := getLines_line call c name hparts hname hsplit rest
    exact ⟨_, _, hlines, hrun ▸ hne _⟩
  cases call with
  | merge key val =>
    exact hfirst 77 [] _ _ rfl (by decide) fun _ (h : Outcome.notFound = .ran _) => by cases h
  | rangeQueryCount key1 count =>
    exact hfirst 83 [67] _ _ rfl (by decide)
      fun _ (h : Outcome.ran (.rangeQuery _ _) = .ran (.rangeQueryCount _ _)) => by cases h
  | rangeDeleteCount key1 count =>
    exact hfirst 82 [67] _ _ rfl (by decide)
      fun _ (h : Outcome.ran (.rangeDelete _ _) = .ran (.rangeDeleteCount _ _)) => by cases h
  | startStatFlush b =>
    exact hfirst 70 [83] _ _ rfl (by decide) fun _ (h : Outcome.notFound = .ran _) => by cases h
  | endStatFlush name b =>
    exact hfirst 70 [69] _ _ rfl (by decide) fun _ (h : Outcome.notFound = .ran _) => by cases h
  | insert | update | pointDelete | pointQuery | rangeQuery | rangeDelete =>
    exact absurd rfl hknown

theorem le_roundEven {x : ℚ} {n : ℤ} (h : n ≤ x) : n ≤ roundEven x := by
  unfold roundEven
  split
  · exact Int.le_floor.mpr h
  · rw [round_eq]
    exact Int.le_floor.mpr (by linarith)

theorem one_le_asF64 {x : ℚ} (h : 1 ≤ x) : 1 ≤ asF64 x := by
  have hlog : 0 ≤ Int.log 2 x := by
    rw [Int.log_of_one_le_right 2 h]
    exact Int.natCast_nonneg _
  have hplace : lastPlace x = Int.log 2 x - 52 := by
    rw [lastPlace, abs_of_pos (by linarith), max_eq_left (by omega)]
  -- The significand has 53 bits, and rounding keeps the first one.
  have hpow : (2 : ℚ) ^ Int.log 2 x = ((2 ^ 52 : ℤ) : ℚ) * 2 ^ lastPlace x := by
    rw [hplace, zpow_sub₀ two_ne_zero]
    field_simp
    norm_num
  have hpos : (0 : ℚ) < 2 ^ lastPlace x := zpow_pos two_pos _
  have hle : ((2 ^ 52 : ℤ) : ℚ) ≤ x / 2 ^ lastPlace x := by
    rw [le_div_iff₀ hpos, ← hpow]
    exact Int.zpow_log_le_self one_lt_two (by linarith)
  calc (1 : ℚ) ≤ 2 ^ Int.log 2 x := one_le_zpow₀ one_le_two hlog
    _ = ((2 ^ 52 : ℤ) : ℚ) * 2 ^ lastPlace x := hpow
    _ ≤ asF64 x :=
      mul_le_mul_of_nonneg_right (Int.cast_le.mpr (le_roundEven hle)) hpos.le

/-- The interval is zero for a file of less than fifty lines. -/
theorem updateInterval_pos_iff (h : total < 2 ^ 31) : 0 < updateInterval total ↔ 50 ≤ total := by
  have hint : Int.bmod total (2 ^ 32) = total := Int.bmod_eq_of_le (by omega) (by omega)
  constructor
  · intro hpos
    by_contra hlt
    have hsmall : ∀ n < 50, updateInterval n = 0 := by decide +kernel
    have := hsmall total (by omega)
    omega
  · intro hle
    rw [updateInterval, asUsize_pos_iff, hint]
    apply one_le_asF64
    have hstep : (1 : ℚ) ≤ 50 * asF64 (2 / 100) := by decide +kernel
    have hcast : (50 : ℚ) ≤ total := by exact_mod_cast hle
    calc (1 : ℚ) ≤ 50 * asF64 (2 / 100) := hstep
      _ ≤ ((total : ℤ) : ℚ) * asF64 (2 / 100) := by
        rw [Int.cast_natCast]
        exact mul_le_mul_of_nonneg_right hcast (by decide +kernel)

/-- Without a division by zero the lines run one after the other. -/
theorem runOperations_iff {out : List Event} (h : Spaceless out)
    (hbar : (showProgress && interval = 0) = false) :
    runOperations showProgress interval (getLines (fileOf out)) =
      out.map (fun e => .ran e.call.emitted) ↔ ∀ e ∈ out, e.call.known = true := by
  induction out with
  | nil => exact iff_of_true rfl (by simp)
  | cons e rest ih =>
    obtain ⟨hcall, hrest⟩ := forall_mem_cons.mp h
    have hfile : fileOf (e :: rest) = e.call.line ++ fileOf rest := rfl
    rw [forall_mem_cons, hfile]
    by_cases hknown : e.call.known = true
    · obtain ⟨line, hlines, hne, hrun⟩ := runsFirst_of_known hknown hcall (fileOf rest)
      rw [hlines, runOperations, if_neg hne, hbar, hrun, ← ih hrest]
      simp [hknown]
    · obtain ⟨line, more, hlines, hne⟩ := exists_line_of_not_known hknown (fileOf rest)
      rw [hlines, runOperations]
      split <;> simp [hknown, hne]

theorem length_getLines {out : List Event} (h : Spaceless out)
    (hknown : ∀ e ∈ out, e.call.known = true) :
    (getLines (fileOf out)).length = out.length := by
  induction out with
  | nil => rfl
  | cons e rest ih =>
    obtain ⟨hcall, hrest⟩ := forall_mem_cons.mp h
    obtain ⟨hfirst, hknown⟩ := forall_mem_cons.mp hknown
    obtain ⟨line, hlines, -, -⟩ := runsFirst_of_known hfirst hcall (fileOf rest)
    have hfile : fileOf (e :: rest) = e.call.line ++ fileOf rest := rfl
    rw [hfile, hlines, length_cons, length_cons, ih hrest hknown]

/-- After a division by zero there is no next line. -/
theorem eq_nil_of_divisionByZero {out : List Event} {lines : List Bytes}
    (h : runOperations true 0 lines = out.map fun e => .ran e.call.emitted) : out = [] := by
  cases lines with
  | nil => exact map_eq_nil_iff.mp h.symm
  | cons line rest =>
    rw [runOperations] at h
    split at h
    · exact map_eq_nil_iff.mp h.symm
    · have hmem : Outcome.divisionByZero ∈ out.map fun e => .ran e.call.emitted := by
        rw [← h]
        simp
      obtain ⟨e, -, he⟩ := mem_map.mp hmem
      cases he

theorem runsAsEmitted_iff {out : List Event} (h : Spaceless out) (hlen : out.length < 2 ^ 31) :
    RunsAsEmitted showProgress out ↔ (∀ e ∈ out, e.call.known = true) ∧
      (showProgress = true → out = [] ∨ 50 ≤ out.length) := by
  unfold RunsAsEmitted runWorkload
  constructor
  · intro hruns
    cases hbar : showProgress && updateInterval (getLines (fileOf out)).length = 0 with
    | false =>
      have hknown := (runOperations_iff h hbar).mp hruns
      refine ⟨hknown, fun hshow => .inr ?_⟩
      rw [length_getLines h hknown, hshow, Bool.true_and, decide_eq_false_iff_not] at hbar
      exact (updateInterval_pos_iff hlen).mp (Nat.pos_of_ne_zero hbar)
    | true =>
      rw [Bool.and_eq_true, decide_eq_true_iff] at hbar
      rw [hbar.1, hbar.2] at hruns
      cases eq_nil_of_divisionByZero hruns
      exact ⟨by simp, fun _ => .inl rfl⟩
  · rintro ⟨hknown, hbar⟩
    obtain rfl | hne := eq_or_ne out []
    · rfl
    · refine (runOperations_iff h ?_).mpr hknown
      rw [length_getLines h hknown]
      cases showProgress with
      | false => rfl
      | true =>
        have hpos := (updateInterval_pos_iff hlen).mpr ((hbar rfl).resolve_left hne)
        simpa using hpos.ne'

/-- A workload file runs as it was emitted exactly if all its operations have a case, and with
the progress bar shown it has at least fifty lines or none. -/
theorem generated_runsAsEmitted_iff {ρ : Type} (w : World ρ) (workload : WorkloadSpec)
    (showProgress : Bool) (h : Spaceless (generated w workload).out)
    (hlen : (generated w workload).out.length < 2 ^ 31) :
    RunsAsEmitted showProgress (generated w workload).out ↔
      (∀ e ∈ (generated w workload).out, e.call.known = true) ∧
      (showProgress = true → (generated w workload).out = [] ∨
        50 ≤ (generated w workload).out.length) :=
  runsAsEmitted_iff h hlen

instance : DecidablePred Spaceless := fun out =>
  inferInstanceAs (Decidable (∀ e ∈ out, ∀ text ∈ e.call.texts, Word isWhitespace text))

def insertsAndUpdates : WorkloadSpec where
  sections := [{ groups := [{ uniqueInserts := some (digitInserts 3) },
    { updates := some ⟨.constant 30, some (.constant (ascii "u")), none, none⟩
      pointQueries := some ⟨.constant 20, none⟩ }] }]

theorem runsAsEmitted_insertsAndUpdates :
    Spaceless (generated tickWorld insertsAndUpdates).out ∧
      (generated tickWorld insertsAndUpdates).out.length = 53 ∧
        RunsAsEmitted true (generated tickWorld insertsAndUpdates).out := by
  have h : Spaceless (generated tickWorld insertsAndUpdates).out ∧
      (generated tickWorld insertsAndUpdates).out.length = 53 ∧
      ∀ e ∈ (generated tickWorld insertsAndUpdates).out, e.call.known = true := by
    decide +kernel
  obtain ⟨hspaceless, hlen, hknown⟩ := h
  exact ⟨hspaceless, hlen, (generated_runsAsEmitted_iff tickWorld insertsAndUpdates true hspaceless
    (by omega)).mpr ⟨hknown, fun _ => .inr (by omega)⟩⟩

def countedRanges : WorkloadSpec where
  sections := [{ groups := [{ uniqueInserts := some (digitInserts 2) },
    { merges := some ⟨.constant 1, some (.constant (ascii "m")), none, none⟩
      rangeQueries := some ⟨.constant 1, none, some (.constant 1), none, .startCount⟩
      rangeDeletes := some ⟨.constant 1, none, some (.constant 1), none, .startCount⟩ }] }]

/-- Without a progress bar, the merge is skipped, and a range is deleted and scanned that begins
with the letter `C`. -/
theorem not_runsAsEmitted_countedRanges :
    Spaceless (generated tickWorld countedRanges).out ∧
      (generateOperations tickWorld countedRanges ⟨[], []⟩).1.isOk = true ∧
      (generated tickWorld countedRanges).out.map (fun e => e.call.emitted) =
        [.insert (ascii "01") (ascii "v"), .insert (ascii "23") (ascii "v"),
          .merge (ascii "01") (ascii "m"), .rangeDeleteCount (ascii "01") 1,
          .rangeQueryCount (ascii "23") 1] ∧
      runWorkload false (fileOf (generated tickWorld countedRanges).out) =
        [.ran (.insert (ascii "01") (ascii "v")), .ran (.insert (ascii "23") (ascii "v")),
          .notFound, .ran (.rangeDelete (ascii "C") (ascii "01")),
          .ran (.rangeQuery (ascii "C") (ascii "23"))] := by
  decide +kernel

end ZenFs.Tectonic
