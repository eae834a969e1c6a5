import ZenFs.Library.Words
import ZenFs.Tectonic.Dispatch

/-!
The lines that `WriteHandler` prints, and the calls that `execute_and_benchmark_db` makes when
it reads them back.

Strings are printed as they are, so a line is read back only if the strings in it have no
spaces and line ends. A carriage return at the end of a line is dropped, and the value of a
segmented expression is printed with a separator that `DBHandler` does not put there. All strings
of a specification are UTF-8.
-/

namespace ZenFs.Tectonic

open Library List Call

variable {P Q : List Coding.Bytes → Prop} {arg key name op val : Coding.Bytes} {b : BenchmarkerType}
variable {back rest : List UInt8} {c : UInt8} {call : Call} {d n : ℕ}
variable {front ws : List Coding.Bytes} {out : List Event}
variable {text : Bytes}

def isSpace (c : UInt8) : Bool := c = 32

def isNewline (c : UInt8) : Bool := c = 10

/-! ### Writing -/

def BenchmarkerType.letter : BenchmarkerType → Bytes
  | overall => ascii "O"
  | section' => ascii "S"
  | group => ascii "G"

/-- The parts of the line that `WriteHandler` prints, between which it puts spaces. -/
def Call.parts : Call → List Bytes
  | .insert key val => [ascii "I", key, val.written]
  | .update key val => [ascii "U", key, val.written]
  | .merge key val => [ascii "M", key, val.written]
  | .pointDelete key => [ascii "D", key]
  | .pointQuery key => [ascii "P", key]
  | .rangeQuery key1 key2 => [ascii "S", key1, key2]
  | .rangeQueryCount key1 count => [ascii "SC", key1, decimal count]
  | .rangeDelete key1 key2 => [ascii "R", key1, key2]
  | .rangeDeleteCount key1 count => [ascii "RC", key1, decimal count]
  | .startStatFlush benchmarker => [ascii "FS", benchmarker.letter]
  | .endStatFlush name benchmarker => [ascii "FE", benchmarker.letter, name]

def Call.line (call : Call) : Bytes := [32].intercalate call.parts ++ [10]

def fileOf (out : List Event) : Bytes := out.flatMap fun e => e.call.line

/-! ### Reading -/

inductive DbCall
  | insert (key val : Bytes)
  | update (key val : Bytes)
  | merge (key val : Bytes)
  | pointDelete (key : Bytes)
  | pointQuery (key : Bytes)
  | rangeQuery (key1 key2 : Bytes)
  | rangeQueryCount (key1 : Bytes) (count : ℕ)
  | rangeDelete (key1 key2 : Bytes)
  | rangeDeleteCount (key1 : Bytes) (count : ℕ)
  | startStatFlush (benchmarker : BenchmarkerType)
  | endStatFlush (name : Bytes) (benchmarker : BenchmarkerType)
  deriving DecidableEq, Repr

variable {calls : List DbCall} {f : Coding.Bytes → DbCall}

def Call.request (text : Value → Bytes) : Call → DbCall
  | .insert key val => .insert key (text val)
  | .update key val => .update key (text val)
  | .merge key val => .merge key (text val)
  | .pointDelete key => .pointDelete key
  | .pointQuery key => .pointQuery key
  | .rangeQuery key1 key2 => .rangeQuery key1 key2
  | .rangeQueryCount key1 count => .rangeQueryCount key1 count
  | .rangeDelete key1 key2 => .rangeDelete key1 key2
  | .rangeDeleteCount key1 count => .rangeDeleteCount key1 count
  | .startStatFlush benchmarker => .startStatFlush benchmarker
  | .endStatFlush name benchmarker => .endStatFlush name benchmarker

def Call.db : Call → DbCall := Call.request Value.generated

def addDigit (n : ℕ) (c : UInt8) : Except Stop ℕ :=
  if 48 ≤ c ∧ c ≤ 57 then
    let next := 10 * n + (c.toNat - 48)
    if next < 2 ^ 64 then .ok next
    else .error (.bail "number too large to fit in target type")
  else .error (.bail "invalid digit found in string")

/-- `parse::<usize>()`; a plus sign may stand in front. -/
def parseUsize : Bytes → Except Stop ℕ
  | [] => .error (.bail "cannot parse integer from empty string")
  | [43] => .error (.bail "invalid digit found in string")
  | 43 :: digits => digits.foldlM addDigit 0
  | digits => digits.foldlM addDigit 0

def missing {α : Type} : Except Stop α := .error (.bail "Missing Argument")

def oneArgument (f : Bytes → DbCall) : List Bytes → Except Stop DbCall
  | key :: _ => .ok (f key)
  | _ => missing

def twoArguments (f : Bytes → Bytes → DbCall) : List Bytes → Except Stop DbCall
  | key :: value :: _ => .ok (f key value)
  | _ => missing

def counted (f : Bytes → ℕ → DbCall) : List Bytes → Except Stop DbCall
  | key :: count :: _ => (parseUsize count).map (f key)
  | _ => missing

def benchmarkerOf (arg : Bytes) : Except Stop BenchmarkerType :=
  if arg = ascii "O" then .ok .overall
  else if arg = ascii "S" then .ok .section'
  else if arg = ascii "G" then .ok .group
  else .error (.bail "Unknown Benchmarker Type")

def flushStart : List Bytes → Except Stop DbCall
  | which :: _ => (benchmarkerOf which).map .startStatFlush
  | [] => missing

/-- The rest of the line is the name, with one space between two words. -/
def flushEnd : List Bytes → Except Stop DbCall
  | which :: rest => do
    let benchmarker ← benchmarkerOf which
    let name := [32].intercalate rest
    if name = [] then missing else return .endStatFlush name benchmarker
  | [] => missing

def unknownOperation (op : Bytes) : Stop :=
  match String.fromUTF8? (ByteArray.mk op.toArray) with
  | some text => .bail ("Unknown operation \"" ++ text ++ "\"")
  | none => .bail "Operation is not valid utf8"

def handle (op : Bytes) (args : List Bytes) : Except Stop DbCall :=
  if op = ascii "I" then twoArguments .insert args
  else if op = ascii "P" then oneArgument .pointQuery args
  else if op = ascii "U" then twoArguments .update args
  else if op = ascii "M" then twoArguments .merge args
  else if op = ascii "D" then oneArgument .pointDelete args
  else if op = ascii "SC" then counted .rangeQueryCount args
  else if op = ascii "S" then twoArguments .rangeQuery args
  else if op = ascii "RC" then counted .rangeDeleteCount args
  else if op = ascii "R" then twoArguments .rangeDelete args
  else if op = ascii "FS" then flushStart args
  else if op = ascii "FE" then flushEnd args
  else .error (unknownOperation op)

def processWords : List Bytes → Except Stop (Option DbCall)
  | [] => .ok none
  | op :: args => (handle op args).map some

def processLine (line : Bytes) : Except Stop (Option DbCall) := processWords (words isSpace line)

def dropCr (line : Bytes) : Bytes := if line.getLast? = some 13 then line.dropLast else line

/-- What is left of the buffer of a line. In front of a line feed that stands alone there is
no character to look at. -/
def trimLine (buf : Bytes) : Except Stop Bytes :=
  if buf.getLast? = some 10 then
    if buf.dropLast = [] then .error (.panic "index out of bounds") else .ok (dropCr buf.dropLast)
  else .ok buf

/-- One round of the loop of `execute_and_benchmark_db`. -/
def runLine (buf : Bytes) : Except Stop (Option DbCall) := (trimLine buf).bind processLine

/-- The loop: the calls that are made until the file or a line ends it. -/
def runLines : List Bytes → List DbCall × Except Stop Unit
  | [] => ([], .ok ())
  | buf :: rest => match runLine buf with
    | .error e => ([], .error e)
    | .ok none => runLines rest
    | .ok (some call) => (call :: (runLines rest).1, (runLines rest).2)

def executeFile (file : Bytes) : List DbCall × Except Stop Unit := runLines (chunks isNewline file)

/-- What is printed for a call makes the call of `DBHandler`, and nothing else. -/
def ReadsBack (call : Call) : Prop := executeFile call.line = ([call.db], .ok ())

/-! ### Lines that make a call -/

/-- A line that makes no call. An empty line is none of these. -/
def Blank (line : Bytes) : Prop := line ≠ [] ∧ ∀ c ∈ dropCr line, c = 32

def Token (text : Bytes) : Prop := Word (fun c => isSpace c || isNewline c) text

instance (text : Bytes) : Decidable (Token text) :=
  inferInstanceAs (Decidable (Word (fun c => isSpace c || isNewline c) text))

theorem Token.space (h : Token text) : Word isSpace text :=
  ⟨h.1, fun c hc => (Bool.or_eq_false_iff.mp (h.2 c hc)).1⟩

theorem Token.newline (h : Token text) : ∀ c ∈ text, isNewline c = false :=
  fun c hc => (Bool.or_eq_false_iff.mp (h.2 c hc)).2

theorem Token.of_word (h : Word isSpace text)
    (hnewline : ∀ c ∈ text, isNewline c = false) : Token text :=
  ⟨h.1, fun c hc => Bool.or_eq_false_iff.mpr ⟨h.2 c hc, hnewline c hc⟩⟩

theorem dropCr_append (front : Bytes) (h : back ≠ []) :
    dropCr (front ++ back) = front ++ dropCr back := by
  unfold dropCr
  rw [getLast?_append_of_ne_nil _ h, dropLast_append_of_ne_nil h]
  split <;> rfl

theorem dropCr_cons (c : UInt8) (hc : c ≠ 13) (rest : Bytes) :
    dropCr (c :: rest) = c :: dropCr rest := by
  cases rest with
  | nil => simp [dropCr, hc]
  | cons d rest => exact dropCr_append [c] (cons_ne_nil d rest)

theorem dropCr_of_ne (h : text.getLast? ≠ some 13) : dropCr text = text :=
  if_neg h

theorem getLast?_ne_of_length_le (h : text.length ≤ (dropCr text).length) :
    text.getLast? ≠ some 13 := by
  intro hlast
  have hpos : 0 < text.length := length_pos_iff.mpr (by rintro rfl; simp at hlast)
  rw [dropCr, if_pos hlast, length_dropLast] at h
  omega

theorem mem_of_mem_dropCr (h : c ∈ dropCr text) : c ∈ text := by
  unfold dropCr at h
  split at h
  · exact mem_of_mem_dropLast h
  · exact h

theorem runLine_concat (line : Bytes) :
    runLine (line ++ [10]) =
      if line = [] then .error (.panic "index out of bounds") else processLine (dropCr line) := by
  unfold runLine trimLine
  simp only [getLast?_concat, dropLast_concat, if_true]
  split <;> rfl

theorem processWords_eq_none_iff (ws : List Bytes) : processWords ws = .ok none ↔ ws = [] := by
  cases ws with
  | nil => simp [processWords]
  | cons op args =>
    rw [processWords]
    cases handle op args <;> simp [Except.map]

theorem runLine_eq_none_iff (line : Bytes) : runLine (line ++ [10]) = .ok none ↔ Blank line := by
  rw [runLine_concat, Blank]
  split
  · next h => simp [h]
  · next h =>
    rw [processLine, processWords_eq_none_iff, words_eq_nil_iff]
    simp [h, isSpace]

theorem runLines_eq_nil_iff (lines : List Bytes) :
    runLines lines = ([], .ok ()) ↔ ∀ line ∈ lines, runLine line = .ok none := by
  induction lines with
  | nil => simp [runLines]
  | cons line rest ih =>
    rw [runLines, forall_mem_cons]
    cases runLine line with
    | error e => simp
    | ok call => cases call <;> simp [ih]

theorem runLines_append (h : runLines front = (calls, .ok ())) (back : List Bytes) :
    runLines (front ++ back) = (calls ++ (runLines back).1, (runLines back).2) := by
  induction front generalizing calls with
  | nil =>
    obtain rfl : [] = calls := congrArg Prod.fst h
    rfl
  | cons line rest ih =>
    rw [runLines] at h
    rw [cons_append, runLines]
    cases hline : runLine line with
    | error e => simp [hline] at h
    | ok call =>
      cases call with
      | none =>
        simp only [hline] at h
        exact ih h
      | some call =>
        simp only [hline, Prod.mk.injEq] at h
        obtain ⟨rfl, hrest⟩ := h
        simp only [ih (Prod.ext rfl hrest), cons_append]

/-- The first line of a text has words with `P`, and the others are blank. -/
def Parses (text : Bytes) (P : List Bytes → Prop) : Prop :=
  ∃ first more, text.splitOnP isNewline = first :: more ∧ P (words isSpace (dropCr first)) ∧
    ∀ line ∈ more, Blank line

theorem Parses.congr (h : ∀ ws, P ws ↔ Q ws) :
    Parses text P ↔ Parses text Q := by
  simp only [Parses, h]

theorem executeFile_eq_iff (hop : Token op) (text : Bytes) (call : DbCall) :
    executeFile (op ++ 32 :: text ++ [10]) = ([call], .ok ()) ↔
      Parses text fun ws => handle op ws = .ok call := by
  obtain ⟨first, more, hsplit⟩ := exists_splitOnP isNewline text
  have hlines : (op ++ 32 :: text).splitOnP isNewline = (op ++ 32 :: first) :: more :=
    splitOnP_append hop.newline (splitOnP_cons rfl hsplit)
  have hwords : words isSpace (dropCr (op ++ 32 :: first)) =
      op :: words isSpace (dropCr first) := by
    rw [dropCr_append op (cons_ne_nil _ _), dropCr_cons 32 (by decide),
      words_append_cons rfl, words_of_word hop.space]
    rfl
  have hline : runLine (op ++ 32 :: first ++ [10]) =
      (handle op (words isSpace (dropCr first))).map some := by
    rw [runLine_concat, if_neg (by simp), processLine, hwords]
    rfl
  have hmore : runLines (more.map (· ++ [10])) = ([], .ok ()) ↔ ∀ line ∈ more, Blank line := by
    simp [runLines_eq_nil_iff, runLine_eq_none_iff]
  have hparses : (Parses text fun ws => handle op ws = .ok call) ↔
      handle op (words isSpace (dropCr first)) = .ok call ∧ ∀ line ∈ more, Blank line := by
    simp [Parses, hsplit]
  rw [hparses, ← hmore, executeFile, chunks_concat (by simp [isNewline]), hlines, map_cons,
    runLines, hline]
  cases handle op (words isSpace (dropCr first)) with
  | error e => simp [Except.map]
  | ok made => simp [Except.map, Prod.ext_iff, and_assoc]

theorem not_newline_of_mem_words {line word : Bytes} {more : List Bytes}
    (hline : text.splitOnP isNewline = line :: more) (h : word ∈ words isSpace (dropCr line))
    (hc : c ∈ word) : isNewline c = false :=
  no_sep_of_mem_splitOnP (hline ▸ mem_cons_self)
    (mem_of_mem_dropCr (mem_of_mem_words h hc).1)

theorem parses_cons_iff :
    Parses (key ++ 32 :: text) (fun ws => ∃ rest, ws = key :: rest ∧ P rest) ↔
      Token key ∧ Parses text P := by
  obtain ⟨first, more, hsplit⟩ := exists_splitOnP isNewline text
  have hcut (h : ∀ c ∈ key, isNewline c = false) :
      (key ++ 32 :: text).splitOnP isNewline = (key ++ 32 :: first) :: more :=
    splitOnP_append h (splitOnP_cons rfl hsplit)
  have hwords : words isSpace (dropCr (key ++ 32 :: first)) =
      words isSpace key ++ words isSpace (dropCr first) := by
    rw [dropCr_append key (cons_ne_nil _ _), dropCr_cons 32 (by decide),
      words_append_cons rfl]
  constructor
  · rintro ⟨line, others, hline, ⟨rest, hrest, hP⟩, hblank⟩
    have hmem : key ∈ words isSpace (dropCr line) := hrest ▸ mem_cons_self
    have hnewline : ∀ c ∈ key, isNewline c = false := by
      intro c hc
      exact not_newline_of_mem_words hline hmem hc
    rw [hcut hnewline] at hline
    obtain ⟨rfl, rfl⟩ := List.cons.inj hline
    rw [hwords, words_append_eq_cons_iff fun _ => word_of_mem] at hrest
    obtain ⟨hword, rfl⟩ := hrest
    exact ⟨.of_word hword hnewline, first, more, hsplit, hP, hblank⟩
  · rintro ⟨hkey, line, others, hline, hP, hblank⟩
    obtain ⟨rfl, rfl⟩ := List.cons.inj (hsplit.symm.trans hline)
    refine ⟨_, _, hcut hkey.newline, ⟨_, ?_, hP⟩, hblank⟩
    rw [hwords, words_of_word hkey.space]
    rfl

/-- What may follow a value on its line: nothing, a carriage return, or a space and whatever
comes then. A value that ends in a carriage return would lose it. -/
def Ends (generated rest : Bytes) : Prop :=
  (rest = [] ∧ generated.getLast? ≠ some 13) ∨ rest = [13] ∨ rest.head? = some 32

theorem head?_dropCr_iff (h : rest ≠ []) :
    (∀ c ∈ (dropCr rest).head?, isSpace c = true) ↔ rest = [13] ∨ rest.head? = some 32 := by
  obtain ⟨c, rest, rfl⟩ := exists_cons_of_ne_nil h
  by_cases hc : c = 13
  · subst hc
    cases rest with
    | nil => simp [dropCr]
    | cons d rest =>
      rw [show dropCr (13 :: d :: rest) = 13 :: dropCr (d :: rest) from
        dropCr_append [13] (cons_ne_nil d rest)]
      simp [isSpace]
  · rw [dropCr_cons c hc]
    simp [isSpace, hc]

theorem parses_append_iff {generated rest : Bytes} :
    Parses (generated ++ rest) (fun ws => ∃ more, ws = generated :: more) ↔
      Token generated ∧ ∃ first more, rest.splitOnP isNewline = first :: more ∧
        Ends generated first ∧ ∀ line ∈ more, Blank line := by
  obtain ⟨first, more, hsplit⟩ := exists_splitOnP isNewline rest
  have hwords : (∃ others, words isSpace (dropCr (generated ++ first)) = generated :: others) ↔
      Word isSpace generated ∧ Ends generated first := by
    by_cases hfirst : first = []
    · subst hfirst
      rw [append_nil]
      constructor
      · rintro ⟨others, h⟩
        have hmem : generated ∈ words isSpace (dropCr generated) := h ▸ mem_cons_self
        exact ⟨word_of_mem hmem, .inl ⟨rfl, getLast?_ne_of_length_le (length_le_of_mem_words hmem)⟩⟩
      · rintro ⟨hword, ⟨-, hlast⟩ | h | h⟩
        · exact ⟨[], by rw [dropCr_of_ne hlast, words_of_word hword]⟩
        · cases h
        · cases h
    · rw [dropCr_append _ hfirst, exists_words_eq_cons_iff, head?_dropCr_iff hfirst]
      simp [Ends, hfirst]
  constructor
  · rintro ⟨line, others, hline, ⟨tail, htail⟩, hblank⟩
    have hmem : generated ∈ words isSpace (dropCr line) := htail ▸ mem_cons_self
    have hnewline : ∀ c ∈ generated, isNewline c = false :=
      fun _ => not_newline_of_mem_words hline hmem
    rw [splitOnP_append hnewline hsplit] at hline
    obtain ⟨rfl, rfl⟩ := List.cons.inj hline
    obtain ⟨hword, hends⟩ := hwords.mp ⟨tail, htail⟩
    exact ⟨.of_word hword hnewline, first, more, hsplit, hends, hblank⟩
  · rintro ⟨htoken, line, others, hline, hends, hblank⟩
    obtain ⟨rfl, rfl⟩ := List.cons.inj (hsplit.symm.trans hline)
    exact ⟨_, _, splitOnP_append htoken.newline hsplit, hwords.mpr ⟨htoken.space, hends⟩, hblank⟩

theorem parses_last_iff {key : Bytes} :
    Parses key (fun ws => ∃ more, ws = key :: more) ↔ Token key ∧ key.getLast? ≠ some 13 := by
  have h : Parses (key ++ []) (fun ws => ∃ more, ws = key :: more) ↔ _ := parses_append_iff
  simpa [Ends] using h

theorem parses_name_iff :
    Parses name (fun ws => name ≠ [] ∧ [32].intercalate ws = name) ↔
      name ≠ [] ∧ (∀ c ∈ name, isNewline c = false) ∧ name.getLast? ≠ some 13 ∧
        [32].intercalate (words isSpace name) = name := by
  constructor
  · rintro ⟨line, others, hline, ⟨hne, hname⟩, hblank⟩
    have hnewline : ∀ c ∈ name, isNewline c = false := by
      intro c hc
      rw [← hname] at hc
      obtain rfl | ⟨word, hword, hc⟩ := mem_intercalate hc
      · rfl
      · exact not_newline_of_mem_words hline hword hc
    rw [splitOnP_eq_singleton hnewline] at hline
    obtain ⟨rfl, rfl⟩ := List.cons.inj hline
    have hlast : name.getLast? ≠ some 13 := by
      intro hlast
      -- The name has the same letters with and without the carriage return.
      have hwords := congrArg (words isSpace) hname
      rw [words_intercalate rfl, flatMap_words_words] at hwords
      have hletters := congrArg flatten hwords
      rw [flatten_words, flatten_words] at hletters
      have hdrop : name = dropCr name ++ [13] := by
        rw [dropCr, if_pos hlast]
        exact (dropLast_append_getLast? 13 hlast).symm
      have hfilter : name.filter (fun c => !isSpace c) =
          (dropCr name).filter (fun c => !isSpace c) ++ [13] := by
        conv_lhs => rw [hdrop, filter_append]
        rfl
      rw [hfilter] at hletters
      simp at hletters
    rw [dropCr_of_ne hlast] at hname
    exact ⟨hne, hnewline, hlast, hname⟩
  · rintro ⟨hne, hnewline, hlast, hname⟩
    refine ⟨name, [], splitOnP_eq_singleton hnewline, ⟨hne, ?_⟩, by simp⟩
    rw [dropCr_of_ne hlast, hname]

/-! ### Numbers -/

theorem digitChar_eq : ∀ d < 10, UInt8.ofNat (Nat.digitChar d).toNat = UInt8.ofNat (48 + d) := by
  decide

theorem decimal_of_lt (h : n < 10) : decimal n = [UInt8.ofNat (48 + n)] := by
  rw [decimal, Nat.toDigits_of_lt_base h]
  exact congrArg (fun c => [c]) (digitChar_eq n h)

theorem decimal_of_le (h : 10 ≤ n) :
    decimal n = decimal (n / 10) ++ [UInt8.ofNat (48 + n % 10)] := by
  rw [decimal, Nat.toDigits_eq_if (by decide), if_neg (by omega), map_append]
  exact congrArg (fun c => _ ++ [c]) (digitChar_eq _ (Nat.mod_lt n (by decide)))

theorem digit_bounds : ∀ d < 10, 48 ≤ UInt8.ofNat (48 + d) ∧ UInt8.ofNat (48 + d) ≤ 57 ∧
    (UInt8.ofNat (48 + d)).toNat - 48 = d := by
  decide

theorem mem_decimal (h : c ∈ decimal n) : 48 ≤ c ∧ c ≤ 57 := by
  induction n using Nat.strongRecOn with
  | ind n ih =>
    by_cases hn : n < 10
    · rw [decimal_of_lt hn, mem_singleton] at h
      subst h
      exact ⟨(digit_bounds n hn).1, (digit_bounds n hn).2.1⟩
    · rw [decimal_of_le (by omega), mem_append, mem_singleton] at h
      have hmod := digit_bounds (n % 10) (Nat.mod_lt n (by decide))
      obtain h | rfl := h
      · exact ih _ (by omega) h
      · exact ⟨hmod.1, hmod.2.1⟩

theorem addDigit_eq (hd : d < 10) (h : 10 * n + d < 2 ^ 64) :
    addDigit n (UInt8.ofNat (48 + d)) = .ok (10 * n + d) := by
  obtain ⟨hlow, hhigh, hvalue⟩ := digit_bounds d hd
  rw [addDigit, if_pos ⟨hlow, hhigh⟩, hvalue]
  exact if_pos h

theorem foldlM_decimal (n : ℕ) (h : n < 2 ^ 64) : (decimal n).foldlM addDigit 0 = .ok n := by
  induction n using Nat.strongRecOn with
  | ind n ih =>
    by_cases hn : n < 10
    · rw [decimal_of_lt hn, foldlM_cons, addDigit_eq hn (by omega)]
      simp [pure, Except.pure, bind, Except.bind]
    · rw [decimal_of_le (by omega), foldlM_append, ih _ (by omega) (by omega)]
      have hdigit := addDigit_eq (n := n / 10) (Nat.mod_lt n (by decide)) (by omega)
      rw [Nat.div_add_mod] at hdigit
      change foldlM addDigit (n / 10) [UInt8.ofNat (48 + n % 10)] = .ok n
      rw [foldlM_cons, hdigit]
      rfl

theorem decimal_ne_nil (n : ℕ) : decimal n ≠ [] := by
  by_cases hn : n < 10
  · simp [decimal_of_lt hn]
  · simp [decimal_of_le (Nat.le_of_not_lt hn)]

theorem parseUsize_decimal (h : n < 2 ^ 64) : parseUsize (decimal n) = .ok n := by
  have hplus : 43 ∉ decimal n := fun hmem => absurd (mem_decimal hmem).1 (by decide)
  rw [← foldlM_decimal n h]
  cases hdecimal : decimal n with
  | nil => exact absurd hdecimal (decimal_ne_nil n)
  | cons c rest =>
    rw [hdecimal] at hplus
    unfold parseUsize
    split
    · next hnil => cases hnil
    · next hone => cases hone; simp at hplus
    · next hsign => cases hsign; simp at hplus
    · rfl

theorem token_decimal (n : ℕ) : Token (decimal n) := by
  refine ⟨decimal_ne_nil n, ?_⟩
  intro c hc
  have hlow := (mem_decimal hc).1
  simp only [isSpace, isNewline, Bool.or_eq_false_iff, decide_eq_false_iff_not]
  constructor <;> rintro rfl <;> exact absurd hlow (by decide)

theorem parses_decimal (h : n < 2 ^ 64) :
    Parses (decimal n) (fun ws => ∃ count more, ws = count :: more ∧ parseUsize count = .ok n) := by
  have hlast : (decimal n).getLast? ≠ some 13 := by
    intro hlast
    exact absurd (mem_decimal (mem_of_getLast? hlast)).1 (by decide)
  obtain ⟨first, more, hsplit, ⟨rest, hrest⟩, hblank⟩ :=
    parses_last_iff.mpr ⟨token_decimal n, hlast⟩
  exact ⟨first, more, hsplit, ⟨_, rest, hrest, parseUsize_decimal h⟩, hblank⟩

/-! ### Calls that are read back -/

theorem oneArgument_eq_iff (hf : f.Injective) :
    oneArgument f ws = .ok (f key) ↔ ∃ more, ws = key :: more := by
  cases ws with
  | nil => simp [oneArgument, missing]
  | cons word rest => simp [oneArgument, hf.eq_iff]

theorem twoArguments_eq_iff {f : Coding.Bytes → Coding.Bytes → DbCall} (hf : f.Injective2) :
    twoArguments f ws = .ok (f key val) ↔
      ∃ rest, ws = key :: rest ∧ ∃ more, rest = val :: more := by
  rcases ws with _ | ⟨word, _ | ⟨next, rest⟩⟩
  · simp [twoArguments, missing]
  · simp [twoArguments, missing]
  · simp [twoArguments, hf.eq_iff]

theorem counted_eq_iff {f : Coding.Bytes → ℕ → DbCall} (hf : f.Injective2) :
    counted f ws = .ok (f key n) ↔
      ∃ rest, ws = key :: rest ∧ ∃ count more, rest = count :: more ∧ parseUsize count = .ok n := by
  rcases ws with _ | ⟨word, _ | ⟨next, rest⟩⟩
  · simp [counted, missing]
  · simp [counted, missing]
  · rw [counted]
    cases hparse : parseUsize next <;> simp [Except.map, hf.eq_iff, hparse]

theorem benchmarkerOf_eq_iff :
    benchmarkerOf arg = .ok b ↔ arg = b.letter := by
  unfold benchmarkerOf
  split_ifs with hO hS hG
  · subst hO; cases b <;> decide
  · subst hS; cases b <;> decide
  · subst hG; cases b <;> decide
  · cases b <;> simp [BenchmarkerType.letter, hO, hS, hG]

theorem flushEnd_eq_iff :
    flushEnd ws = .ok (.endStatFlush name b) ↔
      ∃ rest, ws = b.letter :: rest ∧ name ≠ [] ∧ [32].intercalate rest = name := by
  cases ws with
  | nil => simp [flushEnd, missing]
  | cons which rest =>
    have hletter : which = b.letter ↔ benchmarkerOf which = .ok b := benchmarkerOf_eq_iff.symm
    rw [flushEnd]
    simp only [List.cons.injEq, hletter]
    cases benchmarkerOf which with
    | error e => simp [bind, Except.bind]
    | ok other =>
      by_cases hnil : [32].intercalate rest = []
      · simp [bind, Except.bind, hnil, missing]
      · simp only [bind, Except.bind, pure, Except.pure]
        grind

/-- A value that is read back as it was generated. What is written behind it must end it, and
must have only blank lines behind the first line feed. -/
def Value.Plain (val : Value) : Prop :=
  Token val.generated ∧ ∃ rest first more, val.written = val.generated ++ rest ∧
    rest.splitOnP isNewline = first :: more ∧ Ends val.generated first ∧ ∀ line ∈ more, Blank line

def Call.Plain : Call → Prop
  | .insert key val | .update key val | .merge key val => Token key ∧ val.Plain
  | .pointDelete key | .pointQuery key => Token key ∧ key.getLast? ≠ some 13
  | .rangeQuery key1 key2 | .rangeDelete key1 key2 =>
    Token key1 ∧ Token key2 ∧ key2.getLast? ≠ some 13
  | .rangeQueryCount key1 _ | .rangeDeleteCount key1 _ => Token key1
  | .startStatFlush _ => True
  | .endStatFlush name _ =>
    name ≠ [] ∧ (∀ c ∈ name, isNewline c = false) ∧ name.getLast? ≠ some 13 ∧
      [32].intercalate (words isSpace name) = name

/-- What is known of every call: how values are written, and that counts are of type `usize`. -/
def Call.Printed : Call → Prop
  | .insert _ val | .update _ val | .merge _ val => val.generated <+: val.written
  | .rangeQueryCount _ count | .rangeDeleteCount _ count => count < 2 ^ 64
  | _ => True

theorem Value.parses_iff {val : Value} (h : val.generated <+: val.written) :
    Parses val.written (fun ws => ∃ more, ws = val.generated :: more) ↔ val.Plain := by
  obtain ⟨rest, hrest⟩ := h
  rw [← hrest, parses_append_iff, Value.Plain, ← hrest]
  simp

theorem intercalate_pair (a b : Bytes) : [32].intercalate [a, b] = a ++ 32 :: b := by
  simp [intercalate_cons_cons]

theorem intercalate_triple (a b c : Bytes) :
    [32].intercalate [a, b, c] = a ++ 32 :: (b ++ 32 :: c) := by
  simp [intercalate_cons_cons]

theorem readsBack_oneArgument (f : Bytes → DbCall)
    (hparts : call.parts = [op, key]) (hdb : call.db = f key) (hop : Token op)
    (hhandle : ∀ ws, handle op ws = oneArgument f ws) (hf : f.Injective) :
    ReadsBack call ↔ Token key ∧ key.getLast? ≠ some 13 := by
  rw [ReadsBack, line, hparts, intercalate_pair, hdb, executeFile_eq_iff hop,
    ← parses_last_iff]
  exact Parses.congr fun ws => by rw [hhandle, oneArgument_eq_iff hf]

theorem readsBack_twoArguments (call : Call) (f : Bytes → Bytes → DbCall)
    (hparts : call.parts = [op, key, text]) (hdb : call.db = f key val)
    (hop : Token op) (hhandle : ∀ ws, handle op ws = twoArguments f ws) (hf : f.Injective2) :
    ReadsBack call ↔ Token key ∧ Parses text (fun ws => ∃ more, ws = val :: more) := by
  rw [ReadsBack, line, hparts, intercalate_triple, hdb, executeFile_eq_iff hop,
    ← parses_cons_iff]
  exact Parses.congr fun ws => by rw [hhandle, twoArguments_eq_iff hf]

theorem readsBack_counted (f : Bytes → ℕ → DbCall)
    (hparts : call.parts = [op, key, decimal n]) (hdb : call.db = f key n) (hop : Token op)
    (hhandle : ∀ ws, handle op ws = counted f ws) (hf : f.Injective2) (hn : n < 2 ^ 64) :
    ReadsBack call ↔ Token key := by
  rw [ReadsBack, line, hparts, intercalate_triple, hdb, executeFile_eq_iff hop]
  rw [Parses.congr fun ws => by rw [hhandle, counted_eq_iff hf], parses_cons_iff]
  exact and_iff_left (parses_decimal hn)

theorem readsBack_startStatFlush (b : BenchmarkerType) : ReadsBack (.startStatFlush b) := by
  cases b <;> rfl

theorem readsBack_endStatFlush (name : Bytes) (b : BenchmarkerType) :
    ReadsBack (.endStatFlush name b) ↔ (Call.endStatFlush name b).Plain := by
  have hletter : Token b.letter := by cases b <;> decide
  rw [ReadsBack, line, parts, intercalate_triple, db,
    request, executeFile_eq_iff (by decide)]
  have hhandle : ∀ ws, handle (ascii "FE") ws = flushEnd ws := fun _ => rfl
  rw [Parses.congr fun ws => by rw [hhandle, flushEnd_eq_iff], parses_cons_iff, parses_name_iff]
  exact and_iff_right hletter

/-- Of the calls that are printed, the plain ones are read back. -/
theorem readsBack_iff_plain (h : call.Printed) : ReadsBack call ↔ call.Plain := by
  cases call with
  | insert key val =>
    rw [readsBack_twoArguments (.insert key val) .insert rfl rfl (by decide) (fun _ => rfl)
      fun _ _ _ _ => DbCall.insert.inj, Value.parses_iff h]
    rfl
  | update key val =>
    rw [readsBack_twoArguments (.update key val) .update rfl rfl (by decide) (fun _ => rfl)
      fun _ _ _ _ => DbCall.update.inj, Value.parses_iff h]
    rfl
  | merge key val =>
    rw [readsBack_twoArguments (.merge key val) .merge rfl rfl (by decide) (fun _ => rfl)
      fun _ _ _ _ => DbCall.merge.inj, Value.parses_iff h]
    rfl
  | pointDelete key =>
    exact readsBack_oneArgument .pointDelete rfl rfl (by decide) (fun _ => rfl)
      fun _ _ => DbCall.pointDelete.inj
  | pointQuery key =>
    exact readsBack_oneArgument .pointQuery rfl rfl (by decide) (fun _ => rfl)
      fun _ _ => DbCall.pointQuery.inj
  | rangeQuery key1 key2 =>
    rw [readsBack_twoArguments (.rangeQuery key1 key2) .rangeQuery rfl rfl (by decide)
      (fun _ => rfl) fun _ _ _ _ => DbCall.rangeQuery.inj, parses_last_iff]
    rfl
  | rangeQueryCount key1 count =>
    exact readsBack_counted .rangeQueryCount rfl rfl (by decide) (fun _ => rfl)
      (fun _ _ _ _ => DbCall.rangeQueryCount.inj) h
  | rangeDelete key1 key2 =>
    rw [readsBack_twoArguments (.rangeDelete key1 key2) .rangeDelete rfl rfl (by decide)
      (fun _ => rfl) fun _ _ _ _ => DbCall.rangeDelete.inj, parses_last_iff]
    rfl
  | rangeDeleteCount key1 count =>
    exact readsBack_counted .rangeDeleteCount rfl rfl (by decide) (fun _ => rfl)
      (fun _ _ _ _ => DbCall.rangeDeleteCount.inj) h
  | startStatFlush b => exact iff_of_true (readsBack_startStatFlush b) trivial
  | endStatFlush name b => exact readsBack_endStatFlush name b

/-! ### The whole file -/

theorem executeFile_fileOf (h : ∀ e ∈ out, ReadsBack e.call) :
    executeFile (fileOf out) = (out.map fun e => e.call.db, .ok ()) := by
  induction out with
  | nil => rfl
  | cons e rest ih =>
    obtain ⟨hcall, hrest⟩ := forall_mem_cons.mp h
    have hfile : fileOf (e :: rest) = [32].intercalate e.call.parts ++ 10 :: fileOf rest := by
      simp [fileOf, line]
    have hlines : runLines (chunks isNewline (fileOf rest)) = _ := ih hrest
    have hall := runLines_append hcall (chunks isNewline (fileOf rest))
    rw [hlines] at hall
    rw [hfile, executeFile, chunks_append rfl]
    exact hall

theorem Change.printed {ρ S : Type} [KeySet S] {kind : KeySetKind} {occurs : Op → Prop}
    {g g' : Gen ρ S} (h : Change kind occurs g g') (hout : ∀ e ∈ g.out, e.call.Printed) :
    ∀ e ∈ g'.out, e.call.Printed := by
  have hadd (op : Option Op) (call : Call) (keys : S) (hcall : call.Printed) :
      ∀ e ∈ (g.addEvent op call keys).out, e.call.Printed :=
    forall_mem_append.mpr ⟨hout, forall_mem_singleton.mpr hcall⟩
  cases h with
  | draw | renew | sort | probe => exact hout
  | passive op call hcall => exact hadd _ _ _ (by cases hcall <;> first | exact trivial | assumption)
  | first op hop hempty key val hval | uniqueInsert hoccurs key hanswer val hval
  | upsert hoccurs key val hval => exact hadd _ _ _ hval
  | lookup op hoccurs key call hcall =>
    exact hadd _ _ _ (by cases hcall <;> first | exact trivial | assumption)
  | absent op hoccurs key call hcall => exact hadd _ _ _ (by cases hcall <;> exact trivial)
  | pointDelete | rangeDelete => exact hadd _ _ _ trivial
  | rangeDeleteCount hoccurs start stop p keys hremove key hget n hn => exact hadd _ _ _ hn

theorem generated_printed {ρ : Type} (w : World ρ) (workload : WorkloadSpec) :
    ∀ e ∈ (generated w workload).out, e.call.Printed := by
  obtain ⟨-, h⟩ := generated_rule w workload
    (I := fun _ s => ∀ e ∈ s.out, e.call.Printed)
    (by simp) (fun _ _ _ _ hs => hs) (fun _ _ _ _ _ _ h hchange => hchange.printed h)
    (fun _ _ _ _ _ h => h)
  exact h

/-- Every call that a workload prints is read back exactly if it is plain. If all of them are,
executing the file makes the calls of a direct run. -/
theorem generated_readsBack_iff_plain {ρ : Type} (w : World ρ) (workload : WorkloadSpec) :
    (∀ e ∈ (generated w workload).out, (ReadsBack e.call ↔ e.call.Plain)) ∧
      ((∀ e ∈ (generated w workload).out, e.call.Plain) →
        executeFile (fileOf (generated w workload).out) =
          ((generated w workload).out.map fun e => e.call.db, .ok ())) := by
  have hiff : ∀ e ∈ (generated w workload).out, (ReadsBack e.call ↔ e.call.Plain) :=
    fun e he => readsBack_iff_plain (generated_printed w workload e he)
  exact ⟨hiff, fun hplain => executeFile_fileOf fun e he => (hiff e he).mpr (hplain e he)⟩

def segmentedValue : WorkloadSpec where
  sections := [{ groups := [{
    inserts := some ⟨.constant 1, some (.constant (ascii "k")),
      some (.segmented (ascii "-") [.constant (ascii "a"), .constant (ascii "b")]), none⟩ }] }]

instance (call : Call) : Decidable (ReadsBack call) :=
  inferInstanceAs (Decidable (executeFile call.line = ([call.db], .ok ())))

/-- The file has the value with a separator at its end. -/
theorem not_readsBack_segmentedValue :
    (generateOperations tickWorld segmentedValue ⟨[], []⟩).1.isOk = true ∧
      (generated tickWorld segmentedValue).out.map (fun e => (e.call.db, executeFile e.call.line)) =
        [(.insert (ascii "k") (ascii "a-b"),
          [.insert (ascii "k") (ascii "a-b-")], .ok ())] ∧
      ¬ ∀ e ∈ (generated tickWorld segmentedValue).out, ReadsBack e.call := by
  decide +kernel

end ZenFs.Tectonic
