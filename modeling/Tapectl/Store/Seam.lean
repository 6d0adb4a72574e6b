import Tapectl.Library.Text

/-!
# The store seam and the search for the seal

`Store` is what the trait of `store.rs` answers, call by call: every operation takes the number of
calls made before it, so that a drive may answer the same question differently each time.
`locateSeal` transcribes `locate_seal` (and `readSmall` the bounded read under it) with the state
passed explicitly.

`Truthful` relates a store to the files really on the medium: a read that succeeds returns the
file's bytes, and nothing at or past the end of data; a query that succeeds tells the truth.
Both may fail at any call.
-/

namespace Tapectl.Seam

open StoredText

def smallFileCap : Nat := 16 * 1024 * 1024

/-- The store's answers. The first argument of each counts the calls made before. -/
structure Store where
  readFile : Nat → Nat → Except String Bytes
  eodAtOrBefore : Nat → Nat → Except String Bool
  filesOnMedium : Nat → Except String (Option Nat)
  blankAtBot : Nat → Except String Bool

/-- The first `maxBytes` of a file, or the whole file if it is shorter. -/
def Store.readFileHead (store : Store) (call position maxBytes : Nat) : Except String Bytes :=
  (store.readFile call position).map (List.take maxBytes)

inductive SmallRead where
  | bytes (bytes : Bytes)
  | oversized
  deriving DecidableEq, Repr

def readSmall (store : Store) (position call : Nat) : Except String SmallRead × Nat :=
  match store.readFileHead call position (smallFileCap + 1) with
  | .error message => (.error message, call + 1)
  | .ok bytes =>
    if bytes.length > smallFileCap then (.ok .oversized, call + 1)
    else (.ok (.bytes bytes), call + 1)

inductive SealLocation where
  | file (position : Nat) (bytes : Bytes)
  | oversized (position : Nat)
  | absent
  | unreadable (position : Nat) (error : String)
  deriving DecidableEq, Repr

/-- `store.eod_at_or_before(planned).unwrap_or(false)`. -/
def eodShown (store : Store) (planned call : Nat) : Bool :=
  match store.eodAtOrBefore call planned with
  | .ok answer => answer
  | .error _ => false

/-- The medium ends at or before the planned position: the seal, if there is one, is the last file
on it. `failed` is the error of the read at the planned position, `none` when it read nothing. -/
def locateLast (store : Store) (planned : Nat) (failed : Option String) (call : Nat) :
    SealLocation × Nat :=
  let unknown (why : String) : SealLocation × Nat :=
    let read := failed.getD "read nothing"
    (.unreadable planned (s!"{read}; the medium ends at or before file {planned}, but the files " ++
      s!"on it are not known: {why}"), call + 1)
  match store.filesOnMedium call with
  | .error message => unknown s!"counting them failed: {message}"
  | .ok none => unknown "the store cannot count them"
  | .ok (some files) =>
    if files ≤ planned then
      match files with
      | 0 => (.absent, call + 1)
      | last + 1 =>
        match readSmall store last (call + 1) with
        | (.ok (.bytes bytes), next) => (.file last bytes, next)
        | (.ok .oversized, next) => (.oversized last, next)
        | (.error message, next) => (.unreadable last message, next)
    else unknown s!"the store counts {files}, not fewer than {planned}"

def locateSeal (store : Store) (planned call : Nat) : SealLocation × Nat :=
  match readSmall store planned call with
  | (.ok .oversized, next) => (.oversized planned, next)
  | (.ok (.bytes bytes), next) =>
    if bytes ≠ [] then (.file planned bytes, next)
    -- No byte came back: a filemark-only file, unless the medium shows its end.
    else if !eodShown store planned next then (.file planned bytes, next + 1)
    else locateLast store planned none (next + 1)
  | (.error message, next) =>
    if !eodShown store planned next then (.unreadable planned message, next + 1)
    else locateLast store planned (some message) (next + 1)

variable (files : List Bytes)

/-- What a successful read of a position returns: the file's bytes, and no byte past the end. -/
def delivered (position : Nat) : Bytes := (files[position]?).getD []

theorem delivered_past_end {files : List Bytes} {position : Nat}
    (past : files.length ≤ position) : delivered files position = [] := by
  rw [delivered, List.getElem?_eq_none past]
  rfl

/-- Every answer the store gives about `files` is true; any call may fail instead. -/
structure Truthful (store : Store) (files : List Bytes) : Prop where
  read : ∀ call position bytes, store.readFile call position = .ok bytes →
    bytes = delivered files position
  eod : ∀ call position answer, store.eodAtOrBefore call position = .ok answer →
    answer = decide (files.length ≤ position)
  count : ∀ call number, store.filesOnMedium call = .ok (some number) → number = files.length
  blank : ∀ call answer, store.blankAtBot call = .ok answer → answer = decide (files = [])

def steadyStore : Store where
  readFile _ position := .ok (delivered files position)
  eodAtOrBefore _ position := .ok (decide (files.length ≤ position))
  filesOnMedium _ := .ok (some files.length)
  blankAtBot _ := .ok (decide (files = []))

theorem steady_store_truthful : Truthful (steadyStore files) files where
  read _ _ _ answered := (Except.ok.inj answered).symm
  eod _ _ _ answered := (Except.ok.inj answered).symm
  count _ _ answered := (Option.some.inj (Except.ok.inj answered)).symm
  blank _ _ answered := (Except.ok.inj answered).symm

theorem read_small_cases {store : Store} {files : List Bytes} (truthful : Truthful store files)
    (position call : Nat) :
    (∃ message, readSmall store position call = (.error message, call + 1) ∧
      store.readFile call position = .error message) ∨
    (readSmall store position call = (.ok (.bytes (delivered files position)), call + 1) ∧
      store.readFile call position = .ok (delivered files position) ∧
      (delivered files position).length ≤ smallFileCap) ∨
    (readSmall store position call = (.ok .oversized, call + 1) ∧
      store.readFile call position = .ok (delivered files position) ∧
      smallFileCap < (delivered files position).length) := by
  unfold readSmall Store.readFileHead
  cases read : store.readFile call position with
  | error message => exact Or.inl ⟨message, rfl, rfl⟩
  | ok bytes =>
    right
    rw [truthful.read call position bytes read]
    simp only [Except.map, List.length_take]
    by_cases small : (delivered files position).length ≤ smallFileCap
    · left
      have whole : (delivered files position).take (smallFileCap + 1) = delivered files position :=
        List.take_of_length_le (by omega)
      rw [if_neg (by omega), whole]
      exact ⟨rfl, trivial, small⟩
    · right
      rw [if_pos (by omega)]
      exact ⟨rfl, trivial, by omega⟩

/-- What the location says is true of the medium: a file that is there with its own bytes, a file
over the cap, or no file at all. An unreadable seal says nothing. -/
def SealLocation.TrueOf : SealLocation → Prop
  | .file position bytes => files[position]? = some bytes
  | .oversized position => ∃ bytes, files[position]? = some bytes ∧ smallFileCap < bytes.length
  | .absent => files = []
  | .unreadable _ _ => True

theorem held_of_delivered_ne_nil {files : List Bytes} {position : Nat}
    (some : delivered files position ≠ []) :
    files[position]? = .some (delivered files position) := by
  unfold delivered at some ⊢
  cases held : files[position]? with
  | none =>
    rw [held] at some
    exact absurd rfl some
  | some bytes => rfl

theorem oversized_true {files : List Bytes} {position : Nat}
    (large : smallFileCap < (delivered files position).length) :
    (SealLocation.oversized position).TrueOf files := by
  refine ⟨delivered files position, held_of_delivered_ne_nil ?_, large⟩
  intro empty
  rw [empty] at large
  exact absurd large (Nat.not_lt_zero _)

theorem locate_last_true {store : Store} {files : List Bytes} (truthful : Truthful store files)
    (planned : Nat) (failed : Option String) (call : Nat) :
    (locateLast store planned failed call).1.TrueOf files := by
  unfold locateLast
  cases counted : store.filesOnMedium call with
  | error message => trivial
  | ok answer =>
    cases answer with
    | none => trivial
    | some number =>
      obtain rfl := truthful.count call number counted
      by_cases before : files.length ≤ planned
      · simp only [before, if_true]
        cases size : files.length with
        | zero => exact List.length_eq_zero_iff.mp size
        | succ last =>
          have held : files[last]? = some (delivered files last) := by
            rw [delivered, List.getElem?_eq_getElem (by omega)]
            rfl
          rcases read_small_cases truthful last (call + 1) with
            ⟨message, read, _⟩ | ⟨read, _, _⟩ | ⟨read, _, large⟩
          · simp only [read]
            trivial
          · simp only [read]
            exact held
          · simp only [read]
            exact ⟨_, held, large⟩
      · simp only [before, if_false]
        trivial

/-- The search lies in one case: the planned position is past the end, the read there returned no
byte, and the query that tells an empty file from the end of data failed. Its failure is taken for
the answer no, and a file is reported where there is none. -/
theorem locate_seal_true_iff {store : Store} {files : List Bytes}
    (truthful : Truthful store files) (planned call : Nat) :
    (locateSeal store planned call).1.TrueOf files ↔
      ¬ (files.length ≤ planned ∧ store.readFile call planned = .ok [] ∧
        ∃ message, store.eodAtOrBefore (call + 1) planned = .error message) := by
  rcases read_small_cases truthful planned call with
    ⟨message, small, read⟩ | ⟨small, read, _⟩ | ⟨small, read, large⟩
  · -- The read failed: only a proven end of data leads on.
    have honest : (locateSeal store planned call).1.TrueOf files := by
      simp only [locateSeal, small]
      split
      · trivial
      · exact locate_last_true truthful planned (some message) _
    refine iff_of_true honest ?_
    rintro ⟨_, empty, _⟩
    rw [read] at empty
    cases empty
  · by_cases nothing : delivered files planned = []
    · -- No byte came back: the end-of-data query decides.
      rw [nothing] at small read
      simp only [locateSeal, small, ne_eq, not_true_eq_false, if_false]
      cases asked : store.eodAtOrBefore (call + 1) planned with
      | error message =>
        have hidden : eodShown store planned (call + 1) = false := by rw [eodShown, asked]
        simp only [hidden, Bool.not_false, if_true, SealLocation.TrueOf]
        by_cases past : files.length ≤ planned
        · rw [List.getElem?_eq_none past]
          simp [past, read]
        · have held : files[planned]? = some [] := by
            rw [← nothing, delivered, List.getElem?_eq_getElem (by omega)]
            rfl
          simp [held, past]
      | ok answer =>
        have told := truthful.eod _ _ _ asked
        refine iff_of_true ?_ (by simp)
        cases answer with
        | true =>
          have shown : eodShown store planned (call + 1) = true := by rw [eodShown, asked]
          simp only [shown, Bool.not_true, Bool.false_eq_true, if_false]
          exact locate_last_true truthful planned none _
        | false =>
          have hidden : eodShown store planned (call + 1) = false := by rw [eodShown, asked]
          simp only [hidden, Bool.not_false, if_true, SealLocation.TrueOf]
          have inside : ¬ files.length ≤ planned := of_decide_eq_false told.symm
          rw [← nothing, delivered, List.getElem?_eq_getElem (by omega)]
          rfl
    · have honest : (locateSeal store planned call).1.TrueOf files := by
        simp only [locateSeal, small, ne_eq, nothing, not_false_eq_true, if_true]
        exact held_of_delivered_ne_nil nothing
      refine iff_of_true honest ?_
      rintro ⟨_, empty, _⟩
      rw [read] at empty
      exact nothing (Except.ok.inj empty)
  · have honest : (locateSeal store planned call).1.TrueOf files := by
      simp only [locateSeal, small]
      exact oversized_true large
    refine iff_of_true honest ?_
    rintro ⟨past, _, _⟩
    rw [delivered_past_end past] at large
    exact absurd large (Nat.not_lt_zero _)

theorem locate_seal_true_at_short_medium :
    Truthful (steadyStore [[1], [2]]) [[1], [2]] ∧
      ((locateSeal (steadyStore [[1], [2]]) 5 0).1.TrueOf [[1], [2]] ↔
        ¬ (2 ≤ 5 ∧ (steadyStore [[1], [2]]).readFile 0 5 = .ok [] ∧
          ∃ message, (steadyStore [[1], [2]]).eodAtOrBefore 1 5 = .error message)) :=
  ⟨steady_store_truthful _, locate_seal_true_iff (steady_store_truthful [[1], [2]]) 5 0⟩

theorem locate_seal_last {files : List Bytes} {planned last : Nat} (ends : files.length = last + 1)
    (after : last ≤ planned) (call : Nat) : (locateSeal (steadyStore files) planned call).1 =
      if smallFileCap < (delivered files last).length then .oversized last
      else .file last (delivered files last) := by
  have whole : ¬ smallFileCap < (delivered files last).length →
      (delivered files last).take (smallFileCap + 1) = delivered files last :=
    fun small => List.take_of_length_le (by omega)
  simp only [locateSeal, locateLast, readSmall, Store.readFileHead, steadyStore, Except.map, eodShown, ends]
  rcases Nat.lt_or_eq_of_le after with past | rfl
  · have nothing : delivered files planned = [] := delivered_past_end (ends.trans_le past)
    by_cases large : smallFileCap < (delivered files last).length <;> simp [nothing, past, large, whole]
  · by_cases large : smallFileCap < (delivered files last).length
    · simp [large]
    · simp only [gt_iff_lt, large, if_false, whole large]
      split <;> simp

/-- The drive of the counterexample: every read works, and the end-of-data query fails. -/
def deafStore : Store :=
  { steadyStore files with eodAtOrBefore := fun _ _ => .error "input/output error" }

/-- On a medium of two files, a search planned at file 5 reports a file 5. -/
theorem locate_seal_invents_file :
    Truthful (deafStore [[1], [2]]) [[1], [2]] ∧
      (locateSeal (deafStore [[1], [2]]) 5 0).1 = .file 5 [] ∧
      ¬ (locateSeal (deafStore [[1], [2]]) 5 0).1.TrueOf [[1], [2]] := by
  have found : (locateSeal (deafStore [[1], [2]]) 5 0).1 = .file 5 [] := by decide
  refine ⟨?_, found, ?_⟩
  · exact
      { steady_store_truthful [[1], [2]] with
        eod := fun _ _ _ answered => by cases answered }
  · rw [found]
    simp [SealLocation.TrueOf]

end Tapectl.Seam
