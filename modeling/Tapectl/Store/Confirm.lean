import Tapectl.Store.Seam
import Tapectl.Volume.Format
import Tapectl.Volume.LayoutModel

/-!
# The confirm chain walk

A transcription of `chain_walk` of `store.rs` with everything under it: the seal's gate, the files
held ahead of the front index, the front index with its self-consistency and Layout checks, the
readback of content files with its checkpoints, and the judgement that puts the seal's verdict in
front of the rest.

A read is numbered by the calls made before it, and answers with the bytes it delivered (whose
count it reports) or with an error; a sink that refuses bytes turns the read into an error, as the
stores do. `passed` is what `on_passed` was told, in order.
-/

namespace Tapectl.Confirm

open StoredText Tapectl.Volume Tapectl.Volume.Format
open Tapectl.Seam (smallFileCap)

inductive Tier where
  | navigable
  | integrity
  deriving DecidableEq, Repr

inductive ReadOrder where
  | sealFirst
  | sealLast
  deriving DecidableEq, Repr

inductive MismatchKind where
  | sealUnreadable
  | frontIndexUnreadable
  | frontIndexInconsistent
  | frontIndexDivergesFromSeal
  | navigationDisagreement
  | contentHashMismatch
  | contentUnreadable
  | endedAfterDisagrees
  deriving DecidableEq, Repr

def MismatchKind.provesMediumBad : MismatchKind → Bool
  | .contentHashMismatch => true
  | .frontIndexDivergesFromSeal => true
  | .frontIndexInconsistent => true
  | .navigationDisagreement => true
  | .contentUnreadable => false
  | .frontIndexUnreadable => false
  | .sealUnreadable => false
  | .endedAfterDisagrees => false

structure Mismatch where
  position : Nat
  kind : MismatchKind
  expected : String
  actual : String
  deriving DecidableEq, Repr

structure Evidence where
  tier : Tier
  filesChecked : Nat
  mismatches : List Mismatch
  deriving DecidableEq, Repr

def Evidence.endingDisagrees (evidence : Evidence) : Bool :=
  evidence.mismatches.any fun mismatch => mismatch.kind == .endedAfterDisagrees

def Evidence.mediumEvidence (evidence : Evidence) : List Mismatch :=
  if evidence.endingDisagrees then []
  else evidence.mismatches.filter fun mismatch => mismatch.kind.provesMediumBad

def Evidence.provesMediumBad (evidence : Evidence) : Bool := !evidence.mediumEvidence.isEmpty

/-- What an interrupted readback already read back clean, by position. -/
structure Checkpoints where
  frontIndexSha256 : String
  passed : Nat → Option String

structure Checkpoint where
  position : Nat
  sha256 : String
  frontIndexSha256 : String
  deriving DecidableEq, Repr

structure ConfirmPlan where
  tier : Tier
  order : ReadOrder
  resume : Option Checkpoints
  endedAfter : Option Nat
  readback : Option Nat

/-- What the walk runs against: the TOML library, sha256, the drive, and the signal flag as the walk
finds it before an entry of the front index, by the entries left after it. -/
structure Environment where
  crate : Toml.Crate
  sha256Hex : Bytes → String
  read : Nat → Nat → Except String Bytes
  signalled : Nat → Bool

structure WalkEnding where
  endedAfter : Nat
  plannedSeal : Nat
  readback : Option Nat
  deriving DecidableEq, Repr

def WalkEnding.of (plan : ConfirmPlan) (fiPos plannedSeal : Nat) : Except String WalkEnding := do
  let endedAfter ← match plan.endedAfter with
    | none =>
      if 1 ≤ plannedSeal then .ok (plannedSeal - 1)
      else .error "layout's seal_marker entry is at position 0"
    | some k =>
      if fiPos < k ∧ k < plannedSeal then .ok k
      else .error (s!"the confirm plan's ended_after = {k} is not a file between the front " ++
        s!"index (file {fiPos}) and the planned seal (file {plannedSeal})")
  match plan.readback with
  | some p =>
    if p ≤ fiPos ∨ endedAfter < p then
      .error (s!"the confirm plan reads back file {p}, which is not a content file between " ++
        s!"the front index (file {fiPos}) and ended_after = {endedAfter}")
    else .ok { endedAfter, plannedSeal, readback := some p }
  | none => .ok { endedAfter, plannedSeal, readback := none }

def WalkEnding.sealPosition (ending : WalkEnding) : Nat := ending.endedAfter + 1

def WalkEnding.isShort (ending : WalkEnding) : Bool :=
  decide (ending.sealPosition < ending.plannedSeal)

/-- A read into `SmallSink`, which refuses more than the cap. -/
def intoSmallSink (answer : Except String Bytes) : Except String Bytes :=
  match answer with
  | .error message => .error message
  | .ok bytes =>
    if bytes.length > smallFileCap then
      .error "sink write: larger than 16 MiB: not a tapectl file"
    else .ok bytes

inductive SealRead where
  | refused (filesChecked : Nat) (mismatch : Mismatch)
  | bound (frontIndexSha256 : String) (endedAfter : Option Nat)
  deriving DecidableEq, Repr

def quotedList (items : List String) : String :=
  ", ".intercalate (items.map fun item => s!"\"{item}\"")

variable (env : Environment)

def sealVerdict (ending : WalkEnding) (answer : Except String Bytes) : SealRead :=
  let refuse (filesChecked : Nat) (expected actual : String) : SealRead :=
    .refused filesChecked
      { position := ending.sealPosition, kind := .sealUnreadable, expected, actual }
  match intoSmallSink answer with
  | .error message => refuse 0 "seal marker present and readable" s!"read failed: {message}"
  | .ok bytes =>
    match parseSealMarker env.crate (fromUtf8Lossy bytes) with
    | .error message => refuse 1 "seal marker parses" s!"parse failed: {message}"
    | .ok parsed =>
      match parsed.refusal with
      | some why => refuse 1 "a seal marker this tapectl can read" why
      | none =>
        if ending.isShort && !parsed.requiresShortSeal then
          let planned := ending.plannedSeal
          let stated := quotedList parsed.requires
          refuse 1
            (s!"a short seal requiring \"{shortSeal}\" before the planned seal position " ++
              s!"{planned}")
            (s!"a seal marker stating requires = [{stated}], which is no seal before the " ++
              "planned position (volume-format-v2.md §1.2 rule 6)")
        else .bound parsed.frontIndexSha256 parsed.effectiveEndedAfter

def readSeal (ending : WalkEnding) (call : Nat) : SealRead × Nat :=
  (sealVerdict env ending (env.read call ending.sealPosition), call + 1)

def aheadOfIndexCap : Nat := 16 * 1024 * 1024

inductive Held where
  | bytes (bytes : Bytes)
  | failed (error : String)
  deriving DecidableEq, Repr

/-- Which files are read ahead of the front index, in ascending order. -/
def aheadPositions (layout : Layout) (fiPos : Nat) (resume : Option Checkpoints) : List Nat :=
  let block := max layout.blockSize 1
  let ahead := layout.entries.filter fun entry =>
    decide (asU32 entry.position < fiPos) &&
    entry.kind != .frontIndex && entry.kind != .sealMarker &&
    !(match resume with
      | some checkpoints => (checkpoints.passed (asU32 entry.position)).isSome
      | none => false) &&
    (match entry.sizeBytes with
      | some size => decide (padToBlocks size block ≤ aheadOfIndexCap)
      | none => false)
  ((ahead.map fun entry => asU32 entry.position).insertionSort (· ≤ ·)).dedup

/-- Read `positions` in order; a file larger than the cap is not kept. -/
def holdFiles (env : Environment) : List Nat → Nat → List (Nat × Held) × Nat
  | [], call => ([], call)
  | position :: positions, call =>
    let (rest, next) := holdFiles env positions (call + 1)
    match env.read call position with
    | .ok bytes =>
      if bytes.length > aheadOfIndexCap then (rest, next)
      else ((position, .bytes bytes) :: rest, next)
    | .error message => ((position, .failed message) :: rest, next)

structure FromIndex where
  filesChecked : Nat
  frontIndexSha256 : Option String
  mismatches : List Mismatch
  deriving DecidableEq, Repr

/-- File 3 as it came back: the walk stops, or goes on with its hash and its entries. -/
inductive IndexRead where
  | stopped (result : FromIndex)
  | parsed (hash : String) (entries : List ParsedIndexEntry)
  deriving DecidableEq, Repr

def indexVerdict (fiPos fiTrueLen : Nat) (answer : Except String Bytes) : IndexRead :=
  let unreadable (expected actual : String) : Mismatch :=
    { position := fiPos, kind := .frontIndexUnreadable, expected, actual }
  match intoSmallSink answer with
  | .error message =>
    .stopped
      { filesChecked := 0
        frontIndexSha256 := none
        mismatches :=
          [unreadable "front index present and readable" s!"read failed: {message}"] }
  | .ok bytes =>
    if fiTrueLen > bytes.length then
      let count := bytes.length
      .stopped
        { filesChecked := 1
          frontIndexSha256 := none
          mismatches :=
            [unreadable s!"{fiTrueLen} on-tape bytes" s!"only {count} bytes read back"] }
    else
      let trueBytes := bytes.take fiTrueLen
      let hash := env.sha256Hex trueBytes
      match parseFrontIndex env.crate (fromUtf8Lossy trueBytes) with
      | .error message =>
        .stopped
          { filesChecked := 1
            frontIndexSha256 := some hash
            mismatches := [unreadable "front index parses" s!"parse failed: {message}"] }
      | .ok entries => .parsed hash entries

def consistencyMismatches (fiPos : Nat) (entries : List ParsedIndexEntry) : List Mismatch :=
  (validateConsistency entries).map fun violation =>
    { position := fiPos
      kind := .frontIndexInconsistent
      expected := "front index entries are self-consistent (§2.5)"
      actual := violation.display }

def entryMismatches (claims : List ParsedIndexEntry) (entry : LayoutEntry) : List Mismatch :=
  let disagreement (expected actual : String) : Mismatch :=
    { position := asU32 entry.position, kind := .navigationDisagreement, expected, actual }
  match claims.find? fun claim => claim.position == entry.position with
  | none =>
    let position := entry.position
    [disagreement s!"front index lists position {position}" "missing from front index"]
  | some claim =>
    (if claim.typeLabel ≠ entry.kind.typeLabel then
      [disagreement entry.kind.typeLabel claim.typeLabel] else []) ++
    (match claim.sizeBytes, entry.sizeBytes with
      | some stated, some planned =>
        if stated ≠ planned then
          [disagreement s!"size_bytes {planned}" s!"size_bytes {stated}"] else []
      | _, _ => [])

def layoutMismatches (claims : List ParsedIndexEntry) (layout : Layout) : List Mismatch :=
  layout.entries.flatMap (entryMismatches claims)

/-- What reading one content file back adds to the walk: whether it counts, what is wrong with it,
and its hash when it read back clean. -/
structure ReadBack where
  checked : Nat
  mismatches : List Mismatch
  clean : Option String
  deriving DecidableEq, Repr

def contentVerdict (position : Nat) (wantHash : String) (wantSize : Nat)
    (answer : Except String Bytes) : ReadBack :=
  let broken (checked : Nat) (kind : MismatchKind) (expected actual : String) : ReadBack :=
    { checked, mismatches := [{ position, kind, expected, actual }], clean := none }
  match answer with
  | .error message => broken 0 .contentUnreadable "file readable" s!"read failed: {message}"
  | .ok bytes =>
    if wantSize > bytes.length then
      let count := bytes.length
      broken 1 .contentUnreadable s!"{wantSize} on-tape bytes" s!"only {count} bytes read back"
    else
      let actualHash := env.sha256Hex (bytes.take wantSize)
      if actualHash ≠ wantHash then broken 1 .contentHashMismatch wantHash actualHash
      else { checked := 1, mismatches := [], clean := some wantHash }

def Held.answer : Held → Except String Bytes
  | .bytes content => .ok content
  | .failed message => .error message

def readBackClaim (claim : ParsedIndexEntry) (held : Option Held) (call : Nat) : ReadBack × Nat :=
  let position := asU32 claim.position
  match claim.sha256Encrypted, claim.sizeBytes with
  | some wantHash, some wantSize =>
    match held with
    | some file => (contentVerdict env position wantHash wantSize file.answer, call)
    | none => (contentVerdict env position wantHash wantSize (env.read call position), call + 1)
  | _, _ =>
    ({ checked := 0
       mismatches :=
         [{ position
            kind := .navigationDisagreement
            expected := "front index carries size_bytes + sha256_encrypted"
            actual := "one or both missing for a content file" }]
       clean := none }, call)

structure Progress where
  filesChecked : Nat
  mismatches : List Mismatch
  passed : List Checkpoint
  deriving DecidableEq, Repr

/-- The pass over the content files: what it accumulated, and why it stopped before its end. -/
structure Contents where
  stopped : Option String
  progress : Progress
  deriving DecidableEq, Repr

/-- Whether an earlier readback stands for this claim: the recorded hash is the claim's, the claim
is complete, and the file is not the one read back on every confirm. -/
def alreadyPassed (resume : Option Checkpoints) (ending : WalkEnding) (claim : ParsedIndexEntry) :
    Option String :=
  let position := asU32 claim.position
  match resume, claim.sha256Encrypted, claim.sizeBytes with
  | some checkpoints, some want, some _ =>
    if ending.readback = some position then none
    else if checkpoints.passed position = some want then some want
    else none
  | _, _, _ => none

def readContents (env : Environment) (fiPos : Nat) (ending : WalkEnding)
    (resume : Option Checkpoints) (held : List (Nat × Held)) (fiHash : String) :
    List ParsedIndexEntry → Progress → Nat → Contents × Nat
  | [], progress, call => (⟨none, progress⟩, call)
  | claim :: claims, progress, call =>
    let position := asU32 claim.position
    let recorded (hash : String) : Checkpoint := ⟨position, hash, fiHash⟩
    if position = fiPos ∨ ending.endedAfter < position then
      readContents env fiPos ending resume held fiHash claims progress call
    else match alreadyPassed resume ending claim with
      | some want =>
        readContents env fiPos ending resume held fiHash claims
          { progress with
            filesChecked := progress.filesChecked + 1
            passed := progress.passed ++ [recorded want] } call
      | none =>
        if env.signalled claims.length then
          let checked := progress.filesChecked
          (⟨some (s!"stopped by a signal: stopped reading the tape back before file " ++
            s!"{position} ({checked} files checked besides the seal)"), progress⟩, call)
        else
          let (result, next) := readBackClaim env claim (held.lookup position) call
          readContents env fiPos ending resume held fiHash claims
            { filesChecked := progress.filesChecked + result.checked
              mismatches := progress.mismatches ++ result.mismatches
              passed := progress.passed ++
                (match result.clean with
                  | some want => [recorded want]
                  | none => []) } next

/-- The navigable tier's one content file: the entry written past the early warning. -/
def readBackPastWarning (claims : List ParsedIndexEntry)
    (ending : WalkEnding) (mismatches : List Mismatch) (call : Nat) : ReadBack × Nat :=
  match ending.readback with
  | none => ({ checked := 0, mismatches := [], clean := none }, call)
  | some p =>
    match claims.find? fun claim => asU32 claim.position == p with
    | some claim => readBackClaim env claim none call
    | none =>
      if mismatches.any fun mismatch => mismatch.position == p then
        ({ checked := 0, mismatches := [], clean := none }, call)
      else
        ({ checked := 0
           mismatches :=
             [{ position := p
                kind := .navigationDisagreement
                expected := s!"front index lists position {p}, the file written past the " ++
                  "early warning"
                actual := "missing from front index" }]
           clean := none }, call)

/-- The outcome of the part of the walk the seal does not decide, with the checkpoints it reported
(also when a signal stopped it). -/
structure Walked where
  outcome : Except String FromIndex
  passed : List Checkpoint

def Contents.walked (contents : Contents) (fiHash : String) : Walked where
  outcome := match contents.stopped with
    | some message => .error message
    | none =>
      .ok { filesChecked := contents.progress.filesChecked
            frontIndexSha256 := some fiHash
            mismatches := contents.progress.mismatches }
  passed := contents.progress.passed

def walkFromIndex (layout : Layout) (plan : ConfirmPlan) (fiPos : Nat)
    (ending : WalkEnding) (fiTrueLen call : Nat) : Walked × Nat :=
  let resume := if plan.tier = .integrity then plan.resume else none
  let (held, afterHeld) :=
    if plan.tier = .integrity then holdFiles env (aheadPositions layout fiPos resume) call
    else ([], call)
  match indexVerdict env fiPos fiTrueLen (env.read afterHeld fiPos) with
  | .stopped result => (⟨.ok result, []⟩, afterHeld + 1)
  | .parsed fiHash claims =>
    let found := consistencyMismatches fiPos claims ++ layoutMismatches claims layout
    match plan.tier with
    | .navigable =>
      let (result, next) := readBackPastWarning env claims ending found (afterHeld + 1)
      (⟨.ok { filesChecked := 1 + result.checked
              frontIndexSha256 := some fiHash
              mismatches := found ++ result.mismatches }, []⟩, next)
    | .integrity =>
      -- Checkpoints stand only for the front index they were taken against.
      let honoured := resume.filter fun checkpoints => checkpoints.frontIndexSha256 == fiHash
      let (contents, next) := readContents env fiPos ending honoured held fiHash claims
        { filesChecked := 1, mismatches := found, passed := [] } (afterHeld + 1)
      (contents.walked fiHash, next)

def judge (tier : Tier) (fiPos : Nat) (ending : WalkEnding) (sealRead : SealRead)
    (rest : FromIndex) : Evidence :=
  match sealRead with
  | .refused filesChecked mismatch => { tier, filesChecked, mismatches := [mismatch] }
  | .bound bound endedAfter =>
    let diverges := match rest.frontIndexSha256 with
      | some fiHash =>
        if fiHash ≠ bound then
          [{ position := fiPos
             kind := .frontIndexDivergesFromSeal
             expected := bound
             actual := fiHash }]
        else []
      | none => []
    let disagrees :=
      if endedAfter ≠ some ending.endedAfter then
        let wanted := ending.endedAfter
        [{ position := ending.sealPosition
           kind := .endedAfterDisagrees
           expected := s!"ended_after = {wanted}, where the catalog says the tape ended"
           actual := match endedAfter with
             | some k => s!"ended_after = {k}"
             | none => "no ended_after" }]
      else []
    { tier
      filesChecked := 1 + rest.filesChecked
      mismatches := diverges ++ disagrees ++ rest.mismatches }

/-- A whole confirm: what it returns, and the checkpoints it reported on the way. -/
structure Confirmed where
  outcome : Except String Evidence
  passed : List Checkpoint

structure WalkStart where
  fiPos : Nat
  fiTrueLen : Nat
  ending : WalkEnding
  deriving DecidableEq, Repr

def walkStart (layout : Layout) (plan : ConfirmPlan) : Except String WalkStart :=
  match layout.entries.find? fun entry => entry.kind == .sealMarker with
  | none => .error "layout has no seal_marker entry"
  | some sealEntry =>
    match layout.entries.find? fun entry => entry.kind == .frontIndex with
    | none => .error "layout has no front_index entry"
    | some fiEntry =>
      match fiEntry.sizeBytes with
      | none => .error "layout's front_index entry has no size_bytes"
      | some fiTrueLen =>
        let fiPos := asU32 fiEntry.position
        match WalkEnding.of plan fiPos (asU32 sealEntry.position) with
        | .error message => .error message
        | .ok ending => .ok { fiPos, fiTrueLen, ending }

def finishWalk (tier : Tier) (start : WalkStart) (sealRead : SealRead) (walked : Walked) :
    Confirmed where
  outcome := match walked.outcome with
    | .error message => .error message
    | .ok rest => .ok (judge tier start.fiPos start.ending sealRead rest)
  passed := walked.passed

def chainWalk (layout : Layout) (plan : ConfirmPlan) : Confirmed :=
  match walkStart layout plan with
  | .error message => ⟨.error message, []⟩
  | .ok start =>
    if plan.tier = .integrity ∧ plan.order = .sealFirst then
      match readSeal env start.ending 0 with
      | (.refused filesChecked mismatch, _) =>
        ⟨.ok { tier := plan.tier, filesChecked, mismatches := [mismatch] }, []⟩
      | (.bound hash endedAfter, next) =>
        finishWalk plan.tier start (.bound hash endedAfter)
          (walkFromIndex env layout plan start.fiPos start.ending start.fiTrueLen next).1
    else
      let (walked, next) :=
        walkFromIndex env layout plan start.fiPos start.ending start.fiTrueLen 0
      finishWalk plan.tier start (readSeal env start.ending next).1 walked

section Equations

variable {env : Environment} {layout : Layout} {plan : ConfirmPlan} {start : WalkStart}

theorem chain_walk_not_started {message : String}
    (failed : walkStart layout plan = .error message) :
    chainWalk env layout plan = ⟨.error message, []⟩ := by
  rw [chainWalk, failed]

theorem chain_walk_seal_last (started : walkStart layout plan = .ok start)
    (last : ¬ (plan.tier = .integrity ∧ plan.order = .sealFirst)) :
    chainWalk env layout plan =
      finishWalk plan.tier start
        (readSeal env start.ending (walkFromIndex env layout plan start.fiPos start.ending
          start.fiTrueLen 0).2).1
        (walkFromIndex env layout plan start.fiPos start.ending start.fiTrueLen 0).1 := by
  rw [chainWalk, started]
  exact if_neg last

theorem chain_walk_refused_first {filesChecked : Nat} {mismatch : Mismatch}
    (started : walkStart layout plan = .ok start)
    (first : plan.tier = .integrity ∧ plan.order = .sealFirst)
    (refused : (readSeal env start.ending 0).1 = .refused filesChecked mismatch) :
    chainWalk env layout plan =
      ⟨.ok { tier := plan.tier, filesChecked, mismatches := [mismatch] }, []⟩ := by
  rw [chainWalk, started]
  simp only [first, and_self, if_true]
  simp only [readSeal] at refused ⊢
  rw [refused]

theorem chain_walk_bound_first {hash : String} {endedAfter : Option Nat}
    (started : walkStart layout plan = .ok start)
    (first : plan.tier = .integrity ∧ plan.order = .sealFirst)
    (bound : (readSeal env start.ending 0).1 = .bound hash endedAfter) :
    chainWalk env layout plan =
      finishWalk plan.tier start (.bound hash endedAfter)
        (walkFromIndex env layout plan start.fiPos start.ending start.fiTrueLen 1).1 := by
  rw [chainWalk, started]
  simp only [first, and_self, if_true]
  simp only [readSeal] at bound ⊢
  rw [bound]

theorem finish_walk_ok {tier : Tier} {sealRead : SealRead} {walked : Walked} {rest : FromIndex}
    (finished : walked.outcome = .ok rest) :
    (finishWalk tier start sealRead walked).outcome =
      .ok (judge tier start.fiPos start.ending sealRead rest) := by
  simp only [finishWalk, finished]

theorem walk_from_index_navigable_stopped {fiPos fiTrueLen call : Nat} {ending : WalkEnding}
    {result : FromIndex} (tier : plan.tier = .navigable)
    (stopped : indexVerdict env fiPos fiTrueLen (env.read call fiPos) = .stopped result) :
    walkFromIndex env layout plan fiPos ending fiTrueLen call = (⟨.ok result, []⟩, call + 1) := by
  simp [walkFromIndex, tier, stopped]

theorem walk_from_index_navigable {fiPos fiTrueLen call : Nat} {ending : WalkEnding}
    {hash : String} {claims : List ParsedIndexEntry} (tier : plan.tier = .navigable)
    (noReadback : ending.readback = none)
    (parsed : indexVerdict env fiPos fiTrueLen (env.read call fiPos) = .parsed hash claims) :
    walkFromIndex env layout plan fiPos ending fiTrueLen call =
      (⟨.ok ⟨1, some hash, consistencyMismatches fiPos claims ++ layoutMismatches claims layout⟩,
        []⟩, call + 1) := by
  simp [walkFromIndex, tier, parsed, readBackPastWarning, noReadback]

/-- Evidence is a refused seal on its own, or the judgement of one reading of the seal and one walk
over the rest. -/
theorem chain_walk_ok {evidence : Evidence}
    (confirmed : (chainWalk env layout plan).outcome = .ok evidence) :
    ∃ start sealCall, walkStart layout plan = .ok start ∧
      ((∃ filesChecked mismatch,
          (readSeal env start.ending sealCall).1 = .refused filesChecked mismatch ∧
          evidence = { tier := plan.tier, filesChecked, mismatches := [mismatch] }) ∨
        ∃ walkCall rest,
          (walkFromIndex env layout plan start.fiPos start.ending start.fiTrueLen
            walkCall).1.outcome = .ok rest ∧
          evidence = judge plan.tier start.fiPos start.ending
            (readSeal env start.ending sealCall).1 rest) := by
  cases started : walkStart layout plan with
  | error message =>
    rw [chain_walk_not_started started] at confirmed
    cases confirmed
  | ok start =>
    have finished : ∀ sealRead walked, (finishWalk plan.tier start sealRead walked).outcome =
        .ok evidence → ∃ rest, walked.outcome = .ok rest ∧
          evidence = judge plan.tier start.fiPos start.ending sealRead rest := by
      intro sealRead walked same
      cases outcome : walked.outcome with
      | error message =>
        simp only [finishWalk, outcome] at same
        cases same
      | ok rest =>
        simp only [finishWalk, outcome] at same
        exact ⟨rest, rfl, (Except.ok.inj same).symm⟩
    by_cases first : plan.tier = .integrity ∧ plan.order = .sealFirst
    · cases sealRead : (readSeal env start.ending 0).1 with
      | refused filesChecked mismatch =>
        rw [chain_walk_refused_first started first sealRead] at confirmed
        exact ⟨start, 0, rfl, Or.inl ⟨filesChecked, mismatch, sealRead,
          (Except.ok.inj confirmed).symm⟩⟩
      | bound hash endedAfter =>
        rw [chain_walk_bound_first started first sealRead] at confirmed
        obtain ⟨rest, walked, evidenceEq⟩ := finished _ _ confirmed
        exact ⟨start, 0, rfl, Or.inr ⟨1, rest, walked, by rw [evidenceEq, sealRead]⟩⟩
    · rw [chain_walk_seal_last started first] at confirmed
      obtain ⟨rest, walked, evidenceEq⟩ := finished _ _ confirmed
      exact ⟨start, _, rfl, Or.inr ⟨0, rest, walked, evidenceEq⟩⟩

end Equations

end Tapectl.Confirm
