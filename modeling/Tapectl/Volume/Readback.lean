import Tapectl.Db.Catalog
import Tapectl.Store.Resume

/-!
# Full readbacks of a volume

`interrupted_readback`, `record_checkpoint`, `STARTED_AT_FROM_CHECKPOINTS`, `recorded_abort_time` and
`aborted_adoption` of `volume/session.rs`, and the full readbacks that use them: the write's confirm
and `volume verify`, which insert a `verification_sessions` row, walk the tape and complete the row.

Everything is about one volume. The clock counts nanoseconds; what the catalog stores is
`datetime('now')`, whole seconds. Its text sorts as the seconds do and always parses, so stored times
are numbers. The columns of a session that no query here reads are left out.
-/

namespace Tapectl.Volume.Readback

open Tapectl.Confirm Tapectl.Db Tapectl.Volume.Format

def nanos : Nat := 10 ^ 9

/-- `datetime('now')` -/
def datetimeNow (clock : Nat) : Nat := clock / nanos

inductive Outcome where
  | inProgress
  | passed
  | failed
  | aborted
  deriving DecidableEq, Repr

/-- A `verification_sessions` row; a full readback is one of the integrity tier. -/
structure VerificationSession where
  id : Nat
  verifyType : Tier
  outcome : Outcome
  startedAt : Nat
  deriving DecidableEq, Repr

/-- A `readback_checkpoints` row. -/
structure CheckpointRow where
  sessionId : Nat
  checkpoint : Checkpoint
  checkedAt : Nat
  deriving DecidableEq, Repr

/-- The volume's rows. `aborts` has the timestamps of its `write_aborted` and `write_quarantined`
events. -/
structure Catalog where
  sessions : List VerificationSession
  checkpoints : List CheckpointRow
  aborts : List Nat
  deriving DecidableEq, Repr

structure Continuation where
  sessionId : Nat
  checkpoints : Checkpoints

variable (catalog : Catalog)

def recordedAbortTime : Option Nat := catalog.aborts.max?

/-- The earliest time a `NaiveDateTime` has, in seconds: the first of January of the year -262143. -/
def earliestDateTime : Int := -8334601228800

/-- `now - days` in nanoseconds, unless no date is that far back. -/
def cutoff (now : Nat) (days : Int) : Option Int :=
  let back := max days 0 * 86400 * nanos
  if now - back < earliestDateTime * nanos then none else some (now - back)

/-- The age gate: a readback whose oldest read the policy calls overdue is not continued. -/
def tooOld (verifyIntervalDays : Option Int) (now oldest : Nat) : Bool :=
  match verifyIntervalDays with
  | none => false
  | some days =>
    match cutoff now days with
    | none => false
    | some limit => decide ((oldest * nanos : Nat) < limit)

def interruptedReadback (verifyIntervalDays : Option Int) (now : Nat) : Option Continuation :=
  match catalog.sessions.argmax fun session => session.id with
  | none => none
  | some latest =>
    if latest.verifyType ≠ .integrity ∨
        (latest.outcome ≠ .inProgress ∧ latest.outcome ≠ .aborted) then none
    else
      let rows := catalog.checkpoints.filter fun row => row.sessionId == latest.id
      match rows with
      | [] => none
      | first :: rest =>
        let frontIndex := first.checkpoint.frontIndexSha256
        if rows.any fun row => row.checkpoint.frontIndexSha256 != frontIndex then none
        else if (recordedAbortTime catalog).any fun abortedAt =>
            rows.any fun row => decide (row.checkedAt ≤ abortedAt) then none
        else
          let oldest := rest.foldl (fun oldest row => min oldest row.checkedAt) first.checkedAt
          if tooOld verifyIntervalDays now oldest then none
          else some ⟨latest.id, frontIndex, fun position =>
            (rows.find? fun row => row.checkpoint.position == position).map fun row =>
              row.checkpoint.sha256⟩

def recordedBefore (continuing : Option Continuation) (checkpoint : Checkpoint) : Option Nat :=
  continuing.bind fun continuation =>
    (catalog.checkpoints.find? fun row =>
      row.sessionId == continuation.sessionId && row.checkpoint == checkpoint).map
        fun row => row.checkedAt

/-- `INSERT OR IGNORE`: a session has one row for a position. -/
def recordCheckpoint (sessionId : Nat) (continuing : Option Continuation) (catalog : Catalog)
    (checkpoint : Checkpoint) (now : Nat) : Catalog :=
  if catalog.checkpoints.any fun row =>
      row.sessionId == sessionId && row.checkpoint.position == checkpoint.position then catalog
  else
    { catalog with checkpoints := catalog.checkpoints ++
        [⟨sessionId, checkpoint,
          (recordedBefore catalog continuing checkpoint).getD (datetimeNow now)⟩] }

/-- `STARTED_AT_FROM_CHECKPOINTS` -/
def startedAtFromCheckpoints (session : VerificationSession) : Nat :=
  match ((catalog.checkpoints.filter fun row => row.sessionId == session.id).map
      fun row => row.checkedAt).min? with
  | some oldest => min session.startedAt oldest
  | none => session.startedAt

/-- The `UPDATE` of a readback that came to a verdict. -/
def conclude (sessionId : Nat) (evidence : Evidence) : Catalog :=
  { catalog with sessions := catalog.sessions.map fun session =>
      if session.id = sessionId then
        { session with
          outcome := if evidence.mismatches.isEmpty then .passed else .failed
          startedAt := startedAtFromCheckpoints catalog session }
      else session }

/-- A session that is not `in_progress` keeps its outcome. -/
def VerificationSession.stopped (session : VerificationSession) : VerificationSession :=
  if session.outcome = .inProgress then { session with outcome := .aborted } else session

def markAborted (sessionId : Nat) : Catalog :=
  { catalog with sessions := catalog.sessions.map fun session =>
      if session.id = sessionId then session.stopped else session }

def sweep : Catalog :=
  { catalog with sessions := catalog.sessions.map VerificationSession.stopped }

def nextSessionId : Nat :=
  (catalog.sessions.map fun session => session.id).max?.getD 0 + 1

def insertSession (verifyType : Tier) (now : Nat) : Catalog :=
  { catalog with sessions := catalog.sessions ++
      [⟨nextSessionId catalog, verifyType, .inProgress, datetimeNow now⟩] }

inductive AbortedAdoption where
  | adoptable
  | notInitialized (status : VolumeStatus)
  | notSealed
  | conditionNotOk (condition : Condition)
  | noRecordedAbort
  | noCleanFullVerifyAfterAbort (abortedAt : Nat)
  deriving DecidableEq, Repr

def abortedAdoption (volume : VolumeRow) (catalog : Catalog) : AbortedAdoption :=
  if volume.status ≠ .initialized then .notInitialized volume.status
  else if volume.sealedAt.isNone = true then .notSealed
  else if volume.observedCondition ≠ .ok then .conditionNotOk volume.observedCondition
  else match recordedAbortTime catalog with
  | none => .noRecordedAbort
  | some abortedAt =>
    if catalog.sessions.any fun session => session.verifyType == .integrity &&
        session.outcome == .passed && decide (abortedAt < session.startedAt) then .adoptable
    else .noCleanFullVerifyAfterAbort abortedAt

/-- One full readback as it ran. `askedAt` is the clock at the age gate and `begunAt` at the insert
of the session; `readAt` says when the bytes of a file it read had come off the tape, and
`recordedAt` when it inserted its checkpoints, in their order. `killedAfter` counts the checkpoints
of a process that died; `marksAborted` is `volume verify`, which marks a stopped session. -/
structure Execution where
  env : Environment
  layout : Layout
  order : ReadOrder
  endedAfter : Option Nat
  readback : Option Nat
  verifyIntervalDays : Option Int
  marksAborted : Bool
  killedAfter : Option Nat
  askedAt : Nat
  begunAt : Nat
  readAt : Nat → Nat
  recordedAt : Nat → Nat
  endedAt : Nat

/-- The content files of the front index a walk read, by position. -/
def listedFiles (env : Environment) (start : WalkStart) (answer : Except String StoredText.Bytes) :
    List Nat :=
  match indexVerdict env start.fiPos start.fiTrueLen answer with
  | .stopped _ => []
  | .parsed _ claims => (claims.map fun claim => asU32 claim.position).filter fun position =>
    position != start.fiPos && decide (position ≤ start.ending.endedAfter)

namespace Execution

variable (execution : Execution) (catalog : Catalog)

def continuing : Option Continuation :=
  interruptedReadback catalog execution.verifyIntervalDays execution.askedAt

def plan : ConfirmPlan where
  tier := .integrity
  order := execution.order
  resume := (execution.continuing catalog).map Continuation.checkpoints
  endedAfter := execution.endedAfter
  readback := execution.readback

def walk : Confirmed := chainWalk execution.env execution.layout (execution.plan catalog)

def recorded : List Checkpoint :=
  match execution.killedAfter with
  | none => (execution.walk catalog).passed
  | some count => (execution.walk catalog).passed.take count

/-- The checkpoints inserted one after another, numbered from `turn` on. -/
def recordAll (sessionId : Nat) (continuing : Option Continuation) :
    List Checkpoint → Nat → Catalog → Catalog
  | [], _, catalog => catalog
  | checkpoint :: rest, turn, catalog =>
    recordAll sessionId continuing rest (turn + 1)
      (recordCheckpoint sessionId continuing catalog checkpoint (execution.recordedAt turn))

/-- The catalog when everything the readback got to record is in it. -/
def noted : Catalog :=
  execution.recordAll (nextSessionId catalog) (execution.continuing catalog)
    (execution.recorded catalog) 0 (insertSession catalog .integrity execution.begunAt)

def leaves : Catalog :=
  match execution.killedAfter, (execution.walk catalog).outcome with
  | some _, _ => execution.noted catalog
  | none, .error _ =>
    if execution.marksAborted then markAborted (execution.noted catalog) (nextSessionId catalog)
    else execution.noted catalog
  | none, .ok evidence => conclude (execution.noted catalog) (nextSessionId catalog) evidence

/-- Whether the walk took the file on the word of the readback it continues. -/
def skipped (checkpoint : Checkpoint) : Bool :=
  match execution.continuing catalog with
  | none => false
  | some continuation =>
    continuation.checkpoints.frontIndexSha256 == checkpoint.frontIndexSha256 &&
      continuation.checkpoints.passed checkpoint.position == some checkpoint.sha256 &&
      execution.readback != some checkpoint.position

def contentFiles : List Nat :=
  let plan := execution.plan catalog
  match walkStart execution.layout plan with
  | .error _ => []
  | .ok start =>
    let first := if plan.order = .sealFirst then 1 else 0
    let held := holdFiles execution.env (aheadPositions execution.layout start.fiPos plan.resume)
      first
    listedFiles execution.env start (execution.env.read held.2 start.fiPos)

end Execution

abbrev Reads := List (Checkpoint × Nat)

/-- The time of the first read of a file at `position`. -/
def Reads.at (reads : Reads) (position : Nat) : Option Nat :=
  (reads.find? fun read => read.1.position == position).map Prod.snd

/-- The catalog with what it does not record: when each session's files were read off the tape, and
which content files its front index lists. -/
structure State where
  catalog : Catalog
  now : Nat
  reads : Nat → Reads
  contents : Nat → List Nat

def State.empty : State := ⟨⟨[], [], []⟩, 0, fun _ => [], fun _ => []⟩

/-- A file that was not read again was read when the continued readback says. -/
def Execution.reads (execution : Execution) (state : State) : Reads :=
  (execution.recorded state.catalog).map fun checkpoint =>
    (checkpoint,
      if execution.skipped state.catalog checkpoint = true then
        ((execution.continuing state.catalog).bind fun continuation =>
          (state.reads continuation.sessionId).at checkpoint.position).getD 0
      else execution.readAt checkpoint.position)

def State.readBack (state : State) (execution : Execution) : State where
  catalog := execution.leaves state.catalog
  now := execution.endedAt
  reads session := if session = nextSessionId state.catalog then execution.reads state
    else state.reads session
  contents session := if session = nextSessionId state.catalog then
      execution.contentFiles state.catalog
    else state.contents session

def State.quickVerify (state : State) (outcome : Outcome) (begunAt endedAt : Nat) : State :=
  { state with
    now := endedAt
    catalog := { state.catalog with sessions := state.catalog.sessions ++
      [⟨nextSessionId state.catalog, .navigable, outcome, datetimeNow begunAt⟩] } }

def State.abort (state : State) (abortedAt : Nat) : State :=
  { state with
    now := abortedAt
    catalog := { state.catalog with aborts := state.catalog.aborts ++ [datetimeNow abortedAt] } }

/-- The clock never goes back: a file is read after the readback began, and recorded after that. -/
structure Execution.Timed (execution : Execution) (state : State) : Prop where
  asked : state.now ≤ execution.askedAt
  begun : execution.askedAt ≤ execution.begunAt
  read : ∀ (turn : Nat) (checkpoint : Checkpoint),
    (execution.recorded state.catalog)[turn]? = some checkpoint →
    execution.skipped state.catalog checkpoint = false →
    execution.begunAt ≤ execution.readAt checkpoint.position ∧
      execution.readAt checkpoint.position ≤ execution.recordedAt turn
  recorded : ∀ turn < (execution.recorded state.catalog).length,
    execution.begunAt ≤ execution.recordedAt turn ∧
      execution.recordedAt turn ≤ execution.endedAt
  inOrder : ∀ turn later, turn ≤ later → later < (execution.recorded state.catalog).length →
    execution.recordedAt turn ≤ execution.recordedAt later
  ended : execution.begunAt ≤ execution.endedAt

/-- Full readbacks, quick verifies and aborts one after another, and the sweeps in between. -/
inductive Next (allowed : State → Execution → Prop) (state : State) : State → Prop
  | readBack (execution : Execution) (timed : execution.Timed state)
      (counts : execution.env.crate.CountsArrays) (ok : allowed state execution) :
      Next allowed state (state.readBack execution)
  | quickVerify (outcome : Outcome) (begunAt endedAt : Nat) (begun : state.now ≤ begunAt)
      (ended : begunAt ≤ endedAt) : Next allowed state (state.quickVerify outcome begunAt endedAt)
  | abort (abortedAt : Nat) (later : state.now ≤ abortedAt) :
      Next allowed state (state.abort abortedAt)
  | sweep : Next allowed state { state with catalog := sweep state.catalog }

/-- The states readbacks get to, from a volume that was never read back. -/
def Reached (allowed : State → Execution → Prop) : State → Prop :=
  Relation.ReflTransGen (Next allowed) State.empty

end Tapectl.Volume.Readback
