import Tapectl.Volume.Readback

/-!
# A full readback is dated by its oldest read

A session's rows carry the times its files were read at, however often the readback was stopped and
continued: a file that was skipped takes over the row of the readback it was read in. So the start a
readback is given when it comes to a verdict is no later than any of its reads, and an abort before
that start is older than all of them.

What this rests on is that a readback that does not get to its verdict inserts each checkpoint in the
second its file was read in. The walk reads the files ahead of the front index first, the front index
next, and records them then; and a process may be held up between a read and its insert. A clock
second that passes there is a second by which the checkpoint, and with it the readback that skips the
file, is dated too late. A readback that concludes is dated by its own start, which is before its
reads whenever it records them.
-/

namespace Tapectl.Confirm

open StoredText Tapectl.Volume Tapectl.Volume.Format
open Tapectl.Seam (smallFileCap)

theorem read_back_claim_counts {env : Environment} {claim : ParsedIndexEntry} {held : Option Held}
    {call : Nat} (clean : (readBackClaim env claim held call).1.mismatches = []) :
    ∃ want, (readBackClaim env claim held call).1.clean = some want := by
  have verdict : ∀ position want size answer,
      (contentVerdict env position want size answer).mismatches = [] →
      (contentVerdict env position want size answer).clean = some want := by
    intro position want size answer found
    obtain ⟨bytes, rfl, long, same⟩ := content_verdict_clean found
    simp [contentVerdict, same, Nat.not_lt.mpr long]
  unfold readBackClaim at clean ⊢
  split at clean
  · next want size stated sized =>
    cases held with
    | none => exact ⟨want, verdict _ _ _ _ clean⟩
    | some file => exact ⟨want, verdict _ _ _ _ clean⟩
  · cases clean

/-- What a pass that began with `before` came to, `files` the content files it still had to read:
it reports content files only, in their order, and all of them if it found nothing. -/
structure Counted (before : Progress) (files : List Nat) (after : Contents) : Prop where
  listed : (after.progress.passed.map Checkpoint.position).Sublist
    (before.passed.map Checkpoint.position ++ files)
  clean : after.stopped = none → after.progress.mismatches = [] → before.mismatches = [] ∧
    after.progress.passed.map Checkpoint.position =
      before.passed.map Checkpoint.position ++ files

theorem Counted.of_next {before next : Progress} {files : List Nat} {after : Contents}
    {checkpoint : Checkpoint} (counted : Counted next files after)
    (passed : next.passed = before.passed ++ [checkpoint])
    (sooner : next.mismatches = [] → before.mismatches = []) :
    Counted before (checkpoint.position :: files) after := by
  have placed : before.passed.map Checkpoint.position ++ checkpoint.position :: files =
      next.passed.map Checkpoint.position ++ files := by simp [passed]
  refine ⟨placed ▸ counted.listed, fun ended clean => ?_⟩
  rw [placed]
  exact (counted.clean ended clean).imp_left sooner

theorem read_contents_counted (env : Environment) (fiPos : Nat) (ending : WalkEnding)
    (resume : Option Checkpoints) (held : List (Nat × Held)) (fiHash : String)
    (claims : List ParsedIndexEntry) (progress : Progress) (call : Nat) :
    Counted progress
      ((claims.map fun claim => asU32 claim.position).filter fun position =>
        position != fiPos && decide (position ≤ ending.endedAfter))
      (readContents env fiPos ending resume held fiHash claims progress call).1 := by
  induction claims generalizing progress call with
  | nil => constructor <;> simp [readContents]
  | cons claim claims ih =>
    rw [List.map_cons, List.filter_cons]
    simp only [readContents]
    by_cases skipped : asU32 claim.position = fiPos ∨ ending.endedAfter < asU32 claim.position
    · rw [if_pos skipped, if_neg (by grind)]
      exact ih progress call
    · rw [if_neg skipped, if_pos (by grind)]
      cases alreadyPassed resume ending claim with
      | some want => exact (ih _ call).of_next (show _ = _ ++ [⟨_, want, fiHash⟩] from rfl) id
      | none =>
        dsimp only
        split
        · exact ⟨List.sublist_append_left _ _, fun ended => by cases ended⟩
        · have counts := @read_back_claim_counts env claim (held.lookup (asU32 claim.position)) call
          generalize readBackClaim env claim (held.lookup (asU32 claim.position)) call = result at *
          obtain ⟨⟨checked, found, clean⟩, next⟩ := result
          dsimp only at counts ⊢
          cases clean with
          | some want =>
            exact (ih _ next).of_next (show _ = _ ++ [⟨_, want, fiHash⟩] from rfl)
              fun both => (List.append_eq_nil_iff.mp both).1
          | none =>
            have rest := ih ⟨progress.filesChecked + checked, progress.mismatches ++ found,
              progress.passed ++ []⟩ next
            refine ⟨?_, fun ended clean => ?_⟩
            · rw [List.append_nil] at rest ⊢
              exact rest.listed.trans ((List.sublist_cons_self _ _).append_left _)
            · have both := List.append_eq_nil_iff.mp (rest.clean ended clean).1
              obtain ⟨_, counted⟩ := counts both.2
              cases counted

theorem claims_nodup {claims : List ParsedIndexEntry} (consistent : Consistent claims)
    (few : claims.length ≤ smallFileCap) : (claims.map fun claim => asU32 claim.position).Nodup := by
  have cap : smallFileCap < 2 ^ 32 := by decide
  have own : claims.map (fun claim => asU32 claim.position) = List.range claims.length := by
    apply List.ext_getElem (by simp)
    intro index inClaims inRange
    rw [List.length_range] at inRange
    rw [List.getElem_map, List.getElem_range,
      consistent_position consistent few (List.getElem?_eq_getElem inRange), asU32]
    omega
  rw [own]
  exact List.nodup_range

end Tapectl.Confirm

namespace Tapectl.Volume.Readback

open StoredText Tapectl.Confirm Tapectl.Db Tapectl.Volume.Format

/-- What a walk from the front index on reports, `files` the content files of that index. -/
structure Reported (files : List Nat) (passed : List Checkpoint) (clean : Prop) : Prop where
  listed : (passed.map Checkpoint.position).Sublist files
  whole : clean → passed.map Checkpoint.position = files ∧ files.Nodup

theorem walk_from_index_reported {env : Environment} {layout : Layout} {plan : ConfirmPlan}
    {start : WalkStart} (call : Nat) (counts : env.crate.CountsArrays)
    (integrity : plan.tier = .integrity) :
    Reported
      (listedFiles env start
        (env.read (holdFiles env (aheadPositions layout start.fiPos plan.resume) call).2 start.fiPos))
      (walkFromIndex env layout plan start.fiPos start.ending start.fiTrueLen call).1.passed
      (∃ rest, (walkFromIndex env layout plan start.fiPos start.ending start.fiTrueLen
        call).1.outcome = .ok rest ∧ rest.mismatches = []) := by
  simp only [walkFromIndex, integrity, if_true, listedFiles]
  generalize holdFiles env (aheadPositions layout start.fiPos plan.resume) call = held
  cases verdict : indexVerdict env start.fiPos start.fiTrueLen (env.read held.2 start.fiPos) with
  | stopped result =>
    refine ⟨List.Sublist.refl _, ?_⟩
    rintro ⟨rest, walked, clean⟩
    obtain ⟨expected, actual, found⟩ := index_verdict_stopped verdict
    rw [← Except.ok.inj walked, found] at clean
    cases clean
  | parsed fiHash claims =>
    dsimp only
    have counted := read_contents_counted env start.fiPos start.ending
      (plan.resume.filter fun checkpoints => checkpoints.frontIndexSha256 == fiHash) held.1 fiHash
      claims ⟨1, consistencyMismatches start.fiPos claims ++ layoutMismatches claims layout, []⟩
      (held.2 + 1)
    generalize readContents env start.fiPos start.ending _ held.1 fiHash claims _ (held.2 + 1) =
      contents at counted ⊢
    obtain ⟨⟨stopped, final⟩, next⟩ := contents
    refine ⟨by cases stopped <;> exact counted.listed, ?_⟩
    rintro ⟨rest, walked, clean⟩
    cases stopped with
    | some message => cases walked
    | none =>
      obtain rfl := Except.ok.inj walked
      obtain ⟨before, all⟩ := counted.clean rfl clean
      have consistent := validate_consistency_nil.mp
        (List.map_eq_nil_iff.mp (List.append_eq_nil_iff.mp before).1)
      exact ⟨all, (claims_nodup consistent (index_verdict_few counts verdict)).filter _⟩

theorem finish_walk_clean {tier : Tier} {start : WalkStart} {sealRead : SealRead} {walked : Walked}
    {evidence : Evidence} (ended : (finishWalk tier start sealRead walked).outcome = .ok evidence)
    (clean : evidence.mismatches = []) :
    ∃ rest, walked.outcome = .ok rest ∧ rest.mismatches = [] := by
  cases outcome : walked.outcome with
  | error message =>
    simp only [finishWalk, outcome] at ended
    cases ended
  | ok rest =>
    simp only [finishWalk, outcome] at ended
    obtain rfl := Except.ok.inj ended
    obtain ⟨_, _, _, restClean⟩ := judge_clean clean
    exact ⟨rest, rfl, restClean⟩

theorem walk_reported {execution : Execution} {catalog : Catalog}
    (counts : execution.env.crate.CountsArrays) :
    Reported (execution.contentFiles catalog) (execution.walk catalog).passed
      (∃ evidence, (execution.walk catalog).outcome = .ok evidence ∧ evidence.mismatches = []) := by
  rw [Execution.walk]
  cases started : walkStart execution.layout (execution.plan catalog) with
  | error message =>
    rw [chain_walk_not_started started]
    refine ⟨List.nil_sublist _, ?_⟩
    rintro ⟨evidence, ended, _⟩
    cases ended
  | ok start =>
    -- either order of the walk reads the front index after the files ahead of it
    have walks := @walk_from_index_reported _ execution.layout (execution.plan catalog) start
      (if (execution.plan catalog).order = .sealFirst then 1 else 0) counts rfl
    simp only [Execution.contentFiles, started]
    by_cases first : (execution.plan catalog).order = .sealFirst
    · rw [if_pos first] at walks ⊢
      have both : (execution.plan catalog).tier = .integrity ∧
          (execution.plan catalog).order = .sealFirst := ⟨rfl, first⟩
      cases sealRead : (readSeal execution.env start.ending 0).1 with
      | refused filesChecked mismatch =>
        rw [chain_walk_refused_first started both sealRead]
        refine ⟨List.nil_sublist _, ?_⟩
        rintro ⟨evidence, ended, clean⟩
        rw [← Except.ok.inj ended] at clean
        cases clean
      | bound hash endedAfter =>
        rw [chain_walk_bound_first started both sealRead]
        exact ⟨walks.listed, fun ⟨_, ended, clean⟩ => walks.whole (finish_walk_clean ended clean)⟩
    · rw [if_neg first] at walks ⊢
      rw [chain_walk_seal_last started (fun both => first both.2)]
      exact ⟨walks.listed, fun ⟨_, ended, clean⟩ => walks.whole (finish_walk_clean ended clean)⟩

theorem lt_next_session_id {catalog : Catalog} {session : VerificationSession}
    (member : session ∈ catalog.sessions) : session.id < nextSessionId catalog :=
  Nat.lt_succ_of_le (List.le_max?_getD_of_mem (List.mem_map_of_mem member))

theorem recorded_before_some {catalog : Catalog} {continuing : Option Continuation}
    {checkpoint : Checkpoint} {time : Nat}
    (found : recordedBefore catalog continuing checkpoint = some time) :
    ∃ continuation row, continuing = some continuation ∧ row ∈ catalog.checkpoints ∧
      row.sessionId = continuation.sessionId ∧ row.checkpoint = checkpoint ∧
      row.checkedAt = time := by
  obtain ⟨continuation, isSome, found⟩ := Option.bind_eq_some_iff.mp found
  obtain ⟨row, first, isTime⟩ := Option.map_eq_some_iff.mp found
  have own := List.find?_some first
  rw [Bool.and_eq_true, beq_iff_eq, beq_iff_eq] at own
  exact ⟨continuation, row, isSome, List.mem_of_find?_eq_some first, own.1, own.2, isTime⟩

theorem recorded_before_is_some {catalog : Catalog} {continuation : Continuation}
    {row : CheckpointRow} (member : row ∈ catalog.checkpoints)
    (own : row.sessionId = continuation.sessionId) :
    ∃ time, recordedBefore catalog (some continuation) row.checkpoint = some time := by
  cases found : recordedBefore catalog (some continuation) row.checkpoint with
  | some time => exact ⟨time, rfl⟩
  | none =>
    rw [recordedBefore, Option.bind_some, Option.map_eq_none_iff, List.find?_eq_none] at found
    exact absurd (found row member) (by simp [own])

/-- The catalog after a session recorded the files `done`, each of them read at `time`. -/
structure Recorded (base : Catalog) (sessionId : Nat) (time : Checkpoint → Nat)
    (done : List Checkpoint) (catalog : Catalog) : Prop where
  sessions : catalog.sessions = base.sessions
  aborts : catalog.aborts = base.aborts
  others : ∀ row : CheckpointRow, row.sessionId ≠ sessionId →
    (row ∈ catalog.checkpoints ↔ row ∈ base.checkpoints)
  dated : ∀ row ∈ catalog.checkpoints, row.sessionId = sessionId →
    done.find? (fun checkpoint => checkpoint.position == row.checkpoint.position) =
      some row.checkpoint ∧ row.checkedAt * nanos ≤ time row.checkpoint
  covers : ∀ checkpoint ∈ done, ∃ row ∈ catalog.checkpoints, row.sessionId = sessionId ∧
    row.checkpoint.position = checkpoint.position

section Recording

variable {base : Catalog} {sessionId : Nat} {time : Checkpoint → Nat}
  {continuing : Option Continuation}

def Continued (base : Catalog) (continuing : Option Continuation) (checkpoint : Checkpoint)
    (row : CheckpointRow) : Prop :=
  row ∈ base.checkpoints ∧ row.checkpoint = checkpoint ∧
    ∃ continuation, continuing = some continuation ∧ row.sessionId = continuation.sessionId

structure Dates (base : Catalog) (continuing : Option Continuation) (time : Checkpoint → Nat)
    (checkpoint : Checkpoint) (now : Nat) : Prop where
  before : ∀ row, Continued base continuing checkpoint row → row.checkedAt * nanos ≤ time checkpoint
  own : (∃ row, Continued base continuing checkpoint row) ∨
    datetimeNow now * nanos ≤ time checkpoint

theorem record_checkpoint_recorded (apart : ∀ continuation, continuing = some continuation →
      continuation.sessionId ≠ sessionId)
    {done : List Checkpoint} {catalog : Catalog} (noted : Recorded base sessionId time done catalog)
    {checkpoint : Checkpoint} {now : Nat} (dates : Dates base continuing time checkpoint now) :
    Recorded base sessionId time (done ++ [checkpoint])
      (recordCheckpoint sessionId continuing catalog checkpoint now) := by
  have kept : ∀ row ∈ catalog.checkpoints, row.sessionId = sessionId →
      (done ++ [checkpoint]).find? (fun other => other.position == row.checkpoint.position) =
        some row.checkpoint ∧ row.checkedAt * nanos ≤ time row.checkpoint := by
    intro row member own
    obtain ⟨first, early⟩ := noted.dated row member own
    exact ⟨by rw [List.find?_append, first]; rfl, early⟩
  by_cases there : (catalog.checkpoints.any fun row => row.sessionId == sessionId &&
      row.checkpoint.position == checkpoint.position) = true
  · rw [recordCheckpoint, if_pos there]
    refine ⟨noted.sessions, noted.aborts, noted.others, kept, ?_⟩
    intro other member
    rcases List.mem_append.mp member with before | new
    · exact noted.covers other before
    · obtain rfl := List.mem_singleton.mp new
      obtain ⟨row, rowMember, own⟩ := List.any_eq_true.mp there
      rw [Bool.and_eq_true, beq_iff_eq, beq_iff_eq] at own
      exact ⟨row, rowMember, own⟩
  · rw [recordCheckpoint, if_neg there]
    have new : ∀ row ∈ catalog.checkpoints, row.sessionId = sessionId →
        row.checkpoint.position ≠ checkpoint.position := by
      intro row member own same
      exact there (List.any_eq_true.mpr ⟨row, member, by simp [own, same]⟩)
    have first : done.find? (fun other => other.position == checkpoint.position) = none := by
      rw [List.find?_eq_none]
      intro other member same
      obtain ⟨row, rowMember, own, position⟩ := noted.covers other member
      exact new row rowMember own (position.trans (beq_iff_eq.mp same))
    have early : (recordedBefore catalog continuing checkpoint).getD (datetimeNow now) * nanos ≤
        time checkpoint := by
      cases found : recordedBefore catalog continuing checkpoint with
      | some recorded =>
        obtain ⟨continuation, row, isSome, member, own, same, rfl⟩ := recorded_before_some found
        have foreign : row.sessionId ≠ sessionId := own ▸ apart continuation isSome
        exact dates.before row ⟨(noted.others row foreign).mp member, same, continuation, isSome, own⟩
      | none =>
        rcases dates.own with ⟨row, member, rfl, continuation, rfl, own⟩ | prompt
        · have foreign : row.sessionId ≠ sessionId := own ▸ apart continuation rfl
          obtain ⟨recorded, isSome⟩ :=
            recorded_before_is_some ((noted.others row foreign).mpr member) own
          rw [isSome] at found
          cases found
        · exact prompt
    refine ⟨noted.sessions, noted.aborts, ?_, ?_, ?_⟩
    · intro row foreign
      rw [List.mem_append, noted.others row foreign, List.mem_singleton]
      exact or_iff_left (fun same => foreign (congrArg CheckpointRow.sessionId same))
    · intro row member own
      rcases List.mem_append.mp member with before | added
      · exact kept row before own
      · obtain rfl := List.mem_singleton.mp added
        refine ⟨?_, early⟩
        rw [List.find?_append, first, Option.none_or, List.find?_singleton, if_pos (by simp)]
    · intro other member
      rcases List.mem_append.mp member with before | added
      · obtain ⟨row, rowMember, own⟩ := noted.covers other before
        exact ⟨row, List.mem_append_left _ rowMember, own⟩
      · obtain rfl := List.mem_singleton.mp added
        exact ⟨_, List.mem_append_right _ (List.mem_singleton_self _), rfl, rfl⟩

theorem record_all_recorded (execution : Execution)
    (apart : ∀ continuation, continuing = some continuation → continuation.sessionId ≠ sessionId)
    {done rest : List Checkpoint} {turn : Nat} {catalog : Catalog}
    (noted : Recorded base sessionId time done catalog)
    (dates : ∀ index checkpoint, rest[index]? = some checkpoint →
      Dates base continuing time checkpoint (execution.recordedAt (turn + index))) :
    Recorded base sessionId time (done ++ rest)
      (execution.recordAll sessionId continuing rest turn catalog) := by
  induction rest generalizing done turn catalog with
  | nil =>
    rw [List.append_nil]
    exact noted
  | cons checkpoint rest ih =>
    have later : ∀ index other, rest[index]? = some other →
        Dates base continuing time other (execution.recordedAt (turn + 1 + index)) := by
      intro index other found
      have date := dates (index + 1) other found
      rwa [← Nat.add_assoc, Nat.add_right_comm] at date
    have next := ih (record_checkpoint_recorded apart noted (dates 0 checkpoint rfl)) later
    rw [List.append_assoc] at next
    exact next

end Recording

def Outcome.Concluded (outcome : Outcome) : Prop := outcome = .passed ∨ outcome = .failed

theorem interrupted_readback_some {catalog : Catalog} {days : Option Int} {now : Nat}
    {continuation : Continuation}
    (found : interruptedReadback catalog days now = some continuation) :
    (∃ latest ∈ catalog.sessions, continuation.sessionId = latest.id ∧
      ¬ latest.outcome.Concluded) ∧
      ∀ position sha256, continuation.checkpoints.passed position = some sha256 →
        ∃ row ∈ catalog.checkpoints, row.sessionId = continuation.sessionId ∧
          row.checkpoint = ⟨position, sha256, continuation.checkpoints.frontIndexSha256⟩ := by
  unfold interruptedReadback at found
  split at found
  · cases found
  next latest isLatest =>
  split at found
  · cases found
  next unended =>
  dsimp only at found
  split at found
  · cases found
  next first rest isRows =>
  split at found
  · cases found
  next sameIndex =>
  split at found
  · cases found
  split at found
  · cases found
  cases found
  refine ⟨⟨latest, List.argmax_mem isLatest, rfl, ?_⟩, ?_⟩
  · rintro (passed | failed)
    · exact unended (.inr (by simp [passed]))
    · exact unended (.inr (by simp [failed]))
  intro position sha256 passed
  obtain ⟨row, isFirst, isSha⟩ := Option.map_eq_some_iff.mp passed
  have member := List.mem_of_find?_eq_some isFirst
  have placed : row.checkpoint.position = position := by simpa using List.find?_some isFirst
  rw [List.any_eq_true, not_exists] at sameIndex
  have index : row.checkpoint.frontIndexSha256 = first.checkpoint.frontIndexSha256 := by
    by_contra differs
    exact sameIndex row ⟨member, by simpa using differs⟩
  obtain ⟨stored, own⟩ := List.mem_filter.mp member
  refine ⟨row, stored, beq_iff_eq.mp own, ?_⟩
  rw [← placed, ← isSha, ← index]

/-- The start of a session that came to a verdict is no later than the read of any file it counted
as passed, if its front index lists no position twice; one that passed counted every content file. -/
structure DatedByReads (state : State) (session : VerificationSession) : Prop where
  early : (state.contents session.id).Nodup →
    ∀ read ∈ state.reads session.id, session.startedAt * nanos ≤ read.2
  whole : session.outcome = .passed → (state.contents session.id).Nodup ∧
    ∀ position ∈ state.contents session.id,
      ∃ read ∈ state.reads session.id, read.1.position = position

structure Sound (state : State) : Prop where
  known : ∀ row ∈ state.catalog.checkpoints, row.sessionId < nextSessionId state.catalog
  -- only a session without a verdict is continued, so only its rows have to be right
  dated : ∀ session ∈ state.catalog.sessions, ¬ session.outcome.Concluded →
    ∀ row ∈ state.catalog.checkpoints, row.sessionId = session.id → ∃ time,
      (state.reads session.id).find? (fun read =>
        read.1.position == row.checkpoint.position) = some (row.checkpoint, time) ∧
      row.checkedAt * nanos ≤ time
  past : ∀ session, ∀ read ∈ state.reads session, read.2 ≤ state.now
  concluded : ∀ session ∈ state.catalog.sessions, session.verifyType = .integrity →
    session.outcome.Concluded → DatedByReads state session

theorem datetime_now_le (clock : Nat) : datetimeNow clock * nanos ≤ clock :=
  Nat.div_mul_le_self clock nanos

variable (execution : Execution)

def Execution.Concludes (catalog : Catalog) : Prop :=
  execution.killedAfter = none ∧ ∃ evidence, (execution.walk catalog).outcome = .ok evidence

/-- A readback that does not come to a verdict inserts every checkpoint in the second in which its
file was read. -/
def Execution.Prompt (state : State) (execution : Execution) : Prop :=
  ¬ execution.Concludes state.catalog → ∀ turn checkpoint,
    (execution.recorded state.catalog)[turn]? = some checkpoint →
    execution.skipped state.catalog checkpoint = false →
    datetimeNow (execution.recordedAt turn) = datetimeNow (execution.readAt checkpoint.position)

def Execution.timeOf (state : State) (checkpoint : Checkpoint) : Nat :=
  if execution.skipped state.catalog checkpoint = true then
    ((execution.continuing state.catalog).bind fun continuation =>
      (state.reads continuation.sessionId).at checkpoint.position).getD 0
  else execution.readAt checkpoint.position

/-- What bounds the rows of a readback that may record its own reads late. -/
def Execution.latestTime (state : State) (checkpoint : Checkpoint) : Nat :=
  if execution.skipped state.catalog checkpoint = true then execution.timeOf state checkpoint
  else execution.endedAt

theorem reads_eq (state : State) :
    execution.reads state = (execution.recorded state.catalog).map fun checkpoint =>
      (checkpoint, execution.timeOf state checkpoint) := rfl

section OneReadback

variable {state : State} {execution : Execution}

variable {checkpoint : Checkpoint} {row : CheckpointRow}

theorem skipped_continued (skip : execution.skipped state.catalog checkpoint = true) :
    ∃ row, Continued state.catalog (execution.continuing state.catalog) checkpoint row := by
  unfold Execution.skipped at skip
  split at skip
  · cases skip
  next continuation found =>
  rw [Bool.and_eq_true, Bool.and_eq_true, beq_iff_eq, beq_iff_eq] at skip
  obtain ⟨⟨index, passed⟩, _⟩ := skip
  obtain ⟨row, member, own, same⟩ := (interrupted_readback_some found).2 _ _ passed
  exact ⟨row, member, by rw [same, index], continuation, found, own⟩

theorem time_of_skipped {continuation : Continuation} {time : Nat}
    (skip : execution.skipped state.catalog checkpoint = true)
    (found : execution.continuing state.catalog = some continuation)
    (first : (state.reads continuation.sessionId).find? (fun read =>
      read.1.position == checkpoint.position) = some (checkpoint, time)) :
    execution.timeOf state checkpoint = time := by
  simp [Execution.timeOf, skip, found, Reads.at, first]

theorem continued_dated (sound : Sound state)
    (continued : Continued state.catalog (execution.continuing state.catalog) checkpoint row) :
    ∃ continuation time, execution.continuing state.catalog = some continuation ∧
      (state.reads continuation.sessionId).find? (fun read =>
        read.1.position == checkpoint.position) = some (checkpoint, time) ∧
      row.checkedAt * nanos ≤ time := by
  obtain ⟨member, rfl, continuation, found, own⟩ := continued
  obtain ⟨⟨latest, isSession, same, unended⟩, _⟩ := interrupted_readback_some found
  obtain ⟨time, first, early⟩ := sound.dated latest isSession unended row member (own.trans same)
  rw [← same] at first
  exact ⟨continuation, time, found, first, early⟩

theorem continued_past (sound : Sound state)
    (continued : Continued state.catalog (execution.continuing state.catalog) checkpoint row) :
    row.checkedAt * nanos ≤ state.now := by
  obtain ⟨_, _, _, first, early⟩ := continued_dated sound continued
  exact early.trans (sound.past _ _ (List.mem_of_find?_eq_some first))

theorem skipped_early (sound : Sound state)
    (skip : execution.skipped state.catalog checkpoint = true)
    (continued : Continued state.catalog (execution.continuing state.catalog) checkpoint row) :
    row.checkedAt * nanos ≤ execution.timeOf state checkpoint := by
  obtain ⟨_, _, found, first, early⟩ := continued_dated sound continued
  rw [time_of_skipped skip found first]
  exact early

theorem time_of_read (read : execution.skipped state.catalog checkpoint = false) :
    execution.timeOf state checkpoint = execution.readAt checkpoint.position := by
  rw [Execution.timeOf, if_neg (by simp [read])]

theorem latest_time_of_read (read : execution.skipped state.catalog checkpoint = false) :
    execution.latestTime state checkpoint = execution.endedAt := by
  rw [Execution.latestTime, if_neg (by simp [read])]

theorem latest_time_of_skipped (skip : execution.skipped state.catalog checkpoint = true) :
    execution.latestTime state checkpoint = execution.timeOf state checkpoint := by
  rw [Execution.latestTime, if_pos skip]

theorem prompt_dates (sound : Sound state) (timed : execution.Timed state)
    (prompt : execution.Prompt state) (unended : ¬ execution.Concludes state.catalog) {turn : Nat}
    (recorded : (execution.recorded state.catalog)[turn]? = some checkpoint) :
    Dates state.catalog (execution.continuing state.catalog) (execution.timeOf state) checkpoint
      (execution.recordedAt turn) := by
  cases skip : execution.skipped state.catalog checkpoint with
  | true => exact ⟨fun row => skipped_early sound skip, .inl (skipped_continued skip)⟩
  | false =>
    have read := (timed.read turn checkpoint recorded skip).1
    have asked := timed.asked
    have begun := timed.begun
    refine ⟨fun row continued => ?_, .inr ?_⟩
    · have past := continued_past sound continued
      rw [time_of_read skip]
      omega
    · rw [prompt unended turn checkpoint recorded skip, time_of_read skip]
      exact datetime_now_le _

theorem latest_dates (sound : Sound state) (timed : execution.Timed state) {turn : Nat}
    (recorded : (execution.recorded state.catalog)[turn]? = some checkpoint) :
    Dates state.catalog (execution.continuing state.catalog) (execution.latestTime state) checkpoint
      (execution.recordedAt turn) := by
  cases skip : execution.skipped state.catalog checkpoint with
  | true =>
    refine ⟨fun row continued => ?_, .inl (skipped_continued skip)⟩
    rw [latest_time_of_skipped skip]
    exact skipped_early sound skip continued
  | false =>
    have inside := (List.getElem?_eq_some_iff.mp recorded).1
    have insert := (timed.recorded turn inside).2
    have later : state.now ≤ execution.endedAt := timed.asked.trans (timed.begun.trans timed.ended)
    rw [← latest_time_of_read skip] at insert later
    exact ⟨fun row continued => (continued_past sound continued).trans later,
      .inr ((datetime_now_le _).trans insert)⟩

theorem noted_recorded (sound : Sound state) {time : Checkpoint → Nat}
    (dates : ∀ (turn : Nat) checkpoint,
      (execution.recorded state.catalog)[turn]? = some checkpoint →
      Dates state.catalog (execution.continuing state.catalog) time checkpoint
        (execution.recordedAt turn)) :
    Recorded (insertSession state.catalog .integrity execution.begunAt)
      (nextSessionId state.catalog) time (execution.recorded state.catalog)
      (execution.noted state.catalog) := by
  have apart : ∀ continuation, execution.continuing state.catalog = some continuation →
      continuation.sessionId ≠ nextSessionId state.catalog := by
    intro continuation found
    obtain ⟨⟨latest, member, same, _⟩, _⟩ := interrupted_readback_some found
    have before := lt_next_session_id member
    omega
  have nothing : Recorded (insertSession state.catalog .integrity execution.begunAt)
      (nextSessionId state.catalog) time []
      (insertSession state.catalog .integrity execution.begunAt) := by
    refine ⟨rfl, rfl, fun _ _ => Iff.rfl, ?_, fun _ member => by cases member⟩
    intro row member own
    have before := sound.known row member
    omega
  have inserted : ∀ (index : Nat) checkpoint,
      (execution.recorded state.catalog)[index]? = some checkpoint →
      Dates (insertSession state.catalog .integrity execution.begunAt)
        (execution.continuing state.catalog) time checkpoint
        (execution.recordedAt (0 + index)) := by
    intro index checkpoint found
    have date := dates index checkpoint found
    rw [Nat.zero_add]
    exact ⟨date.before, date.own⟩
  exact record_all_recorded execution apart nothing inserted

theorem leaves_sessions (execution : Execution) (catalog : Catalog) {session : VerificationSession}
    (noted : (execution.noted catalog).sessions =
      (insertSession catalog .integrity execution.begunAt).sessions)
    (member : session ∈ (execution.leaves catalog).sessions) :
    session ∈ catalog.sessions ∨ session.id = nextSessionId catalog ∧
      (¬ execution.Concludes catalog ∧ ¬ session.outcome.Concluded ∨
        ∃ evidence, execution.killedAfter = none ∧
          (execution.walk catalog).outcome = .ok evidence ∧ session.outcome.Concluded ∧
          (session.outcome = .passed → evidence.mismatches = []) ∧
          session.startedAt = startedAtFromCheckpoints (execution.noted catalog)
            ⟨nextSessionId catalog, .integrity, .inProgress, datetimeNow execution.begunAt⟩) := by
  have inserted : ∀ other ∈ (execution.noted catalog).sessions, other ∈ catalog.sessions ∨
      other = ⟨nextSessionId catalog, .integrity, .inProgress, datetimeNow execution.begunAt⟩ := by
    intro other member
    rw [noted, insertSession, List.mem_append, List.mem_singleton] at member
    exact member
  have unended : session ∈ (execution.noted catalog).sessions → session ∈ catalog.sessions ∨
      session.id = nextSessionId catalog ∧ ¬ session.outcome.Concluded := by
    intro member
    rcases inserted session member with before | rfl
    · exact .inl before
    · exact .inr ⟨rfl, by simp [Outcome.Concluded]⟩
  unfold Execution.leaves at member
  split at member
  · next killed =>
    have goesOn : ¬ execution.Concludes catalog := by simp [Execution.Concludes, killed]
    exact (unended member).imp_right fun own => ⟨own.1, .inl ⟨goesOn, own.2⟩⟩
  · next stopped =>
    have goesOn : ¬ execution.Concludes catalog := by simp [Execution.Concludes, stopped]
    split at member
    · obtain ⟨other, otherMember, rfl⟩ := List.mem_map.mp member
      rcases inserted other otherMember with before | rfl
      · have older := lt_next_session_id before
        rw [if_neg (by omega)]
        exact .inl before
      · exact .inr ⟨by simp [VerificationSession.stopped],
          .inl ⟨goesOn, by simp [VerificationSession.stopped, Outcome.Concluded]⟩⟩
    · exact (unended member).imp_right fun own => ⟨own.1, .inl ⟨goesOn, own.2⟩⟩
  · next evidence alive ended =>
    obtain ⟨other, otherMember, rfl⟩ := List.mem_map.mp member
    rcases inserted other otherMember with before | rfl
    · have older := lt_next_session_id before
      rw [if_neg (by omega)]
      exact .inl before
    · rw [if_pos rfl]
      refine .inr ⟨rfl, .inr ⟨evidence, alive, ended, ?_, ?_, rfl⟩⟩
      · cases clean : evidence.mismatches.isEmpty with
        | true => exact .inl rfl
        | false => exact .inr rfl
      · intro passed
        dsimp only at passed
        split at passed
        · next clean => exact List.isEmpty_iff.mp clean
        · cases passed

theorem leaves_checkpoints (execution : Execution) (catalog : Catalog) :
    (execution.leaves catalog).checkpoints = (execution.noted catalog).checkpoints := by
  unfold Execution.leaves
  split
  · rfl
  · split <;> rfl
  · rfl

theorem leaves_ids (execution : Execution) (catalog : Catalog) :
    (execution.leaves catalog).sessions.map (fun session => session.id) =
      (execution.noted catalog).sessions.map fun session => session.id := by
  have stopped : ∀ session : VerificationSession, session.stopped.id = session.id := by
    intro session
    unfold VerificationSession.stopped
    split <;> rfl
  unfold Execution.leaves
  split
  · rfl
  · split
    · rw [markAborted, List.map_map]
      refine List.map_congr_left fun session _ => ?_
      rw [Function.comp_apply]
      split
      · exact stopped session
      · rfl
    · rfl
  · rw [conclude, List.map_map]
    refine List.map_congr_left fun session _ => ?_
    rw [Function.comp_apply]
    split <;> rfl

theorem started_at_early {catalog : Catalog} {session : VerificationSession} {row : CheckpointRow}
    (member : row ∈ catalog.checkpoints) (own : row.sessionId = session.id) :
    startedAtFromCheckpoints catalog session ≤ row.checkedAt := by
  have listed : row.checkedAt ∈ (catalog.checkpoints.filter fun row =>
      row.sessionId == session.id).map fun row => row.checkedAt :=
    List.mem_map_of_mem (List.mem_filter.mpr ⟨member, beq_iff_eq.mpr own⟩)
  unfold startedAtFromCheckpoints
  split
  · next oldest isOldest =>
    have least := (List.min?_eq_some_iff.mp isOldest).2 _ listed
    exact (Nat.min_le_right _ _).trans least
  · next none =>
    rw [List.min?_eq_none_iff.mp none] at listed
    cases listed

theorem started_at_le (catalog : Catalog) (session : VerificationSession) :
    startedAtFromCheckpoints catalog session ≤ session.startedAt := by
  unfold startedAtFromCheckpoints
  split
  · exact Nat.min_le_left _ _
  · exact Nat.le_refl _

theorem time_of_past (sound : Sound state) (timed : execution.Timed state) {turn : Nat}
    (isTurn : (execution.recorded state.catalog)[turn]? = some checkpoint) :
    execution.timeOf state checkpoint ≤ execution.endedAt := by
  cases skip : execution.skipped state.catalog checkpoint with
  | false =>
    rw [time_of_read skip]
    have inside := (List.getElem?_eq_some_iff.mp isTurn).1
    exact (timed.read turn checkpoint isTurn skip).2.trans (timed.recorded turn inside).2
  | true =>
    obtain ⟨row, continued⟩ := skipped_continued skip
    obtain ⟨_, time, found, first, _⟩ := continued_dated sound continued
    rw [time_of_skipped skip found first]
    exact (sound.past _ _ (List.mem_of_find?_eq_some first)).trans
      (timed.asked.trans (timed.begun.trans timed.ended))

theorem concluded_early (sound : Sound state) (timed : execution.Timed state)
    (counts : execution.env.crate.CountsArrays)
    (unique : (execution.contentFiles state.catalog).Nodup)
    (alive : execution.killedAfter = none) {read : Checkpoint × Nat}
    (member : read ∈ execution.reads state) :
    startedAtFromCheckpoints (execution.noted state.catalog)
      ⟨nextSessionId state.catalog, .integrity, .inProgress, datetimeNow execution.begunAt⟩ * nanos ≤
        read.2 := by
  rw [reads_eq] at member
  obtain ⟨checkpoint, isRecorded, rfl⟩ := List.mem_map.mp member
  obtain ⟨turn, isTurn⟩ := List.mem_iff_getElem?.mp isRecorded
  dsimp only
  cases skip : execution.skipped state.catalog checkpoint with
  | false =>
    have read := (timed.read turn checkpoint isTurn skip).1
    have start := started_at_le (execution.noted state.catalog)
      ⟨nextSessionId state.catalog, .integrity, .inProgress, datetimeNow execution.begunAt⟩
    rw [time_of_read skip]
    exact (Nat.mul_le_mul_right nanos start).trans ((datetime_now_le _).trans read)
  | true =>
    -- no other entry of the front index took the row of this position
    have positions : ((execution.recorded state.catalog).map fun checkpoint =>
        checkpoint.position).Nodup := by
      rw [Execution.recorded, alive]
      exact unique.sublist (walk_reported counts).listed
    have noted := noted_recorded sound fun _ _ => latest_dates sound timed
    obtain ⟨row, rowMember, own, position⟩ := noted.covers checkpoint isRecorded
    obtain ⟨first, early⟩ := noted.dated row rowMember own
    have same : row.checkpoint = checkpoint :=
      List.inj_on_of_nodup_map positions (List.mem_of_find?_eq_some first) isRecorded position
    have start := @started_at_early _ ⟨nextSessionId state.catalog, .integrity, .inProgress,
      datetimeNow execution.begunAt⟩ row rowMember own
    rw [same, latest_time_of_skipped skip] at early
    exact (Nat.mul_le_mul_right nanos start).trans early

theorem read_back_sound (sound : Sound state) (timed : execution.Timed state)
    (counts : execution.env.crate.CountsArrays) (prompt : execution.Prompt state) :
    Sound (state.readBack execution) := by
  have noted := noted_recorded sound fun _ _ => latest_dates sound timed
  have older : ∀ session, session < nextSessionId state.catalog →
      (state.readBack execution).reads session = state.reads session ∧
        (state.readBack execution).contents session = state.contents session := by
    intro session before
    have other : session ≠ nextSessionId state.catalog := by omega
    exact ⟨if_neg other, if_neg other⟩
  have own : (state.readBack execution).reads (nextSessionId state.catalog) =
      execution.reads state := if_pos rfl
  have ownContents : (state.readBack execution).contents (nextSessionId state.catalog) =
      execution.contentFiles state.catalog := if_pos rfl
  have newest : nextSessionId state.catalog < nextSessionId (execution.leaves state.catalog) := by
    have ids := leaves_ids execution state.catalog
    rw [noted.sessions] at ids
    have listed : nextSessionId state.catalog ∈
        (execution.leaves state.catalog).sessions.map fun session => session.id := by
      rw [ids, insertSession]
      simp
    obtain ⟨session, member, same⟩ := List.mem_map.mp listed
    exact same ▸ lt_next_session_id member
  refine ⟨?_, ?_, ?_, ?_⟩
  · intro row member
    change row ∈ (execution.leaves state.catalog).checkpoints at member
    rw [leaves_checkpoints] at member
    by_cases mine : row.sessionId = nextSessionId state.catalog
    · exact mine ▸ newest
    · exact (sound.known row ((noted.others row mine).mp member)).trans newest
  · intro session isSession unended row member ofSession
    change row ∈ (execution.leaves state.catalog).checkpoints at member
    rw [leaves_checkpoints] at member
    rcases leaves_sessions execution state.catalog noted.sessions isSession with
      before | ⟨mine, ⟨goesOn, _⟩ | ⟨_, _, _, ended, _⟩⟩
    · have earlier := lt_next_session_id before
      rw [(older _ earlier).1]
      exact sound.dated session before unended row
        ((noted.others row (by omega)).mp member) ofSession
    · have promptly := noted_recorded sound fun _ _ => prompt_dates sound timed prompt goesOn
      obtain ⟨first, early⟩ := promptly.dated row member (ofSession.trans mine)
      refine ⟨execution.timeOf state row.checkpoint, ?_, early⟩
      rw [mine, own, reads_eq, List.find?_map]
      simp only [Function.comp_def]
      rw [first]
      rfl
    · exact absurd ended unended
  · intro session read member
    have later : state.now ≤ execution.endedAt :=
      timed.asked.trans (timed.begun.trans timed.ended)
    change read.2 ≤ execution.endedAt
    by_cases mine : session = nextSessionId state.catalog
    · rw [mine, own, reads_eq] at member
      obtain ⟨checkpoint, isRecorded, rfl⟩ := List.mem_map.mp member
      obtain ⟨turn, isTurn⟩ := List.mem_iff_getElem?.mp isRecorded
      exact time_of_past sound timed isTurn
    · have same : (state.readBack execution).reads session = state.reads session := if_neg mine
      rw [same] at member
      exact (sound.past session read member).trans later
  · intro session member full ended
    rcases leaves_sessions execution state.catalog noted.sessions member with
      before | ⟨mine, ⟨_, unended⟩ | ⟨evidence, alive, walked, _, clean, start⟩⟩
    · obtain ⟨sameReads, sameContents⟩ := older session.id (lt_next_session_id before)
      obtain ⟨early, whole⟩ := sound.concluded session before full ended
      exact ⟨by rwa [sameReads, sameContents], by rwa [sameReads, sameContents]⟩
    · exact absurd ended unended
    · refine ⟨?_, ?_⟩
      · intro unique read isRead
        rw [mine, ownContents] at unique
        rw [mine, own] at isRead
        rw [start]
        exact concluded_early sound timed counts unique alive isRead
      · intro passed
        obtain ⟨files, unique⟩ :=
          (walk_reported counts).whole ⟨evidence, walked, clean passed⟩
        rw [mine, ownContents]
        refine ⟨unique, fun position isContent => ?_⟩
        rw [← files] at isContent
        obtain ⟨checkpoint, isPassed, rfl⟩ := List.mem_map.mp isContent
        refine ⟨(checkpoint, execution.timeOf state checkpoint), ?_, rfl⟩
        rw [own, reads_eq, Execution.recorded, alive]
        exact List.mem_map_of_mem isPassed

end OneReadback

theorem sound_empty : Sound State.empty where
  known _ member := by cases member
  dated _ member := by cases member
  past _ _ member := by cases member
  concluded _ member := by cases member

variable {state : State}

theorem quick_verify_sound (sound : Sound state) (outcome : Outcome) {begunAt endedAt : Nat}
    (later : state.now ≤ endedAt) :
    Sound (state.quickVerify outcome begunAt endedAt) := by
  have newest : nextSessionId state.catalog <
      nextSessionId (state.quickVerify outcome begunAt endedAt).catalog :=
    @lt_next_session_id (state.quickVerify outcome begunAt endedAt).catalog
      ⟨nextSessionId state.catalog, .navigable, outcome, datetimeNow begunAt⟩
      (List.mem_append_right _ (List.mem_singleton_self _))
  refine ⟨fun row member => (sound.known row member).trans newest, ?_, ?_, ?_⟩
  · intro session member unended row isRow own
    rcases List.mem_append.mp member with before | new
    · exact sound.dated session before unended row isRow own
    · -- a quick verify records no checkpoints
      have earlier := sound.known row isRow
      rw [own, List.mem_singleton.mp new] at earlier
      exact absurd earlier (lt_irrefl _)
  · intro session read member
    exact (sound.past session read member).trans later
  · intro session member full ended
    rcases List.mem_append.mp member with before | new
    · obtain ⟨early, whole⟩ := sound.concluded session before full ended
      exact ⟨early, whole⟩
    · rw [List.mem_singleton.mp new] at full
      cases full

theorem abort_sound (sound : Sound state) {abortedAt : Nat} (later : state.now ≤ abortedAt) :
    Sound (state.abort abortedAt) := by
  refine ⟨sound.known, sound.dated, ?_, ?_⟩
  · intro session read member
    exact (sound.past session read member).trans later
  · intro session member full ended
    obtain ⟨early, whole⟩ := sound.concluded session member full ended
    exact ⟨early, whole⟩

theorem stopped_cases (session : VerificationSession) :
    session.stopped = session ∨ session.stopped.id = session.id ∧
      ¬ session.outcome.Concluded ∧ ¬ session.stopped.outcome.Concluded := by
  unfold VerificationSession.stopped
  split
  · next running => exact .inr ⟨rfl, by simp [running, Outcome.Concluded], by simp [Outcome.Concluded]⟩
  · exact .inl rfl

theorem sweep_sound (sound : Sound state) :
    Sound { state with catalog := sweep state.catalog } := by
  have ids : nextSessionId (sweep state.catalog) = nextSessionId state.catalog := by
    rw [nextSessionId, nextSessionId, sweep, List.map_map]
    congr 4
    funext session
    rw [Function.comp_apply, VerificationSession.stopped]
    split <;> rfl
  refine ⟨?_, ?_, sound.past, ?_⟩
  · intro row member
    exact (sound.known row member).trans_eq ids.symm
  · intro session member unended row isRow own
    obtain ⟨other, before, rfl⟩ := List.mem_map.mp member
    rcases stopped_cases other with same | ⟨same, running, _⟩
    · rw [same] at unended own ⊢
      exact sound.dated other before unended row isRow own
    · rw [same] at own ⊢
      exact sound.dated other before running row isRow own
  · intro session member full ended
    obtain ⟨other, before, rfl⟩ := List.mem_map.mp member
    rcases stopped_cases other with same | ⟨_, _, unended⟩
    · rw [same] at full ended ⊢
      obtain ⟨early, whole⟩ := sound.concluded other before full ended
      exact ⟨early, whole⟩
    · exact absurd ended unended

theorem reached_sound (reached : Reached Execution.Prompt state) : Sound state := by
  induction reached with
  | refl => exact sound_empty
  | tail _ next sound =>
    cases next with
    | readBack execution timed counts prompt => exact read_back_sound sound timed counts prompt
    | quickVerify outcome begunAt endedAt begun ended =>
      exact quick_verify_sound sound outcome (begun.trans ended)
    | abort abortedAt later => exact abort_sound sound later
    | sweep => exact sweep_sound sound

theorem adoptable_session {volume : VolumeRow} {catalog : Catalog}
    (adoptable : abortedAdoption volume catalog = .adoptable) :
    ∃ abortedAt, recordedAbortTime catalog = some abortedAt ∧ ∃ session ∈ catalog.sessions,
      session.verifyType = .integrity ∧ session.outcome = .passed ∧
      abortedAt < session.startedAt := by
  unfold abortedAdoption at adoptable
  split at adoptable
  · cases adoptable
  split at adoptable
  · cases adoptable
  split at adoptable
  · cases adoptable
  split at adoptable
  · cases adoptable
  next abortedAt isLatest =>
  split at adoptable
  · next cleared =>
    obtain ⟨session, member, own⟩ := List.any_eq_true.mp cleared
    rw [Bool.and_eq_true, Bool.and_eq_true, beq_iff_eq, beq_iff_eq, decide_eq_true_iff] at own
    exact ⟨abortedAt, isLatest, session, member, own.1.1, own.1.2, own.2⟩
  · cases adoptable

/-- While a readback without a verdict inserts every checkpoint in the second its file was read in: a
full readback that passed or failed is dated no later than the read of any file it counted as passed,
whichever readback read it, if its front index lists no position twice; and an aborted session is
adopted only after every content file was read since the latest abort. -/
theorem full_readbacks_dated_by_oldest_read {state : State}
    (reached : Reached Execution.Prompt state) :
    (∀ session ∈ state.catalog.sessions, session.verifyType = .integrity →
      session.outcome.Concluded → DatedByReads state session) ∧
    ∀ volume, abortedAdoption volume state.catalog = .adoptable →
      ∃ abortedAt, recordedAbortTime state.catalog = some abortedAt ∧
        ∃ session ∈ state.catalog.sessions, session.verifyType = .integrity ∧
          session.outcome = .passed ∧
          (∀ position ∈ state.contents session.id,
            ∃ read ∈ state.reads session.id, read.1.position = position) ∧
          ∀ read ∈ state.reads session.id, abortedAt < datetimeNow read.2 := by
  have sound := reached_sound reached
  refine ⟨sound.concluded, ?_⟩
  intro volume adoptable
  obtain ⟨abortedAt, isLatest, session, member, full, passed, after⟩ := adoptable_session adoptable
  obtain ⟨early, whole⟩ := sound.concluded session member full (.inl passed)
  obtain ⟨unique, counted⟩ := whole passed
  refine ⟨abortedAt, isLatest, session, member, full, passed, counted, ?_⟩
  intro read isRead
  have start : session.startedAt ≤ datetimeNow read.2 :=
    (Nat.le_div_iff_mul_le (by decide)).mpr (early unique read isRead)
  omega

/-- A full verify that reads everything in one moment and records it a few seconds later. -/
def verifyAt (env : Environment) (layout : Layout) (killedAfter : Option Nat) (second delay : Nat) :
    Execution where
  env := env
  layout := layout
  order := .sealFirst
  endedAfter := none
  readback := none
  verifyIntervalDays := some 30
  marksAborted := true
  killedAfter := killedAfter
  askedAt := second * nanos
  begunAt := second * nanos
  readAt _ := second * nanos
  recordedAt _ := (second + delay) * nanos
  endedAt := (second + delay) * nanos

theorem verify_at_timed {env : Environment} {layout : Layout} {killedAfter : Option Nat}
    {second delay : Nat} (later : state.now ≤ second * nanos) :
    (verifyAt env layout killedAfter second delay).Timed state := by
  have passes : second * nanos ≤ (second + delay) * nanos := Nat.mul_le_mul_right _ (by omega)
  exact ⟨later, Nat.le_refl _, fun _ _ _ _ => ⟨Nat.le_refl _, passes⟩,
    fun _ _ => ⟨passes, Nat.le_refl _⟩, fun _ _ _ _ => Nat.le_refl _, passes⟩

theorem verify_at_prompt (env : Environment) (layout : Layout) (killedAfter : Option Nat)
    (second : Nat) (state : State) : (verifyAt env layout killedAfter second 0).Prompt state :=
  fun _ _ _ _ _ => rfl

/-- An abort in the first second, a readback that dies after its first checkpoint, and one that
continues it in the ninth second. -/
def continuedReadback (before after : Environment) (layout : Layout) (second delay : Nat) : State :=
  ((State.empty.abort nanos).readBack (verifyAt before layout (some 1) second delay)).readBack
    (verifyAt after layout none 9 0)

theorem continued_readback_reached {allowed : State → Execution → Prop}
    {before after : Environment} {layout : Layout} {second delay : Nat}
    (counts : before.crate.CountsArrays ∧ after.crate.CountsArrays)
    (times : 1 ≤ second ∧ second + delay ≤ 9)
    (first : ∀ state, allowed state (verifyAt before layout (some 1) second delay))
    (last : ∀ state, allowed state (verifyAt after layout none 9 0)) :
    Reached allowed (continuedReadback before after layout second delay) := by
  have start : nanos ≤ second * nanos := by
    have scaled := Nat.mul_le_mul_right nanos times.1
    omega
  refine ((Relation.ReflTransGen.refl.tail (.abort nanos (Nat.zero_le _))).tail
    (.readBack _ (verify_at_timed start) counts.1 (first _))).tail
    (.readBack _ (verify_at_timed ?_) counts.2 (last _))
  exact Nat.mul_le_mul_right nanos times.2

def sealedVolume : VolumeRow := ⟨1, "V", .initialized, .ok, none, some "T", none⟩

/-- The one-slice tape when its slice cannot be read any more. -/
def wornTape : Environment :=
  { oneSliceTape with
    read := fun call position =>
      if position = 4 then .error "medium error" else oneSliceTape.read call position }

def passedReadback : State := continuedReadback oneSliceTape oneSliceTape oneSliceLayout 2 0

def failedReadback : State := continuedReadback oneSliceTape wornTape oneSliceLayout 2 0

theorem full_readbacks_dated_by_oldest_read_continued :
    (∃ abortedAt, recordedAbortTime passedReadback.catalog = some abortedAt ∧
      ∃ session ∈ passedReadback.catalog.sessions, session.verifyType = .integrity ∧
        session.outcome = .passed ∧
        (∀ position ∈ passedReadback.contents session.id,
          ∃ read ∈ passedReadback.reads session.id, read.1.position = position) ∧
        ∀ read ∈ passedReadback.reads session.id, abortedAt < datetimeNow read.2) ∧
      (⟨2, .integrity, .failed, 2⟩ : VerificationSession) ∈ failedReadback.catalog.sessions ∧
      DatedByReads failedReadback ⟨2, .integrity, .failed, 2⟩ ∧
      (failedReadback.contents 2).Nodup := by
  have failed : (⟨2, .integrity, .failed, 2⟩ : VerificationSession) ∈
      failedReadback.catalog.sessions := by decide +kernel
  refine ⟨?_, failed, ?_, by decide +kernel⟩
  · exact (full_readbacks_dated_by_oldest_read (continued_readback_reached
      ⟨Toml.plain_crate_counts_arrays, Toml.plain_crate_counts_arrays⟩ (by decide)
      (verify_at_prompt _ _ _ _) (verify_at_prompt _ _ _ _))).2 sealedVolume (by decide +kernel)
  · exact (full_readbacks_dated_by_oldest_read (continued_readback_reached
      ⟨Toml.plain_crate_counts_arrays, Toml.plain_crate_counts_arrays⟩ (by decide)
      (verify_at_prompt _ _ _ _) (verify_at_prompt _ _ _ _))).1 _ failed rfl (.inr rfl)

def twiceListedIndex : Bytes :=
  let slice (size : Int) (hash : String) : Toml.Block :=
    ⟨.arrayOfTables, "files", [("position", .integer 4), ("type", .string "data_slice"),
      ("size_bytes", .integer size), ("sha256_encrypted", .string hash)]⟩
  encodeUtf8 (Toml.Document.render
    [⟨.table, "index", [("volume", .string "V"), ("layout_version", .integer 2)]⟩,
      slice 1 "1", slice 2 "2"])

/-- A tape whose front index lists File 4 twice, the second time one byte longer. `torn` says which
reads of the file fail. -/
def twiceListedTape (torn : Nat → Bool) : Environment where
  crate := Toml.plainCrate
  sha256Hex bytes := toString bytes.length
  read call position := match position with
    | 3 => .ok twiceListedIndex
    | 4 => if torn call then .error "medium error" else .ok [1, 2]
    | 5 => .ok (encodeUtf8 (Toml.Document.render
      [⟨.table, "seal", [("volume", .string "V"), ("layout_version", .integer 2),
        ("file_count", .integer 6), ("sealed_at", .string "T"),
        ("front_index_sha256", .string (toString twiceListedIndex.length))]⟩]))
    | _ => .ok []
  signalled _ := false

def twiceListedLayout : Layout where
  label := "V"
  volumeUuid := "U"
  blockSize := 512
  entries := [⟨3, .frontIndex, some twiceListedIndex.length, none⟩, ⟨5, .sealMarker, none, none⟩]

def lateReadback : State := continuedReadback oneSliceTape oneSliceTape oneSliceLayout 1 1

def twiceListedReadback : State :=
  continuedReadback (twiceListedTape fun call => call == 2) (twiceListedTape fun _ => false)
    twiceListedLayout 2 0

/-- A second passes between the read of the first file and its checkpoint: the file was read in the
second of the abort, the readback that skips it is dated after it, and the aborted session is
adopted. And a failed readback of a front index that lists a file twice, the first entry unreadable
the first time: the second entry is skipped, but the first one has its row. -/
theorem readback_dated_after_its_read :
    (Reached (fun _ _ => True) lateReadback ∧
      abortedAdoption sealedVolume lateReadback.catalog = .adoptable ∧
      recordedAbortTime lateReadback.catalog = some 1 ∧
      (⟨2, .integrity, .passed, 2⟩ : VerificationSession) ∈ lateReadback.catalog.sessions ∧
      ∃ read ∈ lateReadback.reads 2, read.2 < 2 * nanos ∧ datetimeNow read.2 ≤ 1) ∧
    Reached Execution.Prompt twiceListedReadback ∧
      (⟨2, .integrity, .failed, 9⟩ : VerificationSession) ∈ twiceListedReadback.catalog.sessions ∧
      ∃ read ∈ twiceListedReadback.reads 2, read.2 < 9 * nanos := by
  refine ⟨⟨?_, by decide +kernel⟩, ?_, by decide +kernel⟩
  · exact continued_readback_reached
      ⟨Toml.plain_crate_counts_arrays, Toml.plain_crate_counts_arrays⟩ (by decide)
      (fun _ => trivial) fun _ => trivial
  · exact continued_readback_reached
      ⟨Toml.plain_crate_counts_arrays, Toml.plain_crate_counts_arrays⟩ (by decide)
      (verify_at_prompt _ _ _ _) (verify_at_prompt _ _ _ _)

end Tapectl.Volume.Readback
