import Tapectl.Store.ReadOrder
import Tapectl.Store.Integrity

/-!
# A resumed readback equals a fresh one

`volume resume` continues an interrupted full readback from the checkpoints the earlier walks
reported through `on_passed`. On a medium that answers every read of a position the same way, the
checkpoint of a position says what reading the file again would say: its claim in File 3 was matched
by that position's bytes. A walk that skips the file therefore counts, reports and finds the same as
one that reads it, whichever of the files ahead of File 3 it held.
-/

namespace Tapectl.Confirm

open StoredText Tapectl.Volume Tapectl.Volume.Format
open Tapectl.Seam (smallFileCap)

section Resume

variable {crate : Toml.Crate} {sha256Hex : Bytes → String} {medium : Nat → Except String Bytes}

def interruptedEnvironment (crate : Toml.Crate) (sha256Hex : Bytes → String)
    (medium : Nat → Except String Bytes) (signalled : Nat → Bool) : Environment where
  crate := crate
  sha256Hex := sha256Hex
  read _ position := medium position
  signalled := signalled

/-- A claim read back on a steady medium, held ahead of File 3 or not. -/
def readBackSteady (crate : Toml.Crate) (sha256Hex : Bytes → String)
    (medium : Nat → Except String Bytes) (claim : ParsedIndexEntry) : ReadBack :=
  (readBackClaim (steadyEnvironment crate sha256Hex medium) claim none 0).1

theorem read_back_claim_held {signalled : Nat → Bool} {held : List (Nat × Held)}
    (reads : HeldReads (interruptedEnvironment crate sha256Hex medium signalled) held)
    (claim : ParsedIndexEntry) (call : Nat) :
    (readBackClaim (interruptedEnvironment crate sha256Hex medium signalled) claim
        (held.lookup (asU32 claim.position)) call).1 =
      readBackSteady crate sha256Hex medium claim := by
  unfold readBackSteady readBackClaim
  cases claim.sha256Encrypted with
  | none => rfl
  | some wantHash =>
    cases claim.sizeBytes with
    | none => rfl
    | some wantSize =>
      cases kept : held.lookup (asU32 claim.position) with
      | none => rfl
      | some file =>
        obtain ⟨asked, answer⟩ := reads _ _ kept
        simp only [← answer]
        rfl

theorem hold_files_held {signalled : Nat → Bool} (positions : List Nat) (call : Nat) :
    HeldReads (interruptedEnvironment crate sha256Hex medium signalled)
      (holdFiles (interruptedEnvironment crate sha256Hex medium signalled) positions call).1 :=
  fun _ _ kept => hold_files_reads kept

variable {ending : WalkEnding} {resume : Option Checkpoints} {claims : List ParsedIndexEntry}
  {layout : Layout} {claim : ParsedIndexEntry} {checkpoint : Checkpoint}

/-- A pass that trusts checkpoints finds what a pass that reads every file finds, where each file it
skips would read back clean. -/
theorem read_contents_trusted (fiPos : Nat) (fiHash : String) {skipping reading : List (Nat × Held)}
    (skippingReads : HeldReads (steadyEnvironment crate sha256Hex medium) skipping)
    (readingReads : HeldReads (steadyEnvironment crate sha256Hex medium) reading)
    (trusted : ∀ claim ∈ claims, ∀ want, alreadyPassed resume ending claim = some want →
      readBackSteady crate sha256Hex medium claim = ⟨1, [], some want⟩)
    (progress : Progress) (call other : Nat) :
    ∃ final,
      (readContents (steadyEnvironment crate sha256Hex medium) fiPos ending resume skipping fiHash
        claims progress call).1 = ⟨none, final⟩ ∧
      (readContents (steadyEnvironment crate sha256Hex medium) fiPos ending none reading fiHash
        claims progress other).1 = ⟨none, final⟩ := by
  induction claims generalizing progress call other with
  | nil => exact ⟨progress, rfl, rfl⟩
  | cons claim claims ih =>
    have rest := ih fun claim member => trusted claim (List.mem_cons_of_mem _ member)
    have fresh : alreadyPassed none ending claim = none := rfl
    have quiet : ∀ n, (steadyEnvironment crate sha256Hex medium).signalled n = false :=
      fun _ => rfl
    have readingBack : ∀ n, (readBackClaim (steadyEnvironment crate sha256Hex medium) claim
        (reading.lookup (asU32 claim.position)) n).1 =
        readBackSteady crate sha256Hex medium claim := read_back_claim_held readingReads claim
    have skippingBack : ∀ n, (readBackClaim (steadyEnvironment crate sha256Hex medium) claim
        (skipping.lookup (asU32 claim.position)) n).1 =
        readBackSteady crate sha256Hex medium claim := read_back_claim_held skippingReads claim
    simp only [readContents]
    by_cases skipped : asU32 claim.position = fiPos ∨ ending.endedAfter < asU32 claim.position
    · simp only [skipped, if_true]
      exact rest progress call other
    · simp only [skipped, if_false, fresh, quiet, Bool.false_eq_true, readingBack]
      cases passed : alreadyPassed resume ending claim with
      | none =>
        simp only [skippingBack]
        exact rest _ _ _
      | some want =>
        simp only [trusted claim List.mem_cons_self want passed, List.append_nil]
        exact rest _ _ _

def readIndexSteady (crate : Toml.Crate) (sha256Hex : Bytes → String)
    (medium : Nat → Except String Bytes) (start : WalkStart) : IndexRead :=
  indexVerdict (steadyEnvironment crate sha256Hex medium) start.fiPos start.fiTrueLen
    (medium start.fiPos)

/-- A checkpoint a full readback of this Layout reported over this medium, in any order, up to any
ending, stopped by a signal or not, and itself continued only from such checkpoints. -/
inductive Reported (crate : Toml.Crate) (sha256Hex : Bytes → String)
    (medium : Nat → Except String Bytes) (layout : Layout) : Checkpoint → Prop
  | walk {signalled : Nat → Bool} {plan : ConfirmPlan} {checkpoint : Checkpoint}
      (integrity : plan.tier = .integrity)
      (continued : ∀ checkpoints, plan.resume = some checkpoints → ∀ position sha256,
        checkpoints.passed position = some sha256 →
        Reported crate sha256Hex medium layout
          ⟨position, sha256, checkpoints.frontIndexSha256⟩)
      (told : checkpoint ∈ (chainWalk (interruptedEnvironment crate sha256Hex medium signalled)
        layout plan).passed) :
      Reported crate sha256Hex medium layout checkpoint

/-- The checkpoint names a claim of the tape's own File 3 that the tape's own bytes match. -/
def Verified (crate : Toml.Crate) (sha256Hex : Bytes → String)
    (medium : Nat → Except String Bytes) (layout : Layout) (checkpoint : Checkpoint) : Prop :=
  ∃ plan start claims claim, walkStart layout plan = .ok start ∧
    readIndexSteady crate sha256Hex medium start =
      .parsed checkpoint.frontIndexSha256 claims ∧
    claim ∈ claims ∧ asU32 claim.position = checkpoint.position ∧
    readBackSteady crate sha256Hex medium claim = ⟨1, [], some checkpoint.sha256⟩

theorem walk_start_index {plan other : ConfirmPlan} {start second : WalkStart}
    (started : walkStart layout plan = .ok start) (again : walkStart layout other = .ok second) :
    second.fiPos = start.fiPos ∧ second.fiTrueLen = start.fiTrueLen := by
  unfold walkStart at started again
  split at started
  · cases started
  next sealEntry sealFound =>
  rw [sealFound] at again
  split at started
  · cases started
  next fiEntry indexFound =>
  simp only [indexFound] at again
  split at started
  · cases started
  next fiTrueLen sized =>
  simp only [sized] at again
  simp only at started
  split at started
  · cases started
  split at again
  · cases again
  cases started
  cases again
  exact ⟨rfl, rfl⟩

theorem read_back_steady_clean {want : String}
    (clean : (readBackSteady crate sha256Hex medium claim).clean = some want) :
    readBackSteady crate sha256Hex medium claim = ⟨1, [], some want⟩ ∧
      claim.sha256Encrypted = some want := by
  unfold readBackSteady readBackClaim at clean ⊢
  cases hash : claim.sha256Encrypted with
  | none => simp [hash] at clean
  | some wantHash =>
    cases size : claim.sizeBytes with
    | none => simp [hash, size] at clean
    | some wantSize =>
      simp only [hash, size, contentVerdict] at clean ⊢
      split at clean
      · cases clean
      · split at clean
        · cases clean
        · split at clean
          · cases clean
          · next short same =>
              simp only [Option.some.injEq] at clean
              subst clean
              simp_all

/-- Every checkpoint a pass reports is one it was told before, one it trusted, or one it read. -/
theorem mem_read_contents_passed {env : Environment} {fiPos : Nat} {held : List (Nat × Held)}
    {fiHash : String} {progress : Progress} {call : Nat}
    (told : checkpoint ∈
      (readContents env fiPos ending resume held fiHash claims progress call).1.progress.passed) :
    checkpoint ∈ progress.passed ∨ ∃ claim ∈ claims, ∃ want,
      checkpoint = ⟨asU32 claim.position, want, fiHash⟩ ∧
      (alreadyPassed resume ending claim = some want ∨
        ∃ asked, (readBackClaim env claim (held.lookup (asU32 claim.position)) asked).1.clean =
          some want) := by
  induction claims generalizing progress call with
  | nil => exact Or.inl told
  | cons claim claims ih =>
    simp only [readContents] at told
    have later : ∀ {next : Progress} {asked : Nat}, checkpoint ∈ (readContents env fiPos ending
        resume held fiHash claims next asked).1.progress.passed →
        checkpoint ∈ next.passed ∨ ∃ claim' ∈ claim :: claims, ∃ want,
          checkpoint = ⟨asU32 claim'.position, want, fiHash⟩ ∧
          (alreadyPassed resume ending claim' = some want ∨
            ∃ asked, (readBackClaim env claim' (held.lookup (asU32 claim'.position))
              asked).1.clean = some want) := by
      intro next asked told
      rcases ih told with before | ⟨other, member, rest⟩
      · exact Or.inl before
      · exact Or.inr ⟨other, List.mem_cons_of_mem _ member, rest⟩
    by_cases skipped : asU32 claim.position = fiPos ∨ ending.endedAfter < asU32 claim.position
    · simp only [skipped, if_true] at told
      exact later told
    · simp only [skipped, if_false] at told
      cases trusted : alreadyPassed resume ending claim with
      | some want =>
        simp only [trusted] at told
        rcases later told with before | found
        · rcases List.mem_append.mp before with before | own
          · exact Or.inl before
          · exact Or.inr ⟨claim, List.mem_cons_self, want, List.mem_singleton.mp own,
              Or.inl trusted⟩
        · exact Or.inr found
      | none =>
        simp only [trusted] at told
        split at told
        · exact Or.inl told
        · rcases later told with before | found
          · rcases List.mem_append.mp before with before | own
            · exact Or.inl before
            · cases clean : (readBackClaim env claim
                  (held.lookup (asU32 claim.position)) call).1.clean with
              | none =>
                rw [clean] at own
                cases own
              | some want =>
                rw [clean] at own
                exact Or.inr ⟨claim, List.mem_cons_self, want, List.mem_singleton.mp own,
                  Or.inr ⟨call, clean⟩⟩
          · exact Or.inr found

theorem already_passed_some {want : String}
    (passed : alreadyPassed resume ending claim = some want) :
    ∃ checkpoints, resume = some checkpoints ∧ claim.sha256Encrypted = some want ∧
      checkpoints.passed (asU32 claim.position) = some want := by
  unfold alreadyPassed at passed
  simp only at passed
  split at passed
  · next checkpoints stated size hash sized =>
      split at passed
      · cases passed
      · split at passed
        · next stands =>
            cases passed
            exact ⟨checkpoints, rfl, hash, stands⟩
        · cases passed
  · cases passed

theorem mem_chain_walk_passed {env : Environment} {plan : ConfirmPlan}
    (told : checkpoint ∈ (chainWalk env layout plan).passed) :
    ∃ start call, walkStart layout plan = .ok start ∧
      checkpoint ∈ (walkFromIndex env layout plan start.fiPos start.ending start.fiTrueLen
        call).1.passed := by
  cases started : walkStart layout plan with
  | error message =>
    rw [chain_walk_not_started started] at told
    cases told
  | ok start =>
    by_cases first : plan.tier = .integrity ∧ plan.order = .sealFirst
    · cases sealRead : (readSeal env start.ending 0).1 with
      | refused filesChecked mismatch =>
        rw [chain_walk_refused_first started first sealRead] at told
        cases told
      | bound hash endedAfter =>
        rw [chain_walk_bound_first started first sealRead] at told
        exact ⟨start, 1, rfl, told⟩
    · rw [chain_walk_seal_last started first] at told
      exact ⟨start, 0, rfl, told⟩

/-- What was reported is true of the tape, however often the readback was stopped and continued. -/
theorem Reported.verified (reported : Reported crate sha256Hex medium layout checkpoint) :
    Verified crate sha256Hex medium layout checkpoint := by
  induction reported with
  | @walk signalled plan checkpoint integrity continued told ih =>
    obtain ⟨start, call, started, told⟩ := mem_chain_walk_passed told
    simp only [walkFromIndex, integrity, if_true] at told
    split at told
    · cases told
    next fiHash claims parsed =>
    rcases mem_read_contents_passed told with none | ⟨claim, member, want, rfl, trusted | read⟩
    · cases none
    · -- Trusted: an earlier walk read it against the same File 3.
      obtain ⟨checkpoints, honoured, _, stands⟩ := already_passed_some trusted
      obtain ⟨resume, same⟩ := Option.filter_eq_some_iff.mp honoured
      have earlier := ih checkpoints resume _ _ stands
      rwa [beq_iff_eq.mp same] at earlier
    · obtain ⟨asked, clean⟩ := read
      rw [read_back_claim_held (hold_files_held _ _)] at clean
      exact ⟨plan, start, claims, claim, started, parsed, member, rfl,
        (read_back_steady_clean clean).1⟩

theorem walk_from_index_trusted {plan : ConfirmPlan} {start : WalkStart}
    {checkpoints : Checkpoints} (integrity : plan.tier = .integrity)
    (trusted : ∀ fiHash claims, readIndexSteady crate sha256Hex medium start =
        .parsed fiHash claims → checkpoints.frontIndexSha256 = fiHash → ∀ claim ∈ claims,
      ∀ want, claim.sha256Encrypted = some want →
        checkpoints.passed (asU32 claim.position) = some want →
        readBackSteady crate sha256Hex medium claim = ⟨1, [], some want⟩) (call : Nat) :
    (walkFromIndex (steadyEnvironment crate sha256Hex medium) layout
        { plan with resume := some checkpoints } start.fiPos start.ending start.fiTrueLen call).1 =
      (walkFromIndex (steadyEnvironment crate sha256Hex medium) layout
        { plan with resume := none } start.fiPos start.ending start.fiTrueLen call).1 := by
  have sameRead : ∀ n position,
      (steadyEnvironment crate sha256Hex medium).read n position = medium position :=
    fun _ _ => rfl
  simp only [walkFromIndex, integrity, if_true, sameRead]
  cases read : readIndexSteady crate sha256Hex medium start with
  | stopped result =>
    rw [readIndexSteady] at read
    simp only [read]
  | parsed fiHash claims =>
    rw [readIndexSteady] at read
    simp only [read]
    have clean : ∀ claim ∈ claims, ∀ want, alreadyPassed ((some checkpoints).filter fun other =>
        other.frontIndexSha256 == fiHash) start.ending claim = some want →
        readBackSteady crate sha256Hex medium claim = ⟨1, [], some want⟩ := by
      intro claim member want passed
      obtain ⟨own, honoured, stated, stands⟩ := already_passed_some passed
      obtain ⟨same, hash⟩ := Option.filter_eq_some_iff.mp honoured
      cases same
      exact trusted fiHash claims read (beq_iff_eq.mp hash) claim member want stated stands
    obtain ⟨final, skipping, reading⟩ := read_contents_trusted start.fiPos fiHash
      (hold_files_held (aheadPositions layout start.fiPos (some checkpoints)) call)
      (hold_files_held (aheadPositions layout start.fiPos none) call) clean
      { filesChecked := 1
        mismatches := consistencyMismatches start.fiPos claims ++ layoutMismatches claims layout
        passed := [] }
      ((holdFiles (steadyEnvironment crate sha256Hex medium)
        (aheadPositions layout start.fiPos (some checkpoints)) call).2 + 1)
      ((holdFiles (steadyEnvironment crate sha256Hex medium)
        (aheadPositions layout start.fiPos none) call).2 + 1)
    have honest : steadyEnvironment crate sha256Hex medium =
      interruptedEnvironment crate sha256Hex medium fun _ => false := rfl
    rw [honest] at skipping reading ⊢
    simp only [skipping, reading, Option.filter_none]

theorem chain_walk_trusted {plan : ConfirmPlan} {checkpoints : Checkpoints}
    (same : ∀ start, walkStart layout plan = .ok start → ∀ call,
      (walkFromIndex (steadyEnvironment crate sha256Hex medium) layout
          { plan with resume := some checkpoints } start.fiPos start.ending start.fiTrueLen
          call).1 =
        (walkFromIndex (steadyEnvironment crate sha256Hex medium) layout
          { plan with resume := none } start.fiPos start.ending start.fiTrueLen call).1) :
    chainWalk (steadyEnvironment crate sha256Hex medium) layout
        { plan with resume := some checkpoints } =
      chainWalk (steadyEnvironment crate sha256Hex medium) layout { plan with resume := none } := by
  have startSame : walkStart layout { plan with resume := some checkpoints } =
      walkStart layout plan := rfl
  have startNone : walkStart layout { plan with resume := none } = walkStart layout plan := rfl
  cases started : walkStart layout plan with
  | error message =>
    rw [chain_walk_not_started (startSame.trans started),
      chain_walk_not_started (startNone.trans started)]
  | ok start =>
    by_cases first : plan.tier = .integrity ∧ plan.order = .sealFirst
    · cases sealRead : (readSeal (steadyEnvironment crate sha256Hex medium) start.ending 0).1 with
      | refused filesChecked mismatch =>
        rw [chain_walk_refused_first (startSame.trans started) first sealRead,
          chain_walk_refused_first (startNone.trans started) first sealRead]
      | bound hash endedAfter =>
        rw [chain_walk_bound_first (startSame.trans started) first sealRead,
          chain_walk_bound_first (startNone.trans started) first sealRead,
          same start started]
    · rw [chain_walk_seal_last (startSame.trans started) first,
        chain_walk_seal_last (startNone.trans started) first, same start started]
      rfl

theorem claim_unique {start : WalkStart} {fiHash : String} (counts : crate.CountsArrays)
    (read : readIndexSteady crate sha256Hex medium start = .parsed fiHash claims)
    (consistent : validateConsistency claims = []) {other : ParsedIndexEntry}
    (member : claim ∈ claims) (otherMember : other ∈ claims)
    (same : asU32 claim.position = asU32 other.position) : claim = other := by
  have few : claims.length ≤ smallFileCap :=
    @index_verdict_few (steadyEnvironment crate sha256Hex medium) _ _ _ _ _ counts read
  have cap : smallFileCap < 2 ^ 32 := by decide
  have ordered := validate_consistency_nil.mp consistent
  obtain ⟨index, found⟩ := List.mem_iff_getElem?.mp member
  obtain ⟨otherIndex, otherFound⟩ := List.mem_iff_getElem?.mp otherMember
  have bound := (List.getElem?_eq_some_iff.mp found).1
  have otherBound := (List.getElem?_eq_some_iff.mp otherFound).1
  rw [consistent_position ordered few found, consistent_position ordered few otherFound, asU32,
    asU32] at same
  have sameIndex : index = otherIndex := by omega
  rw [sameIndex, otherFound] at found
  exact (Option.some.inj found).symm

/-- Continuing a full readback from what earlier ones reported gives the evidence of a fresh one and
reports the same checkpoints, and checkpoints taken against another File 3 change nothing. -/
theorem resumed_readback_equals_fresh {layout : Layout} {plan : ConfirmPlan}
    (integrity : plan.tier = .integrity) (checkpoints : Checkpoints) :
    (crate.CountsArrays →
      (∀ start fiHash claims, walkStart layout plan = .ok start →
        readIndexSteady crate sha256Hex medium start = .parsed fiHash claims →
        validateConsistency claims = []) →
      (∀ position sha256, checkpoints.passed position = some sha256 →
        Reported crate sha256Hex medium layout
          ⟨position, sha256, checkpoints.frontIndexSha256⟩) →
      chainWalk (steadyEnvironment crate sha256Hex medium) layout
          { plan with resume := some checkpoints } =
        chainWalk (steadyEnvironment crate sha256Hex medium) layout
          { plan with resume := none }) ∧
    ((∀ start fiHash claims, walkStart layout plan = .ok start →
        readIndexSteady crate sha256Hex medium start = .parsed fiHash claims →
        checkpoints.frontIndexSha256 ≠ fiHash) →
      chainWalk (steadyEnvironment crate sha256Hex medium) layout
          { plan with resume := some checkpoints } =
        chainWalk (steadyEnvironment crate sha256Hex medium) layout
          { plan with resume := none }) := by
  constructor
  · intro counts consistent reported
    apply chain_walk_trusted
    intro start started call
    apply walk_from_index_trusted integrity
    intro fiHash claims read same claim member want stated stands
    obtain ⟨other, second, others, own, again, otherRead, ownMember, placed, clean⟩ :=
      (reported _ _ stands).verified
    -- The earlier walk parsed the same File 3, so it matched the same claim.
    obtain ⟨samePos, sameLen⟩ := walk_start_index started again
    have sameIndex : readIndexSteady crate sha256Hex medium second =
        readIndexSteady crate sha256Hex medium start := by
      rw [readIndexSteady, readIndexSteady, samePos, sameLen]
    rw [sameIndex, read] at otherRead
    cases otherRead
    rw [claim_unique counts read (consistent start _ _ started read) member ownMember placed.symm]
    exact clean
  · intro foreign
    apply chain_walk_trusted
    intro start started call
    apply walk_from_index_trusted integrity
    intro fiHash claims read same
    exact absurd same (foreign start fiHash claims started read)

end Resume

def oneSliceCheckpoints : Checkpoints where
  frontIndexSha256 := toString oneSliceIndex.length
  passed position := if position = 4 then some "2" else none

theorem one_slice_index_consistent :
    (match readIndexSteady Toml.plainCrate oneSliceTape.sha256Hex (oneSliceTape.read 0)
        ⟨3, oneSliceIndex.length, ⟨4, 5, none⟩⟩ with
      | .parsed _ claims => decide (validateConsistency claims = [])
      | .stopped _ => false) = true := by
  decide +kernel

theorem one_slice_reported :
    (⟨4, "2", toString oneSliceIndex.length⟩ : Checkpoint) ∈
      (chainWalk (interruptedEnvironment Toml.plainCrate oneSliceTape.sha256Hex
        (oneSliceTape.read 0) fun _ => false) oneSliceLayout freshIntegrity).passed := by
  decide +kernel

theorem resumed_readback_equals_fresh_one_slice :
    chainWalk (steadyEnvironment Toml.plainCrate oneSliceTape.sha256Hex (oneSliceTape.read 0))
        oneSliceLayout { freshIntegrity with resume := some oneSliceCheckpoints } =
      chainWalk (steadyEnvironment Toml.plainCrate oneSliceTape.sha256Hex (oneSliceTape.read 0))
        oneSliceLayout { freshIntegrity with resume := none } := by
  apply (resumed_readback_equals_fresh rfl oneSliceCheckpoints).1 Toml.plain_crate_counts_arrays
  · intro start fiHash claims started read
    have own : walkStart oneSliceLayout freshIntegrity =
      .ok ⟨3, oneSliceIndex.length, ⟨4, 5, none⟩⟩ := rfl
    rw [own] at started
    have consistent := one_slice_index_consistent
    rw [Except.ok.inj started, read] at consistent
    exact of_decide_eq_true consistent
  · intro position sha256 stands
    have four : position = 4 ∧ "2" = sha256 := by
      simpa [oneSliceCheckpoints] using stands
    rw [four.1, ← four.2]
    exact Reported.walk rfl (fun checkpoints resume => by cases resume) one_slice_reported

end Tapectl.Confirm
