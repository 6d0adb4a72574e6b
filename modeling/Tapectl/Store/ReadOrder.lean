import Tapectl.Store.Confirm

/-!
# The read order does not change the verdict

On a medium that answers every read of a position the same way, and with no signal pending, no part
of the walk depends on how many reads came before it. `SealFirst` then differs from `SealLast` only
in what it reads after a refused seal, which `judge` throws away.
-/

namespace Tapectl.Confirm

open StoredText Tapectl.Volume Tapectl.Volume.Format

/-- A medium that gives each position's bytes or its read error, on every read the same. -/
def steadyEnvironment (crate : Toml.Crate) (sha256Hex : Bytes → String)
    (medium : Nat → Except String Bytes) : Environment where
  crate := crate
  sha256Hex := sha256Hex
  read _ position := medium position
  signalled _ := false

section Steady

variable (crate : Toml.Crate) (sha256Hex : Bytes → String) (medium : Nat → Except String Bytes)

theorem hold_files_steady (positions : List Nat) (call other : Nat) :
    (holdFiles (steadyEnvironment crate sha256Hex medium) positions call).1 =
      (holdFiles (steadyEnvironment crate sha256Hex medium) positions other).1 := by
  induction positions generalizing call other with
  | nil => rfl
  | cons position positions ih =>
    have rest := ih (call + 1) (other + 1)
    simp only [holdFiles, steadyEnvironment] at rest ⊢
    cases medium position with
    | error message => simp only [rest]
    | ok bytes =>
      simp only
      split <;> simp only [rest]

theorem read_back_claim_steady (claim : ParsedIndexEntry) (held : Option Held) (call other : Nat) :
    (readBackClaim (steadyEnvironment crate sha256Hex medium) claim held call).1 =
      (readBackClaim (steadyEnvironment crate sha256Hex medium) claim held other).1 := by
  unfold readBackClaim
  split
  · cases held <;> rfl
  · rfl

/-- With no signal the content pass always comes to its end, with the same findings wherever it
starts counting reads. -/
theorem read_contents_steady (fiPos : Nat) (ending : WalkEnding) (resume : Option Checkpoints)
    (held : List (Nat × Held)) (fiHash : String) (claims : List ParsedIndexEntry)
    (progress : Progress) (call other : Nat) :
    ∃ final,
      (readContents (steadyEnvironment crate sha256Hex medium) fiPos ending resume held fiHash
        claims progress call).1 = ⟨none, final⟩ ∧
      (readContents (steadyEnvironment crate sha256Hex medium) fiPos ending resume held fiHash
        claims progress other).1 = ⟨none, final⟩ := by
  induction claims generalizing progress call other with
  | nil => exact ⟨progress, rfl, rfl⟩
  | cons claim claims ih =>
    simp only [readContents]
    by_cases skipped : asU32 claim.position = fiPos ∨ ending.endedAfter < asU32 claim.position
    · simp only [skipped, if_true]
      exact ih progress call other
    · simp only [skipped, if_false]
      cases alreadyPassed resume ending claim with
      | some want => exact ih _ call other
      | none =>
        have quiet : ∀ n, (steadyEnvironment crate sha256Hex medium).signalled n = false :=
          fun _ => rfl
        simp only [quiet, Bool.false_eq_true, if_false,
          read_back_claim_steady crate sha256Hex medium claim _ call 0,
          read_back_claim_steady crate sha256Hex medium claim _ other 0]
        exact ih _ _ _

theorem read_back_past_warning_steady (claims : List ParsedIndexEntry) (ending : WalkEnding)
    (mismatches : List Mismatch) (call other : Nat) :
    (readBackPastWarning (steadyEnvironment crate sha256Hex medium) claims ending mismatches
        call).1 =
      (readBackPastWarning (steadyEnvironment crate sha256Hex medium) claims ending mismatches
        other).1 := by
  unfold readBackPastWarning
  cases ending.readback with
  | none => rfl
  | some position =>
    simp only
    split
    · exact read_back_claim_steady crate sha256Hex medium _ _ _ _
    · split <;> rfl

theorem walk_from_index_steady (layout : Layout) (plan : ConfirmPlan) (fiPos : Nat)
    (ending : WalkEnding) (fiTrueLen call other : Nat) :
    ∃ result, (walkFromIndex (steadyEnvironment crate sha256Hex medium) layout plan fiPos ending
        fiTrueLen call).1.outcome = .ok result ∧
      (walkFromIndex (steadyEnvironment crate sha256Hex medium) layout plan fiPos ending
        fiTrueLen other).1.outcome = .ok result := by
  have sameRead : ∀ n position,
      (steadyEnvironment crate sha256Hex medium).read n position = medium position :=
    fun _ _ => rfl
  cases tier : plan.tier with
  | navigable =>
    simp only [walkFromIndex, tier, reduceCtorEq, if_false, sameRead]
    cases indexVerdict (steadyEnvironment crate sha256Hex medium) fiPos fiTrueLen
        (medium fiPos) with
    | stopped result => exact ⟨result, rfl, rfl⟩
    | parsed fiHash claims =>
      simp only [read_back_past_warning_steady crate sha256Hex medium claims ending _
        (call + 1) (other + 1)]
      exact ⟨_, rfl, rfl⟩
  | integrity =>
    simp only [walkFromIndex, tier, if_true, sameRead,
      hold_files_steady crate sha256Hex medium _ call other]
    cases indexVerdict (steadyEnvironment crate sha256Hex medium) fiPos fiTrueLen
        (medium fiPos) with
    | stopped result => exact ⟨result, rfl, rfl⟩
    | parsed fiHash claims =>
      obtain ⟨final, first, second⟩ := read_contents_steady crate sha256Hex medium fiPos ending
        (plan.resume.filter fun checkpoints => checkpoints.frontIndexSha256 == fiHash)
        (holdFiles (steadyEnvironment crate sha256Hex medium)
          (aheadPositions layout fiPos plan.resume) other).1 fiHash claims
        { filesChecked := 1
          mismatches := consistencyMismatches fiPos claims ++ layoutMismatches claims layout
          passed := [] }
        ((holdFiles (steadyEnvironment crate sha256Hex medium)
          (aheadPositions layout fiPos plan.resume) call).2 + 1)
        ((holdFiles (steadyEnvironment crate sha256Hex medium)
          (aheadPositions layout fiPos plan.resume) other).2 + 1)
      simp only [first, second]
      exact ⟨_, rfl, rfl⟩

end Steady

/-- Reading the seal first or last gives the same evidence, or the same error. -/
theorem chain_walk_read_order (crate : Toml.Crate) (sha256Hex : Bytes → String)
    (medium : Nat → Except String Bytes) (layout : Layout) (plan : ConfirmPlan) :
    (chainWalk (steadyEnvironment crate sha256Hex medium) layout
        { plan with order := .sealFirst }).outcome =
      (chainWalk (steadyEnvironment crate sha256Hex medium) layout
        { plan with order := .sealLast }).outcome := by
  have sameStart : walkStart layout { plan with order := .sealFirst } =
      walkStart layout { plan with order := .sealLast } := rfl
  cases started : walkStart layout { plan with order := .sealLast } with
  | error message =>
    rw [chain_walk_not_started started, chain_walk_not_started (sameStart.trans started)]
  | ok start =>
    have notFirst : ¬ (plan.tier = .integrity ∧ ReadOrder.sealLast = .sealFirst) :=
      fun both => ReadOrder.noConfusion both.2
    rw [chain_walk_seal_last started notFirst]
    by_cases integrity : plan.tier = .integrity
    · obtain ⟨result, first, last⟩ := walk_from_index_steady crate sha256Hex medium layout plan
        start.fiPos start.ending start.fiTrueLen 1 0
      have sameSeal : ∀ call, (readSeal (steadyEnvironment crate sha256Hex medium)
          start.ending call).1 = (readSeal (steadyEnvironment crate sha256Hex medium)
          start.ending 0).1 := fun _ => rfl
      rw [sameSeal]
      refine Eq.trans ?_ (finish_walk_ok last).symm
      cases sealRead : (readSeal (steadyEnvironment crate sha256Hex medium) start.ending 0).1 with
      | refused filesChecked mismatch =>
        rw [chain_walk_refused_first (sameStart.trans started) ⟨integrity, rfl⟩ sealRead]
        rfl
      | bound hash endedAfter =>
        rw [chain_walk_bound_first (sameStart.trans started) ⟨integrity, rfl⟩ sealRead]
        exact finish_walk_ok first
    · rw [chain_walk_seal_last (sameStart.trans started) fun both => integrity both.1]
      rfl

end Tapectl.Confirm
