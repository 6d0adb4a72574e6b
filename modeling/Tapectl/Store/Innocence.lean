import Tapectl.Store.Integrity

/-!
# Findings that do not condemn a medium

A confirm reports what it found as mismatches, and only some kinds say that the medium is bad.
Where every read delivers a file from its beginning, whole or in part, or fails, the walk from a
true front index finds only the other kinds: a content file either falls short, which is
`ContentUnreadable`, or is hashed over exactly the bytes that were written; and a front index that
comes back in full length is the one that was written.
-/

namespace Tapectl.Confirm

open StoredText Tapectl.Volume Tapectl.Volume.Format
open Tapectl.Seam (smallFileCap)

/-- Each read delivers the file at the position, or a part of it from its beginning; past the last
file there is nothing to deliver. -/
def Environment.PartialReads (env : Environment) (files : List Bytes) : Prop :=
  ∀ call position bytes, env.read call position = .ok bytes → bytes <+: files.getD position []

def Innocent (mismatches : List Mismatch) : Prop :=
  ∀ mismatch ∈ mismatches, mismatch.kind.provesMediumBad = false

theorem Innocent.append {left right : List Mismatch} (first : Innocent left)
    (second : Innocent right) : Innocent (left ++ right) := by
  intro mismatch member
  rcases List.mem_append.mp member with inLeft | inRight
  · exact first mismatch inLeft
  · exact second mismatch inRight

theorem innocent_nil : Innocent [] := by simp [Innocent]

theorem innocent_singleton {mismatch : Mismatch}
    (harmless : mismatch.kind.provesMediumBad = false) : Innocent [mismatch] := by
  simpa [Innocent] using harmless

/-- What a tape holds of a file: its bytes, and the zeros that fill its last block. -/
structure Holds (files : List Bytes) (position : Nat) (content : Bytes) : Prop where
  padded : ∃ padding, files.getD position [] = content ++ List.replicate padding 0

theorem Holds.take {files : List Bytes} {position : Nat} {content bytes : Bytes}
    (holds : Holds files position content) (part : bytes <+: files.getD position [])
    (long : content.length ≤ bytes.length) : bytes.take content.length = content := by
  obtain ⟨padding, whole⟩ := holds.padded
  have front : content <+: bytes := by
    apply List.prefix_of_prefix_length_le _ part long
    rw [whole]
    exact List.prefix_append _ _
  exact (List.prefix_iff_eq_take.mp front).symm

variable {env : Environment} {layout : Layout} {fiPos : Nat} {claims : List ParsedIndexEntry}
  {ending : WalkEnding}

theorem content_verdict_innocent {files : List Bytes} {position : Nat} {content : Bytes}
    (holds : Holds files position content) {answer : Except String Bytes}
    (part : ∀ bytes, answer = .ok bytes → bytes <+: files.getD position []) :
    Innocent (contentVerdict env position (env.sha256Hex content) content.length
      answer).mismatches := by
  unfold contentVerdict
  cases answer with
  | error message => exact innocent_singleton rfl
  | ok bytes =>
    simp only
    split
    · exact innocent_singleton rfl
    · next long =>
        rw [holds.take (part bytes rfl) (by omega)]
        simpa using innocent_nil

def ClaimsHold (env : Environment) (files : List Bytes) (claims : List ParsedIndexEntry)
    (fiPos reach : Nat) : Prop :=
  ∀ claim ∈ claims, asU32 claim.position ≠ fiPos → asU32 claim.position ≤ reach →
    ∃ content, claim.sizeBytes = some content.length ∧
      claim.sha256Encrypted = some (env.sha256Hex content) ∧
      Holds files (asU32 claim.position) content

section Walk

variable {env : Environment} {files : List Bytes} (partialReads : env.PartialReads files)

include partialReads

theorem read_back_claim_innocent {claim : ParsedIndexEntry} {content : Bytes}
    (sized : claim.sizeBytes = some content.length)
    (hashed : claim.sha256Encrypted = some (env.sha256Hex content))
    (holds : Holds files (asU32 claim.position) content) {held : Option Held} {call : Nat}
    (reads : ∀ file, held = some file → ∃ asked, env.read asked (asU32 claim.position) = file.answer) :
    Innocent (readBackClaim env claim held call).1.mismatches := by
  unfold readBackClaim
  rw [sized, hashed]
  cases held with
  | none => exact content_verdict_innocent holds (partialReads call _)
  | some file =>
    refine content_verdict_innocent holds fun bytes answered => ?_
    obtain ⟨asked, read⟩ := reads file rfl
    exact partialReads asked _ _ (read.trans answered)

theorem read_contents_innocent {fiPos : Nat} {ending : WalkEnding} {resume : Option Checkpoints}
    {held : List (Nat × Held)} {fiHash : String} {claims : List ParsedIndexEntry}
    {progress : Progress} {call : Nat} (reads : HeldReads env held)
    (claimsHold : ClaimsHold env files claims fiPos ending.endedAfter)
    (innocent : Innocent progress.mismatches) :
    Innocent (readContents env fiPos ending resume held fiHash claims progress
      call).1.progress.mismatches := by
  induction claims generalizing progress call with
  | nil => exact innocent
  | cons claim claims ih =>
    have rest : ClaimsHold env files claims fiPos ending.endedAfter :=
      fun other member => claimsHold other (by simp [member])
    simp only [readContents]
    split
    · exact ih rest innocent
    · next inReach =>
        simp only [not_or, not_lt] at inReach
        split
        · exact ih rest innocent
        · split
          · exact innocent
          · obtain ⟨content, sized, hashed, holds⟩ :=
              claimsHold claim (by simp) inReach.1 inReach.2
            exact ih rest (innocent.append (read_back_claim_innocent partialReads sized hashed
              holds fun file kept => reads _ _ kept))

end Walk

/-- The front index a tape holds: what it parses to agrees with itself and with the Layout. -/
structure TrueIndex (env : Environment) (layout : Layout) (files : List Bytes) (fiPos : Nat)
    (content : Bytes) (claims : List ParsedIndexEntry) : Prop where
  holds : Holds files fiPos content
  parses : parseFrontIndex env.crate (fromUtf8Lossy content) = .ok claims
  consistent : consistencyMismatches fiPos claims = []
  agrees : layoutMismatches claims layout = []

theorem TrueIndex.parsed {files : List Bytes} {content : Bytes}
    (index : TrueIndex env layout files fiPos content claims) {bytes : Bytes}
    (part : bytes <+: files.getD fiPos []) (small : bytes.length ≤ smallFileCap)
    (long : content.length ≤ bytes.length) :
    indexVerdict env fiPos content.length (.ok bytes) = .parsed (env.sha256Hex content) claims := by
  simp only [indexVerdict, intoSmallSink, Nat.not_lt.mpr small, Nat.not_lt.mpr long,
    if_false, index.holds.take part long, index.parses]

theorem TrueIndex.verdict {files : List Bytes} {content : Bytes}
    (index : TrueIndex env layout files fiPos content claims) {answer : Except String Bytes}
    (part : ∀ bytes, answer = .ok bytes → bytes <+: files.getD fiPos []) :
    (∃ result, indexVerdict env fiPos content.length answer = .stopped result ∧
        Innocent result.mismatches ∧ result.frontIndexSha256 = none) ∨
      indexVerdict env fiPos content.length answer = .parsed (env.sha256Hex content) claims := by
  cases kept : intoSmallSink answer with
  | error message =>
    unfold indexVerdict
    rw [kept]
    exact Or.inl ⟨_, rfl, innocent_singleton rfl, rfl⟩
  | ok bytes =>
    obtain ⟨rfl, small⟩ := into_small_sink_ok kept
    by_cases long : content.length ≤ bytes.length
    · exact Or.inr (index.parsed (part bytes rfl) small long)
    · unfold indexVerdict
      simp only [kept, Nat.lt_of_not_le long, if_true]
      exact Or.inl ⟨_, rfl, innocent_singleton rfl, rfl⟩

theorem read_back_past_warning_innocent {files : List Bytes}
    (partialReads : env.PartialReads files) (claimsHold : ClaimsHold env files claims fiPos ending.endedAfter)
    (placed : ∀ position, ending.readback = some position → fiPos < position ∧
      position ≤ ending.endedAfter ∧ ∃ claim ∈ claims, asU32 claim.position = position)
    {mismatches : List Mismatch} {call : Nat} :
    Innocent (readBackPastWarning env claims ending mismatches call).1.mismatches := by
  unfold readBackPastWarning
  cases readback : ending.readback with
  | none => exact innocent_nil
  | some position =>
    obtain ⟨after, before, claim, member, stated⟩ := placed position readback
    cases found : claims.find? fun claim => asU32 claim.position == position with
    | none => simpa [stated] using List.find?_eq_none.mp found claim member
    | some hit =>
      have placedAt : asU32 hit.position = position := by simpa using List.find?_some found
      obtain ⟨content, sized, hashed, holds⟩ := claimsHold hit
        (List.mem_of_find?_eq_some found) (by omega) (by omega)
      simp only [found]
      exact read_back_claim_innocent partialReads sized hashed holds fun file kept => by
        cases kept

theorem walk_from_index_innocent {plan : ConfirmPlan}
    {files : List Bytes} {content : Bytes} {call : Nat} {rest : FromIndex}
    (partialReads : env.PartialReads files) (index : TrueIndex env layout files fiPos content claims)
    (claimsHold : ClaimsHold env files claims fiPos ending.endedAfter)
    (placed : ∀ position, ending.readback = some position → fiPos < position ∧
      position ≤ ending.endedAfter ∧ ∃ claim ∈ claims, asU32 claim.position = position)
    (walked : (walkFromIndex env layout plan fiPos ending content.length call).1.outcome =
      .ok rest) :
    Innocent rest.mismatches ∧
      ∀ hash, rest.frontIndexSha256 = some hash → hash = env.sha256Hex content := by
  cases tier : plan.tier with
  | navigable =>
    simp only [walkFromIndex, tier, reduceCtorEq, if_false] at walked
    rcases index.verdict (partialReads call fiPos) with ⟨result, stopped, innocent, noHash⟩ | parsed
    · rw [stopped] at walked
      cases walked
      exact ⟨innocent, by simp [noHash]⟩
    · rw [parsed] at walked
      cases walked
      refine ⟨?_, by simp⟩
      simp only [index.consistent, index.agrees, List.nil_append]
      exact read_back_past_warning_innocent partialReads claimsHold placed
  | integrity =>
    simp only [walkFromIndex, tier, if_true] at walked
    generalize heldEq : holdFiles env (aheadPositions layout fiPos plan.resume) call = held
      at walked
    have reads : HeldReads env held.1 := fun position file kept =>
      hold_files_reads (by rw [heldEq]; exact kept)
    rcases index.verdict (partialReads held.2 fiPos) with
      ⟨result, stopped, innocent, noHash⟩ | parsed
    · rw [stopped] at walked
      cases walked
      exact ⟨innocent, by simp [noHash]⟩
    · rw [parsed] at walked
      simp only [index.consistent, index.agrees, List.nil_append, Contents.walked] at walked
      split at walked
      · cases walked
      · cases walked
        exact ⟨read_contents_innocent partialReads reads claimsHold innocent_nil, by simp⟩

theorem proves_nothing_of_innocent {evidence : Evidence} (innocent : Innocent evidence.mismatches) :
    evidence.provesMediumBad = false := by
  have nothing : evidence.mediumEvidence = [] := by
    unfold Evidence.mediumEvidence
    split
    · rfl
    · exact List.filter_eq_nil_iff.mpr fun mismatch member => by simp [innocent mismatch member]
  simp [Evidence.provesMediumBad, nothing]

theorem proves_nothing_of_disagreement {evidence : Evidence}
    (disagrees : evidence.endingDisagrees = true) : evidence.provesMediumBad = false := by
  simp [Evidence.provesMediumBad, Evidence.mediumEvidence, disagrees]

theorem seal_verdict_refused {answer : Except String Bytes} {filesChecked : Nat}
    {mismatch : Mismatch}
    (refused : sealVerdict env ending answer = .refused filesChecked mismatch) :
    mismatch.kind = .sealUnreadable := by
  unfold sealVerdict at refused
  cases kept : intoSmallSink answer with
  | error message =>
    rw [kept] at refused
    cases refused
    rfl
  | ok bytes =>
    rw [kept] at refused
    simp only at refused
    cases parses : parseSealMarker env.crate (fromUtf8Lossy bytes) with
    | error message =>
      rw [parses] at refused
      cases refused
      rfl
    | ok parsed =>
      rw [parses] at refused
      simp only at refused
      cases refusal : parsed.refusal with
      | some why =>
        rw [refusal] at refused
        cases refused
        rfl
      | none =>
        rw [refusal] at refused
        simp only at refused
        split at refused
        · cases refused
          rfl
        · cases refused

theorem judge_innocent {tier : Tier} {answer : Except String Bytes} {rest : FromIndex}
    (innocent : ∀ hash, sealVerdict env ending answer = .bound hash (some ending.endedAfter) →
      Innocent rest.mismatches ∧ ∀ fiHash, rest.frontIndexSha256 = some fiHash → fiHash = hash) :
    (judge tier fiPos ending (sealVerdict env ending answer) rest).provesMediumBad = false := by
  cases verdict : sealVerdict env ending answer with
  | refused filesChecked mismatch =>
    apply proves_nothing_of_innocent
    apply innocent_singleton
    rw [seal_verdict_refused verdict]
    rfl
  | bound hash endedAfter =>
    by_cases stated : endedAfter = some ending.endedAfter
    · apply proves_nothing_of_innocent
      subst stated
      obtain ⟨restInnocent, binds⟩ := innocent hash verdict
      simp only [judge, ne_eq, not_true_eq_false, if_false, List.append_nil]
      cases found : rest.frontIndexSha256 with
      | none => exact restInnocent
      | some fiHash =>
        rw [binds fiHash found]
        simpa using restInnocent
    · apply proves_nothing_of_disagreement
      simp [judge, stated, Evidence.endingDisagrees]

end Tapectl.Confirm
