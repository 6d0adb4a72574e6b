import Tapectl.Store.Confirm

/-!
# What a clean full readback proves

An Integrity confirm without checkpoints that finds nothing has read the seal, the front index and
every content file, and each agrees with the next: the seal binds the front index by hash, the
front index lists the Layout's positions and no other, and every file hashes to its claim. The
argument that the index lists nothing beyond the Layout joins three checks: the entries run in
sequence, the one seal entry is the last, and the Layout finds a seal entry at its own last
position.
-/

namespace Tapectl.Confirm

open StoredText Tapectl.Volume Tapectl.Volume.Format
open Tapectl.Seam (smallFileCap)

def Environment.Delivered (env : Environment) (position : Nat) (bytes : Bytes) : Prop :=
  ∃ call, env.read call position = .ok bytes

theorem into_small_sink_ok {answer : Except String Bytes} {bytes : Bytes}
    (kept : intoSmallSink answer = .ok bytes) :
    answer = .ok bytes ∧ bytes.length ≤ smallFileCap := by
  cases answer with
  | error message => cases kept
  | ok delivered =>
    simp only [intoSmallSink] at kept
    split at kept
    · cases kept
    · next small =>
        cases kept
        exact ⟨rfl, by omega⟩

structure AcceptedSeal (env : Environment) (ending : WalkEnding) (bytes : Bytes)
    (parsed : ParsedSeal) : Prop where
  parses : parseSealMarker env.crate (fromUtf8Lossy bytes) = .ok parsed
  readable : parsed.refusal = none
  short : ending.isShort = true → parsed.requiresShortSeal = true

variable {env : Environment} {ending : WalkEnding} {fiPos fiTrueLen : Nat}
  {claims : List ParsedIndexEntry} {layout : Layout}

theorem seal_verdict_bound {answer : Except String Bytes} {hash : String}
    {endedAfter : Option Nat} (bound : sealVerdict env ending answer = .bound hash endedAfter) :
    ∃ bytes parsed, answer = .ok bytes ∧ bytes.length ≤ smallFileCap ∧
      AcceptedSeal env ending bytes parsed ∧
      hash = parsed.frontIndexSha256 ∧ endedAfter = parsed.effectiveEndedAfter := by
  unfold sealVerdict at bound
  cases kept : intoSmallSink answer with
  | error message =>
    rw [kept] at bound
    cases bound
  | ok bytes =>
    obtain ⟨answerEq, small⟩ := into_small_sink_ok kept
    rw [kept] at bound
    simp only at bound
    cases parses : parseSealMarker env.crate (fromUtf8Lossy bytes) with
    | error message =>
      rw [parses] at bound
      cases bound
    | ok parsed =>
      rw [parses] at bound
      simp only at bound
      cases refusal : parsed.refusal with
      | some why =>
        rw [refusal] at bound
        cases bound
      | none =>
        rw [refusal] at bound
        simp only at bound
        split at bound
        · cases bound
        · next accepted =>
            cases bound
            refine ⟨bytes, parsed, answerEq, small, ⟨parses, refusal, ?_⟩, rfl, rfl⟩
            intro short
            simpa [short] using accepted

theorem judge_clean {tier : Tier} {sealRead : SealRead} {rest : FromIndex}
    (clean : (judge tier fiPos ending sealRead rest).mismatches = []) :
    ∃ hash, sealRead = .bound hash (some ending.endedAfter) ∧
      (∀ fiHash, rest.frontIndexSha256 = some fiHash → fiHash = hash) ∧ rest.mismatches = [] := by
  cases sealRead with
  | refused filesChecked mismatch => simp [judge] at clean
  | bound hash endedAfter =>
    simp only [judge, List.append_eq_nil_iff] at clean
    obtain ⟨⟨diverges, disagrees⟩, others⟩ := clean
    have stated : endedAfter = some ending.endedAfter := by
      by_contra different
      rw [if_pos different] at disagrees
      cases disagrees
    refine ⟨hash, by rw [stated], ?_, others⟩
    intro fiHash found
    rw [found] at diverges
    simp only at diverges
    by_contra different
    rw [if_pos different] at diverges
    cases diverges

theorem index_verdict_parsed {answer : Except String Bytes} {hash : String}
    (parsed : indexVerdict env fiPos fiTrueLen answer = .parsed hash claims) :
    ∃ bytes, answer = .ok bytes ∧ bytes.length ≤ smallFileCap ∧ fiTrueLen ≤ bytes.length ∧
      hash = env.sha256Hex (bytes.take fiTrueLen) ∧
      parseFrontIndex env.crate (fromUtf8Lossy (bytes.take fiTrueLen)) = .ok claims := by
  unfold indexVerdict at parsed
  cases kept : intoSmallSink answer with
  | error message =>
    rw [kept] at parsed
    cases parsed
  | ok bytes =>
    obtain ⟨answerEq, small⟩ := into_small_sink_ok kept
    rw [kept] at parsed
    simp only at parsed
    split at parsed
    · cases parsed
    · next long =>
        cases outcome : parseFrontIndex env.crate (fromUtf8Lossy (bytes.take fiTrueLen)) with
        | error message =>
          rw [outcome] at parsed
          cases parsed
        | ok found =>
          rw [outcome] at parsed
          cases parsed
          exact ⟨bytes, answerEq, small, by omega, rfl, outcome⟩

theorem index_verdict_few {env : Environment} {fiPos fiTrueLen : Nat}
    {answer : Except String Bytes} {hash : String} {claims : List ParsedIndexEntry}
    (counts : env.crate.CountsArrays)
    (parsed : indexVerdict env fiPos fiTrueLen answer = .parsed hash claims) :
    claims.length ≤ smallFileCap := by
  obtain ⟨bytes, _, small, _, _, parses⟩ := index_verdict_parsed parsed
  have chars := length_parse_front_index counts parses
  have decoded := length_from_utf8_lossy (bytes.take fiTrueLen)
  have taken := List.length_take_le' fiTrueLen bytes
  omega

theorem index_verdict_stopped {answer : Except String Bytes} {result : FromIndex}
    (stopped : indexVerdict env fiPos fiTrueLen answer = .stopped result) :
    ∃ expected actual, result.mismatches =
      [{ position := fiPos, kind := .frontIndexUnreadable, expected, actual }] := by
  unfold indexVerdict at stopped
  cases kept : intoSmallSink answer with
  | error message =>
    rw [kept] at stopped
    cases stopped
    exact ⟨_, _, rfl⟩
  | ok bytes =>
    rw [kept] at stopped
    simp only at stopped
    split at stopped
    · cases stopped
      exact ⟨_, _, rfl⟩
    · cases outcome : parseFrontIndex env.crate (fromUtf8Lossy (bytes.take fiTrueLen)) with
      | error message =>
        rw [outcome] at stopped
        cases stopped
        exact ⟨_, _, rfl⟩
      | ok found =>
        rw [outcome] at stopped
        cases stopped

/-- The file at `position` came back with at least the claimed size, and its claimed bytes hash to
the claim. -/
def Environment.Matches (env : Environment) (position : Nat) (claim : ParsedIndexEntry) : Prop :=
  ∃ size hash bytes, claim.sizeBytes = some size ∧ claim.sha256Encrypted = some hash ∧
    env.Delivered position bytes ∧ size ≤ bytes.length ∧ env.sha256Hex (bytes.take size) = hash

theorem content_verdict_clean {position : Nat} {wantHash : String} {wantSize : Nat}
    {answer : Except String Bytes}
    (clean : (contentVerdict env position wantHash wantSize answer).mismatches = []) :
    ∃ bytes, answer = .ok bytes ∧ wantSize ≤ bytes.length ∧
      env.sha256Hex (bytes.take wantSize) = wantHash := by
  unfold contentVerdict at clean
  cases answer with
  | error message => simp at clean
  | ok bytes =>
    simp only at clean
    split at clean
    · simp at clean
    · next long =>
        split at clean
        · simp at clean
        · next same => exact ⟨bytes, rfl, by omega, by simpa using same⟩

theorem hold_files_reads {positions : List Nat} {call : Nat} {position : Nat} {file : Held}
    (kept : (holdFiles env positions call).1.lookup position = some file) :
    ∃ asked, env.read asked position = file.answer := by
  induction positions generalizing call with
  | nil => simp [holdFiles] at kept
  | cons first positions ih =>
    simp only [holdFiles] at kept
    cases answered : env.read call first with
    | error message =>
      simp only [answered, List.lookup_cons] at kept
      by_cases same : position = first
      · simp only [same, beq_self_eq_true, Option.some.injEq] at kept
        exact ⟨call, by rw [same, answered, ← kept]; rfl⟩
      · have different : (position == first) = false := beq_eq_false_iff_ne.mpr same
        simp only [different] at kept
        exact ih kept
    | ok bytes =>
      simp only [answered] at kept
      split at kept
      · exact ih kept
      · simp only [List.lookup_cons] at kept
        by_cases same : position = first
        · simp only [same, beq_self_eq_true, Option.some.injEq] at kept
          exact ⟨call, by rw [same, answered, ← kept]; rfl⟩
        · have different : (position == first) = false := beq_eq_false_iff_ne.mpr same
          simp only [different] at kept
          exact ih kept

def HeldReads (env : Environment) (held : List (Nat × Held)) : Prop :=
  ∀ position file, held.lookup position = some file →
    ∃ asked, env.read asked position = file.answer

theorem read_back_claim_clean {claim : ParsedIndexEntry} {held : List (Nat × Held)} {call : Nat}
    (reads : HeldReads env held)
    (clean : (readBackClaim env claim (held.lookup (asU32 claim.position)) call).1.mismatches = []) :
    env.Matches (asU32 claim.position) claim := by
  unfold readBackClaim at clean
  split at clean
  · next hash size hashEq sizeEq =>
      cases kept : held.lookup (asU32 claim.position) with
      | none =>
        rw [kept] at clean
        obtain ⟨bytes, answer, long, same⟩ := content_verdict_clean clean
        exact ⟨size, hash, bytes, sizeEq, hashEq, ⟨call, answer⟩, long, same⟩
      | some file =>
        rw [kept] at clean
        obtain ⟨bytes, answer, long, same⟩ := content_verdict_clean clean
        obtain ⟨asked, read⟩ := reads _ _ kept
        exact ⟨size, hash, bytes, sizeEq, hashEq, ⟨asked, read.trans answer⟩, long, same⟩
  · simp at clean

/-- The pass over the claims, step by step: a pass that ends without a finding started without one
and read every file in reach against its claim. -/
theorem read_contents_clean {held : List (Nat × Held)} {fiHash : String}
    {progress final : Progress} {call : Nat} (reads : HeldReads env held)
    (ended : (readContents env fiPos ending none held fiHash claims progress call).1 =
      ⟨none, final⟩)
    (clean : final.mismatches = []) :
    progress.mismatches = [] ∧
      ∀ claim ∈ claims, asU32 claim.position ≠ fiPos → asU32 claim.position ≤ ending.endedAfter →
        env.Matches (asU32 claim.position) claim := by
  induction claims generalizing progress call with
  | nil =>
    simp only [readContents, Contents.mk.injEq, true_and] at ended
    exact ⟨ended ▸ clean, by simp⟩
  | cons claim claims ih =>
    simp only [readContents] at ended
    by_cases skipped : asU32 claim.position = fiPos ∨ ending.endedAfter < asU32 claim.position
    · simp only [skipped, if_true] at ended
      obtain ⟨before, others⟩ := ih ended
      refine ⟨before, ?_⟩
      intro other member outside inside
      rcases List.mem_cons.mp member with rfl | later
      · rcases skipped with index | past
        · exact absurd index outside
        · exact absurd inside (Nat.not_le.mpr past)
      · exact others other later outside inside
    · have fresh : alreadyPassed none ending claim = none := rfl
      simp only [skipped, if_false, fresh] at ended
      split at ended
      · simp at ended
      · obtain ⟨before, others⟩ := ih ended
        simp only [List.append_eq_nil_iff] at before
        refine ⟨before.1, ?_⟩
        intro other member outside inside
        rcases List.mem_cons.mp member with rfl | later
        · exact read_back_claim_clean reads before.2
        · exact others other later outside inside

/-- A walk that finds nothing has parsed a consistent front index that agrees with the Layout, and
matched every content file in reach. -/
theorem walk_from_index_clean {plan : ConfirmPlan} {call : Nat} {rest : FromIndex}
    (integrity : plan.tier = .integrity) (fresh : plan.resume = none)
    (walked : (walkFromIndex env layout plan fiPos ending fiTrueLen call).1.outcome = .ok rest)
    (clean : rest.mismatches = []) :
    ∃ bytes claims, env.Delivered fiPos bytes ∧ bytes.length ≤ smallFileCap ∧
      fiTrueLen ≤ bytes.length ∧
      rest.frontIndexSha256 = some (env.sha256Hex (bytes.take fiTrueLen)) ∧
      parseFrontIndex env.crate (fromUtf8Lossy (bytes.take fiTrueLen)) = .ok claims ∧
      consistencyMismatches fiPos claims = [] ∧ layoutMismatches claims layout = [] ∧
      ∀ claim ∈ claims, asU32 claim.position ≠ fiPos → asU32 claim.position ≤ ending.endedAfter →
        env.Matches (asU32 claim.position) claim := by
  simp only [walkFromIndex, integrity, if_true, fresh] at walked
  cases verdict : indexVerdict env fiPos fiTrueLen
      (env.read (holdFiles env (aheadPositions layout fiPos none) call).2 fiPos) with
  | stopped result =>
    simp only [verdict] at walked
    obtain ⟨expected, actual, found⟩ := index_verdict_stopped verdict
    rw [← Except.ok.inj walked, found] at clean
    cases clean
  | parsed fiHash claims =>
    obtain ⟨bytes, answer, small, long, hashEq, parses⟩ := index_verdict_parsed verdict
    simp only [verdict, Option.filter_none, Contents.walked] at walked
    have reads : HeldReads env (holdFiles env (aheadPositions layout fiPos none) call).1 :=
      fun position file kept => hold_files_reads kept
    cases contents : (readContents env fiPos ending none
        (holdFiles env (aheadPositions layout fiPos none) call).1 fiHash claims
        { filesChecked := 1
          mismatches := consistencyMismatches fiPos claims ++ layoutMismatches claims layout
          passed := [] }
        ((holdFiles env (aheadPositions layout fiPos none) call).2 + 1)).1 with
    | mk stopped final =>
      simp only [contents] at walked
      cases stopped with
      | some message => cases walked
      | none =>
        simp only [Except.ok.injEq] at walked
        subst walked
        obtain ⟨before, matched⟩ := read_contents_clean reads contents clean
        simp only [List.append_eq_nil_iff] at before
        exact ⟨bytes, claims, ⟨_, answer⟩, small, long, by rw [hashEq], parses, before.1,
          before.2, matched⟩

/-- A Layout at positions `0..last`, with one front index and one seal, the seal last. -/
structure Placed (layout : Layout) (last : Nat) : Prop where
  within : ∀ entry ∈ layout.entries, 0 ≤ entry.position ∧ entry.position ≤ last
  covered : ∀ position ≤ last, ∃ entry ∈ layout.entries, entry.position = (position : Nat)
  sealEntry : ∃ entry, layout.entries.filter (fun entry => entry.kind == .sealMarker) = [entry] ∧
    entry.position = last
  frontIndex : ∃ entry, layout.entries.filter (fun entry => entry.kind == .frontIndex) = [entry]

/-- A claim and the Layout entry it stands for: the same type, and the same size where both state
one. -/
structure Agrees (claim : ParsedIndexEntry) (entry : LayoutEntry) : Prop where
  position : claim.position = entry.position
  type : claim.typeLabel = entry.kind.typeLabel
  size : ∀ stated planned, claim.sizeBytes = some stated → entry.sizeBytes = some planned →
    stated = planned

theorem entry_mismatches_nil {entry : LayoutEntry} (clean : entryMismatches claims entry = []) :
    ∃ claim ∈ claims, Agrees claim entry := by
  unfold entryMismatches at clean
  cases found : claims.find? fun claim => claim.position == entry.position with
  | none =>
    rw [found] at clean
    cases clean
  | some claim =>
    rw [found] at clean
    simp only [List.append_eq_nil_iff] at clean
    refine ⟨claim, List.mem_of_find?_eq_some found, ?_, ?_, ?_⟩
    · simpa using List.find?_some found
    · by_contra different
      rw [if_pos different] at clean
      cases clean.1
    · intro stated planned statedEq plannedEq
      rw [statedEq, plannedEq] at clean
      by_contra different
      simp only [if_pos different] at clean
      cases clean.2

theorem layout_mismatches_nil (clean : layoutMismatches claims layout = []) :
    ∀ entry ∈ layout.entries, ∃ claim ∈ claims, Agrees claim entry := by
  intro entry member
  exact entry_mismatches_nil (List.flatMap_eq_nil_iff.mp clean entry member)

/-- Entries in sequence, of which there are few enough for an `i32`, state their own index. -/
theorem consistent_position (consistent : Consistent claims) (few : claims.length ≤ smallFileCap)
    {index : Nat} {claim : ParsedIndexEntry} (found : claims[index]? = some claim) :
    claim.position = index := by
  have inside : index < claims.length := (List.getElem?_eq_some_iff.mp found).1
  have cap : smallFileCap < 2 ^ 31 := by decide
  rw [consistent.sequence index claim found, as_i32_of_lt] <;> omega

/-- The one seal claim is the last entry, and the Layout's seal entry found it at its own last
position: so the two end together. -/
theorem consistent_length {last : Nat} (consistent : Consistent claims)
    (few : claims.length ≤ smallFileCap) (placed : Placed layout last)
    (agree : ∀ entry ∈ layout.entries, ∃ claim ∈ claims, Agrees claim entry) :
    claims.length = last + 1 := by
  obtain ⟨sealEntry, onlySeal, sealAt⟩ := placed.sealEntry
  have sealMember : sealEntry ∈ layout.entries ∧ sealEntry.kind = .sealMarker := by
    have member : sealEntry ∈ layout.entries.filter (fun entry => entry.kind == .sealMarker) := by
      simp [onlySeal]
    simpa using List.mem_filter.mp member
  obtain ⟨claim, member, agrees⟩ := agree sealEntry sealMember.1
  obtain ⟨sealClaim, onlyClaim, claimAt⟩ := consistent.sealMarker
  have same : claim = sealClaim := by
    have typed : claim ∈ ofType "seal_marker" claims := by
      simp [ofType, member, agrees.type, sealMember.2, ZoneKind.typeLabel]
    rw [onlyClaim] at typed
    simpa using typed
  have nonempty : 0 < claims.length := List.length_pos_of_mem member
  have cap : smallFileCap < 2 ^ 31 := by decide
  rw [as_i32_of_lt (by omega) (by omega), ← same, agrees.position, sealAt] at claimAt
  omega

theorem claims_positions (consistent : Consistent claims) (few : claims.length ≤ smallFileCap) :
    claims.map (·.position) = (List.range claims.length).map Int.ofNat := by
  apply List.ext_getElem (by simp)
  intro index inClaims inRange
  simp only [List.getElem_map, List.getElem_range, Int.ofNat_eq_natCast]
  exact consistent_position consistent few (List.getElem?_eq_getElem _)

theorem WalkEnding.of_ok {plan : ConfirmPlan} {plannedSeal : Nat}
    (ends : WalkEnding.of plan fiPos plannedSeal = .ok ending) :
    ending.plannedSeal = plannedSeal ∧
      ending.endedAfter = plan.endedAfter.getD (plannedSeal - 1) ∧
      ending.endedAfter < plannedSeal ∧
      ∀ position, ending.readback = some position →
        fiPos < position ∧ position ≤ ending.endedAfter := by
  unfold WalkEnding.of at ends
  cases named : plan.endedAfter <;> cases readback : plan.readback <;>
    simp only [named, readback, bind, Except.bind] at ends <;>
    (split at ends <;> try (split at ends)) <;> cases ends <;> simp <;> omega

theorem walk_start_ok {plan : ConfirmPlan} {start : WalkStart} {last : Nat}
    (placed : Placed layout last) (range : last < 2 ^ 32)
    (started : walkStart layout plan = .ok start) :
    ∃ fiEntry ∈ layout.entries, fiEntry.kind = .frontIndex ∧
      fiEntry.position = start.fiPos ∧ fiEntry.sizeBytes = some start.fiTrueLen ∧
      start.ending.plannedSeal = last ∧
      start.ending.endedAfter = plan.endedAfter.getD (last - 1) ∧
      start.ending.endedAfter < last ∧
      ∀ position, start.ending.readback = some position →
        start.fiPos < position ∧ position ≤ start.ending.endedAfter := by
  obtain ⟨sealEntry, onlySeal, sealAt⟩ := placed.sealEntry
  obtain ⟨fiEntry, onlyIndex⟩ := placed.frontIndex
  have sealFound : layout.entries.find? (fun entry => entry.kind == .sealMarker) =
      some sealEntry := by
    rw [← List.head?_filter, onlySeal]
    rfl
  have indexFound : layout.entries.find? (fun entry => entry.kind == .frontIndex) =
      some fiEntry := by
    rw [← List.head?_filter, onlyIndex]
    rfl
  have member := List.mem_of_find?_eq_some indexFound
  obtain ⟨low, high⟩ := placed.within fiEntry member
  have fiPos : fiEntry.position = asU32 fiEntry.position := by
    unfold asU32
    omega
  have sealPos : asU32 sealEntry.position = last := by
    unfold asU32
    omega
  simp only [walkStart, sealFound, indexFound, sealPos] at started
  cases size : fiEntry.sizeBytes with
  | none =>
    rw [size] at started
    cases started
  | some fiTrueLen =>
    simp only [size] at started
    cases ends : WalkEnding.of plan (asU32 fiEntry.position) last with
    | error message =>
      rw [ends] at started
      cases started
    | ok ending =>
      simp only [ends, Except.ok.injEq] at started
      subst started
      refine ⟨fiEntry, member, by simpa using List.find?_some indexFound, fiPos, size, ?_⟩
      exact WalkEnding.of_ok ends

/-- What a clean readback establishes, with the bytes and the parsed documents it rests on. -/
structure ProvenTape (env : Environment) (layout : Layout) (last endedAfter : Nat)
    (fiEntry : LayoutEntry) (fiBytes sealBytes : Bytes) (claims : List ParsedIndexEntry)
    (sealed : ParsedSeal) : Prop where
  sealRead : env.Delivered (endedAfter + 1) sealBytes
  accepted : AcceptedSeal env { endedAfter, plannedSeal := last, readback := none } sealBytes sealed
  stated : sealed.effectiveEndedAfter = some endedAfter
  indexRead : ∃ fiPos fiLen : Nat, fiEntry.position = fiPos ∧ fiEntry.sizeBytes = some fiLen ∧
    env.Delivered fiPos fiBytes ∧ fiLen ≤ fiBytes.length ∧
    sealed.frontIndexSha256 = env.sha256Hex (fiBytes.take fiLen) ∧
    parseFrontIndex env.crate (fromUtf8Lossy (fiBytes.take fiLen)) = .ok claims
  listed : claims.map (·.position) = (List.range (last + 1)).map Int.ofNat
  agrees : ∀ entry ∈ layout.entries, ∃ claim ∈ claims, Agrees claim entry
  content : ∀ position ≤ endedAfter, (position : Int) ≠ fiEntry.position →
    ∃ claim, claims[position]? = some claim ∧ env.Matches position claim

/-- Whatever the drive did, a readback at Integrity without checkpoints that finds nothing has proved
the tape: the seal, the front index it binds, and every content file up to the ending. -/
theorem clean_confirm_proves_tape {env : Environment} {layout : Layout} {plan : ConfirmPlan}
    {last : Nat} {evidence : Evidence} (counts : env.crate.CountsArrays)
    (placed : Placed layout last) (integrity : plan.tier = .integrity) (fresh : plan.resume = none)
    (confirmed : (chainWalk env layout plan).outcome = .ok evidence)
    (clean : evidence.mismatches = []) :
    ∃ fiEntry ∈ layout.entries, fiEntry.kind = .frontIndex ∧
      ∃ fiBytes sealBytes claims sealed,
        ProvenTape env layout last (plan.endedAfter.getD (last - 1)) fiEntry fiBytes sealBytes
          claims sealed := by
  obtain ⟨start, sealCall, started, refused | judged⟩ := chain_walk_ok confirmed
  · obtain ⟨filesChecked, mismatch, _, rfl⟩ := refused
    cases clean
  obtain ⟨walkCall, rest, walked, rfl⟩ := judged
  obtain ⟨hash, sealBound, binds, restClean⟩ := judge_clean clean
  obtain ⟨sealBytes, sealed, sealAnswer, _, accepted, hashEq, statedEq⟩ :=
    seal_verdict_bound sealBound
  obtain ⟨fiBytes, claims, indexRead, small, long, fiHash, parses, noneInconsistent, noneDiffer,
    matched⟩ := walk_from_index_clean integrity fresh walked restClean
  have consistent : Consistent claims :=
    validate_consistency_nil.mp (List.map_eq_nil_iff.mp noneInconsistent)
  have few : claims.length ≤ smallFileCap := by
    have chars := length_parse_front_index counts parses
    have bytes := length_from_utf8_lossy (fiBytes.take start.fiTrueLen)
    have taken := List.length_take_le start.fiTrueLen fiBytes
    have whole := List.length_take_le' start.fiTrueLen fiBytes
    omega
  have agree := layout_mismatches_nil noneDiffer
  have total := consistent_length consistent few placed agree
  have cap : smallFileCap < 2 ^ 31 := by decide
  obtain ⟨fiEntry, member, kind, fiPos, fiLen, planned, ended, before, _⟩ :=
    walk_start_ok placed (by omega) started
  refine ⟨fiEntry, member, kind, fiBytes, sealBytes, claims, sealed, ?_⟩
  rw [← ended]
  refine ⟨⟨sealCall, sealAnswer⟩, ⟨accepted.parses, accepted.readable, ?_⟩, statedEq.symm,
    ⟨start.fiPos, start.fiTrueLen, fiPos, fiLen, indexRead, long, ?_, parses⟩, ?_, agree, ?_⟩
  · intro short
    apply accepted.short
    rw [WalkEnding.isShort, WalkEnding.sealPosition, planned]
    exact short
  · rw [← hashEq, binds _ fiHash]
  · rw [claims_positions consistent few, total]
  · intro position inside different
    have bound : position < claims.length := by omega
    have found : claims[position]? = some claims[position] := List.getElem?_eq_getElem bound
    have stated := consistent_position consistent few found
    have narrow : asU32 claims[position].position = position := by
      rw [stated, asU32]
      omega
    refine ⟨claims[position], found, ?_⟩
    have read := matched claims[position] (List.getElem_mem bound)
    rw [narrow] at read
    exact read (by omega) inside

def oneSliceClaims : Toml.Document :=
  let file (position : Int) (type : String) (size : Int) (hash : String) : Toml.Block :=
    ⟨.arrayOfTables, "files", [("position", .integer position), ("type", .string type),
      ("size_bytes", .integer size), ("sha256_encrypted", .string hash)]⟩
  let named (position : Int) (type : String) : Toml.Block :=
    ⟨.arrayOfTables, "files", [("position", .integer position), ("type", .string type)]⟩
  [⟨.table, "index", [("volume", .string "V"), ("layout_version", .integer 2)]⟩,
    file 0 "id_thunk" 1 "1", file 1 "system_guide" 1 "1", file 2 "restore_sh" 1 "1",
    named 3 "front_index", file 4 "data_slice" 2 "2", named 5 "seal_marker"]

def oneSliceIndex : Bytes := encodeUtf8 oneSliceClaims.render

def oneSliceSeal : Bytes := encodeUtf8 (Toml.Document.render
  [⟨.table, "seal", [("volume", .string "V"), ("layout_version", .integer 2),
    ("file_count", .integer 6), ("sealed_at", .string "T"),
    ("front_index_sha256", .string (toString oneSliceIndex.length))]⟩])

def oneSliceLayout : Layout where
  label := "V"
  volumeUuid := "U"
  blockSize := 512
  entries :=
    [⟨0, .idThunk, some 1, none⟩, ⟨1, .systemGuide, some 1, none⟩, ⟨2, .restoreSh, some 1, none⟩,
      ⟨3, .frontIndex, some oneSliceIndex.length, none⟩, ⟨4, .slice 7, some 2, some "2"⟩,
      ⟨5, .sealMarker, none, none⟩]

def oneSliceTape : Environment where
  crate := Toml.plainCrate
  sha256Hex bytes := toString bytes.length
  read _ position := match position with
    | 0 | 1 | 2 => .ok [1]
    | 3 => .ok oneSliceIndex
    | 4 => .ok [1, 2]
    | 5 => .ok oneSliceSeal
    | _ => .ok []
  signalled _ := false

def oneSliceEvidence : Evidence := { tier := .integrity, filesChecked := 6, mismatches := [] }

def freshIntegrity : ConfirmPlan where
  tier := .integrity
  order := .sealFirst
  resume := none
  endedAfter := none
  readback := none

theorem one_slice_placed : Placed oneSliceLayout 5 where
  within := by
    intro entry member
    simp only [oneSliceLayout, List.mem_cons, List.not_mem_nil, or_false] at member
    rcases member with rfl | rfl | rfl | rfl | rfl | rfl <;> decide
  covered := by
    intro position inside
    have entries : oneSliceLayout.entries.map (·.position) = [0, 1, 2, 3, 4, 5] := rfl
    have listed : (position : Int) ∈ oneSliceLayout.entries.map (·.position) := by
      rw [entries]
      simp
      omega
    simpa using listed
  sealEntry := ⟨_, rfl, rfl⟩
  frontIndex := ⟨_, rfl⟩

theorem clean_confirm_proves_one_slice_tape :
    (chainWalk oneSliceTape oneSliceLayout freshIntegrity).outcome = .ok oneSliceEvidence ∧
      ∃ fiEntry ∈ oneSliceLayout.entries, fiEntry.kind = .frontIndex ∧
        ∃ fiBytes sealBytes claims sealed,
          ProvenTape oneSliceTape oneSliceLayout 5 4 fiEntry fiBytes sealBytes claims sealed := by
  have confirmed : (chainWalk oneSliceTape oneSliceLayout freshIntegrity).outcome =
      .ok oneSliceEvidence := by decide +kernel
  exact ⟨confirmed, clean_confirm_proves_tape Toml.plain_crate_counts_arrays one_slice_placed rfl rfl
    confirmed rfl⟩

end Tapectl.Confirm
