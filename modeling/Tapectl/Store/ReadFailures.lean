import Tapectl.Store.Innocence
import Tapectl.Volume.Sealing

/-!
# A drive that only fails to read

Reads that deliver a file's bytes, a part of them from the beginning, or an error, differently
each time, never make a confirm of a sealed tape report that its medium is bad. The front index of
a built Layout agrees with itself and with the Layout, and a seal that reads at all is bound to it,
because its hash is the last key of its table. What the program does not exclude is a data slice
that reads as a seal: it is taken for one where a wrong ending is claimed.
-/

namespace Tapectl.Confirm

open StoredText Tapectl.Volume Tapectl.Volume.Format Tapectl.Volume.Generate
open Tapectl.Volume.Build Tapectl.Volume.Session

def layoutClaims (layout : Layout) : List ParsedIndexEntry :=
  layout.entries.map fun entry => (listed entry).parsed

section Claims

variable {layout : Layout} {last dataStart : Nat} (wellFormed : WellFormed layout last dataStart)

include wellFormed

theorem of_type_layout_claims {kind : ZoneKind} {label : String}
    (named : ∀ other : ZoneKind, other.typeLabel = label ↔ other = kind) {position : Nat}
    (inside : position ≤ last)
    (placed : ∀ entry ∈ layout.entries, entry.kind = kind ↔ entry.position = position) :
    ∃ claim, ofType label (layoutClaims layout) = [claim] ∧ claim.position = position := by
  obtain ⟨entry, own, atPosition⟩ := wellFormed.filter_kind
    (fun other => other.typeLabel == label) inside fun entry member => by
      rw [beq_iff_eq, named, placed entry member]
  refine ⟨(listed entry).parsed, ?_, atPosition⟩
  rw [ofType, layoutClaims, List.filter_map]
  exact congrArg (List.map _) own

theorem placed_of_well_formed : Placed layout last := by
  have order := wellFormed.order
  refine ⟨?_, ?_, ?_, ?_⟩
  · intro entry member
    obtain ⟨index, inside, position, _⟩ := wellFormed.mem_index member
    omega
  · intro position inside
    have bound : position < layout.entries.length := by
      rw [wellFormed.length]
      omega
    exact ⟨layout.entries[position], List.getElem_mem bound,
      wellFormed.position_eq (List.getElem?_eq_getElem bound)⟩
  · exact wellFormed.filter_kind (fun kind => kind == .sealMarker) (Nat.le_refl _)
      fun entry member => by rw [beq_iff_eq, wellFormed.sealMarker entry member]
  · obtain ⟨entry, own, _⟩ := wellFormed.filter_kind (fun kind => kind == .frontIndex)
      (by omega : 3 ≤ last) fun entry member => by
        rw [beq_iff_eq, wellFormed.frontIndex entry member]
        rfl
    exact ⟨entry, own⟩

theorem layout_claims_consistent (range : last < 2 ^ 31) :
    validateConsistency (layoutClaims layout) = [] := by
  have order := wellFormed.order
  have narrow : ∀ index : Nat, index ≤ last → asI32 index = index := fun index inside =>
    as_i32_of_lt (by omega) (by omega)
  rw [validate_consistency_nil]
  refine ⟨?_, ?_, ?_, ?_⟩
  · intro index claim found
    rw [layoutClaims, List.getElem?_map, Option.map_eq_some_iff] at found
    obtain ⟨entry, entryFound, rfl⟩ := found
    have position := wellFormed.position_eq entryFound
    have bound := (List.getElem?_eq_some_iff.mp entryFound).1
    rw [wellFormed.length] at bound
    rw [narrow index (by omega)]
    exact position
  · exact of_type_layout_claims wellFormed (fun _ => type_label_front_index)
      (by omega : 3 ≤ last) wellFormed.frontIndex
  · obtain ⟨claim, only, position⟩ := of_type_layout_claims wellFormed
      (fun _ => type_label_seal_marker) (Nat.le_refl last) wellFormed.sealMarker
    refine ⟨claim, only, ?_⟩
    rw [layoutClaims, List.length_map, wellFormed.length, Nat.add_sub_cancel,
      narrow last (Nat.le_refl _)]
    exact position
  · intro claim member notSelf
    obtain ⟨entry, entryMember, rfl⟩ := List.mem_map.mp member
    simp only [isSelfReferential, FrontIndexFile.parsed, listed, Bool.or_eq_false_iff,
      beq_eq_false_iff_ne, ne_eq, type_label_front_index, type_label_seal_marker] at notSelf
    obtain ⟨sized, hashed⟩ := wellFormed.complete entry entryMember notSelf.2
    simp [FrontIndexFile.parsed, listed, notSelf.1, notSelf.2, sized, hashed]

theorem layout_claims_agree : layoutMismatches (layoutClaims layout) layout = [] := by
  rw [layoutMismatches, List.flatMap_eq_nil_iff]
  intro entry member
  have found : (layoutClaims layout).find? (fun claim => claim.position == entry.position) =
      some (listed entry).parsed := by
    cases hit : (layoutClaims layout).find? fun claim => claim.position == entry.position with
    | none =>
      have absent := List.find?_eq_none.mp hit (listed entry).parsed
        (List.mem_map.mpr ⟨entry, member, rfl⟩)
      simp [FrontIndexFile.parsed, listed] at absent
    | some claim =>
      obtain ⟨other, otherMember, rfl⟩ := List.mem_map.mp (List.mem_of_find?_eq_some hit)
      have placed : other.position = entry.position := by
        simpa [FrontIndexFile.parsed, listed] using List.find?_some hit
      rw [wellFormed.unique otherMember member placed]
  unfold entryMismatches
  rw [found]
  by_cases bare : entry.kind = .frontIndex ∨ entry.kind = .sealMarker
  · simp [FrontIndexFile.parsed, listed, bare]
  · cases size : entry.sizeBytes <;> simp [FrontIndexFile.parsed, listed, bare, size]

end Claims

theorem listed_writable {entry : LayoutEntry} (writable : Writable (sealListed entry)) :
    Writable (listed entry) := by
  refine ⟨writable.position, writable.type, ?_, ?_⟩
  · intro size sized
    by_cases bare : entry.kind = .frontIndex ∨ entry.kind = .sealMarker
    · simp [listed, bare] at sized
    · have notSeal : entry.kind ≠ .sealMarker := fun same => bare (Or.inr same)
      simp only [listed, bare, if_false] at sized
      exact writable.size size (by simp [sealListed, notSeal, sized])
  · intro hash hashed
    by_cases bare : entry.kind = .frontIndex ∨ entry.kind = .sealMarker
    · simp [listed, bare] at hashed
    · have notSeal : entry.kind ≠ .sealMarker := fun same => bare (Or.inr same)
      simp only [listed, bare, if_false] at hashed
      exact writable.hash hash (by simp [sealListed, notSeal, hashed])

/-- The bytes of an entry: the staged slice, or the zone's frozen file. -/
def entryContent (built : BuiltLayout) (staged : Int → Bytes) (entry : LayoutEntry) :
    Option Bytes :=
  match entry.kind with
  | .slice id => some (staged id)
  | _ => built.sessionDir.lookup entry.position

def endedAfter (layout : Layout) : Ending → Nat
  | .full => layout.entries.length - 2
  | .short k => k

/-- A medium holding a built Layout's content up to the ending and the seal generated for it. The
staged slices are what the inputs say they are, sizes are those of files, and sha256 is written in
plain characters. -/
structure SealedTape (env : Environment) (generators : Generators) (inputs : BuildInputs)
    (built : BuiltLayout) (staged : Int → Bytes) (ending : Ending) (files : List Bytes) :
    Prop where
  sha256 : generators.sha256Hex = env.sha256Hex
  hex : ∀ bytes, Toml.PlainAscii (env.sha256Hex bytes)
  label : ∃ debug, Naming.validateVolumeLabel debug inputs.label = .ok ()
  slices : ∀ slice ∈ allSlices inputs,
    (staged slice.sliceId).length = (max slice.encryptedBytes 0).toNat ∧
      env.sha256Hex (staged slice.sliceId) = slice.sha256Encrypted
  sizes : ∀ entry ∈ built.layout.entries, entry.kind ≠ .sealMarker →
    ∀ size, entry.sizeBytes = some size → size < 2 ^ 63
  positions : built.layout.entries.length < 2 ^ 31
  fits : ending.Fits built.layout (built.layout.entries.length - 1 : Nat)
  content : ∀ entry ∈ built.layout.entries, entry.position ≤ endedAfter built.layout ending →
    ∃ content, entryContent built staged entry = some content ∧
      Holds files entry.position.toNat content
  sealed : ∃ fiEntry ∈ built.layout.entries, fiEntry.kind = .frontIndex ∧
    ∃ fiHash features now padding, fiEntry.sha256 = some fiHash ∧
      (features = requiresWhole ∨ features = requiresSpan) ∧ Toml.PlainAscii now ∧
      files.getD (endedAfter built.layout ending + 1) [] =
        stored (sealInputs built.layout ending fiHash features now).text padding
  ends : files.length = endedAfter built.layout ending + 2

variable {env : Environment} {second : Bytes}

theorem SealedTape.allowed {generators : Generators} {inputs : BuildInputs} {built : BuiltLayout}
    {staged : Int → Bytes} {ending : Ending} {files : List Bytes}
    (tape : SealedTape env generators inputs built staged ending files) :
    Naming.AllowedName inputs.label := by
  obtain ⟨debug, valid⟩ := tape.label
  exact Naming.allowed_of_validate_volume_label valid

section Tape

variable {env : Environment} {generators : Generators} {inputs : BuildInputs} {built : BuiltLayout}
variable {staged : Int → Bytes} {ending : Ending} {files : List Bytes} {last dataStart : Nat}
variable (ok : Built generators inputs built last dataStart)
variable (tape : SealedTape env generators inputs built staged ending files)

include ok tape

theorem entry_content {entry : LayoutEntry} (member : entry ∈ built.layout.entries)
    (notSeal : entry.kind ≠ .sealMarker) :
    ∃ content, entryContent built staged entry = some content ∧
      entry.sizeBytes = some content.length ∧ entry.sha256 = some (env.sha256Hex content) := by
  cases sliced : entry.kind.isSlice with
  | false =>
    obtain ⟨bytes, frozen, same⟩ := ok.zones entry member notSeal sliced
    refine ⟨bytes, ?_, ?_, ?_⟩
    · unfold entryContent
      split
      · next id kind => simp [kind, ZoneKind.isSlice] at sliced
      · exact frozen
    · rw [same]
      rfl
    · rw [same, ← tape.sha256]
      rfl
  | true =>
    cases kind : entry.kind with
    | slice id =>
      obtain ⟨slice, sliceMember, rfl, sized, hashed⟩ := ok.slices entry member id kind
      obtain ⟨length, hash⟩ := tape.slices slice sliceMember
      refine ⟨staged slice.sliceId, ?_, by rw [sized, length], by rw [hashed, hash]⟩
      simp [entryContent, kind]
    | _ => simp [kind, ZoneKind.isSlice] at sliced

theorem entries_writable : ∀ entry ∈ built.layout.entries, Writable (sealListed entry) := by
  intro entry member
  obtain ⟨index, inside, position, _⟩ := ok.wellFormed.mem_index member
  have range := tape.positions
  rw [ok.wellFormed.length] at range
  refine ⟨?_, type_label_plain _, ?_, ?_⟩
  · simp only [sealListed]
    omega
  · intro size sized
    by_cases seals : entry.kind = .sealMarker
    · simp [sealListed, seals] at sized
    · exact tape.sizes entry member seals size (by simpa [sealListed, seals] using sized)
  · intro hash hashed
    by_cases seals : entry.kind = .sealMarker
    · simp [sealListed, seals] at hashed
    · obtain ⟨content, _, _, own⟩ := entry_content ok tape member seals
      simp only [sealListed, seals, if_false, own, Option.some.injEq] at hashed
      rw [← hashed]
      exact tape.hex content

theorem claims_hold {reach : Nat} (within : reach ≤ endedAfter built.layout ending)
    (below : reach < last) : ClaimsHold env files (layoutClaims built.layout) 3 reach := by
  intro claim member outside inside
  obtain ⟨entry, entryMember, rfl⟩ := List.mem_map.mp member
  obtain ⟨index, bound, position, _⟩ := ok.wellFormed.mem_index entryMember
  have range := tape.positions
  rw [ok.wellFormed.length] at range
  have narrow : asU32 entry.position = index := by
    rw [position, asU32]
    omega
  simp only [FrontIndexFile.parsed, listed, narrow] at outside inside ⊢
  have notIndex : entry.kind ≠ .frontIndex := fun kind =>
    outside (by have at3 := (ok.wellFormed.frontIndex entry entryMember).mp kind; omega)
  have notSeal : entry.kind ≠ .sealMarker := fun kind => by
    have atLast := (ok.wellFormed.sealMarker entry entryMember).mp kind
    omega
  obtain ⟨content, own, sized, hashed⟩ := entry_content ok tape entryMember notSeal
  obtain ⟨onTape, same, holds⟩ := tape.content entry entryMember (by omega)
  rw [own] at same
  cases same
  refine ⟨content, by simp [notIndex, notSeal, sized], by simp [notIndex, notSeal, hashed], ?_⟩
  rwa [position, Int.toNat_natCast] at holds

theorem ended_after_bounds :
    3 ≤ endedAfter built.layout ending ∧ endedAfter built.layout ending < last := by
  have order := ok.wellFormed.order
  have length := ok.wellFormed.length
  have range := tape.positions
  cases ending with
  | full =>
    simp only [endedAfter]
    omega
  | short k =>
    obtain ⟨before, entry, member, placed, sliced⟩ := tape.fits
    obtain ⟨start, _⟩ := (ok.wellFormed.slices entry member).mp sliced
    obtain ⟨index, inside, position, _⟩ := ok.wellFormed.mem_index member
    simp only [endedAfter]
    simp only [asU32] at before placed
    omega

theorem last_file_eq : ending.lastFile last = endedAfter built.layout ending := by
  have length := ok.wellFormed.length
  cases ending with
  | full => simp only [Ending.lastFile, endedAfter, length]; omega
  | short k => rfl

theorem tape_seal_writable {fiHash : String} (plainHash : Toml.PlainAscii fiHash)
    {features : List String} (known : features = requiresWhole ∨ features = requiresSpan)
    {now : String} (plainNow : Toml.PlainAscii now) :
    (sealInputs built.layout ending fiHash features now).Writable := by
  have range := tape.positions
  have bounds := ended_after_bounds ok tape
  rw [ok.wellFormed.length] at range
  rw [← last_file_eq ok tape] at bounds
  apply seal_inputs_writable ok.wellFormed range bounds.2 _ (entries_writable ok tape) plainHash
    known plainNow
  rw [ok.label]
  exact tape.allowed

theorem true_index (reads : env.crate.ReadsPlain) :
    ∃ content, TrueIndex env built.layout files 3 content (layoutClaims built.layout) ∧
      ∀ fiEntry ∈ built.layout.entries, fiEntry.kind = .frontIndex →
        fiEntry.sizeBytes = some content.length ∧
          fiEntry.sha256 = some (env.sha256Hex content) := by
  have wellFormed := ok.wellFormed
  have range := tape.positions
  rw [wellFormed.length] at range
  obtain ⟨low, _⟩ := ended_after_bounds ok tape
  have listedWritable : ∀ file ∈ built.layout.entries.map listed, Writable file := by
    intro file member
    obtain ⟨entry, entryMember, rfl⟩ := List.mem_map.mp member
    exact listed_writable (entries_writable ok tape entry entryMember)
  have nonempty : built.layout.entries.map listed ≠ [] := by
    intro none
    have sizes := congrArg List.length none
    rw [List.length_map, wellFormed.length] at sizes
    cases sizes
  let content := encodeUtf8 (generateFrontIndex inputs.label (built.layout.entries.map listed))
  have own : ∀ fiEntry ∈ built.layout.entries, fiEntry.kind = .frontIndex →
      fiEntry = materialized generators 3 .frontIndex content := ok.frontIndex
  refine ⟨content, ⟨?_, ?_, ?_, layout_claims_agree wellFormed⟩, ?_⟩
  · have bound : 3 < built.layout.entries.length := by
      rw [wellFormed.length]
      have order := wellFormed.order
      omega
    have member := List.getElem_mem bound
    have position := wellFormed.position_eq (List.getElem?_eq_getElem bound)
    have kind := (wellFormed.frontIndex _ member).mpr position
    obtain ⟨onTape, same, holds⟩ := tape.content _ member (by rw [position]; omega)
    rw [entryContent, kind] at same
    simp only [position] at same holds
    rw [show ((3 : Nat) : Int) = 3 from rfl, ok.frozenIndex] at same
    have contentEq : onTape = content := (Option.some.inj same).symm
    rw [contentEq] at holds
    exact holds
  · have parsed := parse_generated_front_index reads tape.allowed nonempty listedWritable 0
    simp only [stored, List.replicate_zero, List.append_nil, List.map_map] at parsed
    exact parsed
  · rw [consistencyMismatches, layout_claims_consistent wellFormed (by omega)]
    rfl
  · intro fiEntry member kind
    rw [own fiEntry member kind, ← tape.sha256]
    exact ⟨rfl, rfl⟩

/-- A search planned at or past a tape's seal ends at it, and it states the tape's ending and index. -/
theorem sealed_tape_seal_found (reads : env.crate.ReadsPlain) (slices : dataStart ≤ ending.lastFile last)
    {planned : Nat} (after : ending.lastFile last < planned) (call : Nat) :
    let found := Seam.delivered files (ending.lastFile last + 1)
    (Seam.locateSeal (Seam.steadyStore files) planned call).1 =
      (if Seam.smallFileCap < found.length then .oversized (ending.lastFile last + 1)
        else .file (ending.lastFile last + 1) found) ∧
    ∃ parsed, parseSealMarker env.crate (fromUtf8Lossy found) = .ok parsed ∧ parsed.refusal = none ∧
      parsed.effectiveEndedAfter = some (ending.lastFile last) ∧
      ∀ entry ∈ built.layout.entries, entry.kind = .frontIndex →
        entry.sha256 = some parsed.frontIndexSha256 := by
  obtain ⟨fiEntry, member, kind, fiHash, features, now, padding, hashed, known, plainNow, bytes⟩ :=
    tape.sealed
  obtain ⟨content, _, _, own⟩ := entry_content ok tape member (by rw [kind]; simp)
  obtain rfl : env.sha256Hex content = fiHash := Option.some.inj (own.symm.trans hashed)
  have range := tape.positions
  have ends := tape.ends
  have before := (ended_after_bounds ok tape).2
  rw [ok.wellFormed.length] at range
  rw [← last_file_eq ok tape] at bytes ends before
  have sound := seal_inputs_sound ok.wellFormed (by omega) slices before
    (tape_seal_writable ok tape (tape.hex content) known plainNow) known
  refine ⟨Seam.locate_seal_last ends after call, _, ?_, sound.refusal, sound.effective_ended_after,
    fun entry other isIndex => ?_⟩
  · rw [Seam.delivered, ← List.getD_eq_getElem?_getD, bytes]
    exact sound.parse reads padding
  · rw [ok.frontIndex entry other isIndex, ← ok.frontIndex fiEntry member kind, hashed]
    cases ending <;> rfl

end Tape

/-- No part of a data slice on the tape reads as a short seal that states the file before the slice
as the ending and binds another front index. -/
def SlicesAreNoSeals (env : Environment) (layout : Layout) (files : List Bytes) (reach : Nat) :
    Prop :=
  ∀ entry ∈ layout.entries, entry.kind.isSlice = true → entry.position ≤ reach →
    ∀ part parsed, part <+: files.getD entry.position.toNat [] →
      parseSealMarker env.crate (fromUtf8Lossy part) = .ok parsed → parsed.refusal = none →
      parsed.requiresShortSeal = true →
      parsed.effectiveEndedAfter = some (entry.position.toNat - 1) →
      ∀ fiEntry ∈ layout.entries, fiEntry.kind = .frontIndex →
        fiEntry.sha256 = some parsed.frontIndexSha256

theorem parse_seal_marker_nothing (crate : Toml.Crate) (parsed : ParsedSeal) :
    parseSealMarker crate (fromUtf8Lossy []) ≠ .ok parsed := by
  intro parses
  obtain ⟨document, read, _⟩ := parse_seal_marker_ok parses
  obtain ⟨body, table, found, _⟩ := parse_document_ok.mp read
  cases found

section Confirm

variable {env : Environment} {generators : Generators} {inputs : BuildInputs} {built : BuiltLayout}
variable {staged : Int → Bytes} {ending : Ending} {files : List Bytes} {last dataStart : Nat}

/-- A seal that is read at the claimed ending and states it binds the tape's own front index. -/
theorem seal_binds_index (reads : env.crate.ReadsPlain)
    (ok : Built generators inputs built last dataStart)
    (tape : SealedTape env generators inputs built staged ending files)
    (partialReads : env.PartialReads files) {walk : WalkEnding} (planned : walk.plannedSeal = last)
    (claimed : walk.endedAfter = last - 1 ∨ dataStart ≤ walk.endedAfter)
    (noSeals : SlicesAreNoSeals env built.layout files (endedAfter built.layout ending))
    {call : Nat} {hash : String}
    (bound : sealVerdict env walk (env.read call walk.sealPosition) =
      .bound hash (some walk.endedAfter)) :
    walk.endedAfter ≤ endedAfter built.layout ending ∧
      ∀ fiEntry ∈ built.layout.entries, fiEntry.kind = .frontIndex →
        fiEntry.sha256 = some hash := by
  obtain ⟨bytes, parsed, answer, _, accepted, hashEq, stated⟩ := seal_verdict_bound bound
  have part := partialReads call walk.sealPosition bytes answer
  have order := ok.wellFormed.order
  have length := ok.wellFormed.length
  obtain ⟨low, high⟩ := ended_after_bounds ok tape
  rcases Nat.lt_trichotomy walk.endedAfter (endedAfter built.layout ending) with
    before | same | after
  · -- A data slice where the claimed ending puts the seal.
    have inside : walk.sealPosition < built.layout.entries.length := by
      simp only [WalkEnding.sealPosition]
      omega
    have position := ok.wellFormed.position_eq (List.getElem?_eq_getElem inside)
    have member := List.getElem_mem inside
    have sliced : (built.layout.entries[walk.sealPosition]).kind.isSlice = true := by
      rw [ok.wellFormed.slices _ member, position]
      simp only [WalkEnding.sealPosition]
      omega
    have short : walk.isShort = true := by
      simp only [WalkEnding.isShort, WalkEnding.sealPosition, planned, decide_eq_true_eq]
      omega
    refine ⟨Nat.le_of_lt before, ?_⟩
    rw [hashEq]
    have reach : (built.layout.entries[walk.sealPosition]).position ≤
        endedAfter built.layout ending := by
      rw [position]
      simp only [WalkEnding.sealPosition]
      omega
    apply noSeals _ member sliced reach bytes parsed _ accepted.parses accepted.readable
      (accepted.short short)
    · rw [position, Int.toNat_natCast, ← stated]
      rfl
    · rw [position, Int.toNat_natCast]
      exact part
  · -- The tape's own seal, or a part of it.
    refine ⟨Nat.le_of_eq same, ?_⟩
    obtain ⟨fiEntry, member, kind, tapeHash, features, now, padding, hashed, known, plainNow,
      sealBytes⟩ := tape.sealed
    obtain ⟨content, _, _, hashContent⟩ := entry_content ok tape member (by rw [kind]; simp)
    have plainHash : Toml.PlainAscii tapeHash := by
      rw [hashed] at hashContent
      rw [Option.some.inj hashContent]
      exact tape.hex content
    rw [WalkEnding.sealPosition, same, sealBytes] at part
    obtain ⟨document, read, judged⟩ := parse_seal_marker_ok accepted.parses
    rw [List.prefix_iff_eq_take.mp part] at read
    have cut := (tape_seal_writable ok tape plainHash known plainNow).parse_cut reads padding
      bytes.length read
    have bindsTape : hash = tapeHash := by
      rw [hashEq, judge_parsed_seal_ok judged]
      refine cut.trans ?_
      cases ending <;> rfl
    intro other otherMember otherKind
    rw [bindsTape, ← hashed, (ok.frontIndex other otherMember otherKind),
      ok.frontIndex fiEntry member kind]
  · -- Past the last file.
    have nothing : files.getD walk.sealPosition [] = [] := by
      rw [List.getD_eq_getElem?_getD, List.getElem?_eq_none]
      · rfl
      · rw [tape.ends, WalkEnding.sealPosition]
        omega
    rw [nothing, List.prefix_nil] at part
    rw [part] at accepted
    exact absurd accepted.parses (parse_seal_marker_nothing _ _)

/-- Whatever the drive fails to read, a confirm of a sealed tape does not report its medium bad. -/
theorem read_failures_never_condemn {builtAt builtAgain : String} {plan : ConfirmPlan}
    {evidence : Evidence} (reads : env.crate.ReadsPlain)
    (build : buildWithPlanBound generators inputs builtAt builtAgain = .ok built)
    (tape : SealedTape env generators inputs built staged ending files)
    (claimed : ∀ k, plan.endedAfter = some k →
      ∃ entry ∈ built.layout.entries, entry.position = (k : Nat) ∧ entry.kind.isSlice = true)
    (noSeals : SlicesAreNoSeals env built.layout files (endedAfter built.layout ending))
    (partialReads : env.PartialReads files)
    (confirmed : (chainWalk env built.layout plan).outcome = .ok evidence) :
    evidence.provesMediumBad = false := by
  obtain ⟨last, dataStart, ok⟩ := built_of_ok build
  have wellFormed := ok.wellFormed
  have range := tape.positions
  rw [wellFormed.length] at range
  obtain ⟨content, index, own⟩ := true_index ok tape reads
  obtain ⟨start, sealCall, started, refused | judged⟩ := chain_walk_ok confirmed
  · obtain ⟨filesChecked, mismatch, verdict, rfl⟩ := refused
    apply proves_nothing_of_innocent
    apply innocent_singleton
    rw [seal_verdict_refused verdict]
    rfl
  obtain ⟨walkCall, rest, walked, rfl⟩ := judged
  obtain ⟨fiEntry, member, kind, fiPos, fiLen, planned, ended, before, readback⟩ :=
    walk_start_ok (placed_of_well_formed wellFormed) (by omega) started
  have at3 : start.fiPos = 3 := by
    have third := (wellFormed.frontIndex fiEntry member).mp kind
    omega
  have fiTrueLen : start.fiTrueLen = content.length := by
    rw [(own fiEntry member kind).1] at fiLen
    exact (Option.some.inj fiLen).symm
  rw [at3, fiTrueLen] at walked
  have claimedEnding : start.ending.endedAfter = last - 1 ∨ dataStart ≤ start.ending.endedAfter := by
    rw [ended]
    cases named : plan.endedAfter with
    | none => exact Or.inl rfl
    | some k =>
      obtain ⟨entry, entryMember, position, sliced⟩ := claimed k named
      obtain ⟨low, _⟩ := (wellFormed.slices entry entryMember).mp sliced
      right
      simp only [Option.getD_some]
      omega
  apply judge_innocent
  intro hash bound
  obtain ⟨reach, bindsOwn⟩ :=
    seal_binds_index reads ok tape partialReads planned claimedEnding noSeals bound
  have placed : ∀ position, start.ending.readback = some position → 3 < position ∧
      position ≤ start.ending.endedAfter ∧
      ∃ claim ∈ layoutClaims built.layout, asU32 claim.position = position := by
    intro position named
    obtain ⟨after, within⟩ := readback position named
    have inside : position < built.layout.entries.length := by
      rw [wellFormed.length]
      omega
    refine ⟨by omega, within, _, List.mem_map.mpr ⟨_, List.getElem_mem inside, rfl⟩, ?_⟩
    simp only [FrontIndexFile.parsed, listed,
      wellFormed.position_eq (List.getElem?_eq_getElem inside), asU32]
    omega
  obtain ⟨innocent, hashes⟩ := walk_from_index_innocent partialReads index
    (claims_hold ok tape reach before) placed walked
  refine ⟨innocent, fun fiHash found => ?_⟩
  have same := bindsOwn fiEntry member kind
  rw [(own fiEntry member kind).2] at same
  rw [hashes fiHash found]
  exact Option.some.inj same

end Confirm

/-! ## What does condemn

A file that reads as a seal for the claimed ending, and binds another front index than the tape's
own. -/

theorem seal_verdict_sound (reads : env.crate.ReadsPlain) {inputs : SealInputs} {ended : Nat}
    (sound : inputs.Sound ended) {padding : Nat}
    (small : (stored inputs.text padding).length ≤ Seam.smallFileCap) (ending : WalkEnding) :
    sealVerdict env ending (.ok (stored inputs.text padding)) =
      .bound inputs.frontIndexSha256 (some ended) := by
  have hash : inputs.statement.frontIndexSha256 = inputs.frontIndexSha256 := rfl
  simp only [sealVerdict, intoSmallSink, Nat.not_lt.mpr small, if_false, sound.parse reads,
    sound.refusal, sound.requires_short_seal, sound.effective_ended_after, hash, Bool.not_true,
    Bool.and_false, Bool.false_eq_true]

theorem other_index_condemns {layout : Layout} {plan : ConfirmPlan}
    {fiPos fiTrueLen : Nat} {ending : WalkEnding} {files : List Bytes} {content : Bytes}
    {claims : List ParsedIndexEntry} {hash : String}
    (started : walkStart layout plan = .ok ⟨fiPos, fiTrueLen, ending⟩)
    (tier : plan.tier = .navigable) (noReadback : ending.readback = none)
    (index : TrueIndex env layout files fiPos content claims) (size : fiTrueLen = content.length)
    (read : env.read 0 fiPos = .ok (files.getD fiPos []))
    (small : (files.getD fiPos []).length ≤ Seam.smallFileCap)
    (whole : fiTrueLen ≤ (files.getD fiPos []).length)
    (bound : sealVerdict env ending (env.read 1 ending.sealPosition) =
      .bound hash (some ending.endedAfter)) (differs : env.sha256Hex content ≠ hash) :
    ∃ evidence, (chainWalk env layout plan).outcome = .ok evidence ∧
      evidence.provesMediumBad = true := by
  have parsed := index.parsed (List.prefix_refl _) small (size ▸ whole)
  rw [← read, ← size] at parsed
  refine ⟨judge plan.tier fiPos ending (.bound hash (some ending.endedAfter))
    ⟨1, some (env.sha256Hex content), []⟩, ?_, ?_⟩
  · rw [chain_walk_seal_last started (by simp [tier]),
      walk_from_index_navigable tier noReadback parsed, index.consistent, index.agrees]
    simp only [readSeal, bound, List.append_nil]
    exact finish_walk_ok rfl
  · simp [judge, differs, Evidence.provesMediumBad, Evidence.mediumEvidence,
      Evidence.endingDisagrees, MismatchKind.provesMediumBad]

/-! ## A tape of two slices

One slice may be given any bytes: a seal's, or a single byte. -/

def plainGenerators : Generators where
  sha256Hex _ := "1"
  parseUuid _ := .ok []
  systemGuide _ _ _ := []
  restoreScript _ _ := []
  tenantEnvelope _ _ := []
  operatorEnvelope _ := []

def twoSlices (second : Bytes) : BuildInputs where
  label := "V"
  volumeUuid := "U"
  mediaType := "LTO-6"
  tapectlVersion := "1"
  createdAt := "T"
  blockSize := 512
  nominalCapacity := 1
  mamCapacity := 1
  mamManufacturer := ""
  mamSerial := ""
  cartridgeIdentitySource := none
  mamLength := 1
  mamLoads := 1
  units := [⟨1, "unit", 1, [⟨1, 1, 1, 1, "1", "1"⟩, ⟨2, 2, 1, second.length, "1", "1"⟩], none⟩]
  tenants := [1]

def twoSlicesStaged (second : Bytes) (id : Int) : Bytes := if id = 2 then second else [7]

def twoSlicesThunk (second : Bytes) : Bytes :=
  encodeUtf8 (generateIdThunkV2Requiring (idThunkParams (twoSlices second) 11) requiresWhole)

def twoSlicesFiles (second : Bytes) : List FrontIndexFile :=
  [⟨0, "id_thunk", some (twoSlicesThunk second).length, some "1"⟩,
    ⟨1, "system_guide", some 0, some "1"⟩, ⟨2, "restore_sh", some 0, some "1"⟩,
    ⟨3, "front_index", none, none⟩, ⟨4, "tenant_envelope", some 0, some "1"⟩,
    ⟨5, "operator_envelope", some 0, some "1"⟩, ⟨6, "operator_envelope_backup", some 0, some "1"⟩,
    ⟨7, "tenant_envelope_backup", some 0, some "1"⟩, ⟨8, "data_slice", some 1, some "1"⟩,
    ⟨9, "data_slice", some (max (second.length : Int) 0).toNat, some "1"⟩, ⟨10, "seal_marker", none, none⟩]

def twoSlicesBuilt (second : Bytes) : BuiltLayout :=
  assembleLayout plainGenerators (twoSlices second) ⟨1, 2⟩ [1] (twoSlicesFiles second) "T"

theorem two_slices_thunk (second : Bytes) :
    encodeUtf8 (generateIdThunkV2Requiring (idThunkParams (twoSlices second)
      (Positions.mk 1 2).totalFiles) (requires (twoSlices second))) = twoSlicesThunk second := by
  rw [show (Positions.mk 1 2).totalFiles = 11 from rfl,
    show requires (twoSlices second) = requiresWhole from rfl, twoSlicesThunk]

theorem two_slices_content (second : Bytes) :
    contentEntries plainGenerators (twoSlices second) ⟨1, 2⟩ [1] =
      [⟨0, .idThunk, some (twoSlicesThunk second).length, some "1"⟩,
        ⟨1, .systemGuide, some 0, some "1"⟩, ⟨2, .restoreSh, some 0, some "1"⟩,
        ⟨4, .tenantEnvelope 1, some 0, some "1"⟩, ⟨7, .tenantEnvelopeBackup 1, some 0, some "1"⟩,
        ⟨5, .operatorEnvelope, some 0, some "1"⟩, ⟨6, .operatorEnvelopeBackup, some 0, some "1"⟩,
        ⟨8, .slice 1, some 1, some "1"⟩,
        ⟨9, .slice 2, some (max (second.length : Int) 0).toNat, some "1"⟩] := by
  simp only [contentEntries, generatedZones, two_slices_thunk]
  generalize twoSlicesThunk second = thunk
  rfl

theorem two_slices_files (second : Bytes) :
    frontIndexFiles ⟨1, 2⟩ (contentEntries plainGenerators (twoSlices second) ⟨1, 2⟩ [1]) =
      .ok (twoSlicesFiles second) := by
  rw [two_slices_content, twoSlicesFiles]
  generalize (twoSlicesThunk second).length = thunk
  generalize (max (second.length : Int) 0).toNat = size
  rfl

theorem two_slices_build (second : Bytes) :
    buildWithPlanBound plainGenerators (twoSlices second) "T" "T" =
      .ok (twoSlicesBuilt second) := by
  have tenants : permutedTenants plainGenerators.sha256Hex [] (twoSlices second).units = [1] := by
    rfl
  unfold buildWithPlanBound
  simp only [show checkSpans (twoSlices second).units = .ok () from rfl,
    show plainGenerators.parseUuid (twoSlices second).volumeUuid = .ok [] from rfl, tenants,
    show checkTenants (twoSlices second) [1] = .ok () from rfl]
  rw [show (⟨[(1 : Int)].length, (allSlices (twoSlices second)).length⟩ : Positions) = ⟨1, 2⟩ from rfl,
    two_slices_files]
  simp only [ne_eq, not_true_eq_false, if_false]
  rfl

theorem two_slices_built (second : Bytes) :
    Built plainGenerators (twoSlices second) (twoSlicesBuilt second) 10 8 :=
  built_of_assembled ⟨rfl, rfl, two_slices_files second⟩ "T"

theorem two_slices_entries (second : Bytes) :
    ∃ sealSize : Nat, (twoSlicesBuilt second).layout.entries =
    [⟨0, .idThunk, some (twoSlicesThunk second).length, some "1"⟩,
      ⟨1, .systemGuide, some 0, some "1"⟩, ⟨2, .restoreSh, some 0, some "1"⟩,
      ⟨3, .frontIndex, some (frontIndexBytes (twoSlices second) (twoSlicesFiles second)).length,
        some "1"⟩,
      ⟨4, .tenantEnvelope 1, some 0, some "1"⟩, ⟨5, .operatorEnvelope, some 0, some "1"⟩,
      ⟨6, .operatorEnvelopeBackup, some 0, some "1"⟩,
      ⟨7, .tenantEnvelopeBackup 1, some 0, some "1"⟩, ⟨8, .slice 1, some 1, some "1"⟩,
      ⟨9, .slice 2, some (max (second.length : Int) 0).toNat, some "1"⟩,
      ⟨10, .sealMarker, some sealSize, none⟩] := by
  refine ⟨(sealPlaceholder plainGenerators (twoSlices second) ⟨1, 2⟩ (twoSlicesFiles second)
    "T").length, ?_⟩
  simp only [twoSlicesBuilt, assembleLayout, two_slices_content, allEntries, materialized,
    sealEntry]
  generalize (twoSlicesThunk second).length = thunk
  generalize (max (second.length : Int) 0).toNat = size
  generalize (frontIndexBytes (twoSlices second) (twoSlicesFiles second)).length = index
  generalize (sealPlaceholder plainGenerators (twoSlices second) ⟨1, 2⟩ (twoSlicesFiles second)
    "T").length = placeholder
  rfl

theorem two_slices_thunk_short (second : Bytes) : (twoSlicesThunk second).length ≤ 16000 := by
  have bound := length_generate_id_thunk (idThunkParams (twoSlices []) 11) requiresWhole
  have small : 4 * (2000 + (idThunkParams (twoSlices []) 11).label.toList.length +
      (idThunkParams (twoSlices []) 11).mediaType.toList.length +
      (idThunkParams (twoSlices []) 11).createdAt.toList.length + (Toml.Document.render
        [volumeTable (idThunkParams (twoSlices []) 11) requiresWhole,
          layoutTable (idThunkParams (twoSlices []) 11),
          mediaTable (idThunkParams (twoSlices []) 11)]).length) ≤ 16000 := by
    decide +kernel
  exact bound.trans small

theorem two_slices_short (short : second.length ≤ 10 ^ 6) :
    (frontIndexBytes (twoSlices second) (twoSlicesFiles second)).length ≤ 10 ^ 6 := by
  have thunk := two_slices_thunk_short second
  have entries : ∀ file ∈ twoSlicesFiles second, file.block.render.length ≤ 250 := by
    intro file member
    simp only [twoSlicesFiles, List.mem_cons, List.not_mem_nil, or_false] at member
    rcases member with rfl | rfl | rfl | rfl | rfl | rfl | rfl | rfl | rfl | rfl | rfl <;>
      refine length_file_render rfl (by decide) (by simp) ?_ (by simp) <;>
      simp only [Option.some.injEq, forall_eq', reduceCtorEq, false_implies, implies_true]
    all_goals omega
  have bound := length_generate_front_index entries "V"
  have table : 4 * (1200 + "V".toList.length + (indexTable "V").render.length + 251 * 11) ≤ 10 ^ 6 := by
    decide +kernel
  exact bound.trans table

theorem two_slices_session_dir (second : Bytes) :
    ∃ placeholder, (twoSlicesBuilt second).sessionDir =
      [(0, twoSlicesThunk second), (1, []), (2, []), (4, []), (7, []), (5, []), (6, []),
        (3, frontIndexBytes (twoSlices second) (twoSlicesFiles second)), (10, placeholder)] := by
  refine ⟨sealPlaceholder plainGenerators (twoSlices second) ⟨1, 2⟩ (twoSlicesFiles second) "T", ?_⟩
  simp only [twoSlicesBuilt, assembleLayout, generatedZones, two_slices_thunk]
  generalize sealPlaceholder plainGenerators (twoSlices second) ⟨1, 2⟩ (twoSlicesFiles second)
    "T" = placeholder
  generalize twoSlicesThunk second = thunk
  generalize frontIndexBytes (twoSlices second) (twoSlicesFiles second) = index
  rfl

def twoSlicesTape (second : Bytes) : List Bytes :=
  [twoSlicesThunk second, [], [], frontIndexBytes (twoSlices second) (twoSlicesFiles second), [],
    [], [], [], [7], second,
    encodeUtf8 (sealInputs (twoSlicesBuilt second).layout .full "1" requiresWhole "T").text]

theorem two_slices_sealed (env : Environment) (hashes : env.sha256Hex = fun _ => "1")
    (short : second.length ≤ 10 ^ 6) :
    SealedTape env plainGenerators (twoSlices second) (twoSlicesBuilt second)
      (twoSlicesStaged second) .full (twoSlicesTape second) := by
  obtain ⟨sealSize, entries⟩ := two_slices_entries second
  obtain ⟨placeholder, frozen⟩ := two_slices_session_dir second
  have index := two_slices_short short
  have thunk := two_slices_thunk_short second
  have count : (twoSlicesBuilt second).layout.entries.length = 11 := by rw [entries]; rfl
  have label : Naming.validateVolumeLabel (fun _ => "") "V" = .ok () := by decide +kernel
  refine ⟨by rw [hashes]; rfl, ?_, ⟨fun _ => "", label⟩, ?_, ?_, by omega, trivial, ?_, ?_, ?_⟩
  · intro bytes
    rw [hashes]
    exact (by decide : Toml.PlainAscii "1")
  · intro slice member
    rw [hashes]
    have listed : allSlices (twoSlices second) =
      [⟨1, 1, 1, 1, "1", "1"⟩, ⟨2, 2, 1, second.length, "1", "1"⟩] := rfl
    rw [listed] at member
    simp only [List.mem_cons, List.not_mem_nil, or_false] at member
    rcases member with rfl | rfl
    · exact ⟨rfl, rfl⟩
    · refine ⟨?_, rfl⟩
      simp [twoSlicesStaged]
  · intro entry member notSeal size sized
    rw [entries] at member
    simp only [List.mem_cons, List.not_mem_nil, or_false] at member
    rcases member with rfl | rfl | rfl | rfl | rfl | rfl | rfl | rfl | rfl | rfl | rfl <;>
      simp only [Option.some.injEq, ne_eq, not_true_eq_false] at sized notSeal <;> omega
  · intro entry member before
    rw [endedAfter, count] at before
    have whole : ∀ position content, (twoSlicesTape second).getD position [] = content →
        Holds (twoSlicesTape second) position content := by
      rintro position content rfl
      exact ⟨0, by simp⟩
    rw [entries] at member
    simp only [List.mem_cons, List.not_mem_nil, or_false] at member
    rcases member with rfl | rfl | rfl | rfl | rfl | rfl | rfl | rfl | rfl | rfl | rfl
    on_goal 11 => simp at before
    all_goals exact ⟨_, by simp only [entryContent, frozen, List.lookup]; rfl,
      whole _ _ (by simp [twoSlicesTape, twoSlicesStaged])⟩
  · have third : (⟨3, .frontIndex, some (frontIndexBytes (twoSlices second)
        (twoSlicesFiles second)).length, some "1"⟩ : LayoutEntry) ∈
        (twoSlicesBuilt second).layout.entries := by simp [entries]
    refine ⟨_, third, rfl, "1", requiresWhole, "T", 0, rfl, Or.inl rfl, ?_, ?_⟩
    · decide
    · rw [endedAfter, count]
      simp [twoSlicesTape, stored]
  · rw [endedAfter, count]
    rfl

def soundDrive (files : List Bytes) : Environment where
  crate := Toml.plainCrate
  sha256Hex _ := "1"
  read _ position := .ok (files.getD position [])
  signalled _ := false

theorem sound_drive_read (files : List Bytes) (call position : Nat) :
    (soundDrive files).read call position = .ok (files.getD position []) := rfl

theorem sound_drive_reads (files : List Bytes) : (soundDrive files).PartialReads files := by
  intro call position bytes answer
  rw [sound_drive_read] at answer
  rw [← Except.ok.inj answer]

theorem sealed_tape_seal_found_two_slices :
    ∃ parsed, parseSealMarker Toml.plainCrate (fromUtf8Lossy (Seam.delivered (twoSlicesTape [7]) 10)) =
      .ok parsed ∧ parsed.effectiveEndedAfter = some 9 := by
  obtain ⟨_, parsed, parses, _, stated, _⟩ := sealed_tape_seal_found (two_slices_built [7])
    (two_slices_sealed (soundDrive []) rfl (by decide)) Toml.plain_crate_reads_plain (by decide)
    (by decide : _ < 20) 0
  exact ⟨parsed, parses, stated⟩

def deadDrive : Environment where
  crate := Toml.plainCrate
  sha256Hex _ := "1"
  read _ _ := .error "Input/output error"
  signalled _ := false

theorem dead_drive_index (fiTrueLen call : Nat) :
    indexVerdict deadDrive 3 fiTrueLen (deadDrive.read call 3) =
      .stopped ⟨0, none, [⟨3, .frontIndexUnreadable, "front index present and readable",
        "read failed: Input/output error"⟩]⟩ := rfl

/-- What a slice would have to hold to be taken for a seal: one of the same Layout for the slice
before it, with another front index's hash. -/
def imitation : SealInputs :=
  sealInputs (twoSlicesBuilt [7]).layout (.short 8) "0" requiresWhole "T"

theorem imitation_sound : imitation.Sound 8 := by
  have ok := two_slices_built [7]
  have tape := two_slices_sealed deadDrive rfl (by decide : List.length ([7] : Bytes) ≤ 10 ^ 6)
  have writable : imitation.Writable := by
    apply seal_inputs_writable ok.wellFormed (by decide) (by decide) _ (entries_writable ok tape)
      (by decide) (Or.inl rfl) (by decide)
    rw [ok.label]
    exact tape.allowed
  exact seal_inputs_sound ok.wellFormed (by decide) (by decide) (by decide) writable (Or.inl rfl)

theorem imitation_files_short : ∀ file ∈ imitation.files, file.block.render.length ≤ 250 := by
  obtain ⟨sealSize, entries⟩ := two_slices_entries [7]
  have thunk := two_slices_thunk_short [7]
  have index := two_slices_short (by decide : List.length ([7] : Bytes) ≤ 10 ^ 6)
  intro file member
  simp only [imitation, sealInputs, List.mem_append, List.mem_filter, List.mem_singleton] at member
  rcases member with ⟨inFiles, _⟩ | rfl
  · obtain ⟨entry, entryMember, rfl⟩ := List.mem_map.mp inFiles
    rw [entries] at entryMember
    simp only [List.mem_cons, List.not_mem_nil, or_false] at entryMember
    rcases entryMember with rfl | rfl | rfl | rfl | rfl | rfl | rfl | rfl | rfl | rfl | rfl <;>
      refine length_file_render rfl (by decide) (by simp [sealListed, ZoneKind.typeLabel]) ?_
        (by simp [sealListed]) <;>
      simp only [sealListed, Option.some.injEq, forall_eq', reduceCtorEq, if_false, if_true,
        false_implies, implies_true, List.length_cons, List.length_nil]
    all_goals omega
  · exact length_file_render (by decide : saturatingAdd (asI32 8) 1 = (9 : Nat)) (by decide)
      (by simp) (by simp) (by simp)

def imitatedSlice : Bytes := stored imitation.text 0

theorem imitated_slice_short : imitatedSlice.length ≤ 10 ^ 6 := by
  have bound := SealInputs.length_text imitation_files_short
  have table : 4 * (1200 + 1 + (sealTable "V" (saturatingAdd (asI32 8) 2) (asI32 8) "0"
      requiresWhole "T").render.length + 251 * (8 + 2)) ≤ 10 ^ 6 := by
    decide +kernel
  have label : imitation.label.toList.length = 1 := rfl
  have tableEq : imitation.table = sealTable "V" (saturatingAdd (asI32 8) 2) (asI32 8) "0"
    requiresWhole "T" := rfl
  rw [imitatedSlice, stored, List.replicate_zero, List.append_nil]
  rw [imitation_sound.listed, tableEq, label] at bound
  exact bound.trans table

def endingAtFirstSlice : ConfirmPlan where
  tier := .navigable
  order := .sealLast
  resume := none
  endedAfter := some 8
  readback := none

theorem two_slices_start (second : Bytes) :
    walkStart (twoSlicesBuilt second).layout endingAtFirstSlice =
      .ok ⟨3, (frontIndexBytes (twoSlices second) (twoSlicesFiles second)).length, ⟨8, 10, none⟩⟩ := by
  obtain ⟨sealSize, entries⟩ := two_slices_entries second
  simp only [walkStart, entries]
  generalize (frontIndexBytes (twoSlices second) (twoSlicesFiles second)).length = size
  rfl

theorem two_slices_claimed (second : Bytes) :
    ∀ k, endingAtFirstSlice.endedAfter = some k →
      ∃ entry ∈ (twoSlicesBuilt second).layout.entries,
        entry.position = (k : Nat) ∧ entry.kind.isSlice = true := by
  obtain ⟨sealSize, entries⟩ := two_slices_entries second
  rintro k ⟨⟩
  exact ⟨⟨8, .slice 1, some 1, some "1"⟩, by simp [entries], rfl, rfl⟩

theorem two_slices_condemned (short : second.length ≤ 10 ^ 6) {hash : String}
    (bound : sealVerdict (soundDrive (twoSlicesTape second)) ⟨8, 10, none⟩ (.ok second) =
      .bound hash (some 8)) (differs : "1" ≠ hash) :
    ∃ evidence, (chainWalk (soundDrive (twoSlicesTape second)) (twoSlicesBuilt second).layout
      endingAtFirstSlice).outcome = .ok evidence ∧ evidence.provesMediumBad = true := by
  have tape := two_slices_sealed (soundDrive (twoSlicesTape second)) rfl short
  obtain ⟨content, index, own⟩ :=
    true_index (two_slices_built second) tape Toml.plain_crate_reads_plain
  obtain ⟨sealSize, entries⟩ := two_slices_entries second
  have third : (⟨3, .frontIndex, some (frontIndexBytes (twoSlices second)
      (twoSlicesFiles second)).length, some "1"⟩ : LayoutEntry) ∈
      (twoSlicesBuilt second).layout.entries := by simp [entries]
  have size := Option.some.inj (own _ third rfl).1
  have fi : (twoSlicesTape second).getD 3 [] =
      frontIndexBytes (twoSlices second) (twoSlicesFiles second) := by
    simp [twoSlicesTape]
  have slice : (twoSlicesTape second).getD 9 [] = second := by simp [twoSlicesTape]
  have cap : 10 ^ 6 ≤ Seam.smallFileCap := by decide
  have small : ((twoSlicesTape second).getD 3 []).length ≤ Seam.smallFileCap := by
    rw [fi]
    exact (two_slices_short short).trans cap
  have whole : (frontIndexBytes (twoSlices second) (twoSlicesFiles second)).length ≤
      ((twoSlicesTape second).getD 3 []).length := by
    rw [fi]
  apply other_index_condemns (two_slices_start second) rfl rfl index size (sound_drive_read _ 0 3)
    small whole _ differs
  rw [sound_drive_read]
  exact slice.symm ▸ bound

/-- A slice that reads as a seal is taken for one where the claimed ending puts it, and the front
index it does not bind condemns a tape all of whose reads succeed. -/
theorem imitated_seal_condemns :
    ∃ evidence, Toml.plainCrate.ReadsPlain ∧
      buildWithPlanBound plainGenerators (twoSlices imitatedSlice) "T" "T" =
        .ok (twoSlicesBuilt imitatedSlice) ∧
      SealedTape (soundDrive (twoSlicesTape imitatedSlice)) plainGenerators
        (twoSlices imitatedSlice) (twoSlicesBuilt imitatedSlice) (twoSlicesStaged imitatedSlice)
        .full (twoSlicesTape imitatedSlice) ∧
      (∀ k, endingAtFirstSlice.endedAfter = some k →
        ∃ entry ∈ (twoSlicesBuilt imitatedSlice).layout.entries,
          entry.position = (k : Nat) ∧ entry.kind.isSlice = true) ∧
      (soundDrive (twoSlicesTape imitatedSlice)).PartialReads (twoSlicesTape imitatedSlice) ∧
      (chainWalk (soundDrive (twoSlicesTape imitatedSlice)) (twoSlicesBuilt imitatedSlice).layout
        endingAtFirstSlice).outcome = .ok evidence ∧
      evidence.provesMediumBad = true := by
  have cap : 10 ^ 6 ≤ Seam.smallFileCap := by decide
  have reads : (soundDrive (twoSlicesTape imitatedSlice)).crate.ReadsPlain :=
    Toml.plain_crate_reads_plain
  have bound := seal_verdict_sound reads imitation_sound (imitated_slice_short.trans cap)
    ⟨8, 10, none⟩
  obtain ⟨evidence, outcome, condemned⟩ :=
    two_slices_condemned imitated_slice_short bound (by decide)
  exact ⟨evidence, Toml.plain_crate_reads_plain, two_slices_build _,
    two_slices_sealed _ rfl imitated_slice_short, two_slices_claimed _, sound_drive_reads _,
    outcome, condemned⟩

/-- On a drive that reads nothing at all, a confirm that ends at the wrong slice proves nothing. -/
theorem read_failures_never_condemn_two_slices :
    (chainWalk deadDrive (twoSlicesBuilt [7]).layout endingAtFirstSlice).outcome = .ok
        ⟨.navigable, 0, [⟨9, .sealUnreadable, "seal marker present and readable",
          "read failed: Input/output error"⟩]⟩ ∧
      Evidence.provesMediumBad ⟨.navigable, 0, [⟨9, .sealUnreadable,
        "seal marker present and readable", "read failed: Input/output error"⟩]⟩ = false := by
  have confirmed : (chainWalk deadDrive (twoSlicesBuilt [7]).layout endingAtFirstSlice).outcome =
      .ok ⟨.navigable, 0, [⟨9, .sealUnreadable, "seal marker present and readable",
        "read failed: Input/output error"⟩]⟩ := by
    rw [chain_walk_seal_last (two_slices_start _) (by decide),
      walk_from_index_navigable_stopped rfl (dead_drive_index _ _)]
    rfl
  have short : List.length ([7] : Bytes) ≤ 10 ^ 6 := by decide
  have tape := two_slices_sealed deadDrive rfl short
  obtain ⟨sealSize, entries⟩ := two_slices_entries [7]
  refine ⟨confirmed, read_failures_never_condemn Toml.plain_crate_reads_plain
    (two_slices_build [7]) tape (two_slices_claimed [7]) ?_ ?_ confirmed⟩
  · -- One byte is no seal, read or not.
    intro entry member sliced _ part parsed cut parses
    have held : (twoSlicesTape [7]).getD entry.position.toNat [] = [7] := by
      rw [entries] at member
      simp only [List.mem_cons, List.not_mem_nil, or_false] at member
      rcases member with rfl | rfl | rfl | rfl | rfl | rfl | rfl | rfl | rfl | rfl | rfl
      all_goals first | exact absurd sliced Bool.false_ne_true | simp [twoSlicesTape]
    rw [held] at cut
    have short : part = [] ∨ part = [7] := by
      rcases part with _ | ⟨byte, rest⟩
      · exact Or.inl rfl
      · obtain ⟨rfl, none⟩ := List.cons_prefix_cons.mp cut
        exact Or.inr (by rw [List.prefix_nil.mp none])
    obtain ⟨document, read, _⟩ := parse_seal_marker_ok parses
    obtain ⟨body, table, found, _⟩ := parse_document_ok.mp read
    have decoded : fromUtf8Lossy [7] = ['\x07'] := from_utf8_lossy_encode_all ['\x07']
    have noMarker : findFrom "[seal]".toList (trimEndMatches '\x00' (fromUtf8Lossy part)) = none := by
      rcases short with rfl | rfl
      · rfl
      · rw [decoded]
        rfl
    rw [noMarker] at found
    cases found
  · intro call position bytes answer
    cases answer

end Tapectl.Confirm
