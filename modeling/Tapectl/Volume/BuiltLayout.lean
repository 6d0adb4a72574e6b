import Tapectl.Store.ReadFailures

/-!
# Every file of a built Layout

The order of a built Layout, zone by zone, and what its front index, its seal placeholder and the
manifests in its envelopes say of it. From `volume/build.rs`: `to_manifest_unit` and
`build_manifest_units`. The columns of a unit that only its manifest block copies are given beside
the inputs, and an envelope is packed from its manifest by a function that stays a parameter.
-/

namespace Tapectl.Volume.Build

open StoredText Tapectl.Volume.Generate Tapectl.Volume.Format Tapectl.Confirm
open Tapectl.Volume.Session (sealListed)

structure UnitDetails where
  uuid : String
  snapshotVersion : Int
  darVersion : Option String
  darCommand : Option String
  deriving DecidableEq, Repr

structure ManifestSlice where
  number : Int
  tapePosition : Option Int
  sizeBytes : Int
  encryptedBytes : Int
  sha256Plain : String
  sha256Encrypted : String
  deriving DecidableEq, Repr

structure ManifestUnit where
  name : String
  uuid : String
  snapshotVersion : Int
  stageSetId : Int
  maySpan : Bool
  darVersion : Option String
  darCommand : Option String
  slices : List ManifestSlice
  deriving DecidableEq, Repr

section Manifests

variable (details : BuildUnit → UnitDetails) (inputs : BuildInputs) (positions : Int → Option Int)

def manifestSlice (slice : SpanSlice) : ManifestSlice where
  number := slice.sliceNumber
  tapePosition := positions slice.sliceId
  sizeBytes := slice.sizeBytes
  encryptedBytes := slice.encryptedBytes
  sha256Plain := slice.sha256Plain
  sha256Encrypted := slice.sha256Encrypted

/-- The slices a unit's block lists: a span's all, any other unit's planned ones. -/
def BuildUnit.manifested (unit : BuildUnit) : List SpanSlice :=
  match unit.span with
  | some span => span
  | none => unit.slices.map SpanSlice.of

def toManifestUnit (unit : BuildUnit) : ManifestUnit where
  name := unit.unitName
  uuid := (details unit).uuid
  snapshotVersion := (details unit).snapshotVersion
  stageSetId := unit.stageSetId
  maySpan := unit.span.isSome
  darVersion := (details unit).darVersion
  darCommand := (details unit).darCommand
  slices := unit.manifested.map (manifestSlice positions)

def buildManifestUnits (tenantId : Int) : List ManifestUnit :=
  (inputs.units.filter fun unit => unit.tenantId = tenantId).map (toManifestUnit details positions)

def buildManifestUnitsAll : List ManifestUnit :=
  inputs.units.map (toManifestUnit details positions)

end Manifests

def positionsOf (inputs : BuildInputs) : Positions where
  tenants := ((inputs.units.map BuildUnit.tenantId).insertionSort fun a b => a ≤ b).dedup.length
  slices := (allSlices inputs).length

def slicePositions (inputs : BuildInputs) : Int → Option Int :=
  slicePosition (positionsOf inputs).dataStart (allSlices inputs)

/-- The builder's calls, with an envelope packed from the manifest it carries. -/
structure Packing where
  sha256Hex : Bytes → String
  parseUuid : String → Except String Bytes
  systemGuide : String → Int → String → Bytes
  restoreScript : String → Int → Bytes
  details : BuildUnit → UnitDetails
  tenantEnvelope : BuildInputs → Int → List ManifestUnit → Bytes
  operatorEnvelope : BuildInputs → List ManifestUnit → Bytes

def Packing.generators (packing : Packing) : Generators where
  sha256Hex := packing.sha256Hex
  parseUuid := packing.parseUuid
  systemGuide := packing.systemGuide
  restoreScript := packing.restoreScript
  tenantEnvelope := fun inputs tenantId => packing.tenantEnvelope inputs tenantId
    (buildManifestUnits packing.details inputs (slicePositions inputs) tenantId)
  operatorEnvelope := fun inputs => packing.operatorEnvelope inputs
    (buildManifestUnitsAll packing.details inputs (slicePositions inputs))

section Order

variable (generators : Generators) (inputs : BuildInputs) (plan : Positions) (tenants : List Int)

def leadZones : List (Int × ZoneKind × Bytes) :=
  [(0, .idThunk, encodeUtf8 (generateIdThunkV2Requiring (idThunkParams inputs plan.totalFiles)
      (requires inputs))),
    (1, .systemGuide, generators.systemGuide inputs.label plan.totalFiles inputs.mediaType),
    (2, .restoreSh, generators.restoreScript inputs.label plan.totalFiles)]

def envelopeZones : List (Int × ZoneKind × Bytes) :=
  tenants.zipIdx.map fun tenant => (Positions.firstEnvelope + tenant.2, .tenantEnvelope tenant.1,
    generators.tenantEnvelope inputs tenant.1)

def operatorZones : List (Int × ZoneKind × Bytes) :=
  [(plan.operator, .operatorEnvelope, generators.operatorEnvelope inputs),
    (plan.operatorBackup, .operatorEnvelopeBackup, generators.operatorEnvelope inputs)]

def backupZones : List (Int × ZoneKind × Bytes) :=
  tenants.zipIdx.map fun tenant => (plan.firstTenantBackup + tenant.2,
    .tenantEnvelopeBackup tenant.1, generators.tenantEnvelope inputs tenant.1)

def sliceEntries : List LayoutEntry :=
  (allSlices inputs).zipIdx.map fun slice =>
    { sliceEntry plan.dataStart (allSlices inputs) slice.1 with position := plan.dataStart + slice.2 }

def laidOut (frontIndex : Bytes) (sealSize : Nat) : List LayoutEntry :=
  (leadZones generators inputs plan).map (zoneEntry generators) ++
    [materialized generators Positions.frontIndex .frontIndex frontIndex] ++
    (envelopeZones generators inputs tenants).map (zoneEntry generators) ++
    (operatorZones generators inputs plan).map (zoneEntry generators) ++
    (backupZones generators inputs plan tenants).map (zoneEntry generators) ++
    sliceEntries inputs plan ++ [sealEntry plan sealSize]

variable {generators inputs plan tenants}

theorem lookup_of_mem {Key Value : Type} [DecidableEq Key] {pairs : List (Key × Value)}
    (distinct : (pairs.map Prod.fst).Nodup) {key : Key} {value : Value}
    (member : (key, value) ∈ pairs) : pairs.lookup key = some value := by
  induction pairs with
  | nil => cases member
  | cons first rest ih =>
    obtain ⟨fresh, distinct⟩ := List.nodup_cons.mp distinct
    rcases List.mem_cons.mp member with rfl | later
    · rw [List.lookup_cons, beq_self_eq_true]
    · have other : key ≠ first.1 := by
        rintro rfl
        exact fresh (List.mem_map.mpr ⟨_, later, rfl⟩)
      rw [List.lookup_cons, beq_false_of_ne other]
      exact ih distinct later

theorem slice_position_at (dataStart : Int) {slices : List BuildSlice}
    (distinct : (slices.map BuildSlice.sliceId).Nodup) {index : Nat} {slice : BuildSlice}
    (found : slices[index]? = some slice) :
    slicePosition dataStart slices slice.sliceId = some (dataStart + index) := by
  have keys : (slices.zipIdx.map fun slice => (slice.1.sliceId, dataStart + (slice.2 : Int))).map
      Prod.fst = slices.map BuildSlice.sliceId := by
    conv_rhs => rw [← List.zipIdx_map_fst 0 slices, List.map_map]
    rw [List.map_map]
    rfl
  refine lookup_of_mem ?_ ?_
  · rw [List.map_reverse, List.nodup_reverse, keys]
    exact distinct
  · rw [List.mem_reverse, List.mem_map]
    exact ⟨(slice, index), List.mem_zipIdx_iff_getElem?.mpr found, rfl⟩

theorem slice_entries_eq (distinct : ((allSlices inputs).map BuildSlice.sliceId).Nodup) :
    (allSlices inputs).map (sliceEntry plan.dataStart (allSlices inputs)) =
      sliceEntries inputs plan := by
  have indexed : ∀ entryOf : BuildSlice → LayoutEntry, (allSlices inputs).map entryOf =
      (allSlices inputs).zipIdx.map fun slice => entryOf slice.1 := by
    intro entryOf
    conv_lhs => rw [← List.zipIdx_map_fst 0 (allSlices inputs), List.map_map]
    rfl
  rw [indexed, sliceEntries]
  refine List.map_congr_left fun slice member => ?_
  have found := List.mem_zipIdx_iff_getElem?.mp member
  simp only [sliceEntry, slice_position_at plan.dataStart distinct found, Option.getD_some]

theorem all_entries_perm (distinct : ((allSlices inputs).map BuildSlice.sliceId).Nodup)
    (frontIndex : Bytes) (sealSize : Nat) :
    (allEntries generators plan (contentEntries generators inputs plan tenants) frontIndex
      sealSize).Perm (laidOut generators inputs plan tenants frontIndex sealSize) := by
  have pairs : (generatedZones generators inputs plan tenants).Perm
      (leadZones generators inputs plan ++ (envelopeZones generators inputs tenants ++
        backupZones generators inputs plan tenants) ++ operatorZones generators inputs plan) := by
    refine List.Perm.append (List.Perm.append (List.Perm.refl _) ?_) (List.Perm.refl _)
    have both := List.flatMap_append_perm tenants.zipIdx
      (fun tenant => [((Positions.firstEnvelope + tenant.2, .tenantEnvelope tenant.1,
        generators.tenantEnvelope inputs tenant.1) : Int × ZoneKind × Bytes)])
      (fun tenant => [((plan.firstTenantBackup + tenant.2, .tenantEnvelopeBackup tenant.1,
        generators.tenantEnvelope inputs tenant.1) : Int × ZoneKind × Bytes)])
    simp only [← List.map_eq_flatMap] at both
    exact both.symm
  have content := (pairs.map (zoneEntry generators)).append_right (sliceEntries inputs plan)
  rw [allEntries, contentEntries, slice_entries_eq distinct]
  refine (content.append_right _).trans ?_
  rw [← Multiset.coe_eq_coe]
  simp only [laidOut, List.map_append, ← Multiset.coe_add,
    ← List.singleton_append (l := [sealEntry plan sealSize])]
  abel

theorem zip_idx_positions {Item : Type} (items : List Item) (start : Int) :
    (items.zipIdx.map fun item => start + (item.2 : Int)) =
      (List.range items.length).map fun index : Nat => start + (index : Int) := by
  rw [List.range_eq_range', ← List.zipIdx_map_snd 0 items, List.map_map]
  rfl

theorem range_block (start count : Nat) :
    ((List.range count).map (start + ·)).map Int.ofNat =
      (List.range count).map fun index : Nat => (start : Int) + (index : Int) := by
  simp

theorem laid_out_positions (counted : plan.tenants = tenants.length)
    (sliced : plan.slices = (allSlices inputs).length) (frontIndex : Bytes) (sealSize : Nat) :
    (laidOut generators inputs plan tenants frontIndex sealSize).map (·.position) =
      (List.range plan.totalFiles.toNat).map Int.ofNat := by
  have places : plan.operator = (4 + tenants.length : Nat) ∧
      plan.firstTenantBackup = (4 + tenants.length + 2 : Nat) ∧
      plan.dataStart = (4 + tenants.length + 2 + tenants.length : Nat) ∧
      plan.sealMarker = (4 + tenants.length + 2 + tenants.length + (allSlices inputs).length : Nat) ∧
      plan.totalFiles.toNat =
        4 + tenants.length + 2 + tenants.length + (allSlices inputs).length + 1 := by
    simp only [Positions.sealMarker, Positions.totalFiles, Positions.dataStart,
      Positions.firstTenantBackup, Positions.operatorBackup, Positions.operator,
      Positions.firstEnvelope, counted, sliced]
    omega
  obtain ⟨operator, backups, data, sealed, total⟩ := places
  have envelopes : ((envelopeZones generators inputs tenants).map (zoneEntry generators)).map
      (·.position) = ((List.range tenants.length).map (4 + ·)).map Int.ofNat := by
    rw [range_block, envelopeZones, List.map_map, List.map_map]
    exact zip_idx_positions tenants 4
  have operators : ((operatorZones generators inputs plan).map (zoneEntry generators)).map
      (·.position) = ((List.range 2).map (4 + tenants.length + ·)).map Int.ofNat := by
    simp only [operatorZones, Positions.operatorBackup, operator]
    rfl
  have copies : ((backupZones generators inputs plan tenants).map (zoneEntry generators)).map
      (·.position) = ((List.range tenants.length).map (4 + tenants.length + 2 + ·)).map Int.ofNat := by
    rw [range_block, ← backups, backupZones, List.map_map, List.map_map]
    exact zip_idx_positions tenants _
  have slices : (sliceEntries inputs plan).map (·.position) =
      ((List.range (allSlices inputs).length).map
        (4 + tenants.length + 2 + tenants.length + ·)).map Int.ofNat := by
    rw [range_block, ← data, sliceEntries, List.map_map]
    exact zip_idx_positions (allSlices inputs) _
  rw [total]
  simp only [List.range_add, List.map_append, laidOut, envelopes, operators, copies, slices]
  simp only [List.map_cons, List.map_nil, sealEntry, sealed]
  rfl

theorem sorted_is_laid_out (counted : plan.tenants = tenants.length)
    (sliced : plan.slices = (allSlices inputs).length)
    (distinct : ((allSlices inputs).map BuildSlice.sliceId).Nodup) (frontIndex : Bytes)
    (sealSize : Nat) :
    sortEntries (allEntries generators plan (contentEntries generators inputs plan tenants)
      frontIndex sealSize) = laidOut generators inputs plan tenants frontIndex sealSize := by
  have ascending : (laidOut generators inputs plan tenants frontIndex sealSize).Pairwise
      fun one other => one.position < other.position := by
    refine List.pairwise_map.mp ?_
    rw [laid_out_positions counted sliced]
    exact List.Pairwise.map _ (fun _ _ less => Int.ofNat_lt.mpr less) List.pairwise_lt_range
  have keys : ((laidOut generators inputs plan tenants frontIndex sealSize).map (·.position)).Nodup :=
    List.pairwise_map.mpr (ascending.imp ne_of_lt)
  have perm := (List.perm_insertionSort (fun a b : LayoutEntry => a.position ≤ b.position) _).trans
    (@all_entries_perm generators inputs plan tenants distinct frontIndex sealSize)
  refine perm.eq_of_pairwise (fun one other first second below above => ?_)
    (List.pairwise_insertionSort _ _) (ascending.imp le_of_lt)
  exact List.inj_on_of_nodup_map keys (perm.mem_iff.mp first) second (le_antisymm below above)

end Order

section Assembly

variable {generators : Generators} {inputs : BuildInputs} {plan : Positions} {tenants : List Int}

theorem front_index_files_ok (counted : plan.tenants = tenants.length)
    (sliced : plan.slices = (allSlices inputs).length)
    (distinct : ((allSlices inputs).map BuildSlice.sliceId).Nodup) :
    ∃ files, frontIndexFiles plan (contentEntries generators inputs plan tenants) = .ok files := by
  apply Effects.map_m_total
  intro position inside
  unfold frontIndexFile
  split
  · exact ⟨_, rfl⟩
  next notIndex =>
  split
  · exact ⟨_, rfl⟩
  next notSeal =>
  rw [← @laid_out_positions generators inputs plan tenants counted sliced [] 0] at inside
  obtain ⟨entry, member, same⟩ := List.mem_map.mp inside
  have perm := @all_entries_perm generators inputs plan tenants distinct [] 0
  rcases mem_all_entries.mp (perm.mem_iff.mpr member) with content | rfl | rfl
  · cases found : (contentEntries generators inputs plan tenants).find?
      fun entry => entry.position == position with
    | none =>
      have none := List.find?_eq_none.mp found entry content
      simp [same] at none
    | some other => exact ⟨_, rfl⟩
  · exact absurd same.symm notIndex
  · exact absurd same.symm notSeal

theorem zone_bytes {zone : Int × ZoneKind × Bytes}
    (member : zone ∈ generatedZones generators inputs plan tenants) :
    (∀ tenant, zone.2.1 = .tenantEnvelope tenant ∨ zone.2.1 = .tenantEnvelopeBackup tenant →
      zone.2.2 = generators.tenantEnvelope inputs tenant) ∧
    (zone.2.1 = .operatorEnvelope ∨ zone.2.1 = .operatorEnvelopeBackup →
      zone.2.2 = generators.operatorEnvelope inputs) := by
  simp only [generatedZones, List.mem_append, List.mem_cons, List.not_mem_nil, or_false,
    List.mem_flatMap] at member
  rcases member with ((rfl | rfl | rfl) | ⟨tenant, -, rfl | rfl⟩) | rfl | rfl <;> simp

theorem mem_laid_out (distinct : ((allSlices inputs).map BuildSlice.sliceId).Nodup)
    {frontIndex : Bytes} {sealSize : Nat} {entry : LayoutEntry} :
    entry ∈ laidOut generators inputs plan tenants frontIndex sealSize ↔
      (∃ zone ∈ generatedZones generators inputs plan tenants, entry = zoneEntry generators zone) ∨
      entry ∈ sliceEntries inputs plan ∨
      entry = materialized generators Positions.frontIndex .frontIndex frontIndex ∨
      entry = sealEntry plan sealSize := by
  rw [← (@all_entries_perm generators inputs plan tenants distinct frontIndex sealSize).mem_iff,
    mem_all_entries, contentEntries, slice_entries_eq distinct, List.mem_append, List.mem_map,
    or_assoc]
  simp only [eq_comm]

theorem session_dir_keys (counted : plan.tenants = tenants.length)
    (sliced : plan.slices = (allSlices inputs).length)
    (distinct : ((allSlices inputs).map BuildSlice.sliceId).Nodup) (files : List FrontIndexFile)
    (now : String) :
    ((assembleLayout generators inputs plan tenants files now).sessionDir.map Prod.fst).Nodup := by
  have all : ((allEntries generators plan (contentEntries generators inputs plan tenants) [] 0).map
      (·.position)).Nodup := by
    rw [((@all_entries_perm generators inputs plan tenants distinct [] 0).map _).nodup_iff,
      laid_out_positions counted sliced]
    exact List.nodup_range.map fun _ _ same => Int.ofNat.inj same
  refine all.sublist ?_
  simp only [assembleLayout, allEntries, contentEntries, List.map_append, List.map_map]
  refine List.Sublist.append ?_ (List.Sublist.refl _)
  exact List.sublist_append_left _ _

theorem laid_out_kinds (frontIndex : Bytes) (sealSize : Nat) :
    (laidOut generators inputs plan tenants frontIndex sealSize).map (·.kind) =
      [.idThunk, .systemGuide, .restoreSh, .frontIndex] ++ tenants.map .tenantEnvelope ++
        [.operatorEnvelope, .operatorEnvelopeBackup] ++ tenants.map .tenantEnvelopeBackup ++
        inputs.units.flatMap (fun unit => unit.slices.map fun slice => .slice slice.sliceId) ++
        [.sealMarker] := by
  have envelopes : ((envelopeZones generators inputs tenants).map (zoneEntry generators)).map
      (·.kind) = tenants.map .tenantEnvelope := by
    conv_rhs => rw [← List.zipIdx_map_fst 0 tenants]
    simp only [envelopeZones, List.map_map]
    rfl
  have backups : ((backupZones generators inputs plan tenants).map (zoneEntry generators)).map
      (·.kind) = tenants.map .tenantEnvelopeBackup := by
    conv_rhs => rw [← List.zipIdx_map_fst 0 tenants]
    simp only [backupZones, List.map_map]
    rfl
  have slices : (sliceEntries inputs plan).map (·.kind) =
      inputs.units.flatMap fun unit => unit.slices.map fun slice => .slice slice.sliceId := by
    rw [← List.map_flatMap]
    conv_rhs => rw [← List.zipIdx_map_fst 0 (inputs.units.flatMap fun unit => unit.slices)]
    rw [sliceEntries, List.map_map, List.map_map]
    rfl
  simp only [laidOut, List.map_append, envelopes, backups, slices]
  rfl

end Assembly

def placeholderInputs (generators : Generators) (inputs : BuildInputs) (now : String)
    (layout : Layout) : SealInputs :=
  Session.sealInputs layout .full
    (generators.sha256Hex (encodeUtf8 (generateFrontIndex inputs.label (layout.entries.map listed))))
    (requires inputs) now

/-- The positions a manifest states: of every slice the tape plans its place in the Layout, and of no
other. -/
def StatesPlace (inputs : BuildInputs) (layout : Layout) (unit : BuildUnit) (slice : SpanSlice)
    (stated : ManifestSlice) : Prop :=
  stated.number = slice.sliceNumber ∧
  (∀ position, stated.tapePosition = some position ↔
    ∃ entry ∈ layout.entries, entry.kind = .slice slice.sliceId ∧ entry.position = position) ∧
  (stated.tapePosition = none ↔
    unit.span.isSome = true ∧ ∀ planned ∈ allSlices inputs, planned.sliceId ≠ slice.sliceId)

/-- A Layout as every reader of the tape takes it to be. `now` is the time of the placeholder. -/
structure WellBuilt (packing : Packing) (inputs : BuildInputs) (now : String) (built : BuiltLayout) :
    Prop where
  positions : built.layout.entries.map (·.position) =
    (List.range built.layout.entries.length).map Int.ofNat
  order : ∃ tenants : List Int, tenants.Nodup ∧
    (∀ tenant, tenant ∈ tenants ↔ ∃ unit ∈ inputs.units, unit.tenantId = tenant) ∧
    built.layout.entries.map (·.kind) =
      [.idThunk, .systemGuide, .restoreSh, .frontIndex] ++ tenants.map .tenantEnvelope ++
        [.operatorEnvelope, .operatorEnvelopeBackup] ++ tenants.map .tenantEnvelopeBackup ++
        inputs.units.flatMap (fun unit => unit.slices.map fun slice => .slice slice.sliceId) ++
        [.sealMarker]
  tenantBackup : ∀ primary ∈ built.layout.entries, ∀ backup ∈ built.layout.entries, ∀ tenant,
    primary.kind = .tenantEnvelope tenant → backup.kind = .tenantEnvelopeBackup tenant →
      backup.sizeBytes = primary.sizeBytes ∧ backup.sha256 = primary.sha256
  operatorBackup : ∀ primary ∈ built.layout.entries, ∀ backup ∈ built.layout.entries,
    primary.kind = .operatorEnvelope → backup.kind = .operatorEnvelopeBackup →
      backup.sizeBytes = primary.sizeBytes ∧ backup.sha256 = primary.sha256
  frontIndex : built.sessionDir.lookup 3 =
    some (encodeUtf8 (generateFrontIndex inputs.label (built.layout.entries.map listed)))
  consistent : validateConsistency (layoutClaims built.layout) = []
  agrees : layoutMismatches (layoutClaims built.layout) built.layout = []
  sealMarker : built.sessionDir.lookup ((built.layout.entries.length : Int) - 1) =
    some (encodeUtf8 (placeholderInputs packing.generators inputs now built.layout).text)
  sealRules :
    (placeholderInputs packing.generators inputs now built.layout).statement.checkParseRules = .ok ()
  -- with an allowed label and plain texts, the frozen bytes are read back as just said
  parsed : ∀ crate : Toml.Crate, crate.ReadsPlain →
    (placeholderInputs packing.generators inputs now built.layout).Writable →
    (built.sessionDir.lookup 3).map (parseFrontIndex crate ∘ fromUtf8Lossy) =
      some (.ok (layoutClaims built.layout)) ∧
    (built.sessionDir.lookup ((built.layout.entries.length : Int) - 1)).map
        (parseSealMarker crate ∘ fromUtf8Lossy) =
      some (.ok (placeholderInputs packing.generators inputs now built.layout).statement)
  tenantManifest : ∀ entry ∈ built.layout.entries, ∀ tenant,
    entry.kind = .tenantEnvelope tenant ∨ entry.kind = .tenantEnvelopeBackup tenant →
      built.sessionDir.lookup entry.position = some (packing.tenantEnvelope inputs tenant
        (buildManifestUnits packing.details inputs (slicePositions inputs) tenant))
  operatorManifest : ∀ entry ∈ built.layout.entries,
    entry.kind = .operatorEnvelope ∨ entry.kind = .operatorEnvelopeBackup →
      built.sessionDir.lookup entry.position = some (packing.operatorEnvelope inputs
        (buildManifestUnitsAll packing.details inputs (slicePositions inputs)))
  places : ∀ unit ∈ inputs.units, List.Forall₂ (StatesPlace inputs built.layout unit) unit.manifested
    (toManifestUnit packing.details (slicePositions inputs) unit).slices

section WellBuilt

variable {generators : Generators} {inputs : BuildInputs} {plan : Positions} {tenants : List Int}

theorem permuted_tenants_perm (sha256Hex : Bytes → String) (volumeUuid : Bytes)
    (units : List BuildUnit) : (permutedTenants sha256Hex volumeUuid units).Perm
      ((units.map BuildUnit.tenantId).insertionSort fun a b => a ≤ b).dedup :=
  List.perm_insertionSort _ _

theorem permuted_tenants_nodup (sha256Hex : Bytes → String) (volumeUuid : Bytes)
    (units : List BuildUnit) : (permutedTenants sha256Hex volumeUuid units).Nodup :=
  (permuted_tenants_perm sha256Hex volumeUuid units).nodup_iff.mpr (List.nodup_dedup _)

theorem mem_permuted_tenants {sha256Hex : Bytes → String} {volumeUuid : Bytes}
    {units : List BuildUnit} {tenant : Int} : tenant ∈ permutedTenants sha256Hex volumeUuid units ↔
      ∃ unit ∈ units, unit.tenantId = tenant := by
  rw [(permuted_tenants_perm sha256Hex volumeUuid units).mem_iff, List.mem_dedup,
    List.mem_insertionSort, List.mem_map]

theorem seal_files_eq {layout : Layout} {last dataStart : Nat}
    (wellFormed : WellFormed layout last dataStart) {bytes : Bytes}
    (index : ∀ entry ∈ layout.entries, entry.kind = .frontIndex →
      entry = materialized generators 3 .frontIndex bytes) :
    sealFiles (layout.entries.map listed) bytes.length (generators.sha256Hex bytes) =
      layout.entries.map sealListed := by
  rw [sealFiles, List.map_map]
  refine List.map_congr_left fun entry member => ?_
  by_cases kind : entry.kind = .frontIndex
  · rw [index entry member kind]
    simp [listed, materialized, Positions.frontIndex, sealListed]
  · have elsewhere : entry.position ≠ 3 := mt (wellFormed.frontIndex entry member).mpr kind
    simp [listed, Positions.frontIndex, sealListed, kind, elsewhere]

theorem slice_positions_some {id position : Int} :
    slicePosition plan.dataStart (allSlices inputs) id = some position →
      ∃ entry ∈ sliceEntries inputs plan, entry.kind = .slice id ∧ entry.position = position := by
  intro found
  obtain ⟨before, after, split, -⟩ := List.lookup_eq_some_iff.mp found
  have listed : (id, position) ∈ ((allSlices inputs).zipIdx.map fun slice =>
      (slice.1.sliceId, plan.dataStart + (slice.2 : Int))) := by
    rw [← List.mem_reverse, split]
    simp
  obtain ⟨slice, member, same⟩ := List.mem_map.mp listed
  obtain ⟨rfl, rfl⟩ := Prod.mk.inj same
  exact ⟨_, List.mem_map_of_mem member, rfl, rfl⟩

theorem slice_entry_place (distinct : ((allSlices inputs).map BuildSlice.sliceId).Nodup)
    {entry : LayoutEntry} (member : entry ∈ sliceEntries inputs plan) {id : Int}
    (kind : entry.kind = .slice id) :
    slicePosition plan.dataStart (allSlices inputs) id = some entry.position := by
  obtain ⟨slice, listed, rfl⟩ := List.mem_map.mp member
  obtain rfl : slice.1.sliceId = id := by simpa [sliceEntry] using kind
  exact slice_position_at plan.dataStart distinct (List.mem_zipIdx_iff_getElem?.mp listed)

theorem slice_positions_none {id : Int} :
    slicePosition plan.dataStart (allSlices inputs) id = none ↔
      ∀ planned ∈ allSlices inputs, planned.sliceId ≠ id := by
  rw [slicePosition, List.lookup_eq_none_iff]
  constructor
  · intro absent planned member same
    obtain ⟨index, found⟩ := List.mem_iff_getElem?.mp member
    have := absent (planned.sliceId, plan.dataStart + (index : Int)) (by
      rw [List.mem_reverse]
      exact List.mem_map.mpr ⟨(planned, index), List.mem_zipIdx_iff_getElem?.mpr found, rfl⟩)
    simp [same] at this
  · intro other pair member
    obtain ⟨slice, listed, rfl⟩ := List.mem_map.mp (List.mem_reverse.mp member)
    have known : slice.1 ∈ allSlices inputs :=
      List.mem_of_getElem? (List.mem_zipIdx_iff_getElem?.mp listed)
    simpa using Ne.symm (other slice.1 known)

/-- What a build assembles from inputs with a slice and distinct slice ids, when its files can be
counted in an `i32`. -/
structure Countable (inputs : BuildInputs) : Prop where
  some_slice : allSlices inputs ≠ []
  distinct : ((allSlices inputs).map BuildSlice.sliceId).Nodup
  counted : (positionsOf inputs).totalFiles < 2 ^ 31

section Assembled

variable {files : List FrontIndexFile} (countable : Countable inputs)
  (assembled : Assembled generators inputs plan tenants files) (now : String)

include countable assembled

theorem entries_laid_out : (assembleLayout generators inputs plan tenants files now).layout.entries =
    laidOut generators inputs plan tenants (frontIndexBytes inputs files)
      (sealPlaceholder generators inputs plan files now).length :=
  sorted_is_laid_out assembled.counted assembled.sliced countable.distinct _ _

theorem frozen_zone {entry : LayoutEntry}
    (member : entry ∈ (assembleLayout generators inputs plan tenants files now).layout.entries)
    (generated : entry.kind.isSlice = false ∧ entry.kind ≠ .frontIndex ∧ entry.kind ≠ .sealMarker) :
    ∃ zone ∈ generatedZones generators inputs plan tenants, entry = zoneEntry generators zone ∧
      (assembleLayout generators inputs plan tenants files now).sessionDir.lookup entry.position =
        some zone.2.2 := by
  rw [entries_laid_out countable assembled now, mem_laid_out countable.distinct] at member
  rcases member with ⟨zone, inZones, rfl⟩ | slice | rfl | rfl
  · refine ⟨zone, inZones, rfl, lookup_of_mem
      (session_dir_keys assembled.counted assembled.sliced countable.distinct files now) ?_⟩
    exact List.mem_append_left _ (List.mem_map_of_mem inZones)
  · obtain ⟨_, _, rfl⟩ := List.mem_map.mp slice
    cases generated.1
  · exact absurd rfl generated.2.1
  · exact absurd rfl generated.2.2

theorem tenant_frozen {entry : LayoutEntry}
    (member : entry ∈ (assembleLayout generators inputs plan tenants files now).layout.entries)
    {tenant : Int}
    (kind : entry.kind = .tenantEnvelope tenant ∨ entry.kind = .tenantEnvelopeBackup tenant) :
    entry = materialized generators entry.position entry.kind
        (generators.tenantEnvelope inputs tenant) ∧
      (assembleLayout generators inputs plan tenants files now).sessionDir.lookup entry.position =
        some (generators.tenantEnvelope inputs tenant) := by
  obtain ⟨zone, inZones, rfl, frozen⟩ := frozen_zone countable assembled now member (by
    rcases kind with kind | kind <;> rw [kind] <;> exact ⟨rfl, nofun, nofun⟩)
  rw [← (zone_bytes inZones).1 tenant kind]
  exact ⟨rfl, frozen⟩

theorem operator_frozen {entry : LayoutEntry}
    (member : entry ∈ (assembleLayout generators inputs plan tenants files now).layout.entries)
    (kind : entry.kind = .operatorEnvelope ∨ entry.kind = .operatorEnvelopeBackup) :
    entry = materialized generators entry.position entry.kind
        (generators.operatorEnvelope inputs) ∧
      (assembleLayout generators inputs plan tenants files now).sessionDir.lookup entry.position =
        some (generators.operatorEnvelope inputs) := by
  obtain ⟨zone, inZones, rfl, frozen⟩ := frozen_zone countable assembled now member (by
    rcases kind with kind | kind <;> rw [kind] <;> exact ⟨rfl, nofun, nofun⟩)
  rw [← (zone_bytes inZones).2 kind]
  exact ⟨rfl, frozen⟩

omit countable in
theorem assembled_length :
    ((assembleLayout generators inputs plan tenants files now).layout.entries.length : Int) =
      plan.totalFiles := by
  have length := (built_of_assembled assembled now).wellFormed.length
  obtain ⟨start, seals, total⟩ := plan.bounds
  omega

omit countable in
theorem placeholder_text : sealPlaceholder generators inputs plan files now =
    encodeUtf8 (placeholderInputs generators inputs now
      (assembleLayout generators inputs plan tenants files now).layout).text := by
  have build := built_of_assembled assembled now
  have same : files = (assembleLayout generators inputs plan tenants files
    now).layout.entries.map listed := assembled.files_eq _ _ rfl
  have copied : sealFiles files (frontIndexBytes inputs files).length
      (generators.sha256Hex (frontIndexBytes inputs files)) =
        (assembleLayout generators inputs plan tenants files now).layout.entries.map sealListed := by
    have own := seal_files_eq build.wellFormed build.frontIndex
    rw [← same] at own
    exact own
  simp only [sealPlaceholder, SealInputs.text_full, copied, placeholderInputs, Session.sealInputs,
    assembled_length assembled now, ← same]
  rfl

theorem placeholder_frozen :
    (assembleLayout generators inputs plan tenants files now).sessionDir.lookup
        (((assembleLayout generators inputs plan tenants files now).layout.entries.length : Int) - 1) =
      some (encodeUtf8 (placeholderInputs generators inputs now
        (assembleLayout generators inputs plan tenants files now).layout).text) := by
  have keys := @session_dir_keys generators inputs plan tenants assembled.counted assembled.sliced
    countable.distinct files now
  have placed : (plan.sealMarker, sealPlaceholder generators inputs plan files now) ∈
      (assembleLayout generators inputs plan tenants files now).sessionDir := by
    simp [assembleLayout]
  rw [assembled_length assembled now, ← placeholder_text assembled now]
  exact lookup_of_mem keys placed

theorem states_places {unit : BuildUnit} (member : unit ∈ inputs.units)
    (details : BuildUnit → UnitDetails) :
    List.Forall₂ (StatesPlace inputs (assembleLayout generators inputs plan tenants files now).layout
      unit) unit.manifested
      (toManifestUnit details (slicePosition plan.dataStart (allSlices inputs)) unit).slices := by
  rw [toManifestUnit, List.forall₂_map_right_iff, List.forall₂_same]
  intro slice listed
  refine ⟨rfl, fun position => ?_, ?_⟩
  · rw [entries_laid_out countable assembled now]
    constructor
    · intro stated
      obtain ⟨entry, inSlices, kind, placed⟩ := slice_positions_some stated
      exact ⟨entry, (mem_laid_out countable.distinct).mpr (.inr (.inl inSlices)), kind, placed⟩
    · rintro ⟨entry, inEntries, kind, rfl⟩
      rcases (mem_laid_out countable.distinct).mp inEntries with
        ⟨zone, inZones, rfl⟩ | inSlices | rfl | rfl
      · have other := (mem_generated_zones assembled.counted inZones).2.2.2.1
        rw [show zone.2.1 = .slice slice.sliceId from kind] at other
        cases other
      · exact slice_entry_place countable.distinct inSlices kind
      · cases kind
      · cases kind
  · rw [manifestSlice, slice_positions_none]
    refine ⟨fun absent => ⟨?_, absent⟩, And.right⟩
    -- a unit without a span lists only slices it plans
    by_contra whole
    rw [BuildUnit.manifested, Option.not_isSome_iff_eq_none.mp whole] at listed
    obtain ⟨planned, inUnit, rfl⟩ := List.mem_map.mp listed
    exact absent planned (List.mem_flatMap.mpr ⟨unit, member, inUnit⟩) rfl

end Assembled

theorem parse_listed {crate : Toml.Crate} (reads : crate.ReadsPlain) {layout : Layout}
    (allowed : Naming.AllowedName layout.label) (nonempty : layout.entries ≠ [])
    (writable : ∀ entry ∈ layout.entries, Writable (sealListed entry)) :
    parseFrontIndex crate (fromUtf8Lossy
      (stored (generateFrontIndex layout.label (layout.entries.map listed)) 0)) =
        .ok (layoutClaims layout) := by
  have lines : ∀ file ∈ layout.entries.map listed, Writable file := by
    intro file member
    obtain ⟨entry, own, rfl⟩ := List.mem_map.mp member
    exact listed_writable (writable entry own)
  rw [parse_generated_front_index reads allowed (mt List.map_eq_nil_iff.mp nonempty) lines 0,
    List.map_map]
  rfl

theorem well_built_of_assembled {packing : Packing} {files : List FrontIndexFile}
    (countable : Countable inputs)
    (assembled : Assembled packing.generators inputs (positionsOf inputs) tenants files)
    (nodup : tenants.Nodup)
    (known : ∀ tenant, tenant ∈ tenants ↔ ∃ unit ∈ inputs.units, unit.tenantId = tenant)
    (now : String) :
    WellBuilt packing inputs now
      (assembleLayout packing.generators inputs (positionsOf inputs) tenants files now) := by
  have entries := entries_laid_out countable assembled now
  have build := built_of_assembled assembled now
  have wellFormed := build.wellFormed
  have length := wellFormed.length
  obtain ⟨start, seals, total⟩ := (positionsOf inputs).bounds
  have some_slice : 0 < (positionsOf inputs).slices := List.length_pos_iff.mpr countable.some_slice
  have counted := countable.counted
  have order := wellFormed.order
  have tenantFrozen := @tenant_frozen packing.generators inputs (positionsOf inputs) tenants files
    countable assembled now
  have operatorFrozen := @operator_frozen packing.generators inputs (positionsOf inputs) tenants files
    countable assembled now
  have rules : (placeholderInputs packing.generators inputs now _).KeepsRules _ :=
    @Session.seal_inputs_keep_rules _ _ _ wellFormed .full (by omega)
      (by simp only [Session.Ending.lastFile]; omega)
      (by simp only [Session.Ending.lastFile]; omega) _ _ _ (Session.tape_requires_cases _)
  have frozenSeal := placeholder_frozen countable assembled now
  refine ⟨?_, ⟨tenants, nodup, known, ?_⟩, ?_, ?_, build.frozenIndex,
    layout_claims_consistent wellFormed (by omega), layout_claims_agree wellFormed,
    frozenSeal, rules.parse_rules, ?_, ?_, ?_, ?_⟩
  · rw [length]
    exact wellFormed.positions
  · rw [entries]
    exact laid_out_kinds _ _
  · intro primary primaryIn backup backupIn tenant primaryKind backupKind
    rw [(tenantFrozen primaryIn (.inl primaryKind)).1, (tenantFrozen backupIn (.inr backupKind)).1]
    exact ⟨rfl, rfl⟩
  · intro primary primaryIn backup backupIn primaryKind backupKind
    rw [(operatorFrozen primaryIn (.inl primaryKind)).1, (operatorFrozen backupIn (.inr backupKind)).1]
    exact ⟨rfl, rfl⟩
  · intro crate reads writable
    have unpadded : ∀ text, encodeUtf8 text = stored text 0 := fun text => (List.append_nil _).symm
    have index := parse_listed reads writable.label (List.length_pos_iff.mp (by omega))
      fun entry member => writable.files _ (List.mem_map_of_mem member)
    have marker := SealInputs.Sound.parse ⟨rules, writable⟩ reads 0
    rw [build.label, ← unpadded] at index
    rw [← unpadded] at marker
    rw [build.frozenIndex, frozenSeal]
    exact ⟨congrArg some index, congrArg some marker⟩
  · exact fun entry member tenant kind => (tenantFrozen member kind).2
  · exact fun entry member kind => (operatorFrozen member kind).2
  · exact fun unit member => states_places countable assembled now member packing.details

theorem positions_of_tenants (packing : Packing) (volumeUuid : Bytes) :
    (⟨(permutedTenants packing.generators.sha256Hex volumeUuid inputs.units).length,
      (allSlices inputs).length⟩ : Positions) = positionsOf inputs := by
  rw [positionsOf, (permuted_tenants_perm _ _ _).length_eq]

theorem build_succeeds (packing : Packing) {now nowAgain : String} {volumeUuid : Bytes}
    (spans : checkSpans inputs.units = .ok ()) (countable : Countable inputs)
    (parsed : packing.parseUuid inputs.volumeUuid = .ok volumeUuid)
    (known : checkTenants inputs (permutedTenants packing.sha256Hex volumeUuid inputs.units) = .ok ())
    (sized : ∀ files, (sealPlaceholder packing.generators inputs (positionsOf inputs) files now).length =
      (sealPlaceholder packing.generators inputs (positionsOf inputs) files nowAgain).length) :
    ∃ built, buildWithPlanBound packing.generators inputs now nowAgain = .ok built := by
  obtain ⟨files, lines⟩ := @front_index_files_ok packing.generators inputs (positionsOf inputs)
    (permutedTenants packing.sha256Hex volumeUuid inputs.units)
    (permuted_tenants_perm _ _ _).length_eq.symm rfl countable.distinct
  have plan := @positions_of_tenants inputs packing volumeUuid
  have uuid : packing.generators.parseUuid inputs.volumeUuid = .ok volumeUuid := parsed
  have tenants : checkTenants inputs (permutedTenants packing.generators.sha256Hex volumeUuid
    inputs.units) = .ok () := known
  have index : frontIndexFiles (positionsOf inputs) (contentEntries packing.generators inputs
    (positionsOf inputs) (permutedTenants packing.generators.sha256Hex volumeUuid inputs.units)) =
      .ok files := lines
  simp only [buildWithPlanBound, spans, uuid, plan, tenants, index, sized files, ne_eq,
    not_true_eq_false, if_false]
  exact ⟨_, rfl⟩

end WellBuilt

/-- Every built Layout is well formed; and with the units' spans checked, a uuid that parses, a known
tenant for each unit and a placeholder of one size, the build succeeds. -/
theorem built_layout_well_built (packing : Packing) (inputs : BuildInputs) (now nowAgain : String)
    (spans : checkSpans inputs.units = .ok ()) (countable : Countable inputs) :
    (∀ built, buildWithPlanBound packing.generators inputs now nowAgain = .ok built →
      WellBuilt packing inputs now built) ∧
    ∀ volumeUuid, packing.parseUuid inputs.volumeUuid = .ok volumeUuid →
      checkTenants inputs (permutedTenants packing.sha256Hex volumeUuid inputs.units) = .ok () →
      (∀ files, (sealPlaceholder packing.generators inputs (positionsOf inputs) files now).length =
        (sealPlaceholder packing.generators inputs (positionsOf inputs) files nowAgain).length) →
      ∃ built, buildWithPlanBound packing.generators inputs now nowAgain = .ok built := by
  refine ⟨fun built ok => ?_, fun _ => build_succeeds packing spans countable⟩
  obtain ⟨volumeUuid, files, assembled, rfl⟩ := build_with_plan_bound_ok ok
  rw [positions_of_tenants] at assembled ⊢
  exact well_built_of_assembled countable assembled (permuted_tenants_nodup _ _ _)
    (fun _ => mem_permuted_tenants) now

/-- Every file is empty, and an envelope has one byte for each unit of its manifest. -/
def plainPacking : Packing where
  sha256Hex := fun _ => "1"
  parseUuid := fun _ => .ok []
  systemGuide := fun _ _ _ => []
  restoreScript := fun _ _ => []
  details := fun _ => ⟨"unit-1", 1, none, none⟩
  tenantEnvelope := fun _ _ units => units.map fun _ => 7
  operatorEnvelope := fun _ units => units.map fun _ => 7

/-- A whole unit of one tenant, and of another's span the second of three slices. -/
def wholeAndSpan : BuildInputs := { twoSlices [7] with
  units := [⟨1, "whole", 1, [⟨1, 1, 1, 1, "1", "1"⟩], none⟩,
    ⟨2, "span", 2, [⟨3, 2, 1, 1, "1", "1"⟩],
      some [⟨2, 1, 1, 1, "1", "1"⟩, ⟨3, 2, 1, 1, "1", "1"⟩, ⟨4, 3, 1, 1, "1", "1"⟩]⟩]
  tenants := [1, 2] }

theorem built_layout_well_built_span :
    ∃ built, buildWithPlanBound plainPacking.generators wholeAndSpan "T" "T" = .ok built ∧
      WellBuilt plainPacking wholeAndSpan "T" built := by
  have countable : Countable wholeAndSpan := ⟨by decide, by decide, by decide⟩
  obtain ⟨well, builds⟩ := built_layout_well_built plainPacking wholeAndSpan "T" "T" rfl countable
  obtain ⟨built, ok⟩ := builds [] rfl rfl fun _ => rfl
  exact ⟨built, ok, well built ok⟩

end Tapectl.Volume.Build
