import Tapectl.Library.Effects
import Tapectl.Volume.RoundTrip

/-!
# Building a Layout

`volume/build.rs`, `build_with_plan_bound`: from the units to write to the Layout of every file the
volume will hold, with the generated zones frozen in the session directory. Positions are counted
first; the front index is generated from the other files' entries, and the seal placeholder last.
What the envelopes and the two guides contain is a parameter, and so are sha256 and the UUID
parser; the session directory is the list of what was written at each position. Capacity (the
`budget` field) is not part of this model.
-/

namespace Tapectl.Volume.Build

open StoredText Tapectl.Volume.Generate

structure BuildSlice where
  sliceId : Int
  sliceNumber : Int
  sizeBytes : Int
  encryptedBytes : Int
  sha256Plain : String
  sha256Encrypted : String
  deriving DecidableEq, Repr

structure SpanSlice where
  sliceId : Int
  sliceNumber : Int
  sizeBytes : Int
  encryptedBytes : Int
  sha256Plain : String
  sha256Encrypted : String
  deriving DecidableEq, Repr

def SpanSlice.of (slice : BuildSlice) : SpanSlice where
  sliceId := slice.sliceId
  sliceNumber := slice.sliceNumber
  sizeBytes := slice.sizeBytes
  encryptedBytes := slice.encryptedBytes
  sha256Plain := slice.sha256Plain
  sha256Encrypted := slice.sha256Encrypted

structure BuildUnit where
  stageSetId : Int
  unitName : String
  tenantId : Int
  slices : List BuildSlice
  span : Option (List SpanSlice)
  deriving DecidableEq, Repr

structure BuildInputs where
  label : String
  volumeUuid : String
  mediaType : String
  tapectlVersion : String
  createdAt : String
  blockSize : Nat
  nominalCapacity : Int
  mamCapacity : Int
  mamManufacturer : String
  mamSerial : String
  cartridgeIdentitySource : Option String
  mamLength : Int
  mamLoads : Int
  units : List BuildUnit
  tenants : List Int
  deriving DecidableEq, Repr

structure Generators where
  sha256Hex : Bytes → String
  parseUuid : String → Except String Bytes
  systemGuide : String → Int → String → Bytes
  restoreScript : String → Int → Bytes
  tenantEnvelope : BuildInputs → Int → Bytes
  operatorEnvelope : BuildInputs → Bytes

structure BuiltLayout where
  layout : Layout
  /-- The frozen file of each generated zone, by position. -/
  sessionDir : List (Int × Bytes)

def outOfOrder : List SpanSlice → Option (SpanSlice × SpanSlice)
  | first :: second :: rest =>
    if first.sliceNumber ≥ second.sliceNumber then some (first, second)
    else outOfOrder (second :: rest)
  | _ => none

def checkPlanned (span : List SpanSlice) : List BuildSlice → Except String Unit
  | [] => .ok ()
  | planned :: rest =>
    let number := planned.sliceNumber
    let id := planned.sliceId
    match span.find? fun slice => slice.sliceId == planned.sliceId with
    | none => .error s!"its span does not list slice {number} (id {id}), which this tape plans"
    | some listed =>
      if listed ≠ SpanSlice.of planned then
        .error (s!"its span states slice {number} (id {id}) differently from the slice this " ++
          "tape plans")
      else checkPlanned span rest

def checkSpan (unit : BuildUnit) : Except String Unit :=
  let name := unit.unitName
  let id := unit.stageSetId
  match unit.span with
  | none => .ok ()
  | some span =>
    match outOfOrder span with
    | some (first, second) =>
      let before := first.sliceNumber
      let after := second.sliceNumber
      .error (s!"build: unit {name} (stage set {id}): its span lists slice {before} before " ++
        s!"slice {after}, not in slice-number order")
    | none =>
      match checkPlanned span unit.slices with
      | .error why => .error s!"build: unit {name} (stage set {id}): {why}"
      | .ok () => .ok ()

def checkSpans : List BuildUnit → Except String Unit
  | [] => .ok ()
  | unit :: units =>
    match checkSpan unit with
    | .error message => .error message
    | .ok () => checkSpans units

/-- `to_le_bytes` of a `u64`. -/
def littleEndian64 (value : Nat) : Bytes :=
  (List.range 8).map fun index => UInt8.ofNat (value / 256 ^ index % 256)

def tenantPermutationKey (sha256Hex : Bytes → String) (volumeUuid : Bytes) (tenantId : Int) :
    String :=
  sha256Hex (volumeUuid ++ [0] ++ littleEndian64 (Format.asU64 tenantId))

def permutedTenants (sha256Hex : Bytes → String) (volumeUuid : Bytes) (units : List BuildUnit) :
    List Int :=
  let distinct := ((units.map BuildUnit.tenantId).insertionSort fun a b => a ≤ b).dedup
  distinct.insertionSort fun a b =>
    tenantPermutationKey sha256Hex volumeUuid a ≤ tenantPermutationKey sha256Hex volumeUuid b

/-- Where each zone lies, from the number of tenants and of slices. -/
structure Positions where
  tenants : Nat
  slices : Nat
  deriving DecidableEq, Repr

namespace Positions

variable (plan : Positions)

def frontIndex : Int := 3
def firstEnvelope : Int := 4
def operator : Int := firstEnvelope + plan.tenants
def operatorBackup : Int := plan.operator + 1
def firstTenantBackup : Int := plan.operatorBackup + 1
def dataStart : Int := plan.firstTenantBackup + plan.tenants
def totalFiles : Int := plan.dataStart + plan.slices + 1
def sealMarker : Int := plan.totalFiles - 1

end Positions

theorem Positions.bounds (plan : Positions) :
    3 < plan.dataStart ∧ plan.sealMarker = plan.dataStart + plan.slices ∧
      plan.totalFiles = plan.sealMarker + 1 := by
  simp only [Positions.sealMarker, Positions.totalFiles, Positions.dataStart,
    Positions.firstTenantBackup, Positions.operatorBackup, Positions.operator,
    Positions.firstEnvelope]
  omega

def allSlices (inputs : BuildInputs) : List BuildSlice := inputs.units.flatMap BuildUnit.slices

/-- `slice_positions`: a map filled in slice order, so that a repeated id keeps the last. -/
def slicePosition (dataStart : Int) (slices : List BuildSlice) (id : Int) : Option Int :=
  ((slices.zipIdx.map fun slice => (slice.1.sliceId, dataStart + slice.2)).reverse).lookup id

section Entries

variable (generators : Generators) (inputs : BuildInputs)

/-- The entry of a zone whose bytes were just written to the session directory. -/
def materialized (position : Int) (kind : ZoneKind) (bytes : Bytes) : LayoutEntry where
  position := position
  kind := kind
  sizeBytes := some bytes.length
  sha256 := some (generators.sha256Hex bytes)

def idThunkParams (totalFiles : Int) : IdThunkV2Params where
  label := inputs.label
  uuid := inputs.volumeUuid
  mediaType := inputs.mediaType
  tapectlVersion := inputs.tapectlVersion
  nominalCapacity := inputs.nominalCapacity
  mamCapacity := inputs.mamCapacity
  totalFiles := totalFiles
  mamManufacturer := inputs.mamManufacturer
  mamSerial := inputs.mamSerial
  mamLength := inputs.mamLength
  mamLoads := inputs.mamLoads
  createdAt := inputs.createdAt
  cartridgeIdentitySource := inputs.cartridgeIdentitySource

def requires : List String := tapeRequires (inputs.units.any fun unit => unit.span.isSome)

variable (plan : Positions)

/-- The generated zones other than the front index and the seal, in the order they are written. -/
def generatedZones (tenants : List Int) : List (Int × ZoneKind × Bytes) :=
  [(0, .idThunk, encodeUtf8 (generateIdThunkV2Requiring (idThunkParams inputs plan.totalFiles)
      (requires inputs))),
    (1, .systemGuide, generators.systemGuide inputs.label plan.totalFiles inputs.mediaType),
    (2, .restoreSh, generators.restoreScript inputs.label plan.totalFiles)] ++
  tenants.zipIdx.flatMap (fun tenant =>
    let envelope := generators.tenantEnvelope inputs tenant.1
    [(Positions.firstEnvelope + tenant.2, .tenantEnvelope tenant.1, envelope),
      (plan.firstTenantBackup + tenant.2, .tenantEnvelopeBackup tenant.1, envelope)]) ++
  [(plan.operator, .operatorEnvelope, generators.operatorEnvelope inputs),
    (plan.operatorBackup, .operatorEnvelopeBackup, generators.operatorEnvelope inputs)]

def zoneEntry (zone : Int × ZoneKind × Bytes) : LayoutEntry :=
  materialized generators zone.1 zone.2.1 zone.2.2

def sliceEntry (dataStart : Int) (slices : List BuildSlice) (slice : BuildSlice) : LayoutEntry where
  position := (slicePosition dataStart slices slice.sliceId).getD 0
  kind := .slice slice.sliceId
  sizeBytes := some (max slice.encryptedBytes 0).toNat
  sha256 := some slice.sha256Encrypted

def contentEntries (tenants : List Int) : List LayoutEntry :=
  (generatedZones generators inputs plan tenants).map (zoneEntry generators) ++
    (allSlices inputs).map (sliceEntry plan.dataStart (allSlices inputs))

/-- One line of the front index; the front index and the seal state neither size nor hash. -/
def frontIndexFile (entries : List LayoutEntry) (position : Int) : Except String FrontIndexFile :=
  if position = Positions.frontIndex then .ok ⟨position, "front_index", none, none⟩
  else if position = plan.sealMarker then .ok ⟨position, "seal_marker", none, none⟩
  else match entries.find? fun entry => entry.position == position with
    | none => .error s!"build: no entry assembled for position {position}"
    | some entry => .ok ⟨position, entry.kind.typeLabel, entry.sizeBytes, entry.sha256⟩

/-- The list `build` assembles for File 3, position by position. -/
def frontIndexFiles (entries : List LayoutEntry) : Except String (List FrontIndexFile) :=
  ((List.range plan.totalFiles.toNat).map Int.ofNat).mapM (frontIndexFile plan entries)

/-- The seal's copy of the list, with the front index's own size and hash filled in. -/
def sealFiles (files : List FrontIndexFile) (size : Nat) (hash : String) : List FrontIndexFile :=
  files.map fun file =>
    if file.position = Positions.frontIndex then
      { file with sizeBytes := some size, sha256Encrypted := some hash }
    else file

/-- The seal is sized now and hashed never: its real bytes come with its timestamp. -/
def sealEntry (size : Nat) : LayoutEntry where
  position := plan.sealMarker
  kind := .sealMarker
  sizeBytes := some size
  sha256 := none

def allEntries (content : List LayoutEntry) (frontIndex : Bytes)
    (sealSize : Nat) : List LayoutEntry :=
  content ++ [materialized generators Positions.frontIndex .frontIndex frontIndex,
    sealEntry plan sealSize]

def sortEntries (entries : List LayoutEntry) : List LayoutEntry :=
  entries.insertionSort fun a b => a.position ≤ b.position

def checkTenants : List Int → Except String Unit
  | [] => .ok ()
  | tenant :: rest =>
    if inputs.tenants.contains tenant then checkTenants rest
    else .error (s!"build: unit(s) reference tenant {tenant}, but BuildInputs.tenants has no " ++
      "entry for it")

def frontIndexBytes (files : List FrontIndexFile) : Bytes :=
  encodeUtf8 (generateFrontIndex inputs.label files)

/-- The seal as `build` generates it, to be replaced by one with its real timestamp. -/
def sealPlaceholder (files : List FrontIndexFile) (now : String) : Bytes :=
  let frontIndex := frontIndexBytes inputs files
  let hash := generators.sha256Hex frontIndex
  encodeUtf8 (generateSealMarkerRequiring inputs.label plan.totalFiles hash
    (sealFiles files frontIndex.length hash) (requires inputs) now)

def assembleLayout (tenants : List Int) (files : List FrontIndexFile)
    (now : String) : BuiltLayout where
  layout :=
    { label := inputs.label
      volumeUuid := inputs.volumeUuid
      blockSize := inputs.blockSize
      entries := sortEntries (allEntries generators plan
        (contentEntries generators inputs plan tenants) (frontIndexBytes inputs files)
        (sealPlaceholder generators inputs plan files now).length) }
  sessionDir :=
    (generatedZones generators inputs plan tenants).map (fun zone => (zone.1, zone.2.2)) ++
      [(Positions.frontIndex, frontIndexBytes inputs files),
        (plan.sealMarker, sealPlaceholder generators inputs plan files now)]

/-- `now` and `nowAgain` are the clock at the two calls that size the seal placeholder. -/
def buildWithPlanBound (now nowAgain : String) : Except String BuiltLayout :=
  match checkSpans inputs.units with
  | .error message => .error message
  | .ok () =>
  match generators.parseUuid inputs.volumeUuid with
  | .error message =>
    let uuid := Format.debugString inputs.volumeUuid
    .error s!"build: volume_uuid {uuid} is not a valid UUID: {message}"
  | .ok volumeUuid =>
    let tenants := permutedTenants generators.sha256Hex volumeUuid inputs.units
    let plan : Positions := ⟨tenants.length, (allSlices inputs).length⟩
    match checkTenants inputs tenants with
    | .error message => .error message
    | .ok () =>
    match frontIndexFiles plan (contentEntries generators inputs plan tenants) with
    | .error message => .error message
    | .ok files =>
      let sized := (sealPlaceholder generators inputs plan files now).length
      let sizedAgain := (sealPlaceholder generators inputs plan files nowAgain).length
      if sized ≠ sizedAgain then
        .error ("build: seal marker placeholder sizing broke — two generate_seal_marker calls " ++
          s!"produced different byte lengths ({sized} vs {sizedAgain}). The seal timestamp " ++
          "must render at fixed width (SecondsFormat::Secs); a later reseal would fail its " ++
          "length-identity check. See generate_seal_marker in layout.rs.")
      else .ok (assembleLayout generators inputs plan tenants files now)

end Entries

/-! ## The built Layout

What the rest of the program relies on, whatever the inputs were. -/

def listed (entry : LayoutEntry) : FrontIndexFile where
  position := entry.position
  typeLabel := entry.kind.typeLabel
  sizeBytes := if entry.kind = .frontIndex ∨ entry.kind = .sealMarker then none
    else entry.sizeBytes
  sha256Encrypted := if entry.kind = .frontIndex ∨ entry.kind = .sealMarker then none
    else entry.sha256

/-- A Layout of files `0..last`: the front index at 3, the slices in one run up to the seal, and
every other file sized and hashed. -/
structure WellFormed (layout : Layout) (last dataStart : Nat) : Prop where
  positions : layout.entries.map (·.position) = (List.range (last + 1)).map Int.ofNat
  frontIndex : ∀ entry ∈ layout.entries, entry.kind = .frontIndex ↔ entry.position = 3
  sealMarker : ∀ entry ∈ layout.entries, entry.kind = .sealMarker ↔ entry.position = last
  slices : ∀ entry ∈ layout.entries,
    entry.kind.isSlice = true ↔ (dataStart : Int) ≤ entry.position ∧ entry.position < last
  order : 3 < dataStart ∧ dataStart ≤ last
  complete : ∀ entry ∈ layout.entries, entry.kind ≠ .sealMarker →
    entry.sizeBytes.isSome = true ∧ entry.sha256.isSome = true

namespace WellFormed

variable {layout : Layout} {last dataStart : Nat} (wellFormed : WellFormed layout last dataStart)

include wellFormed

theorem length : layout.entries.length = last + 1 := by
  have sizes := congrArg List.length wellFormed.positions
  simpa using sizes

theorem position_eq {index : Nat} {entry : LayoutEntry}
    (found : layout.entries[index]? = some entry) : entry.position = index := by
  have bound : index < last + 1 := by
    rw [← wellFormed.length]
    exact (List.getElem?_eq_some_iff.mp found).1
  have mapped : (layout.entries.map (·.position))[index]? = some entry.position := by
    simp [found]
  rw [wellFormed.positions, List.getElem?_map, List.getElem?_range bound] at mapped
  exact (Option.some.inj mapped).symm

theorem mem_index {entry : LayoutEntry} (member : entry ∈ layout.entries) :
    ∃ index : Nat, index ≤ last ∧ entry.position = index ∧
      layout.entries[index]? = some entry := by
  obtain ⟨index, found⟩ := List.mem_iff_getElem?.mp member
  have bound := (List.getElem?_eq_some_iff.mp found).1
  rw [wellFormed.length] at bound
  exact ⟨index, by omega, wellFormed.position_eq found, found⟩

theorem unique {left right : LayoutEntry} (leftMember : left ∈ layout.entries)
    (rightMember : right ∈ layout.entries) (same : left.position = right.position) :
    left = right := by
  have distinct : (layout.entries.map (·.position)).Nodup := by
    rw [wellFormed.positions]
    exact List.nodup_range.map fun _ _ equal => Int.ofNat.inj equal
  exact List.inj_on_of_nodup_map distinct leftMember rightMember same

theorem filter_kind (selects : ZoneKind → Bool) {position : Nat} (inside : position ≤ last)
    (placed : ∀ entry ∈ layout.entries, selects entry.kind = true ↔ entry.position = position) :
    ∃ entry, layout.entries.filter (fun entry => selects entry.kind) = [entry] ∧
      entry.position = position := by
  have bound : position < layout.entries.length := by
    rw [wellFormed.length]
    omega
  obtain ⟨entry, found⟩ : ∃ entry, layout.entries[position]? = some entry :=
    ⟨_, List.getElem?_eq_getElem bound⟩
  have member := List.mem_of_getElem? found
  have atPosition := wellFormed.position_eq found
  have same : layout.entries.filter (fun other => selects other.kind) =
      layout.entries.filter (fun other => other == entry) := by
    apply List.filter_congr
    intro other otherMember
    rw [Bool.eq_iff_iff, beq_iff_eq, placed other otherMember]
    constructor
    · intro there
      exact wellFormed.unique otherMember member (by omega)
    · rintro rfl
      exact atPosition
  have distinct : layout.entries.Nodup := by
    apply List.Nodup.of_map (·.position)
    rw [wellFormed.positions]
    exact List.nodup_range.map fun _ _ equal => Int.ofNat.inj equal
  refine ⟨entry, ?_, atPosition⟩
  rw [same, List.filter_beq, List.count_eq_one_of_mem distinct member]
  rfl

end WellFormed

section Assembly

variable {generators : Generators} {inputs : BuildInputs} {plan : Positions} {tenants : List Int}

theorem mem_generated_zones (counted : plan.tenants = tenants.length)
    {zone : Int × ZoneKind × Bytes} (member : zone ∈ generatedZones generators inputs plan tenants) :
    0 ≤ zone.1 ∧ zone.1 < plan.dataStart ∧ zone.1 ≠ 3 ∧ zone.2.1.isSlice = false ∧
      zone.2.1 ≠ .frontIndex ∧ zone.2.1 ≠ .sealMarker := by
  simp only [generatedZones, List.mem_append, List.mem_cons, List.not_mem_nil, or_false,
    List.mem_flatMap] at member
  simp only [Positions.dataStart, Positions.firstTenantBackup, Positions.operatorBackup,
    Positions.operator, Positions.firstEnvelope, counted]
  rcases member with ((rfl | rfl | rfl) | ⟨⟨tenant, index⟩, tenantMember, rfl | rfl⟩) | rfl | rfl
  · exact ⟨by omega, by omega, by omega, rfl, by simp, by simp⟩
  · exact ⟨by omega, by omega, by omega, rfl, by simp, by simp⟩
  · exact ⟨by omega, by omega, by omega, rfl, by simp, by simp⟩
  · have bound := (List.mem_zipIdx tenantMember).2.1
    refine ⟨?_, ?_, ?_, rfl, by simp, by simp⟩ <;> simp only [Positions.firstEnvelope] <;> omega
  · have bound := (List.mem_zipIdx tenantMember).2.1
    refine ⟨?_, ?_, ?_, rfl, by simp, by simp⟩ <;>
      simp only [Positions.firstTenantBackup, Positions.operatorBackup, Positions.operator,
        Positions.firstEnvelope] <;> omega
  · refine ⟨?_, ?_, ?_, rfl, by simp, by simp⟩ <;>
      simp only [Positions.operator, Positions.firstEnvelope] <;> omega
  · refine ⟨?_, ?_, ?_, rfl, by simp, by simp⟩ <;>
      simp only [Positions.operatorBackup, Positions.operator, Positions.firstEnvelope] <;> omega

theorem slice_position_range (dataStart : Int) {slices : List BuildSlice} {slice : BuildSlice}
    (member : slice ∈ slices) :
    ∃ index : Nat, index < slices.length ∧
      slicePosition dataStart slices slice.sliceId = some (dataStart + index) := by
  obtain ⟨index, bound, found⟩ := List.mem_iff_getElem.mp member
  let filled := (slices.zipIdx.map fun slice => (slice.1.sliceId, dataStart + (slice.2 : Int))).reverse
  have listed : (slice.sliceId, dataStart + (index : Int)) ∈ filled := by
    rw [List.mem_reverse, List.mem_map]
    refine ⟨(slice, index), ?_, rfl⟩
    rw [List.mem_zipIdx_iff_getElem?]
    exact List.getElem?_eq_some_iff.mpr ⟨bound, found⟩
  cases hit : filled.lookup slice.sliceId with
  | none =>
    rw [List.lookup_eq_none_iff] at hit
    simpa using hit _ listed
  | some position =>
    obtain ⟨before, after, split, _⟩ := List.lookup_eq_some_iff.mp hit
    have inside : (slice.sliceId, position) ∈ filled := by simp [split]
    rw [List.mem_reverse, List.mem_map] at inside
    obtain ⟨⟨other, place⟩, placed, same⟩ := inside
    obtain ⟨_, placeBound, _⟩ := List.mem_zipIdx placed
    refine ⟨place, by simpa using placeBound, ?_⟩
    rw [slicePosition, hit, ← (Prod.mk.inj same).2]

theorem length_generated_zones (generators : Generators) (inputs : BuildInputs) (plan : Positions)
    (tenants : List Int) :
    (generatedZones generators inputs plan tenants).length = 2 * tenants.length + 5 := by
  have pairs : ∀ (listed : List (Int × Nat)) (two : Int × Nat → List (Int × ZoneKind × Bytes)),
      (∀ tenant, (two tenant).length = 2) → (listed.flatMap two).length = 2 * listed.length := by
    intro listed two sized
    induction listed with
    | nil => rfl
    | cons tenant listed ih =>
      rw [List.flatMap_cons, List.length_append, sized, ih, List.length_cons]
      omega
  simp only [generatedZones, List.length_append, List.length_cons, List.length_nil]
  rw [pairs _ _ fun tenant => rfl, List.length_zipIdx]
  omega

theorem mem_content_entries (counted : plan.tenants = tenants.length)
    (sliced : plan.slices = (allSlices inputs).length) {entry : LayoutEntry}
    (member : entry ∈ contentEntries generators inputs plan tenants) :
    0 ≤ entry.position ∧ entry.position < plan.sealMarker ∧ entry.position ≠ 3 ∧
      (entry.kind.isSlice = true ↔ plan.dataStart ≤ entry.position) ∧
      entry.kind ≠ .frontIndex ∧ entry.kind ≠ .sealMarker ∧
      entry.sizeBytes.isSome = true ∧ entry.sha256.isSome = true := by
  obtain ⟨start, seals, _⟩ := plan.bounds
  rcases List.mem_append.mp member with zoneMember | sliceMember
  · obtain ⟨zone, inZones, rfl⟩ := List.mem_map.mp zoneMember
    obtain ⟨low, high, other, notSlice, notIndex, notSeal⟩ := mem_generated_zones counted inZones
    refine ⟨low, ?_, other, ?_, notIndex, notSeal, rfl, rfl⟩
    · simp only [zoneEntry, materialized]
      omega
    · simp only [zoneEntry, materialized, notSlice, Bool.false_eq_true, false_iff]
      omega
  · obtain ⟨slice, inSlices, rfl⟩ := List.mem_map.mp sliceMember
    obtain ⟨index, bound, placed⟩ :=
      slice_position_range plan.dataStart inSlices
    have position : (sliceEntry plan.dataStart (allSlices inputs) slice).position =
        plan.dataStart + index := by
      simp [sliceEntry, placed]
    rw [position]
    refine ⟨by omega, by omega, by omega, ?_, by simp [sliceEntry], by simp [sliceEntry], rfl, rfl⟩
    simp only [sliceEntry, ZoneKind.isSlice, true_iff]
    omega

theorem mem_all_entries {content : List LayoutEntry} {frontIndex : Bytes} {size : Nat}
    {entry : LayoutEntry} :
    entry ∈ allEntries generators plan content frontIndex size ↔
      entry ∈ content ∨ entry = materialized generators Positions.frontIndex .frontIndex frontIndex ∨
        entry = sealEntry plan size := by
  simp [allEntries]

theorem length_content_entries (generators : Generators) (counted : plan.tenants = tenants.length)
    (sliced : plan.slices = (allSlices inputs).length) :
    ((contentEntries generators inputs plan tenants).length : Int) + 2 = plan.totalFiles := by
  simp only [contentEntries, List.length_append, List.length_map, length_generated_zones]
  simp only [Positions.totalFiles, Positions.dataStart, Positions.firstTenantBackup,
    Positions.operatorBackup, Positions.operator, Positions.firstEnvelope, counted, sliced]
  omega

theorem forall_left {Item Result : Type} {related : Item → Result → Prop} {items : List Item}
    {results : List Result} (all : List.Forall₂ related items results) {item : Item}
    (member : item ∈ items) : ∃ result, related item result := by
  induction all with
  | nil => cases member
  | cons first _ ih =>
    rcases List.mem_cons.mp member with rfl | later
    · exact ⟨_, first⟩
    · exact ih later

theorem forall_eq_map {Item Result : Type} {related : Item → Result → Prop} {items : List Item}
    {results : List Result} (all : List.Forall₂ related items results) {f : Item → Result}
    (only : ∀ item ∈ items, ∀ result, related item result → result = f item) :
    results = items.map f := by
  induction all with
  | nil => rfl
  | cons first _ ih =>
    rw [List.map_cons, only _ (by simp) _ first,
      ih fun item member => only item (by simp [member])]

instance position_total : Std.Total fun a b : LayoutEntry => a.position ≤ b.position :=
  ⟨fun a b => Int.le_total a.position b.position⟩

instance position_trans : IsTrans LayoutEntry fun a b => a.position ≤ b.position :=
  ⟨fun _ _ _ => Int.le_trans⟩

/-- As many entries as positions, and one at every position: sorted, they are the positions. -/
theorem sorted_positions {entries : List LayoutEntry} {count : Nat} (sized : entries.length = count)
    (covers : ∀ position < count, ∃ entry ∈ entries, entry.position = (position : Nat)) :
    (sortEntries entries).map (·.position) = (List.range count).map Int.ofNat := by
  have distinct : ((List.range count).map Int.ofNat).Nodup :=
    List.nodup_range.map fun _ _ same => Int.ofNat.inj same
  have inside : (List.range count).map Int.ofNat ⊆ entries.map (·.position) := by
    intro position member
    obtain ⟨index, bound, rfl⟩ := List.mem_map.mp member
    obtain ⟨entry, entryMember, placed⟩ := covers index (List.mem_range.mp bound)
    exact List.mem_map.mpr ⟨entry, entryMember, placed⟩
  have all : ((List.range count).map Int.ofNat).Perm (entries.map (·.position)) :=
    (List.subperm_of_subset distinct inside).perm_of_length_le (by simp [sized])
  have sorted : ((sortEntries entries).map (·.position)).Pairwise (· ≤ ·) := by
    have ordered := List.pairwise_insertionSort (fun a b : LayoutEntry => a.position ≤ b.position)
      entries
    exact List.Pairwise.map _ (fun a b less => less) ordered
  have ascending : ((List.range count).map Int.ofNat).Pairwise (· ≤ ·) :=
    List.Pairwise.map _ (fun a b less => Int.ofNat_le.mpr (Nat.le_of_lt less))
      List.pairwise_lt_range
  exact List.Perm.eq_of_pairwise (fun a b _ _ => Int.le_antisymm) sorted ascending
    (((List.perm_insertionSort _ _).map _).trans all.symm)

/-- The entries a build sorts, and the lines of the front index it generated from them. -/
structure Assembled (generators : Generators) (inputs : BuildInputs) (plan : Positions)
    (tenants : List Int) (files : List FrontIndexFile) : Prop where
  counted : plan.tenants = tenants.length
  sliced : plan.slices = (allSlices inputs).length
  lines : frontIndexFiles plan (contentEntries generators inputs plan tenants) = .ok files

namespace Assembled

variable {files : List FrontIndexFile} (assembled : Assembled generators inputs plan tenants files)

include assembled

theorem lines_forall :
    List.Forall₂ (fun position file => frontIndexFile plan
        (contentEntries generators inputs plan tenants) position = .ok file)
      ((List.range plan.totalFiles.toNat).map Int.ofNat) files := Effects.map_m_ok assembled.lines

theorem positions (frontIndex : Bytes) (size : Nat) :
    (sortEntries (allEntries generators plan (contentEntries generators inputs plan tenants)
      frontIndex size)).map (·.position) =
      (List.range plan.totalFiles.toNat).map Int.ofNat := by
  have count := length_content_entries generators assembled.counted assembled.sliced
  apply sorted_positions
  · rw [allEntries, List.length_append]
    simp only [List.length_cons, List.length_nil]
    omega
  · intro position bound
    have member : (position : Int) ∈ (List.range plan.totalFiles.toNat).map Int.ofNat :=
      List.mem_map.mpr ⟨position, List.mem_range.mpr bound, rfl⟩
    obtain ⟨file, line⟩ := forall_left assembled.lines_forall member
    simp only [mem_all_entries]
    unfold frontIndexFile at line
    split at line
    · next index => exact ⟨_, Or.inr (Or.inl rfl), index.symm⟩
    split at line
    · next last => exact ⟨_, Or.inr (Or.inr rfl), last.symm⟩
    split at line
    · cases line
    · next entry found =>
        exact ⟨entry, Or.inl (List.mem_of_find?_eq_some found), by simpa using List.find?_some found⟩

theorem well_formed {layout : Layout} (frontIndex : Bytes) (size : Nat)
    (entries : layout.entries = sortEntries (allEntries generators plan
      (contentEntries generators inputs plan tenants) frontIndex size)) :
    WellFormed layout plan.sealMarker.toNat plan.dataStart.toNat := by
  obtain ⟨start, seals, total⟩ := plan.bounds
  have sealNat : (plan.sealMarker.toNat : Int) = plan.sealMarker := by omega
  have startNat : (plan.dataStart.toNat : Int) = plan.dataStart := by omega
  have cases : ∀ entry ∈ layout.entries,
      entry ∈ contentEntries generators inputs plan tenants ∨
        entry = materialized generators Positions.frontIndex .frontIndex frontIndex ∨
        entry = sealEntry plan size := by
    intro entry member
    rw [entries] at member
    exact mem_all_entries.mp ((List.perm_insertionSort _ _).mem_iff.mp member)
  refine ⟨?_, ?_, ?_, ?_, ⟨by omega, by omega⟩, ?_⟩
  · have count : plan.sealMarker.toNat + 1 = plan.totalFiles.toNat := by omega
    rw [entries, count]
    exact assembled.positions frontIndex size
  · intro entry member
    rcases cases entry member with content | rfl | rfl
    · obtain ⟨_, _, other, _, notIndex, _⟩ :=
        mem_content_entries assembled.counted assembled.sliced content
      simp [notIndex, other]
    · simp [materialized, Positions.frontIndex]
    · simp only [sealEntry, reduceCtorEq, false_iff]
      omega
  · intro entry member
    rw [sealNat]
    rcases cases entry member with content | rfl | rfl
    · obtain ⟨_, below, _, _, _, notSeal, _⟩ :=
        mem_content_entries assembled.counted assembled.sliced content
      simp only [notSeal, false_iff]
      omega
    · simp only [materialized, reduceCtorEq, false_iff, Positions.frontIndex]
      omega
    · simp [sealEntry]
  · intro entry member
    rw [sealNat, startNat]
    rcases cases entry member with content | rfl | rfl
    · obtain ⟨_, below, _, sliced, _⟩ :=
        mem_content_entries assembled.counted assembled.sliced content
      rw [sliced]
      omega
    · simp only [materialized, ZoneKind.isSlice, Bool.false_eq_true, false_iff,
        Positions.frontIndex]
      omega
    · simp only [sealEntry, ZoneKind.isSlice, Bool.false_eq_true, false_iff]
      omega
  · intro entry member notSeal
    rcases cases entry member with content | rfl | rfl
    · obtain ⟨_, _, _, _, _, _, sized, hashed⟩ :=
        mem_content_entries assembled.counted assembled.sliced content
      exact ⟨sized, hashed⟩
    · exact ⟨rfl, rfl⟩
    · exact absurd rfl notSeal

theorem files_eq {layout : Layout} (frontIndex : Bytes) (size : Nat)
    (entries : layout.entries = sortEntries (allEntries generators plan
      (contentEntries generators inputs plan tenants) frontIndex size)) :
    files = layout.entries.map listed := by
  have wellFormed := assembled.well_formed frontIndex size entries
  obtain ⟨start, seals, _⟩ := plan.bounds
  have positions := assembled.positions frontIndex size
  rw [← entries] at positions
  have lines := assembled.lines_forall
  rw [← positions, List.forall₂_map_left_iff] at lines
  refine forall_eq_map lines ?_
  intro entry member file line
  unfold frontIndexFile at line
  split at line
  · next index =>
      have kind := (wellFormed.frontIndex entry member).mpr index
      cases line
      simp [listed, kind, ZoneKind.typeLabel]
  next notIndex =>
  split at line
  · next last =>
      have kind := (wellFormed.sealMarker entry member).mpr (by omega)
      cases line
      simp [listed, kind, ZoneKind.typeLabel]
  next notSeal =>
  split at line
  · cases line
  · next found hit =>
      have inEntries : found ∈ layout.entries := by
        rw [entries]
        exact (List.perm_insertionSort _ _).mem_iff.mpr
          (mem_all_entries.mpr (Or.inl (List.mem_of_find?_eq_some hit)))
      have placed : found.position = entry.position := by simpa using List.find?_some hit
      have same := wellFormed.unique inEntries member placed
      subst same
      obtain ⟨_, _, _, _, notIndexKind, notSealKind, _⟩ :=
        mem_content_entries assembled.counted assembled.sliced (List.mem_of_find?_eq_some hit)
      cases line
      simp [listed, notIndexKind, notSealKind]

end Assembled

end Assembly

structure Built (generators : Generators) (inputs : BuildInputs) (built : BuiltLayout)
    (last dataStart : Nat) : Prop where
  label : built.layout.label = inputs.label
  wellFormed : WellFormed built.layout last dataStart
  frontIndex : ∀ entry ∈ built.layout.entries, entry.kind = .frontIndex →
    entry = materialized generators 3 .frontIndex
      (encodeUtf8 (generateFrontIndex inputs.label (built.layout.entries.map listed)))
  frozenIndex : built.sessionDir.lookup 3 =
    some (encodeUtf8 (generateFrontIndex inputs.label (built.layout.entries.map listed)))
  slices : ∀ entry ∈ built.layout.entries, ∀ id, entry.kind = .slice id →
    ∃ slice ∈ allSlices inputs, slice.sliceId = id ∧
      entry.sizeBytes = some (max slice.encryptedBytes 0).toNat ∧
      entry.sha256 = some slice.sha256Encrypted
  zones : ∀ entry ∈ built.layout.entries, entry.kind ≠ .sealMarker → entry.kind.isSlice = false →
    ∃ bytes, built.sessionDir.lookup entry.position = some bytes ∧
      entry = materialized generators entry.position entry.kind bytes

variable {inputs : BuildInputs}

theorem built_of_assembled {generators : Generators} {plan : Positions} {tenants : List Int}
    {files : List FrontIndexFile} (assembled : Assembled generators inputs plan tenants files)
    (now : String) :
    Built generators inputs (assembleLayout generators inputs plan tenants files now)
      plan.sealMarker.toNat plan.dataStart.toNat := by
  let built := assembleLayout generators inputs plan tenants files now
  have wellFormed : WellFormed built.layout plan.sealMarker.toNat plan.dataStart.toNat :=
    assembled.well_formed _ _ rfl
  have filesEq : files = built.layout.entries.map listed := assembled.files_eq _ _ rfl
  have inEntries : ∀ entry, entry ∈ built.layout.entries ↔
      entry ∈ allEntries generators plan (contentEntries generators inputs plan tenants)
        (frontIndexBytes inputs files) (sealPlaceholder generators inputs plan files now).length :=
    fun entry => (List.perm_insertionSort _ _).mem_iff
  let frozen := (generatedZones generators inputs plan tenants).map fun zone => (zone.1, zone.2.2)
  have absent : frozen.lookup (3 : Int) = none := by
    rw [List.lookup_eq_none_iff]
    intro pair inFrozen
    obtain ⟨zone, inZones, rfl⟩ := List.mem_map.mp inFrozen
    obtain ⟨_, _, other, _⟩ := mem_generated_zones assembled.counted inZones
    simpa using Ne.symm other
  have sessionDir : built.sessionDir = frozen ++ [(3, frontIndexBytes inputs files),
      (plan.sealMarker, sealPlaceholder generators inputs plan files now)] := rfl
  have index : built.sessionDir.lookup 3 = some (frontIndexBytes inputs files) := by
    rw [sessionDir, List.lookup_append]
    exact congrArg (Option.or · _) absent
  refine ⟨rfl, wellFormed, ?_, by rw [index, ← filesEq]; rfl, ?_, ?_⟩
  · intro entry member kind
    rcases mem_all_entries.mp ((inEntries entry).mp member) with content | rfl | rfl
    · obtain ⟨_, _, _, _, notIndex, _⟩ :=
        mem_content_entries assembled.counted assembled.sliced content
      exact absurd kind notIndex
    · rw [← filesEq]
      rfl
    · cases kind
  · intro entry member id kind
    rcases mem_all_entries.mp ((inEntries entry).mp member) with content | rfl | rfl
    · rcases List.mem_append.mp content with zoneMember | sliceMember
      · obtain ⟨zone, inZones, rfl⟩ := List.mem_map.mp zoneMember
        obtain ⟨_, _, _, notSlice, _⟩ := mem_generated_zones assembled.counted inZones
        rw [show zone.2.1 = .slice id from kind] at notSlice
        cases notSlice
      · obtain ⟨slice, inSlices, rfl⟩ := List.mem_map.mp sliceMember
        exact ⟨slice, inSlices, by simpa [sliceEntry] using kind, rfl, rfl⟩
    · cases kind
    · cases kind
  · intro entry member notSeal notSlice
    rcases mem_all_entries.mp ((inEntries entry).mp member) with content | rfl | rfl
    · rcases List.mem_append.mp content with zoneMember | sliceMember
      · obtain ⟨zone, inZones, rfl⟩ := List.mem_map.mp zoneMember
        cases hit : frozen.lookup zone.1 with
        | none =>
          rw [List.lookup_eq_none_iff] at hit
          simpa using hit (zone.1, zone.2.2) (List.mem_map.mpr ⟨zone, inZones, rfl⟩)
        | some bytes =>
          -- The frozen file found first belongs to an entry at the same position: the same one.
          obtain ⟨before, after, split, _⟩ := List.lookup_eq_some_iff.mp hit
          have inFrozen : (zone.1, bytes) ∈ frozen := by simp [split]
          obtain ⟨first, firstMember, firstEq⟩ := List.mem_map.mp inFrozen
          obtain ⟨placed, rfl⟩ := Prod.mk.inj firstEq
          have firstEntry : zoneEntry generators first ∈ built.layout.entries :=
            (inEntries _).mpr (mem_all_entries.mpr
              (Or.inl (List.mem_append_left _ (List.mem_map.mpr ⟨first, firstMember, rfl⟩))))
          have same := wellFormed.unique firstEntry member placed
          refine ⟨first.2.2, ?_, ?_⟩
          · rw [sessionDir, List.lookup_append]
            exact congrArg (Option.or · _) hit
          · rw [← same]
            rfl
      · obtain ⟨slice, _, rfl⟩ := List.mem_map.mp sliceMember
        cases notSlice
    · exact ⟨_, index, rfl⟩
    · exact absurd rfl notSeal

theorem build_with_plan_bound_ok {generators : Generators} {now nowAgain : String}
    {built : BuiltLayout} (ok : buildWithPlanBound generators inputs now nowAgain = .ok built) :
    ∃ volumeUuid files,
      let tenants := permutedTenants generators.sha256Hex volumeUuid inputs.units
      let plan : Positions := ⟨tenants.length, (allSlices inputs).length⟩
      Assembled generators inputs plan tenants files ∧
        built = assembleLayout generators inputs plan tenants files now := by
  unfold buildWithPlanBound at ok
  cases spans : checkSpans inputs.units with
  | error message =>
    rw [spans] at ok
    cases ok
  | ok done =>
    rw [spans] at ok
    simp only at ok
    cases uuid : generators.parseUuid inputs.volumeUuid with
    | error message =>
      rw [uuid] at ok
      cases ok
    | ok volumeUuid =>
      rw [uuid] at ok
      simp only at ok
      split at ok
      · cases ok
      split at ok
      · cases ok
      · next files lines =>
          split at ok
          · cases ok
          · exact ⟨volumeUuid, files, ⟨rfl, rfl, lines⟩, (Except.ok.inj ok).symm⟩

theorem built_of_ok {generators : Generators} {now nowAgain : String} {built : BuiltLayout}
    (ok : buildWithPlanBound generators inputs now nowAgain = .ok built) :
    ∃ last dataStart, Built generators inputs built last dataStart := by
  obtain ⟨volumeUuid, files, assembled, rfl⟩ := build_with_plan_bound_ok ok
  exact ⟨_, _, built_of_assembled assembled now⟩

end Tapectl.Volume.Build
