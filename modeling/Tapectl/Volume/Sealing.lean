import Tapectl.Volume.Build

/-!
# The seal of a session

`volume/session.rs`: `seal_marker` generates the seal of a built Layout for its ending, full or
short, with the features its frozen File 0 states (`frozen_requires`). `path` stands for the path
of the frozen File 0 in the messages.
-/

namespace Tapectl.Volume.Session

open StoredText Tapectl.Volume.Build Tapectl.Volume.Generate Tapectl.Volume.Format

inductive Ending where
  | full
  | short (endedAfter : Nat)
  deriving DecidableEq, Repr

def Ending.recordedEndedAfter : Ending → Option Int
  | .full => none
  | .short endedAfter => some endedAfter

def frozenRequires (crate : Toml.Crate) (path : String) (built : BuiltLayout) :
    Except String (List String) :=
  match built.layout.entries.find? fun entry => entry.kind == .idThunk with
  | none => .error "seal: layout has no id_thunk entry"
  | some entry =>
    match built.sessionDir.lookup entry.position with
    | none =>
      .error (s!"seal: cannot read the frozen File 0 at {path} for its `requires`: " ++
        "No such file or directory (os error 2)")
    | some raw =>
      match parseIdThunkClaims crate (fromUtf8Lossy (withoutNulPadding raw)) with
      | .error message =>
        .error (s!"seal: the frozen File 0 at {path} does not parse for its `requires`: " ++
          message)
      | .ok claims =>
        let features := tapeRequires (claims.requires.any fun feature => feature == spanning)
        if claims.requires ≠ features then
          let stated := debugStrings claims.requires
          let whole := debugStrings requiresWhole
          let span := debugStrings requiresSpan
          .error (s!"seal: the frozen File 0 at {path} states requires = {stated}, which is " ++
            s!"neither list this tapectl writes ({whole} or {span}); the seal must state " ++
            "what File 0 states, so it is not written")
        else .ok features

/-- An entry as the seal's copy lists it: only the seal itself is bare. -/
def sealListed (entry : LayoutEntry) : FrontIndexFile where
  position := entry.position
  typeLabel := entry.kind.typeLabel
  sizeBytes := if entry.kind = .sealMarker then none else entry.sizeBytes
  sha256Encrypted := if entry.kind = .sealMarker then none else entry.sha256

variable (layout : Layout)

def fullSeal (fiHash : String) (features : List String) (now : String)
    (placeholderLen : Nat) : Except String Text :=
  let real := generateSealMarkerRequiring layout.label layout.entries.length fiHash
    (layout.entries.map sealListed) features now
  let size := (encodeUtf8 real).length
  if size ≠ placeholderLen then
    .error (s!"seal: real seal marker ({size} bytes) != frozen placeholder " ++
      s!"({placeholderLen} bytes) — the placeholder-sizing trick broke; " ++
      "generate_seal_marker's timestamp must render at fixed width")
  else .ok real

def shortSeal (endedAfter : Nat) (planned : Int) (fiHash : String)
    (features : List String) (now : String) (placeholderLen : Nat) : Except String Text :=
  let files := layout.entries.map sealListed
  let atK := files.find? fun file => asU32 file.position == endedAfter
  if endedAfter + 2 > asU32 planned ∨ atK.map FrontIndexFile.typeLabel ≠ some "data_slice" then
    let found := (atK.map FrontIndexFile.typeLabel).getD "not a position of the Layout"
    .error ("seal: a short seal ends after a data slice before the last one " ++
      s!"(volume-format-v2.md §4.1), but ended_after = {endedAfter} is {found} on a " ++
      s!"Layout whose seal is planned at {planned}")
  else
    let throughK := files.filter fun file => decide (asU32 file.position ≤ endedAfter)
    let real := generateShortSealMarkerRequiring layout.label (asI32 endedAfter) fiHash throughK
      features now
    let size := (encodeUtf8 real).length
    if size > placeholderLen then
      .error (s!"seal: the short seal ({size} bytes) is longer than the frozen placeholder " ++
        s!"({placeholderLen} bytes) build sized for the full one — " ++
        "volume-format-v2.md §4.1 says it never is")
    else .ok real

def sealMarker (crate : Toml.Crate) (path : String) (built : BuiltLayout) (ending : Ending)
    (now : String) : Except String Text := do
  let sealEntry ← match built.layout.entries.find? fun entry => entry.kind == .sealMarker with
    | some entry => .ok entry
    | none => .error "seal: layout has no seal_marker entry"
  let fiEntry ← match built.layout.entries.find? fun entry => entry.kind == .frontIndex with
    | some entry => .ok entry
    | none => .error "seal: layout has no front_index entry"
  let fiHash ← match fiEntry.sha256 with
    | some hash => .ok hash
    | none => .error "seal: front_index entry has no recorded hash"
  let placeholderLen ← match sealEntry.sizeBytes with
    | some size => .ok size
    | none => .error "seal: seal_marker entry has no recorded size"
  let features ← frozenRequires crate path built
  match ending with
  | .full => fullSeal built.layout fiHash features now placeholderLen
  | .short endedAfter =>
    shortSeal built.layout endedAfter sealEntry.position fiHash features now placeholderLen

theorem tape_requires_cases (holdsASpan : Bool) :
    tapeRequires holdsASpan = requiresWhole ∨ tapeRequires holdsASpan = requiresSpan := by
  cases holdsASpan
  · exact Or.inl rfl
  · exact Or.inr rfl

def sealInputs (ending : Ending) (fiHash : String) (features : List String)
    (now : String) : SealInputs :=
  let files := layout.entries.map sealListed
  match ending with
  | .full =>
    { label := layout.label, fileCount := layout.entries.length
      endedAfter := (layout.entries.length : Int) - 2, frontIndexSha256 := fiHash
      features, now, files }
  | .short endedAfter =>
    { label := layout.label, fileCount := saturatingAdd (asI32 endedAfter) 2
      endedAfter := asI32 endedAfter, frontIndexSha256 := fiHash, features, now
      files := files.filter (fun file => decide (asU32 file.position ≤ endedAfter)) ++
        [⟨saturatingAdd (asI32 endedAfter) 1, "seal_marker", none, none⟩] }

/-- A short seal ends after a data slice that is not the last file before the planned seal. -/
def Ending.Fits (planned : Int) : Ending → Prop
  | .full => True
  | .short endedAfter => endedAfter + 2 ≤ asU32 planned ∧
      ∃ entry ∈ layout.entries, asU32 entry.position = endedAfter ∧ entry.kind.isSlice = true

theorem type_label_plain (kind : ZoneKind) : Toml.PlainAscii kind.typeLabel := by
  have labels : ∀ label ∈ ["id_thunk", "system_guide", "restore_sh", "front_index", "data_slice",
      "tenant_envelope", "operator_envelope", "operator_envelope_backup", "tenant_envelope_backup",
      "seal_marker"], Toml.PlainAscii label := by decide
  exact labels kind.typeLabel (by cases kind <;> simp [ZoneKind.typeLabel])

section Sound

variable {layout : Layout} {last dataStart : Nat} (wellFormed : WellFormed layout last dataStart)

/-- The last file before the seal of a Layout whose seal is planned at `planned`. -/
def Ending.lastFile (planned : Nat) : Ending → Nat
  | .full => planned - 1
  | .short endedAfter => endedAfter

/-- The copy of the front index in a seal: the files up to the ending, and the seal after them. -/
def sealedFiles (layout : Layout) (ended : Nat) : List FrontIndexFile :=
  (layout.entries.take (ended + 1)).map sealListed ++ [⟨ended + 1, "seal_marker", none, none⟩]

include wellFormed

variable {limit : Nat}

theorem mem_take_entries {entry : LayoutEntry} (member : entry ∈ layout.entries.take (limit + 1)) :
    entry ∈ layout.entries ∧ entry.position ≤ limit := by
  have inEntries := List.mem_of_mem_take member
  obtain ⟨index, bound, found⟩ := List.mem_iff_getElem.mp member
  have short := List.length_take_le (limit + 1) layout.entries
  have position := wellFormed.position_eq (List.getElem?_eq_getElem
    (List.length_take_le' _ _ |>.trans_lt' bound))
  rw [List.getElem_take] at found
  rw [found] at position
  exact ⟨inEntries, by omega⟩

theorem mem_drop_entries {entry : LayoutEntry} (member : entry ∈ layout.entries.drop (limit + 1)) :
    entry ∈ layout.entries ∧ (limit : Int) < entry.position := by
  have inEntries := List.mem_of_mem_drop member
  obtain ⟨index, bound, found⟩ := List.mem_iff_getElem.mp member
  rw [List.getElem_drop] at found
  rw [List.length_drop] at bound
  have position := wellFormed.position_eq (List.getElem?_eq_getElem
    (show limit + 1 + index < layout.entries.length by omega))
  rw [found] at position
  exact ⟨inEntries, by omega⟩

theorem filter_positions (inside : limit ≤ last) (range : last < 2 ^ 31) :
    (layout.entries.map sealListed).filter (fun file => decide (asU32 file.position ≤ limit)) =
      (layout.entries.take (limit + 1)).map sealListed := by
  have narrow : ∀ entry ∈ layout.entries,
      decide (asU32 (sealListed entry).position ≤ limit) = decide (entry.position ≤ limit) := by
    intro entry member
    obtain ⟨index, bound, position, _⟩ := wellFormed.mem_index member
    simp only [sealListed, position, asU32, decide_eq_decide]
    omega
  have before : (layout.entries.take (limit + 1)).filter
      ((fun file => decide (asU32 file.position ≤ limit)) ∘ sealListed) =
      layout.entries.take (limit + 1) := by
    rw [List.filter_eq_self]
    intro entry member
    obtain ⟨inEntries, placed⟩ := mem_take_entries wellFormed member
    simp only [Function.comp_apply, narrow entry inEntries, placed, decide_true]
  have after : (layout.entries.drop (limit + 1)).filter
      ((fun file => decide (asU32 file.position ≤ limit)) ∘ sealListed) = [] := by
    rw [List.filter_eq_nil_iff]
    intro entry member
    obtain ⟨inEntries, placed⟩ := mem_drop_entries wellFormed member
    simp only [Function.comp_apply, narrow entry inEntries, decide_eq_true_eq]
    omega
  rw [List.filter_map]
  conv_lhs => rw [← List.take_append_drop (limit + 1) layout.entries]
  rw [List.filter_append, before, after, List.append_nil]

theorem sealed_files_length {ended : Nat} (before : ended < last) :
    (sealedFiles layout ended).length = ended + 2 := by
  rw [sealedFiles, List.length_append, List.length_map, List.length_take, wellFormed.length]
  simp only [List.length_singleton]
  omega

theorem sealed_files_get {ended index : Nat} (before : ended < last) {file : FrontIndexFile}
    (found : (sealedFiles layout ended)[index]? = some file) : file.position = index := by
  have length := wellFormed.length
  have taken : ((layout.entries.take (ended + 1)).map sealListed).length = ended + 1 := by
    rw [List.length_map, List.length_take, length]
    omega
  by_cases content : index < ended + 1
  · rw [sealedFiles, List.getElem?_append_left (by omega), List.getElem?_map,
      List.getElem?_take_of_lt content, Option.map_eq_some_iff] at found
    obtain ⟨entry, entryFound, rfl⟩ := found
    exact wellFormed.position_eq entryFound
  · rw [sealedFiles, List.getElem?_append_right (by omega), taken] at found
    have own : index - (ended + 1) = 0 := by
      have bound := (List.getElem?_eq_some_iff.mp found).1
      simp only [List.length_singleton] at bound
      omega
    rw [own] at found
    cases found
    simp only
    omega

theorem sealed_files_consistent {ended : Nat} (slices : dataStart ≤ ended) (before : ended < last)
    (range : last < 2 ^ 31) :
    validateConsistency ((sealedFiles layout ended).map FrontIndexFile.parsed) = [] := by
  have order := wellFormed.order
  have narrow : ∀ index : Nat, index ≤ last → asI32 index = index := fun index inside =>
    as_i32_of_lt (by omega) (by omega)
  have length := sealed_files_length wellFormed before
  rw [validate_consistency_nil]
  refine ⟨?_, ?_, ?_, ?_⟩
  · intro index claim found
    rw [List.getElem?_map, Option.map_eq_some_iff] at found
    obtain ⟨file, fileFound, rfl⟩ := found
    have bound := (List.getElem?_eq_some_iff.mp fileFound).1
    rw [narrow index (by omega)]
    exact sealed_files_get wellFormed before fileFound
  · -- The whole Layout has one front index, and it is not past the ending.
    obtain ⟨entry, single, position⟩ := wellFormed.filter_kind
      (fun kind => kind.typeLabel == "front_index") (by omega : 3 ≤ last) fun other member => by
        rw [beq_iff_eq, type_label_front_index, wellFormed.frontIndex other member]
        rfl
    have past : (layout.entries.drop (ended + 1)).filter
        (fun other => other.kind.typeLabel == "front_index") = [] := by
      rw [List.filter_eq_nil_iff]
      intro other member
      obtain ⟨inEntries, after⟩ := mem_drop_entries wellFormed member
      rw [beq_iff_eq, type_label_front_index, wellFormed.frontIndex other inEntries]
      omega
    rw [← List.take_append_drop (ended + 1) layout.entries, List.filter_append, past,
      List.append_nil] at single
    refine ⟨(sealListed entry).parsed, ?_, position⟩
    rw [ofType, List.filter_map, sealedFiles, List.filter_append, List.filter_map]
    have own : ((fun claim : ParsedIndexEntry => claim.typeLabel == "front_index") ∘
      FrontIndexFile.parsed) ∘ sealListed = fun other => other.kind.typeLabel == "front_index" := rfl
    rw [own, single]
    rfl
  · have none : (layout.entries.take (ended + 1)).filter
        (fun other => other.kind.typeLabel == "seal_marker") = [] := by
      rw [List.filter_eq_nil_iff]
      intro other member
      obtain ⟨inEntries, inside⟩ := mem_take_entries wellFormed member
      rw [beq_iff_eq, type_label_seal_marker, wellFormed.sealMarker other inEntries]
      omega
    refine ⟨⟨ended + 1, "seal_marker", Option.none, Option.none⟩, ?_, ?_⟩
    · rw [ofType, List.filter_map, sealedFiles, List.filter_append, List.filter_map]
      have own : ((fun claim : ParsedIndexEntry => claim.typeLabel == "seal_marker") ∘
        FrontIndexFile.parsed) ∘ sealListed = fun other => other.kind.typeLabel == "seal_marker" := rfl
      rw [own, none]
      rfl
    · rw [List.length_map, length, show ended + 2 - 1 = ended + 1 by omega,
        narrow (ended + 1) (by omega)]
      simp
  · intro claim member notSelf
    obtain ⟨file, fileMember, rfl⟩ := List.mem_map.mp member
    rcases List.mem_append.mp fileMember with inTake | own
    · obtain ⟨entry, entryMember, rfl⟩ := List.mem_map.mp inTake
      obtain ⟨inEntries, inside⟩ := mem_take_entries wellFormed entryMember
      have notSeal : entry.kind ≠ .sealMarker := by
        rw [ne_eq, wellFormed.sealMarker entry inEntries]
        omega
      simpa [FrontIndexFile.parsed, sealListed, notSeal] using
        wellFormed.complete entry inEntries notSeal
    · rw [List.mem_singleton.mp own] at notSelf
      cases notSelf

theorem seal_inputs_writable {ending : Ending} (range : last + 1 < 2 ^ 31)
    (before : ending.lastFile last < last) (label : Naming.AllowedName layout.label)
    (writable : ∀ entry ∈ layout.entries, Writable (sealListed entry)) {fiHash : String}
    (plainHash : Toml.PlainAscii fiHash) {features : List String}
    (known : features = requiresWhole ∨ features = requiresSpan) {now : String}
    (plainNow : Toml.PlainAscii now) :
    (sealInputs layout ending fiHash features now).Writable := by
  have length := wellFormed.length
  have plainFeatures : ∀ feature ∈ features, Toml.PlainAscii feature := by
    have both : ∀ feature ∈ requiresSpan, Toml.PlainAscii feature := by decide
    have whole : ∀ feature ∈ requiresWhole, feature ∈ requiresSpan := by decide
    rcases known with rfl | rfl
    · exact fun feature member => both feature (whole feature member)
    · exact both
  have listedFiles : ∀ file ∈ layout.entries.map sealListed, Writable file := by
    intro file member
    obtain ⟨entry, entryMember, rfl⟩ := List.mem_map.mp member
    exact writable entry entryMember
  cases ending with
  | full =>
    exact
      { label, hash := plainHash, features := plainFeatures, now := plainNow
        fileCount := by simp only [sealInputs]; omega
        endedAfter := by simp only [sealInputs]; omega
        files := listedFiles }
  | short k =>
    simp only [Ending.lastFile] at before
    have narrow : asI32 k = k := as_i32_of_lt (by omega) (by omega)
    exact
      { label, hash := plainHash, features := plainFeatures, now := plainNow
        fileCount := by simp only [sealInputs, narrow, saturatingAdd]; omega
        endedAfter := by simp only [sealInputs, narrow]; omega
        files := by
          intro file member
          simp only [sealInputs, List.mem_append, List.mem_filter, List.mem_singleton] at member
          rcases member with ⟨inFiles, _⟩ | rfl
          · exact listedFiles file inFiles
          · refine ⟨?_, type_label_plain .sealMarker, by simp, by simp⟩
            simp only [narrow, saturatingAdd]
            omega }

theorem seal_inputs_keep_rules {ending : Ending} (range : last + 1 < 2 ^ 31)
    (slices : dataStart ≤ ending.lastFile last) (before : ending.lastFile last < last)
    {fiHash : String} {features : List String} {now : String}
    (known : features = requiresWhole ∨ features = requiresSpan) :
    (sealInputs layout ending fiHash features now).KeepsRules (ending.lastFile last) := by
  have length := wellFormed.length
  have order := wellFormed.order
  have filesEq : (sealInputs layout ending fiHash features now).files =
      sealedFiles layout (ending.lastFile last) := by
    cases ending with
    | full =>
      simp only [sealInputs, sealedFiles, Ending.lastFile]
      have bound : last < layout.entries.length := by omega
      have whole : layout.entries = layout.entries.take (last - 1 + 1) ++ [layout.entries[last]] := by
        rw [show last - 1 + 1 = last by omega, List.take_append_getElem,
          List.take_of_length_le (by omega)]
      have kind := (wellFormed.sealMarker _ (List.getElem_mem bound)).mpr
        (wellFormed.position_eq (List.getElem?_eq_getElem bound))
      conv_lhs => rw [whole]
      rw [List.map_append]
      congr 1
      have place : ((last - 1 : Nat) : Int) + 1 = last := by omega
      simp only [List.map_cons, List.map_nil, sealListed, kind, if_true,
        wellFormed.position_eq (List.getElem?_eq_getElem bound), place]
      rfl
    | short ended =>
      simp only [Ending.lastFile] at before slices ⊢
      simp only [sealInputs, sealedFiles,
        filter_positions wellFormed (Nat.le_of_lt before) (Nat.lt_of_succ_lt range),
        as_i32_of_lt (show -2 ^ 31 ≤ (ended : Int) by omega) (by omega), saturatingAdd]
      rw [show min ((ended : Int) + 1) (2 ^ 31 - 1) = ended + 1 by omega]
  refine ⟨by omega, ?_, ?_, ?_, ?_, ?_, ?_⟩
  · cases ending <;> exact known
  · cases ending with
    | full =>
      simp only [sealInputs, Ending.lastFile, length]
      omega
    | short ended =>
      simp only [Ending.lastFile] at before ⊢
      simp only [sealInputs]
      exact as_i32_of_lt (by omega) (by omega)
  · cases ending with
    | full =>
      simp only [sealInputs, Ending.lastFile, length]
      omega
    | short ended =>
      simp only [Ending.lastFile] at before ⊢
      simp only [sealInputs, as_i32_of_lt (show -2 ^ 31 ≤ (ended : Int) by omega) (by omega),
        saturatingAdd]
      omega
  · rw [filesEq, sealed_files_length wellFormed before]
  · rw [filesEq]
    exact sealed_files_consistent wellFormed slices before (Nat.lt_of_succ_lt range)
  · have bound : ending.lastFile last < layout.entries.length := by omega
    have sliced := (wellFormed.slices _ (List.getElem_mem bound)).mpr (by
      rw [wellFormed.position_eq (List.getElem?_eq_getElem bound)]
      omega)
    rw [filesEq, sealedFiles, List.getElem?_append_left
      (by rw [List.length_map, List.length_take]; omega), List.getElem?_map,
      List.getElem?_take_of_lt (Nat.lt_succ_self _), List.getElem?_eq_getElem bound]
    exact congrArg some (type_label_data_slice.mpr sliced)

theorem seal_inputs_sound {ending : Ending} (range : last + 1 < 2 ^ 31)
    (slices : dataStart ≤ ending.lastFile last) (before : ending.lastFile last < last)
    {fiHash : String} {features : List String} {now : String}
    (writable : (sealInputs layout ending fiHash features now).Writable)
    (known : features = requiresWhole ∨ features = requiresSpan) :
    (sealInputs layout ending fiHash features now).Sound (ending.lastFile last) :=
  ⟨seal_inputs_keep_rules wellFormed range slices before known, writable⟩

end Sound

end Tapectl.Volume.Session
