import Tapectl.Staging.Release

/-!
# Staging is released only when covered

A release is read as the trace of its commits and unlinks. Each commit is judged at the catalog
before it, each unlink at the catalog that was committed last. A release only clears paths and moves
sets to `cleaned`, so what was true of the staged files at the start stays true at every step.
-/

namespace Tapectl.Staging

open Tapectl.Db Tapectl.Policy

variable {File : Type}

/-- Every effect of the trace is allowed at the catalog it was done on. -/
def Traced (allowed : Tables → Effect File → Prop) : Tables → List (Effect File) → Prop
  | _, [] => True
  | tables, .commit after :: rest => allowed tables (.commit after) ∧ Traced allowed after rest
  | tables, .unlink file :: rest => allowed tables (.unlink file) ∧ Traced allowed tables rest

def lastCommitted : Tables → List (Effect File) → Tables
  | tables, [] => tables
  | _, .commit after :: rest => lastCommitted after rest
  | tables, .unlink _ :: rest => lastCommitted tables rest

theorem traced_append {allowed : Tables → Effect File → Prop} {tables : Tables}
    {first second : List (Effect File)} : Traced allowed tables (first ++ second) ↔
      Traced allowed tables first ∧ Traced allowed (lastCommitted tables first) second := by
  induction first generalizing tables with
  | nil => simp [Traced, lastCommitted]
  | cons effect rest ih =>
    cases effect with
    | commit after => simp only [List.cons_append, Traced, lastCommitted, ih, and_assoc]
    | unlink file => simp only [List.cons_append, Traced, lastCommitted, ih, and_assoc]

theorem last_committed_append (tables : Tables) (first second : List (Effect File)) :
    lastCommitted tables (first ++ second) = lastCommitted (lastCommitted tables first) second := by
  induction first generalizing tables with
  | nil => rfl
  | cons effect rest ih =>
    cases effect with
    | commit after => exact ih after
    | unlink file => exact ih tables

/-- The run's trace from `first` is allowed and leads to its catalog. -/
structure Sound (allowed : Tables → Effect File → Prop) (first : Tables) (run : Run File) : Prop where
  traced : Traced allowed first run.effects
  last : lastCommitted first run.effects = run.tables

theorem Sound.commit {allowed : Tables → Effect File → Prop} {first : Tables} {run : Run File}
    (sound : Sound allowed first run) {after : Tables}
    (ok : allowed run.tables (.commit after)) : Sound allowed first (run.commit after) := by
  constructor
  · rw [Run.commit, traced_append, sound.last]
    exact ⟨sound.traced, ok, trivial⟩
  · rw [Run.commit, last_committed_append]
    rfl

theorem Sound.remove {allowed : Tables → Effect File → Prop} {first : Tables}
    (world : Surroundings File) {files : List File} {done : Run File × CleanReport File}
    (sound : Sound allowed first done.1)
    (ok : ∀ file ∈ files, allowed done.1.tables (.unlink file)) :
    Sound allowed first (files.foldl (removeAndAccount world) done).1 ∧
      (files.foldl (removeAndAccount world) done).1.tables = done.1.tables := by
  induction files generalizing done with
  | nil => exact ⟨sound, rfl⟩
  | cons file rest ih =>
    have tables : (removeAndAccount world done file).1.tables = done.1.tables := by
      unfold removeAndAccount
      split <;> rfl
    have step : Sound allowed first (removeAndAccount world done file).1 := by
      have unlinked : Sound allowed first
          { done.1 with effects := done.1.effects ++ [.unlink file] } := by
        constructor
        · rw [traced_append, sound.last]
          exact ⟨sound.traced, ok file List.mem_cons_self, trivial⟩
        · rw [last_committed_append, sound.last]
          rfl
      unfold removeAndAccount
      split
      · exact sound
      · exact unlinked
      · exact unlinked
    obtain ⟨later, same⟩ := ih step fun other member =>
      tables ▸ ok other (List.mem_cons_of_mem _ member)
    exact ⟨later, same.trans tables⟩

structure Clears (change : StageSliceRow → StageSliceRow) : Prop where
  id : ∀ slice, (change slice).id = slice.id
  stage_set : ∀ slice, (change slice).stageSetId = slice.stageSetId
  slice_number : ∀ slice, (change slice).sliceNumber = slice.sliceNumber
  path : ∀ slice, change slice = slice ∨ (change slice).stagingPath = none

structure Cleans (change : StageSetRow → StageSetRow) : Prop where
  id : ∀ set, (change set).id = set.id
  snapshot : ∀ set, (change set).snapshotId = set.snapshotId
  status : ∀ set, change set = set ∨ (change set).status = .cleaned

/-- `after` is `before` with some paths cleared and some sets cleaned. -/
def Narrowed (before after : Tables) : Prop :=
  ∃ slices sets, Clears slices ∧ Cleans sets ∧ after = { before with
    stageSlices := before.stageSlices.map slices
    stageSets := before.stageSets.map sets }

theorem Narrowed.refl (tables : Tables) : Narrowed tables tables := by
  refine ⟨id, id, ⟨fun _ => rfl, fun _ => rfl, fun _ => rfl, fun _ => .inl rfl⟩,
    ⟨fun _ => rfl, fun _ => rfl, fun _ => .inl rfl⟩, ?_⟩
  simp only [List.map_id]

theorem Narrowed.trans {first second third : Tables} (one : Narrowed first second)
    (two : Narrowed second third) : Narrowed first third := by
  obtain ⟨slices, sets, clears, cleans, rfl⟩ := one
  obtain ⟨slices', sets', clears', cleans', rfl⟩ := two
  refine ⟨slices' ∘ slices, sets' ∘ sets, ⟨?_, ?_, ?_, ?_⟩, ⟨?_, ?_, ?_⟩, ?_⟩
  · exact fun slice => (clears'.id _).trans (clears.id slice)
  · exact fun slice => (clears'.stage_set _).trans (clears.stage_set slice)
  · exact fun slice => (clears'.slice_number _).trans (clears.slice_number slice)
  · intro slice
    rcases clears'.path (slices slice) with same | none
    · rw [Function.comp_apply, same]
      exact clears.path slice
    · exact .inr none
  · exact fun set => (cleans'.id _).trans (cleans.id set)
  · exact fun set => (cleans'.snapshot _).trans (cleans.snapshot set)
  · intro set
    rcases cleans'.status (sets set) with same | cleaned
    · rw [Function.comp_apply, same]
      exact cleans.status set
    · exact .inr cleaned
  · simp only [List.map_map]

variable {before : Tables}

theorem Narrowed.staged {after : Tables} (narrowed : Narrowed before after)
    {slice : StageSliceRow} (member : slice ∈ after.stageSlices)
    (staged : slice.stagingPath.isSome = true) : slice ∈ before.stageSlices := by
  obtain ⟨slices, _, clears, _, rfl⟩ := narrowed
  obtain ⟨old, known, rfl⟩ := List.mem_map.mp member
  rcases clears.path old with same | none
  · rw [same]
    exact known
  · rw [none] at staged
    cases staged

theorem find_map_key {Row : Type} {key : Row → Int} {change : Row → Row}
    (keeps : ∀ row, key (change row) = key row) (rows : List Row) (id : Int) :
    ((rows.map change).find? fun row => key row = id) =
      (rows.find? fun row => key row = id).map change := by
  rw [List.find?_map]
  congr 2
  funext row
  rw [Function.comp_apply, keeps]

theorem Narrowed.orphans {after : Tables} (narrowed : Narrowed before after)
    (world : Surroundings File) (set : Int) :
    findPrefixOrphans world after set = findPrefixOrphans world before set := by
  obtain ⟨_, sets, _, cleans, rfl⟩ := narrowed
  unfold findPrefixOrphans
  simp only [find_map_key cleans.id]
  cases before.stageSets.find? fun row => row.id = set with
  | none => rfl
  | some row => simp only [Option.map_some, cleans.snapshot]

/-- The staging area is in order: a released slice names no file, no two slices name one file, and a
file named for a stage set is named by slices of that set alone. -/
structure WellStaged (world : Surroundings File) (tables : Tables) : Prop where
  released : ∀ slice ∈ tables.stageSlices, slice.releasedAt.isSome = true → slice.stagingPath = none
  own : ∀ slice ∈ tables.stageSlices, ∀ other ∈ tables.stageSlices, ∀ path path',
    slice.stagingPath = some path → other.stagingPath = some path' →
      world.fileOf path = world.fileOf path' → slice.id = other.id
  named : ∀ set, ∀ file ∈ findPrefixOrphans world tables set, ∀ slice ∈ tables.stageSlices,
    ∀ path, slice.stagingPath = some path → world.fileOf path = file → slice.stageSetId = set

theorem Narrowed.well_staged {world : Surroundings File} {after : Tables}
    (narrowed : Narrowed before after) (staged : WellStaged world before) :
    WellStaged world after := by
  have kept : ∀ slice ∈ after.stageSlices, ∀ path, slice.stagingPath = some path →
      slice ∈ before.stageSlices := fun slice member path named =>
    narrowed.staged member (by rw [named]; rfl)
  constructor
  · intro slice member released
    cases named : slice.stagingPath with
    | none => rfl
    | some path =>
      rw [staged.released slice (kept slice member path named) released] at named
      cases named
  · intro slice member other member' path path' named named'
    exact staged.own slice (kept slice member path named) other (kept other member' path' named')
      path path' named named'
  · intro set file listed slice member path named
    rw [narrowed.orphans] at listed
    exact staged.named set file listed slice (kept slice member path named) path named

variable (ids : List Int)

def unstaged (slice : StageSliceRow) : StageSliceRow :=
  if slice.id ∈ ids then { slice with stagingPath := none } else slice

def unstagedAt (now : String) (ids : List Int) (slice : StageSliceRow) : StageSliceRow :=
  if slice.id ∈ ids then { slice with stagingPath := none, releasedAt := some now } else slice

def cleanedIn (set : StageSetRow) : StageSetRow :=
  if set.id ∈ ids then { set with status := .cleaned } else set

theorem unstaged_clears : Clears (unstaged ids) := by
  constructor <;> intro slice <;> unfold unstaged <;> split <;> simp

theorem unstaged_at_clears (now : String) (ids : List Int) : Clears (unstagedAt now ids) := by
  constructor <;> intro slice <;> unfold unstagedAt <;> split <;> simp

theorem cleaned_in_cleans : Cleans (cleanedIn ids) := by
  constructor <;> intro set <;> unfold cleanedIn <;> split <;> simp

theorem unstaged_nil : unstaged [] = id := by
  funext slice
  simp [unstaged]

theorem cleaned_in_nil : cleanedIn [] = id := by
  funext set
  simp [cleanedIn]

theorem clean_set_eq (tables : Tables) (set : Int) : cleanSet tables set =
    { tables with stageSets := tables.stageSets.map (cleanedIn [set]) } := by
  have rows : (fun row : StageSetRow => if row.id = set then { row with status := .cleaned } else row) =
      cleanedIn [set] := by
    funext row
    simp [cleanedIn]
  rw [cleanSet, rows]

theorem foldl_clear_path (tables : Tables) : ids.foldl clearPath tables =
      { tables with stageSlices := tables.stageSlices.map (unstaged ids) } := by
  induction ids generalizing tables with
  | nil => simp [unstaged_nil]
  | cons id rest ih =>
    rw [List.foldl_cons, ih, clearPath]
    simp only [List.map_map]
    congr 1
    refine List.map_congr_left fun slice _ => ?_
    by_cases here : slice.id = id <;> by_cases later : slice.id ∈ rest <;>
      simp [unstaged, here, later]

/-- The whole-set transaction: the plans' slices name nothing, the plans' sets are cleaned. -/
theorem foldl_release_set (plans : List (SetPlan File)) (tables : Tables) :
    plans.foldl releaseSet tables = { tables with
      stageSlices := tables.stageSlices.map
        (unstaged (plans.flatMap fun plan => plan.ageFiles.map Prod.fst))
      stageSets := tables.stageSets.map (cleanedIn (plans.map SetPlan.stageSetId)) } := by
  induction plans generalizing tables with
  | nil =>
    simp [unstaged_nil, cleaned_in_nil]
  | cons plan rest ih =>
    have first : plan.ageFiles.foldl (fun tables staged => clearPath tables staged.1) tables =
        { tables with stageSlices :=
            tables.stageSlices.map (unstaged (plan.ageFiles.map Prod.fst)) } := by
      rw [← foldl_clear_path, List.foldl_map]
    rw [List.foldl_cons, ih, releaseSet, first, cleanSet]
    simp only [List.map_map, List.flatMap_cons, List.map_cons]
    congr 1
    · refine List.map_congr_left fun set _ => ?_
      by_cases here : set.id = plan.stageSetId <;> by_cases later : set.id ∈ rest.map SetPlan.stageSetId <;>
        simp [cleanedIn, here, later]
    · refine List.map_congr_left fun slice _ => ?_
      by_cases here : slice.id ∈ plan.ageFiles.map Prod.fst <;>
        by_cases later : slice.id ∈ rest.flatMap fun plan => plan.ageFiles.map Prod.fst <;>
        simp only [Function.comp_apply, unstaged, here, later, List.mem_append, if_true, if_false,
          true_or, or_true, or_self]

def coveredIds (floor : Int) (slices : List SliceCopies) : List Int :=
  (slices.filter fun slice => floor ≤ slice.copies).map SliceCopies.stageSliceId

/-- The per-slice transaction's loop: the covered slices are released, the others are short. -/
theorem foldl_release_slice (now : String) (floor : Int) (slices : List SliceCopies)
    (done : SliceRelease) :
    (slices.foldl (releaseSlice now floor) done).tables = { done.tables with
        stageSlices := done.tables.stageSlices.map (unstagedAt now (coveredIds floor slices)) } ∧
      (slices.foldl (releaseSlice now floor) done).short = done.short ++
        (slices.filter fun slice => (slice.copies : Int) < floor).map SliceCopies.sliceNumber ∧
      ∀ entry ∈ (slices.foldl (releaseSlice now floor) done).released, entry ∈ done.released ∨
        ∀ path, entry.2 = some path → ∃ slice ∈ done.tables.stageSlices,
          slice.id ∈ coveredIds floor slices ∧ slice.stagingPath = some path := by
  induction slices generalizing done with
  | nil =>
    have none : unstagedAt now [] = id := by
      funext slice
      simp [unstagedAt]
    exact ⟨by simp [coveredIds, none], by simp, fun _ member => .inl member⟩
  | cons slice rest ih =>
    obtain ⟨tables, short, released⟩ := ih (releaseSlice now floor done slice)
    rw [List.foldl_cons]
    by_cases less : (slice.copies : Int) < floor
    · have ids : coveredIds floor (slice :: rest) = coveredIds floor rest := by
        simp [coveredIds, less]
      rw [tables, short, ids]
      simp only [releaseSlice, if_pos less] at released ⊢
      exact ⟨trivial, by simp [less], released⟩
    · have ids : coveredIds floor (slice :: rest) =
          slice.stageSliceId :: coveredIds floor rest := by
        simp [coveredIds, not_lt.mp less]
      rw [tables, short, ids]
      simp only [releaseSlice, if_neg less] at released ⊢
      refine ⟨?_, by simp [less], fun entry member => ?_⟩
      · simp only [markReleased, List.map_map]
        congr 1
        refine List.map_congr_left fun row _ => ?_
        by_cases here : row.id = slice.stageSliceId <;>
          by_cases later : row.id ∈ coveredIds floor rest <;> simp [unstagedAt, here, later]
      · rcases released entry member with earlier | later
        · rcases List.mem_append.mp earlier with old | new
          · exact .inl old
          · obtain rfl := List.mem_singleton.mp new
            refine .inr fun path named => ?_
            obtain ⟨row, found, staged⟩ := Option.bind_eq_some_iff.mp named
            have same : row.id = slice.stageSliceId := by simpa using List.find?_some found
            exact ⟨row, List.mem_of_find?_eq_some found, by simp [same], staged⟩
        · refine .inr fun path named => ?_
          obtain ⟨row, listed, covered, staged⟩ := later path named
          obtain ⟨old, known, rfl⟩ := List.mem_map.mp listed
          by_cases here : old.id = slice.stageSliceId
          · rw [if_pos here] at staged
            cases staged
          · rw [if_neg here] at covered staged
            exact ⟨old, known, List.mem_cons_of_mem _ covered, staged⟩

section Allowed

variable (world : Surroundings File) (hold : Hold) (first : Tables)

/-- The unit is short of no per-location target, when the release waits for those. -/
def LocationsMet (unitId : Int) (unit : UnitRow) (policy : ResolvedPolicy) : Prop :=
  hold = .everyLocation → shortOfCopiesAt world first (.unit unitId true) policy unit.status = []

/-- A set without a range: written whole, and its unit has the copies of its floor. -/
structure CoveredWhole (tables : Tables) (set unitId : Int) : Prop where
  whole : ∀ write ∈ tables.writes, write.stageSetId = set →
    write.status = .completed ∨ write.status = .cut
  completed : ∃ write ∈ tables.writes, write.stageSetId = set ∧ write.status = .completed
  floor : ∃ unit policy, unitAndPolicy world first unitId = .ok (unit, policy) ∧
    copyFloor world policy.copyFloorBase unit.status ≤
      copyCountExpr first ⟨.unit unitId true, none⟩ ∧ LocationsMet world hold first unitId unit policy

/-- A slice of a set with a range: it has the copies of its unit's floor, and one at least. -/
structure CoveredSlice (tables : Tables) (set unitId slice : Int) : Prop where
  range : ∃ write ∈ tables.writes, write.stageSetId = set ∧ write.status = .range
  finished : ∀ write ∈ tables.writes, write.stageSetId = set →
    write.status = .completed ∨ write.status = .range ∨ write.status = .cut
  floor : ∃ unit policy, unitAndPolicy world first unitId = .ok (unit, policy) ∧
    (∃ copies ∈ sliceCopies tables set, copies.stageSliceId = slice ∧
      max 1 (copyFloor world policy.copyFloorBase unit.status) ≤ copies.copies) ∧
    LocationsMet world hold first unitId unit policy

def Unheld (tables : Tables) (set : Int) : Prop :=
  liveSessions world tables set = [] ∧
    ∃ held, world.rewriteHolds = .ok held ∧ set ∉ held

/-- A commit that takes a staged slice's path has it covered, takes none from a held set, and cleans
a set only when no slice of it names a file. -/
structure CommitAllowed (before after : Tables) : Prop where
  cleared : ∀ slice ∈ before.stageSlices, slice ∉ after.stageSlices →
    slice.stagingPath.isSome = true → ∀ set ∈ before.stageSets, set.id = slice.stageSetId →
      set.status = .staged → ∃ snapshot ∈ before.snapshots, snapshot.id = set.snapshotId ∧
        (CoveredWhole world hold first before set.id snapshot.unitId ∨
          CoveredSlice world hold first before set.id snapshot.unitId slice.id)
  unheld : ∀ slice ∈ before.stageSlices, slice ∉ after.stageSlices →
    slice.stagingPath.isSome = true → Unheld world before slice.stageSetId
  cleaned : ∀ set ∈ after.stageSets, set ∉ before.stageSets →
    ∀ slice ∈ after.stageSlices, slice.stageSetId = set.id → slice.stagingPath = none

/-- An unlinked file is named by no slice of the catalog committed last. -/
def Allowed (before : Tables) : Effect File → Prop
  | .commit after => CommitAllowed world hold first before after
  | .unlink file => ∀ slice ∈ before.stageSlices, ∀ path,
      slice.stagingPath = some path → world.fileOf path ≠ file

end Allowed

theorem drop_held_ok {world : Surroundings File} {tables : Tables} {candidates free : List Int}
    {report report' : CleanReport File}
    (ok : dropHeld world tables candidates report = .ok (free, report')) :
    ∀ set ∈ free, set ∈ candidates ∧ Unheld world tables set := by
  intro set member
  unfold dropHeld at ok
  by_cases none : (candidates.filter fun set => (liveSessions world tables set).isEmpty).isEmpty = true
  · simp only [none, if_true, bind, Except.bind, pure, Except.pure, Except.ok.injEq,
      Prod.mk.injEq] at ok
    rw [← ok.1, List.isEmpty_iff.mp none] at member
    cases member
  · cases holds : world.rewriteHolds with
    | error failed =>
      simp only [none, holds, bind, Except.bind] at ok
      cases ok
    | ok held =>
      simp only [none, holds, bind, Except.bind, pure, Except.pure] at ok
      obtain ⟨rfl, _⟩ := Prod.mk.inj (Except.ok.inj ok)
      obtain ⟨unlocked, unheld⟩ := List.mem_filter.mp member
      obtain ⟨candidate, unused⟩ := List.mem_filter.mp unlocked
      exact ⟨candidate, List.isEmpty_iff.mp unused, held, holds, by simpa using unheld⟩

section Whole

variable [DecidableEq File] {world : Surroundings File} {hold : Hold} {first : Tables}
  {run : Run File}

theorem mem_set_plan {tables : Tables} {slice : StageSliceRow} {path : String}
    (member : slice ∈ tables.stageSlices) (named : slice.stagingPath = some path) :
    (slice.id, path) ∈ (setPlan world tables slice.stageSetId).ageFiles :=
  List.mem_filterMap.mpr ⟨slice, List.mem_filter.mpr ⟨member, by simp⟩, by simp [named]⟩

theorem of_mem_set_plan {tables : Tables} {set : Int} {staged : Int × String}
    (member : staged ∈ (setPlan world tables set).ageFiles) :
    ∃ slice ∈ tables.stageSlices, slice.stageSetId = set ∧ slice.id = staged.1 ∧
      slice.stagingPath = some staged.2 := by
  obtain ⟨slice, listed, named⟩ := List.mem_filterMap.mp member
  obtain ⟨known, inSet⟩ := List.mem_filter.mp listed
  obtain ⟨path, staged, rfl⟩ := Option.map_eq_some_iff.mp named
  exact ⟨slice, known, by simpa using inSet, rfl, staged⟩

/-- The whole-set release does only what is allowed, when every staged candidate is covered. -/
theorem clean_staging_sound (keys : (run.tables.stageSlices.map StageSliceRow.id).Nodup)
    (sound : Sound (Allowed world hold first) first run) (staged : WellStaged world run.tables)
    {force : Bool} {scope : CleanScope}
    (covered : ∀ set ∈ run.tables.stageSets, set.id ∈ cleanCandidates run.tables force scope →
      set.status = .staged → ∃ snapshot ∈ run.tables.snapshots, snapshot.id = set.snapshotId ∧
        CoveredWhole world hold first run.tables set.id snapshot.unitId) :
    Sound (Allowed world hold first) first (cleanStaging world force scope run).1 ∧
      Narrowed run.tables (cleanStaging world force scope run).1.tables := by
  unfold cleanStaging
  split
  case h_1 => exact ⟨sound, .refl _⟩
  case h_2 free report kept =>
    split
    case isTrue => exact ⟨sound, .refl _⟩
    case isFalse =>
      have unheld := drop_held_ok kept
      set plans := free.map (setPlan world run.tables) with isPlans
      have committed := foldl_release_set plans run.tables
      set after := plans.foldl releaseSet run.tables with isAfter
      have narrowed : Narrowed run.tables after :=
        ⟨_, _, unstaged_clears _, cleaned_in_cleans _, committed⟩
      -- a slice of a planned set names nothing any more
      have nameless : ∀ slice ∈ after.stageSlices, slice.stageSetId ∈ free →
          slice.stagingPath = none := by
        intro slice member inFree
        cases named : slice.stagingPath with
        | none => rfl
        | some path =>
          have known := narrowed.staged member (by rw [named]; rfl)
          rw [committed] at member
          obtain ⟨old, listed, same⟩ := List.mem_map.mp member
          obtain rfl : old = slice := List.inj_on_of_nodup_map keys listed known
            ((unstaged_clears _).id old ▸ congrArg StageSliceRow.id same)
          have planned : old.id ∈ plans.flatMap fun plan => plan.ageFiles.map Prod.fst :=
            List.mem_flatMap.mpr ⟨_, List.mem_map_of_mem inFree,
              List.mem_map_of_mem (mem_set_plan known named)⟩
          rw [unstaged, if_pos planned] at same
          rw [← same] at named
          cases named
      -- a slice that is gone was of a planned set
      have planned : ∀ slice ∈ run.tables.stageSlices, slice ∉ after.stageSlices →
          slice.stageSetId ∈ free := by
        intro slice member gone
        by_contra outside
        refine gone ?_
        rw [committed]
        refine List.mem_map.mpr ⟨slice, member, if_neg fun inPlans => outside ?_⟩
        obtain ⟨plan, inPlan, listed⟩ := List.mem_flatMap.mp inPlans
        obtain ⟨set, inFree, rfl⟩ := List.mem_map.mp inPlan
        obtain ⟨staged, inFiles, same⟩ := List.mem_map.mp listed
        obtain ⟨row, known, inSet, id, _⟩ := of_mem_set_plan inFiles
        obtain rfl : row = slice :=
          List.inj_on_of_nodup_map keys known member (id.trans same)
        rw [inSet]
        exact inFree
      have ok : CommitAllowed world hold first run.tables after := by
        refine ⟨?_, fun slice member gone _ => (unheld _ (planned slice member gone)).2, ?_⟩
        · intro slice member gone _ set inSets same isStaged
          have candidate := (unheld _ (planned slice member gone)).1
          obtain ⟨snapshot, known, ofSet, whole⟩ := covered set inSets (same ▸ candidate) isStaged
          exact ⟨snapshot, known, ofSet, .inl whole⟩
        · intro set member new slice listed inSet
          rw [committed] at member
          obtain ⟨old, known, rfl⟩ := List.mem_map.mp member
          refine nameless slice listed ?_
          by_contra outside
          refine new ?_
          have stays : cleanedIn (plans.map SetPlan.stageSetId) old = old := by
            refine if_neg fun inPlans => outside ?_
            obtain ⟨plan, inPlan, same⟩ := List.mem_map.mp inPlans
            obtain ⟨id, inFree, rfl⟩ := List.mem_map.mp inPlan
            rw [inSet, (cleaned_in_cleans _).id, ← same]
            exact inFree
          rw [stays]
          exact known
      have removable : ∀ file ∈ plans.flatMap fun plan =>
          plan.ageFiles.map (fun staged => world.fileOf staged.2) ++ plan.plaintextOrphans,
          Allowed world hold first after (.unlink file) := by
        intro file listed slice member path named same
        obtain ⟨plan, inPlan, ofPlan⟩ := List.mem_flatMap.mp listed
        obtain ⟨set, inFree, rfl⟩ := List.mem_map.mp inPlan
        have known := narrowed.staged member (by rw [named]; rfl)
        have inSet : slice.stageSetId = set := by
          rcases List.mem_append.mp ofPlan with age | orphan
          · obtain ⟨staged', inFiles, rfl⟩ := List.mem_map.mp age
            obtain ⟨row, known', inSet, _, named'⟩ := of_mem_set_plan inFiles
            have id := staged.own slice known row known' _ _ named named' same
            obtain rfl : slice = row := List.inj_on_of_nodup_map keys known known' id
            exact inSet
          · exact staged.named set file (List.mem_filter.mp orphan).1 slice known path named same
        rw [nameless slice member (inSet ▸ inFree)] at named
        cases named
      obtain ⟨finished, same⟩ := @Sound.remove _ _ _ world _
        (run.commit after, { report with setsCleaned := report.setsCleaned + plans.length })
        (sound.commit ok) removable
      exact ⟨finished, same.symm ▸ narrowed⟩

end Whole

section Slices

theorem mem_slice_copies {tables : Tables} {set : StageSetRow} (inSets : set ∈ tables.stageSets)
    {slice : StageSliceRow} (member : slice ∈ tables.stageSlices)
    (inSet : slice.stageSetId = set.id) :
    ∃ copies ∈ sliceCopies tables set.id, copies.stageSliceId = slice.id := by
  refine ⟨_, (List.mem_insertionSort _).mpr (List.mem_flatMap.mpr ⟨set,
    List.mem_filter.mpr ⟨inSets, by simp⟩, List.mem_map.mpr ⟨slice,
      List.mem_filter.mpr ⟨member, by simpa using inSet⟩, rfl⟩⟩), rfl⟩

theorem of_mem_slice_copies {tables : Tables} {set : Int} {copies : SliceCopies}
    (member : copies ∈ sliceCopies tables set) :
    ∃ slice ∈ tables.stageSlices, slice.stageSetId = set ∧ slice.id = copies.stageSliceId := by
  obtain ⟨row, inSets, listed⟩ := List.mem_flatMap.mp ((List.mem_insertionSort _).mp member)
  obtain ⟨slice, inSlices, rfl⟩ := List.mem_map.mp listed
  obtain ⟨known, inSet⟩ := List.mem_filter.mp inSlices
  have same : row.id = set := by simpa using (List.mem_filter.mp inSets).2
  exact ⟨slice, known, (by simpa using inSet : slice.stageSetId = row.id).trans same, rfl⟩

theorem writes_finished_iff {tables : Tables} {set : Int} :
    writesFinished tables set = true ↔ ∀ write ∈ tables.writes, write.stageSetId = set →
      write.status = .completed ∨ write.status = .range ∨ write.status = .cut := by
  simp only [writesFinished, Bool.not_eq_true', List.any_eq_false, Bool.and_eq_true,
    decide_eq_true_eq, Bool.or_eq_false_iff, decide_eq_false_iff_not, not_and]
  refine forall₂_congr fun write _ => imp_congr_right fun _ => ?_
  cases write.status <;> simp

theorem holds_a_range_iff {tables : Tables} {set : Int} :
    holdsARange tables set = true ↔
      ∃ write ∈ tables.writes, write.stageSetId = set ∧ write.status = .range := by
  simp [holdsARange]

variable [DecidableEq File] {world : Surroundings File} {hold : Hold} {first : Tables}
  {run : Run File}

theorem release_covered_slices_sound (keys : (run.tables.stageSlices.map StageSliceRow.id).Nodup)
    (setKeys : (run.tables.stageSets.map StageSetRow.id).Nodup)
    (sound : Sound (Allowed world hold first) first run) (staged : WellStaged world run.tables)
    {set : StageSetRow} (inSets : set ∈ run.tables.stageSets) {snapshot : SnapshotRow}
    (inSnapshots : snapshot ∈ run.tables.snapshots) (ofSet : snapshot.id = set.snapshotId)
    {unit : UnitRow} {policy : ResolvedPolicy}
    (resolved : unitAndPolicy world first snapshot.unitId = .ok (unit, policy))
    (locations : LocationsMet world hold first snapshot.unitId unit policy) :
    Sound (Allowed world hold first) first (releaseCoveredSlices world set.id
        (copyFloor world policy.copyFloorBase unit.status) run).1 ∧
      Narrowed run.tables (releaseCoveredSlices world set.id
        (copyFloor world policy.copyFloorBase unit.status) run).1.tables := by
  unfold releaseCoveredSlices
  split
  case isTrue => exact ⟨sound, .refl _⟩
  case isFalse candidate =>
    split
    case h_1 => exact ⟨sound, .refl _⟩
    case h_2 free report kept =>
      split
      case isTrue => exact ⟨sound, .refl _⟩
      case isFalse some_free =>
        obtain ⟨range, finished⟩ : holdsARange run.tables set.id = true ∧
            writesFinished run.tables set.id = true := by
          obtain ⟨_, _, found⟩ := List.any_eq_true.mp (Bool.not_eq_false _ ▸ candidate)
          simp only [Bool.and_eq_true, sliceReleaseCandidate] at found
          exact found.2
        have unheld : Unheld world run.tables set.id := by
          obtain ⟨id, member⟩ := List.exists_mem_of_ne_nil free (by simpa using some_free)
          obtain ⟨listed, nothing⟩ := drop_held_ok kept id member
          rw [List.mem_singleton.mp listed] at nothing
          exact nothing
        set floor := max (copyFloor world policy.copyFloorBase unit.status) 1 with isFloor
        set all := sliceCopies run.tables set.id with isAll
        set slices := all.filter fun slice =>
          !(releasedSliceIds run.tables set.id).contains slice.stageSliceId with isSlices
        obtain ⟨tables, short, released⟩ :=
          foldl_release_slice world.now floor slices ⟨run.tables, [], []⟩
        set loop := slices.foldl (releaseSlice world.now floor) ⟨run.tables, [], []⟩ with isLoop
        set cleaned := !all.isEmpty && loop.short.isEmpty with isCleaned
        set after := if cleaned = true then cleanSet loop.tables set.id else loop.tables with isAfter
        have slicesAfter : after.stageSlices =
            run.tables.stageSlices.map (unstagedAt world.now (coveredIds floor slices)) := by
          have same : after.stageSlices = loop.tables.stageSlices := by
            rw [isAfter]
            split <;> rfl
          rw [same, tables]
        have setsAfter : after.stageSets =
            run.tables.stageSets.map (cleanedIn (if cleaned = true then [set.id] else [])) := by
          have before : loop.tables.stageSets = run.tables.stageSets := by rw [tables]
          rw [isAfter]
          split
          · rw [clean_set_eq, before]
          · rw [before, cleaned_in_nil, List.map_id]
        have narrowed : Narrowed run.tables after := by
          refine ⟨unstagedAt world.now (coveredIds floor slices),
            cleanedIn (if cleaned = true then [set.id] else []),
            unstaged_at_clears _ _, cleaned_in_cleans _, ?_⟩
          rw [← slicesAfter, ← setsAfter, isAfter, tables]
          split <;> rfl
        -- the slices the loop released are slices of the set at the floor
        have covered : ∀ slice ∈ run.tables.stageSlices, slice.id ∈ coveredIds floor slices →
            slice.stageSetId = set.id ∧ ∃ copies ∈ all, copies.stageSliceId = slice.id ∧
              floor ≤ copies.copies := by
          intro slice member inIds
          obtain ⟨copies, atFloor, same⟩ := List.mem_map.mp inIds
          obtain ⟨inSlices, meets⟩ := List.mem_filter.mp atFloor
          have inAll := (List.mem_filter.mp inSlices).1
          obtain ⟨row, known, inSet, id⟩ := of_mem_slice_copies inAll
          obtain rfl : row = slice := List.inj_on_of_nodup_map keys known member (id.trans same)
          exact ⟨inSet, copies, inAll, same, by simpa using meets⟩
        have gone : ∀ slice ∈ run.tables.stageSlices, slice ∉ after.stageSlices →
            slice.id ∈ coveredIds floor slices := by
          intro slice member absent
          by_contra outside
          refine absent ?_
          rw [slicesAfter]
          exact List.mem_map.mpr ⟨slice, member, if_neg outside⟩
        have nameless : ∀ slice ∈ after.stageSlices, slice.id ∈ coveredIds floor slices →
            slice.stagingPath = none := by
          intro slice member inIds
          rw [slicesAfter] at member
          obtain ⟨old, _, rfl⟩ := List.mem_map.mp member
          rw [(unstaged_at_clears _ _).id] at inIds
          rw [unstagedAt, if_pos inIds]
        -- a cleaned set has no slice left: each was released now or before
        have emptied : cleaned = true → ∀ slice ∈ after.stageSlices, slice.stageSetId = set.id →
            slice.stagingPath = none := by
          intro isClean slice member inSet
          cases named : slice.stagingPath with
          | none => rfl
          | some path =>
            have known := narrowed.staged member (by rw [named]; rfl)
            obtain ⟨copies, inAll, same⟩ := mem_slice_copies inSets known inSet
            by_cases already : slice.id ∈ releasedSliceIds run.tables set.id
            · obtain ⟨row, listed, id⟩ := List.mem_map.mp already
              obtain ⟨inRows, isReleased⟩ := List.mem_filter.mp listed
              obtain rfl : row = slice := List.inj_on_of_nodup_map keys inRows known id
              rw [staged.released row inRows (Bool.and_eq_true_iff.mp isReleased).2] at named
              cases named
            · have inSlices : copies ∈ slices :=
                List.mem_filter.mpr ⟨inAll, by simpa [same] using already⟩
              have noneShort : loop.short = [] := by
                rw [isCleaned, Bool.and_eq_true, List.isEmpty_iff] at isClean
                exact isClean.2
              rw [short, List.nil_append, List.map_eq_nil_iff, List.filter_eq_nil_iff] at noneShort
              have meets := noneShort copies inSlices
              refine named ▸ nameless slice member (List.mem_map.mpr ⟨copies, ?_, same⟩)
              exact List.mem_filter.mpr ⟨inSlices, by simpa using meets⟩
        have ok : CommitAllowed world hold first run.tables after := by
          refine ⟨?_, ?_, ?_⟩
          · intro slice member absent _ other inSets' same _
            obtain ⟨inSet, copies, inAll, id, meets⟩ := covered slice member (gone slice member absent)
            obtain rfl : other = set :=
              List.inj_on_of_nodup_map setKeys inSets' inSets (same.trans inSet)
            refine ⟨snapshot, inSnapshots, ofSet, .inr ⟨holds_a_range_iff.mp range,
              writes_finished_iff.mp finished, unit, policy, resolved, ⟨copies, inAll, id, ?_⟩,
              locations⟩⟩
            rw [max_comm]
            exact meets
          · intro slice member absent _
            rw [(covered slice member (gone slice member absent)).1]
            exact unheld
          · intro other member new slice listed inSet
            rw [setsAfter] at member
            obtain ⟨old, known, rfl⟩ := List.mem_map.mp member
            rw [(cleaned_in_cleans _).id] at inSet
            by_cases changed : old.id ∈ if cleaned = true then [set.id] else []
            · split at changed
              case isTrue isClean =>
                exact emptied isClean slice listed (inSet.trans (List.mem_singleton.mp changed))
              case isFalse => cases changed
            · rw [cleanedIn, if_neg changed] at new
              exact absurd known new
        have removable : ∀ file ∈ (loop.released.filterMap fun slice => slice.2.map world.fileOf) ++
            (if cleaned = true then (findPrefixOrphans world after set.id).filter fun file =>
              !(loop.released.filterMap fun slice => slice.2.map world.fileOf).contains file
              else []), Allowed world hold first after (.unlink file) := by
          intro file listed slice member path named same
          have known := narrowed.staged member (by rw [named]; rfl)
          rcases List.mem_append.mp listed with own | orphan
          · obtain ⟨entry, inReleased, isFile⟩ := List.mem_filterMap.mp own
            obtain ⟨path', ofEntry, rfl⟩ := Option.map_eq_some_iff.mp isFile
            obtain ⟨row, inRows, inIds, named'⟩ :=
              (released entry inReleased).resolve_left (by simp) path' ofEntry
            have id := staged.own slice known row inRows _ _ named named' same
            rw [nameless slice member (id ▸ inIds)] at named
            cases named
          · split at orphan
            case isFalse => cases orphan
            case isTrue isClean =>
              have inDirectory := (List.mem_filter.mp orphan).1
              rw [narrowed.orphans] at inDirectory
              have inSet := staged.named set.id file inDirectory slice known path named same
              rw [emptied isClean slice member inSet] at named
              cases named
        obtain ⟨finished, same⟩ := @Sound.remove _ _ _ world _ (run.commit after, _)
          (sound.commit ok) removable
        exact ⟨finished, same.symm ▸ narrowed⟩

end Slices

section Gate

variable {world : Surroundings File} {hold : Hold} {tables : Tables}

/-- The unit is at its floor, and short of no target the release waits for. -/
def AtFloor (world : Surroundings File) (hold : Hold) (tables : Tables) (unitId : Int) : Prop :=
  ∃ unit policy, unitAndPolicy world tables unitId = .ok (unit, policy) ∧
    copyFloor world policy.copyFloorBase unit.status ≤
      copyCountExpr tables ⟨.unit unitId true, none⟩ ∧
    LocationsMet world hold tables unitId unit policy

/-- The gate's answer about a unit: a unit judged whole is kept or at its floor; under
`EveryLocation` a unit is held for its locations or short of none. -/
structure Answered (world : Surroundings File) (hold : Hold) (tables : Tables) (gateIds : List Int)
    (judged : Judged) (unitId : Int) : Prop where
  whole : unitId ∈ gateIds → unitId ∈ judged.keptIds ∨ AtFloor world hold tables unitId
  located : hold = .everyLocation → unitId ∈ judged.heldForLocations ∨
    ∃ unit policy, unitAndPolicy world tables unitId = .ok (unit, policy) ∧
      shortOfCopiesAt world tables (.unit unitId true) policy unit.status = []

variable {gateIds : List Int} {judged later : Judged}

theorem Answered.grow {unitId : Int} (answered : Answered world hold tables gateIds judged unitId)
    (kept : judged.keptIds ⊆ later.keptIds)
    (held : judged.heldForLocations ⊆ later.heldForLocations) :
    Answered world hold tables gateIds later unitId :=
  ⟨fun whole => (answered.whole whole).imp_left (kept ·),
    fun waits => (answered.located waits).imp_left (held ·)⟩

theorem judge_unit_answers {unitId : Int}
    (ok : judgeUnit world tables hold gateIds judged unitId = .ok later) :
    judged.keptIds ⊆ later.keptIds ∧ judged.heldForLocations ⊆ later.heldForLocations ∧
      Answered world hold tables gateIds later unitId := by
  unfold judgeUnit at ok
  by_cases skipped : (!gateIds.contains unitId && decide (hold ≠ .everyLocation)) = true
  · rw [if_pos skipped] at ok
    obtain rfl := Except.ok.inj ok
    simp only [Bool.and_eq_true, Bool.not_eq_true', List.contains_eq_mem, decide_eq_false_iff_not,
      decide_eq_true_eq] at skipped
    exact ⟨List.Subset.refl _, List.Subset.refl _, fun whole => absurd whole skipped.1,
      fun waits => absurd waits skipped.2⟩
  rw [if_neg skipped] at ok
  cases resolved : unitAndPolicy world tables unitId with
  | error failed =>
    simp only [resolved, bind, Except.bind] at ok
    cases ok
  | ok found =>
    obtain ⟨unit, policy⟩ := found
    simp only [resolved, bind, Except.bind, pure, Except.pure] at ok
    set shortAt := waitedShort world tables hold unitId unit policy with isShort
    have short : hold = .everyLocation →
        shortAt = shortOfCopiesAt world tables (.unit unitId true) policy unit.status := by
      rintro rfl
      exact isShort
    set noted := (if (decide (hold = .everyLocation) && !shortAt.isEmpty) = true then
      { judged with heldForLocations := judged.heldForLocations ++ [unitId] } else judged)
      with isNoted
    have keptSame : noted.keptIds = judged.keptIds := by
      rw [isNoted]
      split <;> rfl
    have heldGrows : judged.heldForLocations ⊆ noted.heldForLocations := by
      rw [isNoted]
      split
      · exact List.subset_append_left _ _
      · exact List.Subset.refl _
    have located : hold = .everyLocation → unitId ∈ noted.heldForLocations ∨
        ∃ unit policy, unitAndPolicy world tables unitId = .ok (unit, policy) ∧
          shortOfCopiesAt world tables (.unit unitId true) policy unit.status = [] := by
      intro waits
      cases listed : shortAt with
      | nil => exact .inr ⟨unit, policy, resolved, (short waits).symm.trans listed⟩
      | cons first rest => simp [isNoted, waits, listed]
    by_cases whole : gateIds.contains unitId = true
    · simp only [whole, Bool.not_true, Bool.false_eq_true, if_false] at ok
      split at ok
      case isTrue =>
        obtain rfl := Except.ok.inj ok
        refine ⟨?_, heldGrows, fun _ => .inl (by simp), located⟩
        rw [← keptSame]
        exact List.subset_append_left _ _
      case isFalse covered =>
        obtain rfl := Except.ok.inj ok
        simp only [Bool.or_eq_true, decide_eq_true_eq, Bool.not_eq_true', not_or, not_lt,
          Bool.not_eq_false, List.isEmpty_iff] at covered
        exact ⟨keptSame ▸ List.Subset.refl _, heldGrows, fun _ => .inr ⟨unit, policy, resolved,
          covered.1, fun waits => (short waits).symm.trans covered.2⟩, located⟩
    · simp only [whole, Bool.not_false, if_true] at ok
      obtain rfl := Except.ok.inj ok
      exact ⟨keptSame ▸ List.Subset.refl _, heldGrows,
        fun member => absurd (by simpa using member) whole, located⟩

theorem judge_units_answer {unitIds : List Int}
    (ok : unitIds.foldlM (judgeUnit world tables hold gateIds) judged = .ok later) :
    judged.keptIds ⊆ later.keptIds ∧ judged.heldForLocations ⊆ later.heldForLocations ∧
      ∀ unitId ∈ unitIds, Answered world hold tables gateIds later unitId := by
  induction unitIds generalizing judged with
  | nil =>
    obtain rfl := Except.ok.inj ok
    exact ⟨List.Subset.refl _, List.Subset.refl _, fun _ member => by cases member⟩
  | cons unitId rest ih =>
    rw [List.foldlM_cons] at ok
    cases step : judgeUnit world tables hold gateIds judged unitId with
    | error failed =>
      rw [step] at ok
      cases ok
    | ok next =>
      rw [step] at ok
      obtain ⟨kept, held, answered⟩ := judge_unit_answers step
      obtain ⟨keptLater, heldLater, others⟩ := ih ok
      refine ⟨List.Subset.trans kept keptLater, List.Subset.trans held heldLater, fun other member => ?_⟩
      rcases List.mem_cons.mp member with rfl | later
      · exact answered.grow keptLater heldLater
      · exact others other later

/-- A staged candidate of the whole-set release holds no range and is written whole, and its unit is
in the scope. -/
theorem staged_candidate {scope : List Int}
    (keys : (tables.stageSets.map StageSetRow.id).Nodup) {set : StageSetRow}
    (inSets : set ∈ tables.stageSets)
    (candidate : set.id ∈ cleanCandidates tables false (.units scope))
    (staged : set.status = .staged) :
    releaseCandidate tables set.id = true ∧ ∃ snapshot ∈ tables.snapshots,
      snapshot.id = set.snapshotId ∧ snapshot.unitId ∈ scope := by
  obtain ⟨row, listed, same⟩ := List.mem_map.mp candidate
  obtain ⟨known, passes⟩ := List.mem_filter.mp listed
  obtain rfl : row = set := List.inj_on_of_nodup_map keys known inSets same
  simp only [staged, CleanScope.covers, reduceCtorEq, decide_false, decide_true, Bool.false_or,
    Bool.true_and, Bool.and_eq_true, List.any_eq_true, decide_eq_true_eq, List.contains_eq_mem]
    at passes
  exact ⟨passes.2.1, passes.2.2⟩

theorem release_candidate_iff {set : Int} : releaseCandidate tables set = true ↔
    (∃ write ∈ tables.writes, write.stageSetId = set ∧ write.status = .completed) ∧
      ∀ write ∈ tables.writes, write.stageSetId = set →
        write.status = .completed ∨ write.status = .cut := by
  have range : holdsARange tables set = false ↔
      ∀ write ∈ tables.writes, write.stageSetId = set → write.status ≠ .range := by
    rw [← Bool.not_eq_true, holds_a_range_iff]
    simp
  simp only [releaseCandidate, Bool.and_eq_true, Bool.not_eq_true', range, writes_finished_iff,
    List.any_eq_true, decide_eq_true_eq, and_assoc]
  refine and_congr_right fun _ => ⟨fun ⟨finished, noRange⟩ write member inSet => ?_,
    fun finished => ⟨fun write member inSet => ?_, fun write member inSet isRange => ?_⟩⟩
  · have := finished write member inSet
    have := noRange write member inSet
    tauto
  · have := finished write member inSet
    tauto
  · have := finished write member inSet
    rw [isRange] at this
    simp at this

theorem mem_units_judged_whole {unitIds : List Int} {set : StageSetRow} {snapshot : SnapshotRow}
    (inSets : set ∈ tables.stageSets) (inSnapshots : snapshot ∈ tables.snapshots)
    (ofSet : snapshot.id = set.snapshotId) (staged : set.status = .staged)
    (whole : holdsARange tables set.id = false) (member : snapshot.unitId ∈ unitIds) :
    snapshot.unitId ∈ unitsJudgedWhole tables unitIds := by
  refine List.mem_filter.mpr ⟨member, Bool.or_eq_true_iff.mpr (.inr ?_)⟩
  exact List.any_eq_true.mpr ⟨set, inSets, List.any_eq_true.mpr
    ⟨snapshot, inSnapshots, by simp [ofSet, staged, whole]⟩⟩

end Gate

section Release

variable [DecidableEq File] {world : Surroundings File} {hold : Hold} {catalog : Catalog}
  {run : Run File}

/-- A point of the release: what was done is allowed, and only paths and sets went. -/
structure Releasing (world : Surroundings File) (hold : Hold) (first : Tables) (run : Run File) :
    Prop where
  sound : Sound (Allowed world hold first) first run
  narrowed : Narrowed first run.tables

variable {before : Tables} {pair : Int × Int}

theorem Narrowed.slice_keys {after : Tables} (narrowed : Narrowed before after)
    (keys : (before.stageSlices.map StageSliceRow.id).Nodup) :
    (after.stageSlices.map StageSliceRow.id).Nodup := by
  obtain ⟨slices, _, clears, _, rfl⟩ := narrowed
  rw [List.map_map, (funext clears.id : StageSliceRow.id ∘ slices = StageSliceRow.id)]
  exact keys

theorem Narrowed.set_keys {after : Tables} (narrowed : Narrowed before after)
    (keys : (before.stageSets.map StageSetRow.id).Nodup) :
    (after.stageSets.map StageSetRow.id).Nodup := by
  obtain ⟨_, sets, _, cleans, rfl⟩ := narrowed
  rw [List.map_map, (funext cleans.id : StageSetRow.id ∘ sets = StageSetRow.id)]
  exact keys

omit [DecidableEq File] in
theorem Narrowed.unit_and_policy {after : Tables} (narrowed : Narrowed before after)
    (unitId : Int) : unitAndPolicy world after unitId = unitAndPolicy world before unitId := by
  obtain ⟨_, _, _, _, rfl⟩ := narrowed
  rfl

/-- The set is selected with the unit it is of, and the unit is short of no target waited for. -/
structure Selected (world : Surroundings File) (hold : Hold) (first tables : Tables)
    (pair : Int × Int) : Prop where
  of_unit : ∃ set ∈ tables.stageSets, ∃ snapshot ∈ tables.snapshots, set.id = pair.1 ∧
    snapshot.id = set.snapshotId ∧ snapshot.unitId = pair.2
  located : hold = .everyLocation → ∃ unit policy,
    unitAndPolicy world first pair.2 = .ok (unit, policy) ∧
      shortOfCopiesAt world first (.unit pair.2 true) policy unit.status = []

omit [DecidableEq File] in
theorem Selected.narrow {first after : Tables} (narrowed : Narrowed before after)
    (selected : Selected world hold first before pair) :
    Selected world hold first after pair := by
  refine ⟨?_, selected.located⟩
  obtain ⟨set, inSets, snapshot, inSnapshots, id, ofSet, ofUnit⟩ := selected.of_unit
  obtain ⟨_, sets, _, cleans, rfl⟩ := narrowed
  exact ⟨sets set, List.mem_map_of_mem inSets, snapshot, inSnapshots, (cleans.id set).trans id,
    ofSet.trans (cleans.snapshot set).symm, ofUnit⟩

theorem release_selected (staged : WellStaged world catalog.tables)
    (here : Releasing world hold catalog.tables run) {floor : Int}
    (selected : Selected world hold catalog.tables run.tables pair)
    (isFloor : unitCopyFloor world run.tables pair.2 = .ok floor) :
    Sound (Allowed world hold catalog.tables) catalog.tables
        (releaseCoveredSlices world pair.1 floor run).1 ∧
      Narrowed run.tables (releaseCoveredSlices world pair.1 floor run).1.tables := by
  obtain ⟨set, inSets, snapshot, inSnapshots, id, ofSet, ofUnit⟩ := selected.of_unit
  cases resolved : unitAndPolicy world catalog.tables pair.2 with
  | error failed =>
    rw [unitCopyFloor, here.narrowed.unit_and_policy, resolved] at isFloor
    cases isFloor
  | ok found =>
    obtain ⟨unit, policy⟩ := found
    rw [unitCopyFloor, here.narrowed.unit_and_policy, resolved] at isFloor
    obtain rfl := Except.ok.inj isFloor
    have locations : LocationsMet world hold catalog.tables snapshot.unitId unit policy := by
      intro waits
      obtain ⟨unit', policy', resolved', none⟩ := selected.located waits
      rw [resolved] at resolved'
      obtain ⟨rfl, rfl⟩ := Prod.mk.inj (Except.ok.inj resolved')
      rw [ofUnit]
      exact none
    rw [← id]
    exact release_covered_slices_sound (here.narrowed.slice_keys catalog.schema.stage_slice_keys)
      (here.narrowed.set_keys catalog.schema.stage_set_keys) here.sound
      (here.narrowed.well_staged staged) inSets inSnapshots ofSet (ofUnit ▸ resolved) locations

theorem release_ranges_of_releasing (staged : WellStaged world catalog.tables)
    {selection : List (Int × Int)} (here : Releasing world hold catalog.tables run)
    (selected : ∀ pair ∈ selection, Selected world hold catalog.tables run.tables pair)
    (report : CleanReport File) :
    Releasing world hold catalog.tables (releaseRangesOf world selection run report).1 := by
  induction selection generalizing run report with
  | nil => exact here
  | cons pair rest ih =>
    obtain ⟨set, unitId⟩ := pair
    rw [releaseRangesOf]
    split
    case h_1 => exact here
    case h_2 floor isFloor =>
      obtain ⟨sound, narrowed⟩ :=
        release_selected staged here (selected _ List.mem_cons_self) isFloor
      have next : Releasing world hold catalog.tables
          (releaseCoveredSlices world set floor run).1 := ⟨sound, here.narrowed.trans narrowed⟩
      generalize releaseCoveredSlices world set floor run = step at next narrowed
      obtain ⟨after, answer⟩ := step
      cases answer with
      | error failed => exact next
      | ok more =>
        exact ih next (fun pair member =>
          (selected pair (List.mem_cons_of_mem _ member)).narrow narrowed) _

theorem of_staged_sets_holding_a_range {tables : Tables} {ids : List Int}
    (member : pair ∈ stagedSetsHoldingARange tables (.units ids)) :
    pair.2 ∈ ids ∧ ∃ set ∈ tables.stageSets, ∃ snapshot ∈ tables.snapshots, set.id = pair.1 ∧
      snapshot.id = set.snapshotId ∧ snapshot.unitId = pair.2 := by
  obtain ⟨set, inSets, listed⟩ := List.mem_flatMap.mp ((List.mem_insertionSort _).mp member)
  obtain ⟨snapshot, passes, rfl⟩ := List.mem_map.mp listed
  obtain ⟨inSnapshots, passes⟩ := List.mem_filter.mp passes
  simp only [Bool.and_eq_true, decide_eq_true_eq, List.contains_eq_mem] at passes
  exact ⟨passes.2, set, inSets, snapshot, inSnapshots, rfl, passes.1.1.1, rfl⟩

theorem release_ranges_releasing (staged : WellStaged world catalog.tables)
    (here : Releasing world hold catalog.tables run) {released : List Int}
    (located : ∀ unitId ∈ released, hold = .everyLocation → ∃ unit policy,
      unitAndPolicy world catalog.tables unitId = .ok (unit, policy) ∧
        shortOfCopiesAt world catalog.tables (.unit unitId true) policy unit.status = []) :
    Releasing world hold catalog.tables (releaseRanges world (.units released) run).1 := by
  unfold releaseRanges
  split
  case h_1 => exact here
  case h_2 =>
    refine release_ranges_of_releasing staged here (fun pair member => ?_) {}
    obtain ⟨inReleased, ofUnit⟩ := of_staged_sets_holding_a_range member
    exact ⟨ofUnit, located pair.2 inReleased⟩

theorem release_whole_sets_releasing (staged : WellStaged world catalog.tables)
    {unitIds : List Int} {judged : Judged}
    (answered : ∀ unitId ∈ unitIds, Answered world hold catalog.tables
      (unitsJudgedWhole catalog.tables unitIds) judged unitId) :
    Releasing world hold catalog.tables (releaseWholeSets world unitIds
      (unitsJudgedWhole catalog.tables unitIds) judged ⟨catalog.tables, []⟩).1 := by
  have start : Sound (Allowed world hold catalog.tables) catalog.tables
      (⟨catalog.tables, []⟩ : Run File) := ⟨trivial, rfl⟩
  unfold releaseWholeSets
  dsimp only
  generalize isGate : unitsJudgedWhole catalog.tables unitIds = gateIds at answered
  generalize isScope : (if judged.keptIds.isEmpty = true then unitIds
    else gateIds.filter fun unitId => !judged.keptIds.contains unitId) = scope
  split
  case isTrue => exact ⟨start, .refl _⟩
  case isFalse =>
    -- a unit in the scope that is judged whole is at its floor
    have atFloor : ∀ unitId ∈ scope, unitId ∈ gateIds → AtFloor world hold catalog.tables unitId := by
      intro unitId inScope inGate
      have asked : unitId ∈ unitIds := (List.mem_filter.mp (isGate ▸ inGate)).1
      refine ((answered unitId asked).whole inGate).resolve_left fun kept => ?_
      rw [← isScope] at inScope
      split at inScope
      case isTrue none =>
        rw [List.isEmpty_iff.mp none] at kept
        cases kept
      case isFalse => simp [kept] at inScope
    have asked : ∀ unitId ∈ scope, unitId ∈ unitIds := by
      intro unitId inScope
      rw [← isScope] at inScope
      split at inScope
      case isTrue => exact inScope
      case isFalse => exact (List.mem_filter.mp (isGate ▸ (List.mem_filter.mp inScope).1)).1
    have covered : ∀ set ∈ catalog.tables.stageSets,
        set.id ∈ cleanCandidates catalog.tables false (.units scope) → set.status = .staged →
        ∃ snapshot ∈ catalog.tables.snapshots, snapshot.id = set.snapshotId ∧
          CoveredWhole world hold catalog.tables catalog.tables set.id snapshot.unitId := by
      intro set inSets candidate isStaged
      obtain ⟨passes, snapshot, inSnapshots, ofSet, inScope⟩ :=
        staged_candidate catalog.schema.stage_set_keys inSets candidate isStaged
      have noRange : holdsARange catalog.tables set.id = false := by
        simpa using (Bool.and_eq_true_iff.mp passes).2
      obtain ⟨completed, whole⟩ := release_candidate_iff.mp passes
      have inGate := mem_units_judged_whole inSets inSnapshots ofSet isStaged noRange
        (asked _ inScope)
      exact ⟨snapshot, inSnapshots, ofSet, whole, completed, atFloor _ inScope (isGate ▸ inGate)⟩
    obtain ⟨sound, narrowed⟩ := @clean_staging_sound _ _ world hold catalog.tables
      ⟨catalog.tables, []⟩ catalog.schema.stage_slice_keys start staged _ _ covered
    have next : Releasing world hold catalog.tables
        (cleanStaging world false (.units scope) ⟨catalog.tables, []⟩).1 := ⟨sound, narrowed⟩
    generalize cleanStaging world false (.units scope) ⟨catalog.tables, []⟩ = step at next
    obtain ⟨after, answer⟩ := step
    cases answer with
    | error failed => exact next
    | ok report =>
      dsimp only
      split <;> exact next

/-- Staging is released only when covered: whatever the catalog, the units and the hold, every commit
and every unlink of the release is allowed where it is done. -/
theorem release_only_when_covered (world : Surroundings File) (catalog : Catalog)
    (staged : WellStaged world catalog.tables) (unitIds : List Int) (hold : Hold) :
    Sound (Allowed world hold catalog.tables) catalog.tables
      (releaseIfCoveredHolding world unitIds hold ⟨catalog.tables, []⟩).1 := by
  unfold releaseIfCoveredHolding
  dsimp only
  split
  case h_1 => exact ⟨trivial, rfl⟩
  case h_2 judged gate =>
    obtain ⟨_, _, answered⟩ := judge_units_answer gate
    have whole := release_whole_sets_releasing staged answered
    generalize releaseWholeSets world unitIds _ judged ⟨catalog.tables, []⟩ = step at whole
    obtain ⟨after, answer⟩ := step
    cases answer with
    | error failed => exact whole.sound
    | ok names =>
      obtain ⟨cleaned, releasedUnits⟩ := names
      have ranges := @release_ranges_releasing _ _ world hold catalog after staged whole
        (unitIds.filter fun unitId => !judged.heldForLocations.contains unitId) ?_
      · dsimp only
        generalize releaseRanges world _ after = last at ranges
        obtain ⟨finished, slices⟩ := last
        cases slices with
        | error failed => exact ranges.sound
        | ok report => exact ranges.sound
      · intro unitId member waits
        obtain ⟨asked, notHeld⟩ := List.mem_filter.mp member
        refine ((answered unitId asked).located waits).resolve_left fun held => ?_
        simp [held] at notHeld

/-- One location, a floor of one copy, an empty staging directory and nothing held. -/
def floorOfOne : Surroundings String where
  fileOf := id
  listing := fun _ => []
  removal := fun _ => .removed 1
  now := "2026-01-01 00:00:00"
  volumeSessionLive := fun _ => false
  rewriteHolds := .ok []
  resolve := fun _ => .ok ⟨1, []⟩
  locations := []
  tapeOnlySafetyMultiplier := 2

/-- Set 1 spans tape 1, which has its first slice, and tape 2, which has its second. -/
def spanStaged (slices : List StageSliceRow) : Tables where
  units := [⟨1, "unit-1", "photos", .active⟩]
  snapshots := [⟨1, 1, 1, .current⟩]
  stageSets := [⟨1, 1, .staged⟩]
  stageSlices := slices
  volumes := [⟨1, "L1", .sealed, .ok, none, none, none⟩, ⟨2, "L2", .sealed, .ok, none, none, none⟩]
  deposits := []
  writes := [⟨1, 1, 1, 1, .range, true, true⟩, ⟨2, 1, 1, 2, .range, true, true⟩]
  positions := [⟨1, 1, 4, .written⟩, ⟨2, 2, 4, .written⟩]

def spanInStaging : Catalog where
  tables := spanStaged [⟨1, 1, 1, some "a.1.dar.age", none⟩, ⟨2, 1, 2, some "a.2.dar.age", none⟩]
  schema := by constructor <;> decide

theorem release_only_when_covered_span :
    WellStaged floorOfOne spanInStaging.tables ∧
      Sound (Allowed floorOfOne .everyLocation spanInStaging.tables) spanInStaging.tables
        (releaseIfCoveredHolding floorOfOne [1] .everyLocation ⟨spanInStaging.tables, []⟩).1 ∧
      (releaseIfCoveredHolding floorOfOne [1] .everyLocation ⟨spanInStaging.tables, []⟩).1.effects.length
        = 3 := by
  have staged : WellStaged floorOfOne spanInStaging.tables := by
    refine ⟨by decide, ?_, ?_⟩
    · intro slice member other member' path path' named named' same
      obtain rfl : path = path' := same
      have both : ∀ slice ∈ spanInStaging.tables.stageSlices,
          ∀ other ∈ spanInStaging.tables.stageSlices,
          slice.stagingPath = other.stagingPath → slice.id = other.id := by decide
      exact both slice member other member' (named.trans named'.symm)
    · intro set file listed
      have none : findPrefixOrphans floorOfOne spanInStaging.tables set = [] := by
        unfold findPrefixOrphans
        split
        · rfl
        · split
          · rfl
          · split <;> rfl
      rw [none] at listed
      cases listed
  exact ⟨staged, release_only_when_covered floorOfOne spanInStaging staged [1] .everyLocation,
    by decide⟩

def releasedWithAPath : Catalog where
  tables := spanStaged [⟨1, 1, 1, some "a.1.dar.age", some "2025-01-01 00:00:00"⟩,
    ⟨2, 1, 2, some "a.2.dar.age", none⟩]
  schema := by constructor <;> decide

/-- Both slices name one file, and only the first is on a tape. -/
def sharedFile : Catalog where
  tables := { spanStaged [⟨1, 1, 1, some "a.dar.age", none⟩, ⟨2, 1, 2, some "a.dar.age", none⟩] with
    writes := [⟨1, 1, 1, 1, .range, true, true⟩]
    positions := [⟨1, 1, 4, .written⟩] }
  schema := by constructor <;> decide

/-- Set 1 is on tape 1; the slice of set 2, of another unit, names a file that is named for set 1. -/
def foreignFile : Catalog where
  tables := { spanStaged [⟨1, 1, 1, some "a.dar.age", none⟩,
      ⟨2, 2, 1, some "unit-1_v1_s1.2.dar.age", none⟩] with
    units := [⟨1, "unit-1", "photos", .active⟩, ⟨2, "unit-2", "music", .active⟩]
    snapshots := [⟨1, 1, 1, .current⟩, ⟨2, 2, 1, .current⟩]
    stageSets := [⟨1, 1, .staged⟩, ⟨2, 2, .staged⟩]
    writes := [⟨1, 1, 1, 1, .completed, false, false⟩]
    positions := [⟨1, 1, 4, .written⟩] }
  schema := by constructor <;> decide

/-- Without one of the three conditions. The per-slice release skips a slice recorded as released,
whatever it names: its set is cleaned and the slice keeps its path. A file two slices name is unlinked
for the first, and a file named for the set is unlinked with it, while another slice names it. -/
theorem ill_kept_staging_released :
    (let run := (releaseIfCoveredHolding floorOfOne [1] .copyFloor ⟨releasedWithAPath.tables, []⟩).1
      ∃ set ∈ run.tables.stageSets, set ∉ releasedWithAPath.tables.stageSets ∧ set.status = .cleaned ∧
        ∃ slice ∈ run.tables.stageSlices,
          slice.stageSetId = set.id ∧ slice.stagingPath = some "a.1.dar.age") ∧
    (let run := (releaseIfCoveredHolding floorOfOne [1] .copyFloor ⟨sharedFile.tables, []⟩).1
      ∃ slice ∈ run.tables.stageSlices, slice.stagingPath = some "a.dar.age" ∧
        Effect.unlink "a.dar.age" ∈ run.effects) ∧
    (let file := "unit-1_v1_s1.2.dar.age"
      let world : Surroundings String := { floorOfOne with listing := fun _ => [(file, file)] }
      let run := (releaseIfCoveredHolding world [1] .copyFloor ⟨foreignFile.tables, []⟩).1
      ∃ slice ∈ run.tables.stageSlices, slice.stagingPath = some file ∧
        Effect.unlink file ∈ run.effects) := by
  decide

end Release

end Tapectl.Staging
