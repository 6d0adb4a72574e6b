import Tapectl.Pipeline.Steps

/-!
# The write pipeline is transparent

What holds in every state a schedule of the three threads can reach: what `execute` has been given, the
bound on the buffers, that some stage can always go on while `execute` waits for the pipeline, and the
verdict.
-/

namespace Tapectl.Pipeline

open StoredText

/-- The reads so far give the stream `total`: blocks with bytes in them, together a front of its bytes,
and behind all of its bytes the end or the error it has there. -/
def Yields (reads : List ReadResult) (total : Bytes × Ending) : Prop :=
  ∃ (given : List Bytes) (count : Nat),
    reads = given.map .ok ++ List.replicate count total.2.result ∧ [] ∉ given ∧
      given.flatten <+: total.1 ∧ (0 < count → given.flatten = total.1)

theorem Fed.yields {reads : List ReadResult} {rest total : Bytes × Ending}
    (fed : Fed reads rest total) : Yields reads total := by
  obtain ⟨given, count, same, full, whole, _, finished⟩ := fed
  refine ⟨given, count, same, full, ⟨rest.1, whole⟩, fun late => ?_⟩
  rw [← whole, finished late, List.append_nil]

structure Sound (job : Job) (source : List SourceRead) (s : State) : Prop where
  fits : s.reader.Fits job
  known : .withheld ∉ s.readQueue
  holds : ∀ block, s.pipe.current = some block → block ≠ []
  room : ∀ limit, s.store = .reading limit → 0 < limit
  fed : s.store.closed = false → Fed s.reads (s.rest job) (delivered job source)
  yields : Yields s.reads (delivered job source)
  hashed : s.hasher.Sound job source (s.readQueue ++ s.reader.out job s.source)
  told : Told s
  kept : s.buffers ≤ s.allocated
  within : s.allocated ≤ job.pool.maxBuffers
  lossless : s.reader.working → s.hasher.working → s.store.closed = false → s.buffers = s.allocated

theorem read_msgs_payload (job : Job) (remaining : Nat) (source : Bytes × Option IoError) :
    (readMsgs job remaining source).flatMap Msg.payload = source.1.take remaining := by
  have read := blocks_flatten job.pool.chunk_pos (source.1.take remaining)
  rw [readMsgs, List.flatMap_append, List.flatMap_map, List.flatMap_singleton]
  have carried : (blocks job.pool.chunk (source.1.take remaining)).flatMap
      (fun block => (Msg.data block).payload) = source.1.take remaining := by
    simpa [Msg.payload] using read
  rw [carried]
  split
  · split_ifs <;> exact List.append_nil _
  · exact List.append_nil _

theorem start_sound (job : Job) (source : List SourceRead) {free : Nat}
    (room : free ≤ job.pool.maxBuffers) : Sound job source (start job source free) where
  fits := trivial
  known := List.not_mem_nil
  holds := by simp [start]
  room := by simp [start]
  fed := by
    intro _
    have rest : (start job source free).rest job = delivered job source := deliver_hash_read job source
    exact ⟨[], 0, rfl, List.not_mem_nil, congrArg Prod.fst rest, congrArg Prod.snd rest,
      fun late => absurd late (lt_irrefl 0)⟩
  yields := ⟨[], 0, rfl, List.not_mem_nil, List.nil_prefix, fun late => absurd late (lt_irrefl 0)⟩
  hashed := by
    rw [start, Hasher.Sound, Reader.out, List.nil_append, List.nil_append, read_msgs_payload]
  told := by simp [Told, start]
  kept := by simp [start, State.buffers, Reader.buffers, Hasher.buffers, queued, PipeReader.buffers]
  within := room
  lossless := by
    simp [start, State.buffers, Reader.buffers, Hasher.buffers, queued, PipeReader.buffers]

variable {source : List SourceRead}

theorem Counted.sound {job : Job} {s s' : State} (counted : Counted job s s')
    (sound : Sound job source s) (reader : s'.reader.working → s.reader.working)
    (hasher : s'.hasher.working → s.hasher.working) (store : s'.store.closed = s.store.closed) :
    s'.buffers ≤ s'.allocated ∧ s'.allocated ≤ job.pool.maxBuffers ∧
      (s'.reader.working → s'.hasher.working → s'.store.closed = false →
        s'.buffers = s'.allocated) := by
  have kept := counted.kept
  have grows := counted.grows
  have before := sound.kept
  refine ⟨by omega, counted.within sound.within, fun reads hashes opened => ?_⟩
  have now := counted.lossless reads hashes opened
  have earlier := sound.lossless (reader reads) (hasher hashes) (store ▸ opened)
  omega

theorem hasher_sound_front {job : Job} {hasher : Hasher} {fed more : List Msg}
    (sound : hasher.Sound job source (fed ++ more)) :
    hasher.Sound job source fed := by
  have front : ∀ hashed : Bytes, hashed ++ fed.flatMap Msg.payload <+:
      hashed ++ (fed ++ more).flatMap Msg.payload := by
    intro hashed
    rw [List.flatMap_append, ← List.append_assoc]
    exact List.prefix_append _ _
  cases hasher with
  | receiving hashed => exact (front hashed).trans sound
  | forwarding hashed block => exact (front hashed).trans sound
  | sendingLast block actual => exact sound
  | closing msg result => exact sound
  | dropping result => exact sound
  | done result => exact sound

theorem reader_keeps {job : Job} {s s' : State} (sound : Sound job source s)
    (stepped : readStage job s = some s') : Sound job source s' ∧ s'.rank < s.rank := by
  have step := read_stage_step sound.fits stepped
  obtain ⟨hasher, hashQueue, pipe, store, reads⟩ := step.frame
  obtain ⟨kept, within, lossless⟩ := step.counted.sound sound step.working (by rw [hasher]; exact id)
    (by rw [store])
  refine ⟨⟨step.fits, ?_, pipe ▸ sound.holds, store ▸ sound.room, ?_, reads ▸ sound.yields, ?_, ?_,
    kept, within, lossless⟩, step.lower⟩
  · intro withheld
    have unsent := withheld_not_out sound.fits s.source
    rcases step.streams with same | ⟨same, _⟩
    · have mem : .withheld ∈ s.readQueue ++ s.reader.out job s.source :=
        same ▸ List.mem_append_left _ withheld
      exact (List.mem_append.1 mem).elim sound.known unsent
    · exact sound.known (same ▸ withheld)
  · intro opened
    rw [store] at opened
    have fed := sound.fed opened
    rw [State.rest] at fed ⊢
    rw [reads, pipe, hashQueue, hasher]
    rcases step.streams with same | ⟨_, _, gone | gone⟩
    · rw [same]
      exact fed
    · -- the hasher has returned: nothing the reader does reaches the store
      revert gone fed
      cases s.hasher <;> simp [Hasher.gone, Hasher.out]
    · revert gone opened
      cases s.store <;> simp [Store.gone, Store.closed]
  · rw [hasher]
    rcases step.streams with same | ⟨same, none_out, _⟩
    · rw [same]
      exact sound.hashed
    · rw [same, none_out, List.append_nil]
      exact hasher_sound_front sound.hashed
  · rw [Told, hashQueue, pipe, hasher]
    exact sound.told

theorem hasher_keeps {job : Job} {s s' : State} (sound : Sound job source s)
    (stepped : hashStage job s = some s') : Sound job source s' ∧ s'.rank < s.rank := by
  have step := hash_stage_step sound.hashed stepped
  have hashed := hash_stage_sound sound.known sound.hashed stepped
  have told := hash_stage_told sound.hashed sound.told stepped
  obtain ⟨sourceSame, reader, pipe, store, reads⟩ := step.frame
  obtain ⟨kept, within, lossless⟩ := step.counted.sound sound (by rw [reader]; exact id) step.working
    (by rw [store])
  refine ⟨⟨reader ▸ sound.fits, fun withheld => sound.known (step.takes withheld), pipe ▸ sound.holds,
    store ▸ sound.room, ?_, reads ▸ sound.yields, ?_, told, kept, within, lossless⟩, step.lower⟩
  · intro opened
    rw [store] at opened
    rw [State.rest, reads, pipe, reader, sourceSame, step.streams opened]
    exact sound.fed opened
  · rw [reader, sourceSame]
    exact hashed

theorem caller_keeps {job : Job} {s s' : State} (sound : Sound job source s)
    (stepped : callerStep s = some s') : Sound job source s' ∧ s'.rank < s.rank := by
  have step : CallerStep job s s' := caller_step_step sound.holds sound.room stepped
  obtain ⟨sourceSame, reader, readQueue, hasher⟩ := step.frame
  obtain ⟨kept, within, lossless⟩ := step.counted.sound sound (by rw [reader]; exact id)
    (by rw [hasher]; exact id) step.closed
  have fed : s'.store.closed = false → Fed s'.reads (s'.rest job) (delivered job source) := by
    intro opened
    rw [step.closed] at opened
    exact step.fed opened _ (sound.fed opened)
  refine ⟨⟨reader ▸ sound.fits, readQueue ▸ sound.known, step.holds,
    fun limit reading => sound.room limit (step.room limit reading), fed, ?_, ?_, ?_, kept, within,
    lossless⟩, step.lower⟩
  · cases closed : s.store.closed with
    | true => exact step.reads closed ▸ sound.yields
    | false => exact (fed (step.closed.trans closed)).yields
  · rw [hasher, readQueue, reader, sourceSame]
    exact sound.hashed
  · intro withheld
    rw [hasher]
    exact sound.told (step.told withheld)

theorem stage_keeps {job : Job} {s s' : State} (thread : Thread)
    (stepped : stage job s thread = some s') (sound : Sound job source s) :
    Sound job source s' ∧ s'.rank < s.rank := by
  cases thread with
  | reader => exact reader_keeps sound stepped
  | hasher => exact hasher_keeps sound stepped
  | caller => exact caller_keeps sound stepped

theorem execute_keeps {job : Job} {s s' : State} (sound : Sound job source s) {choice : Choice}
    (stepped : execute s choice = some s') : Sound job source s' := by
  unfold execute at stepped
  split at stepped
  · rename_i limit running
    split at stepped
    · rename_i some_room
      cases stepped
      have opened : s.store.closed = false := by rw [running]; rfl
      refine { sound with room := ?_, fed := fun _ => sound.fed opened, lossless := ?_ }
      · rintro _ ⟨⟩
        exact some_room
      · exact fun reader hasher _ => sound.lossless reader hasher opened
    · cases stepped
      exact sound
  · rename_i result running
    cases stepped
    refine { sound with room := ?_, fed := ?_, told := ?_, kept := ?_, lossless := ?_ }
    · simp
    · simp [Store.closed]
    · rintro (queued | told)
      · exact absurd queued List.not_mem_nil
      · exact sound.told (.inr told)
    · have kept := sound.kept
      simp only [State.buffers, queued, List.map_nil, List.sum_nil] at kept ⊢
      omega
    · simp [Store.closed]
  · cases stepped

theorem act_keeps {job : Job} {s s' : State} (action : Action)
    (stepped : act job s action = some s') (sound : Sound job source s) : Sound job source s' := by
  cases action with
  | stage thread => exact (stage_keeps thread stepped sound).1
  | execute choice => exact execute_keeps sound stepped

/-- The reader goes on unless it waits for a buffer, with every buffer of the pool out. -/
theorem reader_waits {job : Job} {s : State} (waits : readStage job s = none) :
    s.reader = .done ∨ (s.reader.working ∧ s.reader.buffers = 0 ∧ s.free = 0 ∧ s.returned = 0 ∧
      s.store.gone = false ∧ job.pool.maxBuffers ≤ s.allocated) := by
  unfold readStage at waits
  split at waits
  · rename_i remaining at_head
    split at waits
    · cases waits
    · unfold take at waits
      split_ifs at waits with free returned gone room
      refine .inr ⟨by rw [at_head]; rfl, by rw [at_head]; rfl, by omega, by omega, ?_, by omega⟩
      simpa using gone
  · cases waits
  · cases waits
  · cases waits
  · cases waits
  · rename_i done
    exact .inl done

theorem hasher_waits {job : Job} {s : State} (waits : hashStage job s = none) :
    (∃ result, s.hasher = .done result) ∨
      ((∃ hashed, s.hasher = .receiving hashed) ∧ s.readQueue = [] ∧ s.reader.gone = false) := by
  unfold hashStage at waits
  split at waits
  · rename_i hashed receiving
    split at waits
    · cases waits
    · rename_i empty
      split at waits
      · cases waits
      · rename_i there
        exact .inr ⟨⟨hashed, receiving⟩, empty, by simpa using there⟩
  · cases waits
  · cases waits
  · cases waits
  · cases waits
  · rename_i result done
    exact .inl ⟨result, done⟩

/-- The calling thread goes on unless `execute` runs, it waits for a message and the hasher is still
there, or it joins. -/
theorem caller_waits {s : State} (waits : callerStep s = none) :
    s.store = .running ∨ (∃ result, s.store = .joining result) ∨
      (s.store.closed = false ∧ s.pipe.buffers = 0 ∧ s.hashQueue = [] ∧ s.hasher.silent = false) := by
  unfold callerStep at waits
  split at waits
  · rename_i limit reading
    unfold pipeRead at waits
    split at waits
    · cases waits
    · cases waits
    · rename_i drained _
      split at waits
      · cases waits
      · split at waits
        · cases waits
        · rename_i empty
          split at waits
          · cases waits
          · rename_i there
            refine .inr (.inr ⟨?_, ?_, empty, by simpa using there⟩)
            · simp [reading, Store.closed]
            · simp [PipeReader.buffers, drained]
  · cases waits
  · rename_i running
    exact .inl running
  · rename_i result joining
    exact .inr (.inl ⟨result, joining⟩)

/-- While `execute` is not running its own code and the stages are not joined, some thread can go on. -/
theorem stage_enabled {job : Job} {s : State} (sound : Sound job source s) :
    s.store = .running ∨ s.streamed.isSome ∨ ∃ thread, (stage job s thread).isSome := by
  by_contra stuck
  simp only [not_or, not_exists, Option.not_isSome_iff_eq_none] at stuck
  obtain ⟨waiting, unfinished, stuck⟩ := stuck
  rcases hasher_waits (stuck .hasher) with ⟨result, returned⟩ | ⟨⟨hashed, receiving⟩, queue, there⟩
  · -- the hasher has returned, so the pipe sees its end and the reader's sends fail
    rcases caller_waits (stuck .caller) with running | ⟨stored, joining⟩ | ⟨_, _, _, silent⟩
    · exact waiting running
    · rcases reader_waits (stuck .reader) with done | ⟨_, _, _, _, there, _⟩
      · simp [State.streamed, joining, done, returned] at unfinished
      · simp [joining, Store.gone] at there
    · simp [returned, Hasher.silent] at silent
  · rcases reader_waits (stuck .reader) with done | ⟨reads, empty, free, back, opened, full⟩
    · simp [done, Reader.gone] at there
    · rcases caller_waits (stuck .caller) with running | ⟨stored, joining⟩ | ⟨closed, pipe, sent, _⟩
      · exact waiting running
      · simp [joining, Store.gone] at opened
      · -- all buffers are out, and no one has one
        have all_out := sound.lossless reads (by rw [receiving]; rfl) closed
        have held : s.hasher.buffers = 0 := by rw [receiving]; rfl
        have two := job.pool.two_buffers
        simp only [State.buffers, free, back, empty, queue, held, sent, pipe, queued, List.map_nil,
          List.sum_nil] at all_out
        omega

theorem streamed_spec {s : State} {streamed : Streamed} (returned : s.streamed = some streamed) :
    s.hasher = .done streamed.sha256 ∧ s.pipe.withheld = streamed.withheld := by
  unfold State.streamed at returned
  split at returned
  · rename_i hashed
    cases returned
    exact ⟨hashed, rfl⟩
  · cases returned

theorem verdict_reached {job : Job} {s : State} (sound : Sound job source s) {streamed : Streamed}
    (returned : s.streamed = some streamed) :
    (streamed.verdict job.expected).isSome := by
  obtain ⟨hasher, withheld⟩ := streamed_spec returned
  unfold Streamed.verdict
  split
  · rename_i told
    have hash := sound.told (.inr (withheld.trans told))
    rw [hasher, Hasher.result] at hash
    simpa using hash
  · split
    · rfl
    · split <;> rfl
    · rfl

theorem verdict_written {job : Job} {s : State} (sound : Sound job source s) {streamed : Streamed}
    (returned : s.streamed = some streamed) {actual : String}
    (written : streamed.verdict job.expected = some (.written actual)) :
    (∃ count, streamed.store = .ok count) ∧ job.expected = some actual ∧
      Complete job source actual := by
  obtain ⟨hasher, _⟩ := streamed_spec returned
  have hashed := sound.hashed
  rw [hasher] at hashed
  unfold Streamed.verdict at written
  split at written
  · simp at written
  · split at written
    · cases written
    · rename_i count hash stored found
      split at written
      · rename_i matching
        cases written
        exact ⟨⟨count, stored⟩, matching, hashed _ found⟩
      · cases written
    · cases written

theorem write_pipeline_transparent (job : Job) (source : List SourceRead) (free : Nat)
    (room : free ≤ job.pool.maxBuffers) (schedule : List Action) (s : State)
    (ran : Machine.run (act job) (start job source free) schedule = some s) :
    Yields s.reads (delivered job source) ∧
    s.buffers ≤ job.pool.maxBuffers ∧
    (s.store = .running ∨ s.streamed.isSome ∨ ∃ thread, (stage job s thread).isSome) ∧
    Acc (fun next state => ∃ thread, stage job state thread = some next) s ∧
    ∀ streamed, s.streamed = some streamed →
      ∃ verdict, streamed.verdict job.expected = some verdict ∧
        ∀ actual, verdict = .written actual →
          (∃ count, streamed.store = .ok count) ∧ job.len ≤ (yielded source).1.length ∧
            job.expected = some (job.sha256 ((yielded source).1.take job.len)) := by
  have sound : Sound job source s := Machine.run_keeps (act job) act_keeps ran (start_sound job source room)
  refine ⟨sound.yields, sound.kept.trans sound.within, stage_enabled sound, ?_, ?_⟩
  · exact Machine.runs_end (stage job) State.rank stage_keeps sound
  · intro streamed returned
    obtain ⟨verdict, reached⟩ := Option.isSome_iff_exists.1 (verdict_reached sound returned)
    refine ⟨verdict, reached, ?_⟩
    rintro actual rfl
    obtain ⟨stored, matching, read, hash⟩ := verdict_written sound returned reached
    exact ⟨stored, read, hash ▸ matching⟩

/-- Three bytes in two blocks, with an interruption in the first: the store reads them to the end and
the file is written. -/
theorem write_pipeline_transparent_three_bytes :
    let job : Job := ⟨.new 2 2, fun bytes => if bytes = [1, 2, 3] then "abc" else "", 3, some "abc"⟩
    let source : List SourceRead := [.bytes [1], .interrupted, .bytes [2, 3]]
    let turn : List Action := [.execute (.read 2), .stage .caller, .stage .caller]
    let schedule : List Action :=
      List.replicate 12 (.stage .reader) ++ List.replicate 6 (.stage .hasher) ++ turn ++ turn ++ turn ++
        [.execute (.finish (.ok 3)), .stage .caller]
    ∃ s, Machine.run (act job) (start job source 0) schedule = some s ∧
      delivered job source = ([1, 2, 3], .ended) ∧ Yields s.reads (delivered job source) ∧
        s.buffers ≤ 2 ∧ s.reads.length = 3 ∧
        (∃ streamed, s.streamed = some streamed ∧
          streamed.verdict job.expected = some (.written "abc")) := by
  intro job source turn schedule
  have runs : ((Machine.run (act job) (start job source 0) schedule).map fun s =>
      (s.reads.length, s.streamed.map fun streamed => streamed.verdict job.expected)) =
        some (3, some (some (.written "abc"))) := by
    decide +kernel
  obtain ⟨s, ran, seen⟩ := Option.map_eq_some_iff.1 runs
  rw [Prod.mk.injEq, Option.map_eq_some_iff] at seen
  obtain ⟨yields, buffers, _⟩ :=
    write_pipeline_transparent job source 0 (Nat.zero_le _) schedule s ran
  exact ⟨s, ran, by decide +kernel, yields, buffers, seen.1, seen.2⟩

end Tapectl.Pipeline
