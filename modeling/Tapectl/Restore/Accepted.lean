import Tapectl.Restore.Delivery

/-!
# What a slice read is accepted for

`read_slice` over any cartridges, reads, sink and operator: what the sink has is authentic in every
case, what is accepted without damage was shown to be the slice, and what is accepted at all has the
slice's length, unless an output remembered as complete but unproven was begun anew or dropped.
-/

namespace Tapectl.Restore

open StoredText Effects SliceOut Supply

variable {Digest : Type}

section Outputs

variable {files : AgeFiles} {encrypted : Nat} {out : SliceOut}

theorem begin_attempt_same (out : SliceOut) :
    ∃ attempts plain unhashed, out.beginAttempt = { out with attempts, plain, unhashed } ∧
      (plain = out.plain ∨ plain = some [] ∧ out.delivered = 0) := by
  unfold beginAttempt
  dsimp only
  split
  · split
    · next empty => exact ⟨_, _, _, rfl, .inr ⟨rfl, empty⟩⟩
    · exact ⟨_, _, _, rfl, .inl rfl⟩
  · exact ⟨_, _, _, rfl, .inl rfl⟩

theorem begin_attempt_ready (ready : Ready files encrypted out) :
    Ready files encrypted out.beginAttempt := by
  obtain ⟨attempts, plain, unhashed, same, isPlain⟩ := begin_attempt_same out
  have kept := ready.kept
  rw [same]
  refine ⟨⟨kept.authentic, kept.books, kept.whole, kept.short, ?_, kept.fresh⟩, ready.alive,
    ready.solid, ready.tied, ready.loose⟩
  intro bytes hashed alive
  dsimp only at hashed alive
  rcases isPlain with rfl | ⟨rfl, empty⟩
  · exact kept.hashed bytes hashed alive
  · have nothing : out.kept = [] := List.length_eq_zero_iff.mp ((kept.whole alive).trans empty)
    rw [nothing]
    exact (Option.some.inj hashed).symm

theorem reset_source (out : SliceOut) : out.reset.source = out.source := by
  unfold reset SliceOut.discard
  cases out.sink <;> rfl

theorem reset_kept (kept : out.Kept files) (spooled : out.sink = .file) :
    out.reset.Kept files := by
  have books := kept.books
  unfold reset SliceOut.discard
  rw [spooled]
  refine ⟨?_, books, fun _ => rfl, Nat.le_refl _, nofun, fun _ _ => rfl⟩
  intro place byte found
  cases found

theorem reset_ready (ready : Ready files encrypted out) (spooled : out.sink = .file) :
    Ready files encrypted out.reset := by
  have kept := reset_kept ready.kept spooled
  have alive := ready.alive
  unfold reset SliceOut.discard at kept ⊢
  rw [spooled] at kept ⊢
  exact ⟨kept, alive, rfl, nofun, fun _ => rfl⟩

theorem not_stream {out : SliceOut} (streamed : ¬ out.sink = .stream) : out.sink = .file := by
  cases isSink : out.sink with
  | file => rfl
  | stream => exact absurd isSink streamed

/-- A read brought the output to the length of the file it is filled from. -/
def Full (encrypted : Nat) (out : SliceOut) : Prop :=
  ∃ header, out.source = some header ∧ (out.bound = none ∨ out.bound = some header) ∧
    out.delivered = totalOf encrypted header

/-- Nothing began or dropped the output since it was last complete but unproven. -/
def StillUnproven (out : SliceOut) : Prop := out.history.getLast? = some .unproven

/-- A read of the file the output is filled from has more to give. -/
def Short (encrypted : Nat) (out : SliceOut) : Prop :=
  ∀ header, out.source = some header →
    lastOf encrypted header ≤ tagLen ∨ out.delivered < totalOf encrypted header

structure Logged (encrypted : Nat) (out : SliceOut) : Prop where
  standing : StillUnproven out → Full encrypted out
  otherwise : ¬ StillUnproven out → Short encrypted out

variable {header : Bytes} {mode : Mode}

theorem total_of_pos (tag : tagLen < lastOf encrypted header) :
    0 < totalOf encrypted header := by
  unfold totalOf
  omega

theorem reset_logged (out : SliceOut) : Logged encrypted out.reset := by
  have dropped : ¬ StillUnproven out.reset := by simp [StillUnproven, reset]
  refine ⟨fun standing => absurd standing dropped, fun _ header _ => ?_⟩
  rcases Nat.lt_or_ge tagLen (lastOf encrypted header) with some_plain | none_plain
  · exact .inr (total_of_pos some_plain)
  · exact .inl none_plain

theorem begin_attempt_logged (logged : Logged encrypted out) : Logged encrypted out.beginAttempt := by
  obtain ⟨attempts, plain, unhashed, same, _⟩ := begin_attempt_same out
  rw [same]
  exact ⟨logged.standing, logged.otherwise⟩

theorem Landed.ready {ended : Ended} {after : SliceOut} (ready : Ready files encrypted out)
    (landed : Landed files encrypted header .strict out ended after) (alive : after.gone = false) :
    Ready files encrypted after := by
  have done := landed.done alive
  refine ⟨done.filling.kept, alive, (done.solid rfl).trans ready.solid, ?_, ?_⟩
  · intro found isBound
    rcases done.filling.bound with ⟨unbound, _⟩ | own
    · rw [unbound] at isBound
      cases isBound
    · have same : header = found := Option.some.inj (own.symm.trans isBound)
      exact ⟨same ▸ done.grew.source, same ▸ done.within⟩
  · intro unbound
    rcases done.filling.bound with ⟨_, empty⟩ | own
    · exact empty
    · rw [own] at unbound
      cases unbound

theorem Landed.history {ended : Ended} {after : SliceOut}
    (landed : Landed files encrypted header mode out ended after) (alive : after.gone = false) :
    out.bound = none ∧ ¬ StillUnproven after ∨
      out.bound = some header ∧ after.history = out.history := by
  have history := (landed.done alive).grew.history
  unfold filledFrom at history
  rcases landed.bound with unbound | isBound
  · refine .inl ⟨unbound, ?_⟩
    rw [StillUnproven, history]
    simp [unbound]
  · exact .inr ⟨isBound, by simpa [isBound] using history⟩

/-- A read of the file a complete output is of leaves it complete. -/
theorem Landed.still_full {ended : Ended} {after : SliceOut} (ready : Ready files encrypted out)
    (landed : Landed files encrypted header mode out ended after) (alive : after.gone = false)
    (isBound : out.bound = some header) (full : Full encrypted out) : Full encrypted after := by
  obtain ⟨found, isSource, _, whole⟩ := full
  have same : found = header := Option.some.inj (isSource.symm.trans (ready.tied header isBound).1)
  subst same
  have done := landed.done alive
  have more : out.delivered ≤ after.delivered := done.more
  exact ⟨found, done.grew.source, done.filling.bound.imp_left And.left,
    Nat.le_antisymm done.within (whole ▸ more)⟩

theorem Landed.logged {ended : Ended} {after : SliceOut} (ready : Ready files encrypted out)
    (logged : Logged encrypted out)
    (landed : Landed files encrypted header .strict out ended after) (alive : after.gone = false)
    (stopped : ended.stopped = true) : Logged encrypted after := by
  have done := landed.done alive
  have short : Short encrypted after := by
    intro found isSource
    have same : header = found := Option.some.inj (done.grew.source.symm.trans isSource)
    exact same ▸ (done.stuck stopped).2
  rcases landed.history alive with ⟨_, begun⟩ | ⟨isBound, history⟩
  · exact ⟨fun standing => absurd standing begun, fun _ => short⟩
  · refine ⟨fun standing => ?_, fun _ => short⟩
    rw [StillUnproven, history] at standing
    exact landed.still_full ready alive isBound (logged.standing standing)

theorem Landed.full {ended : Ended} {after : SliceOut}
    (landed : Landed files encrypted header mode out ended after) (alive : after.gone = false)
    (ran : ended.stopped = false) : Full encrypted after :=
  ⟨header, (landed.done alive).grew.source, (landed.done alive).filling.bound.imp_left And.left,
    (landed.done alive).all ran alive⟩

end Outputs

section Acceptance

variable {world : World Digest} {wp : WritePositionInfo Digest} {files : AgeFiles}

/-- Some read of the slice starts with this header. -/
def Gives (world : World Digest) (wp : WritePositionInfo Digest) (header : Bytes) : Prop :=
  ∃ turn volume position,
    world.crypto.header ((world.read turn volume position).1.take (encrypted wp)) = some header

/-- What leaves no room for a complete output to be replaced by less: every read is of one file; or
the slice is spooled and its plaintext has a checksum, which says at once whether it is complete; or
it is streamed, where nothing is dropped, and every file that is read has plaintext. -/
inductive Steady (world : World Digest) (wp : WritePositionInfo Digest) (sink : SliceSink) : Prop
  | oneFile (header : Bytes) (only : ∀ found, Gives world wp found → found = header)
  | checked (spooled : sink = .file) (recorded : wp.sha256Plain.isSome = true)
  | streamed (isStream : sink = .stream)
      (filled : ∀ found, Gives world wp found → 0 < totalOf (encrypted wp) found)

structure Fetched (world : World Digest) (wp : WritePositionInfo Digest) (out : SliceOut) : Prop where
  given : ∀ header, out.source = some header → Gives world wp header
  hashes : out.sink = .file → out.unhashed = false

theorem begin_attempt_fetched {out : SliceOut} (fetched : Fetched world wp out) :
    Fetched world wp out.beginAttempt := by
  unfold beginAttempt
  dsimp only
  split
  · next streamed =>
    have notFile : ¬ out.sink = .file := by simp [streamed.2.1]
    split <;> exact ⟨fetched.given, fun isFile => absurd isFile notFile⟩
  · exact ⟨fetched.given, fetched.hashes⟩

theorem reset_fetched {out : SliceOut} (fetched : Fetched world wp out) :
    Fetched world wp out.reset := by
  refine ⟨fun header isSource => fetched.given header ?_, fun _ => rfl⟩
  rwa [reset_source] at isSource

variable {header : Bytes} {damage : List Damage} {mid : Supply Digest} {raw : Raw Digest}
  {fail : Refusal → Supply Digest → Prop} {memory : Memory}

theorem Landed.fetched {out after : SliceOut} {ended : Ended} {mode : Mode}
    (fetched : Fetched world wp out) (gives : Gives world wp header)
    (landed : Landed files (encrypted wp) header mode out ended after)
    (alive : after.gone = false) :
    Fetched world wp after := by
  have grew := (landed.done alive).grew
  refine ⟨?_, ?_⟩
  · intro found isSource
    have same : header = found := Option.some.inj (grew.source.symm.trans isSource)
    exact same ▸ gives
  · intro isFile
    rw [grew.unhashed]
    exact fetched.hashes (grew.sink.symm.trans isFile)

/-- What a failed attempt does to an output some earlier one left complete but unproven. -/
structure Calmed (world : World Digest) (wp : WritePositionInfo Digest) (before after : SliceOut) :
    Prop where
  sink : after.sink = before.sink
  source : before.source.isSome = true → after.source.isSome = true
  full : Steady world wp before.sink →
    ¬ (before.sink = .file ∧ wp.sha256Plain.isSome = true) → Full (encrypted wp) before →
    Full (encrypted wp) after

theorem Calmed.trans {a b c : SliceOut} (first : Calmed world wp a b) (second : Calmed world wp b c) :
    Calmed world wp a c :=
  ⟨second.sink.trans first.sink, fun some_source => second.source (first.source some_source),
    fun steady unchecked full => second.full (first.sink ▸ steady) (first.sink ▸ unchecked)
      (first.full steady unchecked full)⟩

theorem begin_attempt_calmed (out : SliceOut) : Calmed world wp out out.beginAttempt := by
  obtain ⟨attempts, plain, unhashed, same, _⟩ := begin_attempt_same out
  rw [same]
  exact ⟨rfl, id, fun _ _ => id⟩

theorem reset_calmed {out : SliceOut}
    (unsteady : Steady world wp out.sink → ¬ (out.sink = .file ∧ wp.sha256Plain.isSome = true) → False) :
    Calmed world wp out out.reset := by
  refine ⟨?_, fun some_source => by rwa [reset_source], fun steady unchecked _ =>
    (unsteady steady unchecked).elim⟩
  cases isSink : out.sink <;> simp [reset, SliceOut.discard, isSink]

/-- The output is dropped for another file only where two files are read into a spooled slice. -/
theorem other_file_unsteady {out : SliceOut} (ready : Ready files (encrypted wp) out)
    (fetched : Fetched world wp out) (spooled : out.sink = .file) (gives : Gives world wp header)
    (begun : out.bound ≠ none) (other : out.bound ≠ some header)
    (steady : Steady world wp out.sink) :
    out.sink = .file ∧ wp.sha256Plain.isSome = true := by
  obtain ⟨found, isBound⟩ := Option.ne_none_iff_exists'.mp begun
  cases steady with
  | oneFile only isOnly =>
    have own := isOnly found (fetched.given found (ready.tied found isBound).1)
    rw [isBound, own, isOnly header gives] at other
    exact absurd rfl other
  | checked _ recorded => exact ⟨spooled, recorded⟩
  | streamed isStream _ =>
    rw [spooled] at isStream
    cases isStream

theorem Landed.calmed {out after : SliceOut} {ended : Ended} {mode : Mode}
    (ready : Ready files (encrypted wp) out) (fetched : Fetched world wp out)
    (gives : Gives world wp header)
    (landed : Landed files (encrypted wp) header mode out ended after)
    (alive : after.gone = false) :
    Calmed world wp out after := by
  have done := landed.done alive
  refine ⟨done.grew.sink, fun _ => by rw [done.grew.source]; rfl, fun steady unchecked full => ?_⟩
  rcases landed.bound with unbound | isBound
  swap
  · exact landed.still_full ready alive isBound full
  -- a complete output that is bound to no file is empty
  obtain ⟨found, isSource, _, whole⟩ := full
  rw [ready.loose unbound] at whole
  cases steady with
  | oneFile only isOnly =>
    have same : found = header :=
      (isOnly found (fetched.given found isSource)).trans (isOnly header gives).symm
    subst same
    have within := done.within
    exact ⟨found, done.grew.source, done.filling.bound.imp_left And.left, by omega⟩
  | checked spooled recorded => exact absurd ⟨spooled, recorded⟩ unchecked
  | streamed _ filled =>
    have some_plain := filled found (fetched.given found isSource)
    omega

/-- What was written was shown to be the slice: by a read of the file it is bound to that hashes as
recorded, or by its own checksum. -/
def Shown (crypto : Crypto Digest) (wp : WritePositionInfo Digest) (out : SliceOut) : Prop :=
  (∃ given header, crypto.sha256 given = wp.sha256Encrypted ∧ given.length ≤ encrypted wp ∧
    crypto.header given = some header ∧ header.length + tagLen ≤ encrypted wp ∧
    (out.bound = none ∧ out.delivered = 0 ∨ out.bound = some header) ∧
    out.delivered = totalOf (encrypted wp) header) ∨
  wp.sha256Plain = some (crypto.sha256 out.kept)

structure Accepted (crypto : Crypto Digest) (wp : WritePositionInfo Digest) (files : AgeFiles)
    (out : SliceOut) : Prop where
  authentic : out.Authentic files
  whole : out.kept.length = out.delivered
  solid : out.holes = []
  full : Full (encrypted wp) out
  shown : Shown crypto wp out

/-- The output of a slice that was settled, with the damage recorded for it next to what there was. -/
structure Settled (crypto : Crypto Digest) (wp : WritePositionInfo Digest) (files : AgeFiles)
    (damage : List Damage) (supply : Supply Digest) : Prop where
  authentic : supply.out.Authentic files
  kept : supply.out.gone = false → supply.out.Kept files
  full : supply.out.gone = false → Full (encrypted wp) supply.out
  accepted : supply.out.gone = false → supply.damage = damage → Accepted crypto wp files supply.out

theorem Accepted.settled {supply : Supply Digest} (kept : supply.out.Kept files)
    (accepted : Accepted world.crypto wp files supply.out) :
    Settled world.crypto wp files damage supply :=
  ⟨accepted.authentic, fun _ => kept, fun _ => accepted.full, fun _ _ => accepted⟩

theorem settled_of_gone {supply : Supply Digest} (authentic : supply.out.Authentic files)
    (gone : supply.out.gone = true) :
    Settled world.crypto wp files damage supply :=
  ⟨authentic, by simp [gone], by simp [gone], by simp [gone]⟩

variable [DecidableEq Digest]

set_option linter.unusedSectionVars false

theorem provePlaintext_whole {out : SliceOut} (kept : out.Kept files) (alive : out.gone = false)
    (whole : provePlaintext world wp out = .whole) :
    wp.sha256Plain = some (world.crypto.sha256 out.kept) := by
  unfold provePlaintext at whole
  split at whole
  · cases whole
  next recorded isRecorded =>
  split at whole
  next plain isHashed =>
    have same : plain = out.kept := by
      unfold SliceOut.hashed at isHashed
      split at isHashed
      · cases isHashed
      · split at isHashed
        · next running isPlain =>
          cases isHashed
          exact kept.hashed _ isPlain (kept.books ▸ alive)
        · exact (Option.some.inj isHashed).symm
        · cases isHashed
    split at whole
    · next matched => rw [isRecorded, ← matched, same]
    · cases whole
  · cases whole

structure Read (world : World Digest) (wp : WritePositionInfo Digest) (files : AgeFiles) (mode : Mode)
    (before : Supply Digest) (raw : Raw Digest) (after : Supply Digest) : Prop where
  damage : after.damage = before.damage
  refused : ∀ refusal, raw.ended = .error refusal → after.out.Authentic files
  left : ∀ ended, raw.ended = .ok ended →
    after.out = before.out.beginAttempt ∧ (ended.openError.isSome = true ∨
      ended.openError = none ∧ ended.sinkGone = false ∧ ended.otherFile = true ∧
        ∃ header, Gives world wp header ∧ before.out.beginAttempt.bound ≠ none ∧
          before.out.beginAttempt.bound ≠ some header) ∨
    ∃ given header, given.length ≤ encrypted wp ∧ world.crypto.header given = some header ∧
      Gives world wp header ∧
      (raw.hashOk = true → world.crypto.sha256 given = wp.sha256Encrypted) ∧
      Landed files (encrypted wp) header mode before.out.beginAttempt ended after.out

variable {supply : Supply Digest}

theorem on_out_spec {Value : Type} {run : Sink Value} {post : Value → SliceOut → Prop}
    {fail : Refusal → SliceOut → Prop}
    (spec : Spec supply.out run post fail) :
    Spec supply (onOut run)
      (fun value state => ∃ after, state = withOut after supply ∧ post value after)
      (fun error state => ∃ after, state = withOut after supply ∧ fail error after) :=
  Spec.zoom spec

theorem attempt_raw_spec (ideal : Ideal world.crypto files)
    (ready : Ready files (encrypted wp) supply.out) (position : Nat) (mode : Mode) :
    Spec supply (attemptRaw world wp position mode)
      (fun raw after => Read world wp files mode supply raw after)
      (fun _ after => after.out.Authentic files) := by
  refine Spec.modify_bind (Spec.get_bind ?_)
  dsimp only
  refine Spec.modify_bind (Spec.bind (Spec.attempted (on_out_spec
    (decrypt_chunks_spec ideal (begin_attempt_ready ready) _))) fun ended after result =>
      Spec.pure ?_)
  cases ended with
  | error refusal =>
    obtain ⟨out, rfl, authentic⟩ := result
    exact ⟨rfl, fun _ _ => authentic, nofun⟩
  | ok ended =>
    obtain ⟨out, rfl, left⟩ := result
    refine ⟨rfl, nofun, ?_⟩
    rintro _ ⟨⟩
    rcases left with ⟨same, notOpened | ⟨opened, here, other, header, isHeader, differs⟩⟩ |
      ⟨header, isHeader, landed⟩
    · exact .inl ⟨same, .inl notOpened⟩
    · exact .inl ⟨same, .inr ⟨opened, here, other, header, ⟨_, _, _, isHeader⟩, differs⟩⟩
    · exact .inr ⟨_, header, List.length_take_le _ _, isHeader, ⟨_, _, _, isHeader⟩,
        of_decide_eq_true, landed⟩

/-- An output between two attempts of the loop. -/
structure Held (world : World Digest) (wp : WritePositionInfo Digest) (files : AgeFiles)
    (out : SliceOut) : Prop where
  ready : Ready files (encrypted wp) out
  fetched : Fetched world wp out
  logged : Logged (encrypted wp) out

def Judged (world : World Digest) (wp : WritePositionInfo Digest) (files : AgeFiles)
    (before : Supply Digest) (verdict : Attempt) (after : Supply Digest) : Prop :=
  match verdict with
  | .complete =>
    after.damage = before.damage ∧ after.out.Kept files ∧ Accepted world.crypto wp files after.out
  | .sinkGone => after.out.Authentic files ∧ after.out.gone = true
  | .stopped _ =>
    after.damage = before.damage ∧ Held world wp files after.out ∧
      Calmed world wp before.out after.out
  | .unproven _ _ =>
    after.damage = before.damage ∧ Ready files (encrypted wp) after.out ∧
      Fetched world wp after.out ∧ Full (encrypted wp) after.out ∧
      after.out.sink = before.out.sink ∧
      ¬ (after.out.sink = .file ∧ wp.sha256Plain.isSome = true)

theorem Judged.after {after : Supply Digest} {verdict : Attempt}
    (judged : Judged world wp files mid verdict after) (damage : mid.damage = supply.damage)
    (calmed : Calmed world wp supply.out mid.out) :
    Judged world wp files supply verdict after := by
  cases verdict with
  | complete => exact ⟨judged.1.trans damage, judged.2⟩
  | sinkGone => exact judged
  | stopped defect => exact ⟨judged.1.trans damage, judged.2.1, calmed.trans judged.2.2⟩
  | unproven defect why =>
    obtain ⟨isDamage, ready, fetched, full, sink, unchecked⟩ := judged
    exact ⟨isDamage.trans damage, ready, fetched, full, sink.trans calmed.sink, unchecked⟩

/-- A spooled slice with a recorded checksum is never left unproven. -/
theorem prove_plaintext_unproven {out : SliceOut} {why : Why} (fetched : Fetched world wp out)
    (unproven : provePlaintext world wp out = .unproven why) :
    ¬ (out.sink = .file ∧ wp.sha256Plain.isSome = true) := by
  rintro ⟨spooled, recorded⟩
  obtain ⟨checksum, isChecksum⟩ := Option.isSome_iff_exists.mp recorded
  have hashed : ∃ plain, out.hashed = some plain := by
    unfold SliceOut.hashed
    rw [fetched.hashes spooled, spooled]
    cases out.plain with
    | none => exact ⟨_, rfl⟩
    | some running => exact ⟨_, rfl⟩
  obtain ⟨plain, isPlain⟩ := hashed
  unfold provePlaintext at unproven
  rw [isChecksum, isPlain] at unproven
  dsimp only at unproven
  split at unproven <;> cases unproven

theorem prove_plaintext_wrong {out : SliceOut} (wrong : provePlaintext world wp out = .wrong) :
    wp.sha256Plain.isSome = true := by
  unfold provePlaintext at wrong
  split at wrong
  · cases wrong
  · next isChecksum =>
    rw [isChecksum]
    rfl

theorem judge_read_spec (ready : Ready files (encrypted wp) supply.out)
    (fetched : Fetched world wp supply.out) (full : Full (encrypted wp) supply.out)
    (hashOk : raw.hashOk = true → Shown world.crypto wp supply.out) :
    Spec supply (judgeRead world wp raw) (Judged world wp files supply)
      (fun _ after => after.out.Authentic files) := by
  have accept : Shown world.crypto wp supply.out → Judged world wp files supply .complete supply :=
    fun shown => ⟨rfl, ready.kept, ready.kept.authentic,
      ready.kept.whole (ready.kept.books ▸ ready.alive), ready.solid, full, shown⟩
  unfold judgeRead
  by_cases isOk : raw.hashOk = true
  · rw [if_pos isOk]
    refine Spec.pure ?_
    exact accept (hashOk isOk)
  rw [if_neg isOk]
  cases isDefect : raw.defect with
  | none =>
    unfold Raw.defect at isDefect
    rw [if_neg isOk] at isDefect
    split at isDefect <;> cases isDefect
  | some defect =>
    refine Spec.get_bind ?_
    cases proof : provePlaintext world wp supply.out with
    | whole =>
      refine Spec.pure ?_
      exact accept (.inr (provePlaintext_whole ready.kept ready.alive proof))
    | wrong =>
      dsimp only
      by_cases streamed : supply.out.sink = .stream
      · rw [if_pos streamed]
        refine Spec.throw ?_
        exact ready.kept.authentic
      · rw [if_neg streamed]
        refine Spec.modify_bind (Spec.pure ?_)
        have spooled := not_stream streamed
        exact ⟨rfl, ⟨reset_ready ready spooled, reset_fetched fetched, reset_logged _⟩,
          reset_calmed fun _ unchecked => unchecked ⟨spooled, prove_plaintext_wrong proof⟩⟩
    | unproven why =>
      refine Spec.pure ?_
      exact ⟨rfl, ready, fetched, full, rfl, prove_plaintext_unproven fetched proof⟩

theorem sink_gone_spec {tailDamaged : Bool} :
    Spec supply (sinkGone wp raw tailDamaged)
      (fun _ after => after.out = supply.out) (fun _ after => after.out.Authentic files) := by
  unfold sinkGone
  split
  · refine Spec.modify ?_
    rfl
  · refine Spec.pure ?_
    rfl

theorem attempt_spec (ideal : Ideal world.crypto files) (held : Held world wp files supply.out)
    (position resets : Nat) :
    Spec supply (attempt world wp position resets)
      (Judged world wp files supply) (fun _ after => after.out.Authentic files) := by
  induction resets generalizing supply with
  | zero =>
    refine Spec.throw ?_
    exact held.ready.kept.authentic
  | succ resets ih =>
    refine Spec.bind (attempt_raw_spec ideal held.ready position .strict) fun raw mid read => ?_
    have begun := begin_attempt_ready held.ready
    have fetched := begin_attempt_fetched held.fetched
    have logged := begin_attempt_logged held.logged
    have calmed := @begin_attempt_calmed _ world wp supply.out
    cases isEnded : raw.ended with
    | error refusal =>
      refine Spec.throw ?_
      exact read.refused refusal isEnded
    | ok ended =>
      dsimp only
      rcases read.left ended isEnded with
        ⟨same, how⟩ | ⟨given, header, short, isHeader, gives, hashOk, landed⟩
      · -- a read that left the output alone
        rw [← same] at begun fetched logged calmed
        have stopped : ∀ defect, Judged world wp files supply (.stopped defect) mid :=
          fun _ => ⟨read.damage, ⟨begun, fetched, logged⟩, calmed⟩
        have fails : mid.out.Authentic files := begun.kept.authentic
        rcases how with notOpened | ⟨opened, here, other, header, gives, isBegun, differs⟩
        · obtain ⟨error, isError⟩ := Option.isSome_iff_exists.mp notOpened
          rw [isError]
          cases raw.defect with
          | some defect => exact Spec.pure (stopped defect)
          | none => exact Spec.throw fails
        rw [opened]
        dsimp only
        rw [here, if_neg (by decide), other, if_pos rfl]
        split
        swap
        · exact Spec.pure (stopped _)
        refine Spec.get_bind ?_
        by_cases spooled : mid.out.sink = .file
        · rw [if_pos spooled]
          rw [← same] at isBegun differs
          have dropped : Calmed world wp mid.out mid.out.reset := reset_calmed fun steady unchecked =>
            unchecked (other_file_unsteady begun fetched spooled gives isBegun differs steady)
          have heldReset : Held world wp files mid.dropOut.out :=
            ⟨reset_ready begun spooled, reset_fetched fetched, reset_logged _⟩
          refine Spec.modify_bind (Spec.weaken (ih heldReset)
            ?_ (fun _ _ fails => fails))
          intro verdict after judged
          exact judged.after read.damage (calmed.trans dropped)
        · rw [if_neg spooled]
          exact Spec.throw fails
      · rw [landed.opened]
        dsimp only
        rw [landed.sinkGone]
        by_cases gone : mid.out.gone = true
        · rw [if_pos gone]
          exact Spec.bind sink_gone_spec fun _ _ isOut =>
            Spec.pure ⟨isOut ▸ landed.authentic, isOut ▸ gone⟩
        have alive : mid.out.gone = false := by simpa using gone
        have readyMid := landed.ready begun alive
        have fetchedMid := landed.fetched fetched gives alive
        have calmedMid := calmed.trans (landed.calmed begun fetched gives alive)
        rw [if_neg gone, landed.same_file, if_neg (by decide)]
        split
        · next isStopped =>
          refine Spec.pure ?_
          exact ⟨read.damage, ⟨readyMid, fetchedMid, landed.logged begun logged alive isStopped⟩,
            calmedMid⟩
        next ran =>
        have full := landed.full alive (by simpa using ran)
        refine Spec.weaken (judge_read_spec readyMid fetchedMid full ?_)
          (fun _ _ judged => judged.after read.damage calmedMid) (fun _ _ fails => fails)
        intro isOk
        exact .inl ⟨given, header, hashOk isOk, short, isHeader, landed.long,
          (landed.done alive).filling.bound, (landed.done alive).all (by simpa using ran) alive⟩

theorem supplied_for_spec (cause : Option (String × Defect)) :
    Spec supply (suppliedFor wp cause)
      (fun _ after => after.out = supply.out ∧ after.damage = supply.damage) fail := by
  unfold suppliedFor
  split
  · refine Spec.modify ?_
    unfold supplied
    split <;> exact ⟨rfl, rfl⟩
  · refine Spec.pure ?_
    exact ⟨rfl, rfl⟩

theorem record_damage_settled {volume : String} {holes : List (Nat × Nat)}
    (authentic : supply.out.Authentic files)
    (kept : supply.out.gone = false → supply.out.Kept files)
    (full : supply.out.gone = false → Full (encrypted wp) supply.out)
    (same : supply.damage = damage) :
    Settled world.crypto wp files damage (recordDamage wp volume holes supply) := by
  refine ⟨authentic, kept, full, fun _ damaged => ?_⟩
  unfold recordDamage at damaged
  simp [same] at damaged

theorem salvage_wrong_spec {label : String} (kept : supply.out.Kept files)
    (full : Full (encrypted wp) supply.out) :
    Spec supply (salvageWrong world wp label)
      (fun _ after => Settled world.crypto wp files supply.damage after)
      (fun _ after => after.out.Authentic files) := by
  refine Spec.get_bind ?_
  by_cases streamed : supply.out.sink = .stream
  · rw [if_pos streamed]
    exact Spec.throw kept.authentic
  rw [if_neg streamed]
  have empty := reset_kept kept (not_stream streamed)
  refine Spec.modify_bind (Spec.bind (Spec.weaken (on_out_spec (hole_spec world.fed empty ?_))
    (fun _ _ post => post) ?_) fun _ _ holed => ?_)
  · intro hole isHole
    cases isHole
  · rintro _ _ ⟨after, rfl, authentic⟩
    exact authentic
  · refine Spec.modify ?_
    obtain ⟨after, rfl, keptAfter, grew, bound, _, delivered⟩ := holed
    obtain ⟨header, isSource, _, whole⟩ := full
    refine record_damage_settled keptAfter.authentic (fun _ => keptAfter) (fun _ => ?_) rfl
    refine ⟨header, (grew.source.trans (reset_source _)).trans isSource, .inl bound, ?_⟩
    exact delivered.trans (by rw [show supply.dropOut.out.delivered = 0 from rfl, whole, Nat.zero_add])

theorem salvage_end_spec {ended : Ended} {label : String} {cause : Option (String × Defect)}
    {before : SliceOut} {given : Bytes}
    (landed : Landed files (encrypted wp) header .tolerant before ended supply.out)
    (short : given.length ≤ encrypted wp) (isHeader : world.crypto.header given = some header)
    (hashOk : raw.hashOk = true → world.crypto.sha256 given = wp.sha256Encrypted) :
    Spec supply (salvageEnd world wp raw ended label cause supply.out.holes)
      (fun _ after => Settled world.crypto wp files supply.damage after)
      (fun _ after => after.out.Authentic files) := by
  have kept : supply.out.gone = false → supply.out.Kept files :=
    fun alive => (landed.done alive).filling.kept
  have full : supply.out.gone = false → Full (encrypted wp) supply.out :=
    fun alive => landed.full alive ((landed.done alive).tolerant rfl)
  have damaged : ∀ holes, Spec supply (change (recordDamage wp label holes))
      (fun _ after => Settled world.crypto wp files supply.damage after)
      (fun _ after => after.out.Authentic files) := by
    intro holes
    refine Spec.modify ?_
    exact record_damage_settled landed.authentic kept full rfl
  unfold salvageEnd
  split
  · exact damaged _
  next solid =>
  rw [landed.sinkGone]
  by_cases gone : supply.out.gone = true
  · rw [if_pos gone]
    split
    · exact damaged _
    · exact Spec.pure (settled_of_gone landed.authentic gone)
  rw [if_neg gone]
  have alive : supply.out.gone = false := by simpa using gone
  have noHoles : supply.out.holes = [] := by simpa using solid
  have accept : Shown world.crypto wp supply.out →
      Spec supply (suppliedFor wp cause)
        (fun _ after => Settled world.crypto wp files supply.damage after)
        (fun _ after => after.out.Authentic files) := by
    intro shown
    refine Spec.weaken (supplied_for_spec cause) ?_ (fun _ _ fails => fails)
    rintro _ after ⟨isOut, _⟩
    refine Accepted.settled (isOut ▸ kept alive) ?_
    rw [isOut]
    exact ⟨landed.authentic, (kept alive).whole ((kept alive).books ▸ alive), noHoles, full alive, shown⟩
  split
  · next isOk =>
    exact accept (.inl ⟨given, header, hashOk isOk, short, isHeader, landed.long,
      (landed.done alive).filling.bound,
      (landed.done alive).all ((landed.done alive).tolerant rfl) alive⟩)
  refine Spec.get_bind ?_
  cases proof : provePlaintext world wp supply.out with
  | whole => exact accept (.inr (provePlaintext_whole (kept alive) alive proof))
  | wrong => exact salvage_wrong_spec (kept alive) (full alive)
  | unproven why => exact damaged _

theorem salvage_spec (ideal : Ideal world.crypto files)
    (ready : Ready files (encrypted wp) supply.out) (resets : Nat)
    (first : Option (String × Defect)) :
    Spec supply (salvage world wp resets first)
      (fun _ after => Settled world.crypto wp files supply.damage after)
      (fun _ after => after.out.Authentic files) := by
  induction resets generalizing supply first with
  | zero => exact Spec.throw ready.kept.authentic
  | succ resets ih =>
    refine Spec.get_bind ?_
    cases supply.lastPosition with
    | none => exact Spec.throw ready.kept.authentic
    | some position =>
      refine Spec.bind (attempt_raw_spec ideal ready position .tolerant)
        fun raw mid read => Spec.get_bind ?_
      have begun := begin_attempt_ready ready
      cases isEnded : raw.ended with
      | error refusal => exact Spec.throw (read.refused refusal isEnded)
      | ok ended =>
        dsimp only
        rcases read.left ended isEnded with
          ⟨same, how⟩ | ⟨given, header, short, isHeader, _, hashOk, landed⟩
        · have readyMid : Ready files (encrypted wp) mid.out := same ▸ begun
          have fails : mid.out.Authentic files := readyMid.kept.authentic
          rcases how with notOpened | ⟨opened, _, other, _⟩
          · obtain ⟨error, isError⟩ := Option.isSome_iff_exists.mp notOpened
            rw [isError]
            exact Spec.throw fails
          rw [opened]
          dsimp only
          rw [other, if_pos rfl]
          split
          · next again =>
            refine Spec.modify_bind ?_
            rw [← read.damage]
            exact ih (reset_ready readyMid again.2) _
          · exact Spec.throw fails
        · rw [landed.opened]
          dsimp only
          rw [landed.same_file, if_neg (by decide), ready.solid, ← read.damage]
          exact salvage_end_spec landed short isHeader hashOk

def Elsewhere (before after : Supply Digest) : Prop :=
  after.out = before.out ∧ after.damage = before.damage

theorem own_position_spec :
    Spec supply (ownPosition wp) (fun _ after => after = supply)
      (fun _ after => after = supply) := by
  unfold ownPosition
  split
  · exact Spec.pure rfl
  · exact Spec.throw rfl

theorem choose_spec (tried awaitingProof : Bool) :
    Spec supply (choose world wp tried awaitingProof)
      (fun _ after => after = supply) (fun _ after => after = supply) := by
  refine Spec.get_bind ?_
  dsimp only
  split
  · split
    · exact Spec.pure rfl
    · exact own_position_spec
  · split
    · exact own_position_spec
    · split
      · split <;> exact Spec.pure rfl
      · exact Spec.pure rfl

theorem change_to_spec (holder : Holder) (skippable : Bool) :
    Spec supply (changeTo world holder skippable)
      (fun _ after => Elsewhere supply after) (fun _ after => Elsewhere supply after) := by
  refine Spec.get_bind (Spec.modify_bind ?_)
  split
  · exact Spec.modify_bind (Spec.pure ⟨rfl, rfl⟩)
  · split
    · exact Spec.modify_bind (Spec.pure ⟨rfl, rfl⟩)
    · split <;> exact Spec.throw ⟨rfl, rfl⟩
  · exact Spec.throw ⟨rfl, rfl⟩
  · exact Spec.throw ⟨rfl, rfl⟩

structure Turning (world : World Digest) (wp : WritePositionInfo Digest) (files : AgeFiles)
    (sink : SliceSink) (damage : List Damage) (memory : Memory) (supply : Supply Digest) : Prop where
  held : Held world wp files supply.out
  damage : supply.damage = damage
  ofSink : supply.out.sink = sink
  remembered : memory.unproven.isSome = true → supply.out.source.isSome = true ∧
    ¬ (sink = .file ∧ wp.sha256Plain.isSome = true) ∧
    (Steady world wp sink → Full (encrypted wp) supply.out)

variable {sink : SliceSink}

theorem Turning.elsewhere {after : Supply Digest}
    (turning : Turning world wp files sink damage memory supply) (same : Elsewhere supply after) :
    Turning world wp files sink damage memory after := by
  obtain ⟨out, isDamage⟩ := same
  exact ⟨out ▸ turning.held, isDamage.trans turning.damage, out ▸ turning.ofSink,
    out ▸ turning.remembered⟩

def Left (world : World Digest) (wp : WritePositionInfo Digest) (files : AgeFiles)
    (sink : SliceSink) (damage : List Damage) (left : Option Memory) (supply : Supply Digest) : Prop :=
  match left with
  | none => Settled world.crypto wp files damage supply
  | some memory => Turning world wp files sink damage memory supply

theorem mark_bad_same (wp : WritePositionInfo Digest) (supply : Supply Digest) :
    Elsewhere supply (markBad wp supply) := by
  unfold markBad
  split <;> exact ⟨rfl, rfl⟩

theorem mark_hash_bad_same (wp : WritePositionInfo Digest) (supply : Supply Digest) :
    Elsewhere supply (markHashBad wp supply) := by
  unfold markHashBad
  split <;> exact ⟨rfl, rfl⟩

theorem note_failure_spec (defect : Defect) (unproven : Bool) (memory : Memory) :
    Spec supply (noteFailure wp defect unproven memory)
      (fun noted after => after.damage = supply.damage ∧
        after.out = (if unproven = true then supply.markUnproven.out else supply.out) ∧
        (unproven = false → noted.unproven = memory.unproven)) fail := by
  refine Spec.get_bind (Spec.modify_bind (Spec.modify_bind (Spec.modify_bind (Spec.pure ?_))))
  obtain ⟨out, damage⟩ := mark_bad_same wp supply
  have hashed : Elsewhere supply
      (if defect = .hash then markHashBad wp (markBad wp supply) else markBad wp supply) := by
    split
    · obtain ⟨out', damage'⟩ := mark_hash_bad_same wp (markBad wp supply)
      exact ⟨out'.trans out, damage'.trans damage⟩
    · exact ⟨out, damage⟩
  obtain ⟨out', damage'⟩ := hashed
  cases unproven with
  | false => exact ⟨damage', out', fun _ => rfl⟩
  | true =>
    refine ⟨damage', ?_, nofun⟩
    simp only [if_true, markUnproven, out']

theorem turning_stopped {noted : Memory} {after : Supply Digest}
    (turning : Turning world wp files sink damage memory supply)
    (same : mid.damage = supply.damage) (held : Held world wp files mid.out)
    (calmed : Calmed world wp supply.out mid.out)
    (noting : after.damage = mid.damage ∧ after.out = mid.out ∧ noted.unproven = memory.unproven) :
    Turning world wp files sink damage noted after := by
  obtain ⟨isDamage, isOut, isMemory⟩ := noting
  refine ⟨isOut ▸ held, isDamage.trans (same.trans turning.damage), ?_, ?_⟩
  · rw [isOut, calmed.sink, turning.ofSink]
  · intro remembered
    rw [isMemory] at remembered
    obtain ⟨some_source, unchecked, full⟩ := turning.remembered remembered
    rw [isOut]
    refine ⟨calmed.source some_source, unchecked, fun steady => ?_⟩
    have still := calmed.full
    rw [turning.ofSink] at still
    exact still steady unchecked (full steady)

theorem turning_unproven {noted : Memory} {after : Supply Digest} (same : mid.damage = damage)
    (ready : Ready files (encrypted wp) mid.out) (fetched : Fetched world wp mid.out)
    (full : Full (encrypted wp) mid.out) (isSink : mid.out.sink = sink)
    (unchecked : ¬ (mid.out.sink = .file ∧ wp.sha256Plain.isSome = true))
    (noting : after.damage = mid.damage ∧ after.out = mid.markUnproven.out) :
    Turning world wp files sink damage noted after := by
  obtain ⟨isDamage, isOut⟩ := noting
  have kept := ready.kept
  have standing : StillUnproven mid.markUnproven.out := by simp [StillUnproven, markUnproven]
  refine ⟨?_, isDamage.trans same, by rw [isOut]; exact isSink, fun _ => ?_⟩
  · rw [isOut]
    exact ⟨⟨⟨kept.authentic, kept.books, kept.whole, kept.short, kept.hashed, kept.fresh⟩,
      ready.alive, ready.solid, ready.tied, ready.loose⟩, ⟨fetched.given, fetched.hashes⟩,
      fun _ => full, fun otherwise => absurd standing otherwise⟩
  · rw [isOut]
    refine ⟨?_, isSink ▸ unchecked, fun _ => full⟩
    obtain ⟨header, isSource, _⟩ := full
    exact Option.isSome_iff_exists.mpr ⟨header, isSource⟩

theorem fill_loop_spec (ideal : Ideal world.crypto files) (sole : Bool) (turns : Nat)
    (turning : Turning world wp files sink damage memory supply) :
    Spec supply (fillLoop world wp sole turns memory)
      (Left world wp files sink damage) (fun _ after => after.out.Authentic files) := by
  have failing : ∀ {supply : Supply Digest} {memory : Memory},
      Turning world wp files sink damage memory supply → ∀ after, Elsewhere supply after →
        after.out.Authentic files :=
    fun turning after same => (turning.elsewhere same).held.ready.kept.authentic
  induction turns generalizing supply memory with
  | zero => exact Spec.throw turning.held.ready.kept.authentic
  | succ turns ih =>
    -- the loop goes on from a failure or is left
    have goOn : ∀ {mid : Supply Digest} {noted : Memory} (defect : Defect),
        Turning world wp files sink damage noted mid →
        Spec mid
          (if defect.substitutable = true then fillLoop world wp sole turns noted
            else pure (some noted))
          (Left world wp files sink damage) (fun _ after => after.out.Authentic files) := by
      intro mid noted defect next
      split
      · exact ih next
      · exact Spec.pure next
    refine Spec.bind (Spec.weaken (choose_spec memory.tried memory.unproven.isSome)
      (fun _ _ same => same) ?_) fun choice now same => ?_
    · rintro _ after rfl
      exact turning.held.ready.kept.authentic
    subst same
    cases choice with
    | here position =>
      refine Spec.modify_bind ?_
      have here : Turning world wp files sink damage memory { now with lastPosition := some position } :=
        turning.elsewhere ⟨rfl, rfl⟩
      split
      · exact Spec.pure ⟨here.held, here.damage, here.ofSink, here.remembered⟩
      refine Spec.bind (attempt_spec ideal here.held position 2) fun verdict mid judged => ?_
      cases verdict with
      | complete =>
        exact Spec.bind (supplied_for_spec memory.first) fun _ _ same => Spec.pure
          (Accepted.settled (same.1 ▸ judged.2.1) (same.1 ▸ judged.2.2))
      | sinkGone => exact Spec.pure (settled_of_gone judged.1 judged.2)
      | stopped defect =>
        obtain ⟨same, heldMid, calmed⟩ := judged
        refine Spec.bind (note_failure_spec defect false _) fun noted after noting => ?_
        obtain ⟨isDamage, isOut, isMemory⟩ := noting
        exact goOn defect (turning_stopped here same heldMid calmed ⟨isDamage, isOut, isMemory rfl⟩)
      | unproven defect why =>
        obtain ⟨same, ready, fetched, full, isSink, unchecked⟩ := judged
        refine Spec.bind (note_failure_spec defect true _) fun noted after noting => ?_
        obtain ⟨isDamage, isOut, _⟩ := noting
        exact goOn defect (turning_unproven (same.trans here.damage) ready fetched full
          (isSink.trans here.ofSink) unchecked ⟨isDamage, isOut⟩)
    | next holder =>
      dsimp only
      split
      swap
      · exact Spec.throw turning.held.ready.kept.authentic
      refine Spec.bind (Spec.weaken (change_to_spec holder false)
        (fun _ _ same => same) (fun _ => failing turning)) fun changed after same => ?_
      cases changed with
      | loaded => exact ih (turning.elsewhere same)
      | declined =>
        exact Spec.throw ((turning.elsewhere same).held.ready.kept.authentic)
    | elsewhere holder =>
      dsimp only
      split
      swap
      · exact Spec.throw turning.held.ready.kept.authentic
      refine Spec.bind (Spec.weaken (change_to_spec holder true)
        (fun _ _ same => same) (fun _ => failing turning)) fun changed after same => ?_
      cases changed with
      | loaded => exact ih (turning.elsewhere same)
      | declined => exact Spec.pure (turning.elsewhere same)
    | nowhere => exact Spec.pure turning

/-- Complete outputs were remembered, and the one there is was begun or dropped since. -/
def LeftStale (left : Option Memory) (out : SliceOut) : Prop :=
  (left.bind Memory.unproven).isSome = true ∧ ¬ StillUnproven out

/-- How long an accepted output is, next to the file it is filled from. -/
def Measured (encrypted : Nat) (stale : Prop) (out : SliceOut) : Prop :=
  ∃ header, out.source = some header ∧ (out.bound = none ∨ out.bound = some header) ∧
    out.delivered ≤ totalOf encrypted header ∧
    (¬ stale → out.delivered = totalOf encrypted header) ∧
    (stale → lastOf encrypted header ≤ tagLen ∨ out.delivered < totalOf encrypted header)

theorem Full.measured {encrypted : Nat} {out : SliceOut} {stale : Prop} (full : Full encrypted out)
    (fresh : ¬ stale) : Measured encrypted stale out := by
  obtain ⟨header, isSource, bound, whole⟩ := full
  exact ⟨header, isSource, bound, whole.le, fun _ => whole, fun isStale => absurd isStale fresh⟩

structure Filled (world : World Digest) (wp : WritePositionInfo Digest) (files : AgeFiles)
    (sink : SliceSink) (damage : List Damage) (stale : Prop) (supply : Supply Digest) : Prop where
  authentic : supply.out.Authentic files
  whole : supply.out.gone = false → supply.out.kept.length = supply.out.delivered
  measured : supply.out.gone = false → Measured (encrypted wp) stale supply.out
  steady : supply.out.gone = false → Steady world wp sink → Full (encrypted wp) supply.out
  accepted : supply.out.gone = false → supply.damage = damage →
    Accepted world.crypto wp files supply.out

theorem Turning.measured {stale : Prop} (turning : Turning world wp files sink damage memory supply)
    (remembered : memory.unproven.isSome = true) (isStale : stale ↔ ¬ StillUnproven supply.out) :
    Measured (encrypted wp) stale supply.out := by
  obtain ⟨header, isSource⟩ := Option.isSome_iff_exists.mp (turning.remembered remembered).1
  have ready := turning.held.ready
  have bound : supply.out.bound = none ∨ supply.out.bound = some header := by
    cases isBound : supply.out.bound with
    | none => exact .inl rfl
    | some found =>
      have same := Option.some.inj ((ready.tied found isBound).1.symm.trans isSource)
      exact .inr (by rw [same])
  refine ⟨header, isSource, bound, ?_, ?_, ?_⟩
  · rcases bound with unbound | isBound
    · rw [ready.loose unbound]
      exact Nat.zero_le _
    · exact (ready.tied header isBound).2
  · intro fresh
    rw [isStale, not_not] at fresh
    obtain ⟨found, isFound, _, whole⟩ := turning.held.logged.standing fresh
    rw [whole, Option.some.inj (isFound.symm.trans isSource)]
  · intro stale
    exact turning.held.logged.otherwise (isStale.mp stale) header isSource

theorem settle_spec (ideal : Ideal world.crypto files) {left : Option Memory}
    (isLeft : Left world wp files sink damage left supply) :
    Spec supply (settle world wp left)
      (fun _ after => (after.out.gone = false → after.out.Kept files) ∧
        Filled world wp files sink damage (LeftStale left supply.out) after)
      (fun _ after => after.out.Authentic files) := by
  have whole : ∀ out : SliceOut, out.Kept files → out.gone = false → out.kept.length = out.delivered :=
    fun out kept alive => kept.whole (kept.books ▸ alive)
  have settled : ∀ after, ¬ LeftStale left supply.out → Settled world.crypto wp files damage after →
      (after.out.gone = false → after.out.Kept files) ∧
        Filled world wp files sink damage (LeftStale left supply.out) after :=
    fun after fresh settled => ⟨settled.kept, settled.authentic,
      fun alive => whole _ (settled.kept alive) alive,
      fun alive => (settled.full alive).measured fresh, fun alive _ => settled.full alive,
      settled.accepted⟩
  cases left with
  | none =>
    refine Spec.pure ?_
    exact settled _ (by simp [LeftStale]) isLeft
  | some memory =>
    have turning : Turning world wp files sink damage memory supply := isLeft
    unfold settle
    dsimp only
    split
    · next volume remembered =>
      refine Spec.modify ?_
      have isSome : memory.unproven.isSome = true := by simp [remembered]
      have damaged : (recordDamage wp volume [] supply).damage ≠ damage := by
        unfold recordDamage
        simp [turning.damage]
      have kept := turning.held.ready.kept
      exact ⟨fun _ => kept, kept.authentic, whole _ kept,
        fun _ => turning.measured isSome (by simp [LeftStale, isSome]),
        fun _ => (turning.remembered isSome).2.2, fun _ same => absurd same damaged⟩
    · next forgotten =>
      refine Spec.weaken (salvage_spec ideal turning.held.ready 2 memory.first) ?_
        (fun _ _ fails => fails)
      intro _ after isSettled
      exact settled after (by simp [LeftStale, forgotten]) (turning.damage ▸ isSettled)

theorem sole_copy_spec :
    Spec supply (soleCopy world wp) (fun _ after => Elsewhere supply after)
      fail := by
  refine Spec.get_bind ?_
  split
  · exact Spec.pure ⟨rfl, rfl⟩
  · split
    · exact Spec.pure ⟨rfl, rfl⟩
    · refine Spec.modify_bind (Spec.pure ?_)
      exact ⟨rfl, rfl⟩

theorem try_cartridges_spec (ideal : Ideal world.crypto files) (turns : Nat)
    (turning : Turning world wp files sink supply.damage ⟨none, none, false⟩ supply) :
    Spec supply (tryCartridges world wp turns)
      (Left world wp files sink supply.damage) (fun _ after => after.out.Authentic files) := by
  refine Spec.modify_bind (Spec.bind sole_copy_spec fun sole start same => ?_)
  have started := turning.elsewhere (⟨same.1, same.2⟩ : Elsewhere supply start)
  exact fill_loop_spec ideal sole turns started

/-- The loop over the cartridges left a complete output remembered as unproven, and what was there by
then had been begun anew or dropped. -/
def Stale (world : World Digest) (wp : WritePositionInfo Digest) (turns : Nat)
    (supply : Supply Digest) : Prop :=
  ∃ left after, tryCartridges world wp turns supply = .ok left after ∧ LeftStale left after.out

theorem fill_slice_spec (ideal : Ideal world.crypto files) (turns : Nat)
    (turning : Turning world wp files sink supply.damage ⟨none, none, false⟩ supply) :
    Spec supply (fillSlice world wp turns)
      (fun _ after => (after.out.gone = false → after.out.Kept files) ∧
        Filled world wp files sink supply.damage (Stale world wp turns supply) after)
      (fun _ after => after.out.Authentic files) := by
  refine Spec.bind (try_cartridges_spec ideal turns turning).ran fun left mid tried => ?_
  obtain ⟨isLeft, ran⟩ := tried
  have isStale : Stale world wp turns supply ↔ LeftStale left mid.out := by
    constructor
    · rintro ⟨other, after, ranToo, stale⟩
      cases ran.symm.trans ranToo
      exact stale
    · exact fun stale => ⟨left, mid, ran, stale⟩
  rw [propext isStale]
  exact settle_spec ideal isLeft

end Acceptance

end Tapectl.Restore
