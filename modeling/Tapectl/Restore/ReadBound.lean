import Tapectl.Restore.Accepted

/-!
# How often a slice is read

A cartridge that failed a slice is usable again once another delivered past its failure, and what is
delivered falls back to nothing when a wrong file is dropped. Every failed attempt still raises one
number: over the volumes that may hold the slice, where each failed it, less what is delivered. A
volume is attempted when its failure lies below what is delivered; afterwards its failure is what is
delivered, so the two changes of the delivered count cancel and the old failure is gone for a larger.
-/

namespace Tapectl.Restore

open StoredText Effects

variable {Digest : Type}

/-- A chunk is its plaintext and a tag. -/
def Exact (crypto : Crypto Digest) : Prop :=
  ∀ header index last chunk plain, crypto.decrypt header index last chunk = some plain →
    plain.length + tagLen = chunk.length

/-- The chunks that this many bytes are, their header counted with them. -/
def sliceChunks (encrypted : Nat) : Nat := (encrypted + encryptedChunk - 1) / encryptedChunk

def mostPlain (encrypted : Nat) : Nat := sliceChunks encrypted * chunkLen

theorem open_chunks_few {crypto : Crypto Digest} {src : Bytes} {encrypted : Nat} {reader : ChunkReader}
    (opened : openChunks crypto src encrypted = .ok reader) :
    reader.index = 0 ∧ reader.chunks ≤ sliceChunks encrypted ∧ reader.lastLen ≤ encryptedChunk := by
  unfold openChunks at opened
  split at opened
  · cases opened
  next header _ =>
  split at opened
  · cases opened
  split at opened
  · cases opened
  dsimp only at opened
  split at opened
  · cases opened
  split at opened
  · cases opened
  cases opened
  refine ⟨rfl, Nat.div_le_div_right (by omega), ?_⟩
  simp only [encryptedChunk, chunkLen, tagLen]
  omega

section Delivering

variable {fed : Nat → Fed} {out : SliceOut}

def Counted (refusal : Refusal) : Prop := refusal ≠ .outOfTurns

instance (refusal : Refusal) : Decidable (Counted refusal) := inferInstanceAs (Decidable (_ ≠ _))

namespace SliceOut

theorem open_sink_count :
    Spec out (openSink fed)
      (fun _ after => after.delivered = out.delivered)
      (fun refusal after => Counted refusal ∧ after.delivered = out.delivered) := by
  unfold Spec openSink
  by_cases ready : out.opened = true ∨ out.dropping = true
  · rw [if_pos ready]
  rw [if_neg ready]
  cases out.sink with
  | file => cases fed out.feeds <;> simp [Counted]
  | stream =>
    dsimp only
    by_cases noSlice : out.sliceNumber < 0 ∨ 2 ^ 32 ≤ out.sliceNumber
    · rw [if_pos noSlice]
      simp [Counted]
    · rw [if_neg noSlice]
      cases fed out.feeds <;> simp [Counted, close]

theorem put_open_count (bytes : Bytes) :
    Spec out (putOpen fed bytes)
      (fun _ after => after.delivered = out.delivered + bytes.length)
      (fun refusal after => Counted refusal ∧ after.delivered = out.delivered) := by
  unfold Spec putOpen
  by_cases dropping : out.dropping = true
  · rw [if_pos dropping]
    rfl
  · rw [if_neg dropping]
    cases fed out.feeds <;> simp [Counted, account, close]

theorem put_count (bytes : Bytes) :
    Spec out (put fed bytes)
      (fun _ after => after.delivered = out.delivered + bytes.length)
      (fun refusal after => Counted refusal ∧ after.delivered = out.delivered) := by
  refine Spec.bind open_sink_count fun _ state same => ?_
  rw [← same]
  exact put_open_count bytes

theorem put_zeros_count (pieces : List Nat) :
    Spec out (putZeros fed pieces) (fun _ _ => True) (fun refusal _ => Counted refusal) := by
  induction pieces generalizing out with
  | nil => exact Spec.pure trivial
  | cons piece pieces ih =>
    exact Spec.bind (Spec.weaken (put_count _) (fun _ _ same => same) (fun _ _ fails => fails.1))
      fun _ _ _ => Spec.modify_bind ih

theorem hole_count (len : Nat) :
    Spec out (hole fed len) (fun _ _ => True) (fun refusal _ => Counted refusal) :=
  Spec.bind (Spec.weaken open_sink_count (fun _ _ same => same) (fun _ _ fails => fails.1))
    fun _ _ _ => Spec.modify_bind (put_zeros_count _)

@[simp] theorem bind_delivered (out : SliceOut) (header : Bytes) :
    (out.bind header).delivered = out.delivered := by
  unfold SliceOut.bind
  split <;> rfl

end SliceOut

variable {crypto : Crypto Digest} {mode : Mode}

theorem next_few (exact : Exact crypto) {reader : ChunkReader}
    (short : reader.lastLen ≤ encryptedChunk) :
    reader.next crypto = (.ended, reader) ∨
    reader.index < reader.chunks ∧ ∃ src,
      (∃ plain, reader.next crypto =
        (.authentic plain, { reader with index := reader.index + 1, src }) ∧
        plain.length ≤ chunkLen) ∨
      (∃ len, reader.next crypto = (.damaged len, { reader with index := reader.index + 1, src }) ∧
        len ≤ chunkLen) := by
  have most : (if (reader.index + 1 == reader.chunks) = true then reader.lastLen else encryptedChunk) ≤
      encryptedChunk := by
    split
    · exact short
    · exact Nat.le_refl _
  unfold ChunkReader.next
  dsimp only
  by_cases ended : reader.chunks ≤ reader.index
  · rw [if_pos ended]
    exact .inl rfl
  rw [if_neg ended]
  generalize (if (reader.index + 1 == reader.chunks) = true then reader.lastLen
    else encryptedChunk) = want at most ⊢
  have few : want - tagLen ≤ chunkLen := by
    simp only [encryptedChunk] at most
    omega
  refine .inr ⟨by omega, reader.src.drop want, ?_⟩
  by_cases cut : reader.src.length < want
  · rw [if_pos cut]
    exact .inr ⟨_, rfl, few⟩
  rw [if_neg cut]
  cases opened : crypto.decrypt reader.header reader.index (reader.index + 1 == reader.chunks)
      (reader.src.take want) with
  | none => exact .inr ⟨_, rfl, few⟩
  | some plain =>
    have length := exact _ _ _ _ _ opened
    rw [List.length_take] at length
    dsimp only
    split
    · exact .inr ⟨_, rfl, few⟩
    · exact .inl ⟨plain, rfl, by omega⟩

theorem deliver_count (exact : Exact crypto) {most skip turns pos : Nat} {reader : ChunkReader}
    (short : reader.lastLen ≤ encryptedChunk) (few : reader.chunks * chunkLen ≤ most)
    (fits : mode = .strict → skip ≤ most) (place : pos ≤ reader.index * chunkLen)
    (books : mode = .strict → out.delivered = max skip pos) (soFar : pos ≤ most) :
    Spec out (deliver crypto fed mode skip turns reader pos)
      (fun _ after => mode = .strict → after.delivered ≤ most)
      (fun refusal after => Counted refusal ∧ (mode = .strict → after.delivered ≤ most)) := by
  have within : mode = .strict → out.delivered ≤ most := by
    intro strict
    have := books strict
    have := fits strict
    omega
  induction turns generalizing reader pos out with
  | zero => exact Spec.pure within
  | succ turns ih =>
    unfold deliver
    rcases next_few exact short with
      isNext | ⟨inside, src, ⟨plain, isNext, long⟩ | ⟨len, isNext, long⟩⟩
    · rw [isNext]
      exact Spec.pure within
    all_goals
      have next : (reader.index + 1) * chunkLen ≤ reader.chunks * chunkLen :=
        Nat.mul_le_mul_right _ inside
      rw [Nat.add_mul, Nat.one_mul] at next
    · -- a chunk that opens
      rw [isNext]
      dsimp only
      split
      swap
      · next unwanted =>
        exact ih short few (by dsimp only; rw [Nat.add_mul]; omega)
          (fun strict => by have := books strict; omega) (by omega) within
      next wanted =>
      refine Spec.modify_bind (Spec.bind (Spec.weaken (SliceOut.put_count _)
        (fun _ _ same => same) ?_) fun _ state wrote => ?_)
      · rintro refusal after ⟨counted, same⟩
        rw [SliceOut.bind_delivered] at same
        exact ⟨counted, fun strict => same ▸ within strict⟩
      · rw [SliceOut.bind_delivered, List.length_drop] at wrote
        have placed : mode = .strict → state.delivered = max skip (pos + plain.length) := by
          intro strict
          have := books strict
          omega
        exact ih short few (by dsimp only; rw [Nat.add_mul]; omega) placed (by omega)
          (fun strict => by have := placed strict; have := fits strict; omega)
    · -- a bad chunk
      rw [isNext]
      dsimp only
      split
      swap
      · next unwanted =>
        exact ih short few (by dsimp only; rw [Nat.add_mul]; omega)
          (fun strict => by have := books strict; omega) (by omega) within
      refine Spec.get_bind ?_
      split
      · exact Spec.pure within
      split
      · exact Spec.pure within
      next tolerant =>
      have loose : ∀ state : SliceOut, mode = .strict → state.delivered ≤ most :=
        fun _ strict => absurd strict tolerant
      refine Spec.modify_bind (Spec.bind (Spec.weaken (SliceOut.hole_count _)
        (fun _ _ same => same) (fun _ after fails => ⟨fails, loose after⟩)) fun _ state _ => ?_)
      exact ih short few (by dsimp only; rw [Nat.add_mul]; omega)
        (fun strict => absurd strict tolerant) (by omega) (loose state)

theorem decrypt_chunks_count (exact : Exact crypto) {encrypted : Nat} {src : Bytes}
    (within : mode = .strict → out.delivered ≤ mostPlain encrypted) :
    Spec out (decryptChunks crypto fed src encrypted mode)
      (fun ended after => (mode = .strict → after.delivered ≤ mostPlain encrypted) ∧
        (out.bound = none → ended.otherFile = false))
      (fun refusal after => Counted refusal ∧
        (mode = .strict → after.delivered ≤ mostPlain encrypted)) := by
  unfold decryptChunks
  split
  · exact Spec.pure ⟨within, fun _ => rfl⟩
  next reader opened =>
  obtain ⟨start, few, short⟩ := open_chunks_few opened
  refine Spec.get_bind ?_
  split
  · next otherFile =>
    refine Spec.pure ⟨within, fun unbound => ?_⟩
    rw [unbound] at otherFile
    cases otherFile
  have delivers : Spec (out.filledFrom reader.header)
      (deliverFile crypto fed mode reader)
      (fun _ after => mode = .strict → after.delivered ≤ mostPlain encrypted)
      (fun refusal after => Counted refusal ∧
        (mode = .strict → after.delivered ≤ mostPlain encrypted)) := by
    refine Spec.bind (Spec.weaken SliceOut.open_sink_count (fun _ _ same => same)
      fun _ after fails => ⟨fails.1, fun strict => fails.2 ▸ within strict⟩)
        fun _ state same => Spec.get_bind ?_
    have start' : state.delivered = out.delivered := same
    exact deliver_count exact short (Nat.mul_le_mul_right _ few) (fun strict => start' ▸ within strict)
      (Nat.zero_le _) (fun _ => (Nat.max_eq_left (Nat.zero_le _)).symm) (Nat.zero_le _)
  refine Spec.modify_bind (Spec.bind (Spec.attempted delivers)
    fun delivery after result => Spec.get_bind ?_)
  cases delivery with
  | ok ended => exact Spec.pure ⟨result, fun _ => rfl⟩
  | error refusal =>
    dsimp only at result ⊢
    split
    · exact Spec.pure ⟨result.2, fun _ => rfl⟩
    · exact Spec.throw result

end Delivering

namespace Supply

variable {world : World Digest} {wp : WritePositionInfo Digest} {supply : Supply Digest}

/-- At most `count` reads were made, and nothing that the choice of a cartridge looks at changed but
what is delivered. -/
structure Spent (wp : WritePositionInfo Digest) (count : Nat) (before after : Supply Digest) : Prop where
  here : after.here = before.here
  bad : after.bad = before.bad
  reads : after.reads ≤ before.reads + count
  within : after.out.delivered ≤ mostPlain (encrypted wp)

/-- A refusal after at most `count` reads. -/
def Refused (count : Nat) (before : Supply Digest) (refusal : Refusal) (after : Supply Digest) : Prop :=
  Counted refusal ∧ after.reads ≤ before.reads + count

theorem begin_attempt_kept (out : SliceOut) :
    out.beginAttempt.delivered = out.delivered ∧ out.beginAttempt.bound = out.bound := by
  obtain ⟨attempts, plain, unhashed, same, -⟩ := begin_attempt_same out
  rw [same]
  exact ⟨rfl, rfl⟩

structure ReadOnce (wp : WritePositionInfo Digest) (mode : Mode) (before : Supply Digest)
    (raw : Raw Digest) (after : Supply Digest) : Prop where
  here : after.here = before.here
  bad : after.bad = before.bad
  reads : after.reads = before.reads + 1
  within : mode = .strict → after.out.delivered ≤ mostPlain (encrypted wp)
  refused : ∀ refusal, raw.ended = .error refusal → Counted refusal
  same_file : before.out.bound = none → ∀ ended, raw.ended = .ok ended → ended.otherFile = false

theorem Spent.after {first second : Nat} {mid after : Supply Digest}
    (here : mid.here = supply.here) (bad : mid.bad = supply.bad)
    (reads : mid.reads = supply.reads + first) (spent : Spent wp second mid after) :
    Spent wp (first + second) supply after :=
  ⟨spent.here.trans here, spent.bad.trans bad, by have := spent.reads; omega, spent.within⟩

variable {raw : Raw Digest} {fail : Refusal → Supply Digest → Prop} {volume : Int}

theorem sink_gone_count {tailDamaged : Bool}
    (within : supply.out.delivered ≤ mostPlain (encrypted wp)) :
    Spec supply (sinkGone wp raw tailDamaged) (fun _ => Spent wp 0 supply)
      fail := by
  unfold sinkGone
  split
  · exact Spec.modify ⟨rfl, rfl, Nat.le_refl _, within⟩
  · exact Spec.pure ⟨rfl, rfl, Nat.le_refl _, within⟩

theorem supplied_for_count (cause : Option (String × Defect)) :
    Spec supply (suppliedFor wp cause)
      (fun _ after => after.reads = supply.reads) fail := by
  unfold suppliedFor
  split
  · refine Spec.modify ?_
    unfold supplied
    split <;> rfl
  · exact Spec.pure rfl

def volumes (world : World Digest) (wp : WritePositionInfo Digest) : Finset Int :=
  insert wp.volumeId ((world.holdersOf wp.sha256Encrypted).map Holder.volumeId).toFinset

theorem card_volumes (world : World Digest) (wp : WritePositionInfo Digest) :
    (volumes world wp).card ≤ (world.holdersOf wp.sha256Encrypted).length + 1 := by
  refine (Finset.card_insert_le _ _).trans (Nat.succ_le_succ ?_)
  refine (List.toFinset_card_le _).trans ?_
  rw [List.length_map]

theorem mem_volumes {holder : Holder} (isHolder : holder ∈ world.holdersOf wp.sha256Encrypted) :
    holder.volumeId ∈ volumes world wp :=
  Finset.mem_insert_of_mem (List.mem_toFinset.mpr (List.mem_map_of_mem isHolder))

theorem own_position_count {choice : Choice → Prop} (isHere : ∀ position, choice (.here position)) :
    Spec supply (ownPosition wp)
      (fun chosen after => after = supply ∧ choice chosen)
      (fun refusal after => Counted refusal ∧ after = supply) := by
  unfold ownPosition
  split
  · exact Spec.pure ⟨rfl, isHere _⟩
  · exact Spec.throw ⟨nofun, rfl⟩

theorem change_to_count (holder : Holder) (skippable : Bool) :
    Spec supply (changeTo world holder skippable)
      (fun changed after => after.out = supply.out ∧ after.bad = supply.bad ∧
        after.hashBad = supply.hashBad ∧ after.reads = supply.reads ∧
        (changed = .loaded → after.hereVolume = some holder.volumeId))
      (Refused 0 supply) := by
  refine Spec.get_bind (Spec.modify_bind ?_)
  split
  · refine Spec.modify_bind (Spec.pure ?_)
    exact ⟨rfl, rfl, rfl, rfl, fun _ => rfl⟩
  · split
    · refine Spec.modify_bind (Spec.pure ?_)
      exact ⟨rfl, rfl, rfl, rfl, nofun⟩
    · split
      · exact Spec.throw ⟨nofun, Nat.le_refl _⟩
      · exact Spec.throw ⟨nofun, Nat.le_refl _⟩
  · exact Spec.throw ⟨nofun, Nat.le_refl _⟩
  · exact Spec.throw ⟨nofun, Nat.le_refl _⟩

structure NotedIn (wp : WritePositionInfo Digest) (before after : Supply Digest) : Prop where
  here : after.here = before.here
  reads : after.reads = before.reads
  delivered : after.out.delivered = before.out.delivered
  bad : ∀ volume, before.hereVolume = some volume →
    after.bad = ((volume, wp.sha256Encrypted), before.out.delivered) :: before.bad

theorem mark_bad_noted (wp : WritePositionInfo Digest) (supply : Supply Digest) :
    NotedIn wp supply (markBad wp supply) := by
  unfold markBad
  cases isHere : supply.hereVolume with
  | none => exact ⟨rfl, rfl, rfl, by rw [isHere]; nofun⟩
  | some here =>
    refine ⟨rfl, rfl, rfl, ?_⟩
    rintro volume isVolume
    rw [isHere] at isVolume
    cases isVolume
    rfl

theorem note_failure_count (defect : Defect) (unproven : Bool) (memory : Memory) :
    Spec supply (noteFailure wp defect unproven memory)
      (fun noted after => noted.tried = memory.tried ∧ NotedIn wp supply after) fail := by
  refine Spec.get_bind (Spec.modify_bind (Spec.modify_bind (Spec.modify_bind (Spec.pure ?_))))
  have marked := mark_bad_noted wp supply
  generalize markBad wp supply = mid at marked
  have hashed : NotedIn wp supply (if defect = .hash then markHashBad wp mid else mid) := by
    split
    · unfold markHashBad
      split <;> exact ⟨marked.here, marked.reads, marked.delivered, marked.bad⟩
    · exact marked
  generalize (if defect = .hash then markHashBad wp mid else mid) = noted at hashed
  refine ⟨rfl, ?_⟩
  split <;> exact ⟨hashed.here, hashed.reads, hashed.delivered, hashed.bad⟩

/-- The reads that are left when the potential can still rise by `room`. -/
def Few (room : Nat) (supply : Supply Digest) (after : Supply Digest) : Prop :=
  after.reads ≤ supply.reads + 2 * (room + 1)

theorem refused_here {room : Nat} {refusal : Refusal} (counted : Counted refusal) :
    Refused (2 * (room + 1)) supply refusal supply :=
  ⟨counted, Nat.le_add_right _ _⟩

theorem sole_copy_count :
    Spec supply (soleCopy world wp)
      (fun _ after => after.out = supply.out ∧ after.reads = supply.reads) fail := by
  refine Spec.get_bind ?_
  split
  · exact Spec.pure ⟨rfl, rfl⟩
  · split
    · exact Spec.pure ⟨rfl, rfl⟩
    · exact Spec.modify_bind (Spec.pure ⟨rfl, rfl⟩)

variable [DecidableEq Digest]

theorem attempt_raw_count (exact : Exact world.crypto) {mode : Mode}
    (within : mode = .strict → supply.out.delivered ≤ mostPlain (encrypted wp)) (position : Nat) :
    Spec supply (attemptRaw world wp position mode)
      (ReadOnce wp mode supply) fail := by
  refine Spec.modify_bind (Spec.get_bind ?_)
  dsimp only
  generalize world.read supply.reads _ position = given
  have begun : mode = .strict →
      supply.out.beginAttempt.delivered ≤ mostPlain (encrypted wp) := by
    rw [(begin_attempt_kept _).1]
    exact within
  refine Spec.modify_bind (Spec.bind (Spec.attempted (on_out_spec
    (decrypt_chunks_count exact begun))) fun ended after result => Spec.pure ?_)
  cases ended with
  | error refusal =>
    obtain ⟨out, rfl, counted, within⟩ := result
    exact ⟨rfl, rfl, rfl, within, by rintro _ ⟨⟩; exact counted, nofun⟩
  | ok ended =>
    obtain ⟨out, rfl, within, sameFile⟩ := result
    refine ⟨rfl, rfl, rfl, within, nofun, ?_⟩
    rintro unbound _ ⟨⟩
    exact sameFile ((begin_attempt_kept _).2.trans unbound)

theorem judge_read_count (within : supply.out.delivered ≤ mostPlain (encrypted wp)) :
    Spec supply (judgeRead world wp raw) (fun _ => Spent wp 0 supply)
      (Refused 0 supply) := by
  have same : Spent wp 0 supply supply := ⟨rfl, rfl, Nat.le_refl _, within⟩
  unfold judgeRead
  split
  · exact Spec.pure same
  split
  · exact Spec.pure same
  refine Spec.get_bind ?_
  split
  · exact Spec.pure same
  · split
    · exact Spec.throw ⟨by rintro ⟨⟩, Nat.le_refl _⟩
    · exact Spec.modify_bind (Spec.pure ⟨rfl, rfl, Nat.le_refl _, Nat.zero_le _⟩)
  · exact Spec.pure same

theorem attempt_after (exact : Exact world.crypto) {position resets again : Nat}
    (within : supply.out.delivered ≤ mostPlain (encrypted wp))
    (second : supply.out.bound ≠ none → ∀ next : Supply Digest, next.out.bound = none →
      next.out.delivered = 0 → Spec next (attempt world wp position resets)
        (fun _ => Spent wp again next) (Refused again next)) :
    Spec supply (attempt world wp position (resets + 1))
      (fun _ => Spent wp (1 + again) supply) (Refused (1 + again) supply) := by
  refine Spec.bind (attempt_raw_count exact (fun _ => within) position) fun raw mid read => ?_
  have more : ∀ {count : Nat}, count ≤ again → ∀ after, Spent wp count mid after →
      Spent wp (1 + again) supply after := by
    intro count few after spent
    have all := spent.after read.here read.bad read.reads
    exact ⟨all.here, all.bad, by have := all.reads; omega, all.within⟩
  have fails : ∀ {count : Nat}, count ≤ again → ∀ refusal after, Refused count mid refusal after →
      Refused (1 + again) supply refusal after := by
    rintro count few refusal after ⟨counted, reads⟩
    have := read.reads
    exact ⟨counted, by omega⟩
  have here : Spent wp (1 + again) supply mid :=
    more (Nat.zero_le _) _ ⟨rfl, rfl, Nat.le_refl _, read.within rfl⟩
  have refused : ∀ refusal, Counted refusal → Refused (1 + again) supply refusal mid :=
    fun _ counted => fails (Nat.zero_le _) _ _ ⟨counted, Nat.le_refl _⟩
  cases isEnded : raw.ended with
  | error refusal => exact Spec.throw (refused _ (read.refused _ isEnded))
  | ok ended =>
    dsimp only
    split
    · split
      · exact Spec.pure here
      · exact Spec.throw (refused _ nofun)
    split
    · refine Spec.bind (Spec.weaken (sink_gone_count (read.within rfl))
        (fun _ _ spent => more (Nat.zero_le _) _ spent) (fun _ _ => id)) fun _ _ spent => Spec.pure spent
    split
    · next otherFile =>
      split
      swap
      · exact Spec.pure here
      refine Spec.get_bind ?_
      split
      swap
      · exact Spec.throw (refused _ nofun)
      have tied : supply.out.bound ≠ none := by
        intro unbound
        rw [read.same_file unbound ended isEnded] at otherFile
        cases otherFile
      refine Spec.modify_bind (Spec.weaken (second tied (dropOut mid) rfl rfl) ?_ ?_)
      · exact fun _ after spent => more (Nat.le_refl _) after
          ⟨spent.here, spent.bad, spent.reads, spent.within⟩
      · exact fun refusal after failed => fails (Nat.le_refl _) refusal after failed
    split
    · exact Spec.pure here
    · exact Spec.weaken (judge_read_count (read.within rfl))
        (fun _ _ spent => more (Nat.zero_le _) _ spent)
        (fun _ _ failed => fails (Nat.zero_le _) _ _ failed)

/-- The output dropped for a copy is bound to no file: that copy is read once more at most. -/
theorem attempt_count (exact : Exact world.crypto) (position : Nat)
    (within : supply.out.delivered ≤ mostPlain (encrypted wp)) :
    Spec supply (attempt world wp position 2) (fun _ => Spent wp 2 supply)
      (Refused 2 supply) := by
  refine @attempt_after Digest world wp supply _ exact position 1 1 within fun _ next unbound nothing => ?_
  have within' : next.out.delivered ≤ mostPlain (encrypted wp) := by
    rw [nothing]
    exact Nat.zero_le _
  exact @attempt_after Digest world wp next _ exact position 0 0 within'
    fun tied => absurd unbound tied

theorem salvage_wrong_count {label : String} :
    Spec supply (salvageWrong world wp label)
      (fun _ after => after.reads = supply.reads) (Refused 0 supply) := by
  refine Spec.get_bind ?_
  split
  · exact Spec.throw ⟨nofun, Nat.le_refl _⟩
  refine Spec.modify_bind (Spec.bind (Spec.weaken (on_out_spec
    (SliceOut.hole_count _)) (fun _ _ same => same) ?_) fun _ mid same => ?_)
  · rintro refusal after ⟨out, rfl, counted⟩
    exact ⟨counted, Nat.le_refl _⟩
  · obtain ⟨out, rfl, -⟩ := same
    exact Spec.modify rfl

theorem salvage_end_count {ended : Ended} {label : String} {cause : Option (String × Defect)}
    {newHoles : List (Nat × Nat)} :
    Spec supply (salvageEnd world wp raw ended label cause newHoles)
      (fun _ after => after.reads = supply.reads) (Refused 0 supply) := by
  unfold salvageEnd
  split
  · exact Spec.modify rfl
  split
  · split
    · exact Spec.modify rfl
    · exact Spec.pure rfl
  split
  · exact supplied_for_count cause
  refine Spec.get_bind ?_
  split
  · exact supplied_for_count cause
  · exact salvage_wrong_count
  · exact Spec.modify rfl

theorem salvage_after (exact : Exact world.crypto) {resets again : Nat} {first : Option (String × Defect)}
    (second : supply.out.bound ≠ none → ∀ (next : Supply Digest) (cause : Option (String × Defect)),
      next.out.bound = none → Spec next (salvage world wp resets cause)
        (fun _ after => after.reads ≤ next.reads + again) (Refused again next)) :
    Spec supply (salvage world wp (resets + 1) first)
      (fun _ after => after.reads ≤ supply.reads + (1 + again)) (Refused (1 + again) supply) := by
  refine Spec.get_bind ?_
  split
  · exact Spec.throw ⟨nofun, Nat.le_add_right _ _⟩
  refine Spec.bind (attempt_raw_count exact (by intro strict; cases strict) _)
    fun raw mid read => Spec.get_bind ?_
  dsimp only
  have reads := read.reads
  have refused : ∀ refusal, Counted refusal → Refused (1 + again) supply refusal mid :=
    fun _ counted => ⟨counted, by omega⟩
  cases isEnded : raw.ended with
  | error refusal => exact Spec.throw (refused _ (read.refused _ isEnded))
  | ok ended =>
    dsimp only
    split
    · exact Spec.throw (refused _ nofun)
    split
    · next otherFile =>
      split
      swap
      · exact Spec.throw (refused _ nofun)
      have tied : supply.out.bound ≠ none := by
        intro unbound
        rw [read.same_file unbound ended isEnded] at otherFile
        cases otherFile
      refine Spec.modify_bind (Spec.weaken (second tied (dropOut mid) _ rfl) ?_ ?_)
      · intro _ after more
        have : (dropOut mid).reads = mid.reads := rfl
        omega
      · rintro refusal after ⟨counted, more⟩
        have : (dropOut mid).reads = mid.reads := rfl
        exact ⟨counted, by omega⟩
    · refine Spec.weaken salvage_end_count ?_ ?_
      · intro _ after same
        omega
      · rintro refusal after ⟨counted, more⟩
        exact ⟨counted, by omega⟩

theorem salvage_count (exact : Exact world.crypto) (first : Option (String × Defect)) :
    Spec supply (salvage world wp 2 first)
      (fun _ after => after.reads ≤ supply.reads + 2) (Refused 2 supply) :=
  @salvage_after Digest world wp supply _ exact 1 1 first fun _ next cause unbound =>
    @salvage_after Digest world wp next _ exact 0 0 cause fun tied => absurd unbound tied

def failedPlace (wp : WritePositionInfo Digest) (supply : Supply Digest) (volume : Int) : Nat :=
  min ((supply.bad.lookup (volume, wp.sha256Encrypted)).elim 0 (· + 1)) (mostPlain (encrypted wp) + 1)

def potential (world : World Digest) (wp : WritePositionInfo Digest) (supply : Supply Digest) : Nat :=
  ∑ volume ∈ volumes world wp, failedPlace wp supply volume +
    (mostPlain (encrypted wp) - supply.out.delivered)

/-- As far as the potential can rise, for this many holders and this much plaintext. -/
def mostPotential (holders plain : Nat) : Nat := (holders + 1) * (plain + 1) + plain

theorem potential_le (supply : Supply Digest) :
    potential world wp supply ≤
      mostPotential (world.holdersOf wp.sha256Encrypted).length (mostPlain (encrypted wp)) := by
  have each : ∀ volume ∈ volumes world wp,
      failedPlace wp supply volume ≤ mostPlain (encrypted wp) + 1 :=
    fun _ _ => Nat.min_le_right _ _
  have all : ∑ volume ∈ volumes world wp, failedPlace wp supply volume ≤
      (volumes world wp).card * (mostPlain (encrypted wp) + 1) := Finset.sum_le_card_nsmul _ _ _ each
  have few := Nat.mul_le_mul_right (mostPlain (encrypted wp) + 1) (card_volumes world wp)
  unfold potential mostPotential
  omega

/-- The volume did not fail the slice, or failed it before what is delivered. -/
def Passed (wp : WritePositionInfo Digest) (supply : Supply Digest) (volume : Int) : Prop :=
  ∀ failedAt ∈ supply.bad.lookup (volume, wp.sha256Encrypted), failedAt < supply.out.delivered

theorem usable_passed {awaitingProof : Bool}
    (isUsable : usable wp supply supply.out.delivered awaitingProof volume = true) :
    Passed wp supply volume := by
  intro failedAt isBad
  rw [usable, Bool.and_eq_true] at isUsable
  have passed := isUsable.1
  rw [isBad, Option.all_some, decide_eq_true_iff] at passed
  exact passed

theorem Passed.place (passed : Passed wp supply volume) :
    failedPlace wp supply volume ≤ supply.out.delivered := by
  unfold failedPlace
  cases isBad : supply.bad.lookup (volume, wp.sha256Encrypted) with
  | none => exact (Nat.min_le_left _ _).trans (Nat.zero_le _)
  | some failedAt => exact (Nat.min_le_left _ _).trans (passed failedAt isBad)

theorem potential_raised {next : Supply Digest} (isOne : volume ∈ volumes world wp)
    (passed : Passed wp supply volume) (within : supply.out.delivered ≤ mostPlain (encrypted wp))
    (failed : next.bad = ((volume, wp.sha256Encrypted), next.out.delivered) :: supply.bad)
    (nextWithin : next.out.delivered ≤ mostPlain (encrypted wp)) :
    potential world wp supply + 1 ≤ potential world wp next := by
  have before := passed.place
  have now : failedPlace wp next volume = next.out.delivered + 1 := by
    unfold failedPlace
    rw [failed, List.lookup_cons_self, Option.elim_some]
    omega
  have others : ∑ other ∈ (volumes world wp).erase volume, failedPlace wp next other =
      ∑ other ∈ (volumes world wp).erase volume, failedPlace wp supply other := by
    refine Finset.sum_congr rfl fun other isOther => ?_
    have differs : (other, wp.sha256Encrypted) ≠ (volume, wp.sha256Encrypted) :=
      fun same => (Finset.mem_erase.mp isOther).1 (congrArg Prod.fst same)
    unfold failedPlace
    rw [failed, List.lookup_cons, beq_false_of_ne differs]
  unfold potential
  rw [← Finset.add_sum_erase _ _ isOne, ← Finset.add_sum_erase _ (failedPlace wp next) isOne, others,
    now]
  omega

def Loaded (world : World Digest) (wp : WritePositionInfo Digest) (memory : Memory)
    (supply : Supply Digest) : Prop :=
  ∃ holder ∈ world.holdersOf wp.sha256Encrypted, supply.hereVolume = some holder.volumeId ∧
    usable wp supply supply.out.delivered memory.unproven.isSome holder.volumeId = true

def Chosen (world : World Digest) (wp : WritePositionInfo Digest) (memory : Memory)
    (supply : Supply Digest) : Choice → Prop
  | .here _ =>
    supply.hereVolume = none ∧ memory.tried = false ∨
    ∃ volume ∈ volumes world wp, supply.hereVolume = some volume ∧ Passed wp supply volume
  | .next holder | .elsewhere holder =>
    ¬ Loaded world wp memory supply ∧ holder ∈ world.holdersOf wp.sha256Encrypted ∧
      usable wp supply supply.out.delivered memory.unproven.isSome holder.volumeId = true
  | .nowhere => True

theorem elsewhere_chosen {memory : Memory} (unloaded : ¬ Loaded world wp memory supply) (here : Int) :
    Chosen world wp memory supply
      (choose.elsewhere wp memory.tried
        (usable wp supply supply.out.delivered memory.unproven.isSome) here
        (world.holdersOf wp.sha256Encrypted)) := by
  unfold choose.elsewhere
  dsimp only
  split
  · next holder planned =>
    have found : holder ∈ world.holdersOf wp.sha256Encrypted ∧
        usable wp supply supply.out.delivered memory.unproven.isSome holder.volumeId = true := by
      split at planned
      · refine ⟨List.mem_of_find?_eq_some planned, ?_⟩
        have := List.find?_some planned
        rw [Bool.and_eq_true] at this
        exact this.2
      · cases planned
    split <;> exact ⟨unloaded, found⟩
  · split
    · next holder isFound =>
      have := List.find?_some isFound
      rw [Bool.and_eq_true] at this
      exact ⟨unloaded, List.mem_of_find?_eq_some isFound, this.2⟩
    · trivial

theorem choose_count (memory : Memory) :
    Spec supply (choose world wp memory.tried memory.unproven.isSome)
      (fun choice after => after = supply ∧ Chosen world wp memory supply choice)
      (fun refusal after => Counted refusal ∧ after = supply) := by
  refine Spec.get_bind ?_
  dsimp only
  split
  · next unknown =>
    split
    · exact Spec.pure ⟨rfl, trivial⟩
    · next untried => exact own_position_count fun _ => .inl ⟨unknown, by simpa using untried⟩
  next here isHere =>
  split
  · next own =>
    refine own_position_count fun _ => .inr ⟨here, ?_, isHere, usable_passed own.2⟩
    rw [own.1]
    exact Finset.mem_insert_self _ _
  split
  · next holder isFound =>
    have isVolume : holder.volumeId = here := by simpa using List.find?_some isFound
    split
    · next isUsable =>
      refine Spec.pure ⟨rfl, .inr ⟨here, ?_, isHere, usable_passed isUsable⟩⟩
      rw [← isVolume]
      exact mem_volumes (List.mem_of_find?_eq_some isFound)
    · next unusable =>
      refine Spec.pure ⟨rfl, elsewhere_chosen ?_ here⟩
      rintro ⟨other, -, isOther, isUsable⟩
      rw [isHere] at isOther
      cases isOther
      exact unusable isUsable
  · next missing =>
    refine Spec.pure ⟨rfl, elsewhere_chosen ?_ here⟩
    rintro ⟨other, isOne, isOther, -⟩
    rw [isHere] at isOther
    have := List.find?_eq_none.mp missing other isOne
    simp [Option.some.inj isOther] at this

theorem fill_loop_unknown {sole : Bool} {turns : Nat} {memory : Memory} (positive : 0 < turns)
    (unknown : supply.hereVolume = none) (tried : memory.tried = true) :
    Spec supply (fillLoop world wp sole turns memory)
      (fun _ after => after.reads ≤ supply.reads) (Refused 0 supply) := by
  obtain ⟨turns, rfl⟩ := Nat.exists_eq_succ_of_ne_zero (Nat.ne_of_gt positive)
  have nowhere : Spec supply
      (choose world wp memory.tried memory.unproven.isSome)
      (fun choice after => after = supply ∧ choice = .nowhere) (Refused 0 supply) := by
    refine Spec.get_bind ?_
    dsimp only
    rw [unknown, tried]
    exact Spec.pure ⟨rfl, rfl⟩
  refine Spec.bind nowhere fun choice mid chosen => ?_
  obtain ⟨rfl, rfl⟩ := chosen
  exact Spec.pure (Nat.le_refl _)

/-- The loop ends within this many turns: two for each step the potential can rise, and for a
cartridge that has to be loaded first one more. -/
def LoopEnds (world : World Digest) (wp : WritePositionInfo Digest) (sole : Bool) (turns : Nat) : Prop :=
  ∀ (supply : Supply Digest) (room : Nat) (memory : Memory),
    supply.out.delivered ≤ mostPlain (encrypted wp) →
    mostPotential (world.holdersOf wp.sha256Encrypted).length (mostPlain (encrypted wp)) ≤
      potential world wp supply + room →
    2 * room + 2 ≤ turns ∨ 2 * room + 1 ≤ turns ∧ Loaded world wp memory supply →
    Spec supply (fillLoop world wp sole turns memory)
      (fun _ => Few room supply) (Refused (2 * (room + 1)) supply)

section Turn

variable {sole : Bool} {room turns : Nat} {memory : Memory}

theorem ends_after_failure (rest : LoopEnds world wp sole turns)
    (within : supply.out.delivered ≤ mostPlain (encrypted wp))
    (left : mostPotential (world.holdersOf wp.sha256Encrypted).length (mostPlain (encrypted wp)) ≤
      potential world wp supply + room)
    (enough : 2 * room + 1 ≤ turns ∨ 2 * room ≤ turns ∧ Loaded world wp memory supply)
    {position : Nat} (chosen : Chosen world wp memory supply (.here position))
    {mid after : Supply Digest} {noted : Memory} (spent : Spent wp 2 supply mid)
    (tried : noted.tried = true) (noting : NotedIn wp mid after) (defect : Defect) :
    Spec after
      (if defect.substitutable = true then fillLoop world wp sole turns noted else pure (some noted))
      (fun _ => Few room supply) (Refused (2 * (room + 1)) supply) := by
  have reads := spent.reads
  have same := noting.reads
  have few : ∀ {count : Nat}, count ≤ 2 * room → ∀ done : Supply Digest,
      done.reads ≤ after.reads + count → done.reads ≤ supply.reads + 2 * (room + 1) := by
    intro count _ done _
    omega
  split
  swap
  · exact Spec.pure (few (Nat.zero_le _) _ (Nat.le_refl _))
  have sameHere : after.hereVolume = supply.hereVolume := by
    unfold hereVolume
    rw [noting.here, spent.here]
  rcases chosen with ⟨unknown, -⟩ | ⟨volume, isOne, isHere, passed⟩
  · have notLoaded : ¬ Loaded world wp memory supply := by
      rintro ⟨holder, -, isHolder, -⟩
      rw [unknown] at isHolder
      cases isHolder
    have positive : 0 < turns := by
      have := enough.resolve_right fun isLoaded => notLoaded isLoaded.2
      omega
    exact Spec.weaken (fill_loop_unknown positive (sameHere.trans unknown) tried)
      (fun _ done => few (Nat.zero_le _) done)
      (fun _ done failed => ⟨failed.1, few (Nat.zero_le _) done failed.2⟩)
  · have failed : after.bad = ((volume, wp.sha256Encrypted), after.out.delivered) :: supply.bad := by
      rw [noting.bad volume (by unfold hereVolume at isHere ⊢; rw [spent.here, isHere]),
        noting.delivered, spent.bad]
    have nextWithin : after.out.delivered ≤ mostPlain (encrypted wp) := by
      rw [noting.delivered]
      exact spent.within
    have raised := potential_raised isOne passed within failed nextWithin
    have most := @potential_le Digest world wp _ after
    obtain ⟨less, rfl⟩ : ∃ less, room = less + 1 := ⟨room - 1, by omega⟩
    exact Spec.weaken (rest after less noted nextWithin (by omega) (.inl (by omega)))
      (fun _ done => few (by omega) done)
      (fun _ done failed => ⟨failed.1, few (by omega) done failed.2⟩)

theorem ends_after_change (rest : LoopEnds world wp sole turns)
    (within : supply.out.delivered ≤ mostPlain (encrypted wp))
    (left : mostPotential (world.holdersOf wp.sha256Encrypted).length (mostPlain (encrypted wp)) ≤
      potential world wp supply + room)
    (enough : 2 * room + 1 ≤ turns) {holder : Holder}
    (isHolder : holder ∈ world.holdersOf wp.sha256Encrypted)
    (isUsable : usable wp supply supply.out.delivered memory.unproven.isSome holder.volumeId = true)
    (skippable : Bool) {declined : Run Digest (Option Memory)}
    (ends : ∀ after : Supply Digest, after.reads = supply.reads →
      Spec after declined (fun _ => Few room supply)
        (Refused (2 * (room + 1)) supply)) :
    Spec supply
      (if world.attended = true then do
        match ← changeTo world holder skippable with
        | .loaded => fillLoop world wp sole turns memory
        | .declined => declined
      else throw .unattended)
      (fun _ => Few room supply) (Refused (2 * (room + 1)) supply) := by
  split
  swap
  · exact Spec.throw (refused_here (by decide))
  refine Spec.bind (Spec.weaken (change_to_count holder skippable)
    (fun _ _ changed => changed) fun _ _ failed => ⟨failed.1, failed.2.trans (Nat.le_add_right _ _)⟩)
      fun changed mid result => ?_
  obtain ⟨out, bad, hashBad, reads, isHere⟩ := result
  cases changed with
  | declined => exact ends mid reads
  | loaded =>
    have same : potential world wp mid = potential world wp supply := by
      unfold potential failedPlace
      rw [out, bad]
    have isLoaded : Loaded world wp memory mid := by
      refine ⟨holder, isHolder, isHere rfl, ?_⟩
      unfold usable at isUsable ⊢
      rw [out, bad, hashBad]
      exact isUsable
    have next := rest mid room memory (by rw [out]; exact within) (by omega) (.inr ⟨enough, isLoaded⟩)
    unfold Few Refused at next ⊢
    rw [reads] at next
    exact next

end Turn

theorem loop_ends (exact : Exact world.crypto) (sole : Bool) (turns : Nat) :
    LoopEnds world wp sole turns := by
  induction turns with
  | zero =>
    intro supply room memory within left enough
    omega
  | succ turns rest =>
    intro supply room memory within left enough
    have still : ∀ after : Supply Digest, after.reads = supply.reads → Few room supply after := by
      intro after same
      unfold Few
      omega
    refine Spec.bind (Spec.weaken (choose_count memory) (fun _ _ chosen => chosen)
      fun _ _ failed => failed.2 ▸ refused_here failed.1) fun choice mid chosen => ?_
    obtain ⟨isMid, chosen⟩ := chosen
    subst isMid
    cases choice with
    | here position =>
      refine Spec.modify_bind ?_
      split
      · exact Spec.pure (still _ rfl)
      have tries := @attempt_count Digest world wp { mid with lastPosition := some position } _ exact
        position within
      refine Spec.bind (Spec.weaken tries (fun _ _ spent => spent) ?_) fun verdict after read => ?_
      · rintro refusal after ⟨counted, few⟩
        exact ⟨counted, few.trans (by dsimp only; omega)⟩
      have spent : Spent wp 2 mid after := ⟨read.here, read.bad, read.reads, read.within⟩
      have failure : ∀ (defect : Defect) (unproven : Bool), Spec after
          (do
            let memory ← noteFailure wp defect unproven { memory with tried := true }
            if defect.substitutable = true then fillLoop world wp sole turns memory
            else pure (some memory))
          (fun _ => Few room mid) (Refused (2 * (room + 1)) mid) := by
        intro defect unproven
        refine Spec.bind (note_failure_count defect unproven _) fun noted next noting => ?_
        exact ends_after_failure rest within left
          (enough.imp (fun far => by omega) fun far => ⟨by omega, far.2⟩) chosen spent noting.1
          noting.2 defect
      cases verdict with
      | complete =>
        refine Spec.bind (supplied_for_count memory.first) fun _ next same => Spec.pure ?_
        have := spent.reads
        unfold Few
        omega
      | sinkGone =>
        refine Spec.pure ?_
        have := spent.reads
        unfold Few
        omega
      | stopped defect => exact failure defect false
      | unproven defect why => exact failure defect true
    | next holder =>
      obtain ⟨notLoaded, isHolder, isUsable⟩ := chosen
      have turnLeft := enough.resolve_right fun far => notLoaded far.2
      refine ends_after_change rest within left (by omega) isHolder isUsable false fun after same => ?_
      exact Spec.throw ⟨by decide, by omega⟩
    | elsewhere holder =>
      obtain ⟨notLoaded, isHolder, isUsable⟩ := chosen
      have turnLeft := enough.resolve_right fun far => notLoaded far.2
      refine ends_after_change rest within left (by omega) isHolder isUsable true fun after same => ?_
      exact Spec.pure (still _ same)
    | nowhere => exact Spec.pure (still _ rfl)

theorem settle_count (exact : Exact world.crypto) (left : Option Memory) :
    Spec supply (settle world wp left)
      (fun _ after => after.reads ≤ supply.reads + 2) (Refused 2 supply) := by
  unfold settle
  split
  · exact Spec.pure (Nat.le_add_right _ _)
  · split
    · exact Spec.modify (Nat.le_add_right _ _)
    · exact salvage_count exact _

end Supply

open Supply

/-- The reads a slice of `chunks` chunks on `holders` volumes is settled within. -/
def mostReads (holders chunks : Nat) : Nat := 2 * (mostPotential holders (chunks * chunkLen) + 2)

/-- Whatever the cartridges' reads give, how often each of them differs from the last, and however
the operator answers: the loop over the cartridges ends by itself, after no more reads than the
number of holders and of chunks allow. -/
theorem fill_slice_reads_bounded {Digest : Type} [DecidableEq Digest] {world : World Digest}
    (exact : Exact world.crypto) (wp : WritePositionInfo Digest) (supply : Supply Digest)
    {sink : SliceSink} (fresh : supply.out = SliceOut.new sink wp.sliceNumber) {turns : Nat}
    (enough : mostReads (world.holdersOf wp.sha256Encrypted).length (sliceChunks (encrypted wp)) ≤
      turns) :
    ∃ after, (fillSlice world wp turns supply = .ok () after ∨
        ∃ refusal, refusal ≠ .outOfTurns ∧ fillSlice world wp turns supply = .error refusal after) ∧
      after.reads ≤ supply.reads +
        mostReads (world.holdersOf wp.sha256Encrypted).length (sliceChunks (encrypted wp)) := by
  have start : supply.out.delivered = 0 := by
    rw [fresh]
    rfl
  unfold mostReads at enough ⊢
  generalize isRoom : mostPotential (world.holdersOf wp.sha256Encrypted).length
    (sliceChunks (encrypted wp) * chunkLen) = room at enough ⊢
  have result : Spec supply (fillSlice world wp turns)
      (fun _ after => after.reads ≤ supply.reads + 2 * (room + 2))
      (Refused (2 * (room + 2)) supply) := by
    have tried : Spec supply (tryCartridges world wp turns)
        (fun _ => Few room supply) (Refused (2 * (room + 1)) supply) := by
      refine Spec.modify_bind (Spec.bind sole_copy_count fun sole mid same => ?_)
      obtain ⟨out, reads⟩ := same
      have within : mid.out.delivered ≤ mostPlain (encrypted wp) := by
        rw [out]
        exact start ▸ Nat.zero_le _
      have loop := loop_ends exact sole turns mid room ⟨none, none, false⟩ within
        (isRoom ▸ Nat.le_add_left _ _) (.inl (by omega))
      unfold Few Refused at loop ⊢
      rw [reads] at loop
      exact loop
    refine Spec.bind (Spec.weaken tried (fun _ _ few => few) ?_) fun left next few => ?_
    · rintro refusal after ⟨counted, few⟩
      exact ⟨counted, by omega⟩
    · unfold Few at few
      refine Spec.weaken (settle_count exact left) ?_ ?_
      · intro _ after more
        omega
      · rintro refusal after ⟨counted, more⟩
        exact ⟨counted, by omega⟩
  unfold Spec at result
  cases ran : fillSlice world wp turns supply with
  | ok value after =>
    rw [ran] at result
    exact ⟨after, .inl rfl, result⟩
  | error refusal after =>
    rw [ran] at result
    exact ⟨after, .inr ⟨refusal, result.1, rfl⟩, result.2⟩

def taggedCrypto : Crypto Bytes where
  header src := if payloadNonce ≤ src.length then some (src.take payloadNonce) else none
  decrypt _ _ _ chunk := if tagLen ≤ chunk.length then some (chunk.drop tagLen) else none
  sha256 := id

theorem tagged_exact : Exact taggedCrypto := by
  intro header index last chunk plain opened
  simp only [taggedCrypto] at opened
  split at opened
  · next long =>
    cases opened
    rw [List.length_drop]
    omega
  · cases opened

/-- Two copies, none of whose reads ends well and every one of which gives a byte more. -/
def failingCopies : World Bytes where
  crypto := taggedCrypto
  read count _ _ := (List.replicate (32 + count) 7, true)
  fed _ := .ok
  swap _ := .loaded
  attended := true
  holdersOf _ := [⟨1, "A", 3⟩, ⟨2, "B", 5⟩]
  otherCopiesExist _ _ := true

def failingSlice : WritePositionInfo Bytes := ⟨1, 1, 1, some 3, 64, [], none⟩

def failingStart : Supply Bytes :=
  ⟨some ⟨some 1, "A"⟩, [], [], none, [], [], [], SliceOut.new .file 1, 0, 0⟩

theorem fill_slice_reads_bounded_two_copies :
    ∃ after, (fillSlice failingCopies failingSlice (mostReads 2 1) failingStart = .ok () after ∨
        ∃ refusal, refusal ≠ .outOfTurns ∧
          fillSlice failingCopies failingSlice (mostReads 2 1) failingStart = .error refusal after) ∧
      after.reads ≤ 0 + mostReads 2 1 :=
  fill_slice_reads_bounded tagged_exact failingSlice failingStart rfl (Nat.le_refl _)

end Tapectl.Restore
