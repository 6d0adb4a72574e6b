import Mathlib

/-!
# Programs that may fail

What a success of an `Except` program says of its steps, and pre- and postconditions of `EStateM`
programs. A program with a state leaves one when it fails too, and what holds of that state is stated
next to what holds after a success.
-/

namespace Effects

variable {ε σ τ α β : Type}

variable {first : Except ε α} {f : α → Except ε β} {items : List α} {results : List β}

theorem bind_ok {next : α → Except ε β} {value : β} (ran : (first >>= next) = .ok value) :
    ∃ mid, first = .ok mid ∧ next mid = .ok value := by
  cases first with
  | error failed => cases ran
  | ok mid => exact ⟨mid, rfl, ran⟩

theorem bind_error {next : α → Except ε β} {failed : ε} (ran : (first >>= next) = .error failed) :
    first = .error failed ∨ ∃ mid, first = .ok mid ∧ next mid = .error failed := by
  cases first with
  | error other =>
    cases ran
    exact .inl rfl
  | ok mid => exact .inr ⟨mid, rfl, ran⟩

theorem map_error_error {rename : ε → τ} {failed : τ}
    (ran : first.mapError rename = .error failed) : ∃ other, rename other = failed := by
  cases first with
  | error other =>
    cases ran
    exact ⟨other, rfl⟩
  | ok mid => cases ran

theorem map_error_ok {rename : ε → τ} {value : α} (ran : first.mapError rename = .ok value) :
    first = .ok value := by
  cases first with
  | error failed => cases ran
  | ok mid =>
    cases ran
    rfl

theorem map_m_ok (mapped : items.mapM f = .ok results) :
    List.Forall₂ (fun item result => f item = .ok result) items results := by
  induction items generalizing results with
  | nil =>
    cases mapped
    exact .nil
  | cons item items ih =>
    rw [List.mapM_cons] at mapped
    obtain ⟨result, first, mapped⟩ := bind_ok mapped
    obtain ⟨others, rest, same⟩ := bind_ok mapped
    cases same
    exact .cons first (ih rest)

theorem map_m_mem (mapped : items.mapM f = .ok results) :
    (∀ item ∈ items, ∃ result ∈ results, f item = .ok result) ∧
      ∀ result ∈ results, ∃ item ∈ items, f item = .ok result := by
  have pairs := map_m_ok mapped
  clear mapped
  induction pairs with
  | nil => exact ⟨nofun, nofun⟩
  | cons first _ ih =>
    refine ⟨List.forall_mem_cons.mpr ⟨⟨_, .head _, first⟩, fun item member => ?_⟩,
      List.forall_mem_cons.mpr ⟨⟨_, .head _, first⟩, fun result member => ?_⟩⟩
    · obtain ⟨result, known, found⟩ := ih.1 item member
      exact ⟨result, .tail _ known, found⟩
    · obtain ⟨item, known, found⟩ := ih.2 result member
      exact ⟨item, .tail _ known, found⟩

theorem map_m_shows (ofItem : α → τ) (ofResult : β → τ) (mapped : items.mapM f = .ok results)
    (shows : ∀ item result, f item = .ok result → ofResult result = ofItem item) :
    results.map ofResult = items.map ofItem := by
  have pairs := map_m_ok mapped
  clear mapped
  induction pairs with
  | nil => rfl
  | cons first _ ih => rw [List.map_cons, List.map_cons, shows _ _ first, ih]

theorem map_m_total (each : ∀ item ∈ items, ∃ result, f item = .ok result) :
    ∃ results, items.mapM f = .ok results := by
  induction items with
  | nil => exact ⟨[], rfl⟩
  | cons item rest ih =>
    obtain ⟨⟨result, first⟩, others⟩ := List.forall_mem_cons.mp each
    obtain ⟨results, later⟩ := ih others
    exact ⟨result :: results, by rw [List.mapM_cons, first, later]; rfl⟩

theorem map_m_eq_ok {g : α → β} (each : ∀ item ∈ items, f item = .ok (g item)) :
    items.mapM f = .ok (items.map g) := by
  induction items with
  | nil => rfl
  | cons item rest ih =>
    obtain ⟨first, others⟩ := List.forall_mem_cons.mp each
    rw [List.mapM_cons, first, ih others]
    rfl

theorem map_m_congr {g : α → Except ε β} (same : ∀ item ∈ items, f item = g item) :
    items.mapM f = items.mapM g := by
  induction items with
  | nil => rfl
  | cons item rest ih =>
    obtain ⟨first, others⟩ := List.forall_mem_cons.mp same
    rw [List.mapM_cons, List.mapM_cons, first, ih others]

/-- From `start` the program succeeds in `post` or fails in `fail`. -/
def Spec (start : σ) (run : EStateM ε σ α) (post : α → σ → Prop) (fail : ε → σ → Prop) : Prop :=
  match run start with
  | .ok value after => post value after
  | .error error after => fail error after

def attempted (run : EStateM ε σ α) : EStateM ε σ (Except ε α) := fun state =>
  match run state with
  | .ok value after => .ok (.ok value) after
  | .error error after => .ok (.error error) after

def zoom (part : σ → τ) (put : τ → σ → σ) (run : EStateM ε τ α) : EStateM ε σ α := fun state =>
  match run (part state) with
  | .ok value after => .ok value (put after state)
  | .error error after => .error error (put after state)

def passes (check : α → σ → Bool) : EStateM.Result ε σ α → Bool
  | .ok value after => check value after
  | .error _ _ => false

namespace Spec

variable {start : σ} {post : α → σ → Prop} {fail : ε → σ → Prop}

theorem weaken {run : EStateM ε σ α} {post' : α → σ → Prop} {fail' : ε → σ → Prop}
    (spec : Spec start run post fail) (after : ∀ value state, post value state → post' value state)
    (failed : ∀ error state, fail error state → fail' error state) :
    Spec start run post' fail' := by
  unfold Spec at spec ⊢
  split at spec
  · exact after _ _ spec
  · exact failed _ _ spec

theorem pure {value : α} (holds : post value start) :
    Spec start (Pure.pure value : EStateM ε σ α) post fail := holds

theorem throw {error : ε} (holds : fail error start) :
    Spec start (MonadExcept.throw error : EStateM ε σ α) post fail := holds

theorem bind {run : EStateM ε σ β} {next : β → EStateM ε σ α} {mid : β → σ → Prop}
    (first : Spec start run mid fail)
    (second : ∀ value state, mid value state → Spec state (next value) post fail) :
    Spec start (run >>= next) post fail := by
  change match EStateM.bind run next start with
    | .ok value after => post value after
    | .error error after => fail error after
  unfold EStateM.bind
  unfold Spec at first
  split at first
  · next value after ran =>
    rw [ran]
    exact second value after first
  · next error after ran =>
    rw [ran]
    exact first

theorem modify {change : σ → σ} {post : Unit → σ → Prop} (holds : post () (change start)) :
    Spec start (modifyGet (fun state => ((), change state)) : EStateM ε σ Unit) post fail := holds

theorem ran {run : EStateM ε σ α} (spec : Spec start run post fail) :
    Spec start run (fun value after => post value after ∧ run start = .ok value after) fail := by
  unfold Spec at spec ⊢
  cases ran : run start with
  | ok value after =>
    rw [ran] at spec
    exact ⟨spec, rfl⟩
  | error error after =>
    rw [ran] at spec
    exact spec

theorem get_bind {next : σ → EStateM ε σ α} (rest : Spec start (next start) post fail) :
    Spec start (MonadState.get >>= next) post fail := rest

theorem modify_bind {change : σ → σ} {next : Unit → EStateM ε σ α}
    (rest : Spec (change start) (next ()) post fail) :
    Spec start ((modifyGet fun state => ((), change state) : EStateM ε σ Unit) >>= next) post fail :=
  rest

theorem attempted {run : EStateM ε σ α} (spec : Spec start run post fail) {never : ε → σ → Prop} :
    Spec start (Effects.attempted run) (fun result state => match result with
      | .ok value => post value state
      | .error error => fail error state) never := by
  unfold Spec Effects.attempted at *
  split at spec
  · exact spec
  · exact spec

theorem zoom {part : τ → σ} {put : σ → τ → τ} {run : EStateM ε σ α} {whole : τ}
    (spec : Spec (part whole) run post fail) :
    Spec whole (Effects.zoom part put run)
      (fun value state => ∃ after, state = put after whole ∧ post value after)
      (fun error state => ∃ after, state = put after whole ∧ fail error after) := by
  unfold Spec Effects.zoom at *
  split at spec
  · exact ⟨_, rfl, spec⟩
  · exact ⟨_, rfl, spec⟩

end Spec

end Effects
