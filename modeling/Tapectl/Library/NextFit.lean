import Mathlib

/-!
# Next-fit runs

A list is cut into consecutive runs: each element joins the open run if `joins` accepts it there, and
otherwise closes the run for good and opens the next one. What an accepted run is worth is the
caller's; here the runs follow one another, hold every element, and each was closed by the element
that opens the next.
-/

namespace Tapectl.Library.NextFit

variable {α β : Type*} (joins : List α → α → Bool)

/-- The runs of a list, with `current` the open run. -/
def runs : List α → List α → List (List α)
  | current, [] => if current.isEmpty then [] else [current]
  | current, element :: rest =>
    if !current.isEmpty && !joins current element then current :: runs [element] rest
    else runs (current ++ [element]) rest

theorem runs_closes {current : List α} {element : α} (rest : List α) (some_element : current ≠ [])
    (refuses : joins current element = false) :
    runs joins current (element :: rest) = current :: runs joins [element] rest := by
  simp [runs, some_element, refuses]

theorem runs_joins {current : List α} {element : α} (rest : List α)
    (accepts : current = [] ∨ joins current element = true) :
    runs joins current (element :: rest) = runs joins (current ++ [element]) rest := by
  rcases accepts with rfl | accepts <;> simp [runs, *]

theorem runs_cases (current : List α) (element : α) (rest : List α) :
    (current ≠ [] ∧ joins current element = false ∧
      runs joins current (element :: rest) = current :: runs joins [element] rest) ∨
    ((current = [] ∨ joins current element = true) ∧
      runs joins current (element :: rest) = runs joins (current ++ [element]) rest) := by
  by_cases accepts : current = [] ∨ joins current element = true
  · exact .inr ⟨accepts, runs_joins joins rest accepts⟩
  · rw [not_or, Bool.not_eq_true] at accepts
    exact .inl ⟨accepts.1, accepts.2, runs_closes joins rest accepts.1 accepts.2⟩

theorem runs_flatten (current list : List α) :
    (runs joins current list).flatten = current ++ list := by
  induction list generalizing current with
  | nil => by_cases empty : current = [] <;> simp [runs, empty]
  | cons element rest ih =>
    rcases runs_cases joins current element rest with ⟨_, _, same⟩ | ⟨_, same⟩
    · simp [same, ih]
    · simp [same, ih]

theorem runs_nonempty (current list : List α) : [] ∉ runs joins current list := by
  induction list generalizing current with
  | nil => by_cases empty : current = [] <;> simp [runs, empty]
  | cons element rest ih =>
    rcases runs_cases joins current element rest with ⟨opened, _, same⟩ | ⟨_, same⟩
    · rw [same, List.mem_cons, not_or]
      exact ⟨opened.symm, ih _⟩
    · rw [same]
      exact ih _

theorem runs_head (current list : List α) (some_element : current ≠ []) :
    ∃ more later, runs joins current list = (current ++ more) :: later := by
  induction list generalizing current with
  | nil => exact ⟨[], [], by simp [runs, some_element]⟩
  | cons element rest ih =>
    rcases runs_cases joins current element rest with ⟨_, _, same⟩ | ⟨_, same⟩
    · exact ⟨[], runs joins [element] rest, by simp [same]⟩
    · obtain ⟨more, later, found⟩ := ih (current ++ [element]) (by simp)
      exact ⟨element :: more, later, by rw [same, found, List.append_assoc]; rfl⟩

/-- A property that every element has alone, and that an accepted element gives the run it joins,
holds of every run. -/
theorem runs_all {holds : List α → Prop}
    (joined : ∀ current element, current ≠ [] → joins current element = true →
      holds (current ++ [element]))
    (current list : List α) (start : current = [] ∨ holds current)
    (alone : ∀ element ∈ list, holds [element]) :
    ∀ run ∈ runs joins current list, holds run := by
  induction list generalizing current with
  | nil =>
    intro run member
    by_cases empty : current = []
    · simp [runs, empty] at member
    · obtain rfl : run = current := by simpa [runs, empty] using member
      exact start.resolve_left empty
  | cons element rest ih =>
    have later : ∀ other ∈ rest, holds [other] := fun other member => alone other (.tail _ member)
    rcases runs_cases joins current element rest with ⟨opened, _, same⟩ | ⟨accepts, same⟩
    · rw [same]
      intro run member
      rcases List.mem_cons.mp member with rfl | member
      · exact start.resolve_left opened
      · exact ih [element] (.inr (alone element (.head _))) later run member
    · rw [same]
      refine ih (current ++ [element]) (.inr ?_) later
      rcases accepts with rfl | accepts
      · exact alone element (.head _)
      · by_cases empty : current = []
        · subst empty
          exact alone element (.head _)
        · exact joined current element empty accepts

theorem runs_congr {other : List α → α → Bool} (current list : List α)
    (agree : ∀ front element, front ≠ [] → front ++ [element] <:+: current ++ list →
      joins front element = other front element) :
    runs joins current list = runs other current list := by
  induction list generalizing current with
  | nil => rfl
  | cons element rest ih =>
    have tail : ∀ {front : List α}, front <:+: [element] ++ rest → front <:+: current ++ element :: rest :=
      fun part => part.trans (List.suffix_append current (element :: rest)).isInfix
    have moved : runs joins (current ++ [element]) rest = runs other (current ++ [element]) rest :=
      ih _ fun front next some_element part => agree front next some_element (by simpa using part)
    have closed : runs joins [element] rest = runs other [element] rest :=
      ih _ fun front next some_element part => agree front next some_element (tail part)
    rw [runs, runs, moved, closed]
    by_cases empty : current = []
    · simp [empty]
    · rw [agree current element empty ⟨[], rest, by simp⟩]

theorem runs_closed (current list : List α) :
    (runs joins current list).IsChain fun run next =>
      ∃ first ∈ next.head?, joins run first = false := by
  induction list generalizing current with
  | nil => by_cases empty : current = [] <;> simp [runs, empty]
  | cons element rest ih =>
    rcases runs_cases joins current element rest with ⟨_, refuses, same⟩ | ⟨_, same⟩
    · obtain ⟨more, later, found⟩ := runs_head joins [element] rest (by simp)
      rw [same]
      have chain := ih [element]
      rw [found] at chain ⊢
      exact .cons_cons ⟨element, by simp, refuses⟩ chain
    · rw [same]
      exact ih _

theorem runs_map (close : List α → β) (loop : List α → List α → List β)
    (nil : ∀ current, loop current [] = (runs joins current []).map close)
    (cons : ∀ current element rest, loop current (element :: rest) =
      if !current.isEmpty && !joins current element then close current :: loop [element] rest
      else loop (current ++ [element]) rest) (current list : List α) :
    loop current list = (runs joins current list).map close := by
  induction list generalizing current with
  | nil => exact nil current
  | cons element rest ih =>
    rw [cons, runs]
    split
    · rw [List.map_cons, ih]
    · exact ih _

end Tapectl.Library.NextFit
