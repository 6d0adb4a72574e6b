import Mathlib

/-!
# Fewest runs

Numbers are read in order, each from a holder of it, and the reader pays for every change of holder.
A reader that stays while its holder has the next number, and otherwise moves to a holder that reads
furthest from there, changes no more often than any other that starts on the same holder.
-/

namespace Tapectl.Library.FewestRuns

variable {Holder : Type*} (holds : Holder → Int → Prop)

def changes [DecidableEq Holder] : List Holder → Nat
  | first :: second :: rest => (if first = second then 0 else 1) + changes (second :: rest)
  | _ => 0

/-- The list names a holder of each number from `start` on. -/
inductive Holding : Int → List Holder → Prop where
  | nil (start : Int) : Holding start []
  | cons {start : Int} {holder : Holder} {rest : List Holder} (here : holds holder start)
      (later : Holding (start + 1) rest) : Holding start (holder :: rest)

/-- From `start` on, `one` holds every unbroken run that `other` holds. -/
def Reaches (one other : Holder) (start : Int) : Prop :=
  ∀ last, (∀ number, start ≤ number → number ≤ last → holds other number) →
    ∀ number, start ≤ number → number ≤ last → holds one number

/-- A holder is left only when it does not hold the next number, for one that reads furthest. -/
inductive Greedy : Int → List Holder → Prop where
  | nil (start : Int) : Greedy start []
  | last (start : Int) (holder : Holder) : Greedy start [holder]
  | stay {start : Int} {holder : Holder} {rest : List Holder}
      (later : Greedy (start + 1) (holder :: rest)) : Greedy start (holder :: holder :: rest)
  | change {start : Int} {holder next : Holder} {rest : List Holder}
      (ends : ¬ holds holder (start + 1))
      (furthest : ∀ other, holds other (start + 1) → Reaches holds next other (start + 1))
      (later : Greedy (start + 1) (next :: rest)) : Greedy start (holder :: next :: rest)

variable {holds}

theorem Reaches.step {one other : Holder} {start : Int} (reaches : Reaches holds one other start)
    (here : holds other start) : Reaches holds one other (start + 1) := by
  intro last run number after before
  refine reaches last (fun held from_ upto => ?_) number (by omega) before
  by_cases first : held = start
  · rw [first]
    exact here
  · exact run held (by omega) upto

theorem Greedy.block {start : Int} {count : Nat} {holder : Holder} {later : List Holder}
    (ends : ¬ holds holder (start + count))
    (furthest : ∀ next ∈ later.head?, ∀ other, holds other (start + count) →
      Reaches holds next other (start + count))
    (rest : Greedy holds (start + count) later) :
    Greedy holds start (List.replicate count holder ++ later) := by
  induction count generalizing start with
  | zero => simpa using rest
  | succ count ih =>
    have place : start + 1 + (count : Int) = start + ((count + 1 : Nat) : Int) := by omega
    rw [← place] at ends furthest rest
    have after := ih ends furthest rest
    cases count with
    | succ count => exact .stay after
    | zero =>
      rw [Int.natCast_zero, Int.add_zero] at ends furthest rest
      cases later with
      | nil => exact .last start holder
      | cons next later => exact .change ends (furthest next (by simp)) rest

variable [DecidableEq Holder]

/-- Position by position the greedy reader is ahead: it has changed no more often than the other,
or once more and now on a holder that does not reach as far. -/
theorem Greedy.ahead {start : Int} {greedy other : List Holder} {one two : Holder}
    (chosen : Greedy holds start (one :: greedy)) (own : Holding holds start (one :: greedy))
    (held : Holding holds start (two :: other)) (same : greedy.length = other.length) :
    changes (one :: greedy) ≤ changes (two :: other) + 1 ∧
      (Reaches holds one two start → changes (one :: greedy) ≤ changes (two :: other)) := by
  induction greedy generalizing start one two other with
  | nil => simp [changes]
  | cons next rest ih =>
    obtain ⟨after, later, rfl⟩ : ∃ after later, other = after :: later := by
      cases other with
      | nil => simp at same
      | cons after later => exact ⟨after, later, rfl⟩
    cases own with
    | cons ownHere ownLater =>
    cases held with
    | cons heldHere heldLater =>
    cases chosen with
    | stay chosenLater =>
      have ahead := ih chosenLater ownLater heldLater (by simpa using same)
      simp only [changes, if_true, Nat.zero_add]
      by_cases moved : two = after
      · subst moved
        simp only [if_true, Nat.zero_add]
        exact ⟨ahead.1, fun reaches => ahead.2 (reaches.step heldHere)⟩
      · simp only [if_neg moved]
        omega
    | change ends furthest chosenLater =>
      have ahead := ih chosenLater ownLater heldLater (by simpa using same)
      have level : changes (next :: rest) ≤ changes (after :: later) := by
        cases heldLater with
        | cons afterHere _ => exact ahead.2 (furthest after afterHere)
      simp only [changes]
      by_cases moved : two = after
      · subst moved
        refine ⟨by split <;> omega, fun reaches => ?_⟩
        -- the other reader holds the next number and the greedy one did not
        have beyond : holds one (start + 1) := by
          refine reaches (start + 1) (fun number from_ upto => ?_) (start + 1) (by omega) le_rfl
          cases heldLater with
          | cons nextHere _ =>
            by_cases first : number = start
            · rw [first]
              exact heldHere
            · obtain rfl : number = start + 1 := by omega
              exact nextHere
        exact absurd beyond ends
      · simp only [if_neg moved]
        split <;> omega

theorem Greedy.fewest {start : Int} {greedy other : List Holder} (chosen : Greedy holds start greedy)
    (own : Holding holds start greedy) (held : Holding holds start other)
    (same : greedy.length = other.length) (begins : greedy.head? = other.head?) :
    changes greedy ≤ changes other := by
  cases greedy with
  | nil => simp [changes]
  | cons one rest =>
    obtain ⟨later, rfl⟩ : ∃ later, other = one :: later := by
      cases other with
      | nil => simp at same
      | cons two later => exact ⟨later, by simpa using begins.symm⟩
    exact (chosen.ahead own held (by simpa using same)).2 fun _ run => run

end Tapectl.Library.FewestRuns
