import Mathlib

/-!
# Counting holders that are credited once

Several groups each need every one of their parts held. A holder may hold parts of several groups
but is credited to one. A group's count is at most the number of its credited holders of each part;
the counts are added up. Losing fewer holders than the sum leaves some group whole.
-/

namespace Tapectl.Library.Credit

variable {Group Part Holder : Type*} [DecidableEq Holder]

/-- A family of credited holders: `credited g p` are the holders of the part `p` that count for the
group `g`, and no holder counts for two groups. -/
structure Ledger (Group Part Holder : Type*) [DecidableEq Holder] where
  groups : List Group
  parts : Group → Finset Part
  credited : Group → Part → Finset Holder
  nodup : groups.Nodup
  once : ∀ g ∈ groups, ∀ g' ∈ groups, ∀ p ∈ parts g, ∀ p' ∈ parts g', ∀ holder,
    holder ∈ credited g p → holder ∈ credited g' p' → g = g'

namespace Ledger

variable (ledger : Ledger Group Part Holder)

def holders (g : Group) : Finset Holder := (ledger.parts g).biUnion (ledger.credited g)

theorem mem_holders {g : Group} {holder : Holder} :
    holder ∈ ledger.holders g ↔ ∃ p ∈ ledger.parts g, holder ∈ ledger.credited g p :=
  Finset.mem_biUnion

/-- The lost holders of the groups are different ones, so they add up to at most all the lost. -/
theorem sum_lost_le (lost : Finset Holder) :
    (ledger.groups.map fun g => (ledger.holders g ∩ lost).card).sum ≤ lost.card := by
  classical
  have disjoint : (ledger.groups.toFinset : Set Group).PairwiseDisjoint
      fun g => ledger.holders g ∩ lost := by
    intro g first g' second differ
    rw [Function.onFun, Finset.disjoint_left]
    intro holder one other
    obtain ⟨p, inPart, credit⟩ := ledger.mem_holders.mp (Finset.mem_inter.mp one).1
    obtain ⟨p', inPart', credit'⟩ := ledger.mem_holders.mp (Finset.mem_inter.mp other).1
    exact differ (ledger.once g (List.mem_toFinset.mp first) g' (List.mem_toFinset.mp second)
      p inPart p' inPart' holder credit credit')
  rw [← List.sum_toFinset _ ledger.nodup, ← Finset.card_biUnion disjoint]
  exact Finset.card_le_card (Finset.biUnion_subset.mpr fun _ _ => Finset.inter_subset_right)

/-- Fewer losses than the counts add up to leave a group with a remaining holder of each part. -/
theorem survives (count : Group → Nat)
    (bound : ∀ g ∈ ledger.groups, ∀ p ∈ ledger.parts g, count g ≤ (ledger.credited g p).card)
    (lost : Finset Holder) (few : lost.card < (ledger.groups.map count).sum) :
    ∃ g ∈ ledger.groups, 0 < count g ∧
      ∀ p ∈ ledger.parts g, ∃ holder ∈ ledger.credited g p, holder ∉ lost := by
  obtain ⟨g, member, less⟩ := List.exists_lt_of_sum_lt _ _
    ((ledger.sum_lost_le lost).trans_lt few)
  refine ⟨g, member, by omega, fun p inPart => ?_⟩
  have held : (ledger.credited g p ∩ lost).card < (ledger.credited g p).card := by
    have part : ledger.credited g p ∩ lost ⊆ ledger.holders g ∩ lost :=
      Finset.inter_subset_inter_right (Finset.subset_biUnion_of_mem (ledger.credited g) inPart)
    exact ((Finset.card_le_card part).trans_lt less).trans_le (bound g member p inPart)
  by_contra all
  push Not at all
  have inside : ledger.credited g p ⊆ ledger.credited g p ∩ lost := fun holder credit =>
    Finset.mem_inter.mpr ⟨credit, all holder credit⟩
  exact absurd (Finset.card_le_card inside) (Nat.not_le_of_lt held)

end Ledger

/-! A holder whose credit moves costs one group a count, and may earn another group one. -/

section Moved

variable [DecidableEq Group] {groups : List Group} (nodup : groups.Nodup)
  {before after : Group → Nat} {won : Group}

include nodup

theorem sum_indicator (g : Group) :
    (groups.map fun g' => if g' = g then 1 else 0).sum = if g ∈ groups then 1 else 0 := by
  rw [← List.sum_toFinset _ nodup, Finset.sum_ite_eq']
  simp only [List.mem_toFinset]

theorem sum_le_of_lost {lost : Group}
    (each : ∀ g ∈ groups, before g ≤ after g + if g = lost then 1 else 0) :
    (groups.map before).sum ≤ (groups.map after).sum + 1 := by
  have step := List.sum_le_sum each
  rw [List.sum_map_add, sum_indicator nodup] at step
  refine step.trans (Nat.add_le_add_left ?_ _)
  split <;> omega

theorem sum_le_of_moved (lost : Group) (member : won ∈ groups) (each : ∀ g ∈ groups,
      before g + (if g = won then 1 else 0) ≤ after g + if g = lost then 1 else 0) :
    (groups.map before).sum ≤ (groups.map after).sum := by
  have step := List.sum_le_sum each
  rw [List.sum_map_add, List.sum_map_add, sum_indicator nodup, sum_indicator nodup,
    if_pos member] at step
  split at step <;> omega

end Moved

end Tapectl.Library.Credit
