import Tapectl.Volume.PlanSplit

/-!
# The ends of a plan

Every verdict of `CapacityBudget::place` is an inequality about the end of its unit in the final
order: under the fill ceiling with the reserve, within the plan bound, or across it. The order is
followed unit by unit (`Ends`), first for the loops over one class and then for the three classes in
turn. Sizes whose total fits in 64 bits leave `saturating_add` and `sum()` exact.
-/

namespace Tapectl.Volume

namespace CapacityBudget

variable (budget : CapacityBudget)

/-- The units of a plan from `start` on, as sizes with their verdicts: each verdict is right about
the end of its unit, and nothing follows a tail or a refusal. -/
inductive Ends : Nat → List (Nat × Placed) → Prop where
  | nil (start : Nat) : Ends start []
  | committed {start bytes : Nat} {rest : List (Nat × Placed)}
      (under : start + bytes + budget.reserveBytes ≤ budget.availableBytes)
      (later : Ends (start + bytes) rest) : Ends start ((bytes, .committed) :: rest)
  | pastCeiling {start bytes bound : Nat} {rest : List (Nat × Placed)}
      (limited : budget.planBoundBytes = some bound) (within : start + bytes ≤ bound)
      (passes : budget.availableBytes < start + bytes + budget.reserveBytes)
      (later : Ends (start + bytes) rest) : Ends start ((bytes, .pastCeiling) :: rest)
  | tail {start bytes bound : Nat} (limited : budget.planBoundBytes = some bound)
      (starts : start ≤ bound) (crosses : bound < start + bytes) : Ends start [(bytes, .tail)]
  | refused {start bytes : Nat} (unlimited : budget.planBoundBytes = none)
      (passes : budget.availableBytes < start + bytes + budget.reserveBytes) :
      Ends start [(bytes, .refused)]

variable {budget}

theorem Ends.append {start : Nat} {first second : List (Nat × Placed)}
    (ends : budget.Ends start first) (settled : ∀ unit ∈ first, Settled unit.2)
    (later : budget.Ends (start + (first.map Prod.fst).sum) second) :
    budget.Ends start (first ++ second) := by
  induction ends with
  | nil start => simpa using later
  | committed under _ ih =>
    refine .committed under (ih (fun unit member => settled unit (.tail _ member)) ?_)
    simpa [Nat.add_assoc] using later
  | pastCeiling limited within passes _ ih =>
    refine .pastCeiling limited within passes (ih (fun unit member => settled unit (.tail _ member)) ?_)
    simpa [Nat.add_assoc] using later
  | tail => exact absurd rfl (settled _ (.head _)).ne_tail
  | refused => exact absurd (settled _ (.head _)).planned (by simp [Placed.planned])

def RightAbout (budget : CapacityBudget) (start finish : Nat) : Placed → Prop
  | .committed => finish + budget.reserveBytes ≤ budget.availableBytes
  | .pastCeiling => ∃ bound, budget.planBoundBytes = some bound ∧ finish ≤ bound ∧
      budget.availableBytes < finish + budget.reserveBytes
  | .tail => ∃ bound, budget.planBoundBytes = some bound ∧ start ≤ bound ∧ bound < finish
  | .deferred => False
  | .refused => True

theorem Ends.right_about {start : Nat} {units : List (Nat × Placed)} (ends : budget.Ends start units)
    {k bytes : Nat} {placed : Placed} (found : units[k]? = some (bytes, placed)) :
    RightAbout budget (start + ((units.take k).map Prod.fst).sum)
      (start + ((units.take (k + 1)).map Prod.fst).sum) placed := by
  induction ends generalizing k with
  | nil => simp at found
  | committed under _ ih =>
    cases k with
    | zero =>
      obtain ⟨rfl, rfl⟩ := by simpa using found
      simpa [RightAbout] using under
    | succ k => simpa [Nat.add_assoc] using ih (by simpa using found)
  | pastCeiling limited within passes _ ih =>
    cases k with
    | zero =>
      obtain ⟨rfl, rfl⟩ := by simpa using found
      exact ⟨_, limited, by simpa using within, by simpa using passes⟩
    | succ k => simpa [Nat.add_assoc] using ih (by simpa using found)
  | tail limited starts crosses =>
    cases k with
    | zero =>
      obtain ⟨rfl, rfl⟩ := by simpa using found
      exact ⟨_, limited, by simpa using starts, by simpa using crosses⟩
    | succ k => simp at found
  | refused =>
    cases k with
    | zero =>
      obtain ⟨rfl, rfl⟩ := by simpa using found
      trivial
    | succ k => simp at found

theorem Ends.none_committed {start : Nat} {units : List (Nat × Placed)}
    (ends : budget.Ends start units) (passed : budget.availableBytes < start + budget.reserveBytes) :
    ∀ unit ∈ units, unit.2 ≠ .committed := by
  induction ends with
  | nil => simp
  | committed under => omega
  | pastCeiling _ _ passes _ ih =>
    intro unit member
    rcases List.mem_cons.mp member with rfl | member
    · simp
    · exact ih passes unit member
  | tail => simp
  | refused => simp

theorem Ends.committed_first {start : Nat} {units : List (Nat × Placed)}
    (ends : budget.Ends start units) :
    units.Pairwise fun first second => second.2 = .committed → first.2 = .committed := by
  induction ends with
  | nil => exact .nil
  | committed _ _ ih => exact .cons (fun _ _ _ => rfl) ih
  | pastCeiling _ _ passes later ih =>
    exact .cons (fun unit member same => absurd same (later.none_committed passes unit member)) ih
  | tail => exact List.pairwise_singleton _ _
  | refused => exact List.pairwise_singleton _ _

theorem Ends.planned {start : Nat} {units : List (Nat × Placed)} (ends : budget.Ends start units) :
    budget.Ends start (units.filter fun unit => unit.2.planned) := by
  induction ends with
  | nil start => exact .nil start
  | committed under _ ih => exact .committed under ih
  | pastCeiling limited within passes _ ih => exact .pastCeiling limited within passes ih
  | tail limited starts crosses => exact .tail limited starts crosses
  | refused => exact .nil _

theorem Ends.within {start : Nat} {units : List (Nat × Placed)} (ends : budget.Ends start units)
    (settled : ∀ unit ∈ units, Settled unit.2) {bound : Nat}
    (limited : budget.planBoundBytes = some bound) (available : budget.availableBytes ≤ bound)
    (starts : start ≤ bound) : start + (units.map Prod.fst).sum ≤ bound := by
  induction ends with
  | nil => simpa using starts
  | committed under _ ih =>
    have := ih (fun unit member => settled unit (.tail _ member)) (by omega)
    simpa [Nat.add_assoc] using this
  | pastCeiling found within _ _ ih =>
    obtain rfl := Option.some.inj (limited.symm.trans found)
    have := ih (fun unit member => settled unit (.tail _ member)) within
    simpa [Nat.add_assoc] using this
  | tail => exact absurd rfl (settled _ (.head _)).ne_tail
  | refused => exact absurd (settled _ (.head _)).planned (by simp [Placed.planned])

section Loops

variable {start : Nat} {sizes : List Nat}

/-- The units the whole-unit loop keeps, with the verdicts `place` reads off its two counts. -/
def keptUnits (run : Nat × Nat) (sizes : List Nat) : List (Nat × Placed) :=
  (sizes.take run.2).zip
    ((List.range run.2).map fun n => if n < run.1 then .committed else .pastCeiling)

theorem kept_units_committed (run : Nat × Nat) (bytes : Nat) (rest : List Nat) :
    keptUnits (run.1 + 1, run.2 + 1) (bytes :: rest) = (bytes, .committed) :: keptUnits run rest := by
  simp only [keptUnits, List.take_succ_cons, List.range_succ_eq_map, List.map_cons, List.map_map,
    List.zip_cons_cons, Nat.zero_lt_succ, if_true]
  congr 3
  funext n
  simp

theorem kept_units_past (kept bytes : Nat) (rest : List Nat) :
    keptUnits (0, kept + 1) (bytes :: rest) = (bytes, .pastCeiling) :: keptUnits (0, kept) rest := by
  simp only [keptUnits, List.take_succ_cons, List.range_succ_eq_map, List.map_cons, List.map_map,
    List.zip_cons_cons, Nat.lt_irrefl, if_false]
  congr 3

theorem whole_run_ends {pastCeiling crossed : Bool}
    (small : start + sizes.sum + budget.reserveBytes < 2 ^ 64)
    (flag : crossed = true → budget.availableBytes < start + budget.reserveBytes) :
    budget.Ends start (keptUnits (budget.wholeRun pastCeiling crossed start sizes) sizes) := by
  induction sizes generalizing start crossed with
  | nil => exact .nil start
  | cons bytes rest ih =>
    rw [List.sum_cons] at small
    have exact : saturatingAddU64 start bytes = start + bytes := exact_add (by omega)
    have exactEnd : saturatingAddU64 (start + bytes) budget.reserveBytes =
        start + bytes + budget.reserveBytes := exact_add (by omega)
    simp only [wholeRun, exact, exactEnd]
    split
    case isTrue under =>
      rw [kept_units_committed]
      exact .committed under.2 (ih (by omega) (by simp))
    case isFalse beyond =>
      have passes : budget.availableBytes < start + bytes + budget.reserveBytes := by
        cases crossed with
        | true =>
          have := flag rfl
          omega
        | false => simpa using beyond
      cases limited : budget.planBoundBytes with
      | none => exact .nil start
      | some bound =>
        dsimp only
        split
        case isTrue within =>
          rw [whole_run_crossed, kept_units_past]
          have later := @ih (start + bytes) true (by omega) fun _ => passes
          have counts := budget.whole_run_crossed pastCeiling (start + bytes) rest
          rw [← counts]
          exact .pastCeiling limited within.2 passes later
        case isFalse => exact .nil start

/-- What the loop over spannable units decides: each verdict right, and, when it stays open, the
plan's end. -/
theorem span_run_ends (small : start + sizes.sum + budget.reserveBytes < 2 ^ 64)
    (bounded : ∀ bound, budget.planBoundBytes = some bound →
      budget.availableBytes ≤ bound ∧ start ≤ bound) :
    budget.Ends start (sizes.zip (budget.spanRun start sizes).placed) ∧
      (Cut.opened (budget.spanRun start sizes) = true →
        (budget.spanRun start sizes).finish = start + sizes.sum) := by
  induction sizes generalizing start with
  | nil => exact ⟨.nil start, fun _ => rfl⟩
  | cons bytes rest ih =>
    rw [List.sum_cons] at small ⊢
    have exact : saturatingAddU64 start bytes = start + bytes := exact_add (by omega)
    have exactEnd : saturatingAddU64 (start + bytes) budget.reserveBytes =
        start + bytes + budget.reserveBytes := exact_add (by omega)
    simp only [spanRun, spanPlaced, exact, exactEnd]
    by_cases under : start + bytes + budget.reserveBytes ≤ budget.availableBytes
    · obtain ⟨ends, finish⟩ := @ih (start + bytes) (by omega) fun bound limited =>
        ⟨(bounded bound limited).1, by have := (bounded bound limited).1; omega⟩
      simp only [if_pos under]
      refine ⟨.committed under ends, fun opened => ?_⟩
      rw [← Nat.add_assoc]
      exact finish opened
    · have passes : budget.availableBytes < start + bytes + budget.reserveBytes := by omega
      simp only [if_neg under]
      cases limited : budget.planBoundBytes with
      | none =>
        simp only [List.zip_cons_cons, List.zip_nil_right]
        exact ⟨.refused limited passes, by simp [Cut.opened]⟩
      | some bound =>
        by_cases within : start + bytes ≤ bound
        · obtain ⟨ends, finish⟩ := @ih (start + bytes) (by omega) fun other found =>
            ⟨(bounded other found).1, by rw [limited] at found; cases found; exact within⟩
          simp only [if_pos within]
          refine ⟨.pastCeiling limited within passes ends, fun opened => ?_⟩
          rw [← Nat.add_assoc]
          exact finish opened
        · simp only [if_neg within, List.zip_cons_cons, List.zip_nil_right]
          exact ⟨.tail limited (bounded bound limited).2 (by omega), by simp [Cut.opened]⟩

end Loops

theorem item_sizes_class (items : List PlanItem) (planClass : PlanClass) :
    itemSizes items (classIndices items planClass) =
      (items.filter fun item => item.planClass = planClass).map PlanItem.bytes := by
  induction items with
  | nil => rfl
  | cons item rest ih =>
    have split := class_indices_append [item] rest planClass
    rw [List.singleton_append] at split
    have shifted := item_sizes_shift [item] rest (classIndices rest planClass)
    rw [List.singleton_append] at shifted
    rw [split, itemSizes, List.map_append, ← itemSizes, ← itemSizes, shifted, ih]
    by_cases same : item.planClass = planClass
    · simp [classIndices, itemSizes, same, List.range_succ]
    · simp [classIndices, itemSizes, same, List.range_succ]

section Turns

variable {fixedBytes : Nat} {owed whole spannable : List Nat}

/-- The units of a cut in the order of the plan, as sizes with their verdicts. -/
def Cut.units (cut : Cut) (owed whole spannable : List Nat) : List (Nat × Placed) :=
  owed.zip cut.owed.placed ++ keptUnits (cut.committed, cut.kept) whole ++
    (spannable.zip cut.spans.placed).filter fun unit => unit.2.planned

theorem kept_units_settled (run : Nat × Nat) : ∀ unit ∈ keptUnits run whole, Settled unit.2 := by
  intro unit member
  obtain ⟨n, _, verdict⟩ := List.mem_map.mp (List.of_mem_zip member).2
  rw [← verdict]
  split
  · exact .inl rfl
  · exact .inr rfl

theorem kept_units_sum (run : Nat × Nat) :
    ((keptUnits run whole).map Prod.fst).sum = (whole.take run.2).sum := by
  rw [keptUnits, List.map_fst_zip]
  simp

variable {sizes : List Nat}

theorem opened_settled {start : Nat} (opened : Cut.opened (budget.spanRun start sizes) = true) :
    (∀ unit ∈ sizes.zip (budget.spanRun start sizes).placed, Settled unit.2) ∧
      (sizes.zip (budget.spanRun start sizes).placed).map Prod.fst = sizes := by
  have ended := budget.span_run_ended start sizes
  generalize budget.spanRun start sizes = run at ended opened
  cases ended with
  | complete finish settled fits reached =>
    exact ⟨fun unit member => fits _ (List.of_mem_zip member).2, List.map_fst_zip reached.ge⟩
  | tail => simp [Cut.opened] at opened
  | refused => simp [Cut.opened] at opened

theorem zip_append_right {front rest : List Placed} :
    front.length ≤ sizes.length →
      sizes.zip (front ++ rest) = sizes.zip front ++ (sizes.drop front.length).zip rest := by
  induction front generalizing sizes with
  | nil => simp
  | cons placed front ih =>
    intro le
    cases sizes with
    | nil => simp at le
    | cons bytes sizes =>
      simp only [List.cons_append, List.zip_cons_cons, List.length_cons, List.drop_succ_cons]
      rw [ih (by simpa using le)]

theorem place_spans_planned_units {start : Nat} :
    ((sizes.zip (budget.placeSpans sizes start false).placed).filter fun unit => unit.2.planned) =
      (sizes.zip (budget.spanRun start sizes).placed).filter fun unit => unit.2.planned := by
  have reached := (budget.span_run_ended start sizes).length_le
  rw [place_spans_opened, SpanRun.fill, zip_append_right reached, List.filter_append]
  refine List.append_right_eq_self.mpr ?_
  refine List.filter_eq_nil_iff.mpr fun unit member => ?_
  rw [List.eq_of_mem_replicate (List.of_mem_zip member).2]
  split <;> simp [Placed.planned]

theorem cut_ends
    (small : fixedBytes + (owed.sum + whole.sum + spannable.sum) + budget.reserveBytes < 2 ^ 64)
    (fixed : fixedBytes ≤ budget.availableBytes)
    (bounded : ∀ bound, budget.planBoundBytes = some bound → budget.availableBytes ≤ bound) :
    budget.Ends fixedBytes
      ((budget.cut fixedBytes owed whole spannable).units owed whole spannable) := by
  have owedSmall : fixedBytes + owed.sum + budget.reserveBytes < 2 ^ 64 := by omega
  obtain ⟨owedEnds, owedFinish⟩ := span_run_ends owedSmall fun bound limited =>
    ⟨bounded bound limited, fixed.trans (bounded bound limited)⟩
  have spanEnds : ∀ {start : Nat}, start + spannable.sum + budget.reserveBytes < 2 ^ 64 →
      (∀ bound, budget.planBoundBytes = some bound → start ≤ bound) →
      budget.Ends start ((spannable.zip (budget.placeSpans spannable start false).placed).filter
        fun unit => unit.2.planned) := by
    intro start fits within
    rw [place_spans_planned_units]
    exact (span_run_ends fits fun bound limited =>
      ⟨bounded bound limited, within bound limited⟩).1.planned
  rcases budget.cut_cases fixedBytes owed whole spannable with
    ⟨_, start, same⟩ | ⟨opened, _, _, same⟩ | ⟨opened, _, same⟩
  · -- an owed run closed the plan
    have none : ((spannable.zip (List.replicate spannable.length Placed.deferred)).filter
        fun unit => unit.2.planned) = [] := by
      refine List.filter_eq_nil_iff.mpr fun unit member => ?_
      rw [List.eq_of_mem_replicate (List.of_mem_zip member).2]
      decide
    rw [same, Cut.units, place_spans_closed, none]
    simpa [keptUnits] using owedEnds
  · -- the whole units are displaced: the sets follow the owed runs
    obtain ⟨settled, sizes⟩ := opened_settled opened
    have finish := owedFinish opened
    rw [same, Cut.units]
    simp only [keptUnits, List.take_zero, List.zip_nil_left, List.append_nil]
    refine owedEnds.append settled ?_
    rw [sizes, ← finish]
    refine spanEnds (by omega) fun bound limited => ?_
    have within := owedEnds.within settled limited (bounded bound limited)
      (fixed.trans (bounded bound limited))
    rwa [sizes, ← finish] at within
  · -- the kept whole units come between the owed runs and the sets
    obtain ⟨settled, sizes⟩ := opened_settled opened
    have finish := owedFinish opened
    have counts := (budget.whole_run_le spannable.isEmpty false (budget.spanRun fixedBytes owed).finish
      (whole.take (budget.wholeRun true false fixedBytes whole).2)).2
    rw [List.length_take] at counts
    have baseline := List.sum_take_add_sum_drop whole (budget.wholeRun true false fixedBytes whole).2
    have wholeEnds := @whole_run_ends budget (budget.spanRun fixedBytes owed).finish
      (whole.take (budget.wholeRun true false fixedBytes whole).2) spannable.isEmpty false
      (by omega) (by simp)
    rw [same, Cut.units]
    dsimp only
    generalize budget.wholeRun spannable.isEmpty false (budget.spanRun fixedBytes owed).finish
      (whole.take (budget.wholeRun true false fixedBytes whole).2) = run at counts wholeEnds ⊢
    have taken : (whole.take (budget.wholeRun true false fixedBytes whole).2).take run.2 =
        whole.take run.2 := by
      rw [List.take_take, min_eq_left (by omega)]
    have total := List.sum_take_add_sum_drop whole run.2
    have start : saturatingAddU64 (budget.spanRun fixedBytes owed).finish
        (wrappingSum (whole.take run.2)) =
          (budget.spanRun fixedBytes owed).finish + (whole.take run.2).sum := by
      rw [wrappingSum, Nat.mod_eq_of_lt (by omega)]
      exact exact_add (by omega)
    rw [keptUnits, taken, ← keptUnits] at wholeEnds
    rw [taken, start, List.append_assoc]
    refine owedEnds.append settled ?_
    rw [sizes, ← finish]
    refine wholeEnds.append (kept_units_settled _) ?_
    rw [kept_units_sum]
    refine spanEnds (by omega) fun bound limited => ?_
    have owedWithin := owedEnds.within settled limited (bounded bound limited)
      (fixed.trans (bounded bound limited))
    rw [sizes, ← finish] at owedWithin
    have within := wholeEnds.within (kept_units_settled _) limited (bounded bound limited) owedWithin
    rwa [kept_units_sum] at within

end Turns

section Order

variable (budget) (fixedBytes : Nat) (items : List PlanItem)

theorem Cut.units_map (cut : Cut) (size : Nat → Nat) (owed whole spannable : List Nat) :
    cut.units (owed.map size) (whole.map size) (spannable.map size) =
      (cut.units owed whole spannable).map (Prod.map size id) := by
  simp only [Cut.units, keptUnits, List.map_append, ← List.map_take, List.zip_map_left,
    List.filter_map]
  rfl

theorem map_fst_zip_take (indices : List Nat) (verdicts : List Placed) :
    (indices.zip verdicts).map Prod.fst = indices.take verdicts.length := by
  induction indices generalizing verdicts with
  | nil => simp
  | cons index indices ih =>
    cases verdicts with
    | nil => rfl
    | cons placed verdicts => simp [ih]

def ordered : List (Nat × Placed) :=
  (budget.planCut fixedBytes items).units (classIndices items .owed) (classIndices items .whole)
    (classIndices items .spannable)

theorem ordered_units : (budget.ordered fixedBytes items).map Prod.fst =
    (budget.place fixedBytes items).order := by
  simp only [ordered, Cut.units, List.map_append, map_fst_zip_take, keptUnits, place,
    List.length_map, List.length_range]
  rw [List.take_take, min_self]

variable {placed : Placed}

theorem mem_zip_range {units : List Nat} {count : Nat} {verdict : Nat → Placed} {i : Nat} :
    (i, placed) ∈ units.zip ((List.range count).map verdict) ↔
      ∃ n < count, units[n]? = some i ∧ verdict n = placed := by
  rw [List.mem_iff_getElem?]
  simp only [List.getElem?_zip_eq_some, List.getElem?_map, Option.map_eq_some_iff]
  constructor
  · rintro ⟨n, there, m, inRange, same⟩
    obtain ⟨inside, rfl⟩ := List.getElem?_eq_some_iff.mp inRange
    rw [List.getElem_range] at same
    exact ⟨n, by simpa using inside, there, same⟩
  · rintro ⟨n, inside, there, same⟩
    exact ⟨n, there, n, List.getElem?_range inside, same⟩

theorem mem_kept_units {run : Nat × Nat} {whole : List Nat} {i : Nat} :
    (i, placed) ∈ keptUnits run whole ↔ ∃ n < run.2, whole[n]? = some i ∧
      (if n < run.1 then Placed.committed else .pastCeiling) = placed := by
  rw [keptUnits, mem_zip_range]
  refine exists_congr fun n => and_congr_right fun inside => ?_
  rw [List.getElem?_take, if_pos inside]

theorem mem_whole_verdicts {verdict : Nat → Placed} {whole : List Nat} {i : Nat} :
    (i, placed) ∈ whole.zip ((List.range whole.length).map verdict) ↔
      ∃ n, whole[n]? = some i ∧ verdict n = placed := by
  rw [mem_zip_range]
  refine exists_congr fun n => and_iff_right_of_imp fun found => ?_
  exact (List.getElem?_eq_some_iff.mp found.1).1

theorem owed_verdicts : (classIndices items .owed).zip
      ((budget.planCut fixedBytes items).owed.fill (classIndices items .owed).length .deferred) =
    (classIndices items .owed).zip (budget.planCut fixedBytes items).owed.placed ++
      ((classIndices items .owed).drop (budget.planCut fixedBytes items).owed.placed.length).zip
        (List.replicate ((classIndices items .owed).length -
          (budget.planCut fixedBytes items).owed.placed.length) .deferred) := by
  refine zip_append_right ?_
  rw [← length_item_sizes items]
  exact (budget.plan_cut_owed_ended fixedBytes items).length_le

theorem kept_verdict {cut : Cut} (keptLe : cut.kept ≤ cut.held) {n : Nat} (inside : n < cut.kept) :
    cut.wholeVerdict n = if n < cut.committed then .committed else .pastCeiling := by
  simp only [Cut.wholeVerdict]
  rw [if_neg (by omega), if_pos inside]
  split_ifs <;> first | rfl | omega

theorem ordered_verdicts {i : Nat} (member : (i, placed) ∈ budget.ordered fixedBytes items) :
    (budget.place fixedBytes items).placed[i]? = some placed := by
  have keptLe : (budget.planCut fixedBytes items).kept ≤ (budget.planCut fixedBytes items).held :=
    budget.cut_kept_le _ _ _ _
  rw [placed_iff, verdicts, owed_verdicts]
  simp only [ordered, Cut.units, List.mem_append] at member ⊢
  rcases member with (member | member) | member
  · exact .inl (.inl (.inl member))
  · obtain ⟨n, inside, there, verdict⟩ := mem_kept_units.mp member
    exact .inl (.inr (mem_whole_verdicts.mpr ⟨n, there, (kept_verdict keptLe inside).trans verdict⟩))
  · exact .inr (List.mem_filter.mp member).1

theorem planned_ordered {i : Nat}
    (verdict : (budget.place fixedBytes items).placed[i]? = some placed)
    (planned : placed.planned = true) : (i, placed) ∈ budget.ordered fixedBytes items := by
  have keptLe : (budget.planCut fixedBytes items).kept ≤ (budget.planCut fixedBytes items).held :=
    budget.cut_kept_le _ _ _ _
  rw [placed_iff, verdicts, owed_verdicts] at verdict
  simp only [ordered, Cut.units, List.mem_append] at verdict ⊢
  rcases verdict with ((member | late) | member) | member
  · exact .inl (.inl member)
  · rw [List.eq_of_mem_replicate (List.of_mem_zip late).2] at planned
    cases planned
  · obtain ⟨n, there, verdict⟩ := mem_whole_verdicts.mp member
    have inside : n < (budget.planCut fixedBytes items).kept := by
      by_contra outside
      simp only [Cut.wholeVerdict] at verdict
      rw [if_neg (show ¬ n < min _ _ by omega), if_neg outside] at verdict
      split at verdict <;> (rw [← verdict] at planned; cases planned)
    refine .inl (.inr (mem_kept_units.mpr ⟨n, inside, there, ?_⟩))
    exact (kept_verdict keptLe inside).symm.trans verdict
  · exact .inr (List.mem_filter.mpr ⟨member, planned⟩)

theorem order_nodup : (budget.place fixedBytes items).order.Nodup := by
  have sublist : (budget.place fixedBytes items).order.Sublist
      (classIndices items .owed ++ classIndices items .whole ++ classIndices items .spannable) := by
    refine ((List.take_sublist _ _).append (List.take_sublist _ _)).append ?_
    refine (List.filter_sublist.map _).trans ?_
    rw [map_fst_zip_take]
    exact List.take_sublist _ _
  exact ((plan_order_sorted items).imp ComesBefore.ne).sublist sublist

theorem filter_front {α : Type} {few more : α → Bool} {list : List α}
    (first : list.Pairwise fun before after => few after = true → few before = true)
    (larger : ∀ element, few element = true → more element = true) :
    list.filter few <+: list.filter more := by
  induction list with
  | nil => exact List.nil_prefix
  | cons element rest ih =>
    obtain ⟨head, later⟩ := List.pairwise_cons.mp first
    by_cases chosen : few element = true
    · rw [List.filter_cons_of_pos chosen, List.filter_cons_of_pos (larger element chosen)]
      exact (List.prefix_cons_inj element).mpr (ih later)
    · have none : (element :: rest).filter few = [] := by
        refine List.filter_eq_nil_iff.mpr fun other member => ?_
        rcases List.mem_cons.mp member with rfl | member
        · exact chosen
        · exact fun found => chosen (head other member found)
      rw [none]
      exact List.nil_prefix

theorem class_sums : (itemSizes items (classIndices items .owed)).sum +
      (itemSizes items (classIndices items .whole)).sum +
      (itemSizes items (classIndices items .spannable)).sum = (items.map PlanItem.bytes).sum := by
  simp only [item_sizes_class]
  induction items with
  | nil => rfl
  | cons item rest ih =>
    obtain ⟨planClass, bytes⟩ := item
    cases planClass <;> simp <;> omega

/-- Where the unit `i` starts: after the fixed files and the units ordered before it. -/
def startOf (order : List Nat) (i : Nat) : Nat :=
  fixedBytes + (itemSizes items (order.take (order.idxOf i))).sum

def endOf (order : List Nat) (i : Nat) : Nat :=
  fixedBytes + (itemSizes items (order.take (order.idxOf i + 1))).sum

section Exact

variable {budget fixedBytes items}
  (small : fixedBytes + (items.map PlanItem.bytes).sum + budget.reserveBytes < 2 ^ 64)
  (fixed : fixedBytes ≤ budget.availableBytes)
  (bounded : ∀ bound, budget.planBoundBytes = some bound → budget.availableBytes ≤ bound)

include small fixed bounded

theorem ordered_ends : budget.Ends fixedBytes ((budget.ordered fixedBytes items).map
    (Prod.map (fun i => ((items[i]?).map PlanItem.bytes).getD 0) id)) := by
  rw [ordered, ← Cut.units_map]
  refine cut_ends ?_ fixed bounded
  rw [class_sums]
  exact small

/-- Every planned unit is in the order, and its verdict is right about where it starts and ends. -/
theorem planned_right {i : Nat} {placed : Placed}
    (verdict : (budget.place fixedBytes items).placed[i]? = some placed)
    (planned : placed.planned = true) :
    i ∈ (budget.place fixedBytes items).order ∧
      RightAbout budget (startOf fixedBytes items (budget.place fixedBytes items).order i)
        (endOf fixedBytes items (budget.place fixedBytes items).order i) placed := by
  have member := budget.planned_ordered fixedBytes items verdict planned
  have units := budget.ordered_units fixedBytes items
  obtain ⟨k, found⟩ := List.mem_iff_getElem?.mp member
  have there : (budget.place fixedBytes items).order[k]? = some i := by
    rw [← units, List.getElem?_map, found]
    rfl
  obtain ⟨inside, same⟩ := List.getElem?_eq_some_iff.mp there
  have index : (budget.place fixedBytes items).order.idxOf i = k := by
    rw [← same]
    exact (budget.order_nodup fixedBytes items).idxOf_getElem k inside
  have sizes : ∀ count, ((((budget.ordered fixedBytes items).map
      (Prod.map (fun i => ((items[i]?).map PlanItem.bytes).getD 0) id)).take count).map
        Prod.fst) = itemSizes items ((budget.place fixedBytes items).order.take count) := by
    intro count
    rw [← units, itemSizes, ← List.map_take, ← List.map_take, List.map_map, List.map_map]
    rfl
  have right := (ordered_ends small fixed bounded).right_about (List.getElem?_map.trans
    (congrArg (Option.map _) found))
  rw [sizes, sizes] at right
  refine ⟨List.mem_of_getElem? there, ?_⟩
  rw [startOf, endOf, index]
  exact right

theorem committed_units_first :
    ((budget.place fixedBytes items).order.filter fun i =>
        (budget.place fixedBytes items).placed[i]? = some .committed) <+:
      (budget.place fixedBytes items).order.filter fun i =>
        (budget.place fixedBytes items).placed[i]? ≠ some .refused := by
  have first := List.pairwise_map.mp (ordered_ends small fixed bounded).committed_first
  have verdict : ∀ unit ∈ budget.ordered fixedBytes items,
      (budget.place fixedBytes items).placed[unit.1]? = some unit.2 := fun unit member =>
    budget.ordered_verdicts fixedBytes items member
  rw [← budget.ordered_units, List.filter_map, List.filter_map]
  refine List.IsPrefix.map _ ?_
  have committed : ((budget.ordered fixedBytes items).filter
      ((fun i => decide ((budget.place fixedBytes items).placed[i]? = some .committed)) ∘ Prod.fst)) =
      (budget.ordered fixedBytes items).filter fun unit => unit.2 = .committed := by
    refine List.filter_congr fun unit member => ?_
    simp [verdict unit member]
  have kept : ((budget.ordered fixedBytes items).filter
      ((fun i => decide ((budget.place fixedBytes items).placed[i]? ≠ some .refused)) ∘ Prod.fst)) =
      (budget.ordered fixedBytes items).filter fun unit => unit.2 ≠ .refused := by
    refine List.filter_congr fun unit member => ?_
    simp [verdict unit member]
  rw [committed, kept]
  refine filter_front (first.imp fun imp found => ?_) fun unit found => ?_
  · simpa using imp (by simpa using found)
  · simp [of_decide_eq_true found]

end Exact

/-- The verdict of the `n`th whole unit. -/
def wholePlaced (n : Nat) : Option Placed :=
  (classIndices items .whole)[n]?.bind fun i => (budget.place fixedBytes items).placed[i]?

theorem whole_placed_eq (n : Nat) : budget.wholePlaced fixedBytes items n =
    if n < (classIndices items .whole).length then
      some ((budget.planCut fixedBytes items).wholeVerdict n) else none := by
  unfold wholePlaced
  split
  case isTrue inside =>
    rw [List.getElem?_eq_getElem inside, Option.bind_some, placed_iff, verdicts]
    simp only [List.mem_append]
    exact .inl (.inr (mem_whole_verdicts.mpr ⟨n, List.getElem?_eq_getElem inside, rfl⟩))
  case isFalse outside =>
    rw [List.getElem?_eq_none (by omega)]
    rfl

theorem whole_refused_iff (n : Nat) : budget.wholePlaced fixedBytes items n = some .refused ↔
    (budget.wholeRun true false fixedBytes
        ((items.filter fun item => item.planClass = .whole).map PlanItem.bytes)).2 ≤ n ∧
      n < (items.filter fun item => item.planClass = .whole).length := by
  have units : (classIndices items .whole).length =
      (items.filter fun item => item.planClass = .whole).length := by
    rw [← length_item_sizes items, item_sizes_class, List.length_map]
  have held : (budget.planCut fixedBytes items).held = (budget.wholeRun true false fixedBytes
      ((items.filter fun item => item.planClass = .whole).map PlanItem.bytes)).2 := by
    rw [planCut, cut_held, item_sizes_class]
  rw [whole_placed_eq, units, ← held]
  by_cases inside : n < (items.filter fun item => item.planClass = .whole).length
  · simp only [inside, if_true, and_true, Option.some.injEq, Cut.wholeVerdict]
    split_ifs <;> simp_all
  · simp [inside]

theorem whole_alone_kept (alone : ∀ item ∈ items, item.planClass = .whole) :
    (budget.planCut fixedBytes items).kept = (budget.planCut fixedBytes items).held := by
  have none : ∀ {planClass : PlanClass}, planClass ≠ .whole → classIndices items planClass = [] :=
    fun other => class_indices_none fun item member same => other (same.symm.trans (alone item member))
  rw [planCut, none (by decide : PlanClass.owed ≠ .whole),
    none (by decide : PlanClass.spannable ≠ .whole)]
  change (budget.cut fixedBytes [] (itemSizes items (classIndices items .whole)) []).kept =
    (budget.cut fixedBytes [] (itemSizes items (classIndices items .whole)) []).held
  rw [cut_whole]

theorem place_spans_tail_reached {sizes : List Nat} {start n : Nat} {closed : Bool}
    (tail : (budget.placeSpans sizes start closed).placed[n]? = some .tail) :
    closed = false ∧ ∃ settled : List Placed, (∀ placed ∈ settled, Settled placed) ∧
      settled.length = n ∧ (budget.spanRun start sizes).placed = settled ++ [.tail] ∧
      (budget.spanRun start sizes).tailBytes = sizes[n]? := by
  cases closed with
  | true =>
    rw [place_spans_closed] at tail
    cases List.eq_of_mem_replicate (List.mem_of_getElem? tail)
  | false =>
    refine ⟨rfl, ?_⟩
    rw [place_spans_opened, SpanRun.fill] at tail
    dsimp only at tail
    have late : ∀ {m : Nat} {rest : Placed}, (rest = .deferred ∨ rest = .refused) →
        (List.replicate m rest)[n - (budget.spanRun start sizes).placed.length]? ≠ some .tail := by
      intro m rest which found
      rw [← List.eq_of_mem_replicate (List.mem_of_getElem? found)] at which
      simp at which
    have early : (budget.spanRun start sizes).placed[n]? = some .tail := by
      by_cases inside : n < (budget.spanRun start sizes).placed.length
      · rwa [List.getElem?_append_left inside] at tail
      · rw [List.getElem?_append_right (by omega)] at tail
        refine absurd tail (late ?_)
        split
        · exact .inl rfl
        · exact .inr rfl
    have ended := budget.span_run_ended start sizes
    generalize budget.spanRun start sizes = run at ended early
    cases ended with
    | complete finish settled fits reached =>
      exact absurd rfl (fits _ (List.mem_of_getElem? early)).ne_tail
    | tail finish bytes settled fits reached =>
      rcases Nat.lt_trichotomy n settled.length with less | same | more
      · rw [List.getElem?_append_left less] at early
        exact absurd rfl (fits _ (List.mem_of_getElem? early)).ne_tail
      · exact ⟨settled, fits, same.symm, rfl, by rw [same]; exact reached.symm⟩
      · rw [List.getElem?_eq_none (by simp; omega)] at early
        cases early
    | refused finish settled error fits reached =>
      rcases List.mem_append.mp (List.mem_of_getElem? early) with member | member
      · exact absurd rfl (fits _ member).ne_tail
      · cases List.mem_singleton.mp member

theorem tail_among_sets {tail : Nat} {item : PlanItem} (there : items[tail]? = some item)
    (spannable : item.planClass = .spannable)
    (verdict : (budget.place fixedBytes items).placed[tail]? = some .tail) :
    ∃ n : Nat, (classIndices items .spannable)[n]? = some tail ∧
      (budget.planCut fixedBytes items).spans.placed[n]? = some Placed.tail := by
  have listed := mem_class_indices.mpr ⟨item, there, spannable⟩
  rw [placed_iff, verdicts] at verdict
  simp only [List.mem_append] at verdict
  rcases verdict with (member | member) | member
  · cases mem_one_class items listed (List.of_mem_zip member).1
  · cases mem_one_class items listed (List.of_mem_zip member).1
  · obtain ⟨n, found⟩ := List.mem_iff_getElem?.mp member
    exact ⟨n, List.getElem?_zip_eq_some.mp found⟩

theorem spannable_tail {tail : Nat} {item : PlanItem} (there : items[tail]? = some item)
    (spannable : item.planClass = .spannable)
    (verdict : (budget.place fixedBytes items).placed[tail]? = some .tail) :
    ∃ n : Nat, (budget.planCut fixedBytes items).spans.placed[n]? = some Placed.tail ∧
      (itemSizes items (classIndices items .spannable))[n]? = some item.bytes := by
  obtain ⟨n, unit, placed⟩ := budget.tail_among_sets fixedBytes items there spannable verdict
  refine ⟨n, placed, ?_⟩
  rw [itemSizes, List.getElem?_map, unit, Option.map_some, there]
  rfl

theorem displaced_whole {bound tail : Nat} {item : PlanItem}
    (limited : budget.planBoundBytes = some bound) (room : fixedBytes < bound)
    (there : items[tail]? = some item) (spannable : item.planClass = .spannable)
    (larger : bound - fixedBytes < item.bytes)
    (verdict : (budget.place fixedBytes items).placed[tail]? = some .tail) :
    (budget.planCut fixedBytes items).kept = 0 := by
  obtain ⟨n, placed, size⟩ := budget.spannable_tail fixedBytes items there spannable verdict
  have large : budget.largerThanOneTape fixedBytes item.bytes = true := by
    have some_room : 0 < bound - fixedBytes := by omega
    simp [largerThanOneTape, spanRoom, limited, Option.filter, some_room, larger]
  rcases budget.cut_cases fixedBytes (itemSizes items (classIndices items .owed))
    (itemSizes items (classIndices items .whole)) (itemSizes items (classIndices items .spannable))
    with ⟨_, start, same⟩ | ⟨_, _, _, same⟩ | ⟨_, notDisplaced, same⟩
  · rw [planCut, same]
  · rw [planCut, same]
  · rw [planCut, same] at placed ⊢
    obtain ⟨_, _, _, _, _, recorded⟩ := budget.place_spans_tail_reached placed
    rw [size] at recorded
    rw [recorded] at notDisplaced
    by_contra kept
    exact notDisplaced ⟨Nat.pos_of_ne_zero kept, by simpa using large⟩

end Order

structure Sound (budget : CapacityBudget) (fixedBytes : Nat) (items : List PlanItem) : Prop where
  /-- a planned unit is in the order, and its verdict is right about its start and end -/
  right : ∀ (i : Nat) (placed : Placed),
    (budget.place fixedBytes items).placed[i]? = some placed → placed.planned = true →
      i ∈ (budget.place fixedBytes items).order ∧
        RightAbout budget (startOf fixedBytes items (budget.place fixedBytes items).order i)
          (endOf fixedBytes items (budget.place fixedBytes items).order i) placed
  committed_first : ((budget.place fixedBytes items).order.filter fun i =>
      (budget.place fixedBytes items).placed[i]? = some .committed) <+:
    (budget.place fixedBytes items).order.filter fun i =>
      (budget.place fixedBytes items).placed[i]? ≠ some .refused
  /-- the same whole units are refused with any other owed runs and sets around them -/
  refused_alone : ∀ others : List PlanItem,
    (others.filter fun item => item.planClass = .whole) =
        (items.filter fun item => item.planClass = .whole) →
      ∀ n, budget.wholePlaced fixedBytes items n = some .refused ↔
        budget.wholePlaced fixedBytes others n = some .refused
  /-- a whole unit neither refused nor planned was pushed out by another class -/
  deferred : ∀ (n : Nat) (placed : Placed), budget.wholePlaced fixedBytes items n = some placed →
    placed ≠ .refused → placed.planned = false →
      placed = .deferred ∧ ∃ item ∈ items, item.planClass ≠ .whole
  /-- a spannable tail larger than one tape is alone with the owed runs and sets -/
  displaced : ∀ (bound tail : Nat) (item : PlanItem), budget.planBoundBytes = some bound →
    fixedBytes < bound → items[tail]? = some item → item.planClass = .spannable →
      bound - fixedBytes < item.bytes →
      (budget.place fixedBytes items).placed[tail]? = some .tail →
        ∀ (n : Nat) (placed : Placed), budget.wholePlaced fixedBytes items n = some placed →
          placed.planned = false

theorem placement_sound (budget : CapacityBudget) (fixedBytes : Nat) (items : List PlanItem)
    (bounded : ∀ bound, budget.planBoundBytes = some bound → budget.availableBytes ≤ bound)
    (fixed : fixedBytes ≤ budget.availableBytes)
    (small : fixedBytes + (items.map PlanItem.bytes).sum + budget.reserveBytes < 2 ^ 64) :
    budget.Sound fixedBytes items := by
  refine ⟨fun i placed verdict planned => planned_right small fixed bounded verdict planned,
    committed_units_first small fixed bounded, ?_, ?_, ?_⟩
  · intro others same n
    rw [whole_refused_iff, whole_refused_iff, same]
  · intro n placed verdict accepted left
    rw [whole_placed_eq] at verdict
    split at verdict
    case isFalse => cases verdict
    case isTrue inside =>
      obtain rfl := Option.some.inj verdict
      have kept : ¬ n < (budget.planCut fixedBytes items).kept := by
        intro inside
        have keptLe : (budget.planCut fixedBytes items).kept ≤
            (budget.planCut fixedBytes items).held := budget.cut_kept_le _ _ _ _
        rw [kept_verdict keptLe inside] at left
        split at left <;> cases left
      have held : n < (budget.planCut fixedBytes items).held := by
        by_contra outside
        exact accepted (if_pos (Nat.le_of_not_lt outside))
      refine ⟨?_, ?_⟩
      · simp only [Cut.wholeVerdict]
        rw [if_neg (by omega), if_neg (by omega), if_neg kept]
      · by_contra alone
        push Not at alone
        have same := budget.whole_alone_kept fixedBytes items alone
        omega
  · intro bound tail item limited room there spannable larger verdict n placed found
    have none := budget.displaced_whole fixedBytes items limited room there spannable larger verdict
    rw [whole_placed_eq] at found
    split at found
    case isFalse => cases found
    case isTrue inside =>
      obtain rfl := Option.some.inj found
      simp only [Cut.wholeVerdict, none]
      split_ifs <;> first | rfl | omega

/-- An owed run, a whole unit that the large set displaces, and the set as the tail. -/
theorem placement_sound_displaced :
    let budget : CapacityBudget := ⟨10, 1, some 20⟩
    let items : List PlanItem := [⟨.whole, 3⟩, ⟨.spannable, 30⟩, ⟨.owed, 2⟩]
    (budget.place 2 items).placed = [.deferred, .tail, .committed] ∧ budget.Sound 2 items := by
  intro budget items
  refine ⟨by decide, placement_sound budget 2 items ?_ (by decide) (by decide)⟩
  intro bound limited
  obtain rfl := Option.some.inj limited
  decide

/-- A bound with no room past the fixed files: the displacement test has no room to compare with,
and an empty whole unit stays before a tail of one byte. -/
theorem whole_unit_before_large_tail :
    let budget : CapacityBudget := ⟨10, 0, some 10⟩
    let items : List PlanItem := [⟨.whole, 0⟩, ⟨.spannable, 1⟩]
    (∀ bound, budget.planBoundBytes = some bound → budget.availableBytes ≤ bound) ∧
      10 ≤ budget.availableBytes ∧ items[1]? = some ⟨.spannable, 1⟩ ∧ 10 - 10 < 1 ∧
      (budget.place 10 items).placed[1]? = some .tail ∧
      budget.wholePlaced 10 items 0 = some .committed := by
  refine ⟨fun bound limited => ?_, by decide, by decide, by decide, by decide, by decide⟩
  obtain rfl := Option.some.inj limited
  decide

end CapacityBudget

end Tapectl.Volume
