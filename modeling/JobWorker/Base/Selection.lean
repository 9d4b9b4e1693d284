import JobWorker.Base.Table

/-!
# The first row of an ordered selection

`SELECT … ORDER BY` followed by a scan for the first key that meets a condition, as `LIMIT 1`
does behind `SKIP LOCKED`.
-/

namespace Relational.Table

variable {K V : Type} [Ord K] [Std.TransOrd K] [Std.LawfulEqOrd K] {t : Table K V}
  {p : K → V → Bool} {le : K × V → K × V → Prop} [DecidableRel le] {q : K → Bool} {i j : K}

/-- In a sorted list, what is found first comes before everything else that meets the
condition. -/
theorem le_of_find? {α : Type} {r : α → α → Prop} {l : List α} {q : α → Bool} {a b : α}
    (hrefl : ∀ a, r a a) (hl : l.Pairwise r) (hf : l.find? q = some a) (hb : b ∈ l)
    (hq : q b = true) : r a b := by
  obtain ⟨_, before, after, rfl, hnone⟩ := List.find?_eq_some_iff_append.mp hf
  rcases List.mem_append.mp hb with hb | hb
  · have hn := hnone b hb
    rw [hq] at hn
    cases hn
  · rcases List.mem_cons.mp hb with rfl | hb
    · exact hrefl b
    · exact (List.pairwise_cons.mp (List.pairwise_append.mp hl).2.1).1 b hb

/-- The row found first is before every selected row that meets the condition. -/
theorem le_of_find?_selectBy [Std.Total le] [IsTrans (K × V) le]
    (hf : (t.selectBy p le).find? q = some j) (hi : i ∈ t.selectBy p le) (hq : q i = true) :
    ∃ a b, t[j]? = some a ∧ t[i]? = some b ∧ le (j, a) (i, b) := by
  rw [selectBy, List.find?_map, Option.map_eq_some_iff] at hf
  obtain ⟨⟨j, a⟩, hf, rfl⟩ := hf
  obtain ⟨⟨i, b⟩, hb, rfl⟩ := List.mem_map.mp hi
  have hrow {e : K × V} (he : e ∈ (t.toList.filter fun e ↦ p e.1 e.2).insertionSort le) :
      t[e.1]? = some e.2 := by
    rw [List.mem_insertionSort, List.mem_filter] at he
    exact Std.ExtTreeMap.mem_toList_iff_getElem?_eq_some.mp he.1
  have hrefl (e : K × V) : le e e := (Std.Total.total e e).elim id id
  exact ⟨a, b, hrow (List.mem_of_find?_eq_some hf), hrow hb,
    le_of_find? hrefl (List.pairwise_insertionSort le _) hf hb hq⟩

end Relational.Table
