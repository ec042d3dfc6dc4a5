import JCalc.Proofs.Alignment
import JCalc.Transcript.Check

/-! A diff is empty just when the two lists are equal. Whatever is cut off or split, every change
of an alignment is shown in some hunk, and an alignment without changes is one of equal
lists. -/

namespace JCalc

section

variable {removed added : List String}

theorem change_mem_trimFirst (edits : List (Edit String)) :
    Edit.change removed added ∈ (trimFirst edits).1.edits ∨
        Edit.change removed added ∈ (trimFirst edits).2 ↔
      Edit.change removed added ∈ edits := by
  fun_cases trimFirst edits <;> simp

theorem change_mem_trimLast (edits : List (Edit String)) :
    Edit.change removed added ∈ trimLast edits ↔ Edit.change removed added ∈ edits := by
  fun_induction trimLast edits with
  | case1 => rfl
  | case2 ls => simp
  | case3 e rest _ ih => simp [ih]

theorem change_mem_splitHunks (current : Hunk) (edits : List (Edit String)) :
    (∃ h ∈ splitHunks current edits, Edit.change removed added ∈ h.edits) ↔
      Edit.change removed added ∈ current.edits ∨ Edit.change removed added ∈ edits := by
  fun_induction splitHunks current edits with
  | case1 current => simp
  | case2 current ls rest hlong closed tail ih =>
    rw [List.exists_mem_cons_iff, ih]
    simp [closed, Hunk.add, Hunk.next]
  | case3 current ls rest hlong ih =>
    rw [ih]
    simp [Hunk.add]
  | case4 current e rest hkeep ih =>
    rw [ih]
    simp [Hunk.add, or_assoc]

theorem isShown_iff (h : Hunk) :
    h.isShown = true ↔ ∃ removed added, Edit.change removed added ∈ h.edits := by
  rw [Hunk.isShown, List.any_eq_true]
  constructor
  · rintro ⟨_ | ⟨removed, added⟩, he, hshown⟩
    · cases hshown
    · exact ⟨removed, added, he⟩
  · rintro ⟨removed, added, he⟩
    exact ⟨_, he, rfl⟩

end

theorem hunks_eq_nil_iff (edits : List (Edit String)) :
    hunks edits = [] ↔ ∀ removed added, Edit.change removed added ∉ edits := by
  have hmem (removed added : List String) :
      (∃ h ∈ splitHunks (trimFirst edits).1 (trimLast (trimFirst edits).2),
        Edit.change removed added ∈ h.edits) ↔ Edit.change removed added ∈ edits := by
    rw [change_mem_splitHunks, change_mem_trimLast, change_mem_trimFirst]
  have hcut : hunks edits =
      (splitHunks (trimFirst edits).1 (trimLast (trimFirst edits).2)).filter Hunk.isShown := rfl
  rw [hcut, List.filter_eq_nil_iff]
  constructor
  · intro h removed added he
    obtain ⟨k, hk, hchange⟩ := (hmem removed added).mpr he
    exact h k hk ((isShown_iff k).mpr ⟨removed, added, hchange⟩)
  · intro h k hk hshown
    obtain ⟨removed, added, hchange⟩ := (isShown_iff k).mp hshown
    exact h removed added ((hmem removed added).mp ⟨k, hk, hchange⟩)

end JCalc
