import JCalc.Proofs.EmptyDiff

/-! The lines of hunks. Whatever is cut off, hidden between two hunks or not shown at all is the same
on both sides, so the hunks of an alignment, each at its place, make the second list of the
first. -/

namespace JCalc

/-- A list and what hunks make of it, when `i` of its lines are done and `j` new ones are made. -/
inductive Rewrites : Nat → Nat → List Hunk → List String → List String → Prop where
  | done {i j : Nat} {xs : List String} : Rewrites i j [] xs xs
  | hunk {i j : Nat} {same xs ys : List String} {h : Hunk} {hs : List Hunk}
      (hleft : h.left = i + same.length) (hright : h.right = j + same.length)
      (hrest : Rewrites (h.left + h.oldLines.length) (h.right + h.newLines.length) hs xs ys) :
      Rewrites i j (h :: hs) (same ++ (h.oldLines ++ xs)) (same ++ (h.newLines ++ ys))

section

variable {i j : Nat} {hs : List Hunk} {xs ys : List String}

theorem Rewrites.skip {same : List String}
    (h : Rewrites (i + same.length) (j + same.length) hs xs ys) :
    Rewrites i j hs (same ++ xs) (same ++ ys) := by
  cases h with
  | done => exact .done
  | hunk hleft hright hrest =>
    rw [← List.append_assoc, ← List.append_assoc same]
    refine .hunk ?_ ?_ hrest
    · rw [hleft, List.length_append, Nat.add_assoc]
    · rw [hright, List.length_append, Nat.add_assoc]

theorem oldLines_eq_newLines {h : Hunk} (hh : ¬ h.isShown = true) : h.oldLines = h.newLines := by
  refine List.flatMap_congr fun e he => ?_
  cases e with
  | keep ls => rfl
  | change removed added => exact absurd ((isShown_iff h).mpr ⟨removed, added, he⟩) hh

/-- A hunk that shows no change can be left out. -/
theorem Rewrites.filter_isShown (h : Rewrites i j hs xs ys) :
    Rewrites i j (hs.filter Hunk.isShown) xs ys := by
  induction h with
  | done => exact .done
  | @hunk i j same xs ys h hs hleft hright _ ih =>
    by_cases hshown : h.isShown
    · rw [List.filter_cons_of_pos hshown]
      exact .hunk hleft hright ih
    · have hsame : h.oldLines = h.newLines := oldLines_eq_newLines hshown
      rw [List.filter_cons_of_neg hshown, ← hsame]
      rw [← hsame, hleft, hright] at ih
      exact ih.skip.skip

theorem Rewrites.mem (h : Rewrites i j hs xs ys) {k : Hunk} (hk : k ∈ hs) {l : String} :
    (l ∈ k.oldLines → l ∈ xs) ∧ (l ∈ k.newLines → l ∈ ys) := by
  induction h with
  | done => cases hk
  | hunk _ _ _ ih =>
    rcases List.mem_cons.mp hk with rfl | hk
    · exact ⟨fun hl => by simp [hl], fun hl => by simp [hl]⟩
    · exact ⟨fun hl => by simp [(ih hk).1 hl], fun hl => by simp [(ih hk).2 hl]⟩

end

theorem oldLines_add (h : Hunk) (e : Edit String) : (h.add e).oldLines = h.oldLines ++ e.old := by
  simp [Hunk.oldLines, Hunk.add]

theorem newLines_add (h : Hunk) (e : Edit String) : (h.add e).newLines = h.newLines ++ e.new := by
  simp [Hunk.newLines, Hunk.add]

section

variable {ls : List String}

/-- The lines of a long kept stretch that no hunk shows. -/
def hiddenLines (ls : List String) : List String :=
  (ls.drop contextSize).take (ls.length - 2 * contextSize)

theorem length_hiddenLines : (hiddenLines ls).length = ls.length - 2 * contextSize := by
  rw [hiddenLines, List.length_take, List.length_drop]
  omega

theorem append_hiddenLines (h : 2 * contextSize < ls.length) :
    ls.take contextSize ++ (hiddenLines ls ++ ls.drop (ls.length - contextSize)) = ls := by
  have hend : ls.length - contextSize = contextSize + (ls.length - 2 * contextSize) := by
    omega
  rw [hend]
  exact take_append_run ls _ _

end

/-- A hunk that is closed in a long kept stretch shows the beginning of it. -/
theorem Rewrites.close {current closed : Hunk} {ls : List String} {i j : Nat}
    {same xs ys : List String} {hs : List Hunk} (hlong : 2 * contextSize < ls.length)
    (hclosed : current.add (.keep (ls.take contextSize)) = closed)
    (hleft : closed.left = i + same.length) (hright : closed.right = j + same.length)
    (h : Rewrites (closed.left + closed.oldLines.length) (closed.right + closed.newLines.length) hs
      (hiddenLines ls ++ (ls.drop (ls.length - contextSize) ++ xs))
      (hiddenLines ls ++ (ls.drop (ls.length - contextSize) ++ ys))) :
    Rewrites i j (closed :: hs) (same ++ (current.oldLines ++ (ls ++ xs)))
      (same ++ (current.newLines ++ (ls ++ ys))) := by
  have hcut (before after : List String) : before ++ (ls ++ after) =
      (before ++ ls.take contextSize) ++
        (hiddenLines ls ++ (ls.drop (ls.length - contextSize) ++ after)) := by
    conv_lhs => rw [← append_hiddenLines hlong]
    simp only [List.append_assoc]
  have hold : current.oldLines ++ ls.take contextSize = closed.oldLines := by
    rw [← hclosed, oldLines_add]
    rfl
  have hnew : current.newLines ++ ls.take contextSize = closed.newLines := by
    rw [← hclosed, newLines_add]
    rfl
  rw [hcut current.oldLines, hcut current.newLines, hold, hnew]
  exact .hunk hleft hright h

theorem rewrites_splitHunks {current : Hunk} {edits : List (Edit String)} {i j : Nat}
    {same : List String} (tail : List String)
    (hleft : current.left = i + same.length) (hright : current.right = j + same.length) :
    Rewrites i j (splitHunks current edits)
      (same ++ (current.oldLines ++ (edits.flatMap Edit.old ++ tail)))
      (same ++ (current.newLines ++ (edits.flatMap Edit.new ++ tail))) := by
  induction edits generalizing current i j same with
  | nil => exact .hunk hleft hright .done
  | cons e rest ih =>
    have hadd : Rewrites i j (splitHunks (current.add e) rest)
        (same ++ ((current.add e).oldLines ++ (rest.flatMap Edit.old ++ tail)))
        (same ++ ((current.add e).newLines ++ (rest.flatMap Edit.new ++ tail))) :=
      ih hleft hright
    simp only [oldLines_add, newLines_add, List.append_assoc] at hadd
    cases e with
    | change removed added => simpa [splitHunks] using hadd
    | keep ls =>
      by_cases hlong : 2 * contextSize < ls.length
      · -- What is hidden belongs to neither hunk: it is the stretch before the second one.
        let closed := current.add (.keep (ls.take contextSize))
        let opened := (closed.next (ls.length - 2 * contextSize)).add
          (.keep (ls.drop (ls.length - contextSize)))
        have hopened : Rewrites (closed.left + closed.oldLines.length)
            (closed.right + closed.newLines.length) (splitHunks opened rest)
            (hiddenLines ls ++ (opened.oldLines ++ (rest.flatMap Edit.old ++ tail)))
            (hiddenLines ls ++ (opened.newLines ++ (rest.flatMap Edit.new ++ tail))) :=
          ih (by rw [length_hiddenLines]; rfl) (by rw [length_hiddenLines]; rfl)
        have hclosed : splitHunks current (.keep ls :: rest) = closed :: splitHunks opened rest := by
          rw [splitHunks, if_pos hlong]
        simp only [opened, oldLines_add, newLines_add] at hopened
        rw [hclosed, List.flatMap_cons, List.flatMap_cons, List.append_assoc, List.append_assoc]
        exact Rewrites.close hlong rfl hleft hright hopened
      · simpa [splitHunks, hlong] using hadd

theorem exists_trimLast_append (edits : List (Edit String)) :
    ∃ tail, edits.flatMap Edit.old = (trimLast edits).flatMap Edit.old ++ tail ∧
      edits.flatMap Edit.new = (trimLast edits).flatMap Edit.new ++ tail := by
  fun_induction trimLast edits with
  | case1 => exact ⟨[], rfl, rfl⟩
  | case2 ls => exact ⟨ls.drop contextSize, by simp [Edit.old], by simp [Edit.new]⟩
  | case3 e rest _ ih =>
    obtain ⟨tail, hold, hnew⟩ := ih
    exact ⟨tail, by simp [hold], by simp [hnew]⟩

theorem exists_append_trimFirst (edits : List (Edit String)) :
    ∃ same, (trimFirst edits).1 = ⟨same.length, same.length, []⟩ ∧
      edits.flatMap Edit.old = same ++ (trimFirst edits).2.flatMap Edit.old ∧
      edits.flatMap Edit.new = same ++ (trimFirst edits).2.flatMap Edit.new := by
  fun_cases trimFirst edits with
  | case1 ls rest skipped =>
    have hlength : (ls.take skipped).length = skipped :=
      List.length_take_of_le (Nat.sub_le ls.length contextSize)
    refine ⟨ls.take skipped, by rw [hlength], ?_, ?_⟩
    · rw [List.flatMap_cons, List.flatMap_cons, Edit.old, Edit.old, ← List.append_assoc,
        List.take_append_drop]
    · rw [List.flatMap_cons, List.flatMap_cons, Edit.new, Edit.new, ← List.append_assoc,
        List.take_append_drop]
  | case2 => exact ⟨[], rfl, rfl, rfl⟩

theorem rewrites_hunks (edits : List (Edit String)) :
    Rewrites 0 0 (hunks edits) (edits.flatMap Edit.old) (edits.flatMap Edit.new) := by
  obtain ⟨same, hstart, hold, hnew⟩ := exists_append_trimFirst edits
  obtain ⟨tail, hold', hnew'⟩ := exists_trimLast_append (trimFirst edits).2
  have hsplit : Rewrites 0 0 (splitHunks (trimFirst edits).1 (trimLast (trimFirst edits).2))
      (same ++ ((trimFirst edits).1.oldLines ++
        ((trimLast (trimFirst edits).2).flatMap Edit.old ++ tail)))
      (same ++ ((trimFirst edits).1.newLines ++
        ((trimLast (trimFirst edits).2).flatMap Edit.new ++ tail))) :=
    rewrites_splitHunks tail (by simp [hstart]) (by simp [hstart])
  rw [hold, hnew, hold', hnew']
  have hempty : (trimFirst edits).1.oldLines = [] ∧ (trimFirst edits).1.newLines = [] := by
    rw [hstart]
    exact ⟨rfl, rfl⟩
  rw [hempty.1, hempty.2] at hsplit
  exact hsplit.filter_isShown

theorem rewrites_align (xs ys : List String) : Rewrites 0 0 (hunks (align xs ys)) xs ys := by
  obtain ⟨hold, hnew⟩ := sides_align xs ys
  have hrewrites := rewrites_hunks (align xs ys)
  rwa [hold, hnew] at hrewrites

end JCalc
