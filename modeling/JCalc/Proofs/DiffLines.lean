import JCalc.Proofs.Patching
import JCalc.Proofs.Rerun

/-! The diff of a transcript. Its records change the lines of the transcript into those of the
re-run, whatever the lines end in. They are put one after the other with nothing in between, so the
diff falls apart into them at its line feeds only if each of them has one at its end. -/

namespace JCalc

def lineTexts (t : Text) : List Text := (lines t).map Line.text

section

variable {r : Text}

/-- A line feed of the record stands at its end. -/
def FeedsLast (r : Text) : Prop := '\n' ∈ r → ∃ body, '\n' ∉ body ∧ r = asLine body

theorem FeedsLast.append {t : Text} (ht : '\n' ∉ t) (h : FeedsLast r) : FeedsLast (t ++ r) := by
  intro hmem
  obtain ⟨body, hbody, rfl⟩ := h (by simpa [ht] using hmem)
  exact ⟨t ++ body, by simp [ht, hbody], by simp [asLine]⟩

theorem feedsLast_asLine {body : Text} (h : '\n' ∉ body) : FeedsLast (asLine body) :=
  fun _ => ⟨body, h, rfl⟩

theorem ending_of_mem_lines (t : Text) :
    ∀ l ∈ lines t, l.ending = [] ∨ l.ending = ['\r', '\n'] ∨ ∃ c, l.ending = [c] := by
  fun_induction lines t with
  | case1 => exact List.forall_mem_nil _
  | case2 rest ih => exact List.forall_mem_cons.mpr ⟨.inr (.inl rfl), ih⟩
  | case3 c rest _ _ ih => exact List.forall_mem_cons.mpr ⟨.inr (.inr ⟨c, rfl⟩), ih⟩
  | case4 c rest _ _ ih =>
    cases hrest : lines rest with
    | nil => exact List.forall_mem_singleton.mpr (.inl rfl)
    | cons l ls =>
      rw [hrest] at ih
      obtain ⟨hl, hls⟩ := List.forall_mem_cons.mp ih
      exact List.forall_mem_cons.mpr ⟨hl, hls⟩

theorem feedsLast_of_mem_lineTexts {t line : Text} (h : line ∈ lineTexts t) : FeedsLast line := by
  obtain ⟨l, hl, rfl⟩ := List.mem_map.mp h
  have hbody : '\n' ∉ l.body := lineFeed_not_mem (oneLine_body t l hl)
  refine .append hbody ?_
  rcases ending_of_mem_lines t l hl with he | he | ⟨c, he⟩
  · simp [FeedsLast, he]
  · rw [he]
    exact fun _ => ⟨['\r'], by decide, rfl⟩
  · rw [he]
    intro hmem
    obtain rfl : '\n' = c := List.mem_singleton.mp hmem
    exact ⟨[], by simp, rfl⟩

theorem lineFeed_mem_rerun {s : Session} {t line : Text} (h : line ∈ lineTexts (s.rerun t)) :
    '\n' ∈ line := by
  rw [lineTexts, lines_rerun] at h
  obtain ⟨l, hl, rfl⟩ := List.mem_map.mp h
  obtain ⟨body, _, rfl⟩ := List.mem_map.mp hl
  simp [Line.text, Line.fed]

theorem lineFeed_not_mem_rangeText (start length : Nat) : '\n' ∉ rangeText start length := by
  have hdigits (n : Nat) : '\n' ∉ Decimal.digits n := by
    intro hmem
    have hdigit : isDigit '\n' = true := Decimal.isDigit_of_mem_digits hmem
    exact absurd hdigit (by decide)
  unfold rangeText
  split <;> simp [hdigits]

theorem ranges_eq_asLine (h : Hunk) : ∃ body, '\n' ∉ body ∧ h.ranges = asLine body := by
  refine ⟨"@@ -".toList ++ rangeText h.left h.oldLines.length ++ " +".toList ++
    rangeText h.right h.newLines.length ++ " @@".toList, ?_, ?_⟩
  · simp [lineFeed_not_mem_rangeText]
  · simp [ranges_eq, asLine]

end

section

variable {records : List Text}

theorem splitOn_flatMap_asLine {bodies : List Text} (h : ∀ b ∈ bodies, '\n' ∉ b) :
    (bodies.flatMap asLine).splitOn '\n' = bodies ++ [[]] := by
  induction bodies with
  | nil => rfl
  | cons b bodies ih =>
    obtain ⟨hb, hbodies⟩ := List.forall_mem_cons.mp h
    have hcut : (b :: bodies).flatMap asLine = b ++ '\n' :: bodies.flatMap asLine := by
      simp [asLine]
    rw [hcut, List.splitOn_append_cons_self_of_not_mem hb, ih hbodies, List.cons_append]

theorem exists_map_asLine (h : ∀ r ∈ records, ∃ body, '\n' ∉ body ∧ r = asLine body) :
    ∃ bodies : List Text, (∀ b ∈ bodies, '\n' ∉ b) ∧ records = bodies.map asLine := by
  induction records with
  | nil => exact ⟨[], by simp, rfl⟩
  | cons r records ih =>
    obtain ⟨⟨body, hbody, rfl⟩, hrest⟩ := List.forall_mem_cons.mp h
    obtain ⟨bodies, hbodies, rfl⟩ := ih hrest
    exact ⟨body :: bodies, List.forall_mem_cons.mpr ⟨hbody, hbodies⟩, rfl⟩

theorem splitOn_flatten_iff (h : ∀ r ∈ records, FeedsLast r) :
    (∃ bodies : List Text, records = bodies.map asLine ∧
        records.flatten.splitOn '\n' = bodies ++ [[]]) ↔
      ∀ r ∈ records, '\n' ∈ r := by
  constructor
  · rintro ⟨bodies, rfl, _⟩ r hr
    obtain ⟨body, _, rfl⟩ := List.mem_map.mp hr
    simp [asLine]
  · intro hfed
    obtain ⟨bodies, hbodies, rfl⟩ := exists_map_asLine fun r hr => h r hr (hfed r hr)
    exact ⟨bodies, rfl, splitOn_flatMap_asLine hbodies⟩

end

/-- The hunks of a diff, each as its first record and the others. -/
def diffGroups (xs ys : List Text) : List (Text × List Text) :=
  (hunks (align (xs.map String.ofList) (ys.map String.ofList))).map fun h =>
    (h.ranges, h.edits.flatMap Edit.records)

/-- The records of a diff: the two names, then the hunks. -/
def unifiedRecords (name : Text) (groups : List (Text × List Text)) : List Text :=
  asLine ("--- ".toList ++ name) :: asLine ("+++ ".toList ++ (name ++ ".new".toList)) ::
    groups.flatMap fun g => g.1 :: g.2

section

variable {xs ys : List Text}

theorem flatMap_diffGroups (xs ys : List Text) :
    ((diffGroups xs ys).flatMap fun g => g.1 :: g.2) =
      (hunks (align (xs.map String.ofList) (ys.map String.ofList))).flatMap Hunk.records :=
  List.flatMap_map ..

theorem isHunk_of_mem_diffGroups {g : Text × List Text} (h : g ∈ diffGroups xs ys) :
    IsHunk g.1 g.2 := by
  obtain ⟨k, _, rfl⟩ := List.mem_map.mp h
  exact isHunk_records k

theorem patchFrom_diffGroups (xs ys : List Text) :
    patchFrom 0 0 xs ((diffGroups xs ys).flatMap fun g => g.1 :: g.2) = some ys := by
  have hpatch := patchFrom_of_rewrites
    (rewrites_align (xs.map String.ofList) (ys.map String.ofList))
  have htexts (zs : List Text) : (zs.map String.ofList).map String.toList = zs := by simp
  rwa [htexts, htexts, ← flatMap_diffGroups] at hpatch

theorem diffRecords_of_ne (name : Text) (h : xs ≠ ys) :
    diffRecords name (name ++ ".new".toList) (xs.map String.ofList) (ys.map String.ofList) =
      unifiedRecords name (diffGroups xs ys) := by
  have hinj : Function.Injective (List.map String.ofList) :=
    List.map_injective_iff.mpr fun a b hab => String.ofList_injective hab
  have hne : hunks (align (xs.map String.ofList) (ys.map String.ofList)) ≠ [] := by
    rw [Ne, hunks_eq_nil_iff, change_not_mem_align_iff]
    exact fun heq => h (hinj heq)
  rw [unifiedRecords, flatMap_diffGroups]
  unfold diffRecords
  split
  · contradiction
  · rfl

theorem patch?_unifiedRecords (old : List Text) (name : Text) (groups : List (Text × List Text)) :
    patch? old (unifiedRecords name groups) =
      patchFrom 0 0 old (groups.flatMap fun g => g.1 :: g.2) := by
  have hold : "--- ".toList <+: asLine ("--- ".toList ++ name) := by simp [asLine]
  have hnew : "+++ ".toList <+: asLine ("+++ ".toList ++ (name ++ ".new".toList)) := by simp [asLine]
  rw [unifiedRecords, patch?, if_pos ⟨hold, hnew⟩]

theorem forall_mem_unifiedRecords {P : Text → Prop} {name : Text}
    (hold : P (asLine ("--- ".toList ++ name)))
    (hnew : P (asLine ("+++ ".toList ++ (name ++ ".new".toList))))
    (hranges : ∀ h : Hunk, P h.ranges)
    (hlines : ∀ mark ∈ [' ', '-', '+'], ∀ line, line ∈ xs ∨ line ∈ ys → P (mark :: line)) :
    ∀ r ∈ unifiedRecords name (diffGroups xs ys), P r := by
  refine List.forall_mem_cons.mpr ⟨hold, List.forall_mem_cons.mpr ⟨hnew, ?_⟩⟩
  intro r hr
  rw [flatMap_diffGroups] at hr
  obtain ⟨h, hh, hr⟩ := List.mem_flatMap.mp hr
  rcases List.mem_cons.mp hr with rfl | hr
  · exact hranges h
  · obtain ⟨e, he, hr⟩ := List.mem_flatMap.mp hr
    obtain ⟨mark, hmark, l, hl, rfl⟩ := exists_mark_of_mem_records hr
    have hmem := (rewrites_align (xs.map String.ofList) (ys.map String.ofList)).mem (l := l) hh
    apply hlines mark hmark
    rcases hl with hl | hl
    · have hold := hmem.1 (List.mem_flatMap.mpr ⟨e, he, hl⟩)
      obtain ⟨line, hline, rfl⟩ := List.mem_map.mp hold
      exact .inl (by simpa using hline)
    · have hnew := hmem.2 (List.mem_flatMap.mpr ⟨e, he, hl⟩)
      obtain ⟨line, hline, rfl⟩ := List.mem_map.mp hnew
      exact .inr (by simpa using hline)

end

/-- The records that the diff of a transcript is put together of. -/
def Session.diffRecords (s : Session) (name t : Text) : List Text :=
  JCalc.diffRecords name (name ++ ".new".toList) ((lineTexts t).map String.ofList)
    ((lineTexts (s.rerun t)).map String.ofList)

theorem diff_eq_flatten (s : Session) (name t : Text) :
    s.diff name t = (s.diffRecords name t).flatten := by
  have hitems (t : Text) :
      (lines t).map (fun l => String.ofList l.text) = (lineTexts t).map String.ofList := by
    simp [lineTexts]
  rw [Session.diffRecords, ← hitems, ← hitems]
  rfl

theorem lineTexts_injective : Function.Injective lineTexts := by
  intro t u h
  have hflat : (lineTexts t).flatten = (lineTexts u).flatten := by rw [h]
  rwa [lineTexts, lineTexts, ← List.flatMap_def, ← List.flatMap_def, flatMap_text_lines,
    flatMap_text_lines] at hflat

section

variable {s : Session} {name t : Text}

theorem diffRecords_eq (name : Text) (h : s.rerun t ≠ t) : s.diffRecords name t =
    unifiedRecords name (diffGroups (lineTexts t) (lineTexts (s.rerun t))) := by
  have hdiffer : lineTexts t ≠ lineTexts (s.rerun t) := by
    intro heq
    exact h (lineTexts_injective heq).symm
  exact diffRecords_of_ne name hdiffer

theorem feedsLast_diffRecords (h : s.rerun t ≠ t) (hname : '\n' ∉ name) :
    ∀ r ∈ s.diffRecords name t, FeedsLast r := by
  rw [diffRecords_eq name h]
  apply forall_mem_unifiedRecords
  · exact feedsLast_asLine (by simp [hname])
  · exact feedsLast_asLine (by simp [hname])
  · intro k
    obtain ⟨body, hbody, heq⟩ := ranges_eq_asLine k
    rw [heq]
    exact feedsLast_asLine hbody
  · intro mark hmark line hline
    have hfeeds : FeedsLast line := by
      rcases hline with hline | hline
      · exact feedsLast_of_mem_lineTexts hline
      · exact feedsLast_of_mem_lineTexts hline
    have hnotFeed : ∀ m ∈ [' ', '-', '+'], '\n' ∉ [m] := by simp
    exact hfeeds.append (hnotFeed mark hmark)

theorem lineFeed_mem_diffRecords (h : s.rerun t ≠ t) (hends : ∀ l ∈ lines t, '\n' ∈ l.ending) :
    ∀ r ∈ s.diffRecords name t, '\n' ∈ r := by
  rw [diffRecords_eq name h]
  apply forall_mem_unifiedRecords
  · simp [asLine]
  · simp [asLine]
  · intro k
    obtain ⟨body, _, heq⟩ := ranges_eq_asLine k
    simp [heq, asLine]
  · intro mark _ line hline
    apply List.mem_cons_of_mem
    rcases hline with hline | hline
    · obtain ⟨l, hl, rfl⟩ := List.mem_map.mp hline
      exact List.mem_append_right _ (hends l hl)
    · exact lineFeed_mem_rerun hline

end

/-- When a re-run differs, the diff consists of two names and hunks, each with the numbers of the
lines that it shows, and as a patch it turns the lines of the transcript into those of the re-run.
Its records stand on lines of their own just when each of them ends one, and they do if every line of
the transcript ends in a line feed. -/
theorem diff_patches (s : Session) (name : Text) {t : Text} (h : s.rerun t ≠ t) :
    s.diff name t = (s.diffRecords name t).flatten ∧
    (∃ groups : List (Text × List Text), s.diffRecords name t = unifiedRecords name groups ∧
      ∀ g ∈ groups, IsHunk g.1 g.2) ∧
    patch? (lineTexts t) (s.diffRecords name t) = some (lineTexts (s.rerun t)) ∧
    ('\n' ∉ name →
      ((∃ bodies : List Text, s.diffRecords name t = bodies.map asLine ∧
        (s.diff name t).splitOn '\n' = bodies ++ [[]]) ↔
      ∀ r ∈ s.diffRecords name t, '\n' ∈ r)) ∧
    ((∀ l ∈ lines t, '\n' ∈ l.ending) → ∀ r ∈ s.diffRecords name t, '\n' ∈ r) := by
  refine ⟨diff_eq_flatten s name t, ?_, ?_, ?_, lineFeed_mem_diffRecords h⟩
  · exact ⟨_, diffRecords_eq name h, fun g hg => isHunk_of_mem_diffGroups hg⟩
  · rw [diffRecords_eq name h, patch?_unifiedRecords, patchFrom_diffGroups]
  · intro hname
    rw [diff_eq_flatten]
    exact splitOn_flatten_iff (feedsLast_diffRecords h hname)

theorem diff_patches_old_answer :
    let s : Session := {}
    let name := "transcript".toList
    let t := "   1 + 2\n4\n".toList
    s.rerun t ≠ t ∧
    patch? (lineTexts t) (s.diffRecords name t) = some (lineTexts "   1 + 2\n3\n".toList) ∧
    ∃ bodies : List Text, s.diffRecords name t = bodies.map asLine ∧
      (s.diff name t).splitOn '\n' = bodies ++ [[]] := by
  intro s name t
  have hfresh : s.rerun t = "   1 + 2\n3\n".toList := by decide +kernel
  have hdiffer : s.rerun t ≠ t := by
    rw [hfresh]
    decide
  obtain ⟨_, _, hpatch, hsplit, hfeeds⟩ := diff_patches s name hdiffer
  rw [hfresh] at hpatch
  exact ⟨hdiffer, hpatch, (hsplit (by decide)).mpr (hfeeds (by decide))⟩

/-- The last line of a transcript may have no end, and then two records share a line. -/
theorem diff_of_unended_line :
    let s : Session := {}
    let name := "transcript".toList
    let t := "   1".toList
    s.rerun t ≠ t ∧
    s.diffRecords name t = ["--- transcript\n".toList, "+++ transcript.new\n".toList,
      "@@ -1 +1,2 @@\n".toList, "-   1".toList, "+   1\n".toList, "+1\n".toList] ∧
    (s.diff name t).splitOn '\n' = ["--- transcript".toList, "+++ transcript.new".toList,
      "@@ -1 +1,2 @@".toList, "-   1+   1".toList, "+1".toList, []] := by
  decide +kernel

end JCalc
