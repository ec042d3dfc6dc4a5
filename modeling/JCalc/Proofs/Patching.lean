import JCalc.Proofs.HunkLines
import JCalc.Proofs.LiteralText

/-! Diffs as patches. A reader of records goes through the old lines and puts the new ones together.
It takes the place of a hunk from the text of its first record, and stops where a line is not the one
that a record shows. The records of two lists turn the first one into the second. -/

namespace JCalc

/-- A range as a hunk gives it: the number of lines before it and the number of its lines. -/
def readRange (t : Text) : (Nat × Nat) × Text :=
  let first := Decimal.ofDigits (t.takeWhile isDigit)
  match t.dropWhile isDigit with
  | ',' :: rest =>
    let count := Decimal.ofDigits (rest.takeWhile isDigit)
    ((if count = 0 then first else first - 1, count), rest.dropWhile isDigit)
  | rest => ((first - 1, 1), rest)

def readRanges? (t : Text) : Option ((Nat × Nat) × (Nat × Nat)) :=
  let (old, middle) := readRange (t.drop 4)
  let (new, rest) := readRange (middle.drop 2)
  if t.take 4 = "@@ -".toList ∧ middle.take 2 = " +".toList ∧ rest = " @@\n".toList then
    some (old, new)
  else none

/-- Goes on with the old lines, `passed` of which are done, when `made` new lines are made. -/
def patchFrom (passed made : Nat) (old : List Text) : List Text → Option (List Text)
  | [] => some old
  | [] :: _ => none
  | (mark :: line) :: records =>
    if mark = '@' then
      match readRanges? (mark :: line) with
      | none => none
      | some ((left, _), (right, _)) =>
        if passed ≤ left ∧ left - passed ≤ old.length ∧ right = made + (left - passed) then
          (patchFrom left right (old.drop (left - passed)) records).map
            (old.take (left - passed) ++ ·)
        else none
    else if mark = '+' then (patchFrom passed (made + 1) old records).map (line :: ·)
    else
      match old with
      | [] => none
      | l :: rest =>
        if l ≠ line then none
        else if mark = ' ' then (patchFrom (passed + 1) (made + 1) rest records).map (line :: ·)
        else if mark = '-' then patchFrom (passed + 1) made rest records
        else none

def patch? (old : List Text) : List Text → Option (List Text)
  | [] => some old
  | [_] => none
  | oldName :: newName :: records =>
    if "--- ".toList <+: oldName ∧ "+++ ".toList <+: newName then patchFrom 0 0 old records else none

/-- How many records begin with one of the marks. -/
def marked (marks : List Char) (records : List Text) : Nat :=
  records.countP fun r => r.head?.any marks.contains

/-- Lines with a mark each, and before them where they begin in the two lists and how many of them
stand in either. -/
structure IsHunk (first : Text) (body : List Text) : Prop where
  marks : ∀ r ∈ body, ∃ mark ∈ [' ', '-', '+'], ∃ line, r = mark :: line
  ranges : ∃ left right, readRanges? first =
    some ((left, marked [' ', '-'] body), (right, marked [' ', '+'] body))

section

variable {rest : Text}

theorem takeWhile_digits (n : Nat) (hr : ∀ c ∈ rest.head?, isDigit c = false) :
    (Decimal.digits n ++ rest).takeWhile isDigit = Decimal.digits n :=
  takeWhile_append_of_stop (fun _ => Decimal.isDigit_of_mem_digits) hr

theorem dropWhile_digits (n : Nat) (hr : ∀ c ∈ rest.head?, isDigit c = false) :
    (Decimal.digits n ++ rest).dropWhile isDigit = rest :=
  dropWhile_append_of_stop (fun _ => Decimal.isDigit_of_mem_digits) hr

theorem readRange_rangeText (start length : Nat)
    (hr : ∀ c ∈ rest.head?, isDigit c = false ∧ c ≠ ',') :
    readRange (rangeText start length ++ rest) = ((start, length), rest) := by
  have hdigit : ∀ c ∈ rest.head?, isDigit c = false := fun c hc => (hr c hc).1
  have hcomma : ∀ c ∈ (',' :: (Decimal.digits length ++ rest)).head?, isDigit c = false := by
    rintro c ⟨⟩
    rfl
  by_cases h1 : length = 1
  · have htext : rangeText start length = Decimal.digits (start + 1) := by rw [rangeText, if_pos h1]
    rw [htext, readRange, takeWhile_digits _ hdigit, dropWhile_digits _ hdigit, h1]
    rcases rest with _ | ⟨c, rest⟩
    · simp [Decimal.ofDigits_digits]
    · have hc : c ≠ ',' := (hr c rfl).2
      simp [Decimal.ofDigits_digits, hc]
  · have htext : rangeText start length ++ rest =
        Decimal.digits (if length = 0 then start else start + 1) ++
          ',' :: (Decimal.digits length ++ rest) := by
      simp [rangeText, h1]
    rw [htext, readRange, takeWhile_digits _ hcomma, dropWhile_digits _ hcomma]
    simp only [takeWhile_digits _ hdigit, dropWhile_digits _ hdigit, Decimal.ofDigits_digits]
    by_cases h0 : length = 0 <;> simp [h0]

end

def Hunk.ranges (h : Hunk) : Text :=
  "@@ -".toList ++ rangeText h.left h.oldLines.length ++ " +".toList ++
    rangeText h.right h.newLines.length ++ " @@\n".toList

theorem ranges_eq (h : Hunk) : h.ranges = "@@ -".toList ++ (rangeText h.left h.oldLines.length ++
    (" +".toList ++ (rangeText h.right h.newLines.length ++ " @@\n".toList))) := by
  unfold Hunk.ranges
  rw [List.append_assoc, List.append_assoc, List.append_assoc]

theorem records_eq (h : Hunk) : h.records = h.ranges :: h.edits.flatMap Edit.records := rfl

theorem readRanges?_ranges (h : Hunk) :
    readRanges? h.ranges = some ((h.left, h.oldLines.length), (h.right, h.newLines.length)) := by
  let rest := rangeText h.right h.newLines.length ++ " @@\n".toList
  have hold : ∀ c ∈ (" +".toList ++ rest).head?, isDigit c = false ∧ c ≠ ',' := by
    rintro c ⟨⟩
    decide
  have hnew : ∀ c ∈ " @@\n".toList.head?, isDigit c = false ∧ c ≠ ',' := by
    rintro c ⟨⟩
    decide
  have hdrop : h.ranges.drop 4 = rangeText h.left h.oldLines.length ++ (" +".toList ++ rest) := by
    rw [ranges_eq]
    rfl
  have htake : h.ranges.take 4 = "@@ -".toList := by
    rw [ranges_eq]
    rfl
  have hmiddle : (" +".toList ++ rest).drop 2 = rest := rfl
  rw [readRanges?, hdrop, readRange_rangeText _ _ hold]
  dsimp only
  rw [hmiddle, readRange_rangeText _ _ hnew]
  exact if_pos ⟨htake, rfl, rfl⟩

theorem exists_mark_of_mem_records {e : Edit String} {r : Text} (h : r ∈ e.records) :
    ∃ mark ∈ [' ', '-', '+'], ∃ l, (l ∈ e.old ∨ l ∈ e.new) ∧ r = mark :: l.toList := by
  cases e with
  | keep ls =>
    obtain ⟨l, hl, rfl⟩ := List.mem_map.mp h
    exact ⟨' ', by simp, l, .inl hl, rfl⟩
  | change removed added =>
    rcases List.mem_append.mp h with h | h
    · obtain ⟨l, hl, rfl⟩ := List.mem_map.mp h
      exact ⟨'-', by simp, l, .inl hl, rfl⟩
    · obtain ⟨l, hl, rfl⟩ := List.mem_map.mp h
      exact ⟨'+', by simp, l, .inr hl, rfl⟩

theorem marked_append (marks : List Char) (rs records : List Text) :
    marked marks (rs ++ records) = marked marks rs + marked marks records :=
  List.countP_append

theorem marked_map (marks : List Char) (mark : Char) (ls : List String) :
    marked marks (ls.map (mark :: ·.toList)) = if mark ∈ marks then ls.length else 0 := by
  induction ls with
  | nil => simp [marked]
  | cons l ls ih =>
    have hhead : marked marks [mark :: l.toList] = if mark ∈ marks then 1 else 0 := by
      simp [marked, List.countP_cons]
    have hcons : marked marks ((l :: ls).map (mark :: ·.toList)) =
        marked marks [mark :: l.toList] + marked marks (ls.map (mark :: ·.toList)) :=
      marked_append marks [mark :: l.toList] _
    rw [hcons, hhead, ih, List.length_cons]
    split <;> omega

theorem marked_records (e : Edit String) :
    marked [' ', '-'] e.records = e.old.length ∧ marked [' ', '+'] e.records = e.new.length := by
  cases e with
  | keep ls => exact ⟨marked_map [' ', '-'] ' ' ls, marked_map [' ', '+'] ' ' ls⟩
  | change removed added =>
    rw [Edit.records, marked_append, marked_append, marked_map, marked_map, marked_map, marked_map]
    exact ⟨rfl, Nat.zero_add _⟩

theorem marked_flatMap_records {marks : List Char} {side : Edit String → List String}
    (h : ∀ e : Edit String, marked marks e.records = (side e).length) (es : List (Edit String)) :
    marked marks (es.flatMap Edit.records) = (es.flatMap side).length := by
  induction es with
  | nil => rfl
  | cons e es ih =>
    rw [List.flatMap_cons, List.flatMap_cons, marked_append, h, ih, List.length_append]

theorem isHunk_records (h : Hunk) : IsHunk h.ranges (h.edits.flatMap Edit.records) where
  marks := by
    intro r hr
    obtain ⟨e, _, hr⟩ := List.mem_flatMap.mp hr
    obtain ⟨mark, hmark, l, _, rfl⟩ := exists_mark_of_mem_records hr
    exact ⟨mark, hmark, _, rfl⟩
  ranges := by
    have hold : marked [' ', '-'] (h.edits.flatMap Edit.records) = h.oldLines.length :=
      marked_flatMap_records (fun e => (marked_records e).1) h.edits
    have hnew : marked [' ', '+'] (h.edits.flatMap Edit.records) = h.newLines.length :=
      marked_flatMap_records (fun e => (marked_records e).2) h.edits
    exact ⟨h.left, h.right, by rw [hold, hnew, readRanges?_ranges]⟩

section

variable {i j : Nat} {old records : List Text}

theorem patchFrom_kept (ls : List String) :
    patchFrom i j (ls.map String.toList ++ old) (ls.map (' ' :: ·.toList) ++ records) =
      (patchFrom (i + ls.length) (j + ls.length) old records).map (ls.map String.toList ++ ·) := by
  induction ls generalizing i j with
  | nil => simp
  | cons l ls ih =>
    have hstep : patchFrom i j (l.toList :: (ls.map String.toList ++ old))
        ((' ' :: l.toList) :: (ls.map (' ' :: ·.toList) ++ records)) =
        (patchFrom (i + 1) (j + 1) (ls.map String.toList ++ old)
          (ls.map (' ' :: ·.toList) ++ records)).map (l.toList :: ·) := by
      rw [patchFrom]
      simp
    rw [List.map_cons, List.map_cons, List.cons_append, List.cons_append, hstep, ih, Option.map_map,
      List.length_cons, Nat.add_right_comm i, Nat.add_right_comm j]
    rfl

theorem patchFrom_removed (ls : List String) :
    patchFrom i j (ls.map String.toList ++ old) (ls.map ('-' :: ·.toList) ++ records) =
      patchFrom (i + ls.length) j old records := by
  induction ls generalizing i with
  | nil => rfl
  | cons l ls ih =>
    have hstep : patchFrom i j (l.toList :: (ls.map String.toList ++ old))
        (('-' :: l.toList) :: (ls.map ('-' :: ·.toList) ++ records)) =
        patchFrom (i + 1) j (ls.map String.toList ++ old)
          (ls.map ('-' :: ·.toList) ++ records) := by
      rw [patchFrom]
      simp
    rw [List.map_cons, List.map_cons, List.cons_append, List.cons_append, hstep, ih,
      List.length_cons, Nat.add_right_comm i]
    rfl

theorem patchFrom_added (ls : List String) :
    patchFrom i j old (ls.map ('+' :: ·.toList) ++ records) =
      (patchFrom i (j + ls.length) old records).map (ls.map String.toList ++ ·) := by
  induction ls generalizing j with
  | nil => simp
  | cons l ls ih =>
    have hstep : patchFrom i j old (('+' :: l.toList) :: (ls.map ('+' :: ·.toList) ++ records)) =
        (patchFrom i (j + 1) old (ls.map ('+' :: ·.toList) ++ records)).map (l.toList :: ·) := by
      rw [patchFrom.eq_def]
      simp
    rw [List.map_cons, List.cons_append, hstep, ih, Option.map_map, List.length_cons,
      Nat.add_right_comm j]
    rfl

theorem patchFrom_edit (e : Edit String) :
    patchFrom i j (e.old.map String.toList ++ old) (e.records ++ records) =
      (patchFrom (i + e.old.length) (j + e.new.length) old records).map
        (e.new.map String.toList ++ ·) := by
  cases e with
  | keep ls => exact patchFrom_kept ls
  | change removed added =>
    rw [Edit.old, Edit.new, Edit.records, List.append_assoc, patchFrom_removed, patchFrom_added]

theorem patchFrom_edits (es : List (Edit String)) :
    patchFrom i j ((es.flatMap Edit.old).map String.toList ++ old)
        (es.flatMap Edit.records ++ records) =
      (patchFrom (i + (es.flatMap Edit.old).length) (j + (es.flatMap Edit.new).length) old
        records).map ((es.flatMap Edit.new).map String.toList ++ ·) := by
  induction es generalizing i j with
  | nil => simp
  | cons e es ih =>
    rw [List.flatMap_cons, List.flatMap_cons, List.flatMap_cons, List.map_append, List.append_assoc,
      List.append_assoc, patchFrom_edit, ih, Option.map_map, List.length_append, List.length_append,
      Nat.add_assoc, Nat.add_assoc, List.map_append]
    congr 1
    funext ls
    simp

theorem patchFrom_ranges {h : Hunk} {same : List Text} (hleft : h.left = i + same.length)
    (hright : h.right = j + same.length) :
    patchFrom i j (same ++ old) (h.ranges :: records) =
      (patchFrom h.left h.right old records).map (same ++ ·) := by
  have hcut : h.ranges = '@' :: h.ranges.tail := by simp [ranges_eq]
  have hskip : h.left - i = same.length := by omega
  have hfits : i ≤ h.left ∧ same.length ≤ (same ++ old).length ∧ h.right = j + same.length := by
    rw [List.length_append]
    omega
  rw [hcut, patchFrom.eq_def]
  simp only [if_true]
  rw [← hcut, readRanges?_ranges]
  simp only [hskip, if_pos hfits, List.drop_left, List.take_left]

end

theorem patchFrom_of_rewrites {i j : Nat} {hs : List Hunk} {xs ys : List String}
    (h : Rewrites i j hs xs ys) :
    patchFrom i j (xs.map String.toList) (hs.flatMap Hunk.records) =
      some (ys.map String.toList) := by
  induction h with
  | done => simp [patchFrom]
  | @hunk i j same xs ys h hs hleft hright _ ih =>
    have hsame : (same.map String.toList).length = same.length := List.length_map ..
    rw [List.flatMap_cons, records_eq, List.cons_append, List.map_append, List.map_append,
      patchFrom_ranges (by rw [hsame, hleft]) (by rw [hsame, hright]), Hunk.oldLines,
      patchFrom_edits]
    rw [Hunk.oldLines, Hunk.newLines] at ih
    rw [ih]
    simp [Hunk.newLines]

end JCalc
