import JCalc.Proofs.DepthBound
import JCalc.Proofs.Segments
import JCalc.Proofs.SizeLimit

/-! Strands do not depend on how they are put together. Nouns may be joined in any order of the
joins, and parentheses may be put around any of the literals and groups that stand side by side:
there is a value just when the size limit allows all elements, and it has all of them in order. -/

namespace JCalc

/-- An order in which nouns that stand side by side are joined. -/
inductive Bracketing where
  | noun (x : Noun)
  | join (l r : Bracketing)

namespace Bracketing

def nouns : Bracketing → List Noun
  | noun x => [x]
  | join l r => l.nouns ++ r.nouns

def value (limit : Int) : Bracketing → Except Fault Noun
  | noun x => .ok x
  | join l r => do
    let x ← l.value limit
    let y ← r.value limit
    x.concatenate limit y

end Bracketing

/-- The tokens of a literal, or of a group with a noun for its value. -/
inductive StrandItem (size : Int) : List Token → Noun → Prop where
  | literal {t : Token} {x : Number} (h : t.kind = .number x) : StrandItem size [t] (.atom x.toScalar)
  | group {opening closing : Token} {inside : List Token} {depth : Int} {x : Noun}
      (ho : opening.kind = .leftParen) (hc : closing.kind = .rightParen)
      (h : evaluate ⟨size, depth⟩ inside = .ok (some x)) :
      StrandItem size (opening :: (inside ++ [closing])) x

/-- Parentheses are put, one pair after the other, around literals and groups that stand side by side;
the places of the tokens may change. -/
inductive Grouping (size : Int) : List Token → List Token → Prop where
  | same {ts us : List Token} (h : us.map Token.unplaced = ts.map Token.unplaced) : Grouping size ts us
  | group {ts us a b : List Token} {items : List (List Token)} {opening closing : Token}
      (h : Grouping size ts (a ++ (items.flatten ++ b))) (hne : items ≠ [])
      (hitems : ∀ item ∈ items, ∃ x, StrandItem size item x) (ho : opening.kind = .leftParen)
      (hc : closing.kind = .rightParen)
      (hu : us.map Token.unplaced =
        (a ++ (opening :: (items.flatten ++ [closing]) ++ b)).map Token.unplaced) :
      Grouping size ts us

section

variable {limit : Int} {xs : List Noun} {b : Bracketing}

/-- Nouns in the middle of a strand may be joined first. -/
theorem strand?_join (hne : xs ≠ []) (before after : List Noun) :
    strand? limit (before ++ (xs ++ after)) =
      (strand? limit xs).bind fun y => strand? limit (before ++ y :: after) := by
  rcases xs with _ | ⟨x, _ | ⟨x', xs⟩⟩
  · exact absurd rfl hne
  · rfl
  generalize hys : x :: x' :: xs = ys
  have htwo : 2 ≤ ys.length := by simp [← hys]
  have hall : 2 ≤ (before ++ (ys ++ after)).length := by
    simp only [List.length_append]
    omega
  have hlength : (ys.flatMap Noun.elements).length ≤
      ((before ++ (ys ++ after)).flatMap Noun.elements).length := by
    simp only [List.flatMap_append, List.length_append]
    omega
  rw [strand?_of_two htwo, strand?_of_two hall]
  by_cases hfits : ((ys.flatMap Noun.elements).length : Int) ≤ limit
  · rw [if_pos hfits, Option.bind_some]
    by_cases halone : before = [] ∧ after = []
    · obtain ⟨rfl, rfl⟩ := halone
      simp only [List.nil_append, List.append_nil, if_pos hfits]
      rfl
    · have hmore : 2 ≤ (before ++ Noun.list (ys.flatMap Noun.elements) :: after).length := by
        have hpos : 0 < before.length + after.length := by
          by_contra hzero
          exact halone ⟨List.length_eq_zero_iff.mp (by omega), List.length_eq_zero_iff.mp (by omega)⟩
        simp only [List.length_append, List.length_cons]
        omega
      rw [strand?_of_two hmore]
      simp only [List.flatMap_append, List.flatMap_cons, Noun.elements]
  · rw [if_neg hfits, if_neg (by omega)]
    rfl

theorem Bracketing.nouns_ne_nil (b : Bracketing) : b.nouns ≠ [] := by
  induction b with
  | noun x => exact List.cons_ne_nil x []
  | join l r ihl _ => exact List.append_ne_nil_of_left_ne_nil ihl _

/-- Whatever the order of the joins, their value is the one noun of the strand. -/
theorem Bracketing.toOption_value (b : Bracketing) : (b.value limit).toOption = strand? limit b.nouns := by
  induction b with
  | noun x => rfl
  | join l r ihl ihr =>
    have hvalue : (join l r).value limit =
        (l.value limit).bind fun x => (r.value limit).bind fun y => x.concatenate limit y := rfl
    have hjoin := @strand?_join limit l.nouns l.nouns_ne_nil [] r.nouns
    rw [List.nil_append] at hjoin
    rw [nouns, hvalue, hjoin, toOption_bind, ihl]
    congr 1
    funext x
    rw [toOption_bind, ihr, List.nil_append, strand?_cons limit x r.nouns_ne_nil]

theorem eq_tooLarge_of_concatenate {x y : Noun} {fault : Fault} (h : x.concatenate limit y = .error fault) :
    ∃ count, fault = .tooLarge "strand".toList count limit := by
  unfold Noun.concatenate checkSize at h
  split at h
  · exact ⟨_, (Except.error.inj h).symm⟩
  · cases h

theorem Bracketing.eq_tooLarge {fault : Fault} (h : b.value limit = .error fault) :
    ∃ count, fault = .tooLarge "strand".toList count limit := by
  induction b generalizing fault with
  | noun x => cases h
  | join l r ihl ihr =>
    rw [value] at h
    cases hl : l.value limit with
    | error e =>
      rw [hl] at h
      cases h
      exact ihl hl
    | ok x =>
      cases hr : r.value limit with
      | error e =>
        rw [hl, hr] at h
        cases h
        exact ihr hr
      | ok y =>
        rw [hl, hr] at h
        exact eq_tooLarge_of_concatenate h

theorem applyTo?_of_ne_nil {run : List Noun} (h : run ≠ []) (v : Verb) (z : Noun) :
    applyTo? limit v run z = (strand? limit run).bind fun x => (v.applyDyad x z).toOption := by
  obtain ⟨x, rest, rfl⟩ := List.exists_cons_of_ne_nil h
  rfl

theorem valueAfter?_run (hne : xs ≠ []) (before after : List Noun) (es : List Fragment) :
    valueAfter? limit (before ++ (xs ++ after)) es =
      (strand? limit xs).bind fun y => valueAfter? limit (before ++ y :: after) es := by
  induction es generalizing after with
  | nil => exact strand?_join hne before after
  | cons e es ih =>
    cases e with
    | noun x =>
      have hrest := ih (after ++ [x])
      simpa only [valueAfter?, List.append_assoc, List.cons_append] using hrest
    | verb v =>
      have hrun : before ++ (xs ++ after) ≠ [] := by simp [hne]
      rw [valueAfter?]
      cases hz : valueAfter? limit [] es with
      | none => simp only [valueAfter?, hz, Option.bind_none, Option.bind_fun_none]
      | some z =>
        rw [Option.bind_some, applyTo?_of_ne_nil hrun, strand?_join hne, Option.bind_assoc]
        congr 1
        funext y
        have hrun' : before ++ y :: after ≠ [] := by simp
        rw [valueAfter?, hz, Option.bind_some, applyTo?_of_ne_nil hrun']

/-- A strand inside a sentence may give way to its one noun. -/
theorem valueAfter?_join (hne : xs ≠ []) (run : List Noun) (es fs : List Fragment) :
    valueAfter? limit run (es ++ (xs.map .noun ++ fs)) =
      (strand? limit xs).bind fun y => valueAfter? limit run (es ++ .noun y :: fs) := by
  induction es generalizing run with
  | nil =>
    have hrun := @valueAfter?_run limit xs hne run [] fs
    rw [List.append_nil] at hrun
    rw [List.nil_append, valueAfter?_nouns, hrun]
    rfl
  | cons e es ih =>
    cases e with
    | noun x => exact ih (run ++ [x])
    | verb v =>
      rw [List.cons_append, valueAfter?, ih, Option.bind_assoc]
      rfl

theorem sentence?_join (hne : xs ≠ []) (es fs : List Fragment) :
    sentence? limit (es ++ (xs.map .noun ++ fs)) =
      (strand? limit xs).bind fun y => sentence? limit (es ++ .noun y :: fs) := by
  obtain ⟨x, ys, rfl⟩ := List.exists_cons_of_ne_nil hne
  have hjoin := @valueAfter?_join limit (x :: ys) hne [] es fs
  rw [List.map_cons, List.cons_append] at hjoin ⊢
  rw [sentence?_of_noun, hjoin, Option.map_bind]
  congr 1
  funext y
  exact (sentence?_of_noun es y fs).symm

end

section

variable {size size' : Int} {limits : Limits} {items : List (List Token)} {item ts us a b : List Token}
  {xs : List Noun} {x y : Noun} {opening closing : Token} {n : Nat} {es : List Fragment}

theorem StrandItem.balanced (h : StrandItem size item x) : Balanced item := by
  cases h with
  | literal h => exact .plain (by simp [h, TokenKind.isParen])
  | group ho hc h =>
    obtain ⟨_, _, hr, _⟩ := reads_of_evaluate h
    exact .group ho hc hr.balanced

theorem StrandItem.ne_nil (h : StrandItem size item x) : item ≠ [] := by
  cases h <;> simp

theorem StrandItem.exists_reads (h : StrandItem size item x) : ∃ n, Reads size item n [.noun x] := by
  cases h with
  | literal h => exact ⟨0, .number h⟩
  | group ho hc h =>
    obtain ⟨n, es, hr, _, he⟩ := reads_of_evaluate h
    exact ⟨n + 1, .group ho hc hr he⟩

theorem StrandItem.eq_noun (h : StrandItem size item x) (hr : Reads size item n es) : es = [.noun x] := by
  cases h with
  | literal h => exact (hr.of_number h).2
  | group ho hc h =>
    obtain ⟨_, fs, hr', _, hfs⟩ := reads_of_evaluate h
    obtain ⟨_, gs, e, hgs, he, _, rfl⟩ := hr.of_group ho hr'.balanced
    rw [hgs.sentence?_unique hr', hfs] at he
    cases he
    rfl

theorem StrandItem.mono (hs : size ≤ size') (h : StrandItem size item x) : StrandItem size' item x := by
  cases h with
  | literal h => exact .literal h
  | @group _ _ inside depth x ho hc h =>
    suffices hlarger : evaluate ⟨size', depth⟩ inside = .ok (some x) from .group ho hc hlarger
    rcases evaluate_eq_or_tooLarge hs depth inside with heq | ⟨_, _, hfails⟩
    · rw [← heq, h]
    · rw [h] at hfails
      cases hfails

theorem Grouping.mono (hs : size ≤ size') (h : Grouping size ts us) : Grouping size' ts us := by
  induction h with
  | same h => exact .same h
  | group _ hne hitems ho hc hu ih =>
    refine .group ih hne (fun item hitem => ?_) ho hc hu
    obtain ⟨x, hx⟩ := hitems item hitem
    exact ⟨x, hx.mono hs⟩

theorem balanced_strand (h : List.Forall₂ (StrandItem size) items xs) : Balanced items.flatten := by
  induction h with
  | nil => exact .empty
  | cons hitem _ ih => exact hitem.balanced.append ih

theorem exists_reads_strand (h : List.Forall₂ (StrandItem size) items xs) :
    ∃ n, Reads size items.flatten n (xs.map .noun) := by
  induction h with
  | nil => exact ⟨0, .empty⟩
  | cons hitem _ ih =>
    obtain ⟨m, hm⟩ := hitem.exists_reads
    obtain ⟨n, hn⟩ := ih
    exact ⟨max m n, hm.append hn⟩

theorem eq_nouns_of_strand (h : List.Forall₂ (StrandItem size) items xs)
    (hr : Reads size items.flatten n es) : es = xs.map .noun := by
  induction h generalizing n es with
  | nil => exact hr.of_nil.2
  | cons hitem _ ih =>
    obtain ⟨_, _, fs, gs, hfs, hgs, _, rfl⟩ := Reads.exists_append hr hitem.balanced
    rw [hitem.eq_noun hfs, ih hgs]
    rfl

theorem exists_nouns_of_items (h : ∀ item ∈ items, ∃ x, StrandItem size item x) :
    ∃ xs, List.Forall₂ (StrandItem size) items xs := by
  induction items with
  | nil => exact ⟨[], .nil⟩
  | cons item items ih =>
    obtain ⟨x, hx⟩ := h item List.mem_cons_self
    obtain ⟨xs, hxs⟩ := ih fun other hother => h other (List.mem_cons_of_mem item hother)
    exact ⟨x :: xs, .cons hx hxs⟩

/-- A segment that has no value leaves none to what is around it. -/
theorem Around.exists_strand {k : Nat} (hne : xs ≠ []) (h : Around size k (xs.map .noun) a b n es)
    (hsome : sentence? size es ≠ none) : ∃ y, strand? size xs = some y := by
  induction h with
  | @level _ _ _ _ es gs _ _ =>
    by_contra hnone
    rw [sentence?_join hne] at hsome
    cases hstrand : strand? size xs with
    | none => exact hsome (by rw [hstrand]; rfl)
    | some y => exact hnone ⟨y, hstrand⟩
  | group _ _ _ _ he _ ih =>
    apply ih
    rw [he]
    exact Option.some_ne_none _

theorem sentence?_strand (hne : xs ≠ []) (hy : strand? size xs = some y) (as bs : List Fragment) :
    sentence? size (as ++ (xs.map .noun ++ bs)) = sentence? size (as ++ ([.noun y] ++ bs)) := by
  rw [sentence?_join hne, hy]
  rfl

theorem flatten_ne_nil_of_strand (h : List.Forall₂ (StrandItem size) items xs) (hne : items ≠ []) :
    items.flatten ≠ [] ∧ xs ≠ [] := by
  cases h with
  | nil => exact absurd rfl hne
  | cons hitem _ => exact ⟨List.append_ne_nil_of_left_ne_nil hitem.ne_nil _, List.cons_ne_nil _ _⟩

section

variable {depth : Int} {value : Option Noun}

/-- Put around items of a strand, parentheses keep the value, if the depth limit allows for them. -/
theorem exists_evaluate_grouped (hne : items ≠ []) (hitems : List.Forall₂ (StrandItem size) items xs)
    (ho : opening.kind = .leftParen) (hc : closing.kind = .rightParen)
    (h : evaluate ⟨size, depth⟩ (a ++ (items.flatten ++ b)) = .ok value) :
    ∃ depth' ≥ depth,
      evaluate ⟨size, depth'⟩ (a ++ (opening :: (items.flatten ++ [closing]) ++ b)) = .ok value := by
  obtain ⟨hflatten, hxs⟩ := flatten_ne_nil_of_strand hitems hne
  obtain ⟨n, es, hr, _, hes⟩ := reads_of_evaluate h
  obtain ⟨k, fs, hsegment, haround⟩ := hr.exists_around (balanced_strand hitems) hflatten rfl
  obtain rfl := eq_nouns_of_strand hitems hsegment
  obtain ⟨y, hy⟩ := haround.exists_strand hxs (by simp [hes])
  have hin : sentence? size (xs.map .noun) = some (some (.noun y)) := by
    rw [sentence?_nouns hxs, hy]
    rfl
  have hsame := fun as bs => (@sentence?_strand size xs y hxs hy as bs).symm
  obtain ⟨n', es', haround', hes', _⟩ := haround.replace hsame (k + 1)
  have hreads := haround'.reads (.group ho hc hsegment hin)
  refine ⟨max depth n', Int.le_max_left .., evaluate_of_reads hreads (Int.le_max_right ..) ?_⟩
  exact hes'.trans hes

theorem evaluate_ungrouped (hne : items ≠ []) (hitems : List.Forall₂ (StrandItem size) items xs)
    (ho : opening.kind = .leftParen) (hc : closing.kind = .rightParen)
    (h : evaluate ⟨size, depth⟩ (a ++ (opening :: (items.flatten ++ [closing]) ++ b)) = .ok value) :
    evaluate ⟨size, depth⟩ (a ++ (items.flatten ++ b)) = .ok value := by
  have hbalanced := balanced_strand hitems
  obtain ⟨_, hxs⟩ := flatten_ne_nil_of_strand hitems hne
  obtain ⟨n, es, hr, hn, hes⟩ := reads_of_evaluate h
  obtain ⟨k, fs, hsegment, haround⟩ :=
    hr.exists_around (.group ho hc hbalanced) (List.cons_ne_nil _ _) rfl
  obtain ⟨m, gs, e, hin, he, rfl, rfl⟩ := hsegment.of_group ho hbalanced
  obtain rfl := eq_nouns_of_strand hitems hin
  rw [sentence?_nouns hxs] at he
  obtain ⟨y, hy, heq⟩ := Option.map_eq_some_iff.mp he
  obtain rfl := Option.some.inj heq
  obtain ⟨n', es', haround', hes', hle⟩ := haround.replace (sentence?_strand hxs hy) m
  have hdepth := hle (Nat.le_succ m)
  exact evaluate_of_reads (haround'.reads hin) (by omega) (hes'.trans hes)

theorem evaluate_unplaced (hu : us.map Token.unplaced = ts.map Token.unplaced)
    (h : evaluate limits ts = .ok value) : evaluate limits us = .ok value := by
  obtain ⟨n, es, hr, hn, hes⟩ := reads_of_evaluate h
  exact evaluate_of_reads (hr.of_unplaced hu) hn hes

theorem Grouping.evaluate_ungrouped (hg : Grouping size ts us)
    (h : evaluate ⟨size, depth⟩ us = .ok value) : evaluate ⟨size, depth⟩ ts = .ok value := by
  induction hg with
  | same hu => exact evaluate_unplaced hu.symm h
  | group _ hne hitems ho hc hu ih =>
    obtain ⟨xs, hxs⟩ := exists_nouns_of_items hitems
    exact ih (JCalc.evaluate_ungrouped hne hxs ho hc (evaluate_unplaced hu.symm h))

theorem evaluate_deeper {depth' : Int} (hd : depth ≤ depth') (h : evaluate ⟨size, depth⟩ ts = .ok value) :
    evaluate ⟨size, depth'⟩ ts = .ok value := by
  obtain ⟨n, es, hr, hn, hes⟩ := reads_of_evaluate h
  exact evaluate_of_reads hr (Int.le_trans hn hd) hes

theorem Grouping.exists_evaluate (hg : Grouping size ts us) (h : evaluate ⟨size, depth⟩ ts = .ok value) :
    ∃ depth' ≥ depth, evaluate ⟨size, depth'⟩ us = .ok value := by
  induction hg with
  | same hu => exact ⟨depth, Int.le_refl _, evaluate_unplaced hu h⟩
  | group _ hne hitems ho hc hu ih =>
    obtain ⟨xs, hxs⟩ := exists_nouns_of_items hitems
    obtain ⟨depth', hd, hvalue⟩ := ih
    obtain ⟨depth'', hd', hgrouped⟩ := exists_evaluate_grouped hne hxs ho hc hvalue
    exact ⟨depth'', Int.le_trans hd hd', evaluate_unplaced hu hgrouped⟩

/-- Within the depth limit the value is the same with all parentheses. -/
theorem Grouping.evaluate_eq (hg : Grouping size ts us) (h0 : 0 ≤ depth) (hd : ¬ NestedDeeper us depth)
    (value : Option Noun) :
    evaluate ⟨size, depth⟩ us = .ok value ↔ ∃ depth', evaluate ⟨size, depth'⟩ ts = .ok value := by
  constructor
  · exact fun h => ⟨depth, hg.evaluate_ungrouped h⟩
  · rintro ⟨depth', h⟩
    obtain ⟨deep, hdeep, hvalue⟩ := hg.exists_evaluate h
    have hvalue := evaluate_deeper (Int.le_max_right depth deep) hvalue
    rcases @evaluate_eq_or_tooDeep ⟨size, depth⟩ ⟨size, max depth deep⟩ rfl h0
      (Int.le_max_left ..) us with heq | ⟨_, hdeeper⟩
    · exact heq.trans hvalue
    · exact absurd hdeeper hd

end

section

variable {ends : List Token}

theorem exists_reads_ends (hitems : List.Forall₂ (StrandItem size) items xs)
    (hends : ∀ t ∈ ends, t.kind = .finish) :
    ∃ n, Reads size (items.flatten ++ ends) n (xs.map .noun) := by
  obtain ⟨n, hn⟩ := exists_reads_strand hitems
  have hrest : Reads size ends 0 [] := by
    induction ends with
    | nil => exact .empty
    | cons t ends ih =>
      have hend := ih fun u hu => hends u (List.mem_cons_of_mem t hu)
      exact (Reads.finish (hends t List.mem_cons_self)).append hend
  have hreads := hn.append hrest
  rw [List.append_nil] at hreads
  exact ⟨_, hreads⟩

theorem exists_evaluate_strand (hitems : List.Forall₂ (StrandItem size) items xs) (hne : xs ≠ [])
    (hends : ∀ t ∈ ends, t.kind = .finish) (hy : strand? size xs = some y) :
    ∃ depth, evaluate ⟨size, depth⟩ (items.flatten ++ ends) = .ok (some y) := by
  obtain ⟨n, hr⟩ := exists_reads_ends hitems hends
  refine ⟨n, evaluate_of_reads hr (Int.le_refl _) ?_⟩
  rw [sentence?_nouns hne, hy]
  rfl

theorem strand?_of_evaluate (hitems : List.Forall₂ (StrandItem size) items xs) (hne : xs ≠ [])
    (hends : ∀ t ∈ ends, t.kind = .finish) {depth : Int} {value : Option Noun}
    (h : evaluate ⟨size, depth⟩ (items.flatten ++ ends) = .ok value) :
    ∃ y, strand? size xs = some y := by
  obtain ⟨n, hn⟩ := exists_reads_ends hitems hends
  obtain ⟨m, es, hr, _, hes⟩ := reads_of_evaluate h
  rw [hr.sentence?_unique hn, sentence?_nouns hne] at hes
  obtain ⟨y, hy, _⟩ := Option.map_eq_some_iff.mp hes
  exact ⟨y, hy⟩

/-- A strand alone, with any parentheses within the depth limit, has all elements in order for its
value, or is refused for size. -/
theorem evaluate_strand {depth : Int} (hitems : List.Forall₂ (StrandItem size) items xs)
    (htwo : 2 ≤ xs.length) (hends : ∀ t ∈ ends, t.kind = .finish)
    (hg : Grouping size (items.flatten ++ ends) us) (h0 : 0 ≤ depth) (hd : ¬ NestedDeeper us depth) :
    if ((xs.flatMap Noun.elements).length : Int) ≤ size then
      evaluate ⟨size, depth⟩ us = .ok (some (.list (xs.flatMap Noun.elements)))
    else ∃ subject count, evaluate ⟨size, depth⟩ us = .error (.tooLarge subject count size) := by
  have hne : xs ≠ [] := List.ne_nil_of_length_pos (by omega)
  have hvalue {size' : Int} (hs : size ≤ size')
      (hfits : ((xs.flatMap Noun.elements).length : Int) ≤ size') :
      evaluate ⟨size', depth⟩ us = .ok (some (.list (xs.flatMap Noun.elements))) := by
    have hitems' := hitems.imp fun _ _ h => StrandItem.mono hs h
    apply ((hg.mono hs).evaluate_eq h0 hd _).mpr
    apply exists_evaluate_strand hitems' hne hends
    rw [strand?_of_two htwo, if_pos hfits]
  split_ifs with hfits
  · exact hvalue (Int.le_refl size) hfits
  · have hlarger : size ≤ (xs.flatMap Noun.elements).length := by omega
    rcases evaluate_eq_or_tooLarge hlarger depth us with heq | hrefused
    · have hungrouped := hg.evaluate_ungrouped (heq.trans (hvalue hlarger (Int.le_refl _)))
      obtain ⟨y, hy⟩ := strand?_of_evaluate hitems hne hends hungrouped
      rw [strand?_of_two htwo, if_neg hfits] at hy
      cases hy
    · exact hrefused

end

end

/-- Nouns side by side are joined to one list of all their elements in order, or refused for size
if these are more than the limit, whatever the order of the joins. Parentheses around literals and
groups that stand side by side change no value of a sentence, within the depth limit. -/
theorem strands_ignore_grouping (limits : Limits) :
    (∀ b : Bracketing, 2 ≤ b.nouns.length →
      let elements := b.nouns.flatMap Noun.elements
      (elements.length ≤ limits.size → b.value limits.size = .ok (.list elements)) ∧
      (limits.size < elements.length →
        ∃ count, b.value limits.size = .error (.tooLarge "strand".toList count limits.size))) ∧
    (∀ ts us, Grouping limits.size ts us → ∀ value,
      (evaluate limits us = .ok value → evaluate limits ts = .ok value) ∧
      (evaluate limits ts = .ok value → evaluate limits us = .ok value ∨
        evaluate limits us = .error (.tooDeep (limits.depth + 1) limits.depth) ∧
          NestedDeeper us limits.depth)) ∧
    ∀ items xs ends us, List.Forall₂ (StrandItem limits.size) items xs → 2 ≤ xs.length →
      (∀ t ∈ ends, t.kind = .finish) → Grouping limits.size (items.flatten ++ ends) us →
      0 ≤ limits.depth → ¬ NestedDeeper us limits.depth →
      let elements := xs.flatMap Noun.elements
      (elements.length ≤ limits.size → evaluate limits us = .ok (some (.list elements))) ∧
      (limits.size < elements.length →
        ∃ subject count, evaluate limits us = .error (.tooLarge subject count limits.size)) := by
  refine ⟨fun b htwo => ?_, fun ts us hg value => ⟨hg.evaluate_ungrouped, fun h => ?_⟩, ?_⟩
  · have hvalue := @Bracketing.toOption_value limits.size b
    rw [strand?_of_two htwo] at hvalue
    refine ⟨fun hfits => ?_, fun hlarge => ?_⟩
    · rw [if_pos hfits] at hvalue
      exact toOption_eq_some_iff.mp hvalue
    · rw [if_neg (by omega)] at hvalue
      cases hb : b.value limits.size with
      | ok z =>
        rw [hb] at hvalue
        cases hvalue
      | error fault =>
        obtain ⟨count, rfl⟩ := b.eq_tooLarge hb
        exact ⟨count, rfl⟩
  · have h0 : 0 ≤ limits.depth := by
      obtain ⟨n, _, _, hn, _⟩ := reads_of_evaluate h
      omega
    obtain ⟨deep, hdeep, hvalue⟩ := hg.exists_evaluate h
    rcases @evaluate_eq_or_tooDeep limits ⟨limits.size, deep⟩ rfl h0 hdeep us with heq | hcut
    · exact .inl (heq.trans hvalue)
    · exact .inr hcut
  · intro items xs ends us hitems htwo hends hg h0 hd
    have hstrand := evaluate_strand hitems htwo hends hg h0 hd
    refine ⟨fun hfits => ?_, fun hlarge => ?_⟩
    · rwa [if_pos hfits] at hstrand
    · rwa [if_neg (by omega)] at hstrand

theorem strands_ignore_grouping_pair :
    let x (k : Nat) : Number := .ofReal (.ofNat k)
    let t (k : Nat) : Token := ⟨.number (x k), [], 0, 0⟩
    let y (k : Nat) : Noun := .atom (x k).toScalar
    let opening : Token := ⟨.leftParen, ['('], 0, 1⟩
    let closing : Token := ⟨.rightParen, [')'], 4, 5⟩
    let us := [opening, t 1, t 2, closing, t 3]
    let z : Noun := .list [(x 1).toScalar, (x 2).toScalar, (x 3).toScalar]
    Grouping 3 [t 1, t 2, t 3] us ∧ evaluate ⟨3, 1⟩ us = .ok (some z) ∧
      evaluate ⟨3, 1⟩ [t 1, t 2, t 3] = .ok (some z) ∧
      (∃ subject count, evaluate ⟨2, 1⟩ us = .error (.tooLarge subject count 2)) ∧
      ∃ count, (Bracketing.join (.join (.noun (y 1)) (.noun (y 2))) (.noun (y 3))).value 2 =
        .error (.tooLarge "strand".toList count 2) := by
  intro x t y opening closing us z
  have hitem (size : Int) (k : Nat) : StrandItem size [t k] (y k) := .literal rfl
  have hg (size : Int) : Grouping size [t 1, t 2, t 3] us := by
    have hsame : Grouping size [t 1, t 2, t 3] ([] ++ ([[t 1], [t 2]].flatten ++ [t 3])) := .same rfl
    have hopens : opening.kind = .leftParen := rfl
    have hcloses : closing.kind = .rightParen := rfl
    refine .group hsame (List.cons_ne_nil _ _) ?_ hopens hcloses rfl
    refine List.forall_mem_cons.mpr ⟨⟨_, hitem size 1⟩, List.forall_mem_singleton.mpr ?_⟩
    exact ⟨_, hitem size 2⟩
  have hitems (size : Int) :
      List.Forall₂ (StrandItem size) [[t 1], [t 2], [t 3]] [y 1, y 2, y 3] :=
    .cons (hitem size 1) (.cons (hitem size 2) (.cons (hitem size 3) .nil))
  have hd : ¬ NestedDeeper us 1 := by
    have hvalue : evaluate ⟨3, 1⟩ us = .ok (some z) := by decide +kernel
    exact not_nestedDeeper_of_evaluate hvalue
  obtain ⟨_, hungroup, hstrand⟩ := strands_ignore_grouping ⟨3, 1⟩
  obtain ⟨hjoin, _, hrefused⟩ := strands_ignore_grouping ⟨2, 1⟩
  have hvalue := (hstrand _ _ [] us (hitems 3) (by decide) nofun (hg 3) (by decide) hd).1 (by decide)
  have hcut := (hrefused _ _ [] us (hitems 2) (by decide) nofun (hg 2) (by decide) hd).2 (by decide)
  exact ⟨hg 3, hvalue, (hungroup _ _ (hg 3) _).1 hvalue, hcut, (hjoin _ (by decide)).2 (by decide)⟩

end JCalc
