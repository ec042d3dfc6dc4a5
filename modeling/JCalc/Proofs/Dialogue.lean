import JCalc.Proofs.Rerun

/-! What a session writes while it reads lines, and the text that stands on a screen where the
lines are typed after its prompts. It is the re-run of the typed lines with one more prompt, so
that a dialogue copied from a screen is a transcript that is up to date. -/

namespace JCalc

inductive Write where
  | prompt
  | answer (t : Text)
  | close

def Write.text : Write → Text
  | .prompt => JCalc.prompt
  | .answer t => asLine t
  | .close => ['\n']

/-- What a session writes as it reads the given lines. It asks for every line before it answers it,
and once more to learn that there is none. -/
def Session.writes (s : Session) : List Text → List Write
  | [] => [.prompt, .close]
  | l :: ls => .prompt :: ((s.reply l).map .answer ++ s.writes ls)

/-- What a screen shows: whatever is written, and after each prompt the line that is typed there. -/
def screen : List Text → List Write → Text
  | _, [] => []
  | l :: ls, .prompt :: ws => prompt ++ asLine l ++ screen ls ws
  | ls, w :: ws => w.text ++ screen ls ws

def typed (ls : List Text) : Text := ls.flatMap fun l => asLine (prompt ++ l)

theorem flatMap_text_writes (s : Session) (input : Text) :
    (s.writes (inputLines input)).flatMap Write.text = s.converse input := by
  rw [Session.converse, Session.dialogue]
  induction inputLines input with
  | nil => rfl
  | cons l ls ih =>
    simp only [Session.writes, List.flatMap_cons, List.flatMap_append, List.flatMap_map, ih,
      List.append_assoc]
    rfl

theorem screen_answers (ls answers : List Text) (ws : List Write) :
    screen ls (answers.map .answer ++ ws) = answers.flatMap asLine ++ screen ls ws := by
  induction answers with
  | nil => rfl
  | cons a answers ih =>
    rw [List.map_cons, List.cons_append, screen, ih, List.flatMap_cons, List.append_assoc]
    · rfl
    · exact nofun

theorem oneLine_prompt : OneLine prompt := by decide

theorem refresh_prompted (s : Session) (l : Text) :
    s.refresh (prompt ++ l) = (prompt ++ l) :: s.reply l := by
  rw [refresh_eq, if_pos (List.prefix_append prompt l), List.drop_left]

theorem rerun_typed_cons {l : Text} (h : OneLine l) (s : Session) (ls : List Text) :
    s.rerun (typed (l :: ls)) =
      asLine (prompt ++ l) ++ ((s.reply l).flatMap asLine ++ s.rerun (typed ls)) := by
  have hline : ∀ b ∈ [prompt ++ l], OneLine b := by
    intro b hb
    obtain rfl := List.mem_singleton.mp hb
    exact oneLine_prompt.append h
  have hcut : typed (l :: ls) = [prompt ++ l].flatMap asLine ++ typed ls := by
    simp [typed]
  rw [hcut, rerun_flatMap_asLine_append hline, List.flatMap_singleton, refresh_prompted, List.flatMap_cons,
    List.append_assoc]

theorem screen_writes {ls : List Text} (h : ∀ l ∈ ls, OneLine l) (s : Session) :
    screen ls (s.writes ls) = s.rerun (typed ls) ++ asLine prompt := by
  induction ls with
  | nil => rfl
  | cons l ls ih =>
    obtain ⟨hl, hls⟩ := List.forall_mem_cons.mp h
    -- one turn of the dialogue against one typed line of the transcript
    rw [Session.writes, screen, screen_answers, ih hls, rerun_typed_cons hl]
    simp [asLine]

theorem depth_nonneg_iff (s : Session) :
    0 ≤ s.limits.depth ↔ ∀ d, s.maxDepth = some d → 0 ≤ d := by
  rcases hd : s.maxDepth with _ | d
  · simp [Session.limits, hd, defaultMaxDepth]
  · simp [Session.limits, hd, depthCeiling]

theorem evaluateLine_nil (s : Session) :
    s.evaluateLine [] =
      if s.limits.depth < 0 then .error (.tooDeep 0 s.limits.depth) else .ok none := by
  have htokens : tokenize [] = .ok [⟨.finish, [], 0, 0⟩] := by
    rw [tokenize, tokensFrom]
    rfl
  have hshift : shiftAll s.limits 0 [⟨.finish, [], 0, 0⟩] [] = .ok [] := by
    rw [shiftAll, shiftAll]
  have hconclude : conclude s.limits.size [] = .ok none := by
    simp [conclude, reduce, finish]
  have heval : s.evaluateLine [] = evaluate s.limits [⟨.finish, [], 0, 0⟩] := by
    rw [Session.evaluateLine, htokens]
    rfl
  rw [heval, evaluate, List.reverse_singleton, hshift]
  simp only [hconclude]

theorem answer_nil_iff (s : Session) :
    s.answer [] = [] ↔ ∀ d, s.maxDepth = some d → 0 ≤ d := by
  rw [← depth_nonneg_iff, Session.answer, evaluateLine_nil]
  by_cases hd : s.limits.depth < 0
  · rw [if_pos hd]
    have hline : (Fault.tooDeep 0 s.limits.depth).report.line ≠ [] := nofun
    exact iff_of_false hline (by omega)
  · rw [if_neg hd]
    exact iff_of_true rfl (by omega)

theorem rerun_append_prompt_iff (s : Session) (t : Text) :
    s.rerun (s.rerun t ++ asLine prompt) = s.rerun t ++ asLine prompt ↔ s.answer [] = [] := by
  -- the prompt at the end is read as the input of an empty line
  have hempty : OneLine [] := nofun
  have hprompt : s.rerun (asLine prompt) = asLine prompt ++ (s.reply []).flatMap asLine := by
    have hturn := rerun_typed_cons hempty s []
    simpa [typed, Session.rerun, lines] using hturn
  rw [rerun_rerun_append, hprompt, List.append_right_inj, List.append_right_eq_self, reply_eq]
  by_cases ha : s.answer [] = []
  · simp [ha]
  · simp [ha, asLine]

/-- A session writes its prompts, its answers and a last line feed. For lines that are one line
each, the screen it leaves is the re-run of what was typed with one more prompt, whether or not
the last line of input ends. Read as a transcript the screen is up to date, unless the depth is
negative. -/
theorem screen_is_rerun (s : Session) (ls : List Text) (h : ∀ l ∈ ls, OneLine l) :
    (∀ input, (s.writes (inputLines input)).flatMap Write.text = s.converse input) ∧
    screen ls (s.writes (inputLines (ls.flatMap asLine))) = s.rerun (typed ls) ++ asLine prompt ∧
    (∀ earlier last, ls = earlier ++ [last] → last ≠ [] →
      screen ls (s.writes (inputLines (earlier.flatMap asLine ++ last))) =
        s.rerun (typed ls) ++ asLine prompt) ∧
    (s.rerun (s.rerun (typed ls) ++ asLine prompt) = s.rerun (typed ls) ++ asLine prompt ↔
      ∀ d, s.maxDepth = some d → 0 ≤ d) := by
  refine ⟨flatMap_text_writes s, ?_, fun earlier last hls hne => ?_, ?_⟩
  · have hread : inputLines (ls.flatMap asLine) = ls := by
      simpa [inputLines] using inputLines_flatMap_asLine_append h []
    rw [hread, screen_writes h]
  · have hread : inputLines (earlier.flatMap asLine ++ last) = ls := by
      have hearlier : ∀ l ∈ earlier, OneLine l := fun l hl => h l (by simp [hls, hl])
      have hlast : '\n' ∉ last := lineFeed_not_mem (h last (by simp [hls]))
      rw [inputLines_flatMap_asLine_append hearlier, inputLines_unended hlast hne, hls]
    rw [hread, screen_writes h]
  · rw [rerun_append_prompt_iff, answer_nil_iff]

theorem screen_is_rerun_unended :
    let shown := "   1 % (\n|parse error: Unmatched ( at index 4\n   \n   2 + 3\n5\n   \n".toList
    screen ["1 % (".toList, [], "2 + 3".toList]
        (Session.writes {} (inputLines "1 % (\n\n2 + 3".toList)) = shown ∧
      Session.rerun {} shown = shown := by
  intro shown
  have h := screen_is_rerun {} ["1 % (".toList, [], "2 + 3".toList] (by decide)
  have hshown : Session.rerun {} (typed ["1 % (".toList, [], "2 + 3".toList]) ++ asLine prompt =
      shown := by
    decide +kernel
  rw [hshown] at h
  obtain ⟨_, _, hunended, hagain⟩ := h
  exact ⟨hunended ["1 % (".toList, []] "2 + 3".toList rfl (by decide), hagain.mpr nofun⟩

end JCalc
