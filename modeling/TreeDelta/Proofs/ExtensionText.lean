import TreeDelta.CommandLine.Run
set_option autoImplicit false

namespace TreeDelta

namespace Text

theorem wordsFrom_append {c : Char} (hc : isBlank c = true) (word cs cs' : List Char) :
    wordsFrom word (cs ++ c :: cs') = wordsFrom word cs ++ wordsFrom [] cs' := by
  induction cs generalizing word with
  | nil =>
    rw [List.nil_append, wordsFrom.eq_def]
    simp only [hc, if_true, wordsFrom]
    split <;> rfl
  | cons d cs ih =>
    rw [List.cons_append, wordsFrom, wordsFrom]
    split
    · split
      · exact ih []
      · rw [ih, List.cons_append]
    · exact ih (d :: word)

theorem words_append (s t : String) : words (s ++ " " ++ t) = words s ++ words t := by
  have hchars : (s ++ " " ++ t).toList = s.toList ++ ' ' :: t.toList := by simp
  rw [words, hchars, wordsFrom_append (by decide), List.map_append, words, words]

end Text

namespace Options

open Extension

/-- Sets what the words ask for, one after another. What was set before a wrong word stays. -/
def setInTurn (o : Options) : List String → Options × Except DiffError Unit
  | [] => (o, .ok ())
  | word :: rest =>
    match Word.read word with
    | .whole x => setInTurn (x.apply o) rest
    | .bad fault => (o, .error (.usage fault))
    | .wantsCount =>
      match rest with
      | [] => (o, .error (.usage .lineCountMissing))
      | count :: rest =>
        match lineCount count with
        | .ok n => setInTurn (Extension.apply o (.contextLines n)) rest
        | .error fault => (o, .error (.usage fault))

theorem extend_eq_setInTurn (o : Options) (s : String) : o.extend s = o.setInTurn (Text.words s) := by
  unfold extend
  fun_induction setInTurn o (Text.words s) with
  | case1 => rfl
  | case2 o word rest x hword ih =>
    rw [readAll.eq_def]
    simp only [hword]
    exact ih
  | case3 o word rest fault hword =>
    rw [readAll.eq_def]
    simp only [hword, List.foldl_nil]
  | case4 o word hword => simp only [readAll, hword, List.foldl_nil]
  | case5 o word hword count rest n hcount ih =>
    simp only [readAll, hword, hcount]
    exact ih
  | case6 o word hword count rest fault hcount => simp only [readAll, hword, hcount, List.foldl_nil]

theorem setInTurn_append {o o' : Options} {words : List String} (words' : List String)
    (h : o.setInTurn words = (o', .ok ())) : o.setInTurn (words ++ words') = o'.setInTurn words' := by
  fun_induction setInTurn o words with
  | case1 =>
    cases h
    rfl
  | case2 o word rest x hword ih =>
    rw [List.cons_append, setInTurn.eq_def]
    simp only [hword]
    exact ih h
  | case5 o word hword count rest n hcount ih =>
    rw [List.cons_append, List.cons_append]
    simp only [setInTurn, hword, hcount]
    exact ih h
  -- A last word that waits for its count would take the first of the words that follow, but it is wrong.
  | case3 | case4 | case6 => cases h

def OnlyLines (o o' : Options) : Prop :=
  o' = { o with contextLines := o'.contextLines, ignoreSpace := o'.ignoreSpace, ignoreEolStyle := o'.ignoreEolStyle }

theorem apply_onlyLines (o : Options) (x : Extension) : o.OnlyLines (x.apply o) := by
  cases x <;> rfl

theorem OnlyLines.trans {o o' o'' : Options} (h : o.OnlyLines o') (h' : o'.OnlyLines o'') : o.OnlyLines o'' := by
  unfold OnlyLines at *
  rw [h', h]

theorem setInTurn_onlyLines (o : Options) (words : List String) : o.OnlyLines (o.setInTurn words).1 := by
  fun_induction setInTurn o words with
  | case2 o word rest x hword ih => exact (o.apply_onlyLines x).trans ih
  | case5 o word hword count rest n hcount ih => exact (o.apply_onlyLines (.contextLines n)).trans ih
  | case1 | case3 | case4 | case6 => rfl

theorem extend_append {o o' : Options} {a : String} (h : o.extend a = (o', .ok ())) (b : String) :
    o.extend (a ++ " " ++ b) = o'.extend b := by
  rw [extend_eq_setInTurn] at h
  rw [extend_eq_setInTurn, Text.words_append, setInTurn_append _ h, ← extend_eq_setInTurn]

theorem extend_onlyLines (o : Options) (s : String) : o.OnlyLines (o.extend s).1 := by
  rw [extend_eq_setInTurn]
  exact o.setInTurn_onlyLines _

end Options

namespace CommandLine

theorem extendWith_eq_ok {o o' : Options} {s : String} (h : o.extend s = (o', .ok ())) :
    extendWith o (some s) = .ok o' := by
  simp only [extendWith, h]

theorem extendWith_append {o o' : Options} {a : String} (h : o.extend a = (o', .ok ())) (b : String) :
    extendWith o (some (a ++ " " ++ b)) = extendWith o' (some b) := by
  simp only [extendWith, Options.extend_append h]

theorem buildOptions_append {c : Config} {arguments : DiffArguments} {o : Options} {a b : String}
    (hconfig : c.extensions = some a) (harguments : arguments.extensions = some b)
    (h : (withFlags arguments c.diff).extend a = (o, .ok ())) :
    buildOptions c arguments =
      buildOptions { c with extensions := some (a ++ " " ++ b) } { arguments with extensions := none } := by
  have hflags : withFlags { arguments with extensions := none } c.diff = withFlags arguments c.diff := rfl
  unfold buildOptions
  dsimp only
  rw [hflags, hconfig, harguments, extendWith_eq_ok h, extendWith_append h]
  simp only [bind, Except.bind]
  cases extendWith o (some b) <;> rfl

end CommandLine

/-- Of two extension texts the second goes on where the first has succeeded, as it does in one text of
both, and comes to the same options and the same fault if it has one. The text of a configuration and
that of the command line are taken in this way. No text changes more than how lines are compared,
whether it succeeds or not. -/
theorem extend_in_turn :
    (∀ (o o' : Options) (a b : String), o.extend a = (o', .ok ()) →
      o.extend (a ++ " " ++ b) = o'.extend b) ∧
    (∀ (o : Options) (s : String), o.OnlyLines (o.extend s).1) ∧
    ∀ (c : Config) (arguments : CommandLine.DiffArguments) (o : Options) (a b : String),
      c.extensions = some a → arguments.extensions = some b →
      (CommandLine.withFlags arguments c.diff).extend a = (o, .ok ()) →
      CommandLine.buildOptions c arguments =
        CommandLine.buildOptions { c with extensions := some (a ++ " " ++ b) }
          { arguments with extensions := none } :=
  ⟨fun _ _ _ b h => Options.extend_append h b, Options.extend_onlyLines,
    fun _ _ _ _ _ hconfig harguments h => CommandLine.buildOptions_append hconfig harguments h⟩

theorem extend_in_turn_badCount :
    Options.default.extend "-b -U 5" =
        ({ Options.default with ignoreSpace := .change, contextLines := 5 }, .ok ()) ∧
      Options.default.extend ("-b -U 5" ++ " " ++ "-w\t-U -u -Ux") =
        ({ Options.default with ignoreSpace := .all, contextLines := 5 }, .error (.usage (.lineCount "-u"))) ∧
      ∃ common arguments,
        CommandLine.Arguments.parse ["diff", "-x", "-w"] = .ok ⟨common, .diff arguments⟩ ∧
          CommandLine.buildOptions ⟨.default, some "-b -U 5"⟩ arguments =
            .ok { Options.default with ignoreSpace := .all, contextLines := 5 } := by
  have hfirst : Options.default.extend "-b -U 5" =
      ({ Options.default with ignoreSpace := .change, contextLines := 5 }, .ok ()) := by rfl
  obtain ⟨happend, -, hbuild⟩ := extend_in_turn
  refine ⟨hfirst, (happend _ _ _ _ hfirst).trans ?_, _, _, rfl, ?_⟩
  · rfl
  · rw [hbuild _ _ _ "-b -U 5" "-w" rfl rfl]
    · rfl
    · exact hfirst

end TreeDelta
