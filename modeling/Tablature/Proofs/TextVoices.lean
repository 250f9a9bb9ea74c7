/-
# Tablature.Proofs.TextVoices — a text line keeps every token.

A text line starts a text voice and goes through its tokens once. What is in force at a token is
what the last token before it that sets it says (`lastSet`), so the notes of a line can be read off
its tokens without going through them (`Session.textNoteAt?`), and its voices are these notes, cut
at the tokens that start a voice (`Session.textVoices`). `Session.text_line_kept` says that a line
whose settings are right leaves exactly these voices behind those of the stave, and the last
duration and font for what comes next.
-/
import Tablature.Proofs.Annotating
import Tablature.Proofs.Fingerings

namespace Tablature

/-! ## What a token of a text line sets -/

namespace TextCommand

def line? : TextCommand → Option Int
  | .line n => some n
  | _ => none

def justification? : TextCommand → Option Justification
  | justify justification => some justification
  | _ => none

def smooth? : TextCommand → Option Bool
  | smooth on => some on
  | _ => none

/-- The duration that a token sets, if it can be read. -/
def duration? : TextCommand → Option Duration
  | .duration code => (Duration.read code false).toOption
  | _ => none

/-- The font that a token sets. A text that is no font sets none. -/
def font? : TextCommand → Option Font
  | font spec => (Font.read spec).toOption.join
  | _ => none

/-- Can the token be carried out? Only settings can be wrong. -/
def Valid : TextCommand → Prop
  | font spec => ∃ font, Font.read spec = .ok font
  | duration code => ∃ d, Duration.read code false = .ok d
  | wrong _ => False
  | _ => True

/-- Does the token only change how texts are written? -/
def isSetting : TextCommand → Bool
  | bar | voice | text _ _ => false
  | _ => true

/-- Is the token a text or a bar? -/
def isNote : TextCommand → Bool
  | bar | text _ _ => true
  | _ => false

end TextCommand

/-! ## The notes and voices of a line -/

namespace Session

/-- The note of a token, written with what the tokens before it have set. Of the line, the
justification and the smoothness a bar keeps the justification only. -/
def textNoteAt? (s : Session) (before : List TextCommand) : TextCommand → Option TextNote
  | .text text ignoresTicks => some
      { text
        glyph := (Text.afterStart? ['#'] text.toList).map String.ofList
        duration := lastSet TextCommand.duration? s.duration before
        font := lastSet TextCommand.font? s.captionFont before
        line := lastSet TextCommand.line? 0 before
        justification := lastSet TextCommand.justification? .center before
        smooth := lastSet TextCommand.smooth? true before
        ignoresTicks
        multiplier := 1 }
  | .bar => some
      { text := ""
        glyph := none
        duration := lastSet TextCommand.duration? s.duration before
        font := lastSet TextCommand.font? s.captionFont before
        line := 0
        justification := lastSet TextCommand.justification? .center before
        smooth := false
        ignoresTicks := true
        multiplier := 1 }
  | _ => none

/-- The tokens of a line with their notes. -/
def textNotes (s : Session) (commands : List TextCommand) :
    List (TextCommand × Option TextNote) :=
  commands.mapIdx fun i command => (command, s.textNoteAt? (commands.take i) command)

/-- The voices of a line: its notes, cut at the tokens that start a voice. -/
def textVoices (s : Session) (commands : List TextCommand) : List (List TextNote) :=
  ((s.textNotes commands).splitOnP (·.1 == .voice)).map (·.filterMap (·.2))

/-- The session with text voices behind those of its stave, another duration and another font. -/
def withTexts (s : Session) (a : Stave) (voices : List (List TextNote)) (duration : Duration)
    (font : Font) : Session :=
  { s with
    duration
    score := { s.score with
      active := some { a with textVoices := a.textVoices ++ voices }
      settings := { s.settings with
        fontFace := font.family, fontSize := font.size, fontStyle := font.style } } }

/-- **What a text line leaves.** Its voices stand behind those of the stave; the last duration and
the last font stay in force; everything else is as it was. -/
def withTextLine (s : Session) (a : Stave) (commands : List TextCommand) : Session :=
  s.withTexts a (s.textVoices commands) (lastSet TextCommand.duration? s.duration commands)
    (lastSet TextCommand.font? s.captionFont commands)

end Session

/-! ## Lists cut at separators -/

section Split

variable {α β : Type} {p : α → Bool}

/-- A list is cut into one piece more than it has separators. -/
theorem length_splitOnP (xs : List α) : (xs.splitOnP p).length = 1 + xs.countP p := by
  induction xs with
  | nil => rfl
  | cons x xs ih =>
      rw [List.splitOnP_cons_eq_if_modifyHead, List.countP_cons]
      split
      · rw [List.length_cons, ih, Nat.add_assoc]
      · rw [List.length_modifyHead, ih]
        rfl

/-- What is kept of the pieces is what is kept of the list, if no separator is kept. -/
theorem flatten_map_splitOnP {keep : α → Option β} {xs : List α}
    (h : ∀ x ∈ xs, p x → keep x = none) :
    ((xs.splitOnP p).map (·.filterMap keep)).flatten = xs.filterMap keep := by
  induction xs with
  | nil => rfl
  | cons x xs ih =>
      obtain ⟨hfirst, hrest⟩ := List.forall_mem_cons.1 h
      rw [List.splitOnP_cons_eq_if_modifyHead]
      split
      · rename_i hx
        rw [List.filterMap_cons_none (hfirst hx)]
        exact ih hrest
      · obtain ⟨piece, pieces, hpieces⟩ :=
          List.exists_cons_of_ne_nil (List.splitOnP_ne_nil p xs)
        have ih := ih hrest
        rw [hpieces, List.map_cons, List.flatten_cons] at ih
        rw [hpieces, List.modifyHead_cons, List.map_cons, List.flatten_cons]
        cases hkeep : keep x with
        | none => rw [List.filterMap_cons_none hkeep, List.filterMap_cons_none hkeep, ih]
        | some kept =>
            rw [List.filterMap_cons_some hkeep, List.filterMap_cons_some hkeep, ← ih]
            rfl

theorem splitOnP_concat_of_pos (xs : List α) {x : α} (h : p x) :
    (xs ++ [x]).splitOnP p = xs.splitOnP p ++ [[]] :=
  List.splitOnP_append_cons xs [] h

/-- A member that is no separator belongs to the last piece. -/
theorem splitOnP_concat_of_neg (xs : List α) {x : α} (h : ¬ p x) :
    ∃ pieces last, xs.splitOnP p = pieces ++ [last] ∧
      (xs ++ [x]).splitOnP p = pieces ++ [last ++ [x]] := by
  induction xs with
  | nil => exact ⟨[], [], rfl, List.splitOnP_eq_singleton (by simpa using h)⟩
  | cons y xs ih =>
      obtain ⟨pieces, last, hxs, hconcat⟩ := ih
      rw [List.cons_append, List.splitOnP_cons_eq_if_modifyHead,
        List.splitOnP_cons_eq_if_modifyHead, hxs, hconcat]
      split
      · exact ⟨[] :: pieces, last, rfl, rfl⟩
      · cases pieces with
        | nil => exact ⟨[], y :: last, rfl, rfl⟩
        | cons piece pieces => exact ⟨(y :: piece) :: pieces, last, rfl, rfl⟩

end Split

/-! ## One token more -/

namespace Session

variable {s : Session} {a : Stave} {commands : List TextCommand} {command : TextCommand}

theorem textNotes_concat :
    s.textNotes (commands ++ [command]) =
      s.textNotes commands ++ [(command, s.textNoteAt? commands command)] := by
  unfold textNotes
  rw [List.mapIdx_concat, List.take_left]
  congr 1
  apply List.ext_getElem?
  intro i
  rw [List.getElem?_mapIdx, List.getElem?_mapIdx]
  cases hi : commands[i]? with
  | none => rfl
  | some c =>
      have hlt := (List.getElem?_eq_some_iff.1 hi).1
      rw [Option.map_some, Option.map_some, List.take_append_of_le_length (Nat.le_of_lt hlt)]

theorem appendText_concat (note : TextNote) (voices : List (List TextNote))
    (last : List TextNote) :
    appendText note (voices ++ [last]) = voices ++ [last ++ [note]] := by
  rw [appendText, List.length_append, List.length_singleton, Nat.add_sub_cancel,
    modify_append_singleton]

theorem map_fst_textNotes : (s.textNotes commands).map Prod.fst = commands := by
  rw [textNotes, map_mapIdx]
  exact List.mapIdx_eq_iff.2 fun i => Option.map_id_apply.symm

/-- There is one voice, and one more for each token that starts a voice. -/
theorem length_textVoices : (s.textVoices commands).length = 1 + commands.count .voice := by
  have hcount : ((s.textNotes commands).map Prod.fst).count .voice = commands.count .voice := by
    rw [map_fst_textNotes]
  rw [textVoices, List.length_map, length_splitOnP, ← hcount, List.count, List.countP_map]
  rfl

/-- The voices together are the notes of the tokens. -/
theorem flatten_textVoices :
    (s.textVoices commands).flatten =
      (commands.mapIdx fun i command => s.textNoteAt? (commands.take i) command).filterMap id := by
  have hvoice : ∀ entry ∈ s.textNotes commands, entry.1 == .voice → entry.2 = none := by
    intro entry hmem hentry
    obtain ⟨i, hi, rfl⟩ := List.mem_mapIdx.1 hmem
    have hcommand : commands[i] = .voice := by simpa using hentry
    simp [hcommand, textNoteAt?]
  have hnotes : (s.textNotes commands).map Prod.snd =
      commands.mapIdx fun i command => s.textNoteAt? (commands.take i) command :=
    map_mapIdx Prod.snd commands
  rw [textVoices, flatten_map_splitOnP hvoice, ← hnotes, List.filterMap_map]
  rfl

/-- The last voice of several is the last one of those at their end. -/
theorem appendText_append (note : TextNote) (before : List (List TextNote))
    {voices : List (List TextNote)} (h : voices ≠ []) :
    appendText note (before ++ voices) = before ++ appendText note voices := by
  rw [← List.dropLast_append_getLast h, ← List.append_assoc, appendText_concat, appendText_concat,
    List.append_assoc]

theorem textVoices_ne_nil : s.textVoices commands ≠ [] := by
  simp [textVoices]

/-- A token that starts a voice leaves an empty one behind. -/
theorem textVoices_voice :
    s.textVoices (commands ++ [.voice]) = s.textVoices commands ++ [[]] := by
  rw [textVoices, textNotes_concat, splitOnP_concat_of_pos _ rfl, List.map_append]
  rfl

/-- What another token writes goes to the last voice. -/
theorem textVoices_concat (hvoice : command ≠ .voice) : ∃ pieces last,
    s.textVoices commands = pieces ++ [last] ∧
      s.textVoices (commands ++ [command]) =
        pieces ++ [last ++ (s.textNoteAt? commands command).toList] := by
  obtain ⟨pieces, last, hcommands, hconcat⟩ :=
    splitOnP_concat_of_neg (p := (·.1 == .voice)) (s.textNotes commands)
      (x := (command, s.textNoteAt? commands command)) (by simpa using hvoice)
  refine ⟨pieces.map (·.filterMap (·.2)), last.filterMap (·.2), ?_, ?_⟩
  · rw [textVoices, hcommands, List.map_append, List.map_singleton]
  · rw [textVoices, textNotes_concat, hconcat, List.map_append, List.map_singleton,
      List.filterMap_append]
    cases s.textNoteAt? commands command <;> rfl

theorem textVoices_note {note : TextNote} (hvoice : command ≠ .voice)
    (hnote : s.textNoteAt? commands command = some note) :
    s.textVoices (commands ++ [command]) = appendText note (s.textVoices commands) := by
  obtain ⟨pieces, last, hcommands, hconcat⟩ := textVoices_concat (s := s) hvoice
  rw [hconcat, hnote, hcommands, appendText_concat, Option.toList_some]

/-- A setting writes nothing. -/
theorem textVoices_setting (hvoice : command ≠ .voice)
    (hnote : s.textNoteAt? commands command = none) :
    s.textVoices (commands ++ [command]) = s.textVoices commands := by
  obtain ⟨pieces, last, hcommands, hconcat⟩ := textVoices_concat (s := s) hvoice
  rw [hconcat, hnote, hcommands, Option.toList_none, List.append_nil]

end Session

/-! ## A line in progress -/

namespace TextLine

variable {s : Session} {a : Stave} {commands : List TextCommand} {command : TextCommand}

/-- A line in progress after some tokens. -/
def after (s : Session) (a : Stave) (commands : List TextCommand) : TextLine where
  session := s.withTextLine a commands
  line := lastSet TextCommand.line? 0 commands
  justification := lastSet TextCommand.justification? .center commands
  smooth := lastSet TextCommand.smooth? true commands

theorem fault_onSession (t : TextLine) (o : Outcome Cause Session) :
    (t.onSession o).fault = o.fault := rfl

theorem after_concat :
    after s a (commands ++ [command]) =
      { session := s.withTexts a (s.textVoices (commands ++ [command]))
          (command.duration?.getD (lastSet TextCommand.duration? s.duration commands))
          (command.font?.getD (lastSet TextCommand.font? s.captionFont commands))
        line := command.line?.getD (lastSet TextCommand.line? 0 commands)
        justification :=
          command.justification?.getD (lastSet TextCommand.justification? .center commands)
        smooth := command.smooth?.getD (lastSet TextCommand.smooth? true commands) } := by
  rw [after, Session.withTextLine]
  simp only [lastSet_concat]

/-- There is a voice to write in, the one that the line has started. -/
theorem addTextNote_withTextLine (text : String) (style : Session.TextStyle) :
    (s.withTextLine a commands).addTextNote text style =
      .done (s.withTexts a
        (Session.appendText ((s.withTextLine a commands).textNote text style)
          (s.textVoices commands))
        (lastSet TextCommand.duration? s.duration commands)
        (lastSet TextCommand.font? s.captionFont commands)) := by
  have hvoices : ¬ (a.textVoices ++ s.textVoices commands).isEmpty := by
    simp [Session.textVoices_ne_nil]
  rw [Session.addTextNote, Session.withStave]
  show (if (a.textVoices ++ s.textVoices commands).isEmpty then _ else _) = _
  rw [if_neg hvoices, Session.withTexts, ← Session.appendText_append _ _ Session.textVoices_ne_nil]
  rfl

/-- A token that can be carried out leaves the line as after one token more. -/
theorem run_after (h : command.Valid) :
    (after s a commands).run command = .done (after s a (commands ++ [command])) := by
  rw [after_concat]
  cases command with
  | font spec =>
      obtain ⟨font, hfont⟩ := h
      have hset : TextCommand.font? (.font spec) = font := by
        rw [TextCommand.font?, hfont]
        rfl
      rw [Session.textVoices_setting TextCommand.noConfusion rfl, hset, run, Session.setTextFont,
        hfont]
      cases font <;> rfl
  | duration code =>
      obtain ⟨duration, hduration⟩ := h
      have hset : TextCommand.duration? (.duration code) = some duration := by
        rw [TextCommand.duration?, hduration]
        rfl
      rw [Session.textVoices_setting TextCommand.noConfusion rfl, hset, run, Session.setDuration,
        hduration]
      rfl
  | voice =>
      rw [Session.textVoices_voice, Session.withTexts, ← List.append_assoc]
      rfl
  | bar =>
      rw [Session.textVoices_note TextCommand.noConfusion rfl, run]
      exact congrArg (onSession _) (addTextNote_withTextLine _ _)
  | text text ignoresTicks =>
      rw [Session.textVoices_note TextCommand.noConfusion rfl, run]
      exact congrArg (onSession _) (addTextNote_withTextLine _ _)
  | wrong token => cases h
  | line n =>
      rw [Session.textVoices_setting TextCommand.noConfusion rfl]
      rfl
  | justify justification =>
      rw [Session.textVoices_setting TextCommand.noConfusion rfl]
      rfl
  | smooth on =>
      rw [Session.textVoices_setting TextCommand.noConfusion rfl]
      rfl

/-- A token that cannot be carried out stops the line. -/
theorem valid_of_fault (t : TextLine) (h : (t.run command).fault = none) : command.Valid := by
  cases command with
  | font spec =>
      rw [run, fault_onSession] at h
      cases hfont : Font.read spec with
      | ok font => exact ⟨font, hfont⟩
      | error cause =>
          rw [Session.setTextFont, hfont] at h
          cases h
  | duration code =>
      rw [run, fault_onSession] at h
      cases hduration : Duration.read code false with
      | ok duration => exact ⟨duration, hduration⟩
      | error cause =>
          rw [Session.setDuration, hduration] at h
          cases h
  | wrong token => cases h
  | _ => trivial

/-- The tokens of a line from some place on. -/
theorem forEach_run_after {tokens : List String}
    (h : ∀ token ∈ tokens, (TextCommand.read token).Valid) :
    Outcome.forEach (fun token t => TextLine.run t (TextCommand.read token)) tokens
        (after s a commands) =
      .done (after s a (commands ++ tokens.map TextCommand.read)) := by
  induction tokens generalizing commands with
  | nil =>
      rw [List.map_nil, List.append_nil]
      rfl
  | cons token tokens ih =>
      obtain ⟨hvalid, hrest⟩ := List.forall_mem_cons.1 h
      rw [Outcome.forEach_cons, run_after hvalid, Outcome.andThen_done, ih hrest, List.map_cons,
        List.append_assoc]
      rfl

theorem valid_of_forEach_run {tokens : List String}
    (h : (Outcome.forEach (fun token t => TextLine.run t (TextCommand.read token)) tokens
      (after s a commands)).fault = none) :
    ∀ token ∈ tokens, (TextCommand.read token).Valid := by
  induction tokens generalizing commands with
  | nil => simp
  | cons token tokens ih =>
      rw [Outcome.forEach_cons] at h
      have hvalid := valid_of_fault _ (Outcome.fault_andThen_eq_none h).1
      rw [run_after hvalid, Outcome.andThen_done] at h
      exact List.forall_mem_cons.2 ⟨hvalid, ih h⟩

end TextLine

/-! ## Which token is which -/

namespace TextCommand

variable {token : List Char}

/-- A setting is a bar or only changes how texts are written. -/
theorem ofSetting_cases (token setting : List Char) :
    setting ∈ ["|".toList, "bar".toList] ∧ ofSetting token setting = .bar ∨
      setting ∉ ["|".toList, "bar".toList] ∧ (ofSetting token setting).isSetting := by
  by_cases hbar : setting ∈ ["|".toList, "bar".toList]
  · refine .inl ⟨hbar, ?_⟩
    simp only [List.mem_cons, List.not_mem_nil, or_false] at hbar
    obtain rfl | rfl := hbar
    · rfl
    · rfl
  · refine .inr ⟨hbar, ?_⟩
    have hword : (String.ofList setting = "bar" || String.ofList setting = "|") = false := by
      simpa [String.ext_iff, and_comm] using hbar
    simp only [ofSetting, hword]
    repeat' split
    all_goals first | rfl | contradiction

/-- **Four kinds of tokens**: a token starts a voice, is a bar, is a text or changes how texts are
written, and its first characters tell which. -/
theorem ofChars_cases (token : List Char) :
    (ofChars token = .voice ∧ "++".toList <+: token) ∨
      (ofChars token = .bar ∧ token ∈ ["|".toList, ".|".toList, ".bar".toList]) ∨
      (∃ text ignoresTicks, ofChars token = .text text ignoresTicks ∧ token ≠ ['|'] ∧
        (∀ mark ∈ [".", ":", "++"], ¬ mark.toList <+: token) ∧
        (ignoresTicks ↔ ['|'] <+: token) ∧
        token = (if ignoresTicks then ['|'] else []) ++ text.toList) ∨
      ((ofChars token).isSetting ∧ token ∉ ["|".toList, ".|".toList, ".bar".toList] ∧
        ∃ mark ∈ [".", ":"], mark.toList <+: token) := by
  unfold ofChars
  split
  · rename_i spec hfont
    rw [Text.afterStart?_eq_some_iff] at hfont
    subst hfont
    exact .inr (.inr (.inr ⟨rfl, by simp, ".", by simp, _, rfl⟩))
  · split
    · exact .inr (.inr (.inr ⟨rfl, by simp, ":", by simp, _, rfl⟩))
    · rename_i setting _
      obtain ⟨hmem, h⟩ | ⟨hmem, h⟩ := ofSetting_cases ('.' :: setting) setting
      · exact .inr (.inl ⟨h, by simpa using hmem⟩)
      · exact .inr (.inr (.inr ⟨h, by simpa using hmem, ".", by simp, setting, rfl⟩))
    · exact .inr (.inl ⟨rfl, by simp⟩)
    · exact .inl ⟨rfl, _, rfl⟩
    · rename_i rest hrest _
      have hsome : rest ≠ [] := by simpa using hrest
      exact .inr (.inr (.inl ⟨String.ofList rest, true, rfl, by simpa using hsome, by simp, by simp,
        by simp⟩))
    · rename_i hcolon hpoint hbar hplus hstroke
      have hfalse : ¬ ['|'] <+: token := by
        rintro ⟨rest, rfl⟩
        exact hstroke rest rfl
      refine .inr (.inr (.inl ⟨String.ofList token, false, rfl, hbar, ?_, by simpa using hfalse,
        by simp⟩))
      intro mark hmark
      simp only [List.mem_cons, List.not_mem_nil, or_false] at hmark
      obtain rfl | rfl | rfl := hmark
      · rintro ⟨rest, rfl⟩
        exact hpoint rest rfl
      · rintro ⟨rest, rfl⟩
        exact hcolon rest rfl
      · rintro ⟨rest, rfl⟩
        exact hplus rest rfl

theorem eq_stroke_or_point_of_mem_bars (h : token ∈ ["|".toList, ".|".toList, ".bar".toList]) :
    token = ['|'] ∨ ".".toList <+: token := by
  simp only [List.mem_cons, List.not_mem_nil, or_false] at h
  obtain rfl | rfl | rfl := h
  · exact .inl rfl
  · exact .inr ⟨_, rfl⟩
  · exact .inr ⟨_, rfl⟩

/-- A token that starts a voice starts with two plus signs. -/
theorem ofChars_eq_voice_iff : ofChars token = .voice ↔ "++".toList <+: token := by
  obtain ⟨h, hplus⟩ | ⟨h, hbar⟩ | ⟨text, ignoresTicks, h, -, hmarks, -⟩ | ⟨h, -, hmark⟩ :=
    ofChars_cases token
  · exact iff_of_true h hplus
  · refine iff_of_false (h ▸ TextCommand.noConfusion) ?_
    simp only [List.mem_cons, List.not_mem_nil, or_false] at hbar
    obtain rfl | rfl | rfl := hbar <;> decide
  · exact iff_of_false (h ▸ TextCommand.noConfusion) (hmarks "++" (by simp))
  · refine iff_of_false (fun hvoice => ?_) ?_
    · rw [hvoice] at h
      cases h
    · rintro ⟨rest, rfl⟩
      simp at hmark

theorem ofChars_eq_bar_iff :
    ofChars token = .bar ↔ token ∈ ["|".toList, ".|".toList, ".bar".toList] := by
  obtain ⟨h, hplus⟩ | ⟨h, hbar⟩ | ⟨text, ignoresTicks, h, hne, hmarks, -⟩ | ⟨h, hbar, -⟩ :=
    ofChars_cases token
  · refine iff_of_false (h ▸ TextCommand.noConfusion) ?_
    obtain ⟨rest, rfl⟩ := hplus
    simp
  · exact iff_of_true h hbar
  · refine iff_of_false (h ▸ TextCommand.noConfusion) fun hbar => ?_
    exact (eq_stroke_or_point_of_mem_bars hbar).elim hne (hmarks "." (by simp))
  · refine iff_of_false (fun h' => ?_) hbar
    rw [h'] at h
    cases h

/-- Every other token is a text. A stroke in front of it is no part of it and means that it takes no
time. -/
theorem ofChars_eq_text_iff {text : String} {ignoresTicks : Bool} :
    ofChars token = .text text ignoresTicks ↔
      token ≠ ['|'] ∧ (∀ mark ∈ [".", ":", "++"], ¬ mark.toList <+: token) ∧
        (ignoresTicks ↔ ['|'] <+: token) ∧
        token = (if ignoresTicks then ['|'] else []) ++ text.toList := by
  obtain ⟨h, hplus⟩ | ⟨h, hbar⟩ | ⟨found, stroked, h, hne, hmarks, hstroke, htoken⟩ |
    ⟨h, -, mark, hmark, hstart⟩ := ofChars_cases token
  · refine iff_of_false (h ▸ TextCommand.noConfusion) ?_
    rintro ⟨-, hmarks, -⟩
    exact hmarks "++" (by simp) hplus
  · refine iff_of_false (h ▸ TextCommand.noConfusion) ?_
    rintro ⟨hne, hmarks, -⟩
    exact (eq_stroke_or_point_of_mem_bars hbar).elim hne (hmarks "." (by simp))
  · rw [h]
    constructor
    · intro heq
      cases heq
      exact ⟨hne, hmarks, hstroke, htoken⟩
    · rintro ⟨-, -, hstroke', htoken'⟩
      -- The first character settles whether there is a stroke, and with it the text.
      obtain rfl : stroked = ignoresTicks := Bool.eq_iff_iff.2 (hstroke.trans hstroke'.symm)
      have hfound := List.append_cancel_left (htoken.symm.trans htoken')
      rw [String.toList_inj.1 hfound]
  · refine iff_of_false (fun htext => ?_) ?_
    · rw [htext] at h
      cases h
    · rintro ⟨-, hmarks, -⟩
      have hother : mark ∈ [".", ":", "++"] := by
        rw [List.mem_cons, List.mem_singleton] at hmark
        obtain rfl | rfl := hmark <;> simp
      exact hmarks mark hother hstart

end TextCommand

/-! ## Text lines -/

namespace Session

variable {s : Session} {a : Stave}

theorem addTextLine_eq_done_iff (ha : s.score.active = some a) (tokens : List String)
    (t : Session) :
    s.addTextLine tokens = .done t ↔
      (∀ token ∈ tokens, (TextCommand.read token).Valid) ∧
        t = s.withTextLine a (tokens.map TextCommand.read) := by
  have hstart : s.addTextVoice = .done (s.withTextLine a []) := by
    rw [addTextVoice, withStave, ha]
    show Outcome.done (s.onActive _) = _
    rw [onActive_eq ha]
    rfl
  have hline : s.addTextLine tokens =
      (Outcome.forEach (fun token t => TextLine.run t (TextCommand.read token)) tokens
        (TextLine.after s a [])).mapState TextLine.session := by
    rw [addTextLine, hstart]
    rfl
  rw [hline]
  constructor
  · intro h
    have hvalid := TextLine.valid_of_forEach_run (congrArg Outcome.fault h)
    rw [TextLine.forEach_run_after hvalid] at h
    exact ⟨hvalid, (congrArg Outcome.state h).symm⟩
  · rintro ⟨hvalid, rfl⟩
    rw [TextLine.forEach_run_after hvalid]
    rfl

/-- **A text line keeps every token.** On a stave, a line is carried out if and only if its settings
are right, and then it leaves `Session.withTextLine`: its voices behind those of the stave, and the
last duration and font in force. There is one voice more than there are tokens that start with
`++`; together the voices hold one note for each text and each bar, in the order of the tokens; a
bar takes no time. -/
theorem text_line_kept (s : Session) {a : Stave} (ha : s.score.active = some a)
    (tokens : List String) :
    let commands := tokens.map TextCommand.read
    let voices := s.textVoices commands
    (∀ t, s.addTextLine tokens = .done t ↔
        (∀ command ∈ commands, command.Valid) ∧ t = s.withTextLine a commands) ∧
      voices.length = 1 + commands.count .voice ∧
      voices.flatten =
        (commands.mapIdx fun i command => s.textNoteAt? (commands.take i) command).filterMap id ∧
      (∀ before command, (s.textNoteAt? before command).isSome = command.isNote) ∧
      (∀ before, ∀ note ∈ s.textNoteAt? before .bar, note.ticks = 0) ∧
      ∀ token,
        (TextCommand.read token = .voice ↔ "++".toList <+: Text.trim token.toList) ∧
        (TextCommand.read token = .bar ↔
          Text.trim token.toList ∈ ["|".toList, ".|".toList, ".bar".toList]) ∧
        ∀ text ignoresTicks, TextCommand.read token = .text text ignoresTicks ↔
          Text.trim token.toList ≠ ['|'] ∧
            (∀ mark ∈ [".", ":", "++"], ¬ mark.toList <+: Text.trim token.toList) ∧
            (ignoresTicks ↔ ['|'] <+: Text.trim token.toList) ∧
            Text.trim token.toList = (if ignoresTicks then ['|'] else []) ++ text.toList := by
  intro commands voices
  refine ⟨fun t => ?_, length_textVoices, flatten_textVoices, ?_, ?_, fun token => ?_⟩
  · rw [addTextLine_eq_done_iff ha, List.forall_mem_map]
  · intro before command
    cases command <;> rfl
  · rintro before note ⟨⟩
    rfl
  · exact ⟨TextCommand.ofChars_eq_voice_iff, TextCommand.ofChars_eq_bar_iff,
      fun _ _ => TextCommand.ofChars_eq_text_iff⟩

/-- Two voices, with a bar and a text that takes no time in the first one. -/
theorem text_line_kept_twoVoices :
    let s := follow [.stave (.defaults .implicit)] (start .standard)
    let tokens := [":8", ".left", ".2", "Am", "|", ".strict", "|G", "++", "x"]
    let commands := tokens.map TextCommand.read
    let voices := s.textVoices commands
    ∃ a, s.score.active = some a ∧ (∀ command ∈ commands, command.Valid) ∧
      s.addTextLine tokens = .done (s.withTextLine a commands) ∧ voices.length = 2 ∧
      voices.map (·.map fun note => (note.text, note.line, note.smooth, note.ignoresTicks)) =
        [[("Am", 2, true, false), ("", 0, false, true), ("G", 2, false, true)],
          [("x", 2, false, false)]] := by
  intro s tokens commands voices
  have hstave : s.score.active.isSome := by decide +kernel
  have hfault : (s.addTextLine tokens).fault.isNone := by decide +kernel
  obtain ⟨a, ha⟩ := Option.isSome_iff_exists.1 hstave
  have kept := text_line_kept s ha tokens
  have hdone := Outcome.eq_done_of_fault (Option.isNone_iff_eq_none.1 hfault)
  obtain ⟨hvalid, hstate⟩ := (kept.1 _).1 hdone
  refine ⟨a, ha, hvalid, ?_, ?_, ?_⟩
  · rw [hdone, hstate]
  · rw [kept.2.1]
    decide +kernel
  · decide +kernel

end Session

end Tablature
