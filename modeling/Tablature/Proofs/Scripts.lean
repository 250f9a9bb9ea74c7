/-
# Tablature.Proofs.Scripts — directives as scripts of events.

What a list of directives does does not depend on the session that it is carried out on: each
directive stands for some events, which can be read off it beforehand (`Directive.script`), and
where it is wrong in itself the script says so. Carrying out the directives is playing the script
(`Session.compile_eq_playScript`), up to the places at which faults are reported. So whatever is
known of single events holds of directives as well.
-/
import Tablature.Compile
import Tablature.Session.Event

namespace Tablature

/-! ## Scripts -/

/-- Events to come one after the other. Where one cannot be told, there is the cause instead. -/
abbrev Script := List (Except Cause Event)

/-- One step of a script. -/
def Session.carry (step : Except Cause Event) (s : Session) : Outcome Cause Session :=
  match step with
  | .ok event => s.handle event
  | .error cause => .stopped s cause

/-- The steps of a script, up to the first that fails. -/
def Session.playScript (script : Script) (s : Session) : Outcome Cause Session :=
  .forEach Session.carry script s

/-- The events of a script. -/
def Script.events (script : Script) : List Event := script.filterMap Except.toOption

/-! ### Texts -/

/-- What the tokens of a text line stand for. Settings of the line are kept in mind for the texts
after them, and are no events. -/
def TextLine.script : List String → Session.TextStyle → Script
  | [], _ => []
  | token :: tokens, style =>
      match TextCommand.read token with
      | .font spec => .ok (.textFont spec) :: script tokens style
      | .duration text => .ok (.duration text false) :: script tokens style
      | .justify justification => script tokens { style with justification := justification }
      | .smooth smooth => script tokens { style with smooth := smooth }
      | .bar => .ok (.text "" ⟨0, style.justification, false, true⟩) :: script tokens style
      | .line line => script tokens { style with line := line }
      | .voice => .ok .textVoice :: script tokens style
      | .text text ignoresTicks =>
          .ok (.text text { style with ignoresTicks := ignoresTicks }) :: script tokens style
      | .wrong token => .error (.badTextSetting token) :: script tokens style

/-! ### Note elements -/

namespace NoteElement

/-- What a command stands for. -/
def commandEvent (word : String) (e : NoteElement) : Except Cause Event :=
  match word, e.parameters with
  | "bar", _ => .ok (.bar (.ofName e.barName))
  | "tuplet", some (.tuplet tuplet notes) => .ok (.tuplet tuplet notes)
  | "annotations", some (.tokens tokens) => .ok (.annotations tokens)
  | "annotations", some (.line token) => .ok (.annotations [token])
  | "rest", some (.rest position) => .ok (.rest position)
  | "command", some (.line line) => .ok (.command line)
  | "tuplet", _ | "annotations", _ | "rest", _ | "command", _ => .error (.badParameters word)
  | _, _ => .error (.unknownCommand word)

/-- The duration of an element, its command, its chord and its note, as far as they are there. -/
def script (e : NoteElement) : Script :=
  (e.time.map fun time => .ok (.duration time e.dot)).toList ++
    (e.command.map (commandEvent · e)).toList ++
    (e.chord.map fun chord => .ok (.chord chord e.articulation e.decorator)).toList ++
    (e.singleNote?.map fun note => .ok (.note note)).toList

end NoteElement

/-! ### Directives -/

namespace Directive

/-- The kind of stave that a directive opens, or that its voice has without a stave. -/
def kind? (d : Directive) : Option StaveKind :=
  match d.keyword with
  | "stave" => some .staff
  | "tabstave" => some .tablature
  | "voice" => some .implicit
  | _ => none

theorem kind?_of_options {d : Directive} (h : d.keyword = "options") : d.kind? = none := by
  rw [kind?, h]
  rfl

/-- What is written under a directive: notes, and then texts in a text voice of their own. -/
def bodyScript (d : Directive) : Script :=
  d.notes.flatMap NoteElement.script ++
    if d.text.isEmpty then []
    else .ok .textVoice :: TextLine.script d.text ⟨0, .center, true, false⟩

/-- What a directive stands for. -/
def script (d : Directive) : Script :=
  match d.kind? with
  | none =>
      if d.keyword = "options" then [.ok (.options (d.settings.map fun o => (o.key, o.value)))]
      else [.error (.unknownKeyword d.keyword)]
  | some kind =>
      match StaveDeclaration.ofOptions kind d.options with
      | .error fault => [.error fault.value]
      | .ok declaration =>
          .ok (if d.keyword = "voice" then .voice declaration else .stave declaration) ::
            d.bodyScript

end Directive

/-! ### Events of scripts -/

/-- Can the event be written under a stave or a voice? -/
def Event.isContent : Event → Bool
  | duration _ _ | bar _ | rest _ | chord _ _ _ | note _ | annotations _ | tuplet _ _ | command _
  | textVoice | textFont _ | text _ _ => true
  | _ => false

theorem TextLine.isContent_of_mem_script {tokens : List String} {style : Session.TextStyle}
    {event : Event} (h : .ok event ∈ TextLine.script tokens style) : event.isContent := by
  induction tokens generalizing style with
  | nil => cases h
  | cons token tokens ih =>
      have first {e : Event} {style : Session.TextStyle} (he : e.isContent)
          (h : Except.ok event ∈ .ok e :: TextLine.script tokens style) : event.isContent := by
        rcases List.mem_cons.1 h with heq | h
        · cases heq
          exact he
        · exact ih h
      rw [TextLine.script] at h
      split at h
      · exact first rfl h
      · exact first rfl h
      · exact ih h
      · exact ih h
      · exact first rfl h
      · exact ih h
      · exact first rfl h
      · exact first rfl h
      · rcases List.mem_cons.1 h with heq | h
        · cases heq
        · exact ih h

theorem NoteElement.isContent_of_commandEvent {word : String} {e : NoteElement} {event : Event}
    (h : NoteElement.commandEvent word e = .ok event) : event.isContent := by
  unfold NoteElement.commandEvent at h
  split at h <;> cases h <;> rfl

theorem NoteElement.isContent_of_mem_script {e : NoteElement} {event : Event}
    (h : .ok event ∈ e.script) : event.isContent := by
  simp only [NoteElement.script, List.mem_append, Option.mem_toList, Option.map_eq_some_iff] at h
  obtain ((⟨time, _, heq⟩ | ⟨word, _, heq⟩) | ⟨chord, _, heq⟩) | ⟨note, _, heq⟩ := h
  · cases heq
    rfl
  · exact isContent_of_commandEvent heq
  · cases heq
    rfl
  · cases heq
    rfl

namespace Directive

theorem isContent_of_mem_bodyScript {d : Directive} {event : Event}
    (h : .ok event ∈ d.bodyScript) : event.isContent := by
  unfold bodyScript at h
  rcases List.mem_append.1 h with h | h
  · obtain ⟨e, _, h⟩ := List.mem_flatMap.1 h
    exact NoteElement.isContent_of_mem_script h
  · split at h
    · cases h
    · rcases List.mem_cons.1 h with heq | h
      · cases heq
        rfl
      · exact TextLine.isContent_of_mem_script h

/-- No directive starts anew. -/
theorem reset_not_mem_script (d : Directive) : .ok .reset ∉ d.script := by
  intro h
  unfold script at h
  split at h
  · split at h <;> cases List.mem_singleton.1 h
  · split at h
    · cases List.mem_singleton.1 h
    · rcases List.mem_cons.1 h with heq | h
      · split at heq <;> cases heq
      · cases isContent_of_mem_bodyScript h

end Directive

/-! ## Faults without their places -/

namespace Outcome

variable {σ : Type}

/-- The outcome with faults that say no more than why. -/
def unplaced (o : Outcome Fault σ) : Outcome Cause σ := o.mapFault Located.value

@[simp] theorem unplaced_located (o : Outcome Cause σ) : o.located.unplaced = o := by
  obtain ⟨state, _ | cause⟩ := o <;> rfl

@[simp] theorem unplaced_within (o : Outcome Fault σ) (line column : Option Nat) :
    (o.within line column).unplaced = o.unplaced := by
  obtain ⟨state, _ | fault⟩ := o
  · rfl
  · exact congrArg (fun cause => mk state (some cause)) (fault.value_within line column)

theorem unplaced_andThen (o : Outcome Fault σ) (next : σ → Outcome Fault σ) :
    (o.andThen next).unplaced = o.unplaced.andThen fun s => (next s).unplaced :=
  mapFault_andThen _ _ _

end Outcome

/-! ## Playing the script -/

namespace Session

variable {s : Session}

theorem playScript_cons (step : Except Cause Event) (script : Script) (s : Session) :
    s.playScript (step :: script) = (s.carry step).andThen (playScript script) := rfl

theorem playScript_append (first second : Script) (s : Session) :
    s.playScript (first ++ second) = (s.playScript first).andThen (playScript second) :=
  Outcome.forEach_append _ _ _ _

theorem playScript_toList (step : Option (Except Cause Event)) (s : Session) :
    s.playScript step.toList =
      match step with
      | some step => s.carry step
      | none => .done s := by
  cases step with
  | none => rfl
  | some step => exact Outcome.forEach_singleton _ _ _

/-- A script that is played to its end has been followed. -/
theorem eq_follow_of_playScript {script : Script} {t : Session}
    (h : s.playScript script = .done t) : t = s.follow (Script.events script) := by
  induction script generalizing s with
  | nil =>
      cases h
      rfl
  | cons step script ih =>
      rw [playScript_cons] at h
      cases step with
      | error cause => cases h
      | ok event =>
          have hfault := (Outcome.fault_andThen_eq_none (congrArg Outcome.fault h)).1
          rw [Outcome.andThen_of_none hfault] at h
          exact ih h

/-! ### Texts -/

/-- The tokens of a line are played in the style that the line has by then. -/
theorem playScript_tokens (tokens : List String) (line : TextLine) (ignored : Bool) :
    (Outcome.forEach (fun token t => TextLine.run t (TextCommand.read token)) tokens line).mapState
        TextLine.session =
      line.session.playScript
        (TextLine.script tokens ⟨line.line, line.justification, line.smooth, ignored⟩) := by
  induction tokens generalizing line with
  | nil => rfl
  | cons token tokens ih =>
      -- An event goes first, whatever it is, and the other tokens follow on its session.
      have played (event : Event) :
          ((line.onSession (line.session.handle event)).andThen
              (Outcome.forEach (fun token t => TextLine.run t (TextCommand.read token))
                tokens)).mapState TextLine.session =
            line.session.playScript (.ok event :: TextLine.script tokens
              ⟨line.line, line.justification, line.smooth, ignored⟩) := by
        rw [playScript_cons, carry]
        cases h : line.session.handle event with
        | mk state fault =>
            cases fault with
            | some fault => rfl
            | none => exact ih { line with session := state }
      rw [Outcome.forEach_cons, TextLine.script]
      cases TextCommand.read token with
      | font spec => exact played (.textFont spec)
      | duration text => exact played (.duration text false)
      | justify justification => exact ih { line with justification := justification }
      | smooth smooth => exact ih { line with smooth := smooth }
      | bar => exact played (.text "" ⟨0, line.justification, false, true⟩)
      | line n => exact ih { line with line := n }
      | voice => exact played .textVoice
      | text text ignoresTicks =>
          exact played (.text text ⟨line.line, line.justification, line.smooth, ignoresTicks⟩)
      | wrong token => rfl

theorem addTextLine_eq (tokens : List String) (s : Session) :
    s.addTextLine tokens =
      s.playScript (.ok .textVoice :: TextLine.script tokens ⟨0, .center, true, false⟩) :=
  congrArg s.addTextVoice.andThen (funext fun t => playScript_tokens tokens (.start t) false)

/-! ### Note elements -/

/-- A note element, before its place is known. -/
def play (e : NoteElement) (s : Session) : Outcome Cause Session :=
  (((s.applyTime e).andThen (applyCommand e)).andThen (applyChord e)).andThen (applyNote e)

theorem element_eq (e : NoteElement) (s : Session) :
    s.element e = (s.play e).mapFault fun cause =>
      (Located.nowhere cause).within e.line e.column := by
  show ((s.play e).located).within e.line e.column = _
  simp only [Outcome.located, Outcome.within, Outcome.mapFault, Option.map_map]
  rfl

/-- Note elements, before their places are known. -/
def playAll (elements : List NoteElement) (s : Session) : Outcome Cause Session :=
  .forEach play elements s

theorem command_eq (word : String) (e : NoteElement) (s : Session) :
    s.command word e = s.carry (NoteElement.commandEvent word e) := by
  unfold command NoteElement.commandEvent
  split <;> simp_all [carry, handle]

theorem play_eq (e : NoteElement) (s : Session) : s.play e = s.playScript e.script := by
  have htime (t : Session) : t.applyTime e =
      t.playScript (e.time.map fun time => .ok (.duration time e.dot)).toList := by
    rw [playScript_toList, applyTime]
    cases e.time <;> rfl
  have hcommand (t : Session) : t.applyCommand e =
      t.playScript (e.command.map (NoteElement.commandEvent · e)).toList := by
    rw [playScript_toList, applyCommand]
    cases e.command with
    | none => rfl
    | some word => exact command_eq word e t
  have hchord (t : Session) : t.applyChord e = t.playScript
      (e.chord.map fun chord => .ok (.chord chord e.articulation e.decorator)).toList := by
    rw [playScript_toList, applyChord]
    cases e.chord <;> rfl
  have hnote (t : Session) : t.applyNote e =
      t.playScript (e.singleNote?.map fun note => .ok (.note note)).toList := by
    rw [playScript_toList, applyNote]
    cases e.singleNote? <;> rfl
  rw [play, NoteElement.script, playScript_append, playScript_append, playScript_append, htime,
    funext hcommand, funext hchord, funext hnote]

theorem unplaced_element (e : NoteElement) (s : Session) :
    (s.element e).unplaced = s.playScript e.script := by
  rw [← play_eq]
  show ((s.play e).located.within e.line e.column).unplaced = _
  rw [Outcome.unplaced_within, Outcome.unplaced_located]

/-! ### Directives -/

/-- The session with the stave or the voice of a directive. -/
def opened (s : Session) (d : Directive) (declaration : StaveDeclaration) :
    Outcome Cause Session :=
  if d.keyword = "voice" then s.addVoice declaration else s.addStave declaration

theorem perform_of_kind {d : Directive} {kind : StaveKind} (h : d.kind? = some kind) :
    s.perform d = .needing (StaveDeclaration.ofOptions kind d.options) s fun declaration =>
      (s.opened d declaration).located.andThen (body d) := by
  unfold Directive.kind? at h
  unfold perform opened
  split at h
  · rename_i hkeyword
    cases h
    simp only [hkeyword, openStave]
    rfl
  · rename_i hkeyword
    cases h
    simp only [hkeyword, openStave]
    rfl
  · rename_i hkeyword
    cases h
    simp only [hkeyword, openVoice]
    rfl
  · cases h

theorem perform_of_none {d : Directive} (hkind : d.kind? = none)
    (hkeyword : d.keyword ≠ "options") :
    s.perform d = .stopped s (.nowhere (.unknownKeyword d.keyword)) := by
  unfold Directive.kind? at hkind
  unfold perform
  split
  · exact absurd ‹_› hkeyword
  all_goals simp_all

theorem unplaced_body (d : Directive) (s : Session) :
    (s.body d).unplaced = s.playScript d.bodyScript := by
  have hnotes (t : Session) : (Outcome.forEach element d.notes t).unplaced =
      t.playScript (d.notes.flatMap NoteElement.script) := by
    rw [Outcome.unplaced, Outcome.mapFault_forEach, playScript, Outcome.forEach_flatMap]
    exact congrArg (Outcome.forEach · d.notes t) (funext fun e => funext (unplaced_element e))
  rw [body, Directive.bodyScript, Outcome.unplaced_andThen, playScript_append, hnotes]
  refine congrArg _ (funext fun t => ?_)
  split
  · rfl
  · rw [Outcome.unplaced_located, addTextLine_eq]

/-- A directive plays its script. -/
theorem unplaced_directive (d : Directive) (s : Session) :
    (s.directive d).unplaced = s.playScript d.script := by
  rw [directive, Outcome.unplaced_within, Directive.script]
  cases hkind : d.kind? with
  | none =>
      dsimp only
      split
      · rename_i hkeyword
        rw [playScript, Outcome.forEach_singleton, perform, hkeyword]
        exact Outcome.unplaced_located _
      · rename_i hkeyword
        rw [perform_of_none hkind hkeyword]
        rfl
  | some kind =>
      rw [perform_of_kind hkind]
      dsimp only
      cases StaveDeclaration.ofOptions kind d.options with
      | error fault => rfl
      | ok declaration =>
          have hopened : s.opened d declaration = s.carry
              (.ok (if d.keyword = "voice" then .voice declaration else .stave declaration)) := by
            unfold opened
            split <;> rfl
          rw [Outcome.needing, Outcome.unplaced_andThen, Outcome.unplaced_located, hopened]
          exact congrArg _ (funext (unplaced_body d))

/-- **Directives play their scripts**, one after the other. -/
theorem compile_eq_playScript (ds : List Directive) (s : Session) :
    (s.compile ds).unplaced = s.playScript (ds.flatMap Directive.script) := by
  rw [compile, Outcome.unplaced, Outcome.mapFault_forEach, playScript, Outcome.forEach_flatMap]
  exact congrArg (Outcome.forEach · ds s) (funext fun d => funext (unplaced_directive d))

end Session

theorem compileDirectives_eq_ok_iff {setup : PageSetup} {ds : List Directive} {s : Session} :
    compileDirectives setup ds = .ok s ↔
      (Session.start setup).playScript (ds.flatMap Directive.script) = .done s := by
  rw [← Session.compile_eq_playScript, compileDirectives]
  obtain ⟨state, _ | fault⟩ := (Session.start setup).compile ds
  · constructor
    · intro h
      cases h
      rfl
    · intro h
      cases h
      rfl
  · constructor
    · intro h
      cases h
    · intro h
      cases h

end Tablature
