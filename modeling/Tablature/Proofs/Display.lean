/-
# Tablature.Proofs.Display — display options are not heard.

Two directive lists that differ only in how staves are shown and texts are set may lead to very
different scores: other views, other accidentals, other shapes of rests, bends drawn or not drawn.
They sound the same. The proof runs both side by side. Two operations are `Alike` if they lead from
sessions that sound the same to sessions that sound the same, whenever both go through; sequences of
such operations are alike again, so only the single operations have to be looked at
(`Tablature.Proofs.Heard`), and directives are sequences of them (`Tablature.Proofs.Scripts`). At the
end the schedule is a function of the sound (`Tablature.Proofs.Sound`).
-/
import Tablature.Proofs.Heard

namespace Tablature

/-! ## Two runs side by side -/

/-- **Two operations look alike** in a view of their states: started where the view is the same,
they end where it is the same, provided that both go through. -/
def Alike {ε σ π : Type} (view : σ → π) (f g : σ → Outcome ε σ) : Prop :=
  ∀ s t, view s = view t → (f s).fault = none → (g t).fault = none →
    view (f s).state = view (g t).state

namespace Alike

variable {ε ε' σ π α β : Type} {view : σ → π}

theorem of_keeps {f g : σ → Outcome ε σ} (hf : ∀ s, view (f s).state = view s)
    (hg : ∀ s, view (g s).state = view s) : Alike view f g := by
  intro s t hst _ _
  rw [hf, hg, hst]

theorem congr {f g f' g' : σ → Outcome ε σ} (hf : ∀ s, f s = f' s) (hg : ∀ s, g s = g' s)
    (h : Alike view f' g') : Alike view f g := by
  rwa [funext hf, funext hg]

theorem andThen {f g f' g' : σ → Outcome ε σ} (first : Alike view f g) (second : Alike view f' g') :
    Alike view (fun s => (f s).andThen f') fun s => (g s).andThen g' := by
  intro s t hst hf hg
  obtain ⟨hf, hf'⟩ := Outcome.fault_andThen_eq_none hf
  obtain ⟨hg, hg'⟩ := Outcome.fault_andThen_eq_none hg
  show view ((f s).andThen f').state = view ((g t).andThen g').state
  rw [Outcome.andThen_of_none hf, Outcome.andThen_of_none hg]
  exact second _ _ (first s t hst hf hg) hf' hg'

theorem forEach {f : α → σ → Outcome ε σ} {g : β → σ → Outcome ε σ} {xs : List α} {ys : List β}
    (h : List.Forall₂ (fun a b => Alike view (f a) (g b)) xs ys) :
    Alike view (Outcome.forEach f xs) (Outcome.forEach g ys) := by
  induction h with
  | nil =>
      intro s t hst _ _
      exact hst
  | cons hab _ ih => exact hab.andThen ih

end Alike

/-- Operations of a session that sound alike. -/
abbrev SoundAlike {ε : Type} (f g : Session → Outcome ε Session) : Prop := Alike Session.sound f g

/-! ## Every operation sounds like itself -/

namespace Session

theorem alike_setDuration (time : String) (dot : Bool) :
    SoundAlike (·.setDuration time dot) (·.setDuration time dot) := by
  intro s t hst hs ht
  obtain ⟨duration, hread, hsound⟩ := sound_setDuration hs
  obtain ⟨duration', hread', hsound'⟩ := sound_setDuration ht
  cases hread.symm.trans hread'
  rw [hsound, hsound', hst]

theorem alike_runCommand (line : String) : SoundAlike (·.runCommand line) (·.runCommand line) := by
  intro s t hst hs ht
  obtain ⟨shift, hread, hsound⟩ := sound_runCommand hs
  obtain ⟨shift', hread', hsound'⟩ := sound_runCommand ht
  cases hread.symm.trans hread'
  rw [hsound, hsound', hst]

theorem alike_addBar (type : BarType) : SoundAlike (·.addBar type) (·.addBar type) := by
  intro s t hst hs ht
  rw [sound_addBar hs, sound_addBar ht, hst]

theorem alike_addRest (position : Int) : SoundAlike (·.addRest position) (·.addRest position) := by
  intro s t hst hs ht
  rw [sound_addRest hs, sound_addRest ht, hst]

theorem alike_makeTuplets (tuplets : Nat) (notes : Option Nat) :
    SoundAlike (·.makeTuplets tuplets notes) (·.makeTuplets tuplets notes) := by
  intro s t hst hs ht
  rw [sound_makeTuplets hs, sound_makeTuplets ht, hst]

theorem alike_addAnnotations (tokens : List String) :
    SoundAlike (·.addAnnotations tokens) (·.addAnnotations tokens) :=
  .of_keeps (fun _ => (marked_addAnnotations tokens).sound_eq) fun _ =>
    (marked_addAnnotations tokens).sound_eq

theorem alike_addChord (chord : List NoteEntry) (articulation : Option Articulation)
    (decorator : Option Decorator) :
    SoundAlike (·.addChord chord articulation decorator)
      (·.addChord chord articulation decorator) := by
  intro s t hst hs ht
  cases hne : chord.isEmpty with
  | true =>
      have hnil (u : Session) : (u.addChord chord articulation decorator).state = u := by
        rw [addChord, if_pos hne]
        rfl
      rw [hnil, hnil, hst]
  | false =>
      obtain ⟨_, entries, hresolved, hsound⟩ := sound_addChord hne hs
      obtain ⟨_, entries', hresolved', hsound'⟩ := sound_addChord hne ht
      have htones := tones_resolveAll (congrArg Sound.tuning hst) (congrArg Sound.octaveShift hst)
        hresolved hresolved'
      rw [hsound, hsound', tones_slots _ htones, hst]

/-- What is written under a stave sounds like itself. -/
theorem alike_handle {event : Event} (h : event.isContent) :
    SoundAlike (·.handle event) (·.handle event) := by
  have silent {f : Session → Outcome Cause Session} (hf : ∀ s, (f s).state.sound = s.sound) :
      SoundAlike f f := .of_keeps hf hf
  cases event with
  | duration time dot => exact alike_setDuration time dot
  | bar type => exact alike_addBar type
  | rest position => exact alike_addRest position
  | chord entries articulation decorator => exact alike_addChord entries articulation decorator
  | note entry => exact alike_addChord [entry] none none
  | annotations tokens => exact alike_addAnnotations tokens
  | tuplet tuplets notes => exact alike_makeTuplets tuplets notes
  | command line => exact alike_runCommand line
  | textVoice => exact silent fun _ => sound_addTextVoice
  | textFont spec => exact silent fun _ => sound_setTextFont spec
  | text text style => exact silent fun _ => sound_addTextNote text style
  | _ => cases h

/-- The notes and texts of a directive sound like themselves. -/
theorem alike_bodyScript (d : Directive) :
    SoundAlike (playScript d.bodyScript) (playScript d.bodyScript) := by
  refine Alike.forEach (List.forall₂_same.2 fun step hmem => ?_)
  cases step with
  | error cause => exact fun _ _ _ hs => nomatch hs
  | ok event => exact alike_handle (Directive.isContent_of_mem_bodyScript hmem)

end Session

/-! ## Directives without their display options -/

namespace Directive

/-- The options of a stave or voice that say how it is shown: all but the tuning. -/
def displayOptions : List String :=
  ["notation", "tablature", "key", "clef", "time", "strings", "voice"]

/-- The options of a score that say how it is shown: all but tempo and instrument. -/
def displaySettings : List String :=
  ["font-face", "font-size", "font-style", "annotation-position", "scale", "width",
    "stave-distance", "space", "player", "accidentals", "tab-stems", "tab-stem-direction",
    "beam-rests", "beam-stemlets", "beam-middle-only", "connector-space"]

/-- The directive without the options that say how it is shown. -/
def withoutDisplay (d : Directive) : Directive :=
  { d with
    options := d.options.filter fun entry => ! displayOptions.contains entry.key
    settings := d.settings.filter fun entry => ! displaySettings.contains entry.key }

end Directive

/-- Entries that change nothing can be left out. -/
theorem foldl_filter_idle {α β : Type} {f : β → α → β} {p : α → Bool}
    (idle : ∀ b a, p a = false → f b a = b) (xs : List α) (b : β) :
    (xs.filter p).foldl f b = xs.foldl f b := by
  induction xs generalizing b with
  | nil => rfl
  | cons a xs ih =>
      cases hp : p a with
      | true => rw [List.filter_cons_of_pos hp, List.foldl_cons, List.foldl_cons, ih]
      | false => rw [List.filter_cons_of_neg (by simp [hp]), List.foldl_cons, idle b a hp, ih]

/-- The tuning after one more option. -/
def Tuning.after (tuning : Tuning) (entry : OptionEntry) : Tuning :=
  match StaveOption.read entry.key entry.value with
  | .ok (.tuning value) => value
  | _ => tuning

theorem StaveOption.key_of_tuning {key value : String} {tuning : Tuning}
    (h : read key value = .ok (.tuning tuning)) : key = "tuning" := by
  have visibility (option : Bool → StaveOption) (hoption : ∀ b, option b ≠ .tuning tuning) :
      readVisibility key value option ≠ .ok (.tuning tuning) := by
    unfold readVisibility
    split
    · exact fun h => hoption true (Except.ok.inj h)
    · split
      · exact fun h => hoption false (Except.ok.inj h)
      · exact fun h => nomatch h
  unfold read at h
  split at h
  · exact absurd h (visibility .staff fun _ => StaveOption.noConfusion)
  · exact absurd h (visibility .tablature fun _ => StaveOption.noConfusion)
  · unfold readKey at h
    split at h <;> cases h
  · unfold readClef at h
    split at h
    · cases h
    · split at h <;> cases h
  · unfold readPlacement at h
    repeat (split at h; · cases h)
    cases h
  · cases hread : TimeSignature.read value <;> rw [hread] at h <;> cases h
  · rfl
  · unfold readStrings at h
    split at h
    · cases h
    · split at h <;> cases h
  · cases h

theorem Tuning.after_display {entry : OptionEntry}
    (h : Directive.displayOptions.contains entry.key = true) (tuning : Tuning) :
    tuning.after entry = tuning := by
  unfold after
  split
  · rename_i hread
    rw [StaveOption.key_of_tuning hread] at h
    exact absurd h (by decide)
  · rfl

/-- Is the setting heard? -/
def Setting.isHeard : Setting → Bool
  | tempo _ | instrument _ => true
  | _ => false

theorem Setting.isHeard_checked {α : Type} {key value : String} {option : α → Setting}
    {result : Option α} {setting : Setting} (hoption : ∀ a, (option a).isHeard = false)
    (h : checked key value option result = .ok setting) : setting.isHeard = false := by
  cases result with
  | none => cases h
  | some a =>
      cases h
      exact hoption a

theorem Setting.key_of_isHeard {key value : String} {setting : Setting}
    (h : read key value = .ok setting) (hheard : setting.isHeard = true) :
    key = "tempo" ∨ key = "instrument" := by
  have unheard (hfalse : setting.isHeard = false) : key = "tempo" ∨ key = "instrument" := by
    rw [hheard] at hfalse
    cases hfalse
  unfold read at h
  -- Apart from the two that are heard, a setting is free text or is checked, or the key is unknown.
  split at h <;> first
    | exact .inl rfl
    | exact .inr rfl
    | exact unheard (isHeard_checked (fun _ => rfl) h)
    | (cases h; exact unheard rfl)
    | cases h

theorem Sound.set_display {key value : String}
    (h : Directive.displaySettings.contains key = true) (s : Sound) : s.set (key, value) = s := by
  unfold set
  split
  · rename_i setting hread
    have hunheard : setting.isHeard = false := by
      by_contra hheard
      rcases Setting.key_of_isHeard hread (by simpa using hheard) with heq | heq <;>
      · have hkey : key = _ := heq
        rw [hkey] at h
        exact absurd h (by decide)
    cases setting with
    | tempo value => cases hunheard
    | instrument value => cases hunheard
    | _ => rfl
  · rfl

/-- A declaration takes its tuning from the options about it alone. -/
theorem StaveDeclaration.tuning_ofOptions {kind : StaveKind} {entries : List OptionEntry}
    {d : StaveDeclaration} (h : ofOptions kind entries = .ok d) :
    d.tuning = entries.foldl Tuning.after .standard := by
  -- The options are read before any is assigned, so the two recursions are followed together.
  have each (options : List (OptionEntry × StaveOption)) (entries : List OptionEntry)
      (d : StaveDeclaration) (hread : readOptions entries = .ok options) :
      ((options.map (·.2)).foldl assign d).tuning = entries.foldl Tuning.after d.tuning := by
    induction entries generalizing options d with
    | nil =>
        cases hread
        rfl
    | cons entry entries ih =>
        rw [readOptions] at hread
        split at hread
        · cases hread
        · rename_i option hoption
          cases hrest : readOptions entries with
          | error fault =>
              rw [hrest] at hread
              cases hread
          | ok rest =>
              rw [hrest] at hread
              cases hread
              rw [List.map_cons, List.foldl_cons, List.foldl_cons, ih rest _ hrest]
              have hafter : (d.assign option).tuning = d.tuning.after entry := by
                rw [Tuning.after, hoption]
                cases option <;> rfl
              rw [hafter]
  unfold ofOptions at h
  split at h
  · cases h
  · rename_i options hread
    dsimp only at h
    split at h
    · cases h
      exact each options entries (defaults kind) hread
    · cases h

namespace Session

variable {d d' : Directive}

theorem alike_setOptions {entries entries' : List (String × String)}
    (h : ∀ s : Sound, entries.foldl Sound.set s = entries'.foldl Sound.set s) :
    SoundAlike (·.setOptions entries) (·.setOptions entries') := by
  intro s t hst hs ht
  rw [sound_setOptions hs, sound_setOptions ht, hst, h]

theorem alike_addStave {a b : StaveDeclaration} (h : a.tuning = b.tuning) :
    SoundAlike (·.addStave a) (·.addStave b) := by
  intro s t hst _ _
  rw [sound_addStave, sound_addStave, hst, h]

theorem alike_addVoice {a b : StaveDeclaration} (h : a.tuning = b.tuning) :
    SoundAlike (·.addVoice a) (·.addVoice b) := by
  intro s t hst hs ht
  have hactive : s.score.active.map Stave.sound = t.score.active.map Stave.sound :=
    congrArg Sound.active hst
  have hclosed (u : Session) : ((u.closeBends true).onActive Stave.closeVoice).sound =
      u.sound.onActive StaveSound.closeVoice :=
    (sound_onActive sound_closeVoice).trans
      (congrArg (Sound.onActive · StaveSound.closeVoice) (sound_closeBends true))
  have opens {u : Session} (hu : u.score.active = none) (d : StaveDeclaration) :
      u.addVoice d = u.addStave d := by
    rw [addVoice, hu]
  have continues {u : Session} {c : Stave} (hu : u.score.active = some c) (d : StaveDeclaration) :
      (u.addVoice d).state.sound = u.sound.onActive StaveSound.closeVoice := by
    rw [addVoice, hu]
    exact hclosed u
  -- The declaration matters only if there is no stave yet, and then it opens one.
  show (s.addVoice a).state.sound = (t.addVoice b).state.sound
  cases hs' : s.score.active with
  | none =>
      cases ht' : t.score.active with
      | none =>
          rw [opens hs', opens ht', sound_addStave, sound_addStave, hst, h]
      | some _ =>
          rw [hs', ht'] at hactive
          cases hactive
  | some _ =>
      cases ht' : t.score.active with
      | none =>
          rw [hs', ht'] at hactive
          cases hactive
      | some _ => rw [continues hs', continues ht', hst]

/-- Directives that differ in display options alone have scripts that sound alike. -/
theorem alike_script (h : d.withoutDisplay = d'.withoutDisplay) :
    SoundAlike (playScript d.script) (playScript d'.script) := by
  have hkeyword : d.keyword = d'.keyword := by
    show d.withoutDisplay.keyword = d'.withoutDisplay.keyword
    rw [h]
  have hkind : d.kind? = d'.kind? := by rw [Directive.kind?, Directive.kind?, hkeyword]
  have hbody : d.bodyScript = d'.bodyScript := by
    show d.withoutDisplay.bodyScript = d'.withoutDisplay.bodyScript
    rw [h]
  -- Display options change neither the tuning nor the sound, so both lists may drop them.
  have htuning : d.options.foldl Tuning.after .standard =
      d'.options.foldl Tuning.after .standard := by
    have idle (tuning : Tuning) (entry : OptionEntry)
        (hentry : (! Directive.displayOptions.contains entry.key) = false) :
        tuning.after entry = tuning :=
      Tuning.after_display (by simpa using hentry) tuning
    rw [← foldl_filter_idle idle, ← foldl_filter_idle idle d'.options]
    exact congrArg (List.foldl Tuning.after .standard) (congrArg Directive.options h)
  have hsettings (s : Sound) :
      (d.settings.map fun o => (o.key, o.value)).foldl Sound.set s =
        (d'.settings.map fun o => (o.key, o.value)).foldl Sound.set s := by
    have idle (s : Sound) (entry : OptionEntry)
        (hentry : (! Directive.displaySettings.contains entry.key) = false) :
        s.set (entry.key, entry.value) = s :=
      Sound.set_display (by simpa using hentry) s
    rw [List.foldl_map, List.foldl_map, ← foldl_filter_idle idle,
      ← foldl_filter_idle idle d'.settings]
    exact congrArg (List.foldl _ s) (congrArg Directive.settings h)
  have single {step step' : Except Cause Event} (h : SoundAlike (carry step) (carry step')) :
      SoundAlike (playScript [step]) (playScript [step']) :=
    Alike.forEach (.cons h .nil)
  unfold Directive.script
  rw [hkind, hkeyword]
  cases d'.kind? with
  | none =>
      dsimp only
      split
      · exact single (alike_setOptions hsettings)
      · refine single ?_
        rintro _ _ _ ⟨⟩
  | some kind =>
      dsimp only
      cases ha : StaveDeclaration.ofOptions kind d.options with
      | error fault => rintro _ _ _ ⟨⟩
      | ok a =>
          cases hb : StaveDeclaration.ofOptions kind d'.options with
          | error fault => rintro _ _ _ - ⟨⟩
          | ok b =>
              have hab : a.tuning = b.tuning := by
                rw [StaveDeclaration.tuning_ofOptions ha, StaveDeclaration.tuning_ofOptions hb,
                  htuning]
              dsimp only
              rw [← hbody]
              refine Alike.andThen ?_ (alike_bodyScript d)
              split
              · exact alike_addVoice hab
              · exact alike_addStave hab

theorem alike_compile {ds ds' : List Directive}
    (h : ds.map Directive.withoutDisplay = ds'.map Directive.withoutDisplay) :
    SoundAlike (·.compile ds) (·.compile ds') := by
  have hpairs : List.Forall₂
      (fun d d' => SoundAlike (playScript d.script) (playScript d'.script)) ds ds' := by
    have hmapped := List.forall₂_eq_eq_eq ▸ h
    rw [List.forall₂_map_left_iff, List.forall₂_map_right_iff] at hmapped
    exact hmapped.imp fun _ _ => alike_script
  have hscripts :
      SoundAlike (fun s => (s.compile ds).unplaced) fun s => (s.compile ds').unplaced := by
    refine .congr (fun s => ?_) (fun s => ?_) (Alike.forEach hpairs)
    · rw [compile_eq_playScript, playScript, Outcome.forEach_flatMap]
      rfl
    · rw [compile_eq_playScript, playScript, Outcome.forEach_flatMap]
      rfl
  intro s t hst hs ht
  exact hscripts s t hst (congrArg (Option.map _) hs) (congrArg (Option.map _) ht)

end Session

theorem sound_start (setup setup' : PageSetup) :
    (Session.start setup).sound = (Session.start setup').sound := rfl

/-- **Display options are never heard.** Two lists of directives that are the same without their
display options have the same schedule, whenever both compile; the page setup does not matter
either. -/
theorem schedule_eq_of_withoutDisplay {setup setup' : PageSetup} {ds ds' : List Directive}
    {s s' : Session}
    (same : ds.map Directive.withoutDisplay = ds'.map Directive.withoutDisplay)
    (h : compileDirectives setup ds = .ok s) (h' : compileDirectives setup' ds' = .ok s') :
    s.schedule = s'.schedule := by
  obtain ⟨hfault, rfl⟩ := compileDirectives_eq_ok h
  obtain ⟨hfault', rfl⟩ := compileDirectives_eq_ok h'
  have aligned (setup : PageSetup) (ds : List Directive) :
      ((Session.start setup).compile ds).state.Aligned :=
    compile_induction (P := Session.Aligned) .start .step setup ds
  rw [Session.schedule_eq (aligned setup ds), Session.schedule_eq (aligned setup' ds')]
  exact congrArg Sound.schedule
    (Session.alike_compile same _ _ (sound_start setup setup') hfault hfault')

/-- A note element that does nothing. -/
def NoteElement.idle : NoteElement :=
  { time := none
    dot := false
    command := none
    barName := none
    parameters := none
    chord := none
    articulation := none
    decorator := none
    fret := none
    string := none
    letterPitch := none
    octave := none
    line := none
    column := none }

/-- A note and a rest on a stave, under some options of the score and of the stave. -/
def noteAndRest (settings options : List OptionEntry) : List Directive :=
  [{ keyword := "options", options := [], settings, notes := [], text := [], line := none,
     column := none },
    { keyword := "tabstave", options, settings := [], text := [], line := none, column := none,
      notes :=
        [{ NoteElement.idle with fret := some (.number 3), string := some 2 },
          { NoteElement.idle with command := some "rest", parameters := some (.rest 0) }] }]

/-- A note and a rest sound the same on tablature alone as with a staff in another key, where the
rest is drawn on both views. -/
theorem schedule_eq_noteAndRest :
    ∃ s s', compileDirectives .standard (noteAndRest [] []) = .ok s ∧
      compileDirectives .standard
        (noteAndRest [⟨"tab-stems", "true", none, none⟩]
          [⟨"notation", "true", none, none⟩, ⟨"key", "Eb", none, none⟩]) = .ok s' ∧
      s.schedule = s'.schedule := by
  have plain : compileDirectives .standard (noteAndRest [] []) = .ok _ := rfl
  have staffed : compileDirectives .standard
      (noteAndRest [⟨"tab-stems", "true", none, none⟩]
        [⟨"notation", "true", none, none⟩, ⟨"key", "Eb", none, none⟩]) = .ok _ := rfl
  refine ⟨_, _, plain, staffed, schedule_eq_of_withoutDisplay ?_ plain staffed⟩
  rfl

end Tablature
