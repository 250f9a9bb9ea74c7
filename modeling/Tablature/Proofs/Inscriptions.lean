/-
# Tablature.Proofs.Inscriptions — where the keys of a score come from.

The keys on the staves of a score stand in the order in which they were written: stave by stave,
voice by voice, note by note. So a run can be read as a list of inscriptions (`Session.chronicle`),
the key of each rest and the keys of each chord with the marks that they were resolved with, and the
score holds exactly these (`Session.engraved_follow`). Nothing that comes later removes a key or
touches the accidental at it.
-/
import Tablature.Proofs.ChordOrder
import Tablature.Proofs.Marking
import Tablature.Proofs.Scripts
import Tablature.Proofs.Strategies

namespace Tablature

/-! ## Keys of a score -/

/-- A key with the accidentals at it. -/
abbrev EngravedKey := Pitch × List AccidentalMark

/-- The keys of a note or rest, each with the accidentals at it. -/
def StaffNote.engraved (n : StaffNote) : List EngravedKey :=
  n.keys.mapIdx fun i key => (key, accidentalsAt n.modifiers i)

/-- The keys of an object. -/
def Tickable.engraved : Tickable → List EngravedKey
  | staff n => n.engraved
  | _ => []

/-- The keys of a voice. -/
def engravedVoice (notes : List Tickable) : List EngravedKey := notes.flatMap Tickable.engraved

/-- The keys on the staff of a stave, voice by voice. -/
def Stave.engraved (a : Stave) : List EngravedKey :=
  a.staffVoices.flatMap engravedVoice ++ engravedVoice a.staffNotes

/-- The keys of a score, stave by stave. -/
def Score.engraved (s : Score) : List EngravedKey := s.staves.flatMap Stave.engraved

/-! ### Objects and voices -/

theorem Tickable.engraved_mark {m : Modifier} (h : m.accidental? = none) (index : Nat)
    (t : Tickable) : (t.mark index m).engraved = t.engraved := by
  cases t with
  | staff n =>
      have hnew (i : Nat) : accidentalsAt [⟨index, m⟩] i = [] :=
        accidentalsAt_eq_nil (by simpa using h) i
      simp only [mark, engraved, StaffNote.engraved, accidentalsAt_append, hnew, List.append_nil]
  | _ => rfl

/-- Marks that are made on a staff after the note are no accidentals. -/
theorem Tickable.engraved_of_marks {t u : Tickable} (h : Marks StaffAllows t u) :
    u.engraved = t.engraved := by
  induction h with
  | refl => rfl
  | @add u index m _ hallows ih =>
      have haccidental : m.accidental? = none := hallows.elim
        (fun h => m.accidental?_of_isPlain h.2) (fun h => m.accidental?_of_isFingerMark h.2)
      rw [u.engraved_mark haccidental, ih]

theorem Tickable.engraved_scaleTicks (factor : Ticks) (t : Tickable) :
    (t.scaleTicks factor).engraved = t.engraved := by
  cases t <;> rfl

theorem engravedVoice_append (xs ys : List Tickable) :
    engravedVoice (xs ++ ys) = engravedVoice xs ++ engravedVoice ys := List.flatMap_append

theorem engravedVoice_of_forall₂ {xs ys : List Tickable}
    (h : List.Forall₂ (Marks StaffAllows) xs ys) : engravedVoice ys = engravedVoice xs := by
  induction h with
  | nil => rfl
  | cons hmarks _ ih =>
      rw [engravedVoice, engravedVoice, List.flatMap_cons, List.flatMap_cons,
        Tickable.engraved_of_marks hmarks]
      exact congrArg _ ih

theorem engravedVoice_scaleLast (count : Nat) (factor : Ticks) (notes : List Tickable) :
    engravedVoice (Session.scaleLast count factor notes) = engravedVoice notes := by
  have hscaled (xs : List Tickable) :
      engravedVoice (xs.map (Tickable.scaleTicks factor)) = engravedVoice xs := by
    simp only [engravedVoice, List.flatMap_map, Tickable.engraved_scaleTicks]
  rw [Session.scaleLast, engravedVoice_append, hscaled, ← engravedVoice_append,
    List.take_append_drop]

/-- A bar at the end of a voice has no key. -/
theorem engravedVoice_dropLast {notes : List Tickable} {type : BarType}
    (h : endBar? notes = some type) : engravedVoice notes.dropLast = engravedVoice notes := by
  obtain ⟨t, hlast, hbar⟩ := Option.bind_eq_some_iff.1 h
  obtain ⟨before, rfl⟩ := List.getLast?_eq_some_iff.1 hlast
  cases t with
  | bar type' => simp [engravedVoice, Tickable.engraved]
  | _ => cases hbar

/-! ### Staves -/

namespace Stave

theorem engraved_push (a : Stave) (onTab onStaff : Tickable) :
    (a.push onTab onStaff).engraved =
      a.engraved ++ if a.staff.isSome then onStaff.engraved else [] := by
  unfold push engraved
  dsimp only
  split
  · rw [engravedVoice_append, List.append_assoc]
    simp [engravedVoice]
  · rw [List.append_nil]

theorem engraved_closeVoice (a : Stave) : a.closeVoice.engraved = a.engraved := by
  unfold closeVoice engraved withVoice
  dsimp only
  split
  · rename_i hempty
    rw [List.isEmpty_iff.1 hempty]
  · simp [engravedVoice]

theorem engraved_finish (a : Stave) : a.finish.engraved = a.engraved := by
  have onTab : a.finishTab.engraved = a.engraved := by
    unfold finishTab
    split <;> rfl
  have onStaff (a : Stave) : a.finishStaff.engraved = a.engraved := by
    unfold finishStaff
    split
    · rename_i hbar
      exact congrArg (a.staffVoices.flatMap engravedVoice ++ ·) (engravedVoice_dropLast hbar)
    · rfl
  rw [finish, engraved_closeVoice, onStaff, onTab]

theorem Marked.engraved {a b : Stave} (h : a.Marked b) : b.engraved = a.engraved := by
  have hvoices : b.staffVoices = a.staffVoices := by rw [h.frame]
  unfold Stave.engraved
  rw [hvoices, engravedVoice_of_forall₂ h.staffNotes]

end Stave

/-! ### Sessions -/

theorem Score.engraved_eq (s : Score) :
    s.engraved = s.earlier.flatMap Stave.engraved ++ s.active.toList.flatMap Stave.engraved :=
  List.flatMap_append

namespace Session

variable {s t : Session}

/-- Has the active stave a staff? -/
def hasStaff (s : Session) : Bool := s.score.active.any (·.staff.isSome)

theorem hasStaff_of_none (h : s.score.active = none) : s.hasStaff = false := by
  rw [hasStaff, h]
  rfl

/-- What the active stave gains, the score gains at its end. -/
theorem engraved_onActive {f : Stave → Stave} {keys : List EngravedKey}
    (h : ∀ a, s.score.active = some a → (f a).engraved = a.engraved ++ keys)
    (hnone : s.score.active = none → keys = []) :
    (s.onActive f).score.engraved = s.score.engraved ++ keys := by
  cases ha : s.score.active with
  | none => rw [onActive_eq_self ha, hnone ha, List.append_nil]
  | some a =>
      rw [onActive_eq ha, Score.engraved_eq, Score.engraved_eq, ha]
      simp [h a ha]

theorem engraved_push (onTab onStaff : Tickable) :
    (s.onActive (·.push onTab onStaff)).score.engraved =
      s.score.engraved ++ if s.hasStaff then onStaff.engraved else [] := by
  refine engraved_onActive (fun a ha => ?_) fun hnone => ?_
  · rw [a.engraved_push, hasStaff, ha]
    rfl
  · rw [hasStaff_of_none hnone]
    rfl

/-! ## Operations that engrave nothing -/

/-- Two sessions whose staves hold the same keys. -/
def SameKeys (s t : Session) : Prop := t.score.engraved = s.score.engraved

namespace SameKeys

theorem refl (s : Session) : s.SameKeys s := rfl

theorem trans {u : Session} (h : s.SameKeys t) (h' : t.SameKeys u) : s.SameKeys u := Eq.trans h' h

theorem of_staves (h : t.score.staves = s.score.staves) : s.SameKeys t :=
  congrArg (List.flatMap Stave.engraved) h

theorem of_quiet (h : Quiet s t) : s.SameKeys t :=
  of_staves (by rw [Score.staves, Score.staves, h.earlier, h.active])

theorem onActive {f : Stave → Stave} (h : ∀ a : Stave, (f a).engraved = a.engraved) :
    s.SameKeys (s.onActive f) :=
  (engraved_onActive (fun a _ => (h a).trans (List.append_nil _).symm) fun _ => rfl).trans
    (List.append_nil _)

theorem withStave {next : Stave → Outcome Cause Session}
    (h : ∀ a, s.score.active = some a → s.SameKeys (next a).state) :
    s.SameKeys (s.withStave next).state := by
  unfold Session.withStave
  split
  · exact h _ ‹_›
  · exact .refl s

end SameKeys

theorem Marked.sameKeys (h : s.Marked t) : s.SameKeys t := by
  have hactive := h.active
  unfold SameKeys
  rw [Score.engraved_eq, Score.engraved_eq, h.earlier]
  generalize s.score.active = a at hactive ⊢
  generalize t.score.active = b at hactive ⊢
  cases hactive with
  | none => rfl
  | some hab => simp [hab.engraved]

theorem Marked.hasStaff (h : s.Marked t) : t.hasStaff = s.hasStaff := by
  have hactive := h.active
  unfold Session.hasStaff
  generalize s.score.active = a at hactive ⊢
  generalize t.score.active = b at hactive ⊢
  cases hactive with
  | none => rfl
  | some hab =>
      rw [hab.frame]
      rfl

theorem sameKeys_closeBends (through : Bool) : s.SameKeys (s.closeBends through) :=
  (marked_closeBends through).sameKeys

theorem sameKeys_setOptions (entries : List (String × String)) :
    s.SameKeys (s.setOptions entries).state := by
  refine Outcome.andThen_related (R := SameKeys) .trans ?_ (.of_staves rfl)
  refine Outcome.forEach_related (R := SameKeys) .refl .trans (fun entry t => ?_) entries s
  exact Outcome.needing_related (R := SameKeys) .refl fun settings _ => .of_staves rfl

theorem sameKeys_addStave (d : StaveDeclaration) : s.SameKeys (s.addStave d).state := by
  -- A new stave has no keys yet.
  have placed (t u : Session) (tab : Option TabView) (staff : Option StaffView)
      (beamGroups : List BeamGroup)
      (h : u.score.staves = (t.score.addStave (.blank tab staff beamGroups)).staves) :
      t.SameKeys u := by
    unfold SameKeys Score.engraved
    rw [h]
    simp [Score.staves, Score.addStave, Stave.blank, Stave.engraved, engravedVoice]
  refine (sameKeys_closeBends true).trans ?_
  show SameKeys _ ((s.closeBends true).placeStave d)
  unfold placeStave
  cases d.staff <;> cases d.tablature <;> exact placed _ _ _ _ _ rfl

theorem sameKeys_addVoice (d : StaveDeclaration) : s.SameKeys (s.addVoice d).state := by
  unfold addVoice
  split
  · exact sameKeys_addStave d
  · exact (sameKeys_closeBends true).trans (.onActive Stave.engraved_closeVoice)

theorem sameKeys_addBar (type : BarType) : s.SameKeys (s.addBar type).state := by
  refine (sameKeys_closeBends true).trans ?_
  refine Outcome.andThen_related (R := SameKeys) .trans (.of_quiet quiet_resetMemory) ?_
  refine .withStave fun a _ => .onActive fun b => ?_
  rw [b.engraved_push]
  simp [Tickable.engraved]

theorem sameKeys_bracket (a : Stave) (tuplets count : Nat) :
    s.SameKeys (s.bracket a tuplets count) := by
  have tab (t : Session) (link : TabLink) : t.SameKeys (t.addTabLink link) := .of_staves rfl
  have staff (t : Session) (link : StaffLink) : t.SameKeys (t.addStaffLink link) := .of_staves rfl
  have scaled (factor : Ticks) : s.SameKeys
      ((s.onTabNotes (scaleLast count factor)).onStaffNotes (scaleLast count factor)) := by
    refine SameKeys.trans (t := s.onTabNotes (scaleLast count factor)) ?_ ?_
    · exact .onActive fun b => rfl
    · exact .onActive fun b => congrArg (b.staffVoices.flatMap engravedVoice ++ ·)
        (engravedVoice_scaleLast count factor b.staffNotes)
  unfold bracket
  dsimp only
  split
  · refine .trans ?_ (tab _ _)
    split
    · exact (scaled _).trans (staff _ _)
    · exact scaled _
  · split
    · exact (scaled _).trans (staff _ _)
    · exact scaled _

theorem sameKeys_makeTuplets (tuplets : Nat) (notes : Option Nat) :
    s.SameKeys (s.makeTuplets tuplets notes).state := by
  unfold makeTuplets
  dsimp only
  split
  · exact .refl s
  · refine .withStave fun a _ => ?_
    split
    · exact .refl s
    · exact sameKeys_bracket a tuplets _

theorem sameKeys_runCommand (line : String) : s.SameKeys (s.runCommand line).state := by
  unfold runCommand
  dsimp only
  split
  · split <;> exact .of_staves rfl
  · exact .of_staves rfl

theorem sameKeys_setTextFont (spec : String) : s.SameKeys (s.setTextFont spec).state := by
  refine Outcome.needing_related (R := SameKeys) .refl fun font _ => ?_
  cases font <;> exact .of_staves rfl

theorem sameKeys_addTextNote (text : String) (style : TextStyle) :
    s.SameKeys (s.addTextNote text style).state := by
  refine .withStave fun a _ => ?_
  split
  · exact .refl s
  · exact .onActive fun _ => rfl

theorem sameKeys_fret (fret string : Nat) : s.SameKeys (s.handle (.fret fret string)).state := by
  have hquiet := quiet_resolveFret fret string (s := s)
  simp only [handle]
  generalize s.resolveFret fret string = attempt at hquiet ⊢
  obtain ⟨after, cause | b⟩ := attempt <;> exact .of_quiet hquiet

theorem sameKeys_finishStaves : s.SameKeys s.finishStaves := by
  refine (sameKeys_closeBends true).trans ?_
  show ((s.closeBends true).score.onEvery Stave.finish).engraved = _
  unfold Score.engraved
  simp [Score.staves_onEvery, List.flatMap_map, Stave.engraved_finish]

end Session

/-! ## What is engraved -/

/-- The key of an inscription with the accidental at it. -/
def Inscription.drawn (i : Inscription) : EngravedKey := (i.key, i.mark.toList)

/-- The keys of the entries of a chord, as they are resolved under a strategy. -/
def ResolvedEntry.inscriptions (strategy : AccidentalStrategy) (chord : List NoteEntry)
    (entries : List ResolvedEntry) : List Inscription :=
  List.zipWith (fun e r => r.inscription e strategy) chord entries

theorem ResolvedEntry.drawn_inscriptions (strategy : AccidentalStrategy) {chord : List NoteEntry}
    {entries : List ResolvedEntry} (h : entries.length = chord.length) :
    (inscriptions strategy chord entries).map Inscription.drawn =
      entries.map fun e => (e.key, e.mark.toList) := by
  induction chord generalizing entries with
  | nil =>
      obtain rfl := List.length_eq_zero_iff.1 h
      rfl
  | cons e chord ih =>
      cases entries with
      | nil => cases h
      | cons r entries => exact congrArg (_ :: ·) (ih (Nat.succ.inj h))

namespace Session

variable {s : Session}

/-- The keys of a chord, slot by slot. A chord that cannot be resolved has none. -/
def inscribesChord (s : Session) (chord : List NoteEntry) : List Inscription :=
  match (ResolvedEntry.resolveAll s.resolver s.memory chord).2 with
  | .ok entries =>
      Chord.arrange (Chord.placesOf chord)
        (ResolvedEntry.inscriptions s.settings.accidentals chord entries)
  | .error _ => []

/-- The keys that an event engraves, if there is a staff. -/
def inscribes (s : Session) (event : Event) : List Inscription :=
  if s.hasStaff then
    match event with
    | .rest position => (s.restKey position).toOption.toList.map fun key => ⟨key, none, none⟩
    | .chord entries _ _ => s.inscribesChord entries
    | .note entry => s.inscribesChord [entry]
    | _ => []
  else []

/-- The keys that a sequence of events engraves, one after the other. -/
def chronicle : List Event → Session → List Inscription
  | [], _ => []
  | event :: events, s => s.inscribes event ++ chronicle events (s.handle event).state

theorem engraved_staffNote (entries : List ResolvedEntry) :
    (s.staffNote entries).engraved = entries.map fun e => (e.key, e.mark.toList) := by
  refine List.ext_getElem? fun i => ?_
  have hmark := Chord.accidentalsAt_accidentalMarks entries 0 i
  rw [Nat.zero_add] at hmark
  simp only [StaffNote.engraved, staffNote, List.getElem?_mapIdx, List.getElem?_map, hmark]
  cases entries[i]? <;> rfl

/-- Tags and decorations only mark the slot that is written. -/
theorem marked_emit (entries : List ResolvedEntry) :
    (s.onActive (·.push (.tab (s.tabNote entries)) (.staff (s.staffNote entries)))).Marked
      (s.emit entries) :=
  (marked_applyTags _).trans (marked_decorateWith _)

theorem engraved_emit (entries : List ResolvedEntry) :
    (s.emit entries).score.engraved =
      s.score.engraved ++
        if s.hasStaff then entries.map fun e => (e.key, e.mark.toList) else [] := by
  have hpush := engraved_push (.tab (s.tabNote entries)) (.staff (s.staffNote entries)) (s := s)
  rw [Tickable.engraved, engraved_staffNote] at hpush
  exact Eq.trans (marked_emit entries).sameKeys hpush

theorem hasStaff_emit (entries : List ResolvedEntry) : (s.emit entries).hasStaff = s.hasStaff := by
  refine (marked_emit entries).hasStaff.trans ?_
  unfold hasStaff
  cases ha : s.score.active with
  | none => rw [onActive_eq_self ha, ha]
  | some a =>
      rw [onActive_eq ha]
      rfl

theorem engraved_writeChord {chord : List NoteEntry} {entries : List ResolvedEntry}
    (articulation : Option Articulation) (decorator : Option Decorator) :
    (s.writeChord chord entries articulation decorator).score.engraved =
      s.score.engraved ++
        if s.hasStaff then
          (Chord.arrange (Chord.placesOf chord) entries).map fun e => (e.key, e.mark.toList)
        else [] := by
  have emitted (slots : List (List ResolvedEntry)) (t : Session) :
      (slots.foldl emit t).score.engraved =
        t.score.engraved ++
          if t.hasStaff then slots.flatten.map fun e => (e.key, e.mark.toList) else [] := by
    induction slots generalizing t with
    | nil => simp
    | cons slot slots ih =>
        rw [List.foldl_cons, ih, engraved_emit, hasStaff_emit]
        split <;> simp
  have htagged : SameKeys ((Chord.slots (Chord.placesOf chord) entries).foldl emit s)
      (s.writeChord chord entries articulation decorator) :=
    ((marked_applyChordTag chord.length articulation).trans
      (marked_decorateWith decorator)).sameKeys
  rw [← Chord.flatten_slots]
  exact Eq.trans htagged (emitted _ s)

theorem engraved_addChord (chord : List NoteEntry) (articulation : Option Articulation)
    (decorator : Option Decorator) :
    (s.addChord chord articulation decorator).state.score.engraved =
      s.score.engraved ++
        if s.hasStaff then (s.inscribesChord chord).map Inscription.drawn else [] := by
  unfold addChord
  split
  · -- A chord without entries has no keys either.
    rename_i hempty
    rw [List.isEmpty_iff.1 hempty]
    show _ = _ ++ if s.hasStaff then [] else []
    rw [ite_self, List.append_nil]
    rfl
  · unfold withStave
    split
    · cases hresolve : ResolvedEntry.resolveAll s.resolver s.memory chord with
      | mk memory result =>
          cases result with
          | error cause => simp [inscribesChord, hresolve, Outcome.stopped]
          | ok entries =>
              have hlength := ResolvedEntry.length_of_resolveAll hresolve
              rw [inscribesChord, hresolve]
              dsimp only
              rw [Chord.map_arrange, ResolvedEntry.drawn_inscriptions _ hlength,
                ← Chord.map_arrange]
              exact engraved_writeChord (s := { s with memory := memory }) articulation decorator
    · rename_i hnone
      rw [hasStaff_of_none hnone]
      exact (List.append_nil _).symm

theorem engraved_addRest (position : Int) :
    (s.addRest position).state.score.engraved =
      s.score.engraved ++ (s.inscribes (.rest position)).map Inscription.drawn := by
  have hclosed : (s.closeBends true).score.engraved = s.score.engraved := sameKeys_closeBends true
  have hkey : (s.closeBends true).restKey position = s.restKey position := by
    rw [restKey, restKey, (marked_closeBends true).tuning]
  have hstaff : (s.closeBends true).hasStaff = s.hasStaff := (marked_closeBends true).hasStaff
  unfold addRest inscribes
  dsimp only
  rw [hkey, ← hclosed, ← hstaff]
  generalize s.closeBends true = t
  cases s.restKey position with
  | error cause => simp [Outcome.needing, Outcome.stopped, Except.toOption]
  | ok key =>
      dsimp only [Outcome.needing]
      unfold withStave
      split
      · exact (engraved_push (t.tabRest key) (t.restNote key)).trans (by
          cases t.hasStaff <;> rfl)
      · rename_i hnone
        rw [hasStaff_of_none hnone]
        exact (List.append_nil _).symm

/-- **An event engraves what it says**, at the end of the score. -/
theorem engraved_handle {event : Event} (h : event ≠ .reset) (s : Session) :
    (s.handle event).state.score.engraved =
      s.score.engraved ++ (s.inscribes event).map Inscription.drawn := by
  have silent {t : Session} (hsame : s.SameKeys t) :
      t.score.engraved = s.score.engraved ++
        (if s.hasStaff then [] else [] : List Inscription).map Inscription.drawn := by
    rw [ite_self]
    exact Eq.trans hsame (List.append_nil _).symm
  have chord (chord : List NoteEntry) (articulation : Option Articulation)
      (decorator : Option Decorator) :
      (s.addChord chord articulation decorator).state.score.engraved = s.score.engraved ++
        (if s.hasStaff then s.inscribesChord chord else []).map Inscription.drawn := by
    rw [engraved_addChord]
    split <;> rfl
  cases event with
  | reset => exact absurd rfl h
  | rest position => exact engraved_addRest position
  | chord entries articulation decorator => exact chord entries articulation decorator
  | note entry => exact chord [entry] none none
  | options entries => exact silent (sameKeys_setOptions entries)
  | duration time dot =>
      exact silent (Outcome.needing_related (R := SameKeys) .refl fun _ _ => .of_staves rfl)
  | stave d => exact silent (sameKeys_addStave d)
  | voice d => exact silent (sameKeys_addVoice d)
  | bar type => exact silent (sameKeys_addBar type)
  | articulations tags => exact silent (.withStave fun _ _ => (marked_applyTags tags).sameKeys)
  | decorator decorator => exact silent (.withStave fun _ _ => (marked_decorate decorator).sameKeys)
  | annotations tokens => exact silent (marked_addAnnotations tokens).sameKeys
  | tuplet tuplets notes => exact silent (sameKeys_makeTuplets tuplets notes)
  | command line => exact silent (sameKeys_runCommand line)
  | textVoice => exact silent (.withStave fun _ _ => .onActive fun _ => rfl)
  | textFont spec => exact silent (sameKeys_setTextFont spec)
  | text text style => exact silent (sameKeys_addTextNote text style)
  | fret fret string => exact silent (sameKeys_fret fret string)
  | render => exact silent sameKeys_finishStaves

/-- **A score holds what its run has engraved.** -/
theorem engraved_follow {events : List Event} (h : .reset ∉ events) (s : Session) :
    (s.follow events).score.engraved =
      s.score.engraved ++ (s.chronicle events).map Inscription.drawn := by
  induction events generalizing s with
  | nil => exact (List.append_nil _).symm
  | cons event events ih =>
      have hne : event ≠ .reset := fun heq => h (heq ▸ List.mem_cons_self)
      rw [follow_cons, ih fun hmem => h (List.mem_cons_of_mem _ hmem), engraved_handle hne,
        chronicle, List.map_append, List.append_assoc]

end Session

/-! ## Directives -/

/-- The keys that directives engrave, in the order in which they do. -/
def engravings (setup : PageSetup) (ds : List Directive) : List Inscription :=
  (Session.start setup).chronicle (Script.events (ds.flatMap Directive.script))

/-- The score of directives holds what they engrave. -/
theorem engraved_compileDirectives {setup : PageSetup} {ds : List Directive} {s : Session}
    (h : compileDirectives setup ds = .ok s) :
    s.score.engraved = (engravings setup ds).map Inscription.drawn := by
  rw [Session.eq_follow_of_playScript (compileDirectives_eq_ok_iff.1 h)]
  refine Session.engraved_follow (fun hmem => ?_) _
  obtain ⟨step, hstep, hreset⟩ := List.mem_filterMap.1 hmem
  obtain ⟨d, _, hd⟩ := List.mem_flatMap.1 hstep
  cases step with
  | error cause => cases hreset
  | ok event =>
      cases hreset
      exact d.reset_not_mem_script hd

end Tablature
