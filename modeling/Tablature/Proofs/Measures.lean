/-
# Tablature.Proofs.Measures — bars isolate measures.

A bar and a stave open the memory anew for the key of the stave, whatever was selected or refused
before (`Session.forKey_of_opens`). A key that a declaration may have can be read, so neither fails
in the spelling (`Session.fault_addStave`, `Session.fault_addBar`). Two measures in one key
therefore spell the same frets alike: what a measure answers is a function of its tuning, its memory
and the frets that are asked for (`Tuning.spellFrets`), wherever other events come in between.
-/
import Tablature.Proofs.Respelling

namespace Tablature

/-! ## The stave declared last -/

/-- The declaration in force after an event. A voice declares a stave only if there is none. -/
def Event.declare (before : Option StaveDeclaration) : Event → Option StaveDeclaration
  | .stave d => some d
  | .voice d => some (before.getD d)
  | .reset => none
  | _ => before

/-- The stave that some events have declared last. -/
def lastDeclared (events : List Event) : Option StaveDeclaration := events.foldl Event.declare none

theorem lastDeclared_concat (events : List Event) (event : Event) :
    lastDeclared (events ++ [event]) = event.declare (lastDeclared events) := by
  simp [lastDeclared]

/-- The session is on a stave that was declared so: its key is the one to spell in. -/
structure Session.Declares (s : Session) (d : Option StaveDeclaration) : Prop where
  staved : s.score.active.isSome = d.isSome
  key : s.memory.key = (d.map (·.key)).getD "C"
  tuning : s.tuning = (d.map (·.tuning)).getD .standard

namespace SpellingMemory

theorem key_of_forKey {key : String} {m : SpellingMemory} (h : forKey key = .ok m) :
    m.key = key := by
  unfold forKey at h
  split at h
  · cases h
  · split at h <;> cases h
    rfl

/-- A key that is set is the key of the memory, also if it cannot be read. -/
theorem key_setKey (m : SpellingMemory) (key : String) : (m.setKey key).state.key = key := by
  show (Outcome.needing (forKey key) _ Outcome.done).state.key = key
  cases hkey : forKey key with
  | error cause => rfl
  | ok m' => exact key_of_forKey hkey

theorem key_reset (m : SpellingMemory) : m.reset.state.key = m.key := key_setKey m m.key

/-- **A key that is set leaves no trace of what was before.** -/
theorem forKey_of_setKey {m : SpellingMemory} {key : String} (h : (m.setKey key).fault = none) :
    forKey key = .ok (m.setKey key).state := by
  change (Outcome.needing (forKey key) _ Outcome.done).fault = none at h
  show forKey key = .ok (Outcome.needing (forKey key) _ Outcome.done).state
  cases hkey : forKey key with
  | error cause =>
      rw [hkey] at h
      cases h
  | ok m' => rfl

/-- A memory is opened anew if and only if its key can be read. -/
theorem fault_setKey (m : SpellingMemory) {key : String} (h : key ∈ knownKeys) :
    (m.setKey key).fault = none := by
  show (Outcome.needing (forKey key) _ Outcome.done).fault = none
  rw [forKey_eq_ofKnown h]
  rfl

end SpellingMemory

namespace Session

variable {s : Session}

theorem tuning_addStave (d : StaveDeclaration) : (s.addStave d).state.tuning = d.tuning := by
  show ((s.closeBends true).placeStave d).tuning = d.tuning
  unfold placeStave
  rfl

theorem Declares.addStave (s : Session) (d : StaveDeclaration) :
    (s.addStave d).state.Declares (some d) where
  staved := rfl
  key := by
    rw [memory_addStave]
    exact SpellingMemory.key_setKey s.memory d.key
  tuning := tuning_addStave d

/-- The bar line itself leaves the measure alone that has been opened for it. -/
theorem sameMeasure_addBar (type : BarType) :
    (s.closeBends true).resetMemory.state.SameMeasure (s.addBar type).state := by
  unfold addBar Outcome.andThen
  split
  · exact .withStave fun _ => .onActive _
  · exact .refl _

theorem memory_addBar (type : BarType) :
    (s.addBar type).state.memory = s.memory.reset.state := by
  rw [(sameMeasure_addBar type).memory]
  show (s.closeBends true).memory.reset.state = _
  rw [memory_closeBends]

theorem tuning_addBar (type : BarType) : (s.addBar type).state.tuning = s.tuning :=
  (sameMeasure_addBar type).tuning.trans (SameMeasure.closeBends true).tuning

theorem staved_addBar (type : BarType) :
    (s.addBar type).state.score.active.isSome = s.score.active.isSome :=
  (sameMeasure_addBar type).staved.trans (SameMeasure.closeBends true).staved

/-- A bar needs a key that can be read, and a stave. -/
theorem fault_addBar_iff (type : BarType) :
    (s.addBar type).fault = none ↔ s.memory.reset.fault = none ∧ s.score.active.isSome := by
  have hclosed : s.SameMeasure (s.closeBends true) := .closeBends true
  have hreset : (s.closeBends true).resetMemory.fault = s.memory.reset.fault := by
    show (s.closeBends true).memory.reset.fault = _
    rw [hclosed.memory]
  have hactive : (s.closeBends true).resetMemory.state.score.active.isSome =
      s.score.active.isSome := hclosed.staved
  rw [addBar, ← hreset, ← hactive]
  generalize (s.closeBends true).resetMemory = opened
  constructor
  · intro h
    obtain ⟨hopened, hpushed⟩ := Outcome.fault_andThen_eq_none h
    refine ⟨hopened, ?_⟩
    unfold withStave at hpushed
    split at hpushed
    · rename_i a ha
      rw [ha]
      rfl
    · cases hpushed
  · rintro ⟨hopened, hstaved⟩
    obtain ⟨a, ha⟩ := Option.isSome_iff_exists.1 hstaved
    rw [Outcome.andThen_of_none hopened, withStave, ha]
    rfl

/-! ## Chords and frets -/

theorem SameMeasure.emit (entries : List ResolvedEntry) : s.SameMeasure (s.emit entries) :=
  (SameMeasure.onActive _).trans
    (.of_marked ((marked_applyTags _).trans (marked_decorateWith _)))

theorem SameMeasure.writeChord (chord : List NoteEntry) (entries : List ResolvedEntry)
    (articulation : Option Articulation) (decorator : Option Decorator) :
    s.SameMeasure (s.writeChord chord entries articulation decorator) := by
  have hslots (slots : List (List ResolvedEntry)) (t : Session) :
      t.SameMeasure (slots.foldl Session.emit t) := by
    induction slots generalizing t with
    | nil => exact .refl t
    | cons slot slots ih => exact (emit slot).trans (ih _)
  exact (hslots _ s).trans
    (.of_marked ((marked_applyChordTag _ _).trans (marked_decorateWith _)))

/-- A chord changes nothing of the measure but its memory. -/
theorem sameMeasure_addChord (chord : List NoteEntry) (articulation : Option Articulation)
    (decorator : Option Decorator) :
    ({ s with memory := (s.addChord chord articulation decorator).state.memory } :
      Session).SameMeasure (s.addChord chord articulation decorator).state := by
  refine ⟨?_, ?_, rfl⟩
  all_goals
    unfold addChord
    split
    · rfl
    · unfold withStave
      split
      · split
        · rfl
        · rename_i memory entries _
          have hwritten : ({ s with memory := memory } : Session).SameMeasure
              (({ s with memory := memory } : Session).writeChord chord entries articulation
                decorator) := .writeChord chord entries articulation decorator
          first | exact hwritten.staved | exact hwritten.tuning
      · rfl

theorem state_handle_fret (s : Session) (fret string : Nat) :
    (s.handle (.fret fret string)).state = (s.resolveFret fret string).1 := by
  simp only [handle]
  split
  · rename_i h
    rw [h]
    rfl
  · rename_i h
    rw [h]
    rfl

/-! ## The stave that events have declared -/

namespace Declares

variable {t : Session} {d : Option StaveDeclaration}

theorem of_sameMeasure (h : s.Declares d) (hsame : s.SameMeasure t) : t.Declares d :=
  ⟨hsame.staved.trans h.staved, by rw [hsame.memory, h.key], hsame.tuning.trans h.tuning⟩

theorem withMemory (h : s.Declares d) {m : SpellingMemory} (hkey : m.key = s.memory.key) :
    ({ s with memory := m } : Session).Declares d :=
  ⟨h.staved, hkey.trans h.key, h.tuning⟩

theorem addChord (h : s.Declares d) (chord : List NoteEntry) (articulation : Option Articulation)
    (decorator : Option Decorator) :
    (s.addChord chord articulation decorator).state.Declares d := by
  have hselects : SpellingMemory.Selects (fun _ => True) s.memory
      (s.addChord chord articulation decorator).state.memory :=
    selects_addChord (fun _ => trivial) (fun _ _ => trivial) articulation decorator
  exact (h.withMemory hselects.key).of_sameMeasure (sameMeasure_addChord _ _ _)

/-- What was declared last stays known, whatever is done and whether it is carried out or not. -/
theorem handle (h : s.Declares d) (event : Event) :
    (s.handle event).state.Declares (event.declare d) := by
  by_cases hkeeps : s.keepsMeasure event
  · have hd : event.declare d = d := by
      cases event with
      | voice declaration =>
          obtain ⟨last, rfl⟩ := Option.isSome_iff_exists.1 (h.staved.symm.trans hkeeps)
          rfl
      | stave _ | reset => cases hkeeps
      | _ => rfl
    rw [hd]
    exact h.of_sameMeasure (.handle s hkeeps)
  cases event with
  | stave declaration => exact .addStave s declaration
  | voice declaration =>
      have hnone : s.score.active = none := by simpa [keepsMeasure] using hkeeps
      have hd : d = none := by
        have hstaved := h.staved
        rw [hnone] at hstaved
        cases d with
        | none => rfl
        | some d => cases hstaved
      show (s.addVoice declaration).state.Declares (some (d.getD declaration))
      rw [addVoice, hnone, hd]
      exact .addStave s declaration
  | bar type =>
      refine ⟨(staved_addBar type).trans h.staved, ?_, (tuning_addBar type).trans h.tuning⟩
      show (s.addBar type).state.memory.key = _
      rw [memory_addBar, SpellingMemory.key_reset, h.key]
      rfl
  | chord entries articulation decorator => exact h.addChord entries articulation decorator
  | note entry => exact h.addChord [entry] none none
  | fret fret string =>
      have hselects : SpellingMemory.Selects (fun _ => True) s.memory _ :=
        selects_fret (fun _ => trivial) s.resolver s.memory fret string
      rw [state_handle_fret]
      exact h.withMemory hselects.key
  | reset => exact ⟨rfl, rfl, rfl⟩
  | _ => exact absurd rfl hkeeps

end Declares

/-- After any events the session is on the stave that was declared last. -/
theorem declares_follow (setup : PageSetup) (events : List Event) :
    ((start setup).follow events).Declares (lastDeclared events) := by
  induction events using List.reverseRecOn with
  | nil => exact ⟨rfl, rfl, rfl⟩
  | append_singleton events event ih =>
      rw [follow_append, lastDeclared_concat]
      exact ih.handle event

end Session

/-! ## Declarations that are accepted -/

/-- The declaration is what some options of a stave or a voice give. -/
def StaveDeclaration.Accepted (d : StaveDeclaration) : Prop :=
  ∃ kind entries, StaveDeclaration.ofOptions kind entries = .ok d

/-- A key is accepted only if it is known. -/
theorem StaveOption.key_mem_of_read {key value text : String}
    (h : StaveOption.read key value = .ok (.key text)) : text ∈ knownKeys := by
  unfold StaveOption.read at h
  split at h
  case h_3 =>
    unfold readKey at h
    split at h
    · rename_i hknown
      cases h
      simpa [isKnownKey] using hknown
    · cases h
  -- No other option sets the key.
  all_goals
    try simp only [readVisibility, readClef, readPlacement, readStrings, Except.map] at h
    (repeat' split at h) <;> cases h

namespace StaveDeclaration

theorem read_of_mem_readOptions {entries : List OptionEntry}
    {options : List (OptionEntry × StaveOption)} (h : readOptions entries = .ok options)
    {entry : OptionEntry} {option : StaveOption} (hmem : (entry, option) ∈ options) :
    StaveOption.read entry.key entry.value = .ok option := by
  induction entries generalizing options with
  | nil =>
      cases h
      cases hmem
  | cons first entries ih =>
      rw [readOptions] at h
      split at h
      · cases h
      · rename_i read hread
        cases hrest : readOptions entries with
        | error fault =>
            rw [hrest] at h
            cases h
        | ok rest =>
            rw [hrest] at h
            cases h
            rcases List.mem_cons.1 hmem with heq | hmem
            · cases heq
              exact hread
            · exact ih hrest hmem

theorem Accepted.key_mem {d : StaveDeclaration} (h : d.Accepted) : d.key ∈ knownKeys := by
  obtain ⟨kind, entries, h⟩ := h
  unfold ofOptions at h
  split at h
  · cases h
  · rename_i options hoptions
    dsimp only at h
    split at h
    · cases h
      refine List.foldlRecOn (motive := fun d : StaveDeclaration => d.key ∈ knownKeys) _ _
        (show "C" ∈ knownKeys by decide) fun d hd option hmem => ?_
      obtain ⟨⟨entry, option⟩, hentry, rfl⟩ := List.mem_map.1 hmem
      have hread := read_of_mem_readOptions hoptions hentry
      cases option with
      | key text => exact StaveOption.key_mem_of_read hread
      | _ => exact hd
    · cases h

end StaveDeclaration

namespace Session

variable {s : Session}

/-! ## New measures -/

/-- Does the event open a measure? A voice does so if it has to declare its stave. -/
def opensMeasure (s : Session) : Event → Bool
  | .stave _ | .bar _ => true
  | .voice _ => s.score.active.isNone
  | _ => false

theorem fault_addStave (d : StaveDeclaration) :
    (s.addStave d).fault = (s.memory.setKey d.key).fault := by
  have hmemory : ((s.closeBends true).placeStave d).memory = s.memory :=
    (memory_placeStave d).trans (memory_closeBends true)
  show (((s.closeBends true).placeStave d).memory.setKey d.key).fault = _
  rw [hmemory]

theorem forKey_of_addStave {d : StaveDeclaration} (h : (s.addStave d).fault = none) :
    SpellingMemory.forKey d.key = .ok (s.addStave d).state.memory := by
  rw [memory_addStave]
  exact SpellingMemory.forKey_of_setKey ((fault_addStave d).symm.trans h)

theorem Declares.forKey_of_addBar {d : StaveDeclaration} (h : s.Declares (some d)) {type : BarType}
    (hdone : (s.addBar type).fault = none) :
    SpellingMemory.forKey d.key = .ok (s.addBar type).state.memory := by
  rw [memory_addBar, ← show s.memory.key = d.key from h.key]
  exact SpellingMemory.forKey_of_setKey ((fault_addBar_iff type).1 hdone).1

/-- **A measure opens with the memory of its key**, whatever came before it. -/
theorem Declares.forKey_of_opens {d : Option StaveDeclaration} (h : s.Declares d) {event : Event}
    (hopens : s.opensMeasure event) (hdone : (s.handle event).fault = none) :
    ∃ d', event.declare d = some d' ∧
      SpellingMemory.forKey d'.key = .ok (s.handle event).state.memory := by
  cases event with
  | stave declaration => exact ⟨declaration, rfl, forKey_of_addStave hdone⟩
  | voice declaration =>
      have hnone : s.score.active = none := Option.isNone_iff_eq_none.1 hopens
      have hvoice : s.handle (.voice declaration) = s.addStave declaration := by
        show s.addVoice declaration = _
        rw [addVoice, hnone]
      have hd : d = none := by
        have hstaved := h.staved
        rw [hnone] at hstaved
        exact Option.isNone_iff_eq_none.1 (by rw [← Option.not_isSome, ← hstaved]; rfl)
      rw [hvoice] at hdone ⊢
      exact ⟨declaration, by rw [hd]; rfl, forKey_of_addStave hdone⟩
  | bar type =>
      have hstaved := ((fault_addBar_iff type).1 hdone).2
      obtain ⟨last, rfl⟩ := Option.isSome_iff_exists.1 (h.staved.symm.trans hstaved)
      exact ⟨last, rfl, h.forKey_of_addBar hdone⟩
  | _ => cases hopens

/-- A bar on a stave whose declaration was accepted does not fail. -/
theorem Declares.fault_addBar {d : StaveDeclaration} (h : s.Declares (some d))
    (haccepted : d.Accepted) (type : BarType) : (s.addBar type).fault = none := by
  refine (fault_addBar_iff type).2 ⟨?_, h.staved⟩
  have hkey : s.memory.key ∈ knownKeys := by
    rw [show s.memory.key = d.key from h.key]
    exact haccepted.key_mem
  exact SpellingMemory.fault_setKey s.memory hkey

end Session

/-! ## Answers -/

namespace Event

/-- The fret and the string that an event asks for. -/
def asked? : Event → Option (Nat × Nat)
  | .fret number string => some (number, string)
  | _ => none

/-- Does the event stay in the measure that it finds, on a session with a stave? -/
def staysInMeasure : Event → Bool
  | .stave _ | .bar _ | .chord _ _ _ | .note _ | .reset => false
  | _ => true

end Event

/-- The answer to a fret: what it is, under the strategy in force. -/
structure FretAnswer where
  strategy : AccidentalStrategy
  result : Except Cause Binding

/-- The answers of a session to the frets that some events ask for. -/
def Session.answers : List Event → Session → List FretAnswer
  | [], _ => []
  | event :: events, s =>
      match event.asked? with
      | some (fret, string) =>
          ⟨s.settings.accidentals, (s.resolveFret fret string).2⟩ ::
            answers events (s.handle event).state
      | none => answers events (s.handle event).state

/-- How frets are spelled one after the other: each with its engraved pitch and its selection, or
not at all if there is no such fret. -/
def Tuning.spellFrets (t : Tuning) : SpellingMemory → List (Nat × Nat) →
    List (Option (Pitch × Selection))
  | _, [] => []
  | m, (fret, string) :: frets =>
      match t.pitchAt fret string with
      | .error _ => none :: t.spellFrets m frets
      | .ok pitch =>
          let (next, selected) := m.select pitch.name
          some (⟨selected.note, Resolver.respelledOctave pitch.octave pitch.name.letter
            selected.note.letter⟩, selected) :: t.spellFrets next frets

namespace FretAnswer

/-- An answer that is given shows a fret as it is spelled. -/
def Shows (answer : FretAnswer) (spelled : Option (Pitch × Selection)) : Prop :=
  ∀ b, answer.result = .ok b →
    ∃ selected, spelled = some (b.key, selected) ∧ b.mark = selected.mark answer.strategy

/-- Where both answers are given, they have the same key, and the same mark under the same
strategy. -/
def Agrees (answer other : FretAnswer) : Prop :=
  ∀ b c, answer.result = .ok b → other.result = .ok c →
    b.key = c.key ∧ (answer.strategy = other.strategy → b.mark = c.mark)

theorem Shows.agrees {answer other : FretAnswer} {spelled : Option (Pitch × Selection)}
    (h : answer.Shows spelled) (h' : other.Shows spelled) : answer.Agrees other := by
  intro b c hb hc
  obtain ⟨selected, hspelled, hmark⟩ := h b hb
  obtain ⟨selected', hspelled', hmark'⟩ := h' c hc
  obtain ⟨hkey, hselected⟩ := Prod.mk.inj (Option.some.inj (hspelled.symm.trans hspelled'))
  exact ⟨hkey, fun hstrategy => by rw [hmark, hmark', hselected, hstrategy]⟩

end FretAnswer

namespace Session

variable {s t : Session}

/-- One fret, asked for in a session: its answer shows how it is spelled, and the memory learns it.
-/
theorem spellFrets_cons (fret string : Nat) (frets : List (Nat × Nat)) :
    ∃ spelled, s.tuning.spellFrets s.memory ((fret, string) :: frets) =
        spelled :: s.tuning.spellFrets (s.resolveFret fret string).1.memory frets ∧
      FretAnswer.Shows ⟨s.settings.accidentals, (s.resolveFret fret string).2⟩ spelled := by
  have hresolve : s.resolveFret fret string =
      ({ s with memory := (s.resolver.fret s.memory fret string).1 },
        (s.resolver.fret s.memory fret string).2) := rfl
  rw [hresolve, Tuning.spellFrets]
  unfold Resolver.fret
  rw [show s.resolver.tuning = s.tuning from rfl]
  cases s.tuning.pitchAt fret string with
  | error cause => exact ⟨none, rfl, fun b hb => nomatch hb⟩
  | ok pitch =>
      refine ⟨_, rfl, fun b hb => ?_⟩
      dsimp only at hb
      -- The shift of the octave may fail, but only after the selection.
      cases hoctave : s.resolver.shifted pitch.octave with
      | error cause =>
          rw [hoctave] at hb
          cases hb
      | ok octave =>
          rw [hoctave] at hb
          cases hb
          exact ⟨_, rfl, rfl⟩

/-- **What a measure answers** depends on its tuning, its memory and the frets that are asked for,
and on nothing that happens in between. -/
theorem answers_show (hstaved : s.score.active.isSome) {events : List Event}
    (hstays : ∀ event ∈ events, event.staysInMeasure) :
    List.Forall₂ FretAnswer.Shows (s.answers events)
      (s.tuning.spellFrets s.memory (events.filterMap Event.asked?)) := by
  induction events generalizing s with
  | nil => exact .nil
  | cons event events ih =>
      have hfirst := hstays event List.mem_cons_self
      have hrest : ∀ e ∈ events, e.staysInMeasure := fun e he =>
        hstays e (List.mem_cons_of_mem event he)
      cases hasked : event.asked? with
      | some asked =>
          obtain ⟨fret, string⟩ := asked
          obtain rfl : event = .fret fret string := by
            cases event <;> cases hasked
            rfl
          obtain ⟨spelled, hspelled, hshows⟩ :=
            spellFrets_cons (s := s) fret string (events.filterMap Event.asked?)
          rw [List.filterMap_cons_some hasked, hspelled, answers]
          refine .cons hshows ?_
          rw [state_handle_fret]
          exact ih (s := (s.resolveFret fret string).1) hstaved hrest
      | none =>
          have hsame : s.SameMeasure (s.handle event).state := by
            refine .handle s ?_
            cases event with
            | voice declaration => exact hstaved
            | stave _ | bar _ | chord _ _ _ | note _ | reset => cases hfirst
            | fret _ _ => cases hasked
            | _ => rfl
          rw [List.filterMap_cons_none hasked, answers, hasked, ← hsame.tuning, ← hsame.memory]
          exact ih (hsame.staved.trans hstaved) hrest

/-- Two measures with the same tuning and the same memory agree on all frets. -/
theorem answers_agree (hstaved : s.score.active.isSome) (hstaved' : t.score.active.isSome)
    (htuning : s.tuning = t.tuning) (hmemory : s.memory = t.memory) {xs ys : List Event}
    (hxs : ∀ event ∈ xs, event.staysInMeasure) (hys : ∀ event ∈ ys, event.staysInMeasure)
    (hasked : xs.filterMap Event.asked? = ys.filterMap Event.asked?) :
    List.Forall₂ FretAnswer.Agrees (s.answers xs) (t.answers ys) := by
  have hs := answers_show hstaved hxs
  have ht := answers_show hstaved' hys
  rw [← htuning, ← hmemory, ← hasked] at ht
  exact forall₂_comp hs ht.flip fun _ _ _ hshows hshows' => FretAnswer.Shows.agrees hshows hshows'

/-! ## The isolation of measures -/

/-- **Bars isolate measures.** After any events: a bar or a stave that is carried out leaves the
memory of the key that was declared last, and what a declaration was accepted with makes neither of
them fail; events that do not spell leave the memory alone; and after a bar on each of two staves
with one key and one tuning the same frets are answered alike, whatever events of these kinds come
in between: with the same key, and with the same mark under the same strategy. -/
theorem measures_isolated (setup : PageSetup) (events : List Event) :
    let s := (start setup).follow events
    (∀ event, s.opensMeasure event → (s.handle event).fault = none →
      ∃ d, lastDeclared (events ++ [event]) = some d ∧
        SpellingMemory.forKey d.key = .ok (s.handle event).state.memory) ∧
    (∀ d : StaveDeclaration, d.Accepted → (s.addStave d).fault = none) ∧
    (∀ d type, lastDeclared events = some d → d.Accepted → (s.addBar type).fault = none) ∧
    (∀ event, s.keepsMeasure event → (s.handle event).state.memory = s.memory) ∧
    ∀ setup' events' d d' type type' xs ys,
      let t := (start setup').follow events'
      lastDeclared events = some d → lastDeclared events' = some d' →
      d.key = d'.key → d.tuning = d'.tuning →
      (s.addBar type).fault = none → (t.addBar type').fault = none →
      (∀ event ∈ xs, event.staysInMeasure) → (∀ event ∈ ys, event.staysInMeasure) →
      xs.filterMap Event.asked? = ys.filterMap Event.asked? →
      List.Forall₂ FretAnswer.Agrees
        ((s.addBar type).state.answers xs) ((t.addBar type').state.answers ys) := by
  intro s
  have hs : s.Declares (lastDeclared events) := declares_follow setup events
  refine ⟨fun event hopens hdone => ?_, fun d haccepted => ?_, fun d type hlast haccepted => ?_,
    fun event hkeeps => (SameMeasure.handle s hkeeps).memory, ?_⟩
  · rw [lastDeclared_concat]
    exact hs.forKey_of_opens hopens hdone
  · rw [fault_addStave]
    exact SpellingMemory.fault_setKey s.memory haccepted.key_mem
  · exact Declares.fault_addBar (hlast ▸ hs) haccepted type
  · intro setup' events' d d' type type' xs ys t hlast hlast' hkey htuning hdone hdone' hxs hys
      hasked
    have ht : t.Declares (lastDeclared events') := declares_follow setup' events'
    rw [hlast] at hs
    rw [hlast'] at ht
    -- Both memories are that of the one key, so nothing is left of what was before the bars.
    have hmemory : (s.addBar type).state.memory = (t.addBar type').state.memory := by
      have hread := hs.forKey_of_addBar hdone
      rw [hkey, ht.forKey_of_addBar hdone'] at hread
      exact (Except.ok.inj hread).symm
    refine answers_agree ((staved_addBar type).trans hs.staved)
      ((staved_addBar type').trans ht.staved) ?_ hmemory hxs hys hasked
    rw [tuning_addBar, tuning_addBar, hs.tuning, ht.tuning]
    exact htuning

/-- A stave in F major. -/
def inF : StaveDeclaration := { StaveDeclaration.defaults .implicit with key := "F" }

theorem accepted_inF : inF.Accepted :=
  ⟨.implicit, [⟨"key", "F", none, none⟩], by decide +kernel⟩

/-- Two staves in F, on one of which a B natural has been played. After a bar on each, both answer
alike that the third fret of the G string is the B flat of the key. -/
theorem measures_isolated_inF :
    let s := (start .standard).follow [.stave inF, .fret 0 2]
    let t := (start .standard).follow [.stave inF]
    (s.addBar .single).fault = none ∧ (t.addBar .double).fault = none ∧
      (s.addStave inF).fault = none ∧ (s.handle (.rest 0)).state.memory = s.memory ∧
      (∃ d, lastDeclared [.stave inF, .fret 0 2, .bar .single] = some d ∧
        SpellingMemory.forKey d.key = .ok (s.addBar .single).state.memory) ∧
      List.Forall₂ FretAnswer.Agrees
        ((s.addBar .single).state.answers [.fret 3 3, .rest 0, .fret 0 2])
        ((t.addBar .double).state.answers
          [.fret 3 3, .options [("accidentals", "cautionary")], .fret 0 2]) := by
  have hs := measures_isolated .standard [.stave inF, .fret 0 2]
  have ht := measures_isolated .standard [.stave inF]
  have hdone := hs.2.2.1 inF .single rfl accepted_inF
  have hdone' := ht.2.2.1 inF .double rfl accepted_inF
  refine ⟨hdone, hdone', hs.2.1 inF accepted_inF, hs.2.2.2.1 (.rest 0) rfl,
    hs.1 (.bar .single) rfl hdone, ?_⟩
  exact hs.2.2.2.2 .standard [.stave inF] inF inF .single .double _ _ rfl rfl rfl rfl hdone hdone'
    (by decide) (by decide) rfl

end Session

end Tablature
