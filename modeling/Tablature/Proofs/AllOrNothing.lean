/-
# Tablature.Proofs.AllOrNothing — a chord is written as a whole or not at all.

Writing a chord is many steps: every slot is pushed, joined to earlier notes and decorated, while
the duration in force is exchanged for the slot's own and put back. Each step looks for the open
stave by itself and stops without one, and what had been done until then would stay. `Guarded` has
all these steps one by one, in their order and with every way to stop. On an open stave none of them
stops (`Guarded.link_eq`, `Guarded.articulations_eq`, `Guarded.slot_eq`), because no step before it
closes the stave, so in every session the guarded steps do what the session does
(`Guarded.addChord_eq`), and the only ways to fail are those before the first step.
-/
import Tablature.Proofs.ChordNotes

namespace Tablature

namespace Session

/-! ## Step by step -/

namespace Guarded

/-- Extends the chain of bends. A new chain is open before the stave is looked for. -/
def openBends (s : Session) (span : Span) : Outcome Cause Session :=
  ({ s with bend := some (s.openChain span.previous span.previousIndices) } : Session).withStave
    fun _ => .done (s.openBends span.previous span.previousIndices span.currentIndices)

/-- What an articulation does on tablature. -/
def articulateTab (tag : Articulation) (span : Span) (s : Session) : Outcome Cause Session :=
  s.withStave fun stave =>
    match tag with
    | .bend => openBends s span
    | tag => .done (s.articulateTab stave tag span)

/-- The tie of an articulation on the staff. -/
def tieOnStaff (span : Span) (s : Session) : Outcome Cause Session :=
  s.withStave fun stave => .done (s.addStaffLink (.tie (s.staffLinkOf stave span)))

/-- What an articulation links, on the views that the stave had when the span was looked for. -/
def linkSpan (stave : Stave) (tag : Articulation) (span : Option Span) (s : Session) :
    Outcome Cause Session :=
  match span with
  | none => .done s
  | some span =>
      if span.isEmpty then .done s
      else
        (if stave.tab.isSome then articulateTab tag span s else .done s).andThen fun s =>
          if stave.staff.isSome then tieOnStaff span s else .done s

/-- A mark at the last object on tablature. -/
def markLastTab (mark : Modifier) (s : Session) : Outcome Cause Session :=
  s.withStave fun _ => .done (s.markLastTab 0 mark)

/-- Applies an articulation at the given places of the last note. -/
def link (tag : Articulation) (indices : List Nat) (s : Session) : Outcome Cause Session :=
  s.withStave fun stave =>
    let span := Span.ofNotes? stave.tabNotes indices
    match tag with
    | .vibrato => markLastTab (.vibrato false) s
    | .harshVibrato => markLastTab (.vibrato true) s
    | .tap =>
        (if stave.tab.isSome then markLastTab s.tapCaption s else .done s).andThen
          (linkSpan stave .tap span)
    | tag => linkSpan stave tag span s

/-- Applies one articulation at every place that has it. -/
def linkTagged (tags : List (Option Articulation)) (tag : Articulation) (s : Session) :
    Outcome Cause Session :=
  match indicesWhere (· == some tag) tags 0 with
  | [] => .done s
  | index :: indices => link tag (index :: indices) s

/-- Applies the articulations of the last note, in their fixed order. -/
def articulations (tags : List (Option Articulation)) (s : Session) : Outcome Cause Session :=
  s.withStave fun stave =>
    if stave.tabNotes.isEmpty || tags.all Option.isNone then .done (s.closeBends false)
    else
      (Outcome.forEach (linkTagged tags) Articulation.all s).andThen fun s =>
        .done (if tags.contains (some .bend) then s else s.closeBends false)

/-- Applies a decoration if there is one. -/
def decorateWith (decorator : Option Decorator) (s : Session) : Outcome Cause Session :=
  match decorator with
  | some decorator => s.addDecorator decorator
  | none => .done s

/-- Pushes a slot that lasts as long as the duration in force says. -/
def push (entries : List ResolvedEntry) (s : Session) : Outcome Cause Session :=
  s.withStave fun _ => .done (s.onActive (·.push
    (.tab { s.tabNote entries with duration := s.duration })
    (.staff { s.staffNote entries with duration := s.duration })))

/-- Writes a slot with its articulations and its decoration. -/
def emit (entries : List ResolvedEntry) (s : Session) : Outcome Cause Session :=
  ((push entries s).andThen (articulations (entries.map (·.articulation)))).andThen
    (decorateWith (Chord.lastSome (entries.map (·.decorator))))

/-- Writes a slot while its own duration is in force; the duration is put back in every case. -/
def slot (entries : List ResolvedEntry) (s : Session) : Outcome Cause Session :=
  (emit entries { s with duration := s.slotDuration entries }).mapState fun t =>
    { t with duration := s.duration }

/-- Applies a tag to every position of the last slot, if there is one. -/
def chordTag (size : Nat) (tag : Option Articulation) (s : Session) : Outcome Cause Session :=
  match tag with
  | some tag => articulations (List.replicate size (some tag)) s
  | none => .done s

/-- Writes a chord whose entries are resolved. -/
def writeChord (chord : List NoteEntry) (entries : List ResolvedEntry)
    (articulation : Option Articulation) (decorator : Option Decorator) (s : Session) :
    Outcome Cause Session :=
  ((Outcome.forEach slot (Chord.slots (Chord.placesOf chord) entries) s).andThen
    (chordTag chord.length articulation)).andThen (decorateWith decorator)

/-- Adds a chord. -/
def addChord (s : Session) (chord : List NoteEntry) (articulation : Option Articulation)
    (decorator : Option Decorator) : Outcome Cause Session :=
  if chord.isEmpty then .done s
  else s.withStave fun _ =>
    match ResolvedEntry.resolveAll s.resolver s.memory chord with
    | (memory, .error cause) => .stopped { s with memory := memory } cause
    | (memory, .ok entries) =>
        writeChord chord entries articulation decorator { s with memory := memory }

end Guarded

/-! ## The duration in force -/

/-- The session with another duration in force. -/
def withDuration (d : Duration) (s : Session) : Session := { s with duration := d }

variable {s : Session} {a : Stave} (d : Duration)

theorem closeBends_withDuration (s : Session) (through : Bool) :
    (s.withDuration d).closeBends through = (s.closeBends through).withDuration d := by
  cases hbend : s.bend with
  | none => simp only [closeBends, withDuration, hbend]
  | some chain =>
      simp only [closeBends, withDuration, hbend]
      rfl

theorem openBends_withDuration (s : Session) (earlier : Nat)
    (firstIndices lastIndices : List Nat) :
    (s.withDuration d).openBends earlier firstIndices lastIndices =
      (s.openBends earlier firstIndices lastIndices).withDuration d := by
  have htabNotes : (s.withDuration d).tabNotes = s.tabNotes := rfl
  simp only [openBends, htabNotes]
  split <;> rfl

theorem articulateTab_withDuration (s : Session) (a : Stave) (tag : Articulation) (span : Span) :
    (s.withDuration d).articulateTab a tag span = (s.articulateTab a tag span).withDuration d := by
  cases tag with
  | bend => exact openBends_withDuration d s _ _ _
  | _ => rfl

theorem linkSpan_withDuration (s : Session) (a : Stave) (tag : Articulation)
    (span : Option Span) :
    (s.withDuration d).linkSpan a tag span = (s.linkSpan a tag span).withDuration d := by
  cases span with
  | none => rfl
  | some span =>
      simp only [linkSpan, articulateTab_withDuration]
      cases span.isEmpty <;> cases a.tab.isSome <;> cases a.staff.isSome <;> rfl

theorem articulate_withDuration (s : Session) (a : Stave) (tag : Articulation)
    (indices : List Nat) :
    (s.withDuration d).articulate a tag indices = (s.articulate a tag indices).withDuration d := by
  cases tag with
  | vibrato => rfl
  | harshVibrato => rfl
  | tap =>
      simp only [articulate]
      split
      · exact linkSpan_withDuration d (s.markLastTab 0 s.tapCaption) a .tap _
      · exact linkSpan_withDuration d s a .tap _
  | _ => exact linkSpan_withDuration d s a _ _

theorem articulateTagged_withDuration (tags : List (Option Articulation)) (s : Session)
    (tag : Articulation) :
    articulateTagged tags (s.withDuration d) tag =
      (articulateTagged tags s tag).withDuration d := by
  have hactive : (s.withDuration d).score.active = s.score.active := rfl
  simp only [articulateTagged, hactive]
  split
  · exact articulate_withDuration d s _ tag _
  · rfl

theorem applyTags_withDuration (s : Session) (tags : List (Option Articulation)) :
    (s.withDuration d).applyTags tags = (s.applyTags tags).withDuration d := by
  have htabNotes : (s.withDuration d).tabNotes = s.tabNotes := rfl
  have hfold (all : List Articulation) : all.foldl (articulateTagged tags) (s.withDuration d) =
      (all.foldl (articulateTagged tags) s).withDuration d :=
    List.foldl_hom _ fun t tag => articulateTagged_withDuration d tags t tag
  simp only [applyTags, htabNotes, hfold, closeBends_withDuration]
  split
  · rfl
  · split <;> rfl

theorem decorateWith_withDuration (s : Session) (decorator : Option Decorator) :
    (s.withDuration d).decorateWith decorator = (s.decorateWith decorator).withDuration d := by
  cases decorator with
  | none => rfl
  | some decorator => cases decorator <;> rfl

end Session

/-! ## No step stops on an open stave -/

namespace Session.Guarded

variable {s : Session} {a : Stave}

theorem withStave_eq (ha : s.score.active = some a) (next : Stave → Outcome Cause Session) :
    s.withStave next = next a := by
  rw [withStave, ha]

/-- Steps that do not stop on an open stave, and leave it open, do not stop one after the other. -/
theorem forEach_eq {α : Type} {step : α → Session → Outcome Cause Session}
    {whole : Session → α → Session}
    (hdone : ∀ x (t : Session) b, t.score.active = some b → step x t = .done (whole t x))
    (hopen : ∀ x (t : Session) b, t.score.active = some b →
      ∃ c, (whole t x).score.active = some c)
    (ha : s.score.active = some a) (xs : List α) :
    Outcome.forEach step xs s = .done (xs.foldl whole s) := by
  induction xs generalizing s a with
  | nil => rfl
  | cons x xs ih =>
      obtain ⟨c, hc⟩ := hopen x s a ha
      rw [Outcome.forEach_cons, hdone x s a ha, Outcome.andThen_done, ih hc]
      rfl

theorem markLastTab_eq (ha : s.score.active = some a) (mark : Modifier) :
    markLastTab mark s = .done (s.markLastTab 0 mark) := withStave_eq ha _

section Link

variable {notes : List Tickable}

/-- Marks made since the span was looked for do not matter. -/
theorem articulateTab_eq (hlen : notes.length = a.tabNotes.length)
    (ha : s.score.active = some { a with tabNotes := notes }) (tag : Articulation) (span : Span) :
    articulateTab tag span s = .done (s.articulateTab a tag span) := by
  have hlink : s.tabLinkOf { a with tabNotes := notes } span = s.tabLinkOf a span := by
    simp only [tabLinkOf, tabAddress, hlen]
  rw [articulateTab, withStave_eq ha]
  cases tag with
  | bend =>
      let opened : Session :=
        { s with bend := some (s.openChain span.previous span.previousIndices) }
      have hopened : opened.score.active = some { a with tabNotes := notes } := ha
      exact withStave_eq hopened _
  | _ => simp only [Session.articulateTab, hlink]

theorem active_articulateTab (s : Session) (a : Stave) (tag : Articulation) (span : Span) :
    (s.articulateTab a tag span).score.active = s.score.active := by
  cases tag with
  | bend =>
      show (s.openBends _ _ _).score.active = _
      rw [openBends_eq]
  | _ => rfl

theorem linkSpan_eq (hlen : notes.length = a.tabNotes.length)
    (ha : s.score.active = some { a with tabNotes := notes }) (tag : Articulation)
    (span : Option Span) :
    linkSpan a tag span s = .done (s.linkSpan a tag span) := by
  cases span with
  | none => rfl
  | some span =>
      have tied (t : Session) (ht : t.score.active = some { a with tabNotes := notes }) :
          tieOnStaff span t = .done (t.addStaffLink (.tie (t.staffLinkOf a span))) :=
        withStave_eq ht _
      have htab := articulateTab_eq hlen ha tag span
      have hactive := (active_articulateTab s a tag span).trans ha
      simp only [linkSpan, Session.linkSpan, htab]
      cases span.isEmpty with
      | true => rfl
      | false =>
          cases a.tab.isSome with
          | true =>
              cases a.staff.isSome with
              | true => exact tied _ hactive
              | false => rfl
          | false =>
              cases a.staff.isSome with
              | true => exact tied s ha
              | false => rfl

end Link

/-- **Linking does not stop.** -/
theorem link_eq (ha : s.score.active = some a) (tag : Articulation) (indices : List Nat) :
    link tag indices s = .done (s.articulate a tag indices) := by
  rw [link, withStave_eq ha]
  have linked (tag : Articulation) (span : Option Span) :
      linkSpan a tag span s = .done (s.linkSpan a tag span) :=
    linkSpan_eq (rfl : a.tabNotes.length = a.tabNotes.length) ha tag span
  cases tag with
  | vibrato => exact markLastTab_eq ha _
  | harshVibrato => exact markLastTab_eq ha _
  | tap =>
      simp only [articulate]
      split
      · rw [markLastTab_eq ha, Outcome.andThen_done]
        have hmarked : (s.markLastTab 0 s.tapCaption).score.active = some { a with
            tabNotes := a.tabNotes.modify (a.tabNotes.length - 1) (.mark 0 s.tapCaption) } := by
          rw [Session.markLastTab, onTabNotes, onActive_eq ha]
        exact linkSpan_eq (List.length_modify _ _ _) hmarked .tap _
      · exact linked .tap _
  | _ => exact linked _ _

theorem linkTagged_eq (ha : s.score.active = some a) (tags : List (Option Articulation))
    (tag : Articulation) : linkTagged tags tag s = .done (articulateTagged tags s tag) := by
  unfold linkTagged articulateTagged
  rw [ha]
  split
  · rename_i hnone
    rw [hnone]
  · rename_i hsome
    rw [hsome]
    exact link_eq ha tag _

/-- **Articulations do not stop.** -/
theorem articulations_eq (ha : s.score.active = some a) (tags : List (Option Articulation)) :
    articulations tags s = .done (s.applyTags tags) := by
  have stays (tag : Articulation) (t : Session) (b : Stave) (hb : t.score.active = some b) :
      ∃ c, (articulateTagged tags t tag).score.active = some c := by
    obtain ⟨c, hc, _⟩ := (marked_articulateTagged tags tag).exists_gains hb
    exact ⟨c, hc⟩
  have hall : Outcome.forEach (linkTagged tags) Articulation.all s =
      .done (Articulation.all.foldl (articulateTagged tags) s) :=
    forEach_eq (fun tag _ _ hb => linkTagged_eq hb tags tag) stays ha _
  rw [articulations, withStave_eq ha, applyTags, tabNotes_eq ha, hall]
  split
  · rfl
  · rw [Outcome.andThen_done]

theorem decorateWith_eq (ha : s.score.active = some a) (decorator : Option Decorator) :
    decorateWith decorator s = .done (s.decorateWith decorator) := by
  cases decorator with
  | none => rfl
  | some decorator => exact withStave_eq ha _

theorem chordTag_eq (ha : s.score.active = some a) (size : Nat) (tag : Option Articulation) :
    chordTag size tag s = .done (s.applyChordTag size tag) := by
  cases tag with
  | none => rfl
  | some tag => exact articulations_eq ha _

/-- **Writing a slot does not stop**, and its own duration does not stay in force. -/
theorem slot_eq (ha : s.score.active = some a) (entries : List ResolvedEntry) :
    slot entries s = .done (s.emit entries) := by
  let d := s.slotDuration entries
  let pushed := s.onActive (·.push (.tab (s.tabNote entries)) (.staff (s.staffNote entries)))
  have hpush : push entries (s.withDuration d) = .done (pushed.withDuration d) :=
    withStave_eq (s := s.withDuration d) ha _
  have hb : pushed.score.active =
      some (a.push (.tab (s.tabNote entries)) (.staff (s.staffNote entries))) :=
    congrArg (fun t => t.score.active) (onActive_eq ha _)
  have htags := articulations_eq (s := pushed.withDuration d) hb (entries.map (·.articulation))
  obtain ⟨c, hc, _⟩ := (marked_applyTags (s := pushed.withDuration d)
    (entries.map (·.articulation))).exists_gains hb
  have hemit : emit entries (s.withDuration d) = .done ((s.emit entries).withDuration d) := by
    rw [emit, hpush, Outcome.andThen_done, htags, Outcome.andThen_done, decorateWith_eq hc,
      applyTags_withDuration, decorateWith_withDuration]
    rfl
  have hduration : ((s.emit entries).withDuration s.duration) = s.emit entries := by
    rw [← (framed_emit entries).duration]
    rfl
  show (emit entries (s.withDuration d)).mapState (withDuration s.duration) = _
  rw [hemit]
  show Outcome.done ((s.emit entries).withDuration s.duration) = _
  rw [hduration]

theorem writeChord_eq (ha : s.score.active = some a) (chord : List NoteEntry)
    (entries : List ResolvedEntry) (articulation : Option Articulation)
    (decorator : Option Decorator) :
    writeChord chord entries articulation decorator s =
      .done (s.writeChord chord entries articulation decorator) := by
  have stays (slot : List ResolvedEntry) (t : Session) (b : Stave)
      (hb : t.score.active = some b) : ∃ c, (t.emit slot).score.active = some c := by
    obtain ⟨c, hc, _⟩ := exists_gains_emit hb slot
    exact ⟨c, hc⟩
  have hslots : Outcome.forEach slot (Chord.slots (Chord.placesOf chord) entries) s =
      .done ((Chord.slots (Chord.placesOf chord) entries).foldl Session.emit s) :=
    forEach_eq (fun slot _ _ hb => slot_eq hb slot) stays ha _
  obtain ⟨b, hb, _⟩ := exists_gains_foldl_emit ha (Chord.slots (Chord.placesOf chord) entries)
  obtain ⟨c, hc, _⟩ := (marked_applyChordTag chord.length articulation).exists_gains hb
  rw [writeChord, hslots, Outcome.andThen_done, chordTag_eq hb, Outcome.andThen_done,
    decorateWith_eq hc]
  rfl

/-- **Step by step a chord is what it is as a whole**, with or without a stave. -/
theorem addChord_eq (s : Session) (chord : List NoteEntry) (articulation : Option Articulation)
    (decorator : Option Decorator) :
    addChord s chord articulation decorator = s.addChord chord articulation decorator := by
  by_cases hempty : chord.isEmpty
  · rw [addChord, Session.addChord, if_pos hempty, if_pos hempty]
  · rw [addChord, Session.addChord, if_neg hempty, if_neg hempty]
    cases ha : s.score.active with
    | none => rw [withStave, withStave, ha]
    | some a =>
        rw [withStave_eq ha, withStave_eq ha]
        rcases ResolvedEntry.resolveAll s.resolver s.memory chord with ⟨m, cause | entries⟩
        · rfl
        · exact writeChord_eq (s := { s with memory := m }) ha chord entries articulation decorator

end Session.Guarded

namespace Session

/-! ## When a chord fails, and what it leaves -/

variable {s : Session} {chord : List NoteEntry} {articulation : Option Articulation}
  {decorator : Option Decorator} {cause : Cause}

/-- A chord fails if it has entries and there is no stave, or one of them cannot be resolved. -/
theorem fault_addChord_iff :
    (s.addChord chord articulation decorator).fault = some cause ↔
      chord ≠ [] ∧ ((s.score.active = none ∧ cause = .noStave) ∨ (s.score.active.isSome ∧
        (ResolvedEntry.resolveAll s.resolver s.memory chord).2 = .error cause)) := by
  rw [← List.isEmpty_eq_false_iff]
  cases hempty : chord.isEmpty with
  | true => simp [addChord, hempty, Outcome.done]
  | false =>
      rw [addChord, hempty, if_neg Bool.false_ne_true, withStave]
      cases s.score.active with
      | none => simp [Outcome.stopped, eq_comm]
      | some a =>
          rcases ResolvedEntry.resolveAll s.resolver s.memory chord with ⟨m, cause' | entries⟩
          · simp [Outcome.stopped]
          · simp [Outcome.done]

/-- A chord that fails leaves everything but the spelling of the measure. -/
theorem state_addChord_of_fault (h : (s.addChord chord articulation decorator).fault = some cause) :
    (s.addChord chord articulation decorator).state =
      { s with memory := (s.addChord chord articulation decorator).state.memory } := by
  obtain ⟨hne, hcase⟩ := fault_addChord_iff.1 h
  rw [addChord, if_neg (by simpa using hne), withStave]
  rcases hcase with ⟨hnone, -⟩ | ⟨hsome, hcause⟩
  · rw [hnone]
    rfl
  · obtain ⟨a, ha⟩ := Option.isSome_iff_exists.1 hsome
    rw [ha]
    generalize ResolvedEntry.resolveAll s.resolver s.memory chord = attempt at hcause
    obtain ⟨m, result⟩ := attempt
    cases hcause
    rfl

/-- **A chord is written as a whole or not at all.** If it fails, there is no stave or an entry
cannot be resolved, and then nothing has changed but the spelling of the measure. Once its entries
are resolved on an open stave no step of writing it can stop, whatever has been written before and
however its entries are tagged. The same holds of a single note. -/
theorem addChord_all_or_nothing (s : Session) (chord : List NoteEntry)
    (articulation : Option Articulation) (decorator : Option Decorator) :
    (∀ cause, (s.addChord chord articulation decorator).fault = some cause →
      (s.addChord chord articulation decorator).state =
        { s with memory := (s.addChord chord articulation decorator).state.memory }) ∧
    (∀ note cause, (s.addNote note).fault = some cause →
      (s.addNote note).state = { s with memory := (s.addNote note).state.memory }) ∧
    (∀ cause, (s.addChord chord articulation decorator).fault = some cause ↔
      chord ≠ [] ∧ ((s.score.active = none ∧ cause = .noStave) ∨ (s.score.active.isSome ∧
        (ResolvedEntry.resolveAll s.resolver s.memory chord).2 = .error cause))) ∧
    (∀ m entries, s.score.active.isSome →
      ResolvedEntry.resolveAll s.resolver s.memory chord = (m, .ok entries) →
      (Guarded.writeChord chord entries articulation decorator { s with memory := m }).fault =
        none) ∧
    Guarded.addChord s chord articulation decorator = s.addChord chord articulation decorator := by
  refine ⟨fun _ => state_addChord_of_fault, fun _ _ => state_addChord_of_fault,
    fun _ => fault_addChord_iff, fun m entries hsome _ => ?_, Guarded.addChord_eq ..⟩
  obtain ⟨a, ha⟩ := Option.isSome_iff_exists.1 hsome
  rw [Guarded.writeChord_eq (s := { s with memory := m }) ha]
  rfl

/-- The second entry is on a string that is not there, so that the first is not written either and
the bend that is open stays open. Without it the chord is written to its end. -/
theorem addChord_all_or_nothing_missingString :
    let s := (start .standard).follow openBend
    let chord := [fretOn 6 1, fretOn 8 9]
    s.bend.isSome ∧ s.score.active.isSome ∧
      (s.addChord chord (some .slide) none).fault = some (.stringOutOfRange 6 9) ∧
      (s.addChord chord (some .slide) none).state =
        { s with memory := (s.addChord chord (some .slide) none).state.memory } ∧
      ∃ m entries,
        ResolvedEntry.resolveAll s.resolver s.memory [fretOn 6 1] = (m, .ok entries) ∧
        (Guarded.writeChord [fretOn 6 1] entries (some .slide) none
          { s with memory := m }).fault = none := by
  intro s chord
  have hfault : (s.addChord chord (some .slide) none).fault =
      some (.stringOutOfRange 6 9) := rfl
  have hresolved : ResolvedEntry.resolveAll s.resolver s.memory [fretOn 6 1] = (_, .ok _) := rfl
  exact ⟨rfl, rfl, hfault, (addChord_all_or_nothing s chord (some .slide) none).1 _ hfault, _, _,
    hresolved,
    (addChord_all_or_nothing s [fretOn 6 1] (some .slide) none).2.2.2.1 _ _ rfl hresolved⟩

end Session

end Tablature
