/-
# Tablature.Proofs.ChordNotes — what a chord writes, and what it leaves alone.

A chord changes the active stave, the links and the open bend, and nothing else of a session
(`Session.Framed`). The stave keeps the notes that it had, marked at most, and gains one note for
every slot (`Stave.Gains`). With the slots known as the columns of the runs,
`Session.addChord_columns` says what each of these notes holds and how long it lasts.
-/
import Tablature.Proofs.ChordRuns
import Tablature.Proofs.Drafts

namespace Tablature

/-! ## What a chord leaves alone -/

/-- A session in which at most the active stave, the links and the open bend have changed. -/
def Session.Framed (s t : Session) : Prop :=
  t = { s with
    score :=
      { s.score with
        active := t.score.active
        tabLinks := t.score.tabLinks
        staffLinks := t.score.staffLinks }
    bend := t.bend }

namespace Session

variable {s t u : Session}

namespace Framed

theorem refl (s : Session) : s.Framed s := rfl

theorem trans (h : s.Framed t) (h' : t.Framed u) : s.Framed u := by
  unfold Framed at h h' ⊢
  rw [h', h]

theorem foldl {α : Type} {step : Session → α → Session}
    (h : ∀ (t : Session) x, t.Framed (step t x)) (s : Session) (xs : List α) :
    s.Framed (xs.foldl step s) := by
  induction xs generalizing s with
  | nil => exact .refl s
  | cons x xs ih => exact (h s x).trans (ih _)

theorem duration (h : s.Framed t) : t.duration = s.duration := by rw [h]

theorem settings (h : s.Framed t) : t.settings = s.settings := by rw [h]; rfl

theorem clef (h : s.Framed t) : t.clef = s.clef := by rw [h]

end Framed

theorem framed_onActive (f : Stave → Stave) : s.Framed (s.onActive f) := rfl

theorem framed_closeBends (through : Bool) : s.Framed (s.closeBends through) := by
  unfold closeBends
  split <;> rfl

theorem framed_articulateTab (a : Stave) (tag : Articulation) (span : Span) :
    s.Framed (s.articulateTab a tag span) := by
  cases tag with
  | bend =>
      show s.Framed (s.openBends _ _ _)
      rw [openBends_eq]
      rfl
  | _ => rfl

theorem framed_linkSpan (a : Stave) (tag : Articulation) (span : Option Span) :
    s.Framed (s.linkSpan a tag span) := by
  cases span with
  | none => exact .refl s
  | some span =>
      have onTab : s.Framed (if a.tab.isSome then s.articulateTab a tag span else s) := by
        split
        · exact framed_articulateTab a tag span
        · exact .refl s
      simp only [linkSpan]
      split
      · exact .refl s
      · split
        · exact onTab.trans rfl
        · exact onTab

theorem framed_articulate (a : Stave) (tag : Articulation) (indices : List Nat) :
    s.Framed (s.articulate a tag indices) := by
  cases tag with
  | vibrato => rfl
  | harshVibrato => rfl
  | tap =>
      simp only [articulate]
      split
      · exact Framed.trans (t := s.markLastTab 0 s.tapCaption) rfl (framed_linkSpan _ _ _)
      · exact framed_linkSpan _ _ _
  | _ => exact framed_linkSpan _ _ _

theorem framed_articulateTagged (tags : List (Option Articulation)) (tag : Articulation) :
    s.Framed (articulateTagged tags s tag) := by
  simp only [articulateTagged]
  split
  · exact framed_articulate _ _ _
  · exact .refl s

theorem framed_applyTags (tags : List (Option Articulation)) : s.Framed (s.applyTags tags) := by
  have hall : s.Framed (Articulation.all.foldl (articulateTagged tags) s) :=
    .foldl (fun _ => framed_articulateTagged tags) s _
  simp only [applyTags]
  split
  · exact framed_closeBends false
  · split
    · exact hall
    · exact hall.trans (framed_closeBends false)

theorem framed_decorateWith (decorator : Option Decorator) :
    s.Framed (s.decorateWith decorator) := by
  cases decorator with
  | none => rfl
  | some decorator => cases decorator <;> rfl

theorem framed_applyChordTag (size : Nat) (tag : Option Articulation) :
    s.Framed (s.applyChordTag size tag) := by
  cases tag with
  | none => rfl
  | some tag => exact framed_applyTags _

theorem framed_emit (entries : List ResolvedEntry) : s.Framed (s.emit entries) :=
  (framed_onActive _).trans ((framed_applyTags _).trans (framed_decorateWith _))

theorem framed_writeChord (chord : List NoteEntry) (entries : List ResolvedEntry)
    (articulation : Option Articulation) (decorator : Option Decorator) :
    s.Framed (s.writeChord chord entries articulation decorator) := by
  have hslots : s.Framed ((Chord.slots (Chord.placesOf chord) entries).foldl emit s) :=
    .foldl (fun _ => framed_emit) s _
  exact hslots.trans
    ((framed_applyChordTag chord.length articulation).trans (framed_decorateWith decorator))

end Session

/-! ## Notes at the end of a stave -/

/-- A stave after some objects have been written at the end of its views and marks have been
made. -/
structure Stave.Gains (onTab onStaff : List Tickable) (a b : Stave) : Prop where
  frame : b = { a with tabNotes := b.tabNotes, staffNotes := b.staffNotes }
  tabNotes : List.Forall₂ Tickable.Dressed (a.tabNotes ++ onTab) b.tabNotes
  staffNotes : List.Forall₂ (Marks StaffAllows)
    (a.staffNotes ++ if a.staff.isSome then onStaff else []) b.staffNotes

namespace Stave.Gains

variable {onTab onStaff onTab' onStaff' : List Tickable} {a b c : Stave}

theorem of_marked (h : a.Marked b) : a.Gains [] [] b :=
  ⟨h.frame, by simpa using h.tabNotes, by simpa using h.staffNotes⟩

theorem push (a : Stave) (t u : Tickable) : a.Gains [t] [u] (a.push t u) := by
  refine ⟨rfl, List.forall₂_same.2 fun _ _ => .refl, ?_⟩
  unfold Stave.push
  dsimp only
  split
  · exact List.forall₂_same.2 fun _ _ => .refl
  · rw [List.append_nil]
    exact List.forall₂_same.2 fun _ _ => .refl

theorem trans (h : a.Gains onTab onStaff b) (h' : b.Gains onTab' onStaff' c) :
    a.Gains (onTab ++ onTab') (onStaff ++ onStaff') c where
  frame := by rw [h'.frame, h.frame]
  tabNotes := by
    rw [← List.append_assoc]
    exact forall₂_comp (List.rel_append h.tabNotes (List.forall₂_same.2 fun _ _ => .refl))
      h'.tabNotes fun _ _ _ => .trans
  staffNotes := by
    have hstaff : b.staff = a.staff := by rw [h.frame]
    have hnotes := h'.staffNotes
    rw [hstaff] at hnotes
    have hsplit : (if a.staff.isSome then onStaff ++ onStaff' else []) =
        (if a.staff.isSome then onStaff else []) ++ if a.staff.isSome then onStaff' else [] := by
      split <;> rfl
    rw [hsplit, ← List.append_assoc]
    exact forall₂_comp (List.rel_append h.staffNotes (List.forall₂_same.2 fun _ _ => .refl))
      hnotes fun _ _ _ => .trans

end Stave.Gains

namespace Session

variable {s t : Session} {a : Stave}

theorem Marked.exists_gains (h : s.Marked t) (ha : s.score.active = some a) :
    ∃ b, t.score.active = some b ∧ a.Gains [] [] b := by
  have hactive := h.active
  rw [ha] at hactive
  generalize t.score.active = active at hactive ⊢
  cases hactive with
  | some hab => exact ⟨_, rfl, .of_marked hab⟩

theorem exists_gains_emit (ha : s.score.active = some a) (entries : List ResolvedEntry) :
    ∃ b, (s.emit entries).score.active = some b ∧
      a.Gains [.tab (s.tabNote entries)] [.staff (s.staffNote entries)] b := by
  have hmarked : (s.onActive (·.push (.tab (s.tabNote entries))
      (.staff (s.staffNote entries)))).Marked (s.emit entries) :=
    (marked_applyTags _).trans (marked_decorateWith _)
  rw [onActive_eq ha] at hmarked
  obtain ⟨b, hb, hgains⟩ := hmarked.exists_gains rfl
  exact ⟨b, hb, (Stave.Gains.push a _ _).trans hgains⟩

/-- The slots of a chord are written one after the other, each as in the session before the
chord. -/
theorem exists_gains_foldl_emit (ha : s.score.active = some a)
    (slots : List (List ResolvedEntry)) :
    ∃ b, (slots.foldl emit s).score.active = some b ∧
      a.Gains (slots.map fun slot => .tab (s.tabNote slot))
        (slots.map fun slot => .staff (s.staffNote slot)) b := by
  induction slots generalizing s a with
  | nil => exact ⟨a, ha, .of_marked (.refl a)⟩
  | cons slot slots ih =>
      obtain ⟨b, hb, hslot⟩ := exists_gains_emit ha slot
      obtain ⟨c, hc, hslots⟩ := ih hb
      have hframe := framed_emit (s := s) slot
      have htab : (s.emit slot).tabNote = s.tabNote := by
        funext entries
        simp only [tabNote, slotDuration, hframe.duration, hframe.settings]
      have hstaff : (s.emit slot).staffNote = s.staffNote := by
        funext entries
        simp only [staffNote, slotDuration, hframe.duration, hframe.clef]
      rw [htab, hstaff] at hslots
      exact ⟨c, hc, hslot.trans hslots⟩

/-- **A chord writes a note for every slot.** -/
theorem exists_gains_writeChord (ha : s.score.active = some a) (chord : List NoteEntry)
    (entries : List ResolvedEntry) (articulation : Option Articulation)
    (decorator : Option Decorator) :
    ∃ b, (s.writeChord chord entries articulation decorator).score.active = some b ∧
      a.Gains
        ((Chord.slots (Chord.placesOf chord) entries).map fun slot => .tab (s.tabNote slot))
        ((Chord.slots (Chord.placesOf chord) entries).map fun slot => .staff (s.staffNote slot))
        b := by
  obtain ⟨b, hb, hslots⟩ := exists_gains_foldl_emit ha (Chord.slots (Chord.placesOf chord) entries)
  obtain ⟨c, hc, hmarked⟩ := ((marked_applyChordTag chord.length articulation).trans
    (marked_decorateWith decorator)).exists_gains hb
  have hgains := hslots.trans hmarked
  rw [List.append_nil, List.append_nil] at hgains
  exact ⟨c, hc, hgains⟩

end Session

/-! ## Notes and columns -/

/-- A note on tablature after it has been marked or hidden. -/
theorem Tickable.Dressed.exists_tab {n : TabNote} {t : Tickable} (h : Dressed (.tab n) t) :
    ∃ ghost modifiers, t = .tab { n with ghost := ghost, modifiers := modifiers } := by
  induction h with
  | refl => exact ⟨n.ghost, n.modifiers, rfl⟩
  | mark index m _ ih =>
      obtain ⟨ghost, modifiers, rfl⟩ := ih
      exact ⟨ghost, modifiers ++ [⟨index, m⟩], rfl⟩
  | hide _ ih =>
      obtain ⟨_, modifiers, rfl⟩ := ih
      exact ⟨true, modifiers, rfl⟩

/-- A note on a staff after it has been marked: no accidental has been added. -/
theorem Marks.exists_staff {n : StaffNote} {t : Tickable} (h : Marks StaffAllows (.staff n) t) :
    ∃ modifiers, t = .staff { n with modifiers := modifiers } ∧
      ∀ key, accidentalsAt modifiers key = accidentalsAt n.modifiers key := by
  induction h with
  | refl => exact ⟨n.modifiers, rfl, fun _ => rfl⟩
  | @add u index m _ hallows ih =>
      obtain ⟨modifiers, rfl, hsame⟩ := ih
      have haccidental : m.accidental? = none := hallows.elim
        (fun h => m.accidental?_of_isPlain h.2) (fun h => m.accidental?_of_isFingerMark h.2)
      have hnew (key : Nat) : accidentalsAt [⟨index, m⟩] key = [] :=
        accidentalsAt_eq_nil (by simpa using haccidental) key
      refine ⟨modifiers ++ [⟨index, m⟩], rfl, fun key => ?_⟩
      rw [accidentalsAt_append, hnew, List.append_nil, hsame]

/-- Entries of a chord with what they are resolved to. -/
abbrev Chord.Column := List (NoteEntry × ResolvedEntry)

/-- How long the note of a column lasts: as its last entry says, or else as the duration in
force does. -/
def Chord.Column.Lasts (column : Chord.Column) (inForce duration : Duration) : Prop :=
  ∃ last ∈ column.getLast?,
    match last.1.time with
    | some time => Duration.read time last.1.dot = .ok duration
    | none => duration = inForce

/-- A note on tablature that holds the entries of a column. -/
structure TabNote.Holds (n : TabNote) (column : Chord.Column) : Prop where
  positions : n.positions = column.map (·.2.position)
  playNotes : n.playNotes = column.map (·.2.playNote)

/-- A note on a staff that holds the entries of a column, each key with its accidental. -/
structure StaffNote.Holds (n : StaffNote) (column : Chord.Column) : Prop where
  keys : n.keys = column.map (·.2.key)
  playNotes : n.playNotes = column.map (·.2.playNote)
  accidentals : ∀ i, accidentalsAt n.modifiers i = ((column[i]?).bind (·.2.mark)).toList

/-- A chord on a stave: the notes of both views are kept, marked at most, and after them each column
has become a note on tablature, and on the staff if there is one. -/
structure Stave.GainsColumns (inForce : Duration) (columns : List Chord.Column) (a b : Stave) :
    Prop where
  frame : b = { a with tabNotes := b.tabNotes, staffNotes := b.staffNotes }
  onTab : ∃ kept written, b.tabNotes = kept ++ written ∧
    List.Forall₂ Tickable.Dressed a.tabNotes kept ∧
    List.Forall₂ (fun column t => ∃ n, t = .tab n ∧ n.Holds column ∧
      column.Lasts inForce n.duration) columns written
  onStaff : ∃ kept written, b.staffNotes = kept ++ written ∧
    List.Forall₂ (Marks StaffAllows) a.staffNotes kept ∧
    List.Forall₂ (fun column t => ∃ n, t = .staff n ∧ n.Holds column ∧ n.rest = false ∧
      column.Lasts inForce n.duration) (if a.staff.isSome then columns else []) written

/-- What a note that is written for a column lasts. -/
theorem Chord.Column.lasts_slotDuration {column : Chord.Column} (hne : column ≠ [])
    (hread : ∀ pair ∈ column, ResolvedEntry.readDuration pair.1 = .ok pair.2.duration)
    (s : Session) : column.Lasts s.duration (s.slotDuration (column.map (·.2))) := by
  cases hlast : column.getLast? with
  | none => exact absurd (List.getLast?_eq_none_iff.1 hlast) hne
  | some last =>
      have hduration := hread last (List.mem_of_getLast? hlast)
      have hslot : s.slotDuration (column.map (·.2)) = last.2.duration.getD s.duration := by
        rw [Session.slotDuration, List.getLast?_map, hlast]
        rfl
      refine ⟨last, hlast, ?_⟩
      rw [hslot]
      unfold ResolvedEntry.readDuration at hduration
      cases htime : last.1.time with
      | none =>
          rw [htime] at hduration
          rw [← Except.ok.inj hduration]
          rfl
      | some time =>
          simp only [htime] at hduration ⊢
          cases htext : Duration.read time last.1.dot with
          | error cause =>
              rw [htext] at hduration
              cases hduration
          | ok duration =>
              rw [htext] at hduration
              rw [← Except.ok.inj hduration]
              rfl

/-- What has been written behind some notes can be told from these. -/
theorem exists_append_of_forall₂ {α β : Type} {R : α → β → Prop} {xs ys : List α} {zs : List β}
    (h : List.Forall₂ R (xs ++ ys) zs) :
    ∃ kept written, zs = kept ++ written ∧ List.Forall₂ R xs kept ∧ List.Forall₂ R ys written := by
  have hkept := List.forall₂_take xs.length h
  have hwritten := List.forall₂_drop xs.length h
  rw [List.take_left] at hkept
  rw [List.drop_left] at hwritten
  exact ⟨zs.take xs.length, zs.drop xs.length, (List.take_append_drop _ _).symm, hkept, hwritten⟩

theorem ResolvedEntry.readDuration_of_resolve {r : Resolver} {m m' : SpellingMemory} {e : NoteEntry}
    {entry : ResolvedEntry} (h : resolve r m e = (m', .ok entry)) :
    readDuration e = .ok entry.duration := by
  unfold resolve at h
  split at h
  · cases h
  · cases hduration : readDuration e with
    | error cause =>
        rw [hduration] at h
        cases h
    | ok duration =>
        rw [hduration] at h
        cases h
        rfl

namespace Session

variable {s : Session} {a b : Stave}

/-- The notes that are written for columns hold them. -/
theorem gainsColumns {columns : List Chord.Column} (hne : ∀ column ∈ columns, column ≠ [])
    (hread : ∀ column ∈ columns, ∀ pair ∈ column,
      ResolvedEntry.readDuration pair.1 = .ok pair.2.duration)
    (h : a.Gains (columns.map fun column => .tab (s.tabNote (column.map (·.2))))
      (columns.map fun column => .staff (s.staffNote (column.map (·.2)))) b) :
    a.GainsColumns s.duration columns b := by
  have hlasts : ∀ column ∈ columns,
      Chord.Column.Lasts column s.duration (s.slotDuration (column.map (·.2))) :=
    fun column hmem => Chord.Column.lasts_slotDuration (hne column hmem) (hread column hmem) s
  refine ⟨h.frame, ?_, ?_⟩
  · obtain ⟨kept, written, hnotes, hkept, hwritten⟩ := exists_append_of_forall₂ h.tabNotes
    refine ⟨kept, written, hnotes, hkept, ?_⟩
    rw [List.forall₂_map_left_iff] at hwritten
    refine ((List.forall₂_and_left columns written).2 ⟨hlasts, hwritten⟩).imp ?_
    rintro column t ⟨hlast, hdressed⟩
    obtain ⟨ghost, modifiers, rfl⟩ := hdressed.exists_tab
    exact ⟨_, rfl, ⟨by simp [tabNote], by simp [tabNote]⟩, hlast⟩
  · obtain ⟨kept, written, hnotes, hkept, hwritten⟩ := exists_append_of_forall₂ h.staffNotes
    refine ⟨kept, written, hnotes, hkept, ?_⟩
    split at hwritten
    · rw [List.forall₂_map_left_iff] at hwritten
      rw [if_pos ‹_›]
      refine ((List.forall₂_and_left columns written).2 ⟨hlasts, hwritten⟩).imp ?_
      rintro column t ⟨hlast, hmarks⟩
      obtain ⟨modifiers, rfl, hsame⟩ := hmarks.exists_staff
      refine ⟨_, rfl, ⟨by simp [staffNote], by simp [staffNote], fun i => ?_⟩, rfl, hlast⟩
      have hmark := Chord.accidentalsAt_accidentalMarks (column.map (·.2)) 0 i
      rw [Nat.zero_add, List.getElem?_map, Option.bind_map] at hmark
      exact (hsame i).trans hmark
    · rw [if_neg ‹_›]
      cases hwritten
      exact .nil

variable {chord : List NoteEntry} {m : SpellingMemory} {entries : List ResolvedEntry}

/-- A chord that is resolved on an open stave goes through, and every column becomes a note. -/
theorem exists_gainsColumns_addChord (ha : s.score.active = some a)
    (h : ResolvedEntry.resolveAll s.resolver s.memory chord = (m, .ok entries))
    (articulation : Option Articulation) (decorator : Option Decorator) :
    let columns := Chord.columns (Chord.runs (chord.zip entries))
    (s.addChord chord articulation decorator).fault = none ∧
      ({ s with memory := m } : Session).Framed (s.addChord chord articulation decorator).state ∧
      ∃ b, (s.addChord chord articulation decorator).state.score.active = some b ∧
        a.GainsColumns s.duration columns b := by
  intro columns
  have hresolved := ResolvedEntry.forall₂_of_resolveAll h
  have hchord : (chord.zip entries).map (·.1) = chord :=
    List.map_fst_zip (Nat.le_of_eq hresolved.length_eq)
  have hentries : (chord.zip entries).map (·.2) = entries :=
    List.map_snd_zip (Nat.le_of_eq hresolved.length_eq.symm)
  have hslots := Chord.slots_eq (chord.zip entries)
  rw [hchord, hentries] at hslots
  have hread : ∀ column ∈ columns, ∀ pair ∈ column,
      ResolvedEntry.readDuration pair.1 = .ok pair.2.duration := by
    intro column hcolumn pair hpair
    have hmem := (Chord.sublist_of_mem_columns hcolumn).mem hpair
    rw [Chord.flatten_runs] at hmem
    obtain ⟨_, _, hresolve⟩ := List.forall₂_zip hresolved hmem
    exact ResolvedEntry.readDuration_of_resolve hresolve
  -- A chord without entries is not written at all, so it is no case of the general one.
  by_cases hempty : chord.isEmpty
  · obtain rfl := List.isEmpty_iff.1 hempty
    cases h
    refine ⟨rfl, .refl s, a, ha, ?_⟩
    have hnone : a.Gains (([] : List Chord.Column).map fun column =>
        .tab (s.tabNote (column.map (·.2))))
        (([] : List Chord.Column).map fun column => .staff (s.staffNote (column.map (·.2)))) a :=
      .of_marked (.refl a)
    exact gainsColumns (List.forall_mem_nil _) (List.forall_mem_nil _) hnone
  · have hdone : s.addChord chord articulation decorator =
        .done (({ s with memory := m }).writeChord chord entries articulation decorator) := by
      rw [addChord, if_neg hempty, withStave, ha]
      simp only [h]
    obtain ⟨b, hb, hgains⟩ := exists_gains_writeChord (s := { s with memory := m }) ha chord entries
      articulation decorator
    rw [hslots, List.map_map, List.map_map] at hgains
    rw [hdone]
    exact ⟨rfl, framed_writeChord chord entries articulation decorator, b, hb,
      gainsColumns (fun _ => Chord.ne_nil_of_mem_columns) hread hgains⟩

/-- **A chord is written column by column.** On an open stave a chord that is resolved is cut into
runs, and its columns become notes: as many as the longest run has entries, each with the positions,
keys, pitches and accidentals of the entries at one place of their runs, in the order of the chord.
No entry is lost and none is written twice, and what is in force afterwards is what was in force
before. -/
theorem addChord_columns (ha : s.score.active = some a)
    (h : ResolvedEntry.resolveAll s.resolver s.memory chord = (m, .ok entries))
    (articulation : Option Articulation) (decorator : Option Decorator) :
    let t := (s.addChord chord articulation decorator).state
    let runs := Chord.runs (chord.zip entries)
    (s.addChord chord articulation decorator).fault = none ∧
      (∃ b, t.score.active = some b ∧ a.GainsColumns s.duration (Chord.columns runs) b) ∧
      (Chord.columns runs).length = Chord.longest runs ∧
      (Chord.columns runs).flatten.Perm (chord.zip entries) ∧
      (∀ column ∈ Chord.columns runs, column.Sublist (chord.zip entries)) ∧
      t.duration = s.duration ∧ t.octaveShift = s.octaveShift ∧ t.clef = s.clef ∧
      t.tuning = s.tuning := by
  intro t runs
  have hruns : runs.flatten = chord.zip entries := Chord.flatten_runs _
  obtain ⟨hdone, hframed, hwritten⟩ := exists_gainsColumns_addChord ha h articulation decorator
  refine ⟨hdone, hwritten, Chord.length_columns runs, hruns ▸ Chord.perm_columns runs,
    fun _ hcolumn => hruns ▸ Chord.sublist_of_mem_columns hcolumn, ?_⟩
  have ht : t = _ := hframed
  rw [ht]
  exact ⟨rfl, rfl, rfl, rfl⟩

/-- A fret on a string and nothing else. -/
def fretOn (fret string : Nat) : NoteEntry :=
  { time := none, dot := false, fret := some (.number fret), string := some string
    letterPitch := none, octave := none, articulation := none, decorator := none }

/-- Two notes on the first string and below them two on the second, the last of them by its
letter. -/
def melodyOverLetter : List NoteEntry :=
  [fretOn 3 1, { fretOn 5 1 with time := some "8" }, fretOn 1 2,
    { fretOn 0 2 with
      fret := none, letterPitch := some ⟨"C", some "#", none⟩, octave := some 4 }]

/-- The letter starts a run, so that three entries sound together before the second note of the
melody. -/
theorem addChord_columns_melodyOverLetter :
    let s := ((start .standard).addStave (.defaults .implicit)).state
    ∃ a m entries, s.score.active = some a ∧
      ResolvedEntry.resolveAll s.resolver s.memory melodyOverLetter = (m, .ok entries) ∧
      (Chord.columns (Chord.runs (melodyOverLetter.zip entries))).map List.length = [3, 1] ∧
      ∃ b, (s.addChord melodyOverLetter (some .slide) none).state.score.active = some b ∧
        a.GainsColumns .quarter (Chord.columns (Chord.runs (melodyOverLetter.zip entries))) b := by
  intro s
  have ha : s.score.active = some _ := rfl
  have h : ResolvedEntry.resolveAll s.resolver s.memory melodyOverLetter = (_, .ok _) := rfl
  exact ⟨_, _, _, ha, h, rfl, (addChord_columns ha h (some .slide) none).2.1⟩

end Session

end Tablature
