/-
# Tablature.Proofs.Drafts — chords of one slot, tagged in two ways.

A chord can be tagged as a whole, or each of its entries can be. The two ways meet the same slot in
another order: a chord tag comes after the slot has been written, tagged with nothing and decorated,
while the tags of entries come first. Both change no more of a session than its *draft*: the voices
in progress, the links, and the open bend. `addChord_eq_withDraft` says what each makes of it, in
terms of `Draft.close`, `Draft.decorate` and `Draft.tag`.
-/
import Tablature.Proofs.Anchors

namespace Tablature

/-! ## Tagged chords -/

/-- The entry with a tag. -/
def NoteEntry.tagged (tag : Articulation) (e : NoteEntry) : NoteEntry :=
  { e with articulation := some tag }

namespace ResolvedEntry

/-- The resolved entry with a tag. -/
def tagged (tag : Articulation) (e : ResolvedEntry) : ResolvedEntry :=
  { e with articulation := some tag }

theorem resolve_tagged (r : Resolver) (m : SpellingMemory) (tag : Articulation) (e : NoteEntry) :
    resolve r m (e.tagged tag) = ((resolve r m e).1, (resolve r m e).2.map (tagged tag)) := by
  have hentry : r.entry m (e.tagged tag) = r.entry m e := rfl
  have hduration : readDuration (e.tagged tag) = readDuration e := rfl
  simp only [resolve, hentry, hduration]
  split
  · rfl
  · cases readDuration e <;> rfl

/-- Tags have no part in how a chord is resolved. -/
theorem resolveAll_tagged (r : Resolver) (m : SpellingMemory) (tag : Articulation)
    (chord : List NoteEntry) : resolveAll r m (chord.map (.tagged tag)) =
      ((resolveAll r m chord).1, (resolveAll r m chord).2.map (List.map (tagged tag))) := by
  induction chord generalizing m with
  | nil => rfl
  | cons e chord ih =>
      rw [List.map_cons, resolveAll, resolveAll, resolve_tagged]
      rcases resolve r m e with ⟨m', cause | first⟩
      · rfl
      · dsimp only [Except.map]
        rw [ih]
        rcases resolveAll r m' chord with ⟨m'', cause | rest⟩ <;> rfl

/-- What a resolved entry takes over from the entry that it comes from. -/
structure Of (e : NoteEntry) (r : ResolvedEntry) : Prop where
  string : r.position.string = e.string.getD 0
  articulation : r.articulation = e.articulation
  decorator : r.decorator = e.decorator

theorem of_resolve {r : Resolver} {m m' : SpellingMemory} {e : NoteEntry} {entry : ResolvedEntry}
    (h : resolve r m e = (m', .ok entry)) : Of e entry := by
  unfold resolve at h
  split at h
  · cases h
  · cases hduration : readDuration e with
    | error cause =>
        rw [hduration] at h
        cases h
    | ok duration =>
        rw [hduration] at h
        cases h
        exact ⟨rfl, rfl, rfl⟩

theorem of_resolveAll {r : Resolver} {m m' : SpellingMemory} {chord : List NoteEntry}
    {entries : List ResolvedEntry} (h : resolveAll r m chord = (m', .ok entries)) :
    List.Forall₂ Of chord entries :=
  (forall₂_of_resolveAll h).imp fun _ _ ⟨_, _, hresolve⟩ => of_resolve hresolve

end ResolvedEntry

namespace Chord

theorem places_tagged (tag : Articulation) (string : Option Nat) (next : Nat)
    (entries : List NoteEntry) :
    places string next (entries.map (.tagged tag)) = places string next entries := by
  induction entries generalizing string next with
  | nil => rfl
  | cons e entries ih => simp only [List.map_cons, places, ih, NoteEntry.tagged]

theorem placesOf_tagged (tag : Articulation) (chord : List NoteEntry) :
    placesOf (chord.map (.tagged tag)) = placesOf chord := by
  cases chord with
  | nil => rfl
  | cons e entries => exact places_tagged tag e.string 0 (e :: entries)

/-- A chord whose entries are all at the first place is one slot. -/
theorem slots_of_places_zero {chord : List NoteEntry} {entries : List ResolvedEntry}
    (hne : chord ≠ []) (hzero : ∀ place ∈ placesOf chord, place = 0)
    (hlen : entries.length = chord.length) : slots (placesOf chord) entries = [entries] := by
  have hplaces : placesOf chord = List.replicate chord.length 0 :=
    List.eq_replicate_iff.2 ⟨length_placesOf chord, hzero⟩
  have hcount (n : Nat) :
      (List.replicate n 0).foldl (fun count place => max count (place + 1)) 1 = 1 := by
    induction n with
    | zero => rfl
    | succ n ih => exact ih
  have hentries (n : Nat) (values : List ResolvedEntry) (h : values.length = n) :
      entriesAt 0 ((List.replicate n 0).zip values) = values := by
    subst h
    induction values with
    | nil => rfl
    | cons value values ih => exact congrArg (value :: ·) ih
  obtain ⟨e, rest, rfl⟩ := List.exists_cons_of_ne_nil hne
  rw [hplaces, slots, List.length_cons, List.replicate_succ, List.foldl_cons]
  show (List.range ((List.replicate rest.length 0).foldl _ 1)).map _ = _
  rw [hcount]
  exact congrArg (fun slot => [slot]) (hentries _ _ hlen)

end Chord

/-! ## Drafts -/

/-- What tags, decorations and closed bends change of a session. -/
@[ext] structure Draft where
  tabNotes : List Tickable
  staffNotes : List Tickable
  tabLinks : List TabLink
  staffLinks : List StaffLink
  bend : Option BendChain

/-- The stave with the voices in progress of a draft. -/
def Stave.withDraft (a : Stave) (d : Draft) : Stave :=
  { a with tabNotes := d.tabNotes, staffNotes := d.staffNotes }

/-- The session with a draft in the place of its own, on its active stave. -/
def Session.withDraft (s : Session) (a : Stave) (d : Draft) : Session :=
  { s with
    score :=
      { s.score with
        active := some (a.withDraft d)
        tabLinks := d.tabLinks
        staffLinks := d.staffLinks }
    bend := d.bend }

theorem Session.withDraft_inj {s : Session} {a : Stave} {d d' : Draft} :
    s.withDraft a d = s.withDraft a d' ↔ d = d' := by
  refine ⟨fun h => ?_, congrArg _⟩
  have hactive : a.withDraft d = a.withDraft d' :=
    Option.some.inj (congrArg (fun s => s.score.active) h)
  have htab : d.tabNotes = d'.tabNotes := congrArg Stave.tabNotes hactive
  have hstaff : d.staffNotes = d'.staffNotes := congrArg Stave.staffNotes hactive
  have htabLinks : d.tabLinks = d'.tabLinks := congrArg (fun s => s.score.tabLinks) h
  have hstaffLinks : d.staffLinks = d'.staffLinks := congrArg (fun s => s.score.staffLinks) h
  have hbend : d.bend = d'.bend := congrArg Session.bend h
  cases d
  cases d'
  simp only [Draft.mk.injEq]
  exact ⟨htab, hstaff, htabLinks, hstaffLinks, hbend⟩

/-- The mark that a decoration draws. -/
def Decorator.mark : Decorator → Modifier
  | .vibrato => .vibrato false
  | .harshVibrato => .vibrato true
  | .upStroke => Session.strokeMark "a|"
  | .downStroke => Session.strokeMark "am"

/-- Is the decoration drawn on a staff too? -/
def Decorator.onStaff : Decorator → Bool
  | .vibrato | .harshVibrato => false
  | .upStroke | .downStroke => true

/-- Does the tag join notes, so that it is more than a mark? -/
def Articulation.joins : Articulation → Bool
  | .vibrato | .harshVibrato => false
  | _ => true

/-- The link that a tag draws on tablature, if it draws one. -/
def TabLink.ofTag? (tag : Articulation) (link : Link) : Option TabLink :=
  match tag with
  | .slide => some (.slide link)
  | .hammerOn => some (.tie link "H")
  | .pullOff => some (.tie link "P")
  | .tap | .tapTie => some (.tie link " ")
  | .bend | .vibrato | .harshVibrato => none

/-- The mark that a tag draws on tablature. -/
def Session.tagMark? (s : Session) (a : Stave) : Articulation → Option Modifier
  | .vibrato => some (.vibrato false)
  | .harshVibrato => some (.vibrato true)
  | .tap => if a.tab.isSome then some s.tapCaption else none
  | _ => none

/-- The span that a tag on all positions of the last note draws, if it draws any. -/
def Span.drawn? (tag : Articulation) (notes : List Tickable) (size : Nat) : Option Span :=
  if tag.joins then (ofNotes? notes (List.range size)).filter fun span => !span.isEmpty else none

/-- A voice with a mark at its last object. -/
def markLast (mark : Option Modifier) (notes : List Tickable) : List Tickable :=
  match mark with
  | some mark => notes.modify (notes.length - 1) (.mark 0 mark)
  | none => notes

@[simp] theorem length_markLast (mark : Option Modifier) (notes : List Tickable) :
    (markLast mark notes).length = notes.length := by
  cases mark with
  | none => rfl
  | some mark => exact List.length_modify _ _ _

namespace Draft

/-- The draft with its open bend closed before the last object. -/
def close (d : Draft) : Draft :=
  match d.bend with
  | some chain => { d with tabNotes := chain.close false d.tabNotes, bend := none }
  | none => d

/-- The draft with its last objects decorated. -/
def decorate (decorator : Option Decorator) (d : Draft) : Draft :=
  { d with
    tabNotes := markLast (decorator.map Decorator.mark) d.tabNotes
    staffNotes := markLast ((decorator.filter Decorator.onStaff).map Decorator.mark) d.staffNotes }

/-- The draft with a span drawn, if there is one. -/
def draw (s : Session) (a : Stave) (tag : Articulation) (d : Draft) (span : Option Span) : Draft :=
  let links :=
    if a.tab.isSome then span.bind fun span => TabLink.ofTag? tag (s.tabLinkOf (a.withDraft d) span)
    else none
  let ties :=
    if a.staff.isSome then span.map fun span => .tie (s.staffLinkOf (a.withDraft d) span) else none
  { d with
    tabLinks := d.tabLinks ++ links.toList
    staffLinks := d.staffLinks ++ ties.toList
    bend :=
      match span with
      | some span =>
          if tag = .bend ∧ a.tab.isSome then
            ((s.withDraft a d).openBends span.previous span.previousIndices
              span.currentIndices).bend
          else d.bend
      | none => d.bend }

/-- The draft with all positions of its last note tagged. -/
def tag (s : Session) (a : Stave) (tag : Articulation) (size : Nat) (d : Draft) : Draft :=
  draw s a tag { d with tabNotes := markLast (s.tagMark? a tag) d.tabNotes }
    (Span.drawn? tag d.tabNotes size)

@[simp] theorem length_close (d : Draft) : d.close.tabNotes.length = d.tabNotes.length := by
  unfold close
  split
  · simp [BendChain.close, BendChain.hideRange]
  · rfl

@[simp] theorem bend_close (d : Draft) : d.close.bend = none := by
  unfold close
  split
  · rfl
  · assumption

theorem close_of_none {d : Draft} (h : d.bend = none) : d.close = d := by
  unfold close
  rw [h]

theorem close_of_some {d : Draft} {chain : BendChain} (h : d.bend = some chain) :
    d.close = { d with tabNotes := chain.close false d.tabNotes, bend := none } := by
  unfold close
  rw [h]

theorem bend_tag (s : Session) (a : Stave) {tag : Articulation} (htag : tag ≠ .bend) (size : Nat)
    (d : Draft) : (d.tag s a tag size).bend = d.bend := by
  simp only [Draft.tag, draw, htag, false_and, if_false]
  split <;> rfl

@[simp] theorem draw_none (s : Session) (a : Stave) (tag : Articulation) (d : Draft) :
    d.draw s a tag none = d := by
  simp [draw]

end Draft

namespace Session

variable {s : Session} {a : Stave} {d : Draft}

theorem closeBends_withDraft : (s.withDraft a d).closeBends false = s.withDraft a d.close := by
  obtain ⟨tabNotes, staffNotes, tabLinks, staffLinks, bend⟩ := d
  cases bend <;> rfl

theorem decorateWith_withDraft (decorator : Option Decorator) :
    (s.withDraft a d).decorateWith decorator = s.withDraft a (d.decorate decorator) := by
  cases decorator with
  | none => rfl
  | some decorator => cases decorator <;> rfl

theorem openBends_eq (earlier : Nat) (firstIndices lastIndices : List Nat) :
    s.openBends earlier firstIndices lastIndices =
      { s with bend := (s.openBends earlier firstIndices lastIndices).bend } := by
  unfold openBends
  dsimp only
  split <;> rfl

theorem articulateTab_withDraft (tag : Articulation) (span : Span) :
    (s.withDraft a d).articulateTab (a.withDraft d) tag span =
      s.withDraft a { d with
        tabLinks := d.tabLinks ++ (TabLink.ofTag? tag (s.tabLinkOf (a.withDraft d) span)).toList
        bend :=
          if tag = .bend then
            ((s.withDraft a d).openBends span.previous span.previousIndices
              span.currentIndices).bend
          else d.bend } := by
  cases tag with
  | bend =>
      show (s.withDraft a d).openBends _ _ _ = _
      rw [openBends_eq]
      simp [TabLink.ofTag?, withDraft, Stave.withDraft]
  | vibrato => simp [articulateTab, TabLink.ofTag?]
  | harshVibrato => simp [articulateTab, TabLink.ofTag?]
  | _ => rfl

theorem linkSpan_withDraft (tag : Articulation) (span : Option Span) :
    (s.withDraft a d).linkSpan (a.withDraft d) tag span =
      s.withDraft a (d.draw s a tag (span.filter fun span => !span.isEmpty)) := by
  cases span with
  | none => rw [Option.filter_none, Draft.draw_none, linkSpan]
  | some span =>
      simp only [linkSpan, Option.filter_some]
      cases span.isEmpty with
      | true => simp
      | false =>
          have htab : (a.withDraft d).tab = a.tab := rfl
          have hstaff : (a.withDraft d).staff = a.staff := rfl
          simp only [htab, hstaff, articulateTab_withDraft, Draft.draw]
          cases a.tab <;> cases a.staff <;>
            simp [withDraft, Stave.withDraft, addStaffLink, staffLinkOf, staffAddress]

/-- A tap is linked as the stave was before its mark. -/
theorem linkSpan_markLast (t : Session) (mark : Option Modifier) (tag : Articulation)
    (span : Option Span) : t.linkSpan (a.withDraft d) tag span =
      t.linkSpan (a.withDraft { d with tabNotes := markLast mark d.tabNotes }) tag span := by
  have onTab (span : Span) : t.tabLinkOf (a.withDraft d) span =
      t.tabLinkOf (a.withDraft { d with tabNotes := markLast mark d.tabNotes }) span := by
    simp [tabLinkOf, tabAddress, Stave.withDraft]
  cases span with
  | none => rfl
  | some span =>
      simp only [linkSpan, articulateTab, onTab]
      rfl

theorem articulate_withDraft (tag : Articulation) (size : Nat) :
    (s.withDraft a d).articulate (a.withDraft d) tag (List.range size) =
      s.withDraft a (d.tag s a tag size) := by
  have joined (htag : tag.joins) : (s.withDraft a { d with
      tabNotes := markLast (s.tagMark? a tag) d.tabNotes }).linkSpan (a.withDraft d) tag
        (Span.ofNotes? d.tabNotes (List.range size)) = s.withDraft a (d.tag s a tag size) := by
    rw [linkSpan_markLast _ (s.tagMark? a tag), linkSpan_withDraft, Draft.tag, Span.drawn?,
      if_pos htag]
  cases tag with
  | vibrato | harshVibrato =>
      rw [Draft.tag, Span.drawn?, if_neg (by decide), Draft.draw_none]
      rfl
  | tap =>
      rw [← joined rfl]
      have htab : (a.withDraft d).tab = a.tab := rfl
      simp only [articulate, tagMark?, htab]
      cases a.tab <;> rfl
  | _ => exact joined rfl

theorem indicesWhere_replicate (tag tag' : Articulation) (size start : Nat) :
    indicesWhere (· == some tag') (List.replicate size (some tag)) start =
      if tag = tag' then List.range' start size else [] := by
  induction size generalizing start with
  | zero => simp [indicesWhere]
  | succ size ih =>
      rw [List.replicate_succ, indicesWhere, ih]
      by_cases h : tag = tag' <;> simp [h, List.range'_succ]

/-- One tag on all positions of the last note. -/
theorem applyTags_withDraft (hnotes : d.tabNotes ≠ []) (tag : Articulation) (size : Nat) :
    (s.withDraft a d).applyTags (List.replicate (size + 1) (some tag)) =
      s.withDraft a
        (if tag = .bend then d.tag s a tag (size + 1) else (d.tag s a tag (size + 1)).close) := by
  have hsome : ((s.withDraft a d).tabNotes.isEmpty ||
      (List.replicate (size + 1) (some tag)).all Option.isNone) = false := by
    have hne : (s.withDraft a d).tabNotes ≠ [] := hnotes
    rw [Bool.or_eq_false_iff]
    exact ⟨by simpa using hne, by simp⟩
  have other (t : Session) {tag' : Articulation} (h : tag ≠ tag') :
      articulateTagged (List.replicate (size + 1) (some tag)) t tag' = t := by
    rw [articulateTagged, indicesWhere_replicate, if_neg h]
  have same : articulateTagged (List.replicate (size + 1) (some tag)) (s.withDraft a d) tag =
      s.withDraft a (d.tag s a tag (size + 1)) := by
    rw [articulateTagged, indicesWhere_replicate, if_pos rfl, ← articulate_withDraft,
      List.range_eq_range']
    rfl
  have folded : Articulation.all.foldl (articulateTagged (List.replicate (size + 1) (some tag)))
      (s.withDraft a d) = s.withDraft a (d.tag s a tag (size + 1)) := by
    cases tag <;> simp [Articulation.all, other, same]
  rw [applyTags, hsome, if_neg (by simp), folded]
  cases tag <;> simp [closeBends_withDraft]

/-- Without tags the open bend is closed. -/
theorem applyTags_none (size : Nat) :
    (s.withDraft a d).applyTags (List.replicate size none) = s.withDraft a d.close := by
  rw [applyTags, if_pos (by simp), closeBends_withDraft]

/-! ## Both ways -/

/-- The draft of a session after a slot has been pushed. -/
def draftWith (s : Session) (a : Stave) (entries : List ResolvedEntry) : Draft :=
  let pushed := a.push (.tab (s.tabNote entries)) (.staff (s.staffNote entries))
  { tabNotes := pushed.tabNotes
    staffNotes := pushed.staffNotes
    tabLinks := s.score.tabLinks
    staffLinks := s.score.staffLinks
    bend := s.bend }

theorem emit_eq (ha : s.score.active = some a) (entries : List ResolvedEntry) :
    s.emit entries = ((s.withDraft a (s.draftWith a entries)).applyTags
      (entries.map (·.articulation))).decorateWith
        (Chord.lastSome (entries.map (·.decorator))) := by
  rw [emit, onActive_eq ha]
  rfl

theorem draftWith_tagged (tag : Articulation) (entries : List ResolvedEntry) :
    s.draftWith a (entries.map (.tagged tag)) = s.draftWith a entries := by
  have hmarks (start : Nat) : Chord.accidentalMarks (entries.map (.tagged tag)) start =
      Chord.accidentalMarks entries start := by
    induction entries generalizing start with
    | nil => rfl
    | cons e entries ih => simp only [List.map_cons, Chord.accidentalMarks, ih]; rfl
  have hduration : s.slotDuration (entries.map (.tagged tag)) = s.slotDuration entries := by
    rw [slotDuration, slotDuration, List.getLast?_map]
    cases entries.getLast? <;> rfl
  simp only [draftWith, tabNote, staffNote, hduration, hmarks, List.map_map]
  rfl

theorem draftWith_ne_nil (entries : List ResolvedEntry) :
    (s.draftWith a entries).tabNotes ≠ [] := by
  simp [draftWith, Stave.push]

/-- A slot without tags closes the open bend and is decorated. -/
theorem emit_untagged (ha : s.score.active = some a) {entries : List ResolvedEntry}
    (h : ∀ e ∈ entries, e.articulation = none) :
    s.emit entries = s.withDraft a ((s.draftWith a entries).close.decorate
      (Chord.lastSome (entries.map (·.decorator)))) := by
  rw [emit_eq ha, List.map_eq_replicate_iff.2 h, applyTags_none, decorateWith_withDraft]

/-- A slot with one tag on all its entries is joined and decorated. -/
theorem emit_tagged (ha : s.score.active = some a) {entries : List ResolvedEntry} {size : Nat}
    (hsize : entries.length = size + 1) (tag : Articulation) :
    let d := s.draftWith a entries
    s.emit (entries.map (.tagged tag)) = s.withDraft a
      ((if tag = .bend then d.tag s a tag (size + 1) else (d.tag s a tag (size + 1)).close).decorate
        (Chord.lastSome (entries.map (·.decorator)))) := by
  have htags : (entries.map (ResolvedEntry.tagged tag)).map (·.articulation) =
      List.replicate (size + 1) (some tag) := by
    rw [List.map_map, ← hsize]
    exact List.map_eq_replicate_iff.2 fun _ _ => rfl
  have hdecorators : (entries.map (ResolvedEntry.tagged tag)).map (·.decorator) =
      entries.map (·.decorator) := by
    rw [List.map_map]
    rfl
  rw [emit_eq ha, draftWith_tagged, htags, hdecorators, applyTags_withDraft (draftWith_ne_nil _),
    decorateWith_withDraft]

section Chord

variable {chord : List NoteEntry} {m : SpellingMemory} {entries : List ResolvedEntry}

/-- A chord of one slot that is resolved writes it. -/
theorem addChord_of_slot (ha : s.score.active = some a)
    (hzero : ∀ place ∈ Chord.placesOf chord, place = 0) (hne : chord ≠ [])
    (h : ResolvedEntry.resolveAll s.resolver s.memory chord = (m, .ok entries)) :
    s.addChord chord none none = .done ({ s with memory := m }.emit entries) := by
  have hslots := Chord.slots_of_places_zero hne hzero (ResolvedEntry.length_of_resolveAll h)
  rw [addChord, if_neg (by simpa using hne), withStave, ha]
  simp only [h, writeChord, hslots]
  rfl

/-- A chord of one slot that is resolved writes it and applies its tag afterwards. -/
theorem addChord_tag_of_slot (ha : s.score.active = some a)
    (hzero : ∀ place ∈ Chord.placesOf chord, place = 0) (hne : chord ≠ [])
    (h : ResolvedEntry.resolveAll s.resolver s.memory chord = (m, .ok entries))
    (tag : Articulation) :
    s.addChord chord (some tag) none = .done (({ s with memory := m }.emit entries).applyTags
      (List.replicate chord.length (some tag))) := by
  have hslots := Chord.slots_of_places_zero hne hzero (ResolvedEntry.length_of_resolveAll h)
  rw [addChord, if_neg (by simpa using hne), withStave, ha]
  simp only [h, writeChord, hslots]
  rfl

/-- What a chord of one slot does, if it is resolved, with a tag or with tagged entries. -/
theorem addChord_eq_withDraft (ha : s.score.active = some a)
    (hzero : ∀ place ∈ Chord.placesOf chord, place = 0)
    (huntagged : ∀ e ∈ chord, e.articulation = none) (hne : chord ≠ [])
    (h : ResolvedEntry.resolveAll s.resolver s.memory chord = (m, .ok entries))
    (tag : Articulation) :
    let s' := { s with memory := m }
    let d := s'.draftWith a entries
    let decorator := Chord.lastSome (chord.map (·.decorator))
    s.addChord chord (some tag) none =
        .done (s'.withDraft a ((d.close.decorate decorator).tag s' a tag chord.length)) ∧
      s.addChord (chord.map (.tagged tag)) none none =
        .done (s'.withDraft a
          ((if tag = .bend then d.tag s' a tag chord.length
            else (d.tag s' a tag chord.length).close).decorate decorator)) := by
  intro s' d decorator
  have ha' : s'.score.active = some a := ha
  have hof := ResolvedEntry.of_resolveAll h
  have hdecorators : entries.map (·.decorator) = chord.map (·.decorator) :=
    map_eq_of_forall₂ hof fun _ _ hof => hof.decorator
  have hnone : ∀ e ∈ entries, e.articulation = none := by
    have hmap : entries.map (·.articulation) = chord.map (·.articulation) :=
      map_eq_of_forall₂ hof fun _ _ hof => hof.articulation
    intro e he
    obtain ⟨e', he', heq⟩ := List.mem_map.1 (hmap ▸ List.mem_map_of_mem he)
    exact heq.symm.trans (huntagged e' he')
  obtain ⟨size, hsize⟩ : ∃ size, chord.length = size + 1 :=
    Nat.exists_eq_succ_of_ne_zero (mt List.length_eq_zero_iff.1 hne)
  constructor
  · have hdecorated : (d.close.decorate decorator).tabNotes ≠ [] := by
      have hnotes : d.tabNotes ≠ [] := draftWith_ne_nil entries
      rw [← List.length_pos_iff] at hnotes ⊢
      simpa [Draft.decorate] using hnotes
    -- No bend is open any more that could be closed.
    have hclosed : (if tag = .bend then (d.close.decorate decorator).tag s' a tag (size + 1)
        else ((d.close.decorate decorator).tag s' a tag (size + 1)).close) =
        (d.close.decorate decorator).tag s' a tag (size + 1) := by
      split
      · rfl
      · rename_i htag
        exact Draft.close_of_none ((Draft.bend_tag s' a htag _ _).trans d.bend_close)
    rw [addChord_tag_of_slot ha hzero hne h, emit_untagged ha' hnone, hdecorators, hsize,
      applyTags_withDraft hdecorated, hclosed]
  · have hresolved : ResolvedEntry.resolveAll s.resolver s.memory (chord.map (.tagged tag)) =
        (m, .ok (entries.map (.tagged tag))) := by
      rw [ResolvedEntry.resolveAll_tagged, h]
      rfl
    have hzero' : ∀ place ∈ Chord.placesOf (chord.map (.tagged tag)), place = 0 := by
      rwa [Chord.placesOf_tagged]
    rw [addChord_of_slot ha hzero' (by simpa using hne) hresolved,
      emit_tagged ha' ((ResolvedEntry.length_of_resolveAll h).trans hsize), hdecorators, hsize]

end Chord

end Session

end Tablature
