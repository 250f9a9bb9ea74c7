/-
# Tablature.Proofs.Veils — what the marks at keys have no influence on.

A *veil* over a score hides some of the accidentals that are drawn at the keys of its staves, and
may make its settings name another strategy for them. Operations do not look behind it: whatever is
done to a veiled session is what would have been done to the session, under the same veil, and it
goes through or stops alike (`Session.veil_handle`, `Session.veil_writeChord`). Options alone choose
the strategy, and chords alone read it.
-/
import Tablature.Proofs.ChordSlots
import Tablature.Proofs.Strategies
import Tablature.Session.Event

namespace Tablature

/-! ## Veils -/

/-- Which strategy is named in the place of one, and which accidentals are left. -/
structure Veil where
  strategy : AccidentalStrategy → AccidentalStrategy
  shows : AccidentalMark → Bool

/-- Is a mark left? Marks that are no accidentals are. -/
def Veil.leaves (v : Veil) (mark : Attached) : Bool := mark.modifier.accidental?.all v.shows

/-- The veil that hides nothing, over settings with a strategy. -/
def Veil.clear (strategy : AccidentalStrategy) : Veil := ⟨fun _ => strategy, fun _ => true⟩

/-- An object of a staff under a veil. -/
def Tickable.veil (v : Veil) : Tickable → Tickable
  | staff n => staff { n with modifiers := n.modifiers.filter v.leaves }
  | t => t

/-- A stave under a veil. Tablature has no keys. -/
def Stave.veil (v : Veil) (a : Stave) : Stave :=
  { a with
    staffVoices := a.staffVoices.map (List.map (Tickable.veil v))
    staffNotes := a.staffNotes.map (Tickable.veil v) }

/-- Settings under a veil. -/
def Settings.veil (v : Veil) (s : Settings) : Settings :=
  { s with accidentals := v.strategy s.accidentals }

/-- A score under a veil. -/
def Score.veil (v : Veil) (s : Score) : Score :=
  { s.onEvery (Stave.veil v) with settings := s.settings.veil v }

/-- A session with its score under a veil. -/
def Session.veil (v : Veil) (s : Session) : Session := { s with score := s.score.veil v }

/-- A resolved entry under a veil. -/
def ResolvedEntry.veil (v : Veil) (e : ResolvedEntry) : ResolvedEntry :=
  { e with mark := e.mark.filter v.shows }

variable (v : Veil)

/-! ## Objects -/

namespace Tickable

/-- Any mark that is no accidental can be made under a veil. -/
theorem veil_mark {m : Modifier} (h : m.accidental? = none) (index : Nat) (t : Tickable) :
    (t.veil v).mark index m = (t.mark index m).veil v := by
  cases t with
  | staff n => simp [veil, mark, Veil.leaves, h]
  | _ => rfl

@[simp] theorem keyCount_veil (t : Tickable) : (t.veil v).keyCount = t.keyCount := by
  cases t <;> rfl

@[simp] theorem bar?_veil (t : Tickable) : (t.veil v).bar? = t.bar? := by
  cases t <;> rfl

theorem veil_scaleTicks (factor : Ticks) (t : Tickable) :
    (t.veil v).scaleTicks factor = (t.scaleTicks factor).veil v := by
  cases t <;> rfl

end Tickable

@[simp] theorem endBar?_veil (notes : List Tickable) :
    endBar? (notes.map (Tickable.veil v)) = endBar? notes := by
  rw [endBar?, endBar?, List.getLast?_map]
  cases notes.getLast? with
  | none => rfl
  | some t => exact t.bar?_veil v

theorem veil_scaleLast (count : Nat) (factor : Ticks) (notes : List Tickable) :
    Session.scaleLast count factor (notes.map (Tickable.veil v)) =
      (Session.scaleLast count factor notes).map (Tickable.veil v) := by
  simp [Session.scaleLast, Tickable.veil_scaleTicks, Function.comp_def]

theorem veil_markLast {m : Modifier} (h : m.accidental? = none) (index : Nat)
    (notes : List Tickable) :
    (notes.map (Tickable.veil v)).modify ((notes.map (Tickable.veil v)).length - 1)
        (Tickable.mark index m) =
      (notes.modify (notes.length - 1) (Tickable.mark index m)).map (Tickable.veil v) := by
  rw [List.length_map]
  refine List.ext_getElem? fun i => ?_
  simp only [List.getElem?_modify, List.getElem?_map]
  cases notes[i]? with
  | none => rfl
  | some t =>
      refine congrArg some ?_
      split
      · exact t.veil_mark v h index
      · rfl

/-! ### Tokens -/

theorem Markup.accidental?_of_sharedMark? {m : Markup} {mark : Modifier}
    (h : m.sharedMark? = some mark) : mark.accidental? = none := by
  cases m <;> cases h <;> rfl

theorem FingerMark.accidental?_modifier (m : FingerMark) : m.modifier.accidental? = none := by
  unfold FingerMark.modifier
  split <;> rfl

namespace PlacedToken

theorem veil_captionOnStaff (t : PlacedToken) (note : Tickable) :
    t.captionOnStaff (note.veil v) = (t.captionOnStaff note).veil v := by
  unfold captionOnStaff
  split
  · exact note.veil_mark v rfl 0
  · rfl

theorem veil_addFingers (token : String) (keys : Nat) (marks : List FingerMark)
    (note : Tickable) :
    addFingers token keys marks (note.veil v) =
      (addFingers token keys marks note).mapState (Tickable.veil v) := by
  induction marks generalizing note with
  | nil => rfl
  | cons m marks ih =>
      rw [addFingers, addFingers]
      split
      · rfl
      · rw [note.veil_mark v m.accidental?_modifier, ih]

theorem veil_onStaff (t : PlacedToken) (note : Tickable) :
    t.onStaff (note.veil v) = (t.onStaff note).mapState (Tickable.veil v) := by
  unfold onStaff
  split
  · rw [note.keyCount_veil, veil_addFingers]
  · split
    · rename_i hmark
      exact congrArg Outcome.done (note.veil_mark v (Markup.accidental?_of_sharedMark? hmark) 0)
    · rfl

variable {f : Tickable → Tickable}

theorem applyTo_map {onNote : PlacedToken → Tickable → Tickable}
    (h : ∀ t note, onNote t (f note) = f (onNote t note)) (tokens : List PlacedToken)
    (notes : List Tickable) :
    applyTo onNote tokens (notes.map f) = (applyTo onNote tokens notes).map f := by
  induction tokens generalizing notes with
  | nil => simp [applyTo]
  | cons t tokens ih =>
      cases notes with
      | nil => rfl
      | cons note notes => rw [List.map_cons, applyTo, applyTo, List.map_cons, h, ih]

theorem applyLast_map {onNote : PlacedToken → Tickable → Tickable}
    (h : ∀ t note, onNote t (f note) = f (onNote t note)) (tokens : List PlacedToken)
    (notes : List Tickable) :
    applyLast onNote tokens (notes.map f) = (applyLast onNote tokens notes).map f := by
  simp only [applyLast, List.length_map, List.map_append, ← List.map_take, ← List.map_drop,
    applyTo_map h]

theorem applyUntil_map {onNote : PlacedToken → Tickable → Outcome Cause Tickable}
    (h : ∀ t note, onNote t (f note) = (onNote t note).mapState f) (tokens : List PlacedToken)
    (notes : List Tickable) :
    applyUntil onNote tokens (notes.map f) =
      (applyUntil onNote tokens notes).mapState (List.map f) := by
  induction tokens generalizing notes with
  | nil => simp [applyUntil, Outcome.mapState, Outcome.done]
  | cons t tokens ih =>
      cases notes with
      | nil => rfl
      | cons note notes =>
          rw [List.map_cons, applyUntil, applyUntil, h]
          obtain ⟨marked, _ | cause⟩ := onNote t note
          · dsimp only [Outcome.mapState]
            rw [ih]
            rfl
          · rfl

theorem applyLastUntil_map {onNote : PlacedToken → Tickable → Outcome Cause Tickable}
    (h : ∀ t note, onNote t (f note) = (onNote t note).mapState f) (tokens : List PlacedToken)
    (notes : List Tickable) :
    applyLastUntil onNote tokens (notes.map f) =
      (applyLastUntil onNote tokens notes).mapState (List.map f) := by
  simp only [applyLastUntil, List.length_map, ← List.map_take, ← List.map_drop, applyUntil_map h,
    Outcome.mapState, List.map_append]

end PlacedToken

/-! ## Staves -/

namespace Stave

theorem veil_push (a : Stave) (onTab onStaff : Tickable) :
    (a.veil v).push onTab (onStaff.veil v) = (a.push onTab onStaff).veil v := by
  obtain ⟨tab, staff, _⟩ := a
  cases staff <;> simp [push, veil]

theorem veil_closeVoice (a : Stave) : (a.veil v).closeVoice = a.closeVoice.veil v := by
  have hvoices : withVoice (a.staffVoices.map (List.map (Tickable.veil v)))
      (a.staffNotes.map (Tickable.veil v)) =
      (withVoice a.staffVoices a.staffNotes).map (List.map (Tickable.veil v)) := by
    unfold withVoice
    rw [List.isEmpty_map]
    split <;> simp
  simp only [closeVoice, veil, hvoices, List.map_nil]

theorem veil_finish (a : Stave) : (a.veil v).finish = a.finish.veil v := by
  have onTab : (a.veil v).finishTab = a.finishTab.veil v := by
    unfold finishTab
    dsimp only [veil]
    split <;> rfl
  have onStaff (a : Stave) : (a.veil v).finishStaff = a.finishStaff.veil v := by
    unfold finishStaff
    dsimp only [veil]
    rw [endBar?_veil]
    split
    · simp
    · rfl
  rw [finish, finish, onTab, onStaff, veil_closeVoice]

end Stave

/-! ## Chords -/

namespace Chord

theorem accidentalMarks_veil (entries : List ResolvedEntry) (start : Nat) :
    accidentalMarks (entries.map (ResolvedEntry.veil v)) start =
      (accidentalMarks entries start).filter v.leaves := by
  induction entries generalizing start with
  | nil => rfl
  | cons e entries ih =>
      rw [List.map_cons, accidentalMarks, accidentalMarks, ih]
      cases hmark : e.mark with
      | none => simp [ResolvedEntry.veil, hmark]
      | some mark =>
          have hleaves : v.leaves ⟨start, .accidental mark.accidental mark.cautionary⟩ =
              v.shows mark := rfl
          simp only [ResolvedEntry.veil, hmark, Option.filter_some, List.filter_cons, hleaves]
          cases v.shows mark <;> rfl

theorem slots_map (f : ResolvedEntry → ResolvedEntry) (places : List Nat)
    (entries : List ResolvedEntry) :
    slots places (entries.map f) = (slots places entries).map (List.map f) := by
  simp only [slots, List.map_map]
  congr 1
  funext place
  simp only [entriesAt, Function.comp_apply, List.zip_map_right, List.filter_map,
    List.map_map]
  rfl

end Chord

/-! ## Sessions -/

namespace Session

variable {s : Session}

theorem active_veil (s : Session) :
    (s.veil v).score.active = s.score.active.map (Stave.veil v) := rfl

theorem veil_onActive {f g : Stave → Stave} (h : ∀ a, f (a.veil v) = (g a).veil v) :
    (s.veil v).onActive f = (s.onActive g).veil v := by
  have hactive : ((s.score.active.map (Stave.veil v)).map f) =
      (s.score.active.map g).map (Stave.veil v) := by
    rw [Option.map_map, Option.map_map]
    exact congrArg (Option.map · s.score.active) (funext h)
  simp only [onActive, veil, Score.onActive, Score.veil, Score.onEvery, hactive]

theorem veil_onTabNotes (f : List Tickable → List Tickable) :
    (s.veil v).onTabNotes f = (s.onTabNotes f).veil v :=
  veil_onActive v fun _ => rfl

theorem veil_onStaffNotes {f g : List Tickable → List Tickable}
    (h : ∀ notes, f (notes.map (Tickable.veil v)) = (g notes).map (Tickable.veil v)) :
    (s.veil v).onStaffNotes f = (s.onStaffNotes g).veil v :=
  veil_onActive v fun a => by simp only [Stave.veil, h]

theorem tabNotes_veil : (s.veil v).tabNotes = s.tabNotes := by
  rw [tabNotes, tabNotes, active_veil]
  cases s.score.active <;> rfl

theorem staffNotes_veil : (s.veil v).staffNotes = s.staffNotes.map (Tickable.veil v) := by
  rw [staffNotes, staffNotes, active_veil]
  cases s.score.active <;> rfl

theorem veil_withStave {next next' : Stave → Outcome Cause Session}
    (h : ∀ a, next' (a.veil v) = (next a).mapState (veil v)) :
    (s.veil v).withStave next' = (s.withStave next).mapState (veil v) := by
  rw [withStave, withStave, active_veil]
  cases s.score.active with
  | none => rfl
  | some a => exact h a

/-! ### Marks -/

theorem veil_markLastTab (index : Nat) (m : Modifier) :
    (s.veil v).markLastTab index m = (s.markLastTab index m).veil v :=
  veil_onTabNotes v _

theorem veil_markLastStaff {m : Modifier} (h : m.accidental? = none) (index : Nat) :
    (s.veil v).markLastStaff index m = (s.markLastStaff index m).veil v :=
  veil_onStaffNotes v (veil_markLast v h index)

theorem veil_closeBends (through : Bool) :
    (s.veil v).closeBends through = (s.closeBends through).veil v := by
  have hbend : (s.veil v).bend = s.bend := rfl
  rw [closeBends, closeBends, hbend]
  cases s.bend with
  | none => rfl
  | some chain => exact veil_onTabNotes (s := { s with bend := none }) v (chain.close through)

theorem veil_openBends (earlier : Nat) (firstIndices lastIndices : List Nat) :
    (s.veil v).openBends earlier firstIndices lastIndices =
      (s.openBends earlier firstIndices lastIndices).veil v := by
  have hchain : (s.veil v).openChain earlier firstIndices = s.openChain earlier firstIndices := rfl
  rw [openBends, openBends, tabNotes_veil, hchain]
  dsimp only
  split <;> rfl

/-! ### Links -/

theorem veil_addTabLink (link : TabLink) :
    (s.veil v).addTabLink link = (s.addTabLink link).veil v := rfl

theorem veil_addStaffLink (link : StaffLink) :
    (s.veil v).addStaffLink link = (s.addStaffLink link).veil v := rfl

theorem tabAddress_veil (a : Stave) (index : Nat) :
    (s.veil v).tabAddress (a.veil v) index = s.tabAddress a index := by
  simp [tabAddress, veil, Score.veil, Score.onEvery, Stave.veil]

theorem staffAddress_veil (a : Stave) (index : Nat) :
    (s.veil v).staffAddress (a.veil v) index = s.staffAddress a index := by
  simp [staffAddress, veil, Score.veil, Score.onEvery, Stave.veil]

theorem tabLinkOf_veil (a : Stave) (span : Span) :
    (s.veil v).tabLinkOf (a.veil v) span = s.tabLinkOf a span := by
  simp only [tabLinkOf, tabAddress_veil]
  rfl

theorem staffLinkOf_veil (a : Stave) (span : Span) :
    (s.veil v).staffLinkOf (a.veil v) span = s.staffLinkOf a span := by
  have hlength : (a.veil v).staffNotes.length = a.staffNotes.length := List.length_map _
  simp only [staffLinkOf, staffAddress_veil, hlength]

theorem veil_articulateTab (a : Stave) (tag : Articulation) (span : Span) :
    (s.veil v).articulateTab (a.veil v) tag span = (s.articulateTab a tag span).veil v := by
  unfold articulateTab
  rw [tabLinkOf_veil]
  cases tag with
  | bend => exact veil_openBends v _ _ _
  | _ => rfl

theorem veil_linkSpan (a : Stave) (tag : Articulation) (span : Option Span) :
    (s.veil v).linkSpan (a.veil v) tag span = (s.linkSpan a tag span).veil v := by
  cases span with
  | none => rfl
  | some span =>
      have onTab : (if (a.veil v).tab.isSome then (s.veil v).articulateTab (a.veil v) tag span
          else s.veil v) = (if a.tab.isSome then s.articulateTab a tag span else s).veil v := by
        rw [veil_articulateTab]
        exact (apply_ite (veil v) _ _ _).symm
      have linked (t : Session) :
          (t.veil v).addStaffLink (.tie ((t.veil v).staffLinkOf (a.veil v) span)) =
            (t.addStaffLink (.tie (t.staffLinkOf a span))).veil v := by
        rw [staffLinkOf_veil]
        rfl
      dsimp only [linkSpan]
      rw [onTab, linked]
      cases span.isEmpty with
      | true => rfl
      | false => exact (apply_ite (veil v) _ _ _).symm

theorem veil_articulate (a : Stave) (tag : Articulation) (indices : List Nat) :
    (s.veil v).articulate (a.veil v) tag indices = (s.articulate a tag indices).veil v := by
  unfold articulate
  cases tag with
  | vibrato => exact veil_markLastTab v _ _
  | harshVibrato => exact veil_markLastTab v _ _
  | tap =>
      have hcaption : (s.veil v).tapCaption = s.tapCaption := rfl
      have marked : (if (a.veil v).tab.isSome then (s.veil v).markLastTab 0 s.tapCaption
          else s.veil v) = (if a.tab.isSome then s.markLastTab 0 s.tapCaption else s).veil v := by
        rw [veil_markLastTab]
        exact (apply_ite (veil v) _ _ _).symm
      dsimp only
      rw [hcaption, marked]
      exact veil_linkSpan v a .tap _
  | _ => exact veil_linkSpan v a _ _

theorem veil_applyTags (tags : List (Option Articulation)) :
    (s.veil v).applyTags tags = (s.applyTags tags).veil v := by
  have tagged (t : Session) (tag : Articulation) :
      articulateTagged tags (t.veil v) tag = (articulateTagged tags t tag).veil v := by
    unfold articulateTagged
    rw [active_veil]
    cases indicesWhere (· == some tag) tags 0 with
    | nil => rfl
    | cons i indices =>
        cases t.score.active with
        | none => rfl
        | some a => exact veil_articulate v a tag _
  have folded (all : List Articulation) (t : Session) :
      all.foldl (articulateTagged tags) (t.veil v) =
        (all.foldl (articulateTagged tags) t).veil v := by
    induction all generalizing t with
    | nil => rfl
    | cons tag all ih => rw [List.foldl_cons, List.foldl_cons, tagged, ih]
  unfold applyTags
  rw [tabNotes_veil, folded]
  split
  · exact veil_closeBends v false
  · dsimp only
    split
    · rfl
    · exact veil_closeBends v false

theorem veil_decorate (decorator : Decorator) :
    (s.veil v).decorate decorator = (s.decorate decorator).veil v := by
  cases decorator with
  | vibrato => exact veil_markLastTab v _ _
  | harshVibrato => exact veil_markLastTab v _ _
  | upStroke => rw [decorate, decorate, veil_markLastTab, veil_markLastStaff v rfl]
  | downStroke => rw [decorate, decorate, veil_markLastTab, veil_markLastStaff v rfl]

theorem veil_bracket (a : Stave) (tuplets count : Nat) :
    (s.veil v).bracket (a.veil v) tuplets count = (s.bracket a tuplets count).veil v := by
  have htab : (s.veil v).tabTuplet (a.veil v) tuplets count = s.tabTuplet a tuplets count := by
    have haddress : (s.veil v).tabAddress (a.veil v) = s.tabAddress a :=
      funext fun index => tabAddress_veil v a index
    rw [tabTuplet, tabTuplet, haddress]
    rfl
  have hstaff :
      (s.veil v).staffTuplet (a.veil v) tuplets count = s.staffTuplet a tuplets count := by
    have haddress : (s.veil v).staffAddress (a.veil v) = s.staffAddress a :=
      funext fun index => staffAddress_veil v a index
    have hlength : (a.veil v).staffNotes.length = a.staffNotes.length := List.length_map _
    rw [staffTuplet, staffTuplet, haddress, hlength]
  unfold bracket
  dsimp only
  rw [htab, hstaff, veil_onTabNotes, veil_onStaffNotes v (veil_scaleLast v count _)]
  show (if s.settings.tabStems then _ else _) = _
  have linked (t : Session) : (if (a.veil v).staff.isSome then
      (t.veil v).addStaffLink (.tuplet (s.staffTuplet a tuplets count)) else t.veil v) =
      (if a.staff.isSome then t.addStaffLink (.tuplet (s.staffTuplet a tuplets count))
        else t).veil v := by
    rw [veil_addStaffLink]
    exact (apply_ite (veil v) _ _ _).symm
  rw [linked, veil_addTabLink]
  exact (apply_ite (veil v) _ _ _).symm

/-! ### Annotations -/

theorem veil_annotateTexts (a : Stave) (tokens : List PlacedToken) (side : Side) :
    (s.veil v).annotateTexts (a.veil v) tokens side =
      (s.annotateTexts a tokens side).mapState (veil v) := by
  have hside : (s.veil v).withSide side = (s.withSide side).veil v := rfl
  have htab : (a.veil v).tab = a.tab := rfl
  have hlength : (a.veil v).staffNotes.length = a.staffNotes.length := List.length_map _
  unfold annotateTexts
  rw [hside, htab, hlength]
  split
  · exact congrArg Outcome.done (veil_onTabNotes v _)
  · split
    · rfl
    · exact congrArg Outcome.done
        (veil_onStaffNotes v (PlacedToken.applyLast_map (PlacedToken.veil_captionOnStaff v) tokens))

theorem veil_annotateStaff (a : Stave) (tokens : List PlacedToken) (s : Session) :
    annotateStaff (a.veil v) tokens (s.veil v) =
      (annotateStaff a tokens s).mapState (veil v) := by
  have hstaff : (a.veil v).staff = a.staff := rfl
  unfold annotateStaff
  rw [hstaff, staffNotes_veil, List.length_map,
    PlacedToken.applyLastUntil_map (PlacedToken.veil_onStaff v)]
  split
  · rfl
  · split
    · rfl
    · obtain ⟨notes, fault⟩ := PlacedToken.applyLastUntil PlacedToken.onStaff tokens s.staffNotes
      exact congrArg (Outcome.mk · fault) (veil_onStaffNotes v fun _ => rfl)

theorem veil_addAnnotations (tokens : List String) :
    (s.veil v).addAnnotations tokens = (s.addAnnotations tokens).mapState (veil v) := by
  have hfont : (s.veil v).captionFont = s.captionFont := rfl
  have hside : (s.veil v).settings.annotationSide = s.settings.annotationSide := rfl
  unfold addAnnotations
  refine Outcome.mapState_needing (fun markups => veil_withStave v fun a => ?_) s
  have htab : (a.veil v).tabNotes = a.tabNotes := rfl
  rw [hfont, hside, htab]
  split
  · rfl
  · dsimp only
    rw [veil_annotateTexts]
    exact Outcome.mapState_andThen (veil_annotateStaff v a _) _

/-! ### Staves, bars and rests -/

theorem veil_placeStave (d : StaveDeclaration) :
    (s.veil v).placeStave d = (s.placeStave d).veil v := by
  have belowStaff (t : Session) (view : StaffView) :
      (t.veil v).belowStaff view = (t.belowStaff view).veil v := rfl
  have belowTab (t : Session) (view : TabView) :
      (t.veil v).belowTab view = (t.belowTab view).veil v := rfl
  have staves (t : Session) : (t.veil v).score.staves = t.score.staves.map (Stave.veil v) :=
    t.score.staves_onEvery _
  -- A new stave has no notes, so there is nothing to hide on it.
  unfold placeStave
  dsimp only
  cases d.staff <;> cases d.tablature <;>
    simp only [Bool.false_eq_true, if_true, if_false, belowStaff, belowTab, Score.addStave,
      staves] <;>
    rfl

theorem veil_addStave (d : StaveDeclaration) :
    (s.veil v).addStave d = (s.addStave d).mapState (veil v) := by
  have setKey (t : Session) (key : String) :
      (t.veil v).setKey key = (t.setKey key).mapState (veil v) := rfl
  rw [addStave, addStave, veil_closeBends, veil_placeStave, setKey]

theorem veil_addVoice (d : StaveDeclaration) :
    (s.veil v).addVoice d = (s.addVoice d).mapState (veil v) := by
  rw [addVoice, addVoice, active_veil]
  cases s.score.active with
  | none => exact veil_addStave v d
  | some a =>
      rw [veil_closeBends]
      exact congrArg Outcome.done (veil_onActive v (Stave.veil_closeVoice v))

theorem veil_addBar (type : BarType) :
    (s.veil v).addBar type = (s.addBar type).mapState (veil v) := by
  have resetMemory (t : Session) :
      (t.veil v).resetMemory = t.resetMemory.mapState (veil v) := rfl
  rw [addBar, addBar, veil_closeBends, resetMemory]
  refine Outcome.mapState_andThen (fun t => veil_withStave v fun a => ?_) _
  exact congrArg Outcome.done (veil_onActive v fun b => b.veil_push v (.bar type) (.bar type))

theorem veil_addRest (position : Int) :
    (s.veil v).addRest position = (s.addRest position).mapState (veil v) := by
  rw [addRest, addRest, veil_closeBends]
  refine Outcome.mapState_needing (fun key => veil_withStave v fun a => ?_) _
  exact congrArg Outcome.done (veil_onActive v fun b =>
    b.veil_push v ((s.closeBends true).tabRest key) ((s.closeBends true).restNote key))

theorem veil_makeTuplets (tuplets : Nat) (notes : Option Nat) :
    (s.veil v).makeTuplets tuplets notes = (s.makeTuplets tuplets notes).mapState (veil v) := by
  have hroom (a : Stave) : tupletRoom (a.veil v) = tupletRoom a := by
    simp [tupletRoom, Stave.veil]
  unfold makeTuplets
  dsimp only
  split
  · rfl
  · refine veil_withStave v fun a => ?_
    rw [hroom]
    split
    · rfl
    · exact congrArg Outcome.done (veil_bracket v a tuplets _)

/-! ### Texts -/

theorem veil_addTextVoice : (s.veil v).addTextVoice = s.addTextVoice.mapState (veil v) := by
  refine veil_withStave v fun _ => ?_
  exact congrArg Outcome.done (veil_onActive v fun _ => rfl)

theorem veil_setTextFont (spec : String) :
    (s.veil v).setTextFont spec = (s.setTextFont spec).mapState (veil v) := by
  refine Outcome.mapState_needing (fun font => ?_) s
  cases font <;> rfl

theorem veil_addTextNote (text : String) (style : TextStyle) :
    (s.veil v).addTextNote text style = (s.addTextNote text style).mapState (veil v) := by
  refine veil_withStave v fun a => ?_
  have hvoices : (a.veil v).textVoices = a.textVoices := rfl
  rw [hvoices]
  split
  · rfl
  · exact congrArg Outcome.done (veil_onActive v fun _ => rfl)

/-! ### Chords -/

theorem slotDuration_veil (entries : List ResolvedEntry) :
    (s.veil v).slotDuration (entries.map (ResolvedEntry.veil v)) = s.slotDuration entries := by
  rw [slotDuration, slotDuration, List.getLast?_map]
  cases entries.getLast? <;> rfl

theorem staffNote_veil (entries : List ResolvedEntry) :
    Tickable.staff ((s.veil v).staffNote (entries.map (ResolvedEntry.veil v))) =
      (Tickable.staff (s.staffNote entries)).veil v := by
  simp only [staffNote, slotDuration_veil, Chord.accidentalMarks_veil, List.map_map]
  rfl

theorem tabNote_veil (entries : List ResolvedEntry) :
    (s.veil v).tabNote (entries.map (ResolvedEntry.veil v)) = s.tabNote entries := by
  simp only [tabNote, slotDuration_veil, List.map_map]
  rfl

theorem veil_decorateWith (decorator : Option Decorator) :
    (s.veil v).decorateWith decorator = (s.decorateWith decorator).veil v := by
  cases decorator with
  | none => rfl
  | some decorator => exact veil_decorate v decorator

theorem veil_emit (entries : List ResolvedEntry) :
    (s.veil v).emit (entries.map (ResolvedEntry.veil v)) = (s.emit entries).veil v := by
  have hpush : (s.veil v).onActive (·.push (.tab (s.tabNote entries))
      ((Tickable.staff (s.staffNote entries)).veil v)) =
      (s.onActive (·.push (.tab (s.tabNote entries)) (.staff (s.staffNote entries)))).veil v :=
    veil_onActive v fun a => a.veil_push v _ _
  unfold emit
  dsimp only
  rw [tabNote_veil, staffNote_veil, hpush, List.map_map, List.map_map, veil_applyTags,
    veil_decorateWith]
  rfl

/-- **A chord is written alike under a veil**, if its entries are veiled too. -/
theorem veil_writeChord (chord : List NoteEntry) (entries : List ResolvedEntry)
    (articulation : Option Articulation) (decorator : Option Decorator) :
    (s.veil v).writeChord chord (entries.map (ResolvedEntry.veil v)) articulation decorator =
      (s.writeChord chord entries articulation decorator).veil v := by
  have emitted (slots : List (List ResolvedEntry)) (t : Session) :
      (slots.map (List.map (ResolvedEntry.veil v))).foldl emit (t.veil v) =
        (slots.foldl emit t).veil v := by
    induction slots generalizing t with
    | nil => rfl
    | cons slot slots ih => rw [List.map_cons, List.foldl_cons, List.foldl_cons, veil_emit, ih]
  have tagged (t : Session) : (t.veil v).applyChordTag chord.length articulation =
      (t.applyChordTag chord.length articulation).veil v := by
    cases articulation with
    | none => rfl
    | some tag => exact veil_applyTags v _
  unfold writeChord
  dsimp only
  rw [Chord.slots_map, emitted, tagged, veil_decorateWith]

end Session

/-! ## Events -/

/-- Does the event neither choose the strategy nor read it? -/
def Event.isImpartial : Event → Bool
  | options _ | chord _ _ _ | note _ | reset => false
  | _ => true

namespace Session

variable {s : Session}

theorem veil_setDuration (time : String) (dot : Bool) :
    (s.veil v).setDuration time dot = (s.setDuration time dot).mapState (veil v) := by
  refine Outcome.mapState_needing (fun duration => ?_) s
  rfl

theorem veil_runCommand (line : String) :
    (s.veil v).runCommand line = (s.runCommand line).mapState (veil v) := by
  unfold runCommand
  dsimp only
  split
  · split <;> rfl
  · rfl

/-- A fret that is only resolved shows no mark. -/
theorem veil_fret (fret string : Nat) :
    (s.veil v).handle (.fret fret string) = (s.handle (.fret fret string)).mapState (veil v) := by
  have hresolver : (s.veil v).resolver = s.resolver.under (v.strategy s.settings.accidentals) := rfl
  have hmemory : (s.veil v).memory = s.memory := rfl
  have halike := s.resolver.alike_fret s.memory (v.strategy s.settings.accidentals) fret string
  simp only [handle, resolveFret, hresolver, hmemory]
  generalize s.resolver.fret s.memory fret string = attempt at halike
  generalize Resolver.fret _ s.memory fret string = attempt' at halike
  cases halike <;> rfl

theorem veil_finishStaves : (s.veil v).finishStaves = s.finishStaves.veil v := by
  have honEvery (t : Session) :
      (t.veil v).score.onEvery Stave.finish = (t.score.onEvery Stave.finish).veil v := by
    have hfinish : Stave.finish ∘ Stave.veil v = Stave.veil v ∘ Stave.finish :=
      funext (Stave.veil_finish v)
    simp only [Score.onEvery, veil, Score.veil, List.map_map, Option.map_map, hfinish]
  unfold finishStaves
  rw [veil_closeBends, honEvery]
  rfl

/-- **An event does to a veiled session what it does to the session**, if it has no part in the
strategy. -/
theorem veil_handle {event : Event} (h : event.isImpartial) (s : Session) :
    (s.veil v).handle event = (s.handle event).mapState (veil v) := by
  cases event with
  | options entries => cases h
  | chord entries articulation decorator => cases h
  | note entry => cases h
  | reset => cases h
  | duration time dot => exact veil_setDuration v time dot
  | stave d => exact veil_addStave v d
  | voice d => exact veil_addVoice v d
  | bar type => exact veil_addBar v type
  | rest position => exact veil_addRest v position
  | articulations tags =>
      exact veil_withStave v fun _ => congrArg Outcome.done (veil_applyTags v tags)
  | decorator decorator =>
      exact veil_withStave v fun _ => congrArg Outcome.done (veil_decorate v decorator)
  | annotations tokens => exact veil_addAnnotations v tokens
  | tuplet tuplets notes => exact veil_makeTuplets v tuplets notes
  | command line => exact veil_runCommand v line
  | textVoice => exact veil_addTextVoice v
  | textFont spec => exact veil_setTextFont v spec
  | text text style => exact veil_addTextNote v text style
  | fret fret string => exact veil_fret v fret string
  | render => exact congrArg Outcome.done (veil_finishStaves v)

/-! ### The strategy in force -/

theorem leaves_clear (strategy : AccidentalStrategy) (mark : Attached) :
    (Veil.clear strategy).leaves mark = true := by
  unfold Veil.leaves
  cases mark.modifier.accidental? <;> rfl

theorem veil_clear (s : Session) : s.veil (.clear s.settings.accidentals) = s := by
  have tickable : Tickable.veil (.clear s.settings.accidentals) = id := by
    funext t
    cases t with
    | staff n =>
        simp only [Tickable.veil, List.filter_eq_self.2 fun mark _ => leaves_clear _ mark]
        rfl
    | _ => rfl
  have stave : Stave.veil (.clear s.settings.accidentals) = id := by
    funext a
    simp only [Stave.veil, tickable, List.map_id, List.map_id_fun]
    rfl
  simp only [veil, Score.veil, Score.onEvery, stave, List.map_id, Option.map_id]
  rfl

/-- An event that has no part in the strategy leaves it in force. -/
theorem accidentals_handle {event : Event} (h : event.isImpartial) (s : Session) :
    (s.handle event).state.settings.accidentals = s.settings.accidentals := by
  have hveil := veil_handle (.clear s.settings.accidentals) h s
  rw [veil_clear] at hveil
  rw [hveil]
  rfl

/-- A chord leaves the strategy in force. -/
theorem accidentals_writeChord (chord : List NoteEntry) (entries : List ResolvedEntry)
    (articulation : Option Articulation) (decorator : Option Decorator) :
    (s.writeChord chord entries articulation decorator).settings.accidentals =
      s.settings.accidentals := by
  have hentries : entries.map (ResolvedEntry.veil (.clear s.settings.accidentals)) = entries := by
    refine List.map_id'' (fun e => ?_) entries
    obtain ⟨position, key, playNote, _ | mark, _⟩ := e <;> rfl
  have hveil := veil_writeChord (.clear s.settings.accidentals) chord entries articulation
    decorator (s := s)
  rw [veil_clear, hentries] at hveil
  rw [hveil]
  rfl

end Session

end Tablature
