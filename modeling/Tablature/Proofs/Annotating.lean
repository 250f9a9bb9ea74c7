/-
# Tablature.Proofs.Annotating — annotation tokens and the objects that they land on.

The tokens of a list belong to the last objects of the voice in progress, one to each, and the
session goes over them more than once: texts are written in one pass, the other marks of a staff in
another. `Session.annotated` says in one go what comes out: which marks each object gains on each
view, and which side is in force for texts afterwards. Annotations are carried out exactly on tokens
that can be read and that the stave takes (`Stave.Takes`), and then they leave precisely this;
tokens that cannot be read, or are too many, leave the session as it was
(`Session.annotations_land`).
-/
import Tablature.Proofs.Facing

namespace Tablature

/-! ## What stays in force -/

section LastSet

variable {α β : Type}

/-- What is in force after some tokens: what the last of them that sets it says, or else what was in
force before. -/
def lastSet (set? : α → Option β) (before : β) (tokens : List α) : β :=
  ((tokens.filterMap set?).getLast?).getD before

variable {set? : α → Option β} {before : β} {tokens : List α}

@[simp] theorem lastSet_nil : lastSet set? before [] = before := rfl

theorem lastSet_cons (token : α) (tokens : List α) :
    lastSet set? before (token :: tokens) = lastSet set? ((set? token).getD before) tokens := by
  unfold lastSet
  cases h : set? token with
  | none => rw [List.filterMap_cons_none h, Option.getD_none]
  | some value =>
      rw [List.filterMap_cons_some h, Option.getD_some, List.getLast?_cons, Option.getD_some]

theorem lastSet_concat (token : α) :
    lastSet set? before (tokens ++ [token]) = (set? token).getD (lastSet set? before tokens) := by
  unfold lastSet
  cases h : set? token with
  | none => simp [List.filterMap_append, h]
  | some value => simp [List.filterMap_append, h]

end LastSet

/-! ## Marks of a token -/

namespace Tickable

/-- The object with marks after those that it has. Bars, spacers and texts take none. -/
def withMarks (marks : List Attached) : Tickable → Tickable
  | tab n => tab { n with modifiers := n.modifiers ++ marks }
  | staff n => staff { n with modifiers := n.modifiers ++ marks }
  | t => t

variable (t : Tickable)

@[simp] theorem withMarks_nil : t.withMarks [] = t := by
  cases t <;> simp [withMarks]

theorem withMarks_cons (mark : Attached) (marks : List Attached) :
    t.withMarks (mark :: marks) = (t.mark mark.index mark.modifier).withMarks marks := by
  cases t <;> simp [withMarks, Tickable.mark]

theorem withMarks_singleton (index : Nat) (modifier : Modifier) :
    t.withMarks [⟨index, modifier⟩] = t.mark index modifier := by
  rw [withMarks_cons, withMarks_nil]

theorem withMarks_append (marks marks' : List Attached) :
    t.withMarks (marks ++ marks') = (t.withMarks marks).withMarks marks' := by
  cases t <;> simp [withMarks]

@[simp] theorem keyCount_withMarks (marks : List Attached) :
    (t.withMarks marks).keyCount = t.keyCount := by
  cases t <;> rfl

end Tickable

namespace Markup

/-- The side that a token asks for, for its own text and for those after it. -/
def side? : Markup → Option Side
  | .label (.styled .top _) => some .top
  | .label (.styled .bottom _) => some .bottom
  | _ => none

/-- The text of a token as a mark. A text with a font or a style may be empty, and is left out. -/
def captionMarks (font : Font) (side : Side) : Markup → List Attached
  | .label t =>
      if Caption.isOmitted t then []
      else [⟨0, .caption ⟨t.text, Caption.fontOf font t, side⟩⟩]
  | _ => []

/-- Articulations and strokes. -/
def sharedMarks : Markup → List Attached
  | .articulation code position => [⟨0, .articulation code position⟩]
  | .stroke s => [⟨0, .stroke s⟩]
  | _ => []

theorem sharedMarks_eq (markup : Markup) :
    markup.sharedMarks = markup.sharedMark?.toList.map fun modifier => ⟨0, modifier⟩ := by
  cases markup <;> rfl

/-- Fingers and string numbers, each at its key. -/
def fingerMarks : Markup → List Attached
  | .fingering marks => marks.map fun m => ⟨m.note - 1, m.modifier⟩
  | _ => []

/-- What a token writes on tablature: texts, articulations and strokes. -/
def marksOnTab (a : Stave) (font : Font) (side : Side) (markup : Markup) : List Attached :=
  if a.tab.isSome then markup.captionMarks font side ++ markup.sharedMarks else []

/-- What a token writes on the staff: articulations, strokes and fingerings, and texts only where
there is no tablature. -/
def marksOnStaff (a : Stave) (font : Font) (side : Side) (markup : Markup) : List Attached :=
  if a.staff.isSome then
    (if a.tab.isSome then [] else markup.captionMarks font side) ++
      (markup.sharedMarks ++ markup.fingerMarks)
  else []

end Markup

/-! ## What annotations leave -/

/-- A voice whose objects from a place on have gained marks: so many places further, these. -/
def markFrom (start : Nat) (marks : Nat → List Attached) (notes : List Tickable) : List Tickable :=
  notes.mapIdx fun k note => if k < start then note else note.withMarks (marks (k - start))

/-- The side for the text of the token with number `i`: the one that the last token up to it asks
for, or the one that was in force before. -/
def Session.sideAt (s : Session) (markups : List Markup) (i : Nat) : Side :=
  lastSet Markup.side? s.settings.annotationSide (markups.take (i + 1))

/-- The marks of the token with number `i`. -/
def Session.marksAt (s : Session) (write : Font → Side → Markup → List Attached)
    (markups : List Markup) (i : Nat) : List Attached :=
  match markups[i]? with
  | some markup => write s.captionFont (s.sideAt markups i) markup
  | none => []

/-- **What annotations leave.** Of the voice in progress the last objects, as many as there are
tokens, have gained the marks of their tokens on each view; the side for texts is the last one that
was asked for; everything else is as it was. -/
def Session.annotated (s : Session) (a : Stave) (markups : List Markup) : Session :=
  let start := a.tabNotes.length - markups.length
  { s with
    score := { s.score with
      active := some { a with
        tabNotes := markFrom start (s.marksAt (Markup.marksOnTab a) markups) a.tabNotes
        staffNotes := markFrom start (s.marksAt (Markup.marksOnStaff a) markups) a.staffNotes }
      settings := { s.settings with
        annotationSide := lastSet Markup.side? s.settings.annotationSide markups } } }

theorem Session.annotationSide_annotated (s : Session) (a : Stave) (markups : List Markup) :
    (s.annotated a markups).settings.annotationSide =
      lastSet Markup.side? s.settings.annotationSide markups := rfl

/-- Fingers stand at keys that the objects of their tokens have; the first token belongs to the
object at `start`. -/
def Markup.FingersFit (markups : List Markup) (start : Nat) (notes : List Tickable) : Prop :=
  ∀ (i : Nat) (marks : List FingerMark) (note : Tickable), markups[i]? = some (.fingering marks) →
    notes[start + i]? = some note → ∀ m ∈ marks, 0 < m.note ∧ m.note ≤ note.keyCount

/-- The tokens that a stave takes: not more than there are objects, none where there is no view, and
on a staff only fingers at keys that the object of the token has. -/
structure Stave.Takes (a : Stave) (markups : List Markup) : Prop where
  room : markups.length ≤ a.tabNotes.length
  shown : markups ≠ [] → a.tab.isSome ∨ a.staff.isSome
  fingers : a.staff.isSome →
    Markup.FingersFit markups (a.tabNotes.length - markups.length) a.staffNotes

/-! ## Reading tokens -/

theorem Markup.readAll_eq_ok_iff {tokens : List String} {markups : List Markup} :
    readAll tokens = .ok markups ↔
      List.Forall₂ (fun token markup => Markup.read token = .ok markup) tokens markups := by
  induction tokens generalizing markups with
  | nil => simp [readAll, eq_comm]
  | cons token tokens ih =>
      rw [List.forall₂_cons_left_iff, readAll]
      cases hread : Markup.read token with
      | error cause => simp
      | ok markup =>
          constructor
          · intro h
            cases hrest : readAll tokens with
            | error cause =>
                rw [hrest] at h
                cases h
            | ok rest =>
                rw [hrest] at h
                cases h
                exact ⟨markup, rest, rfl, ih.1 hrest, rfl⟩
          · rintro ⟨found, rest, hfound, hrest, rfl⟩
            cases hfound
            show (readAll tokens).map (markup :: ·) = _
            rw [ih.2 hrest]
            rfl

theorem eq_error_of_map_eq_error {ε α β : Type} {f : α → β} {result : Except ε α} {fault : ε}
    (h : result.map f = .error fault) : result = .error fault := by
  cases result with
  | error other =>
      cases h
      rfl
  | ok value => cases h

/-- Whatever is wrong with a token, it is written wrongly. -/
theorem Markup.kind_of_read_eq_error {token : String} {cause : Cause}
    (h : Markup.read token = .error cause) : cause.kind = .malformed := by
  have stroke (code : List Char) (h : Stroke.read code = .error cause) :
      cause.kind = .malformed := by
    unfold Stroke.read at h
    split at h <;> cases h
    rfl
  have body (text : List Char) (h : FingerMark.readBody text = .error cause) :
      cause.kind = .malformed := by
    unfold FingerMark.readBody at h
    split at h <;> cases h
    rfl
  have font (family size style : List Char) (h : Font.ofParts family size style = .error cause) :
      cause.kind = .malformed := by
    unfold Font.ofParts at h
    split at h <;> cases h
    rfl
  unfold Markup.read ofChars at h
  split at h
  · cases h
  · split at h
    · exact stroke _ (eq_error_of_map_eq_error h)
    · split at h
      · exact body _ (eq_error_of_map_eq_error h)
      · have htext := eq_error_of_map_eq_error h
        unfold readText at htext
        split at htext
        · exact font _ _ _ (eq_error_of_map_eq_error htext)
        · split at htext <;> cases htext

/-- Reading stops at a token that is wrong. -/
theorem Markup.exists_of_readAll_eq_error {tokens : List String} {cause : Cause}
    (h : readAll tokens = .error cause) : ∃ token ∈ tokens, Markup.read token = .error cause := by
  induction tokens with
  | nil => cases h
  | cons token tokens ih =>
      rw [readAll] at h
      split at h
      · rename_i hread
        cases h
        exact ⟨token, List.mem_cons_self, hread⟩
      · obtain ⟨wrong, hmem, hwrong⟩ := ih (eq_error_of_map_eq_error h)
        exact ⟨wrong, List.mem_cons_of_mem token hmem, hwrong⟩

theorem Markup.exists_readAll_eq_error {tokens : List String} {token : String} {cause : Cause}
    (hmem : token ∈ tokens) (h : Markup.read token = .error cause) :
    ∃ first, readAll tokens = .error first := by
  cases hall : readAll tokens with
  | error first => exact ⟨first, rfl⟩
  | ok markups =>
      obtain ⟨markup, -, hread⟩ := exists_of_mem_forall₂ (Markup.readAll_eq_ok_iff.1 hall) hmem
      rw [h] at hread
      cases hread

/-! ## Captions -/

namespace Caption

theorem sideOf_eq (side : Side) (t : TextMarkup) :
    sideOf side t = ((Markup.label t).side?).getD side := by
  cases t with
  | styled shortcut text => cases shortcut <;> rfl
  | _ => rfl

theorem toList_ofMarkup? (font : Font) (side : Side) (t : TextMarkup) :
    ((ofMarkup? font side t).toList.map fun caption => (⟨0, .caption caption⟩ : Attached)) =
      (Markup.label t).captionMarks font (sideOf side t) := by
  show _ = if isOmitted t then [] else _
  unfold ofMarkup?
  split
  · rfl
  · rfl

/-- The side after some tokens is the last that was asked for. -/
theorem ofMarkups_snd (font : Font) (side : Side) (markups : List Markup) :
    (ofMarkups font side markups).2 = lastSet Markup.side? side markups := by
  induction markups generalizing side with
  | nil => rfl
  | cons markup markups ih =>
      rw [lastSet_cons]
      cases markup with
      | label t =>
          rw [← sideOf_eq]
          exact ih (sideOf side t)
      | _ => exact ih side

theorem length_ofMarkups (font : Font) (side : Side) (markups : List Markup) :
    (ofMarkups font side markups).1.length = markups.length := by
  induction markups generalizing side with
  | nil => rfl
  | cons markup markups ih =>
      cases markup <;> simp [ofMarkups, ih]

/-- The caption of a token stands on the side that is in force after it. -/
theorem ofMarkups_fst (font : Font) (side : Side) (markups : List Markup) {i : Nat}
    {markup : Markup} {caption : Option Caption} (hmarkup : markups[i]? = some markup)
    (hcaption : (ofMarkups font side markups).1[i]? = some caption) :
    (caption.toList.map fun caption => (⟨0, .caption caption⟩ : Attached)) =
      markup.captionMarks font (lastSet Markup.side? side (markups.take (i + 1))) := by
  induction markups generalizing side i with
  | nil => cases hmarkup
  | cons first markups ih =>
      rw [List.take_succ_cons, lastSet_cons]
      cases i with
      | zero =>
          cases hmarkup
          rw [List.take_zero, lastSet_nil]
          cases markup with
          | label t =>
              cases hcaption
              rw [← sideOf_eq]
              exact toList_ofMarkup? font side t
          | _ =>
              cases hcaption
              rfl
      | succ i =>
          cases first with
          | label t =>
              rw [← sideOf_eq]
              exact ih (sideOf side t) hmarkup hcaption
          | _ => exact ih side hmarkup hcaption

end Caption

/-! ## Tokens at their objects -/

section MarkFrom

variable {start : Nat} {marks marks' : Nat → List Attached} {notes : List Tickable}

@[simp] theorem length_markFrom : (markFrom start marks notes).length = notes.length :=
  List.length_mapIdx

theorem getElem?_markFrom (k : Nat) :
    (markFrom start marks notes)[k]? =
      (notes[k]?).map fun note => if k < start then note else note.withMarks (marks (k - start)) :=
  List.getElem?_mapIdx

/-- Two rounds of marks are one. -/
theorem markFrom_markFrom :
    markFrom start marks' (markFrom start marks notes) =
      markFrom start (fun i => marks i ++ marks' i) notes := by
  apply List.ext_getElem?
  intro k
  rw [getElem?_markFrom, getElem?_markFrom, getElem?_markFrom, Option.map_map]
  congr 1
  funext note
  dsimp only [Function.comp]
  split
  · rfl
  · rw [Tickable.withMarks_append]

theorem markFrom_nothing (h : ∀ i, marks i = []) : markFrom start marks notes = notes := by
  apply List.ext_getElem?
  intro k
  simp [getElem?_markFrom, h]

/-- Marks change no keys, so fingers that fit still do. -/
theorem Markup.fingersFit_markFrom {markups : List Markup} {first : Nat} :
    FingersFit markups first (markFrom start marks notes) ↔ FingersFit markups first notes := by
  have hkeys (k : Nat) (note : Tickable) :
      (if k < start then note else note.withMarks (marks (k - start))).keyCount =
        note.keyCount := by
    split
    · rfl
    · exact note.keyCount_withMarks _
  constructor
  · intro h i fingers note hmarkup hnote
    have hmarked : (markFrom start marks notes)[first + i]? = some _ :=
      (getElem?_markFrom _).trans (congrArg (Option.map _) hnote)
    rw [← hkeys (first + i) note]
    exact h i fingers _ hmarkup hmarked
  · intro h i fingers note hmarkup hnote
    rw [getElem?_markFrom] at hnote
    obtain ⟨unmarked, hunmarked, rfl⟩ := Option.map_eq_some_iff.1 hnote
    rw [hkeys]
    exact h i fingers unmarked hmarkup hunmarked

end MarkFrom

namespace PlacedToken

variable {tokens : List PlacedToken} {notes : List Tickable}

theorem getElem?_applyTo (f : PlacedToken → Tickable → Tickable) (tokens : List PlacedToken)
    (notes : List Tickable) (i : Nat) :
    (applyTo f tokens notes)[i]? =
      (notes[i]?).map fun note => ((tokens[i]?).map (f · note)).getD note := by
  induction tokens generalizing notes i with
  | nil => simp [applyTo]
  | cons t tokens ih =>
      cases notes with
      | nil => simp [applyTo]
      | cons note notes =>
          cases i with
          | zero => simp [applyTo]
          | succ i => simpa [applyTo] using ih notes i

/-- Tokens applied to the last objects of a voice, each giving its object marks. -/
theorem applyLast_eq_markFrom {f : PlacedToken → Tickable → Tickable} {marks : Nat → List Attached}
    (written : ∀ (i : Nat) (t : PlacedToken) (note : Tickable), tokens[i]? = some t →
      notes[notes.length - tokens.length + i]? = some note → f t note = note.withMarks (marks i))
    (beyond : ∀ i, tokens[i]? = none → marks i = []) :
    applyLast f tokens notes = markFrom (notes.length - tokens.length) marks notes := by
  apply List.ext_getElem?
  intro k
  have hstart : (notes.take (notes.length - tokens.length)).length =
      notes.length - tokens.length := by
    rw [List.length_take]
    omega
  rw [applyLast, getElem?_markFrom, List.getElem?_append, hstart]
  split
  · rename_i hk
    simp [hk]
  · rename_i hk
    have hindex := Nat.add_sub_cancel' (Nat.le_of_not_lt hk)
    rw [getElem?_applyTo, List.getElem?_drop, hindex]
    cases hnote : notes[k]? with
    | none => rfl
    | some note =>
        apply congrArg some
        cases ht : tokens[k - (notes.length - tokens.length)]? with
        | none =>
            rw [beyond _ ht]
            exact note.withMarks_nil.symm
        | some t =>
            rw [← hindex] at hnote
            exact written _ t note ht hnote

/-- Tokens are applied one by one if none of them fails at its object. -/
theorem fault_applyUntil_eq_none_iff {f : PlacedToken → Tickable → Outcome Cause Tickable} :
    (applyUntil f tokens notes).fault = none ↔
      ∀ (i : Nat) (t : PlacedToken) (note : Tickable), tokens[i]? = some t → notes[i]? = some note →
        (f t note).fault = none := by
  induction tokens generalizing notes with
  | nil => simp [applyUntil, Outcome.done]
  | cons t tokens ih =>
      cases notes with
      | nil => simp [applyUntil, Outcome.done]
      | cons note notes =>
          rw [applyUntil]
          constructor
          · intro h i t' note' ht hnote
            cases hfirst : (f t note).fault with
            | some cause => simp [hfirst, Outcome.stopped] at h
            | none =>
                simp only [hfirst, Outcome.mapState] at h
                cases i with
                | zero =>
                    cases ht
                    cases hnote
                    exact hfirst
                | succ i => exact ih.1 h i t' note' ht hnote
          · intro h
            have hfirst : (f t note).fault = none := h 0 t note rfl rfl
            simp only [hfirst, Outcome.mapState]
            apply ih.2
            intro i t' note' ht hnote
            exact h (i + 1) t' note' ht hnote

theorem state_applyUntil {f : PlacedToken → Tickable → Outcome Cause Tickable}
    (h : (applyUntil f tokens notes).fault = none) :
    (applyUntil f tokens notes).state = applyTo (fun t note => (f t note).state) tokens notes := by
  induction tokens generalizing notes with
  | nil => rfl
  | cons t tokens ih =>
      cases notes with
      | nil => rfl
      | cons note notes =>
          rw [applyUntil] at h ⊢
          cases hfirst : (f t note).fault with
          | some cause => simp [hfirst, Outcome.stopped] at h
          | none =>
              simp only [hfirst, Outcome.mapState] at h ⊢
              rw [ih h]
              rfl

/-! ### What a token does to its object -/

variable {t : PlacedToken} {note : Tickable} {font : Font} {side : Side}

/-- The caption of a token is what it writes as a text. -/
def Captioned (t : PlacedToken) (font : Font) (side : Side) : Prop :=
  (t.caption.toList.map fun caption => (⟨0, .caption caption⟩ : Attached)) =
    t.markup.captionMarks font side

theorem captionOnStaff_eq (h : t.Captioned font side) :
    t.captionOnStaff note = note.withMarks (t.markup.captionMarks font side) := by
  rw [← h, captionOnStaff]
  cases t.caption with
  | none => exact note.withMarks_nil.symm
  | some caption =>
      exact (note.withMarks_singleton 0 (.caption caption)).symm

theorem captionOnStaff_of_none (h : t.caption = none) : t.captionOnStaff note = note := by
  rw [captionOnStaff, h]

/-- Of its text and its other mark a token has only one. -/
theorem onTab_eq (h : t.Captioned font side) :
    t.onTab note =
      note.withMarks (t.markup.captionMarks font side ++ t.markup.sharedMarks) := by
  rw [Tickable.withMarks_append, ← captionOnStaff_eq h]
  cases hcaption : t.caption with
  | none =>
      rw [captionOnStaff_of_none hcaption, Markup.sharedMarks_eq, onTab, tabMark?, hcaption]
      cases t.markup.sharedMark? with
      | none => exact note.withMarks_nil.symm
      | some modifier => exact (note.withMarks_singleton 0 modifier).symm
  | some caption =>
      have hlabel : t.markup.sharedMarks = [] := by
        cases hmarkup : t.markup with
        | label text => rfl
        | _ => simp [Captioned, hcaption, hmarkup, Markup.captionMarks] at h
      rw [hlabel, Tickable.withMarks_nil]
      simp [onTab, tabMark?, captionOnStaff, hcaption]

/-- Fingers are written if the object has all their keys. -/
theorem fault_addFingers_eq_none_iff {token : String} {keys : Nat} {marks : List FingerMark} :
    (addFingers token keys marks note).fault = none ↔ ∀ m ∈ marks, 0 < m.note ∧ m.note ≤ keys := by
  induction marks generalizing note with
  | nil => simp [addFingers, Outcome.done]
  | cons m marks ih =>
      rw [addFingers, List.forall_mem_cons]
      split
      · rename_i hwrong
        simp only [Bool.or_eq_true, decide_eq_true_eq] at hwrong
        constructor
        · intro h
          cases h
        · intro h
          omega
      · rename_i hright
        simp only [Bool.or_eq_true, decide_eq_true_eq] at hright
        rw [ih, and_iff_right]
        omega

theorem state_addFingers {token : String} {keys : Nat} {marks : List FingerMark}
    (h : (addFingers token keys marks note).fault = none) :
    (addFingers token keys marks note).state =
      note.withMarks (Markup.fingering marks).fingerMarks := by
  induction marks generalizing note with
  | nil => exact note.withMarks_nil.symm
  | cons m marks ih =>
      rw [addFingers] at h ⊢
      split
      · rename_i hwrong
        rw [if_pos hwrong] at h
        cases h
      · rename_i hright
        rw [if_neg hright] at h
        rw [ih h]
        exact (note.withMarks_cons ⟨m.note - 1, m.modifier⟩ _).symm

theorem fault_onStaff_eq_none_iff :
    (t.onStaff note).fault = none ↔
      ∀ marks, t.markup = .fingering marks → ∀ m ∈ marks, 0 < m.note ∧ m.note ≤ note.keyCount := by
  unfold onStaff
  split
  · rename_i marks hmarkup
    rw [fault_addFingers_eq_none_iff, hmarkup]
    constructor
    · rintro h marks' ⟨⟩
      exact h
    · intro h
      exact h marks rfl
  · rename_i hmarkup
    constructor
    · intro _ marks hmarks
      exact absurd hmarks (hmarkup marks)
    · intro _
      split <;> rfl

theorem state_onStaff (h : (t.onStaff note).fault = none) :
    (t.onStaff note).state = note.withMarks (t.markup.sharedMarks ++ t.markup.fingerMarks) := by
  cases hmarkup : t.markup with
  | fingering marks =>
      simp only [onStaff, hmarkup] at h ⊢
      exact state_addFingers h
  | label text =>
      simp only [onStaff, hmarkup]
      exact note.withMarks_nil.symm
  | articulation code position =>
      simp only [onStaff, hmarkup]
      exact (note.withMarks_singleton 0 (.articulation code position)).symm
  | stroke s =>
      simp only [onStaff, hmarkup]
      exact (note.withMarks_singleton 0 (.stroke s)).symm

/-! ### Tokens with their captions -/

variable {names : List String} {markups : List Markup} {captions : List (Option Caption)}

theorem length_ofLists (hnames : names.length = markups.length)
    (hcaptions : captions.length = markups.length) :
    (ofLists names markups captions).length = markups.length := by
  induction markups generalizing names captions with
  | nil => cases names <;> rfl
  | cons markup markups ih =>
      cases names with
      | nil => cases hnames
      | cons name names =>
          cases captions with
          | nil => cases hcaptions
          | cons caption captions =>
              exact congrArg (· + 1) (ih (Nat.succ.inj hnames) (Nat.succ.inj hcaptions))

theorem getElem?_ofLists {i : Nat} (h : (ofLists names markups captions)[i]? = some t) :
    markups[i]? = some t.markup ∧ captions[i]? = some t.caption := by
  induction markups generalizing names captions i with
  | nil => cases names <;> cases h
  | cons markup markups ih =>
      cases names with
      | nil => cases h
      | cons name names =>
          cases captions with
          | nil => cases h
          | cons caption captions =>
              cases i with
              | zero =>
                  cases h
                  exact ⟨rfl, rfl⟩
              | succ i => exact ih h

end PlacedToken

namespace Session

variable {s : Session} {a : Stave} {tokens : List String} {markups : List Markup}

/-- The tokens of a list as they are placed in a session. -/
def placed (s : Session) (tokens : List String) (markups : List Markup) : List PlacedToken :=
  PlacedToken.ofLists tokens markups
    (Caption.ofMarkups s.captionFont s.settings.annotationSide markups).1

theorem length_placed (hread : Markup.readAll tokens = .ok markups) :
    (s.placed tokens markups).length = markups.length :=
  PlacedToken.length_ofLists (Markup.readAll_eq_ok_iff.1 hread).length_eq
    (Caption.length_ofMarkups _ _ _)

theorem getElem?_placed {i : Nat} {t : PlacedToken}
    (h : (s.placed tokens markups)[i]? = some t) :
    markups[i]? = some t.markup ∧ t.Captioned s.captionFont (s.sideAt markups i) := by
  obtain ⟨hmarkup, hcaption⟩ := PlacedToken.getElem?_ofLists h
  exact ⟨hmarkup, Caption.ofMarkups_fst _ _ _ hmarkup hcaption⟩

theorem exists_placed (hread : Markup.readAll tokens = .ok markups) {i : Nat} {markup : Markup}
    (hmarkup : markups[i]? = some markup) :
    ∃ t, (s.placed tokens markups)[i]? = some t ∧ t.markup = markup := by
  have hi : i < (s.placed tokens markups).length := by
    rw [length_placed hread]
    exact (List.getElem?_eq_some_iff.1 hmarkup).1
  have ht := List.getElem?_eq_getElem hi
  refine ⟨_, ht, ?_⟩
  have hread := (getElem?_placed ht).1
  rw [hmarkup] at hread
  exact (Option.some.inj hread).symm

section MarksAt

variable {write : Font → Side → Markup → List Attached} {i : Nat}

theorem marksAt_of_some {markup : Markup} (h : markups[i]? = some markup) :
    s.marksAt write markups i = write s.captionFont (s.sideAt markups i) markup := by
  simp [marksAt, h]

theorem marksAt_of_none (h : markups[i]? = none) : s.marksAt write markups i = [] := by
  simp [marksAt, h]

theorem marksAt_append (write write' : Font → Side → Markup → List Attached) :
    s.marksAt write markups i ++ s.marksAt write' markups i =
      s.marksAt (fun font side markup => write font side markup ++ write' font side markup)
        markups i := by
  unfold marksAt
  cases markups[i]? <;> rfl

/-- Tokens that write no marks leave the voice alone. -/
theorem markFrom_marksAt_nil (start : Nat) (notes : List Tickable) :
    markFrom start (s.marksAt (fun _ _ _ => []) markups) notes = notes := by
  apply markFrom_nothing
  intro i
  unfold marksAt
  cases markups[i]? <;> rfl

end MarksAt

/-! ### The passes over the tokens -/

/-- What the texts of some tokens leave. -/
def captioned (s : Session) (a : Stave) (markups : List Markup) : Session :=
  let start := a.tabNotes.length - markups.length
  let onStaff (font : Font) (side : Side) (markup : Markup) : List Attached :=
    if a.tab.isSome then [] else markup.captionMarks font side
  { s with
    score := { s.score with
      active := some { a with
        tabNotes := markFrom start (s.marksAt (Markup.marksOnTab a) markups) a.tabNotes
        staffNotes := markFrom start (s.marksAt onStaff markups) a.staffNotes }
      settings := { s.settings with
        annotationSide := lastSet Markup.side? s.settings.annotationSide markups } } }

theorem applyLast_placed (hread : Markup.readAll tokens = .ok markups)
    {f : PlacedToken → Tickable → Tickable} {write : Font → Side → Markup → List Attached}
    {notes : List Tickable}
    (written : ∀ (i : Nat) (t : PlacedToken) (note : Tickable),
      (s.placed tokens markups)[i]? = some t →
      notes[notes.length - markups.length + i]? = some note →
      t.Captioned s.captionFont (s.sideAt markups i) →
      f t note = note.withMarks (write s.captionFont (s.sideAt markups i) t.markup)) :
    PlacedToken.applyLast f (s.placed tokens markups) notes =
      markFrom (notes.length - markups.length) (s.marksAt write markups) notes := by
  rw [← length_placed (s := s) hread]
  apply PlacedToken.applyLast_eq_markFrom
  · intro i t note ht hnote
    obtain ⟨hmarkup, hcaptioned⟩ := getElem?_placed ht
    rw [length_placed hread] at hnote
    rw [marksAt_of_some hmarkup]
    exact written i t note ht hnote hcaptioned
  · intro i ht
    apply marksAt_of_none
    rw [List.getElem?_eq_none_iff, length_placed hread] at ht
    exact List.getElem?_eq_none ht

theorem fault_applyLastUntil_placed (hread : Markup.readAll tokens = .ok markups)
    (notes : List Tickable) :
    (PlacedToken.applyLastUntil PlacedToken.onStaff (s.placed tokens markups) notes).fault = none ↔
      Markup.FingersFit markups (notes.length - markups.length) notes := by
  show (PlacedToken.applyUntil _ _ (notes.drop _)).fault = none ↔ _
  rw [PlacedToken.fault_applyUntil_eq_none_iff, length_placed hread]
  constructor
  · intro h i marks note hmarkup hnote
    obtain ⟨t, ht, hfingers⟩ := exists_placed (s := s) hread hmarkup
    rw [← List.getElem?_drop] at hnote
    exact PlacedToken.fault_onStaff_eq_none_iff.1 (h i t note ht hnote) marks hfingers
  · intro h i t note ht hnote
    rw [List.getElem?_drop] at hnote
    apply PlacedToken.fault_onStaff_eq_none_iff.2
    intro marks hmarkup
    exact h i marks note (hmarkup ▸ (getElem?_placed ht).1) hnote

theorem state_applyLastUntil_placed (hread : Markup.readAll tokens = .ok markups)
    {notes : List Tickable}
    (hfit : Markup.FingersFit markups (notes.length - markups.length) notes) :
    (PlacedToken.applyLastUntil PlacedToken.onStaff (s.placed tokens markups) notes).state =
      markFrom (notes.length - markups.length)
        (s.marksAt (fun _ _ markup => markup.sharedMarks ++ markup.fingerMarks) markups) notes := by
  have hfault := (fault_applyLastUntil_placed (s := s) hread notes).2 hfit
  show notes.take _ ++ (PlacedToken.applyUntil _ _ (notes.drop _)).state = _
  rw [PlacedToken.state_applyUntil hfault]
  apply applyLast_placed hread (f := fun t note => (t.onStaff note).state)
  intro i t note ht hnote _
  apply PlacedToken.state_onStaff
  apply PlacedToken.fault_onStaff_eq_none_iff.2
  intro marks hmarkup
  exact hfit i marks note (hmarkup ▸ (getElem?_placed ht).1) hnote

/-- Where there is a staff its objects are as many as those of tablature, so the last ones are
opposite each other. -/
theorem markFrom_staffNotes (aligned : a.Aligned) (count : Nat) (marks : Nat → List Attached) :
    markFrom (a.staffNotes.length - count) marks a.staffNotes =
      markFrom (a.tabNotes.length - count) marks a.staffNotes := by
  cases hstaff : a.staff with
  | none =>
      rw [(aligned.unwritten hstaff).2]
      rfl
  | some view => rw [(aligned.notes (Option.isSome_of_eq_some hstaff)).length_eq]

/-- The first pass writes the texts, and the other marks of tablature. -/
theorem annotateTexts_eq (ha : s.score.active = some a) (aligned : a.Aligned)
    (hread : Markup.readAll tokens = .ok markups)
    (shown : markups ≠ [] → a.tab.isSome ∨ a.staff.isSome)
    (room : markups.length ≤ a.tabNotes.length) :
    s.annotateTexts a (s.placed tokens markups)
        (lastSet Markup.side? s.settings.annotationSide markups) =
      .done (s.captioned a markups) := by
  let side := lastSet Markup.side? s.settings.annotationSide markups
  have hside : (s.withSide side).score.active = some a := ha
  by_cases htab : a.tab.isSome
  · have hstaff : (fun (font : Font) (side : Side) (markup : Markup) =>
        if a.tab.isSome then [] else markup.captionMarks font side) = fun _ _ _ => [] := by
      simp [htab]
    have hmarks : PlacedToken.applyLast PlacedToken.onTab (s.placed tokens markups) a.tabNotes =
        markFrom (a.tabNotes.length - markups.length) (s.marksAt (Markup.marksOnTab a) markups)
          a.tabNotes := by
      apply applyLast_placed hread
      intro i t note _ _ hcaptioned
      rw [PlacedToken.onTab_eq hcaptioned, Markup.marksOnTab, if_pos htab]
    rw [annotateTexts, if_pos htab, onTabNotes_eq hside, hmarks, captioned, hstaff,
      markFrom_marksAt_nil]
    rfl
  · have hfits : ¬ a.staffNotes.length < (s.placed tokens markups).length := by
      rw [length_placed hread]
      intro hfew
      have hmarkups : markups ≠ [] := by
        rintro rfl
        exact Nat.not_lt_zero _ hfew
      have hlength := (aligned.notes ((shown hmarkups).resolve_left htab)).length_eq
      omega
    have honTab : Markup.marksOnTab a = fun _ _ _ => [] := by
      funext font side markup
      rw [Markup.marksOnTab, if_neg htab]
    have honStaff : (fun (font : Font) (side : Side) (markup : Markup) =>
        if a.tab.isSome then [] else markup.captionMarks font side) =
          fun font side markup => markup.captionMarks font side := by
      simp [htab]
    have hmarks : PlacedToken.applyLast PlacedToken.captionOnStaff (s.placed tokens markups)
        a.staffNotes = markFrom (a.staffNotes.length - markups.length)
          (s.marksAt (fun font side markup => markup.captionMarks font side) markups)
          a.staffNotes := by
      apply applyLast_placed hread
      intro i t note _ _ hcaptioned
      exact PlacedToken.captionOnStaff_eq hcaptioned
    rw [annotateTexts, if_neg htab, if_neg hfits, onStaffNotes, onActive_eq hside, hmarks,
      markFrom_staffNotes aligned, captioned, honTab, honStaff, markFrom_marksAt_nil]
    rfl

/-- The second pass goes over the staff as the texts have left it. -/
theorem annotateStaff_of_staff (aligned : a.Aligned) (hsome : a.staff.isSome)
    (hread : Markup.readAll tokens = .ok markups) (room : markups.length ≤ a.tabNotes.length) :
    annotateStaff a (s.placed tokens markups) (s.captioned a markups) =
      (PlacedToken.applyLastUntil PlacedToken.onStaff (s.placed tokens markups)
        (s.captioned a markups).staffNotes).mapState fun notes =>
          (s.captioned a markups).onStaffNotes fun _ => notes := by
  have hfits : ¬ (s.captioned a markups).staffNotes.length < (s.placed tokens markups).length := by
    have hlength := (aligned.notes hsome).length_eq
    rw [length_placed hread]
    show ¬ (markFrom _ _ a.staffNotes).length < _
    rw [length_markFrom]
    omega
  have hview : ¬ a.staff.isNone := by simpa [Option.isSome_iff_ne_none] using hsome
  rw [annotateStaff, if_neg hview, if_neg hfits]

/-- The second pass goes through if all fingers have their keys. -/
theorem fault_annotateStaff_iff (aligned : a.Aligned)
    (hread : Markup.readAll tokens = .ok markups) (room : markups.length ≤ a.tabNotes.length) :
    (annotateStaff a (s.placed tokens markups) (s.captioned a markups)).fault = none ↔
      (a.staff.isSome →
        Markup.FingersFit markups (a.tabNotes.length - markups.length) a.staffNotes) := by
  by_cases hsome : a.staff.isSome
  · rw [annotateStaff_of_staff aligned hsome hread room, forall_prop_of_true hsome]
    show (PlacedToken.applyLastUntil _ _ (markFrom _ _ a.staffNotes)).fault = none ↔ _
    rw [fault_applyLastUntil_placed hread, Markup.fingersFit_markFrom, length_markFrom,
      (aligned.notes hsome).length_eq]
  · have hview : a.staff.isNone := by simpa using hsome
    rw [annotateStaff, if_pos hview]
    exact iff_of_true rfl fun h => absurd h hsome

/-- Both passes together leave on every object of the staff what its token writes there. -/
theorem applyLastUntil_captioned (aligned : a.Aligned) (hsome : a.staff.isSome)
    (hread : Markup.readAll tokens = .ok markups) (takes : a.Takes markups) :
    PlacedToken.applyLastUntil PlacedToken.onStaff (s.placed tokens markups)
        (s.captioned a markups).staffNotes =
      .done (markFrom (a.tabNotes.length - markups.length)
        (s.marksAt (Markup.marksOnStaff a) markups) a.staffNotes) := by
  let notes := (s.captioned a markups).staffNotes
  have hlength : notes.length = a.tabNotes.length :=
    length_markFrom.trans (aligned.notes hsome).length_eq.symm
  have hfit : Markup.FingersFit markups (notes.length - markups.length) notes := by
    rw [hlength]
    exact Markup.fingersFit_markFrom.2 (takes.fingers hsome)
  have honStaff : Markup.marksOnStaff a = fun font side markup =>
      (if a.tab.isSome then [] else markup.captionMarks font side) ++
        (markup.sharedMarks ++ markup.fingerMarks) := by
    funext font side markup
    rw [Markup.marksOnStaff, if_pos hsome]
  have hstate :
      (PlacedToken.applyLastUntil PlacedToken.onStaff (s.placed tokens markups) notes).state =
        markFrom (a.tabNotes.length - markups.length)
          (s.marksAt (Markup.marksOnStaff a) markups) a.staffNotes := by
    rw [state_applyLastUntil_placed hread hfit, hlength, honStaff]
    refine Eq.trans markFrom_markFrom ?_
    exact congrArg (markFrom _ · a.staffNotes) (funext fun i => marksAt_append _ _)
  rw [← hstate]
  exact Outcome.eq_done_of_fault ((fault_applyLastUntil_placed hread notes).2 hfit)

theorem annotateStaff_eq (aligned : a.Aligned) (hread : Markup.readAll tokens = .ok markups)
    (takes : a.Takes markups) :
    annotateStaff a (s.placed tokens markups) (s.captioned a markups) =
      .done (s.annotated a markups) := by
  by_cases hsome : a.staff.isSome
  · rw [annotateStaff_of_staff aligned hsome hread takes.room,
      applyLastUntil_captioned aligned hsome hread takes]
    rfl
  · have hview : a.staff.isNone := by simpa using hsome
    have hnotes := (aligned.unwritten (Option.isNone_iff_eq_none.1 hview)).2
    rw [annotateStaff, if_pos hview, annotated, captioned, hnotes]
    rfl

/-! ### Annotations -/

/-- Tokens that can be read go to the stave if there are objects for them. -/
theorem addAnnotations_of_read (ha : s.score.active = some a)
    (hread : Markup.readAll tokens = .ok markups) :
    s.addAnnotations tokens =
      if a.tabNotes.length < markups.length then .stopped s .tooManyAnnotations
      else
        (s.annotateTexts a (s.placed tokens markups)
          (lastSet Markup.side? s.settings.annotationSide markups)).andThen
            (annotateStaff a (s.placed tokens markups)) := by
  rw [addAnnotations, hread, ← Caption.ofMarkups_snd s.captionFont]
  show s.withStave _ = _
  rw [withStave, ha]
  rfl

theorem addAnnotations_of_takes (ha : s.score.active = some a) (aligned : a.Aligned)
    (hread : Markup.readAll tokens = .ok markups) (takes : a.Takes markups) :
    s.addAnnotations tokens = .done (s.annotated a markups) := by
  rw [addAnnotations_of_read ha hread, if_neg (Nat.not_lt.2 takes.room),
    annotateTexts_eq ha aligned hread takes.shown takes.room, Outcome.andThen_done,
    annotateStaff_eq aligned hread takes]

/-- Only tokens that the stave takes are carried out. -/
theorem takes_of_addAnnotations (ha : s.score.active = some a) (aligned : a.Aligned)
    (hread : Markup.readAll tokens = .ok markups)
    (hfault : (s.addAnnotations tokens).fault = none) : a.Takes markups := by
  rw [addAnnotations_of_read ha hread] at hfault
  have room : markups.length ≤ a.tabNotes.length := by
    by_contra hfew
    rw [if_pos (Nat.lt_of_not_le hfew)] at hfault
    cases hfault
  rw [if_neg (Nat.not_lt.2 room)] at hfault
  have shown : markups ≠ [] → a.tab.isSome ∨ a.staff.isSome := by
    intro hmarkups
    by_contra hviews
    obtain ⟨htab, hstaff⟩ := not_or.1 hviews
    have hnotes := (aligned.unwritten (Option.not_isSome_iff_eq_none.1 hstaff)).2
    have hfew : a.staffNotes.length < (s.placed tokens markups).length := by
      rw [length_placed hread, hnotes]
      exact List.length_pos_iff.2 hmarkups
    have htexts := (Outcome.fault_andThen_eq_none hfault).1
    rw [annotateTexts, if_neg htab, if_pos hfew] at htexts
    cases htexts
  rw [annotateTexts_eq ha aligned hread shown room, Outcome.andThen_done] at hfault
  exact ⟨room, shown, (fault_annotateStaff_iff aligned hread room).1 hfault⟩

/-- **Annotations land on the last objects, one token on each.** After any events, with a stave:
annotations are carried out if and only if all tokens can be read and the stave takes them, and then
they leave `Session.annotated`. If a token is written wrongly the list is refused as malformed, if
there are more tokens than objects as having too many, and in both cases the session stays as it
was. -/
theorem annotations_land (setup : PageSetup) (events : List Event) {a : Stave}
    (ha : (follow events (start setup)).score.active = some a) (tokens : List String) :
    let s := follow events (start setup)
    (∀ t, s.addAnnotations tokens = .done t ↔
      ∃ markups, List.Forall₂ (fun token markup => Markup.read token = .ok markup) tokens markups ∧
        a.Takes markups ∧ t = s.annotated a markups) ∧
      (∀ token ∈ tokens, ∀ wrong, Markup.read token = .error wrong →
        ∃ cause, s.addAnnotations tokens = .stopped s cause ∧ cause.kind = .malformed) ∧
      ((∀ token ∈ tokens, ∃ markup, Markup.read token = .ok markup) →
        a.tabNotes.length < tokens.length →
        ∃ cause, s.addAnnotations tokens = .stopped s cause ∧ cause.kind = .arity) := by
  intro s
  have aligned : a.Aligned :=
    follow_aligned setup events a (Score.mem_staves.2 (.inr ha))
  refine ⟨fun t => ⟨fun h => ?_, ?_⟩, fun token hmem wrong hwrong => ?_, fun hreads hfew => ?_⟩
  · cases hread : Markup.readAll tokens with
    | error cause =>
        rw [addAnnotations, hread] at h
        cases congrArg Outcome.fault h
    | ok markups =>
        have takes := takes_of_addAnnotations ha aligned hread (congrArg Outcome.fault h)
        rw [addAnnotations_of_takes ha aligned hread takes] at h
        exact ⟨markups, Markup.readAll_eq_ok_iff.1 hread, takes,
          (congrArg Outcome.state h).symm⟩
  · rintro ⟨markups, hreads, takes, rfl⟩
    exact addAnnotations_of_takes ha aligned (Markup.readAll_eq_ok_iff.2 hreads) takes
  · obtain ⟨first, hfirst⟩ := Markup.exists_readAll_eq_error hmem hwrong
    obtain ⟨_, -, hcause⟩ := Markup.exists_of_readAll_eq_error hfirst
    refine ⟨first, ?_, Markup.kind_of_read_eq_error hcause⟩
    rw [addAnnotations, hfirst]
    rfl
  · cases hread : Markup.readAll tokens with
    | error cause =>
        obtain ⟨token, hmem, hwrong⟩ := Markup.exists_of_readAll_eq_error hread
        obtain ⟨markup, hmarkup⟩ := hreads token hmem
        rw [hwrong] at hmarkup
        cases hmarkup
    | ok markups =>
        have hlength := (Markup.readAll_eq_ok_iff.1 hread).length_eq
        refine ⟨.tooManyAnnotations, ?_, rfl⟩
        rw [addAnnotations_of_read ha hread, if_pos (hlength ▸ hfew)]

/-- Two open strings on both views and a bar: the first has a text on top of it on tablature, the
second a finger on the staff, and the bar takes nothing. A fourth token and a fingering that cannot
be read leave the session as it was. -/
theorem annotations_land_onBothViews :
    let openString (string : Nat) : Event :=
      .note ⟨none, false, some (.number 0), some string, none, none, none, none⟩
    let events := [.stave (.defaults .implicit), openString 1, openString 2, .bar .single]
    let s := follow events (start .standard)
    let tokens := [".top.Riff", ".fingering/1:l:f:2.", "Am"]
    ∃ a markups, s.score.active = some a ∧ Markup.readAll tokens = .ok markups ∧ a.Takes markups ∧
      s.addAnnotations tokens = .done (s.annotated a markups) ∧
      (s.annotated a markups).settings.annotationSide = .top ∧
      (∀ token ∈ "Am" :: tokens, ∃ markup, Markup.read token = .ok markup) ∧
      (∃ cause, s.addAnnotations ("Am" :: tokens) = .stopped s cause ∧ cause.kind = .arity) ∧
      Markup.read ".fingering/1." = .error (.badFingering "1") ∧
      ∃ cause, s.addAnnotations (".fingering/1." :: tokens) = .stopped s cause ∧
        cause.kind = .malformed := by
  intro openString events s tokens
  have hthree : s.score.active.map (·.tabNotes.length) = some 3 := by decide +kernel
  have hfault : (s.addAnnotations tokens).fault.isNone := by decide +kernel
  subst s
  obtain ⟨a, ha, hlength⟩ := Option.map_eq_some_iff.1 hthree
  have lands := annotations_land .standard events ha
  let marked : List Markup :=
    [.label (.styled .top "Riff"), .fingering [⟨1, .left, .finger, "2"⟩], .label (.plain "Am")]
  have hread : Markup.readAll tokens = .ok marked := by decide
  have hreads : ∀ token ∈ "Am" :: tokens, ∃ markup, Markup.read token = .ok markup := by
    intro token hmem
    have hmore : Markup.readAll ("Am" :: tokens) = .ok (.label (.plain "Am") :: marked) := by
      rw [Markup.readAll, hread]
      rfl
    obtain ⟨markup, -, hmarkup⟩ := exists_of_mem_forall₂ (Markup.readAll_eq_ok_iff.1 hmore) hmem
    exact ⟨markup, hmarkup⟩
  have hwrong : Markup.read ".fingering/1." = .error (.badFingering "1") := by decide
  have hdone := Outcome.eq_done_of_fault (Option.isNone_iff_eq_none.1 hfault)
  obtain ⟨markups, hmarkups, takes, hstate⟩ := ((lands tokens).1 _).1 hdone
  rw [← Markup.readAll_eq_ok_iff, hread] at hmarkups
  cases hmarkups
  refine ⟨a, marked, ha, hread, takes, ?_, ?_, hreads, ?_, hwrong, ?_⟩
  · rw [hdone, hstate]
  · rw [annotationSide_annotated]
    rfl
  · exact (lands ("Am" :: tokens)).2.2 hreads (hlength ▸ by decide)
  · exact (lands (".fingering/1." :: tokens)).2.1 _ List.mem_cons_self _ hwrong

end Session

end Tablature
