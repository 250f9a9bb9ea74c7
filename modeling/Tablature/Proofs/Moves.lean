/-
# Tablature.Proofs.Moves — what hides notes, and what bends them.

`Steps` allows more than ever happens: any chain may be closed on a stave. What is true of bends
needs to know that a chain is closed only where it was opened. So the changes of a session between
two resets are named once more, by what they do to bends: one opens a bend, one closes it, and every
other change is *calm* (`Session.Calm`). A calm change hides no note and bends none. It may write
notes, which are visible and not bent, and it may leave a voice, which is never entered again.
-/
import Tablature.Proofs.ChordSlots
import Tablature.Proofs.History

namespace Tablature

open Relation (ReflTransGen)

/-! ## How a note looks -/

namespace Modifier

/-- Is the mark a bend? -/
def isBend : Modifier → Bool
  | bend _ => true
  | _ => false

variable {m : Modifier}

theorem isBend_of_isPlain (h : m.isPlain) : m.isBend = false := by
  cases m with
  | bend phrase => cases h
  | _ => rfl

theorem accidental?_of_isPlain (h : m.isPlain) : m.accidental? = none := by
  cases m with
  | accidental a cautionary => cases h
  | _ => rfl

theorem accidental?_of_isFingerMark (h : m.isFingerMark) : m.accidental? = none := by
  cases m with
  | accidental a cautionary => cases h
  | _ => rfl

theorem isFingerMark_of_isPlain (h : m.isPlain) : m.isFingerMark = false := by
  cases m with
  | fingering label position => cases h
  | stringNumber label position => cases h
  | _ => rfl

theorem isBend_of_isFingerMark (h : m.isFingerMark) : m.isBend = false := by
  cases m with
  | bend phrase => cases h
  | _ => rfl

end Modifier

namespace TabNote

/-- The bends that are drawn from a note. -/
def bends (n : TabNote) : List Attached := n.modifiers.filter (·.modifier.isBend)

/-- A note as far as bends go: is it hidden, and which bends are drawn from it? -/
structure Look where
  ghost : Bool
  bends : List Attached
  deriving DecidableEq, Repr

/-- How a note looks. -/
def look (n : TabNote) : Look := ⟨n.ghost, n.bends⟩

/-- How a note looks when it is written: visible and without a bend. -/
def Look.new : Look := ⟨false, []⟩

end TabNote

namespace Tickable

/-- How an object looks that is a note on tablature. -/
def look? : Tickable → Option TabNote.Look
  | tab n => some n.look
  | _ => none

theorem eq_tab_of_look? {t : Tickable} {look : TabNote.Look} (h : t.look? = some look) :
    ∃ n, t = tab n ∧ n.look = look := by
  cases t with
  | tab n => exact ⟨n, rfl, Option.some.inj h⟩
  | _ => cases h

theorem look?_mark {m : Modifier} (h : m.isBend = false) (t : Tickable) (index : Nat) :
    (t.mark index m).look? = t.look? := by
  cases t with
  | tab n =>
      let mark : Attached := ⟨index, m⟩
      have hbends : (n.modifiers ++ [mark]).filter (·.modifier.isBend) = n.bends := by
        rw [List.filter_append, List.filter_cons_of_neg (by simp [mark, h])]
        exact List.append_nil _
      show some (⟨n.ghost, _⟩ : TabNote.Look) = some ⟨n.ghost, n.bends⟩
      rw [← hbends]
      rfl
  | _ => rfl

theorem look?_scaleTicks (t : Tickable) (factor : Ticks) :
    (t.scaleTicks factor).look? = t.look? := by
  cases t <;> rfl

end Tickable

theorem Marks.look?_eq {t u : Tickable} (h : Marks TabAllows t u) : u.look? = t.look? := by
  induction h with
  | refl => rfl
  | add _ hallows ih => rw [Tickable.look?_mark (Modifier.isBend_of_isPlain hallows.2), ih]

/-! ## Voices -/

/-- The notes of a voice look as they did before, or as new ones. -/
def SameLooks (before after : List Tickable) : Prop :=
  ∀ (i : Nat) (n : TabNote), after[i]? = some (.tab n) →
    n.look = .new ∨ ∃ m, before[i]? = some (.tab m) ∧ n.look = m.look

namespace SameLooks

theorem refl (notes : List Tickable) : SameLooks notes notes := by
  intro i n hn
  exact .inr ⟨n, hn, rfl⟩

theorem of_forall₂ {before after : List Tickable}
    (h : List.Forall₂ (fun t u => u.look? = t.look?) before after) : SameLooks before after := by
  intro i n hn
  obtain ⟨t, ht, hlook⟩ := forall₂_getElem? h.flip hn
  obtain ⟨m, rfl, hm⟩ := Tickable.eq_tab_of_look? (show t.look? = some n.look from hlook.symm)
  exact .inr ⟨m, ht, hm.symm⟩

theorem push (notes : List Tickable) {t : Tickable}
    (ht : ∀ n, t = .tab n → n.look = .new) : SameLooks notes (notes ++ [t]) := by
  intro i n hn
  rw [List.getElem?_append] at hn
  split at hn
  · exact .inr ⟨n, hn, rfl⟩
  · exact .inl (ht n (List.mem_singleton.1 (List.mem_of_getElem? hn)).symm)

theorem marked {before after : List Tickable} (h : List.Forall₂ (Marks TabAllows) before after) :
    SameLooks before after :=
  of_forall₂ (h.imp fun _ _ hmarks => hmarks.look?_eq)

theorem scaled (count : Nat) (factor : Ticks) (notes : List Tickable) :
    SameLooks notes (Session.scaleLast count factor notes) := by
  let Alike (t u : Tickable) : Prop := u.look? = t.look?
  refine of_forall₂ (forall₂_take_append (R := Alike) (fun _ => rfl) ?_)
  rw [List.forall₂_map_right_iff]
  exact List.forall₂_same.2 fun t _ => t.look?_scaleTicks factor

end SameLooks

/-! ## Staves -/

namespace Stave

/-- An object on tablature by its voice and its place in it. -/
def tabObject? (a : Stave) (voice index : Nat) : Option Tickable :=
  (a.tabVoice? voice).bind (·[index]?)

theorem tabObject?_of_lt {a : Stave} {voice : Nat} (h : voice < a.tabVoices.length) (index : Nat) :
    a.tabObject? voice index = (a.tabVoices[voice]?).bind (·[index]?) := by
  rw [tabObject?, tabVoice?, List.getElem?_append_left h]

theorem tabObject?_inProgress (a : Stave) (index : Nat) :
    a.tabObject? a.tabVoices.length index = a.tabNotes[index]? := by
  simp [tabObject?, tabVoice?]

theorem le_of_tabObject? {a : Stave} {voice index : Nat} {t : Tickable}
    (h : a.tabObject? voice index = some t) : voice ≤ a.tabVoices.length := by
  obtain ⟨notes, hnotes, _⟩ := Option.bind_eq_some_iff.1 h
  have hlt := (List.getElem?_eq_some_iff.1 hnotes).1
  rw [List.length_append, List.length_singleton] at hlt
  omega

/-- A calm change of a stave: its notes look as before or as new ones, and if one that is there lies
in the voice in progress afterwards, then it did before, in a voice that has only grown. -/
structure Calm (a b : Stave) : Prop where
  looks : ∀ voice index n, b.tabObject? voice index = some (.tab n) →
    n.look = .new ∨ ∃ m, a.tabObject? voice index = some (.tab m) ∧ n.look = m.look
  inProgress : ∀ index n, a.tabObject? b.tabVoices.length index = some (.tab n) →
    b.tabVoices.length = a.tabVoices.length ∧ a.tabNotes.length ≤ b.tabNotes.length

namespace Calm

theorem refl (a : Stave) : a.Calm a where
  looks := fun _ _ n hn => .inr ⟨n, hn, rfl⟩
  inProgress := fun _ _ _ => ⟨rfl, Nat.le_refl _⟩

/-- The voice in progress is written. -/
theorem write {a b : Stave} (hvoices : b.tabVoices = a.tabVoices)
    (hlength : a.tabNotes.length ≤ b.tabNotes.length) (hlooks : SameLooks a.tabNotes b.tabNotes) :
    a.Calm b where
  looks := by
    intro voice index n hn
    rcases Nat.lt_or_eq_of_le (le_of_tabObject? hn) with hlt | rfl
    · rw [tabObject?_of_lt hlt, hvoices] at hn
      rw [hvoices] at hlt
      exact .inr ⟨n, by rw [tabObject?_of_lt hlt, hn], rfl⟩
    · rw [tabObject?_inProgress] at hn
      rw [hvoices, tabObject?_inProgress]
      exact hlooks index n hn
  inProgress := fun _ _ _ => ⟨by rw [hvoices], hlength⟩

/-- When the voice in progress is left, every voice is empty or the start of what it was. -/
theorem exists_prefix_of_withVoice {a : Stave} {notes xs : List Tickable}
    (hstart : notes <+: a.tabNotes) {voice : Nat}
    (hxs : (withVoice a.tabVoices notes ++ [[]])[voice]? = some xs) :
    xs = [] ∨ ∃ ys, a.tabVoice? voice = some ys ∧ xs <+: ys := by
  rcases Nat.lt_trichotomy voice a.tabVoices.length with hlt | rfl | hlt
  · -- A finished voice stays.
    right
    refine ⟨xs, ?_, List.prefix_rfl⟩
    rw [tabVoice?, List.getElem?_append_left hlt]
    unfold withVoice at hxs
    split at hxs
    · rwa [List.getElem?_append_left hlt] at hxs
    · rwa [List.append_assoc, List.getElem?_append_left hlt] at hxs
  · -- The voice in progress is dropped or finished.
    unfold withVoice at hxs
    split at hxs
    · left
      simpa using hxs.symm
    · right
      refine ⟨a.tabNotes, by simp [tabVoice?], ?_⟩
      have heq : notes = xs := by simpa using hxs
      exact heq ▸ hstart
  · -- What comes after it is the new voice in progress.
    left
    unfold withVoice at hxs
    split at hxs
    · have hlen := (List.getElem?_eq_some_iff.1 hxs).1
      rw [List.length_append, List.length_singleton] at hlen
      omega
    · rw [List.getElem?_append_right (by simp; omega)] at hxs
      exact List.mem_singleton.1 (List.mem_of_getElem? hxs)

/-- The voice in progress is left. What is taken off its end before is no note. -/
theorem leave {a b : Stave} {notes : List Tickable} (hstart : notes <+: a.tabNotes)
    (hall : notes = [] → ∀ (i : Nat) (n : TabNote), a.tabNotes[i]? ≠ some (.tab n))
    (hvoices : b.tabVoices = withVoice a.tabVoices notes) (hnotes : b.tabNotes = []) :
    a.Calm b where
  looks := by
    intro voice index n hn
    obtain ⟨xs, hxs, hn⟩ := Option.bind_eq_some_iff.1 hn
    rw [tabVoice?, hvoices, hnotes] at hxs
    rcases exists_prefix_of_withVoice hstart hxs with rfl | ⟨ys, hys, rest, rfl⟩
    · cases hn
    · right
      refine ⟨n, ?_, rfl⟩
      rw [tabObject?, hys, Option.bind_some,
        List.getElem?_append_left (List.getElem?_eq_some_iff.1 hn).1, hn]
  inProgress := by
    -- A voice with a note in it is finished, and the one in progress has another number.
    intro index n hn
    exfalso
    rw [hvoices] at hn
    unfold withVoice at hn
    split at hn
    · rename_i hempty
      rw [tabObject?_inProgress] at hn
      exact hall (List.isEmpty_iff.1 hempty) index n hn
    · have hle := le_of_tabObject? hn
      rw [List.length_append, List.length_singleton] at hle
      omega

/-- The voice in progress is left as it is. -/
theorem leaveWhole {a b : Stave} (hvoices : b.tabVoices = withVoice a.tabVoices a.tabNotes)
    (hnotes : b.tabNotes = []) : a.Calm b := by
  refine leave List.prefix_rfl ?_ hvoices hnotes
  intro hnil i n hn
  rw [hnil] at hn
  cases hn

theorem closeVoice (a : Stave) : a.Calm a.closeVoice := leaveWhole rfl rfl

theorem finish (a : Stave) : a.Calm a.finish := by
  have hstaff (b : Stave) : b.finishStaff.tabVoices = b.tabVoices ∧
      b.finishStaff.tabNotes = b.tabNotes := by
    unfold finishStaff
    split <;> exact ⟨rfl, rfl⟩
  obtain ⟨hvoices, hnotes⟩ := hstaff a.finishTab
  have hfinished : a.finish.tabVoices = withVoice a.finishTab.tabVoices a.finishTab.tabNotes := by
    show withVoice a.finishTab.finishStaff.tabVoices a.finishTab.finishStaff.tabNotes = _
    rw [hvoices, hnotes]
  unfold finishTab at hfinished
  split at hfinished
  · rename_i type hend
    obtain ⟨last, hlast, hbar⟩ := Option.bind_eq_some_iff.1 hend
    obtain ⟨rest, heq⟩ := List.getLast?_eq_some_iff.1 hlast
    refine leave (List.dropLast_prefix _) ?_ hfinished rfl
    intro hnil i n hn
    rw [heq, List.dropLast_concat] at hnil
    rw [heq, hnil, List.nil_append] at hn
    have hmem := List.mem_singleton.1 (List.mem_of_getElem? hn)
    rw [← hmem] at hbar
    cases hbar
  · exact leaveWhole hfinished rfl

end Calm

/-- A step of a stave that leaves bends alone. -/
inductive Move (idle : Prop) : Stave → Stave → Prop
  | texts (a : Stave) (voices : List (List TextNote)) : Move idle a { a with textVoices := voices }
  | bar (a : Stave) (type : BarType) (h : idle) : Move idle a (a.push (.bar type) (.bar type))
  | rest (a : Stave) (session : Session) (key : Pitch) (h : idle) :
      Move idle a (a.push (session.tabRest key) (session.restNote key))
  | note (a : Stave) (session : Session) (entries : List ResolvedEntry) (h : entries ≠ [])
      (hmarks : ∀ e ∈ entries, e.MarksItsKey) :
      Move idle a (a.push (.tab (session.tabNote entries)) (.staff (session.staffNote entries)))
  | markTab (a : Stave) {notes : List Tickable}
      (h : List.Forall₂ (Marks TabAllows) a.tabNotes notes) :
      Move idle a { a with tabNotes := notes }
  | markStaff (a : Stave) {notes : List Tickable}
      (h : List.Forall₂ (Marks StaffAllows) a.staffNotes notes) :
      Move idle a { a with staffNotes := notes }
  | scale (a : Stave) (count : Nat) (factor : Ticks) (h : count ≤ Session.tupletRoom a)
      (hfactor : 0 < factor) :
      Move idle a
        { a with
          tabNotes := Session.scaleLast count factor a.tabNotes
          staffNotes := Session.scaleLast count factor a.staffNotes }
  | closeVoice (a : Stave) (h : idle) : Move idle a a.closeVoice

namespace Move

variable {idle : Prop} {a b : Stave}

theorem step (h : Move idle a b) : StaveStep idle a b := by
  cases h with
  | texts voices => exact .texts a voices
  | bar type h => exact .bar a type h
  | rest session key h => exact .rest a session key h
  | note session entries h _ => exact .note a session entries h
  | markTab h => exact .markTab a h
  | markStaff h => exact .markStaff a h
  | scale count factor h hfactor => exact .scale a count factor h hfactor
  | closeVoice h => exact .closeVoice a h

theorem calm_push (a : Stave) {onTab onStaff : Tickable}
    (h : ∀ n, onTab = .tab n → n.look = .new) : a.Calm (a.push onTab onStaff) :=
  .write rfl (by simp [Stave.push]) (.push a.tabNotes h)

theorem calm (h : Move idle a b) : a.Calm b := by
  cases h with
  | texts voices => exact .write rfl (Nat.le_refl _) (.refl _)
  | bar type h => exact calm_push a fun _ heq => nomatch heq
  | rest session key h =>
      refine calm_push a fun n heq => ?_
      unfold Session.tabRest at heq
      split at heq <;> cases heq
  | note session entries h _ =>
      refine calm_push a fun n heq => ?_
      cases heq
      rfl
  | markTab h => exact .write rfl (Nat.le_of_eq h.length_eq) (.marked h)
  | markStaff h => exact .write rfl (Nat.le_refl _) (.refl _)
  | scale count factor h hfactor =>
      exact .write rfl (Nat.le_of_eq (Session.length_scaleLast count factor a.tabNotes).symm)
        (.scaled count factor a.tabNotes)
  | closeVoice h => exact .closeVoice a

/-- While a bend is open the voice is not left. -/
theorem stays (h : Move idle a b) : idle ∨ b.tabVoices = a.tabVoices := by
  cases h with
  | closeVoice h => exact .inl h
  | _ => exact .inr rfl

end Move

end Stave

/-! ## Sessions -/

theorem Score.tabNote?_eq_some {s : Score} {r : NoteRef} {t : Tickable} :
    s.tabNote? r = some t ↔
      ∃ a, s.staves[r.stave]? = some a ∧ a.tabObject? r.voice r.index = some t := by
  unfold Score.tabNote? Stave.tabObject?
  rw [Option.bind_assoc, Option.bind_eq_some_iff]

namespace Session

/-- The address lies in the voice in progress. -/
def Current (s : Session) (r : NoteRef) : Prop :=
  ∃ a, s.score.active = some a ∧ r = s.tabAddress a r.index

/-- What a calm change does to the staves: nothing, or it moves the active one, opens one, or
finishes all of them. -/
inductive Change : Session → Session → Prop
  | beside {s t : Session} (step : Step s t) (hearlier : t.score.earlier = s.score.earlier)
      (hactive : t.score.active = s.score.active) : Change s t
  | active {s : Session} {a b : Stave} (ha : s.score.active = some a)
      (h : Stave.Move (s.bend = none) a b) :
      Change s { s with score := { s.score with active := some b } }
  | openStave (s : Session) (tab : Option TabView) (staff : Option StaffView)
      (beamGroups : List BeamGroup) (h : s.bend = none) :
      Change s { s with score := s.score.addStave (.blank tab staff beamGroups) }
  | finish (s : Session) (h : s.bend = none) :
      Change s { s with score := s.score.onEvery Stave.finish }

theorem Change.step {s t : Session} (h : Change s t) : Step s t := by
  cases h with
  | beside step _ _ => exact step
  | active ha h => exact .stave ha h.step
  | openStave tab staff beamGroups h => exact .openStave s tab staff beamGroups h
  | finish h => exact .finish s h

/-- A calm change of a session: an open bend stays as it is, and so does its voice, notes look as
before or as new ones, and no note that is there gets into the voice in progress. -/
structure Calm (s t : Session) : Prop where
  change : Change s t
  continues : s.score.Continues t.score
  bend : t.bend = s.bend
  stays : s.bend ≠ none → ∀ r, s.Current r → t.Current r
  looks : ∀ r n, t.score.tabNote? r = some (.tab n) →
    n.look = .new ∨ ∃ m, s.score.tabNote? r = some (.tab m) ∧ n.look = m.look
  current : ∀ r n, s.score.tabNote? r = some (.tab n) → t.Current r →
    s.Current r ∧ s.tabNotes.length ≤ t.tabNotes.length

variable {s t : Session}

theorem Current.eq_tabAddress {r : NoteRef} (hr : s.Current r) {a : Stave}
    (ha : s.score.active = some a) (i : Nat) : { r with index := i } = s.tabAddress a i := by
  obtain ⟨c, hc, haddress⟩ := hr
  rw [ha] at hc
  cases hc
  rw [haddress]
  rfl

theorem Current.at {r : NoteRef} (hr : s.Current r) (i : Nat) :
    s.Current { r with index := i } := by
  have hcurrent := hr
  obtain ⟨a, ha, _⟩ := hr
  exact ⟨a, ha, hcurrent.eq_tabAddress ha i⟩

namespace Calm

theorem step (h : s.Calm t) : Step s t := h.change.step

/-- The staves change calmly, each for itself. -/
theorem staves (change : Change s t) (continues : s.score.Continues t.score) (bend : t.bend = s.bend)
    (stays : s.bend ≠ none → ∀ r, s.Current r → t.Current r)
    (hlength : t.score.earlier.length = s.score.earlier.length)
    (h : ∀ (i : Nat) b, t.score.staves[i]? = some b → ∃ a, s.score.staves[i]? = some a ∧ a.Calm b) :
    s.Calm t where
  change := change
  continues := continues
  bend := bend
  stays := stays
  looks := by
    intro r n hn
    obtain ⟨b, hb, hn⟩ := Score.tabNote?_eq_some.1 hn
    obtain ⟨a, ha, hcalm⟩ := h r.stave b hb
    rcases hcalm.looks r.voice r.index n hn with hnew | ⟨m, hm, hlook⟩
    · exact .inl hnew
    · exact .inr ⟨m, Score.tabNote?_eq_some.2 ⟨a, ha, hm⟩, hlook⟩
  current := by
    intro r n hn hcurrent
    obtain ⟨b, hb, hr⟩ := hcurrent
    have hstave : r.stave = t.score.earlier.length := congrArg NoteRef.stave hr
    have hvoice : r.voice = b.tabVoices.length := congrArg NoteRef.voice hr
    obtain ⟨a, ha, hcalm⟩ := h _ b (Score.staves_eq_some.2 (.inr ⟨rfl, hb⟩))
    obtain ⟨c, hc, hn⟩ := Score.tabNote?_eq_some.1 hn
    rw [hstave, ha] at hc
    cases hc
    rw [hvoice] at hn
    obtain ⟨hvoices, hnotes⟩ := hcalm.inProgress r.index n hn
    rw [hlength] at ha hstave
    have hactive : s.score.active = some a := by
      rcases Score.staves_eq_some.1 ha with hearlier | ⟨_, hactive⟩
      · exact absurd (List.getElem?_eq_some_iff.1 hearlier).1 (Nat.lt_irrefl _)
      · exact hactive
    rw [tabNotes_eq hactive, tabNotes_eq hb]
    refine ⟨⟨a, hactive, ?_⟩, hnotes⟩
    rw [hvoices] at hvoice
    exact congrArg₂ (fun stave voice => NoteRef.mk stave voice r.index) hstave hvoice

/-- Links and everything that is not written leave the notes alone. -/
theorem beside (step : Step s t) (hearlier : t.score.earlier = s.score.earlier)
    (hactive : t.score.active = s.score.active) (bend : t.bend = s.bend) : s.Calm t := by
  have hstaves : t.score.staves = s.score.staves := by
    rw [Score.staves, Score.staves, hearlier, hactive]
  refine .staves (.beside step hearlier hactive) (.of_staves hstaves) bend ?_
    (by rw [hearlier]) ?_
  · intro _ r hr
    unfold Current tabAddress at hr ⊢
    rwa [hearlier, hactive]
  · intro i b hb
    rw [hstaves] at hb
    exact ⟨b, hb, .refl b⟩

/-- The active stave changes. -/
theorem active {a b : Stave} (ha : s.score.active = some a) (h : Stave.Move (s.bend = none) a b) :
    s.Calm { s with score := { s.score with active := some b } } := by
  refine .staves (.active ha h) (.active ha (.step h.step)) rfl ?_ rfl ?_
  · intro hopen r hr
    have hvoices : b.tabVoices = a.tabVoices := h.stays.resolve_left hopen
    refine ⟨b, rfl, ?_⟩
    rw [tabAddress, hvoices]
    exact hr.eq_tabAddress ha r.index
  · intro i c hc
    rcases Score.staves_eq_some.1 hc with hearlier | ⟨hi, hactive⟩
    · exact ⟨c, Score.staves_eq_some.2 (.inl hearlier), .refl c⟩
    · cases hactive
      exact ⟨a, Score.staves_eq_some.2 (.inr ⟨hi, ha⟩), h.calm⟩

theorem openStave (s : Session) (tab : Option TabView) (staff : Option StaffView)
    (beamGroups : List BeamGroup) (h : s.bend = none) :
    s.Calm { s with score := s.score.addStave (.blank tab staff beamGroups) } where
  change := .openStave s tab staff beamGroups h
  continues := .addStave s.score _
  bend := rfl
  stays := fun hopen => absurd h hopen
  looks := by
    intro r n hn
    obtain ⟨b, hb, hn⟩ := Score.tabNote?_eq_some.1 hn
    rcases Score.staves_eq_some.1 hb with hearlier | ⟨_, hactive⟩
    · exact .inr ⟨n, Score.tabNote?_eq_some.2 ⟨b, hearlier, hn⟩, rfl⟩
    · cases hactive
      obtain ⟨notes, hnotes, hn⟩ := Option.bind_eq_some_iff.1 hn
      cases List.mem_singleton.1 (List.mem_of_getElem? hnotes)
      cases hn
  current := by
    intro r n hn hcurrent
    exfalso
    obtain ⟨b, _, hr⟩ := hcurrent
    have hstave : r.stave = s.score.staves.length := congrArg NoteRef.stave hr
    obtain ⟨a, ha, _⟩ := Score.tabNote?_eq_some.1 hn
    have hlt := (List.getElem?_eq_some_iff.1 ha).1
    omega

theorem finish (s : Session) (h : s.bend = none) :
    s.Calm { s with score := s.score.onEvery Stave.finish } := by
  refine .staves (.finish s h) (.onEvery .finish s.score) rfl (fun hopen => absurd h hopen)
    (List.length_map _) ?_
  intro i b hb
  rw [Score.staves_onEvery, List.getElem?_map] at hb
  obtain ⟨a, ha, rfl⟩ := Option.map_eq_some_iff.1 hb
  exact ⟨a, ha, .finish a⟩

/-- A note stays where it is and keeps its look. -/
theorem look_eq (h : s.Calm t) {r : NoteRef} {n : TabNote}
    (hn : s.score.tabNote? r = some (.tab n)) :
    ∃ n', t.score.tabNote? r = some (.tab n') ∧ n'.look = n.look := by
  obtain ⟨y, hy, hlater⟩ := h.continues.tabNote? hn rfl
  cases hlater with
  | tab n ghost hidden multiplier added =>
      refine ⟨_, hy, ?_⟩
      rcases h.looks r _ hy with hnew | ⟨m, hm, hlook⟩
      · -- It looks like a new one: then it was not hidden or bent before either.
        have hghost : ghost = false := congrArg TabNote.Look.ghost hnew
        have hbends : (n.modifiers ++ added).filter (·.modifier.isBend) = [] :=
          congrArg TabNote.Look.bends hnew
        rw [List.filter_append, List.append_eq_nil_iff] at hbends
        have hvisible : n.ghost = false := by
          cases hn' : n.ghost with
          | false => rfl
          | true => exact (hidden hn').symm.trans hghost
        rw [hnew]
        show TabNote.Look.mk false [] = TabNote.Look.mk n.ghost n.bends
        rw [hvisible]
        exact congrArg (TabNote.Look.mk false) hbends.1.symm
      · rw [hn] at hm
        cases hm
        exact hlook

end Calm

end Session

/-! ## Moves -/

/-- One change of a session between two resets. -/
inductive Move : Session → Session → Prop
  | calm {s t : Session} (h : s.Calm t) : Move s t
  | closeBends (s : Session) (through : Bool) : Move s (s.closeBends through)
  | openBends (s : Session) {indices : List Nat} {span : Span}
      (hspan : Span.ofNotes? s.tabNotes indices = some span) (hne : span.isEmpty = false)
      (htab : ∃ a, s.score.active = some a ∧ a.tab.isSome) :
      Move s (s.openBends span.previous span.previousIndices span.currentIndices)

namespace Move

variable {s t : Session}

theorem step (h : Move s t) : Step s t := by
  cases h with
  | calm h => exact h.step
  | closeBends through => exact .closeBends s through
  | openBends hspan hne _ => exact .openBends s hspan hne

/-- Whatever is written stays where it is. -/
theorem continues (h : Move s t) : s.score.Continues t.score := by
  cases h with
  | calm h => exact h.continues
  | closeBends through => exact s.continues_closeBends through
  | openBends _ _ _ => exact .of_staves (by rw [Session.score_openBends])

end Move

/-- A sequence of moves. -/
def Moves (s t : Session) : Prop := ReflTransGen Move s t

namespace Moves

variable {s t : Session}

theorem refl (s : Session) : Moves s s := ReflTransGen.refl

theorem trans {u : Session} (h : Moves s t) (h' : Moves t u) : Moves s u := ReflTransGen.trans h h'

theorem move (h : Move s t) : Moves s t := ReflTransGen.single h

theorem calm (h : s.Calm t) : Moves s t := move (.calm h)

theorem beside (h : Step s t) (hearlier : t.score.earlier = s.score.earlier)
    (hactive : t.score.active = s.score.active) (hbend : t.bend = s.bend) : Moves s t :=
  calm (.beside h hearlier hactive hbend)

theorem quiet (h : Quiet s t) : Moves s t := beside (.quiet h) h.earlier h.active h.bend

/-- What every move keeps is kept by a sequence of moves. -/
theorem keeps {P : Session → Prop} (each : ∀ {s t}, Move s t → P s → P t) (h : Moves s t)
    (hs : P s) : P t := by
  induction h with
  | refl => exact hs
  | tail _ hmove ih => exact each hmove ih

theorem steps (h : Moves s t) : Steps s t := by
  induction h with
  | refl => exact .refl s
  | tail _ hmove ih => exact ih.trans (.step hmove.step)

end Moves

end Tablature
