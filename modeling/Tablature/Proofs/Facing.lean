/-
# Tablature.Proofs.Facing — the two views of a stave show the same music.

A stave with a staff view is written twice, once on tablature and once on the staff, and nothing but
the order of writing holds the two together. `Faces` says which object of the staff may stand
opposite an object of tablature, `Stave.Aligned` that the voices of a stave face each other object
by object. Every step of a session keeps all staves aligned, so they are aligned after any events,
carried out or refused (`follow_aligned`). Places on tablature are therefore places on the staff,
which is what ties, annotations and tuplets rely on.
-/
import Tablature.Proofs.Operations

namespace Tablature

/-! ## Objects -/

/-- Which object of a staff may stand opposite an object of tablature: notes opposite notes, bars
opposite bars, and rests opposite whatever tablature shows for a rest. -/
inductive Faces : Tickable → Tickable → Prop
  | note {t : TabNote} {n : StaffNote} (nonempty : t.positions ≠ []) (sounds : n.rest = false)
      (keys : n.keys.length = t.positions.length) (duration : n.duration = t.duration)
      (multiplier : n.multiplier = t.multiplier) (playNotes : n.playNotes = t.playNotes) :
      Faces (.tab t) (.staff n)
  | bar (type : BarType) : Faces (.bar type) (.bar type)
  | space {duration : Duration} {multiplier : Ticks} {n : StaffNote} (rests : n.rest = true)
      (hduration : n.duration = duration) (hmultiplier : n.multiplier = multiplier) :
      Faces (.spacer duration multiplier) (.staff n)
  | rest {r n : StaffNote} (rests : r.rest = true) (rests' : n.rest = true)
      (duration : n.duration = r.duration) (multiplier : n.multiplier = r.multiplier) :
      Faces (.staff r) (.staff n)

namespace Faces

variable {a b : Tickable}

theorem mark_left (h : Faces a b) (index : Nat) (m : Modifier) : Faces (a.mark index m) b := by
  cases h with
  | note h0 h1 h2 h3 h4 h5 => exact .note h0 h1 h2 h3 h4 h5
  | bar type => exact .bar type
  | space h0 h1 h2 => exact .space h0 h1 h2
  | rest h0 h1 h2 h3 => exact .rest h0 h1 h2 h3

theorem mark_right (h : Faces a b) (index : Nat) (m : Modifier) : Faces a (b.mark index m) := by
  cases h with
  | note h0 h1 h2 h3 h4 h5 => exact .note h0 h1 h2 h3 h4 h5
  | bar type => exact .bar type
  | space h0 h1 h2 => exact .space h0 h1 h2
  | rest h0 h1 h2 h3 => exact .rest h0 h1 h2 h3

theorem hide_left (h : Faces a b) : Faces a.hide b := by
  cases h with
  | note h0 h1 h2 h3 h4 h5 => exact .note h0 h1 h2 h3 h4 h5
  | bar type => exact .bar type
  | space h0 h1 h2 => exact .space h0 h1 h2
  | rest h0 h1 h2 h3 => exact .rest h0 h1 h2 h3

theorem scaleTicks (h : Faces a b) (factor : Ticks) :
    Faces (a.scaleTicks factor) (b.scaleTicks factor) := by
  cases h with
  | note h0 h1 h2 h3 h4 h5 => exact .note h0 h1 h2 h3 (congrArg (· * factor) h4) h5
  | bar type => exact .bar type
  | space h0 h1 h2 => exact .space h0 h1 (congrArg (· * factor) h2)
  | rest h0 h1 h2 h3 => exact .rest h0 h1 h2 (congrArg (· * factor) h3)

theorem marks_left {allows : Tickable → Nat → Modifier → Prop} {a' : Tickable}
    (h : Faces a b) (hm : Marks allows a a') : Faces a' b := by
  induction hm with
  | refl => exact h
  | add _ _ ih => exact ih.mark_left _ _

theorem marks_right {allows : Tickable → Nat → Modifier → Prop} {b' : Tickable}
    (h : Faces a b) (hm : Marks allows b b') : Faces a b' := by
  induction hm with
  | refl => exact h
  | add _ _ ih => exact ih.mark_right _ _

theorem bar?_eq (h : Faces a b) : a.bar? = b.bar? := by
  cases h <;> rfl

/-- A slot of a chord is written alike on both views. -/
theorem chord (s : Session) {entries : List ResolvedEntry} (h : entries ≠ []) :
    Faces (.tab (s.tabNote entries)) (.staff (s.staffNote entries)) :=
  .note (by simpa [Session.tabNote] using h) rfl
    (by simp [Session.tabNote, Session.staffNote]) rfl rfl rfl

/-- A rest is written alike on both views, with stems on tablature or without. -/
theorem restNote (s : Session) (key : Pitch) : Faces (s.tabRest key) (s.restNote key) := by
  unfold Session.tabRest
  split
  · exact .rest rfl rfl rfl rfl
  · exact .space rfl rfl rfl

end Faces

/-- A voice on tablature and a voice on the staff, object by object. -/
abbrev VoicesFace (onTab onStaff : List Tickable) : Prop := List.Forall₂ Faces onTab onStaff

namespace VoicesFace

variable {xs ys : List Tickable}

theorem endBar?_eq (h : VoicesFace xs ys) : endBar? xs = endBar? ys := by
  have hlast := forall₂_getLast? h
  unfold endBar?
  generalize xs.getLast? = x at hlast ⊢
  generalize ys.getLast? = y at hlast ⊢
  cases hlast with
  | none => rfl
  | some hab => exact hab.bar?_eq

theorem isEmpty_eq (h : VoicesFace xs ys) : xs.isEmpty = ys.isEmpty := by
  cases h <;> rfl

theorem push {a b : Tickable} (h : VoicesFace xs ys) (hab : Faces a b) :
    VoicesFace (xs ++ [a]) (ys ++ [b]) :=
  List.rel_append h (.cons hab .nil)

theorem closed (chain : BendChain) (through : Bool) (h : VoicesFace xs ys) :
    VoicesFace (chain.close through xs) ys := by
  have keeps : List.Forall₂ (fun t u => ∀ n, Faces t n → Faces u n) xs (chain.close through xs) :=
    chain.forall₂_close (fun _ _ hn => hn) (fun htu huv n hn => huv n (htu n hn))
      (fun _ index phrase _ hn => hn.mark_left index (.bend phrase)) (fun _ _ hn => hn.hide_left)
      through xs
  exact forall₂_of_left keeps h fun _ _ n hkeep hface => hkeep n hface

end VoicesFace

/-! ## Staves -/

/-- **The alignment of the two views.** Without a staff view nothing is written on the staff; with
one, the finished voices face each other one by one, and so do the voices in progress. -/
structure Stave.Aligned (s : Stave) : Prop where
  unwritten : s.staff = none → s.staffVoices = [] ∧ s.staffNotes = []
  voices : s.staff.isSome → List.Forall₂ VoicesFace s.tabVoices s.staffVoices
  notes : s.staff.isSome → VoicesFace s.tabNotes s.staffNotes

namespace Stave.Aligned

variable {s : Stave}

theorem blank (tab : Option TabView) (staff : Option StaffView) (beamGroups : List BeamGroup) :
    (Stave.blank tab staff beamGroups).Aligned :=
  ⟨fun _ => ⟨rfl, rfl⟩, fun _ => .nil, fun _ => .nil⟩

theorem push (hs : s.Aligned) {onTab onStaff : Tickable} (h : Faces onTab onStaff) :
    (s.push onTab onStaff).Aligned where
  unwritten := fun hnone => by
    have hstaff : s.staff = none := hnone
    simpa [Stave.push, hstaff] using hs.unwritten hstaff
  voices := hs.voices
  notes := fun hsome => by
    have hface := (hs.notes hsome).push h
    have hstaff : s.staff.isSome := hsome
    simpa [Stave.push, hstaff] using hface

/-- A change of the voice in progress on tablature that no object of the staff notices. -/
theorem onTab (hs : s.Aligned) {notes : List Tickable}
    (h : VoicesFace s.tabNotes s.staffNotes → VoicesFace notes s.staffNotes) :
    ({ s with tabNotes := notes } : Stave).Aligned :=
  ⟨hs.unwritten, hs.voices, fun hsome => h (hs.notes hsome)⟩

theorem markStaff (hs : s.Aligned) {notes : List Tickable}
    (h : List.Forall₂ (Marks StaffAllows) s.staffNotes notes) :
    ({ s with staffNotes := notes } : Stave).Aligned where
  unwritten := fun hnone => by
    obtain ⟨hvoices, hnotes⟩ := hs.unwritten hnone
    rw [hnotes] at h
    cases h
    exact ⟨hvoices, rfl⟩
  voices := hs.voices
  notes := fun hsome =>
    forall₂_comp (hs.notes hsome) h fun _ _ _ hface hmarks => hface.marks_right hmarks

theorem scale (hs : s.Aligned) (count : Nat) (factor : Ticks) :
    ({ s with
      tabNotes := Session.scaleLast count factor s.tabNotes
      staffNotes := Session.scaleLast count factor s.staffNotes } : Stave).Aligned where
  unwritten := fun hnone => by
    obtain ⟨hvoices, hnotes⟩ := hs.unwritten hnone
    exact ⟨hvoices, by simp [hnotes, Session.scaleLast]⟩
  voices := hs.voices
  notes := fun hsome => forall₂_scaleLast (fun _ _ h => h.scaleTicks factor) (hs.notes hsome) count

/-- Empty voices are dropped on both views or on none. -/
theorem closeVoice (hs : s.Aligned) : s.closeVoice.Aligned where
  unwritten := fun hnone => by
    obtain ⟨hvoices, hnotes⟩ := hs.unwritten hnone
    exact ⟨by simp [Stave.closeVoice, Stave.withVoice, hvoices, hnotes], rfl⟩
  voices := fun hsome => by
    have hvoices := hs.voices hsome
    have hnotes := hs.notes hsome
    show List.Forall₂ VoicesFace (withVoice s.tabVoices s.tabNotes)
      (withVoice s.staffVoices s.staffNotes)
    rw [withVoice, withVoice, hnotes.isEmpty_eq]
    split
    · exact hvoices
    · exact List.rel_append hvoices (.cons hnotes .nil)
  notes := fun _ => .nil

/-- The bar that ends both voices is taken from both, or there is none. -/
theorem finishBars (hs : s.Aligned) : s.finishTab.finishStaff.Aligned := by
  cases hstaff : s.staff with
  | none =>
      -- Tablature may lose a bar, but on the staff there is none to lose.
      obtain ⟨hvoices, hnotes⟩ := hs.unwritten hstaff
      have htab : s.finishTab.staff = none ∧ s.finishTab.staffVoices = [] ∧
          s.finishTab.staffNotes = [] := by
        unfold finishTab
        split <;> exact ⟨hstaff, hvoices, hnotes⟩
      have hnobar : endBar? s.finishTab.staffNotes = none := by
        rw [htab.2.2]
        rfl
      rw [finishStaff, hnobar]
      refine ⟨fun _ => htab.2, fun hsome => ?_, fun hsome => ?_⟩ <;> simp [htab.1] at hsome
  | some view =>
      have hsome : s.staff.isSome := by simp [hstaff]
      have hvoices := hs.voices hsome
      have hnotes := hs.notes hsome
      -- The last objects face each other, so either both are the same bar or none is.
      have hbar := hnotes.endBar?_eq
      cases hend : endBar? s.tabNotes with
      | none =>
          have htab : s.finishTab = s := by rw [finishTab, hend]
          rw [htab, finishStaff, ← hbar, hend]
          exact hs
      | some type =>
          rw [hend] at hbar
          rw [finishTab, hend]
          dsimp only
          rw [finishStaff]
          dsimp only
          rw [← hbar]
          refine ⟨fun hnone => ?_, fun _ => hvoices, fun _ => forall₂_dropLast hnotes⟩
          simp [hstaff] at hnone

/-- Whatever happens to a stave keeps its views aligned. -/
theorem step {idle : Prop} {a b : Stave} (h : StaveStep idle a b) (ha : a.Aligned) : b.Aligned := by
  cases h with
  | texts voices => exact ⟨ha.unwritten, ha.voices, ha.notes⟩
  | bar type => exact ha.push (.bar type)
  | rest session key => exact ha.push (.restNote session key)
  | note session entries hne => exact ha.push (.chord session hne)
  | markTab h =>
      exact ha.onTab fun hface =>
        forall₂_of_left h hface fun _ _ _ hmarks hab => hab.marks_left hmarks
  | markStaff h => exact ha.markStaff h
  | scale count factor => exact ha.scale count factor
  | closeChain chain through => exact ha.onTab (.closed chain through)
  | closeVoice => exact ha.closeVoice
  | finish => exact ha.finishBars.closeVoice

end Stave.Aligned

/-! ## Sessions -/

/-- All staves of a session are aligned. -/
def Session.Aligned (s : Session) : Prop := ∀ stave ∈ s.score.staves, stave.Aligned

namespace Session.Aligned

variable {s t : Session}

theorem start (setup : PageSetup) : (Session.start setup).Aligned := by
  intro stave hmem
  cases hmem

/-- Every step of a session keeps its staves aligned. -/
theorem step (h : Step s t) (hs : s.Aligned) : t.Aligned :=
  h.forall_staves Stave.Aligned.blank Stave.Aligned.step hs

end Session.Aligned

/-- **The two views always agree.** After any events, carried out or refused, every stave is
aligned: where there is a staff view, tablature and staff have the same voices, the voices the same
lengths, and each object of tablature faces one of the staff that stands for the same thing. -/
theorem follow_aligned (setup : PageSetup) (events : List Event) :
    (Session.follow events (.start setup)).Aligned :=
  follow_induction (P := Session.Aligned) .start .step setup events

end Tablature
