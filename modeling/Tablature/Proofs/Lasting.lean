/-
# Tablature.Proofs.Lasting — whatever takes time takes some.

Durations are positive, notes and rests are written with the multiplier one, and a tuplet multiplies
by a positive factor. So every object that takes time takes a positive amount of it, in every stave
that a session can ever have (`Stave.Lasts.step`). This is what the timetable needs: the schedule of
every compiled score tells exactly when its objects start (`schedule_tells`).
-/
import Tablature.Proofs.Display
import Tablature.Proofs.Objects
import Tablature.Proofs.Timing

namespace Tablature

theorem Duration.ticks_pos (d : Duration) : 0 < d.ticks := by
  have hdenominator : 0 < d.value.denominator := by cases d.value <;> decide
  have hbase : 0 < (ticksPerWhole : Ticks) / (d.value.denominator : Ticks) := by
    rw [Rat.div_def]
    exact Rat.mul_pos (Rat.natCast_pos.2 (by decide))
      (Rat.inv_pos.2 (Rat.natCast_pos.2 hdenominator))
  rw [ticks]
  split
  · exact Rat.mul_pos hbase (by grind)
  · exact hbase

/-! ## Objects -/

namespace Tickable

variable {t u : Tickable}

/-- Whether an object lasts can be read off what is heard of it. -/
theorem lasts_iff : t.Lasts ↔ ∀ n, t.heard = some n → 0 < n.ticks := by
  unfold Lasts heard
  cases t.ignoresTicks with
  | true => simp
  | false => simp [ScheduledNote.of]

theorem Lasts.of_heard_eq (ht : t.Lasts) (h : u.heard = t.heard) : u.Lasts := by
  rw [lasts_iff, h]
  exact lasts_iff.1 ht

theorem Lasts.mark (ht : t.Lasts) (index : Nat) (m : Modifier) : (t.mark index m).Lasts :=
  ht.of_heard_eq (t.heard_mark index m)

theorem Lasts.hide (ht : t.Lasts) : t.hide.Lasts := ht.of_heard_eq t.heard_hide

theorem Lasts.marks {allows : Tickable → Nat → Modifier → Prop} (ht : t.Lasts)
    (h : Marks allows t u) : u.Lasts := by
  induction h with
  | refl => exact ht
  | add _ _ ih => exact ih.mark _ _

theorem Lasts.markAnchor (ht : t.Lasts) (phrases : List (Nat × List BendStep)) :
    (BendChain.markAnchor phrases t).Lasts := by
  induction phrases generalizing t with
  | nil => exact ht
  | cons phrase phrases ih => exact ih (ht.mark phrase.1 (.bend phrase.2))

theorem Lasts.scaleTicks (ht : t.Lasts) {factor : Ticks} (h : 0 < factor) :
    (t.scaleTicks factor).Lasts := by
  rw [lasts_iff, heard_scaleTicks]
  intro n hn
  obtain ⟨n', hn', rfl⟩ := Option.map_eq_some_iff.1 hn
  exact Rat.mul_pos (lasts_iff.1 ht n' hn') h

/-- What is written has the multiplier one. -/
theorem multiplier_pos : (0 : Ticks) < 1 := by decide

theorem lasts_bar (type : BarType) : (bar type).Lasts := fun htakes => nomatch htakes

theorem lasts_tabNote (session : Session) (entries : List ResolvedEntry) :
    (tab (session.tabNote entries)).Lasts :=
  fun _ => Rat.mul_pos (Duration.ticks_pos _) multiplier_pos

theorem lasts_staffNote (session : Session) (entries : List ResolvedEntry) :
    (staff (session.staffNote entries)).Lasts :=
  fun _ => Rat.mul_pos (Duration.ticks_pos _) multiplier_pos

theorem lasts_restNote (session : Session) (key : Pitch) : (session.restNote key).Lasts :=
  fun _ => Rat.mul_pos (Duration.ticks_pos _) multiplier_pos

theorem lasts_tabRest (session : Session) (key : Pitch) : (session.tabRest key).Lasts := by
  unfold Session.tabRest
  split
  · exact lasts_restNote session key
  · exact fun _ => Rat.mul_pos (Duration.ticks_pos _) multiplier_pos

end Tickable

/-! ## Staves -/

/-- Every object of a voice lasts. -/
def VoiceLasts (voice : List Tickable) : Prop := ∀ t ∈ voice, t.Lasts

/-- Every object of a stave lasts. -/
structure Stave.Lasts (s : Stave) : Prop where
  tabVoices : ∀ voice ∈ s.tabVoices, VoiceLasts voice
  tabNotes : VoiceLasts s.tabNotes
  staffVoices : ∀ voice ∈ s.staffVoices, VoiceLasts voice
  staffNotes : VoiceLasts s.staffNotes

namespace Stave.Lasts

variable {s : Stave}

theorem iff_every : s.Lasts ↔ s.Every Tickable.Lasts Tickable.Lasts :=
  ⟨fun h => ⟨h.tabVoices, h.tabNotes, h.staffVoices, h.staffNotes⟩,
    fun h => ⟨h.tabVoices, h.tabNotes, h.staffVoices, h.staffNotes⟩⟩

theorem blank (tab : Option TabView) (staff : Option StaffView) (beamGroups : List BeamGroup) :
    (Stave.blank tab staff beamGroups).Lasts :=
  iff_every.2 (.blank tab staff beamGroups)

/-- Whatever happens to a stave, its objects last. -/
theorem step {idle : Prop} {a b : Stave} (h : StaveStep idle a b) (ha : a.Lasts) : b.Lasts := by
  rw [iff_every] at ha ⊢
  have marked {allows : Tickable → Nat → Modifier → Prop} {notes notes' : List Tickable}
      (hmarks : List.Forall₂ (Marks allows) notes notes') (hnotes : ∀ t ∈ notes, t.Lasts) :
      ∀ t ∈ notes', t.Lasts :=
    forall_mem_of_forall₂ (fun _ _ htu ht => ht.marks htu) hmarks hnotes
  cases h with
  | texts voices => exact ha.texts voices
  | bar type => exact ha.push (Tickable.lasts_bar type) (Tickable.lasts_bar type)
  | rest session key =>
      exact ha.push (Tickable.lasts_tabRest session key) (Tickable.lasts_restNote session key)
  | note session entries hne =>
      exact ha.push (Tickable.lasts_tabNote session entries)
        (Tickable.lasts_staffNote session entries)
  | markTab h => exact ha.withTabNotes (marked h ha.tabNotes)
  | markStaff h => exact ha.withStaffNotes (marked h ha.staffNotes)
  | scale count factor hcount hfactor =>
      exact ha.scale (fun _ ht => ht.scaleTicks hfactor) (fun _ ht => ht.scaleTicks hfactor) count
  | closeChain chain through =>
      exact ha.withTabNotes (chain.forall_mem_close (fun _ ht => ht.hide)
        (fun _ _ ht => ht.markAnchor chain.phrases) ha.tabNotes through)
  | closeVoice => exact ha.closeVoice
  | finish => exact ha.finish

theorem playedVoices (hs : s.Lasts) : ∀ voice ∈ s.playedVoices, VoiceLasts voice := by
  intro voice hvoice
  rw [Stave.playedVoices, List.mem_filter] at hvoice
  obtain ⟨hmem, _⟩ := hvoice
  split at hmem
  · rcases List.mem_append.1 hmem with hmem | hmem
    · exact hs.staffVoices voice hmem
    · exact List.mem_singleton.1 hmem ▸ hs.staffNotes
  · rcases List.mem_append.1 hmem with hmem | hmem
    · exact hs.tabVoices voice hmem
    · exact List.mem_singleton.1 hmem ▸ hs.tabNotes

end Stave.Lasts

/-! ## Scores -/

/-- Every object of a session lasts. -/
def Session.Lasts (s : Session) : Prop := ∀ stave ∈ s.score.staves, stave.Lasts

namespace Session.Lasts

variable {s t : Session}

theorem start (setup : PageSetup) : (Session.start setup).Lasts := by
  intro stave hmem
  cases hmem

theorem step (h : Step s t) (hs : s.Lasts) : t.Lasts :=
  h.forall_staves Stave.Lasts.blank Stave.Lasts.step hs

/-- A session whose objects last has a schedule that tells when they start. -/
theorem tells (hs : s.Lasts) : s.schedule.timetable.Tells s.score.playedVoices := by
  refine Timetable.tells_build fun voices hvoices voice hvoice => ?_
  obtain ⟨stave, hstave, rfl⟩ := List.mem_map.1 hvoices
  exact (hs stave hstave).playedVoices voice hvoice

end Session.Lasts

/-- **The schedule loses, doubles and misplaces nothing.** In the schedule of a compiled score the
ticks of the groups rise; each group holds exactly what starts at its tick, in the order of staves,
voices and slots, and all of it on one stave; and every group is before the end, which is reached
when the longest voices of all staves have been played. -/
theorem schedule_tells {setup : PageSetup} {directives : List Directive} {s : Session}
    (h : compileDirectives setup directives = .ok s) :
    s.schedule.timetable.Tells s.score.playedVoices := by
  obtain ⟨_, rfl⟩ := compileDirectives_eq_ok h
  exact (compile_induction (P := Session.Lasts) .start .step setup directives).tells

/-- Three notes as a triplet before a bar, a second voice of one note, and another stave. -/
def tripletAgainstNote : List Directive :=
  let note : NoteElement := { NoteElement.idle with fret := some (.number 3), string := some 2 }
  let triplet : NoteElement :=
    { NoteElement.idle with command := some "tuplet", parameters := some (.tuplet 3 none) }
  let bar : NoteElement := { NoteElement.idle with command := some "bar" }
  let directive (keyword : String) (notes : List NoteElement) : Directive :=
    { keyword, options := [], settings := [], notes, text := [], line := none, column := none }
  [directive "tabstave" [note, note, note, triplet, bar], directive "voice" [note],
    directive "stave" [note]]

/-- The triplet takes the time of two notes. The second voice starts with it, and the second stave
when it has ended. -/
theorem schedule_tells_tripletAgainstNote :
    ∃ s, compileDirectives .standard tripletAgainstNote = .ok s ∧
      s.schedule.timetable.events.map TickGroup.tick = [0, 8192 / 3, 16384 / 3, 8192] ∧
      s.schedule.timetable.events.map (·.notes.length) = [2, 1, 1, 1] ∧
      s.schedule.timetable.Tells s.score.playedVoices := by
  have compiles : compileDirectives .standard tripletAgainstNote = .ok _ := rfl
  refine ⟨_, compiles, ?_, ?_, schedule_tells compiles⟩
  · decide +kernel
  · decide +kernel

end Tablature
