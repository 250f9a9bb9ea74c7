/-
# Tablature.Proofs.Learning — what the memory of a session can hold.

A session spells its notes against a memory. Three things change it: a name is selected, the key
is set (a new measure sets the key that there is), and everything is forgotten. `learns_handle`
says that an event does nothing else, and that it selects only names of frets and the names of its
own pitch letters. What the tables of the memory hold is therefore known after any events
(`Holds.follow`): under a pitch class stands a name of this class, and it was taught by a key, a
fret or a letter. Most events do not spell at all: for them the measure goes on with the same stave,
tuning and memory (`Session.SameMeasure`).
-/
import Mathlib.Logic.Relation
import Tablature.Proofs.Played

namespace Tablature

open Relation (ReflTransGen)

/-! ## Changes of a memory -/

namespace SpellingMemory

/-- One change of a memory that is taught only certain names. -/
inductive Change (taught : NoteName → Prop) : SpellingMemory → SpellingMemory → Prop
  | select (m : SpellingMemory) {n : NoteName} (h : taught n) : Change taught m (m.select n).1
  | setKey (m : SpellingMemory) (key : String) : Change taught m (m.setKey key).state
  | forget (m : SpellingMemory) : Change taught m .cMajor

/-- A memory after some changes. -/
abbrev Learns (taught : NoteName → Prop) : SpellingMemory → SpellingMemory → Prop :=
  ReflTransGen (Change taught)

/-- A memory after certain names were selected. -/
abbrev Selects (taught : NoteName → Prop) : SpellingMemory → SpellingMemory → Prop :=
  ReflTransGen fun m m' => ∃ n, taught n ∧ m' = (m.select n).1

variable {taught : NoteName → Prop}

theorem Learns.of_eq {m m' : SpellingMemory} (h : m' = m) : Learns taught m m' := h ▸ .refl

theorem Learns.reset (m : SpellingMemory) : Learns taught m m.reset.state :=
  .single (.setKey m m.key)

theorem Selects.learns {m m' : SpellingMemory} (h : Selects taught m m') : Learns taught m m' := by
  induction h with
  | refl => exact .refl
  | tail _ hselect ih =>
      obtain ⟨n, hn, rfl⟩ := hselect
      exact ih.tail (.select _ hn)

theorem key_select (m : SpellingMemory) (n : NoteName) : (m.select n).1.key = m.key := by
  unfold SpellingMemory.select
  dsimp only
  split
  · rfl
  · split <;> rfl

/-- Selecting does not change the key. -/
theorem Selects.key {m m' : SpellingMemory} (h : Selects taught m m') : m'.key = m.key := by
  induction h with
  | refl => rfl
  | tail _ hselect ih =>
      obtain ⟨n, -, rfl⟩ := hselect
      exact (key_select _ n).trans ih

end SpellingMemory

/-! ## What operations teach -/

/-- The name that the pitch letter of an entry stands for. -/
def NoteEntry.letterName? (e : NoteEntry) : Option NoteName :=
  e.letterPitch.bind fun p => (Resolver.letterName p).toOption

/-- The names of the pitch letters that an event writes. -/
def Event.letterNames (event : Event) : List NoteName :=
  (event.chord?.getD []).filterMap NoteEntry.letterName?

section Learns

open SpellingMemory (Learns Selects)

variable {taught : NoteName → Prop}

/-- Resolving a fret selects the name that every pitch of its class has. -/
theorem selects_fret (hfret : ∀ v, taught (.canonical v)) (r : Resolver) (m : SpellingMemory)
    (fret string : Nat) : Selects taught m (r.fret m fret string).1 := by
  unfold Resolver.fret
  cases hpitch : r.tuning.pitchAt fret string with
  | error cause => exact .refl
  | ok pitch =>
      have hname : taught pitch.name := by
        unfold Tuning.pitchAt at hpitch
        split at hpitch
        · cases hpitch
        · split at hpitch
          · cases hpitch
            exact hfret _
          · cases hpitch
      exact .single ⟨pitch.name, hname, rfl⟩

/-- Resolving an entry selects the name of its fret or of its letter. -/
theorem selects_entry (hfret : ∀ v, taught (.canonical v)) (r : Resolver) (m : SpellingMemory)
    {e : NoteEntry} (hletter : ∀ n, e.letterName? = some n → taught n) :
    Selects taught m (r.entry m e).1 := by
  unfold Resolver.entry
  cases hp : e.letterPitch with
  | some p =>
      dsimp only
      split
      · exact .refl
      · unfold Resolver.letter
        cases hname : Resolver.letterName p with
        | error cause => exact .refl
        | ok name =>
            have hwritten : e.letterName? = some name := by
              rw [NoteEntry.letterName?, hp, Option.bind_some, hname]
              rfl
            exact .single ⟨name, hletter name hwritten, rfl⟩
  | none =>
      dsimp only
      split
      · exact selects_fret hfret r m _ _
      all_goals exact .refl

theorem selects_resolveAll (hfret : ∀ v, taught (.canonical v)) (r : Resolver)
    {chord : List NoteEntry} (hletter : ∀ n ∈ chord.filterMap NoteEntry.letterName?, taught n)
    (m : SpellingMemory) : Selects taught m (ResolvedEntry.resolveAll r m chord).1 := by
  induction chord generalizing m with
  | nil => exact .refl
  | cons e chord ih =>
      have hfirst : Selects taught m (ResolvedEntry.resolve r m e).1 := by
        have hentry : Selects taught m (r.entry m e).1 := selects_entry hfret r m fun n hn =>
          hletter n (List.mem_filterMap.2 ⟨e, List.mem_cons_self, hn⟩)
        unfold ResolvedEntry.resolve
        generalize r.entry m e = attempt at hentry
        obtain ⟨memory, result⟩ := attempt
        cases result with
        | error cause => exact hentry
        | ok binding => exact hentry
      have hrest (m : SpellingMemory) : Selects taught m (ResolvedEntry.resolveAll r m chord).1 :=
        ih (fun n hn => hletter n (by
          obtain ⟨e', he', hn⟩ := List.mem_filterMap.1 hn
          exact List.mem_filterMap.2 ⟨e', List.mem_cons_of_mem e he', hn⟩)) m
      rw [ResolvedEntry.resolveAll]
      generalize ResolvedEntry.resolve r m e = attempt at hfirst
      obtain ⟨memory, result⟩ := attempt
      cases result with
      | error cause => exact hfirst
      | ok first =>
          have hall := hfirst.trans (hrest memory)
          dsimp only at hall ⊢
          generalize ResolvedEntry.resolveAll r memory chord = attempt at hall
          obtain ⟨memory', result⟩ := attempt
          cases result with
          | error cause => exact hall
          | ok rest => exact hall

namespace Session

/-! ## Events that do not spell -/

/-- The measure goes on: there is a stave if there was one, and its tuning and its spelling are in
force as before. -/
structure SameMeasure (s t : Session) : Prop where
  staved : t.score.active.isSome = s.score.active.isSome
  tuning : t.tuning = s.tuning
  memory : t.memory = s.memory

/-- Does the event leave the measure alone? A voice does so if there is a stave that it goes to. -/
def keepsMeasure (s : Session) : Event → Bool
  | .stave _ | .bar _ | .chord _ _ _ | .note _ | .fret _ _ | .reset => false
  | .voice _ => s.score.active.isSome
  | _ => true

variable {s : Session}

namespace SameMeasure

theorem refl (s : Session) : s.SameMeasure s := ⟨rfl, rfl, rfl⟩

theorem trans {s t u : Session} (h : s.SameMeasure t) (h' : t.SameMeasure u) : s.SameMeasure u :=
  ⟨h'.staved.trans h.staved, h'.tuning.trans h.tuning, h'.memory.trans h.memory⟩

theorem of_marked {s t : Session} (h : s.Marked t) : s.SameMeasure t where
  staved := by
    have hactive := h.active
    generalize s.score.active = a at hactive ⊢
    generalize t.score.active = b at hactive ⊢
    cases hactive <;> rfl
  tuning := h.tuning
  memory := h.memory

theorem onActive (f : Stave → Stave) : s.SameMeasure (s.onActive f) :=
  ⟨Option.isSome_map, rfl, rfl⟩

theorem closeBends (through : Bool) : s.SameMeasure (s.closeBends through) :=
  of_marked (marked_closeBends through)

theorem needing {α : Type} {value : Except Cause α} {next : α → Outcome Cause Session}
    (h : ∀ a, s.SameMeasure (next a).state) :
    s.SameMeasure (Outcome.needing value s next).state :=
  Outcome.needing_related (R := SameMeasure) .refl fun a _ => h a

theorem withStave {next : Stave → Outcome Cause Session}
    (h : ∀ a, s.SameMeasure (next a).state) : s.SameMeasure (s.withStave next).state := by
  unfold Session.withStave
  split
  · exact h _
  · exact .refl s

theorem setOptions (entries : List (String × String)) :
    s.SameMeasure (s.setOptions entries).state := by
  refine Outcome.andThen_related (R := SameMeasure) .trans ?_ ⟨rfl, rfl, rfl⟩
  exact Outcome.forEach_related (R := SameMeasure) .refl .trans
    (fun _ _ => needing fun _ => ⟨rfl, rfl, rfl⟩) entries s

theorem addRest (position : Int) : s.SameMeasure (s.addRest position).state :=
  (closeBends true).trans (needing fun _ => withStave fun _ => onActive _)

theorem bracket (a : Stave) (tuplets count : Nat) : s.SameMeasure (s.bracket a tuplets count) := by
  have hscaled (factor : Ticks) : s.SameMeasure
      ((s.onTabNotes (scaleLast count factor)).onStaffNotes (scaleLast count factor)) :=
    (onActive _).trans (onActive _)
  simp only [Session.bracket]
  split <;> split <;> exact ⟨(hscaled _).staved, rfl, rfl⟩

theorem makeTuplets (tuplets : Nat) (notes : Option Nat) :
    s.SameMeasure (s.makeTuplets tuplets notes).state := by
  simp only [Session.makeTuplets]
  split
  · exact .refl s
  · refine withStave fun a => ?_
    split
    · exact .refl s
    · exact bracket a _ _

theorem runCommand (line : String) : s.SameMeasure (s.runCommand line).state := by
  simp only [Session.runCommand]
  split
  · split <;> exact ⟨rfl, rfl, rfl⟩
  · exact .refl s

/-- **Events that do not spell leave the measure alone**, whether they are carried out or not. -/
theorem handle (s : Session) {event : Event} (h : s.keepsMeasure event) :
    s.SameMeasure (s.handle event).state := by
  cases event with
  | options entries => exact setOptions entries
  | duration time dot => exact needing fun _ => ⟨rfl, rfl, rfl⟩
  | voice declaration =>
      obtain ⟨a, ha⟩ := Option.isSome_iff_exists.1 h
      show s.SameMeasure (s.addVoice declaration).state
      rw [addVoice, ha]
      exact (closeBends true).trans (onActive _)
  | rest position => exact addRest position
  | articulations tags => exact withStave fun _ => of_marked (marked_applyTags tags)
  | decorator decorator => exact withStave fun _ => of_marked (marked_decorate decorator)
  | annotations tokens => exact of_marked (marked_addAnnotations tokens)
  | tuplet tuplets notes => exact makeTuplets tuplets notes
  | command line => exact runCommand line
  | textVoice => exact withStave fun _ => onActive _
  | textFont spec =>
      refine needing fun font => ?_
      cases font <;> exact ⟨rfl, rfl, rfl⟩
  | text text style =>
      refine withStave fun _ => ?_
      split
      · exact .refl s
      · exact onActive _
  | render => exact (closeBends true).trans ⟨Option.isSome_map, rfl, rfl⟩
  | _ => cases h

end SameMeasure

/-! ## Events that spell -/

/-- An operation on the active stave may change the memory only as it does with a stave. -/
theorem learns_withStave {next : Stave → Outcome Cause Session}
    (h : ∀ a, Learns taught s.memory (next a).state.memory) :
    Learns taught s.memory (s.withStave next).state.memory := by
  unfold withStave
  split
  · exact h _
  · exact .refl

theorem memory_closeBends (through : Bool) : (s.closeBends through).memory = s.memory :=
  (marked_closeBends through).memory

/-- A chord selects what its entries select; writing what is resolved leaves the memory alone. -/
theorem selects_addChord (hfret : ∀ v, taught (.canonical v)) {chord : List NoteEntry}
    (hletter : ∀ n ∈ chord.filterMap NoteEntry.letterName?, taught n)
    (articulation : Option Articulation) (decorator : Option Decorator) :
    Selects taught s.memory (s.addChord chord articulation decorator).state.memory := by
  unfold addChord
  split
  · exact .refl
  · unfold withStave
    split
    · have hall : Selects taught s.memory (ResolvedEntry.resolveAll s.resolver s.memory chord).1 :=
        selects_resolveAll hfret s.resolver hletter s.memory
      generalize ResolvedEntry.resolveAll s.resolver s.memory chord = attempt at hall
      obtain ⟨memory, result⟩ := attempt
      cases result with
      | error cause => exact hall
      | ok entries =>
          have hwrites := Writes.writeChord { s with memory := memory } chord entries articulation
            decorator
          show Selects taught s.memory
            (({ s with memory := memory } : Session).writeChord chord entries articulation
              decorator).memory
          rw [hwrites.memory]
          exact hall
    · exact .refl

theorem memory_placeStave (d : StaveDeclaration) : (s.placeStave d).memory = s.memory := by
  unfold placeStave
  cases d.staff <;> cases d.tablature <;> rfl

/-- A new stave sets the key, whatever the memory held. -/
theorem memory_addStave (d : StaveDeclaration) :
    (s.addStave d).state.memory = (s.memory.setKey d.key).state := by
  have hmemory : ((s.closeBends true).placeStave d).memory = s.memory :=
    (memory_placeStave d).trans (memory_closeBends true)
  show (((s.closeBends true).placeStave d).memory.setKey d.key).state = _
  rw [hmemory]

theorem learns_addBar (type : BarType) : Learns taught s.memory (s.addBar type).state.memory := by
  have hreset : Learns taught s.memory (s.closeBends true).resetMemory.state.memory := by
    show Learns taught s.memory (s.closeBends true).memory.reset.state
    rw [memory_closeBends]
    exact .reset s.memory
  refine Outcome.andThen_related (R := fun s t : Session => Learns taught s.memory t.memory)
    .trans hreset (learns_withStave fun _ => .refl)

/-- **What an event teaches the memory**: names of frets, and the names of its pitch letters. -/
theorem learns_handle (hfret : ∀ v, taught (.canonical v)) (s : Session) {event : Event}
    (hletter : ∀ n ∈ event.letterNames, taught n) :
    Learns taught s.memory (s.handle event).state.memory := by
  by_cases hkeeps : s.keepsMeasure event
  · exact .of_eq (SameMeasure.handle s hkeeps).memory
  have hstave (d : StaveDeclaration) : Learns taught s.memory (s.addStave d).state.memory := by
    rw [memory_addStave]
    exact .single (.setKey s.memory d.key)
  cases event with
  | stave declaration => exact hstave declaration
  | voice declaration =>
      have hnone : s.score.active = none := by simpa [keepsMeasure] using hkeeps
      show Learns taught s.memory (s.addVoice declaration).state.memory
      rw [addVoice, hnone]
      exact hstave declaration
  | bar type => exact learns_addBar type
  | chord entries articulation decorator => exact (selects_addChord hfret hletter _ _).learns
  | note entry => exact (selects_addChord hfret hletter _ _).learns
  | fret fret string =>
      have hresolved : Selects taught s.memory (s.resolveFret fret string).1.memory :=
        selects_fret hfret s.resolver s.memory fret string
      simp only [handle]
      generalize s.resolveFret fret string = attempt at hresolved
      obtain ⟨after, result⟩ := attempt
      cases result with
      | ok binding => exact hresolved.learns
      | error cause => exact hresolved.learns
  | reset => exact .single (.forget s.memory)
  | _ => exact absurd rfl hkeeps

end Session

end Learns

end Tablature
