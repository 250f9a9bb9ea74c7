/-
# Tablature.Proofs.Strategies — entries resolved under two strategies.

The strategy for accidentals is the last thing that an entry is resolved with: it decides which mark
a fret has, when its spelling is settled already. So under two strategies entries leave the same
memory, fail alike and differ in their marks alone (`ResolvedEntry.alike_resolveAll`). How the marks
differ if the second strategy is the cautionary one is what `Inscription.Courteous` says.
-/
import Mathlib.Data.List.Forall2
import Tablature.Session.Chord

namespace Tablature

/-! ## Attempts -/

/-- Two attempts that leave the same memory and fail alike, with results that are related. -/
inductive Attempt.Alike {α β : Type} (R : α → β → Prop) : Attempt α → Attempt β → Prop
  | ok (m : SpellingMemory) {a : α} {b : β} (h : R a b) : Alike R (m, .ok a) (m, .ok b)
  | error (m : SpellingMemory) (cause : Cause) : Alike R (m, .error cause) (m, .error cause)

theorem Attempt.Alike.imp {α β : Type} {R R' : α → β → Prop} (h : ∀ {a b}, R a b → R' a b)
    {x : Attempt α} {y : Attempt β} (hxy : Alike R x y) : Alike R' x y := by
  cases hxy with
  | ok m hab => exact .ok m (h hab)
  | error m cause => exact .error m cause

/-! ## Inscriptions -/

/-- A key as it is engraved: the accidental at it, and the entry that it comes from with the
strategy that the entry was resolved under. The key of a rest comes from no entry. -/
structure Inscription where
  key : Pitch
  mark : Option AccidentalMark
  source : Option (NoteEntry × AccidentalStrategy)
  deriving DecidableEq, Repr

namespace Inscription

/-- Does the key come from a fret that was resolved under the cautionary strategy? A fret with a
pitch letter is not resolved, the letter is. -/
def OfCautiousFret (i : Inscription) : Prop :=
  ∃ e, i.source = some (e, .cautionary) ∧ e.letterPitch = none

/-- A key as another run engraves it which is more cautious. What is marked stays as it is. What is
not may get a courtesy mark, and gets it exactly if it comes from a fret under the cautionary
strategy and is spelled with an accidental, which the mark shows. -/
structure Courteous (i i' : Inscription) : Prop where
  key : i'.key = i.key
  entry : i'.source.map (·.1) = i.source.map (·.1)
  kept : ∀ mark, i.mark = some mark → i'.mark = some mark
  added : i.mark = none → ∀ mark, i'.mark = some mark → mark.cautionary = true
  courtesy : i.mark = none → ∀ a,
    i'.mark = some ⟨a, true⟩ ↔ i'.OfCautiousFret ∧ i'.key.name.accidental = some a

/-- A key without a fret is engraved alike if it is marked alike, but for courtesy marks. -/
theorem Courteous.of_eq {i i' : Inscription} (hkey : i'.key = i.key) (hmark : i'.mark = i.mark)
    (hentry : i'.source.map (·.1) = i.source.map (·.1)) (hfret : ¬ i'.OfCautiousFret) :
    i.Courteous i' where
  key := hkey
  entry := hentry
  kept := fun mark h => hmark.trans h
  added := fun hnone mark h => by
    rw [hmark, hnone] at h
    cases h
  courtesy := fun hnone a => by
    rw [hmark, hnone]
    exact ⟨fun h => (nomatch h), fun h => absurd h.1 hfret⟩

end Inscription

/-- Is the second strategy the first one, or the cautionary one? -/
def AccidentalStrategy.Leans (first second : AccidentalStrategy) : Prop :=
  second = first ∨ second = .cautionary

namespace Selection

variable {s : Selection}

theorem mark_of_change (h : s.change = true) (strategy : AccidentalStrategy) :
    s.mark strategy = some ⟨s.accidental.getD .natural, false⟩ := by
  cases strategy <;> simp [mark, h]

/-- What is in force already is marked by courtesy only. -/
theorem mark_of_not_change (h : s.change = false) (strategy : AccidentalStrategy) :
    s.mark strategy =
      if strategy = .cautionary then s.accidental.map fun a => ⟨a, true⟩ else none := by
  cases strategy <;> simp [mark, h]

/-- The marks of a selection under two strategies. -/
theorem courteous_mark (h : s.accidental = s.note.accidental) {first second : AccidentalStrategy}
    (hleans : first.Leans second) {e : NoteEntry} (he : e.letterPitch = none) {key : Pitch}
    (hkey : key.name = s.note) :
    Inscription.Courteous ⟨key, s.mark first, some (e, first)⟩
      ⟨key, s.mark second, some (e, second)⟩ := by
  cases hchange : s.change with
  | true =>
      -- A change is marked under every strategy.
      rw [mark_of_change hchange, mark_of_change hchange]
      exact ⟨rfl, rfl, fun _ h => h, fun h => (nomatch h), fun h => (nomatch h)⟩
  | false =>
      have hfret : (⟨key, s.mark second, some (e, second)⟩ : Inscription).OfCautiousFret ↔
          second = .cautionary := by
        constructor
        · rintro ⟨e', hsource, _⟩
          cases hsource
          rfl
        · rintro rfl
          exact ⟨e, rfl, he⟩
      refine ⟨rfl, rfl, fun mark hmark => ?_, fun _ mark hmark => ?_, fun _ a => ?_⟩
      · -- A courtesy mark says that the first strategy is cautionary, so the second one is too.
        dsimp only at hmark ⊢
        rw [mark_of_not_change hchange] at hmark ⊢
        split at hmark
        · rename_i hfirst
          have hsecond : second = .cautionary := hleans.elim (fun h => h.trans hfirst) id
          rw [if_pos hsecond, hmark]
        · cases hmark
      · dsimp only at hmark
        rw [mark_of_not_change hchange] at hmark
        split at hmark
        · obtain ⟨a, _, rfl⟩ := Option.map_eq_some_iff.1 hmark
          rfl
        · cases hmark
      · rw [hfret, hkey, ← h]
        dsimp only
        rw [mark_of_not_change hchange]
        split
        · rename_i hsecond
          simp [hsecond]
        · rename_i hsecond
          simp [hsecond]

end Selection

/-! ## Entries -/

/-- The resolver with another strategy. -/
def Resolver.under (r : Resolver) (strategy : AccidentalStrategy) : Resolver :=
  { r with strategy := strategy }

/-- The key of a binding as it is engraved. -/
def Binding.inscription (e : NoteEntry) (strategy : AccidentalStrategy) (b : Binding) :
    Inscription :=
  ⟨b.key, b.mark, some (e, strategy)⟩

/-- The key of a resolved entry as it is engraved. -/
def ResolvedEntry.inscription (e : NoteEntry) (strategy : AccidentalStrategy) (r : ResolvedEntry) :
    Inscription :=
  ⟨r.key, r.mark, some (e, strategy)⟩

/-- Bindings of an entry under two strategies. -/
structure Binding.Marked (e : NoteEntry) (first second : AccidentalStrategy) (b b' : Binding) :
    Prop where
  frame : b' = { b with mark := b'.mark }
  courteous : first.Leans second → (b.inscription e first).Courteous (b'.inscription e second)

/-- A resolved entry under two strategies. -/
structure ResolvedEntry.Marked (e : NoteEntry) (first second : AccidentalStrategy)
    (r r' : ResolvedEntry) : Prop where
  frame : r' = { r with mark := r'.mark }
  courteous : first.Leans second → (r.inscription e first).Courteous (r'.inscription e second)

namespace Resolver

variable (r : Resolver) (m : SpellingMemory) (strategy : AccidentalStrategy)

/-- Whatever entry the fret belongs to. -/
theorem alike_fret (fret string : Nat) :
    Attempt.Alike
      (fun b b' => ∀ e : NoteEntry, e.letterPitch = none →
        Binding.Marked e r.strategy strategy b b')
      (r.fret m fret string) ((r.under strategy).fret m fret string) := by
  have htuning : (r.under strategy).tuning = r.tuning := rfl
  have hshifted (octave : Int) : (r.under strategy).shifted octave = r.shifted octave := rfl
  unfold Resolver.fret
  rw [htuning]
  cases r.tuning.pitchAt fret string with
  | error cause => exact .error m cause
  | ok pitch =>
      dsimp only
      rw [hshifted]
      cases r.shifted pitch.octave with
      | error cause => exact .error _ cause
      | ok octave =>
          exact .ok _ fun e he => ⟨rfl, fun hleans =>
            Selection.courteous_mark (m.accidental_select pitch.name) hleans he rfl⟩

theorem alike_letter {e : NoteEntry} {p : LetterPitch} (he : e.letterPitch = some p) (octave : Int)
    (fret : Fret) :
    Attempt.Alike (Binding.Marked e r.strategy strategy) (r.letter m p octave fret)
      ((r.under strategy).letter m p octave fret) := by
  have hshifted (octave : Int) : (r.under strategy).shifted octave = r.shifted octave := rfl
  unfold Resolver.letter
  cases letterName p with
  | error cause => exact .error m cause
  | ok name =>
      dsimp only
      rw [hshifted]
      cases r.shifted octave with
      | error cause => exact .error _ cause
      | ok shifted =>
          refine .ok _ ⟨rfl, fun _ => .of_eq rfl rfl rfl ?_⟩
          rintro ⟨e', hsource, hfret⟩
          cases hsource
          rw [he] at hfret
          cases hfret

theorem alike_entry (e : NoteEntry) :
    Attempt.Alike (Binding.Marked e r.strategy strategy) (r.entry m e)
      ((r.under strategy).entry m e) := by
  unfold Resolver.entry
  split
  · rename_i p he
    cases letterOctave e p with
    | error cause => exact .error m cause
    | ok octave => exact alike_letter r m strategy he octave _
  · rename_i he
    split
    · exact (alike_fret r m strategy _ _).imp fun h => h e he
    all_goals exact .error m _

end Resolver

namespace ResolvedEntry

theorem alike_resolve (r : Resolver) (m : SpellingMemory) (strategy : AccidentalStrategy)
    (e : NoteEntry) :
    Attempt.Alike (Marked e r.strategy strategy) (resolve r m e)
      (resolve (r.under strategy) m e) := by
  have hentry := r.alike_entry m strategy e
  unfold resolve
  generalize r.entry m e = attempt at hentry
  generalize (r.under strategy).entry m e = attempt' at hentry
  cases hentry with
  | error m cause => exact .error m cause
  | @ok m b b' hb =>
      dsimp only
      cases readDuration e with
      | error cause => exact .error m cause
      | ok duration =>
          refine .ok m ⟨?_, hb.courteous⟩
          rw [hb.frame]
          rfl

/-- What a chord is resolved to under two strategies. -/
inductive AllMarked (first second : AccidentalStrategy) :
    List NoteEntry → List ResolvedEntry → List ResolvedEntry → Prop
  | nil : AllMarked first second [] [] []
  | cons {e : NoteEntry} {r r' : ResolvedEntry} {chord : List NoteEntry}
      {entries entries' : List ResolvedEntry} (hfirst : Marked e first second r r')
      (hrest : AllMarked first second chord entries entries') :
      AllMarked first second (e :: chord) (r :: entries) (r' :: entries')

/-- **The strategy decides nothing but marks.** -/
theorem alike_resolveAll (r : Resolver) (m : SpellingMemory) (strategy : AccidentalStrategy)
    (chord : List NoteEntry) :
    Attempt.Alike (AllMarked r.strategy strategy chord) (resolveAll r m chord)
      (resolveAll (r.under strategy) m chord) := by
  induction chord generalizing m with
  | nil => exact .ok m .nil
  | cons e chord ih =>
      have hfirst := alike_resolve r m strategy e
      unfold resolveAll
      generalize resolve r m e = attempt at hfirst
      generalize resolve (r.under strategy) m e = attempt' at hfirst
      cases hfirst with
      | error m cause => exact .error m cause
      | ok m hentry =>
          have hrest := ih m
          dsimp only
          generalize resolveAll r m chord = attempt at hrest
          generalize resolveAll (r.under strategy) m chord = attempt' at hrest
          cases hrest with
          | error m cause => exact .error m cause
          | ok m hentries => exact .ok m (.cons hentry hentries)

end ResolvedEntry

end Tablature
