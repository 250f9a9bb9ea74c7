/-
# Tablature.Proofs.Courtesies — the cautionary strategy only adds courtesy marks.

Directives are compared with the same directives made cautionary: wherever they choose the standard
strategy for accidentals, the cautionary one is chosen. The two runs go side by side. Sessions that
agree but for the strategy in force and the accidentals at keys (`Session.Twins`) are left as such
sessions by every event, which goes through in both or stops in both for the same cause; and what
one run engraves the other engraves too, with courtesy marks added (`Twins.courteous_inscribes`). So
cautionary directives compile whenever the others do, to the same score with courtesy marks
(`compileDirectives_cautionary`).
-/
import Tablature.Proofs.Inscriptions
import Tablature.Proofs.Scripts
import Tablature.Proofs.Veils

namespace Tablature

/-! ## Cautionary directives -/

/-- An option that chooses the standard strategy chooses the cautionary one instead. -/
def cautionaryOption (option : String × String) : String × String :=
  if option = ("accidentals", "standard") then ("accidentals", "cautionary") else option

/-- The option made cautionary. -/
def OptionEntry.cautionary (o : OptionEntry) : OptionEntry :=
  { o with value := (cautionaryOption (o.key, o.value)).2 }

/-- The directive with all its options made cautionary. -/
def Directive.cautionary (d : Directive) : Directive :=
  { d with
    options := d.options.map OptionEntry.cautionary
    settings := d.settings.map OptionEntry.cautionary }

/-- The event with its options made cautionary. -/
def Event.cautionary : Event → Event
  | options entries => options (entries.map cautionaryOption)
  | event => event

/-! ### Scripts -/

theorem fst_cautionaryOption (option : String × String) :
    (cautionaryOption option).1 = option.1 := by
  unfold cautionaryOption
  split
  · rename_i h
    rw [h]
  · rfl

theorem cautionaryOption_eq_self {key value : String} (h : key ≠ "accidentals") :
    cautionaryOption (key, value) = (key, value) :=
  if_neg fun heq => h (congrArg Prod.fst heq)

namespace StaveDeclaration

/-- A stave has no option for accidentals, so its declaration is read alike. -/
theorem read_cautionary (o : OptionEntry) :
    StaveOption.read o.cautionary.key o.cautionary.value = StaveOption.read o.key o.value ∧
      ∀ option, StaveOption.read o.key o.value = .ok option → o.cautionary = o := by
  have hkey : o.cautionary.key = o.key := rfl
  by_cases h : o.key = "accidentals"
  · rw [hkey, h]
    exact ⟨rfl, fun option hread => nomatch hread⟩
  · have hsame : o.cautionary = o := by
      rw [OptionEntry.cautionary, cautionaryOption_eq_self h]
    rw [hsame]
    exact ⟨rfl, fun _ _ => rfl⟩

theorem readOptions_cautionary (entries : List OptionEntry) :
    readOptions (entries.map OptionEntry.cautionary) = readOptions entries := by
  induction entries with
  | nil => rfl
  | cons o entries ih =>
      obtain ⟨hread, hsame⟩ := read_cautionary o
      rw [List.map_cons, readOptions, readOptions, hread, ih]
      split
      · rfl
      · rename_i option hoption
        rw [hsame option hoption]

theorem ofOptions_cautionary (kind : StaveKind) (entries : List OptionEntry) :
    ofOptions kind (entries.map OptionEntry.cautionary) = ofOptions kind entries := by
  rw [ofOptions, ofOptions, readOptions_cautionary]

end StaveDeclaration

theorem Event.cautionary_eq_self {event : Event} (h : event.isContent) :
    event.cautionary = event := by
  cases event with
  | options entries => cases h
  | _ => rfl

namespace Directive

/-- **A cautionary directive stands for the same events made cautionary.** -/
theorem script_cautionary (d : Directive) :
    d.cautionary.script = d.script.map (Except.map Event.cautionary) := by
  have hbody : d.bodyScript.map (Except.map Event.cautionary) = d.bodyScript := by
    refine (List.map_congr_left fun step hmem => ?_).trans (List.map_id _)
    cases step with
    | error cause => rfl
    | ok event => exact congrArg _ (Event.cautionary_eq_self (isContent_of_mem_bodyScript hmem))
  have hoptions : (d.settings.map OptionEntry.cautionary).map (fun o => (o.key, o.value)) =
      (d.settings.map fun o => (o.key, o.value)).map cautionaryOption := by
    rw [List.map_map, List.map_map]
    refine List.map_congr_left fun o _ => ?_
    exact Prod.ext (fst_cautionaryOption (o.key, o.value)).symm rfl
  have hdeclaration (kind : StaveKind) :
      StaveDeclaration.ofOptions kind d.cautionary.options =
        StaveDeclaration.ofOptions kind d.options :=
    StaveDeclaration.ofOptions_cautionary kind d.options
  have hkind : d.cautionary.kind? = d.kind? := rfl
  have hkeyword : d.cautionary.keyword = d.keyword := rfl
  have hsameBody : d.cautionary.bodyScript = d.bodyScript := rfl
  rw [script, script, hkind, hkeyword, hsameBody]
  cases d.kind? with
  | none =>
      dsimp only
      split
      · exact congrArg (fun entries => [Except.ok (Event.options entries)]) hoptions
      · rfl
  | some kind =>
      dsimp only
      rw [hdeclaration]
      cases StaveDeclaration.ofOptions kind d.options with
      | error fault => rfl
      | ok declaration =>
          dsimp only
          rw [List.map_cons, hbody]
          split <;> rfl

end Directive

/-! ## Sessions side by side -/

/-- The veil that hides every accidental at a key, and the strategy in force. -/
def Veil.blind : Veil := ⟨fun _ => .standard, fun _ => false⟩

/-- Settings that agree but for the strategy do so with another option set. -/
theorem Settings.veil_assign (settings : Settings) (setting : Setting) :
    (settings.assign setting).veil .blind =
      ((settings.veil .blind).assign setting).veil .blind := by
  cases setting <;> rfl

theorem ResolvedEntry.AllMarked.courteous {first second : AccidentalStrategy}
    {chord : List NoteEntry} {entries entries' : List ResolvedEntry}
    (h : AllMarked first second chord entries entries') (hleans : first.Leans second) :
    List.Forall₂ Inscription.Courteous (inscriptions first chord entries)
      (inscriptions second chord entries') := by
  induction h with
  | nil => exact .nil
  | cons hfirst _ ih => exact .cons (hfirst.courteous hleans) ih

/-- Entries resolved under two strategies are alike without their marks. -/
theorem ResolvedEntry.AllMarked.veil {first second : AccidentalStrategy}
    {chord : List NoteEntry} {entries entries' : List ResolvedEntry}
    (h : ResolvedEntry.AllMarked first second chord entries entries') :
    entries'.map (ResolvedEntry.veil .blind) = entries.map (ResolvedEntry.veil .blind) := by
  induction h with
  | nil => rfl
  | @cons e r r' chord entries entries' hfirst _ ih =>
      have hentry : r'.veil .blind = r.veil .blind := by
        have hmark (mark : Option AccidentalMark) : mark.filter Veil.blind.shows = none := by
          cases mark <;> rfl
        rw [hfirst.frame]
        simp only [ResolvedEntry.veil, hmark]
      rw [List.map_cons, List.map_cons, hentry, ih]

/-- Two sessions that agree but for the strategy in force and the accidentals at keys, of which the
second may be under the cautionary strategy where the first is not. -/
structure Session.Twins (s s' : Session) : Prop where
  veil : s'.veil .blind = s.veil .blind
  leans : s.settings.accidentals.Leans s'.settings.accidentals

namespace Session

/-- Outcomes that are twins: both go through, or both stop for the same cause. -/
structure TwinOutcomes (o o' : Outcome Cause Session) : Prop where
  fault : o'.fault = o.fault
  state : o.state.Twins o'.state

namespace Twins

variable {s s' : Session}

theorem refl (s : Session) : s.Twins s := ⟨rfl, .inl rfl⟩

theorem active (h : s.Twins s') :
    s'.score.active.map (Stave.veil .blind) = s.score.active.map (Stave.veil .blind) :=
  congrArg (fun s => s.score.active) h.veil

theorem hasStaff (h : s.Twins s') : s'.hasStaff = s.hasStaff := by
  have hactive := congrArg (Option.any fun a => a.staff.isSome) h.active
  rwa [Option.any_map, Option.any_map] at hactive

theorem memory (h : s.Twins s') : s'.memory = s.memory := congrArg (·.memory) h.veil

theorem tuning (h : s.Twins s') : s'.tuning = s.tuning := congrArg (·.tuning) h.veil

theorem setup (h : s.Twins s') : s'.setup = s.setup := congrArg (·.setup) h.veil

theorem resolver (h : s.Twins s') :
    s'.resolver = s.resolver.under s'.settings.accidentals := by
  have hshift : s'.octaveShift = s.octaveShift := congrArg (·.octaveShift) h.veil
  simp only [Session.resolver, Resolver.under, h.tuning, hshift]

end Twins

/-! ### Outcomes side by side -/

namespace TwinOutcomes

variable {s s' : Session}

theorem done (h : s.Twins s') : TwinOutcomes (.done s) (.done s') := ⟨rfl, h⟩

theorem stopped (h : s.Twins s') (cause : Cause) :
    TwinOutcomes (.stopped s cause) (.stopped s' cause) := ⟨rfl, h⟩

theorem andThen {o o' : Outcome Cause Session} {next next' : Session → Outcome Cause Session}
    (h : TwinOutcomes o o') (hnext : ∀ {s s'}, s.Twins s' → TwinOutcomes (next s) (next' s')) :
    TwinOutcomes (o.andThen next) (o'.andThen next') := by
  cases hfault : o.fault with
  | none =>
      rw [Outcome.andThen_of_none hfault, Outcome.andThen_of_none (h.fault.trans hfault)]
      exact hnext h.state
  | some cause =>
      rw [Outcome.andThen_of_some hfault, Outcome.andThen_of_some (h.fault.trans hfault)]
      exact h

theorem forEach_map {α : Type} {f : α → α} {step : α → Session → Outcome Cause Session}
    (hstep : ∀ a {s s'}, s.Twins s' → TwinOutcomes (step a s) (step (f a) s')) (xs : List α)
    (h : s.Twins s') :
    TwinOutcomes (.forEach step xs s) (.forEach step (xs.map f) s') := by
  induction xs generalizing s s' with
  | nil => exact done h
  | cons a xs ih => exact (hstep a h).andThen fun h => ih h

end TwinOutcomes

variable {s s' : Session}

/-! ### Options -/

theorem Twins.withSettings (h : s.Twins s') {settings settings' : Settings}
    (hveil : settings'.veil .blind = settings.veil .blind)
    (hleans : settings.accidentals.Leans settings'.accidentals) :
    (s.withSettings settings).Twins (s'.withSettings settings') where
  veil := by
    have hsettings (t : Session) (settings : Settings) : (t.withSettings settings).veil .blind =
        (t.veil .blind).withSettings (settings.veil .blind) := rfl
    rw [hsettings, hsettings, h.veil, hveil]
  leans := hleans

theorem twins_setOption (option : String × String) (h : s.Twins s') :
    TwinOutcomes (setOption option s) (setOption (cautionaryOption option) s') := by
  have hveil : s'.settings.veil .blind = s.settings.veil .blind :=
    congrArg (fun s => s.score.settings) h.veil
  unfold setOption Settings.set
  by_cases hoption : option = ("accidentals", "standard")
  · -- Here the runs part: one strategy is chosen in the first, the other one in the second.
    subst hoption
    exact .done (h.withSettings hveil (.inr rfl))
  · rw [cautionaryOption, if_neg hoption]
    cases Setting.read option.1 option.2 with
    | error cause => exact .stopped h cause
    | ok setting =>
        refine .done (h.withSettings ?_ ?_)
        · rw [Settings.veil_assign, hveil, ← Settings.veil_assign]
        · cases setting with
          | accidentals value => exact .inl rfl
          | _ => exact h.leans

theorem twins_setOptions (entries : List (String × String)) (h : s.Twins s') :
    TwinOutcomes (s.setOptions entries) (s'.setOptions (entries.map cautionaryOption)) := by
  have hset : TwinOutcomes (.forEach setOption entries s)
      (.forEach setOption (entries.map cautionaryOption) s') :=
    .forEach_map (fun option _ _ h => twins_setOption option h) entries h
  have hspace (t : Session) : t.addSpace.veil .blind = (t.veil .blind).addSpace := rfl
  refine hset.andThen fun {t t'} ht => .done ⟨?_, ht.leans⟩
  rw [hspace, hspace, ht.veil]

/-! ### Chords -/

theorem twins_addChord (h : s.Twins s') (chord : List NoteEntry)
    (articulation : Option Articulation) (decorator : Option Decorator) :
    TwinOutcomes (s.addChord chord articulation decorator)
      (s'.addChord chord articulation decorator) := by
  have withMemory (memory : SpellingMemory) :
      ({ s with memory := memory } : Session).Twins { s' with memory := memory } :=
    ⟨congrArg (fun s => { s with memory := memory }) h.veil, h.leans⟩
  unfold addChord
  split
  · exact .done h
  · have hactive := h.active
    unfold withStave
    cases ha : s.score.active with
    | none =>
        rw [ha, Option.map_none, Option.map_eq_none_iff] at hactive
        rw [hactive]
        exact .stopped h _
    | some a =>
        rw [ha, Option.map_some, Option.map_eq_some_iff] at hactive
        obtain ⟨a', ha', _⟩ := hactive
        rw [ha', h.resolver, h.memory]
        dsimp only
        have halike := ResolvedEntry.alike_resolveAll s.resolver s.memory s'.settings.accidentals
          chord
        generalize ResolvedEntry.resolveAll s.resolver s.memory chord = attempt at halike
        generalize ResolvedEntry.resolveAll _ s.memory chord = attempt' at halike
        cases halike with
        | error memory cause => exact .stopped (withMemory memory) cause
        | ok memory hentries =>
            refine .done ⟨?_, ?_⟩
            · rw [← veil_writeChord, ← veil_writeChord, hentries.veil, (withMemory memory).veil]
            · rw [accidentals_writeChord, accidentals_writeChord]
              exact h.leans

/-- What one run engraves of a chord the other engraves with courtesy marks added. -/
theorem Twins.courteous_inscribesChord (h : s.Twins s') (chord : List NoteEntry) :
    List.Forall₂ Inscription.Courteous (s.inscribesChord chord) (s'.inscribesChord chord) := by
  have halike := ResolvedEntry.alike_resolveAll s.resolver s.memory s'.settings.accidentals chord
  unfold inscribesChord
  rw [h.resolver, h.memory]
  generalize ResolvedEntry.resolveAll s.resolver s.memory chord = attempt at halike
  generalize ResolvedEntry.resolveAll _ s.memory chord = attempt' at halike
  cases halike with
  | error memory cause => exact .nil
  | ok memory hentries =>
      exact Chord.forall₂_arrange (hentries.courteous h.leans) (Chord.placesOf chord)

/-! ### Events -/

/-- **Twins stay twins**, whatever happens to both. -/
theorem Twins.handle (h : s.Twins s') (event : Event) :
    TwinOutcomes (s.handle event) (s'.handle event.cautionary) := by
  have impartial (himpartial : event.isImpartial) (hcautionary : event.cautionary = event) :
      TwinOutcomes (s.handle event) (s'.handle event.cautionary) := by
    have hveil := veil_handle .blind himpartial s'
    rw [h.veil, veil_handle .blind himpartial s] at hveil
    rw [hcautionary]
    refine ⟨(congrArg Outcome.fault hveil).symm, (congrArg Outcome.state hveil).symm, ?_⟩
    rw [accidentals_handle himpartial, accidentals_handle himpartial]
    exact h.leans
  cases event with
  | options entries => exact twins_setOptions entries h
  | chord entries articulation decorator => exact twins_addChord h entries articulation decorator
  | note entry => exact twins_addChord h [entry] none none
  | reset =>
      refine .done ?_
      rw [Session.reset, Session.reset, h.setup]
      exact .refl _
  | _ => exact impartial rfl rfl

/-- What one run engraves the other engraves as well, with courtesy marks added. -/
theorem Twins.courteous_inscribes (h : s.Twins s') (event : Event) :
    List.Forall₂ Inscription.Courteous (s.inscribes event) (s'.inscribes event.cautionary) := by
  have chord (chord : List NoteEntry) : List.Forall₂ Inscription.Courteous
      (if s.hasStaff then s.inscribesChord chord else [])
      (if s.hasStaff then s'.inscribesChord chord else []) := by
    split
    · exact h.courteous_inscribesChord chord
    · exact .nil
  have silent : List.Forall₂ Inscription.Courteous
      (if s.hasStaff then [] else []) (if s.hasStaff then [] else []) := by
    rw [ite_self]
    exact .nil
  unfold inscribes
  rw [h.hasStaff]
  cases event with
  | chord entries articulation decorator => exact chord entries
  | note entry => exact chord [entry]
  | rest position =>
      have hkey : s'.restKey position = s.restKey position := by
        rw [restKey, restKey, h.tuning]
      dsimp only [Event.cautionary]
      rw [hkey]
      split
      · refine List.forall₂_same.2 fun i hmem => ?_
        obtain ⟨key, _, rfl⟩ := List.mem_map.1 hmem
        refine .of_eq rfl rfl rfl ?_
        rintro ⟨_, ⟨⟩, _⟩
      · exact .nil
  | _ => exact silent

theorem Twins.courteous_chronicle (h : s.Twins s') (events : List Event) :
    List.Forall₂ Inscription.Courteous (s.chronicle events)
      (s'.chronicle (events.map Event.cautionary)) := by
  induction events generalizing s s' with
  | nil => exact .nil
  | cons event events ih =>
      exact List.rel_append (h.courteous_inscribes event) (ih (h.handle event).state)

/-- Twins play a script and the script made cautionary to twins, or stop alike. -/
theorem Twins.playScript (h : s.Twins s') (script : Script) :
    TwinOutcomes (s.playScript script)
      (s'.playScript (script.map (Except.map Event.cautionary))) := by
  refine .forEach_map (fun step s s' h => ?_) script h
  cases step with
  | error cause => exact .stopped h cause
  | ok event => exact h.handle event

end Session

/-! ## Directives side by side -/

theorem script_map_cautionary (ds : List Directive) :
    (ds.map Directive.cautionary).flatMap Directive.script =
      (ds.flatMap Directive.script).map (Except.map Event.cautionary) := by
  rw [List.flatMap_map, List.map_flatMap]
  exact congrArg (List.flatMap · ds) (funext Directive.script_cautionary)

theorem Script.events_map_cautionary (script : Script) :
    Script.events (script.map (Except.map Event.cautionary)) =
      (Script.events script).map Event.cautionary := by
  rw [Script.events, Script.events, List.filterMap_map, List.map_filterMap]
  refine List.filterMap_congr fun step _ => ?_
  cases step <;> rfl

/-- **The cautionary strategy only adds courtesy marks.** If directives compile, so do they when
they are made cautionary. The two scores agree in everything but the strategy that is named and the
accidentals at keys of staves; and key by key a mark is kept as it is, and where there is none a
courtesy mark is added exactly to frets that are resolved under the cautionary strategy and spelled
with an accidental, which it shows. -/
theorem compileDirectives_cautionary {setup : PageSetup} {ds : List Directive} {s : Session}
    (h : compileDirectives setup ds = .ok s) :
    ∃ s', compileDirectives setup (ds.map Directive.cautionary) = .ok s' ∧
      s'.score.veil .blind = s.score.veil .blind ∧
      s.score.engraved = (engravings setup ds).map Inscription.drawn ∧
      s'.score.engraved =
        (engravings setup (ds.map Directive.cautionary)).map Inscription.drawn ∧
      List.Forall₂ Inscription.Courteous (engravings setup ds)
        (engravings setup (ds.map Directive.cautionary)) := by
  have hstart := Session.Twins.refl (.start setup)
  have hplayed := hstart.playScript (ds.flatMap Directive.script)
  rw [compileDirectives_eq_ok_iff.1 h, ← script_map_cautionary] at hplayed
  generalize hrun : (Session.start setup).playScript _ = run at hplayed
  obtain ⟨s', fault⟩ := run
  obtain rfl : fault = none := hplayed.fault
  have hcompiled : compileDirectives setup (ds.map Directive.cautionary) = .ok s' :=
    compileDirectives_eq_ok_iff.2 hrun
  refine ⟨s', hcompiled, congrArg Session.score hplayed.state.veil,
    engraved_compileDirectives h, engraved_compileDirectives hcompiled, ?_⟩
  unfold engravings
  rw [script_map_cautionary, Script.events_map_cautionary]
  exact hstart.courteous_chronicle _

/-- The same F sharp twice, on a stave with a staff and under the standard strategy. -/
def repeatedSharp : List Directive :=
  let note : NoteElement :=
    { time := none, dot := false, command := none, barName := none, parameters := none
      chord := none, articulation := none, decorator := none, fret := some (.number 2)
      string := some 1, letterPitch := none, octave := none, line := none, column := none }
  [{ keyword := "options", options := [], settings := [⟨"accidentals", "standard", none, none⟩]
     notes := [], text := [], line := none, column := none },
    { keyword := "tabstave", options := [⟨"notation", "true", none, none⟩], settings := []
      notes := [note, note], text := [], line := none, column := none }]

/-- The second sharp, which is in force already, is marked by courtesy. -/
theorem courtesy_of_repeatedSharp :
    ∃ s s', compileDirectives .standard repeatedSharp = .ok s ∧
      compileDirectives .standard (repeatedSharp.map Directive.cautionary) = .ok s' ∧
      s'.score.veil .blind = s.score.veil .blind ∧
      s.score.engraved =
        [(⟨⟨.f, some .sharp⟩, 5⟩, [⟨.sharp, false⟩]), (⟨⟨.f, some .sharp⟩, 5⟩, [])] ∧
      s'.score.engraved =
        [(⟨⟨.f, some .sharp⟩, 5⟩, [⟨.sharp, false⟩]),
          (⟨⟨.f, some .sharp⟩, 5⟩, [⟨.sharp, true⟩])] := by
  have compiles : compileDirectives .standard repeatedSharp = .ok _ := rfl
  obtain ⟨s', compiles', hveil, hkeys, hkeys', _⟩ := compileDirectives_cautionary compiles
  refine ⟨_, s', compiles, compiles', hveil, hkeys.trans ?_, hkeys'.trans ?_⟩
  · decide +kernel
  · decide +kernel

end Tablature
